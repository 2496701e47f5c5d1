import FlowRecovery.X86.Instruction

namespace FlowRecovery.X86

/-- How the operands follow the opcode. -/
inductive Layout where
  | none
  /-- A register that the opcode names. -/
  | register (r : Gpr)
  /-- A register that the opcode names, and an immediate of its size. -/
  | registerImmediate (r : Gpr)
  | rm (size : Size)
  /-- A register and a register or memory operand. -/
  | registerRm (register rm : Size)
  /-- A register or memory operand and a register. -/
  | rmRegister (size : Size)
  /-- A register or memory operand and an immediate that is extended to its size. -/
  | rmImmediate (rm immediate : Size)
  /-- An immediate of one size that is extended to another. -/
  | immediate (size extended : Size)
  /-- A jump distance from the end of the instruction. -/
  | relative (size : Size)
  /-- A register and a memory operand whose address is taken. -/
  | address (size : Size)
deriving DecidableEq

/-- An operation with the layout of its operands. -/
structure Form where
  mnemonic : Mnemonic
  layout : Layout
deriving DecidableEq

/-- The entry of the opcode table for an opcode. -/
inductive Entry where
  | unsupported
  | single (form : Form)
  /-- One form for each value, from zero to seven, of the middle bits of the next byte. -/
  | group (form : Nat → Option Form)

/-- The arithmetic operations in the order of the encoding; operations with carry are missing. -/
def arithmetic? : Nat → Option Mnemonic
  | 0 => some .add
  | 1 => some .or
  | 4 => some .and
  | 5 => some .sub
  | 6 => some .xor
  | 7 => some .cmp
  | _ => none

/-- The operand layouts of arithmetic opcodes in the order of the encoding. -/
def arithmeticLayout? (v : Size) : Nat → Option Layout
  | 0 => some (.rmRegister .byte)
  | 1 => some (.rmRegister v)
  | 2 => some (.registerRm .byte .byte)
  | 3 => some (.registerRm v v)
  | 4 => some (.registerImmediate .al)
  | 5 => some (.registerImmediate (.ofBits v 0))
  | _ => none

def arithmeticGroup (layout : Layout) : Entry :=
  .group fun extension => (arithmetic? extension).map fun mnemonic => ⟨mnemonic, layout⟩

/-- A group whose only operation moves an immediate. -/
def moveGroup (size : Size) : Entry :=
  .group fun extension => if extension = 0 then some ⟨.mov, .rmImmediate size size⟩ else none

/-- The table of one-byte opcodes, for a given size of operands that are not bytes. -/
def oneByte (v : Size) (opcode : Nat) : Entry :=
  match opcode with
  | 0x68 => .single ⟨.push, .immediate .dword .dword⟩
  | 0x6a => .single ⟨.push, .immediate .byte .dword⟩
  | 0x80 => arithmeticGroup (.rmImmediate .byte .byte)
  | 0x81 => arithmeticGroup (.rmImmediate v v)
  | 0x83 => arithmeticGroup (.rmImmediate v .byte)
  | 0x84 => .single ⟨.test, .rmRegister .byte⟩
  | 0x85 => .single ⟨.test, .rmRegister v⟩
  | 0x88 => .single ⟨.mov, .rmRegister .byte⟩
  | 0x89 => .single ⟨.mov, .rmRegister v⟩
  | 0x8a => .single ⟨.mov, .registerRm .byte .byte⟩
  | 0x8b => .single ⟨.mov, .registerRm v v⟩
  | 0x8d => .single ⟨.lea, .address v⟩
  | 0x90 => .single ⟨.nop, .none⟩
  | 0xa4 => .single ⟨.movsb, .none⟩
  | 0xa8 => .single ⟨.test, .registerImmediate .al⟩
  | 0xa9 => .single ⟨.test, .registerImmediate (.ofBits v 0)⟩
  | 0xaa => .single ⟨.stosb, .none⟩
  | 0xc2 => .single ⟨.ret, .immediate .word .word⟩
  | 0xc3 => .single ⟨.ret, .none⟩
  | 0xc6 => moveGroup .byte
  | 0xc7 => moveGroup v
  | 0xe3 => .single ⟨.jecxz, .relative .byte⟩
  | 0xe8 => .single ⟨.call, .relative .dword⟩
  | 0xe9 => .single ⟨.jmp, .relative .dword⟩
  | 0xeb => .single ⟨.jmp, .relative .byte⟩
  | 0xf4 => .single ⟨.hlt, .none⟩
  | 0xfe => .group fun
    | 0 => some ⟨.inc, .rm .byte⟩
    | 1 => some ⟨.dec, .rm .byte⟩
    | _ => none
  | 0xff => .group fun
    | 0 => some ⟨.inc, .rm v⟩
    | 1 => some ⟨.dec, .rm v⟩
    | 2 => some ⟨.call, .rm .dword⟩
    | 4 => some ⟨.jmp, .rm .dword⟩
    | 6 => some ⟨.push, .rm v⟩
    | _ => none
  | _ =>
    if opcode < 0x40 then match arithmetic? (opcode / 8), arithmeticLayout? v (opcode % 8) with
      | some mnemonic, some layout => .single ⟨mnemonic, layout⟩
      | _, _ => .unsupported
    else match opcode / 8 with
      | 0x8 => .single ⟨.inc, .register (.ofBits v opcode)⟩
      | 0x9 => .single ⟨.dec, .register (.ofBits v opcode)⟩
      | 0xa => .single ⟨.push, .register (.ofBits .dword opcode)⟩
      | 0xb => .single ⟨.pop, .register (.ofBits .dword opcode)⟩
      | 0xe | 0xf => .single ⟨.jcc (.ofBits opcode), .relative .byte⟩
      | 0x16 => .single ⟨.mov, .registerImmediate (.ofBits .byte opcode)⟩
      | 0x17 => .single ⟨.mov, .registerImmediate (.ofBits v opcode)⟩
      | _ => .unsupported

/-- The table of the opcodes behind the byte `0f`. -/
def twoByte (v : Size) (opcode : Nat) : Entry :=
  match opcode with
  | 0xb6 => .single ⟨.movzx, .registerRm v .byte⟩
  | 0xb7 => .single ⟨.movzx, .registerRm v .word⟩
  | 0xbe => .single ⟨.movsx, .registerRm v .byte⟩
  | 0xbf => .single ⟨.movsx, .registerRm v .word⟩
  | _ =>
    if opcode / 16 = 0x8 then .single ⟨.jcc (.ofBits opcode), .relative .dword⟩ else .unsupported

end FlowRecovery.X86
