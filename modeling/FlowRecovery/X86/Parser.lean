import FlowRecovery.Decoder
import FlowRecovery.X86.Opcode

namespace FlowRecovery.X86

/-- The bytes taken so far, the last one first, and the bytes that follow. -/
structure Cursor where
  taken : List UInt8
  rest : List UInt8

/-- Why bytes are no instruction. -/
inductive ParseError where
  | truncated
  | unsupported
  | malformed
deriving DecidableEq

/-- A computation that takes bytes and may fail; the bytes stay taken. -/
abbrev Parser := ExceptT ParseError (StateM Cursor)

namespace Parser

def peek : Parser UInt8 := do
  match (← get).rest with
  | [] => throw .truncated
  | byte :: _ => return byte

def next : Parser UInt8 := do
  let cursor ← get
  match cursor.rest with
  | [] => throw .truncated
  | byte :: rest =>
    set { taken := byte :: cursor.taken, rest : Cursor }
    return byte

/-- Takes some bytes, or none of them if there are not enough. -/
def take (count : Nat) : Parser (List UInt8) := do
  let cursor ← get
  if cursor.rest.length < count then throw .truncated
  let bytes := cursor.rest.take count
  set { taken := bytes.reverse ++ cursor.taken, rest := cursor.rest.drop count : Cursor }
  return bytes

/-- The number that bytes stand for, the least significant first. -/
def littleEndian : List UInt8 → Nat
  | [] => 0
  | byte :: rest => byte.toNat + 256 * littleEndian rest

def signed (size : Size) : Parser Int := do
  let value := littleEndian (← take size.bytes)
  return if 2 * value < Word.modulus size.bits then value
    else (value : Int) - Word.modulus size.bits

def immediate (size extended : Size) : Parser Operand := do
  return .immediate ⟨extended.bits, (← signed size) % Word.modulus extended.bits |>.toNat⟩

/-- The fields of a byte of two, three and three bits. -/
def fields (byte : UInt8) : Nat × Nat × Nat :=
  (byte.toNat / 64, byte.toNat / 8 % 8, byte.toNat % 8)

/-- Takes the scale and index byte; an index number of four stands for no index. -/
def scaledIndex : Parser (Option (Gpr × Nat) × Nat) := do
  let (scale, index, base) := fields (← next)
  return (if index = 4 then none else some (.ofBits .dword index, 1 <<< scale), base)

/-- Takes a memory operand with a given mode and base field. -/
def memory (size : Size) (mode rm : Nat) : Parser Operand := do
  let (index, base) ← if rm = 4 then scaledIndex else pure (none, rm)
  if mode = 0 ∧ base = 5 then return .memory size none index (← signed .dword)
  let displacement ← match mode with
    | 1 => signed .byte
    | 2 => signed .dword
    | _ => pure 0
  return .memory size (some (.ofBits .dword base)) index displacement

/-- Takes a register operand and a register or memory operand of given sizes. -/
def registerAndRm (registerSize rmSize : Size) : Parser (Operand × Operand) := do
  let (mode, number, rm) := fields (← next)
  let register := .register (.ofBits registerSize number)
  if mode = 3 then return (register, .register (.ofBits rmSize rm))
  return (register, ← memory rmSize mode rm)

/-- Takes the prefixes; yields whether the operand size is overridden, and the last repetition. -/
def prefixes : (rest : List UInt8) → Bool → Option Repetition → Parser (Bool × Option Repetition)
  | 0x66 :: rest, _, repetition => do let _ ← next; prefixes rest true repetition
  | 0xf3 :: rest, override, _ => do let _ ← next; prefixes rest override (some .rep)
  | 0xf2 :: rest, override, _ => do let _ ← next; prefixes rest override (some .repne)
  | [], _, _ => throw .truncated
  | _, override, repetition => return (override, repetition)

def form (v : Size) : Parser Form := do
  let opcode ← next
  let entry ←
    if opcode = 0x0f then twoByte v <$> UInt8.toNat <$> next
    else pure (oneByte v opcode.toNat)
  match entry with
  | .unsupported => throw .unsupported
  | .single form => return form
  | .group select =>
    let (_, extension, _) := fields (← peek)
    match select extension with
    | some form => return form
    | none => throw .unsupported

/-- Takes the operands of a layout in an instruction at an address. -/
def operands (address : UInt64) : Layout → Parser (List Operand)
  | .none => return []
  | .register r => return [.register r]
  | .registerImmediate r => return [.register r, ← immediate r.size r.size]
  | .rm size => return [(← registerAndRm size size).2]
  | .registerRm register rm => do
    let (r, m) ← registerAndRm register rm
    return [r, m]
  | .rmRegister size => do
    let (r, m) ← registerAndRm size size
    return [m, r]
  | .rmImmediate rm size => do
    let (_, m) ← registerAndRm rm rm
    return [m, ← immediate size rm]
  | .immediate size extended => return [← immediate size extended]
  | .relative size => do
    let distance ← signed size
    let target := (address.toNat + (← get).taken.length + distance) % Word.modulus 32
    return [.target (UInt64.ofNat target.toNat)]
  | .address size => do
    let (r, m) ← registerAndRm size size
    match m with
    | .memory .. => return [r, m]
    | _ => throw .malformed

def instruction (address : UInt64) : Parser Instruction := do
  let (override, repetition) ← prefixes (← get).rest false none
  let form ← form (if override then .word else .dword)
  let operands ← operands address form.layout
  return {
    address, bytes := (← get).taken.reverse, repetition, mnemonic := form.mnemonic, operands }

end Parser

/-- The instruction at the start of some bytes. An error tells the bytes that were taken. -/
def Instruction.decode (bytes : List UInt8) (address : UInt64) : Except DecodeError Instruction :=
  let (result, cursor) := (Parser.instruction address).run ⟨[], bytes⟩
  match result with
  | .ok instruction => .ok instruction
  | .error .truncated => .error (.truncated address)
  | .error .unsupported => .error (.unsupported address cursor.taken.reverse)
  | .error .malformed => .error (.malformed address cursor.taken.reverse)

end FlowRecovery.X86
