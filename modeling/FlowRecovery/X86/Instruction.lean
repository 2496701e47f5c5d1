import FlowRecovery.Word
import FlowRecovery.X86.Register

namespace FlowRecovery.X86

/-- The prefixes that repeat a string instruction. -/
inductive Repetition where
  | rep
  | repne
deriving DecidableEq

/-- The tests of conditional jumps on the flags. -/
inductive FlagTest where
  | overflow | below | equal | belowOrEqual | sign | parity | less | lessOrEqual
deriving DecidableEq

/-- The condition of a conditional jump: a test, or the opposite of one. -/
structure Condition where
  test : FlagTest
  negated : Bool
deriving DecidableEq

namespace Condition

def tests : Vector FlagTest 8 :=
  #v[.overflow, .below, .equal, .belowOrEqual, .sign, .parity, .less, .lessOrEqual]

/-- The condition a bit pattern stands for; only the lowest four bits count, and the last one
negates. -/
def ofBits (bits : Nat) : Condition :=
  ⟨tests.get (lowBits (bits / 2)), bits % 2 == 1⟩

def render (c : Condition) : String :=
  match c.test, c.negated with
  | .overflow, false => "o" | .overflow, true => "no"
  | .below, false => "b" | .below, true => "ae"
  | .equal, false => "e" | .equal, true => "ne"
  | .belowOrEqual, false => "be" | .belowOrEqual, true => "a"
  | .sign, false => "s" | .sign, true => "ns"
  | .parity, false => "p" | .parity, true => "np"
  | .less, false => "l" | .less, true => "ge"
  | .lessOrEqual, false => "le" | .lessOrEqual, true => "g"

end Condition

/-- The operations. -/
inductive Mnemonic where
  | add | or | and | sub | xor | cmp | test
  | inc | dec
  | mov | movzx | movsx | lea
  | push | pop
  | jmp | jcc (condition : Condition) | jecxz | call | ret
  | stosb | movsb
  | nop | hlt
deriving DecidableEq

def Mnemonic.render : Mnemonic → String
  | add => "add" | or => "or" | and => "and" | sub => "sub" | xor => "xor" | cmp => "cmp"
  | test => "test" | inc => "inc" | dec => "dec" | mov => "mov" | movzx => "movzx"
  | movsx => "movsx" | lea => "lea" | push => "push" | pop => "pop" | jmp => "jmp"
  | jcc condition => "j" ++ condition.render
  | jecxz => "jecxz" | call => "call" | ret => "ret" | stosb => "stosb" | movsb => "movsb"
  | nop => "nop" | hlt => "hlt"

/-- An operand. -/
inductive Operand where
  | register (r : Gpr)
  /-- The value in memory at a base, plus an index times its scale, plus a displacement. -/
  | memory (size : Size) (base : Option Gpr) (index : Option (Gpr × Nat)) (displacement : Int)
  | immediate (value : Word)
  /-- The absolute target of a relative jump. -/
  | target (address : UInt64)
deriving DecidableEq

/-- The name of an operand size in a memory operand. -/
def Size.render : Size → String
  | byte => "byte"
  | word => "word"
  | dword => "dword"

namespace Operand

/-- The text of the displacement of a memory operand that has a base or an index. -/
def renderDisplacement (displacement : Int) : String :=
  if 0 < displacement then "+" ++ Text.hex displacement.toNat
  else if displacement < 0 then "-" ++ Text.hex (-displacement).toNat
  else ""

def render : Operand → String
  | register r => r.name
  | memory size base index displacement =>
    let place := match base, index with
      | none, none => Text.hex (displacement % Word.modulus 32).toNat
      | some b, none => b.name ++ renderDisplacement displacement
      | none, some (i, scale) =>
          i.name ++ "*" ++ toString scale ++ renderDisplacement displacement
      | some b, some (i, scale) =>
        b.name ++ "+" ++ i.name ++ "*" ++ toString scale ++ renderDisplacement displacement
    size.render ++ " ptr [" ++ place ++ "]"
  | immediate value => Text.hex value.value
  | target address => Text.hex address.toNat

end Operand

/-- A decoded instruction. -/
structure Instruction where
  address : UInt64
  bytes : List UInt8
  repetition : Option Repetition
  mnemonic : Mnemonic
  operands : List Operand
deriving DecidableEq

def Instruction.render (i : Instruction) : String :=
  let repetition := match i.repetition with
    | some .rep => "rep "
    | some .repne => "repne "
    | none => ""
  let operands := match i.operands with
    | [] => ""
    | operands => " " ++ ", ".intercalate (operands.map Operand.render)
  repetition ++ i.mnemonic.render ++ operands

end FlowRecovery.X86
