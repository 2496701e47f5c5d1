import FlowRecovery.Architecture
import FlowRecovery.Memory.Basic
import FlowRecovery.Microcode.Graph

namespace FlowRecovery

/-- Instruction bytes that cannot be lowered. -/
inductive DecodeError where
  | malformed (address : UInt64) (bytes : List UInt8)
  | unsupported (address : UInt64) (bytes : List UInt8)
  | truncated (address : UInt64)
deriving DecidableEq

namespace DecodeError

/-- Bytes in brackets, two hexadecimal digits each. -/
def renderBytes (bytes : List UInt8) : String :=
  "[" ++ ", ".intercalate (bytes.map fun b => Text.hexPadded 2 b.toNat) ++ "]"

def message : DecodeError → String
  | malformed address bytes =>
    "malformed instruction at " ++ Text.hex address.toNat ++ ": " ++ renderBytes bytes
  | unsupported address bytes =>
    "unsupported instruction at " ++ Text.hex address.toNat ++ ": " ++ renderBytes bytes
  | truncated address =>
    "instruction at " ++ Text.hex address.toNat ++ " runs into undefined memory"

end DecodeError

/-- A computation that changes a microcode graph and may fail on the way. -/
abbrev GraphM := ExceptT DecodeError (StateT Microcode Checked)

/-- A way to lower instructions into microcode on demand. It keeps no state between instructions:
what it does depends on the memory, the address and the graph only. -/
structure Decoder where
  arch : Architecture
  /-- Lowers the instruction at an address and yields the address of the next one. -/
  decode : Memory → UInt64 → GraphM UInt64
  /-- The address of the instruction that follows the one at an address. -/
  nextAddress : Memory → UInt64 → Except DecodeError UInt64

/-- The defined bytes from an address on, up to a greatest number. -/
def Memory.fetch (m : Memory) (address : UInt64) : (count : Nat) → List UInt8
  | 0 => []
  | count + 1 => match m.byte? address with
    | some byte => byte :: m.fetch (address + 1) count
    | none => []

end FlowRecovery
