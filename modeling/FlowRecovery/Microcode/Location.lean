import FlowRecovery.Fault
import FlowRecovery.Text.Numeral

namespace FlowRecovery

/-- One micro step of an instruction. -/
structure Location where
  instruction : UInt64
  step : Nat
deriving DecidableEq

namespace Location

/-- The order by instruction, then by step. -/
instance : Ord Location where
  compare := compareLex (compareOn instruction) (compareOn step)

instance : Std.TransOrd Location :=
  inferInstanceAs (Std.TransCmp (compareLex (compareOn instruction) (compareOn step)))

instance : Std.LawfulEqOrd Location where
  eq_of_compare {a b} h := by
    obtain ⟨hi, hs⟩ := Ordering.then_eq_eq.mp h
    cases a
    cases b
    congr
    · exact Std.LawfulEqOrd.eq_of_compare hi
    · exact Std.LawfulEqOrd.eq_of_compare hs

def boundary (instruction : UInt64) : Location :=
  ⟨instruction, 0⟩

def isBoundary (l : Location) : Bool :=
  l.step == 0

/-- The location some steps further in the same instruction; steps are counted below 2 ^ 32. -/
def advance (l : Location) (steps : Nat) : Checked Location := do
  require (l.step + steps < 0x100000000) .overflow
  return ⟨l.instruction, l.step + steps⟩

/-- The instruction address and the step, as in `0x10.3`. -/
def render (l : Location) : String :=
  Text.hex l.instruction.toNat ++ "." ++ toString l.step

end Location

end FlowRecovery
