import FlowRecovery.Fault

/-!
Registers. A register is a window of bits into a physical register; the low byte of a 32-bit
register `eax`, for example, is the window of size 8 at offset 0. A physical register is its own
whole window.
-/

namespace FlowRecovery

/-- A named window into a physical register. -/
structure Register where
  name : String
  /-- The physical register that holds the bits. -/
  base : String
  offset : Nat
  size : Nat
  baseSize : Nat
deriving DecidableEq

namespace Register

def physical (name : String) (size : Nat) : Register :=
  ⟨name, name, 0, size, size⟩

/-- The whole physical register behind a register. -/
def whole (r : Register) : Register :=
  physical r.base r.baseSize

/-- A window of another register; windows of windows add up their offsets. -/
def window (name : String) (r : Register) (offset size : Nat) : Checked Register := do
  require ((← addWidths offset size) ≤ r.size) .windowRange
  return ⟨name, r.base, ← addWidths r.offset offset, size, r.baseSize⟩

/-- Whether the register covers its whole physical register. -/
def isPhysical (r : Register) : Bool :=
  r.offset == 0 && r.size == r.baseSize

/-- The order by name, physical register, offset, size and physical size. -/
instance : Ord Register where
  compare a b :=
    (compare a.name b.name).then <| (compare a.base b.base).then <|
      (compare a.offset b.offset).then <| (compare a.size b.size).then <|
        compare a.baseSize b.baseSize

/-- The name of a register with its percent sign. -/
def render (r : Register) : String :=
  "%" ++ r.name

end Register

end FlowRecovery
