import FlowRecovery.Expr.Substitution
import FlowRecovery.Memory.Symbolic
import FlowRecovery.Microcode.Graph

namespace FlowRecovery

/-- One point of an exploration. -/
structure State where
  pc : Location
  memory : SymbolicMemory
  pathCondition : Expr
deriving DecidableEq

/-- The constant address a cell has, given its evaluated base; the sum wraps at the base's
width. -/
def concreteAddress (base : Expr) (offset : UInt64) : Attempt UndefinedValue UInt64 :=
  match base.const? with
  | some value => do
      return UInt64.ofNat (← Word.ofNat value.width (value.value + offset.toNat)).value
  | none => .fail (.symbolicAddress base)

namespace SymbolicMemory

/-- The value of a register or of a cell whose base is evaluated; other expressions have none. -/
def value? (m : SymbolicMemory) : Expr → Attempt UndefinedValue (Option Expr)
  | .reg r => some <$> m.readRegister r
  | .mem base offset width => do
    let address ← concreteAddress (← base.simplify) offset
    some <$> m.read address width
  | _ => return none

/-- Replaces all registers and cells of an expression by their values, and simplifies. -/
def eval (m : SymbolicMemory) (e : Expr) : Attempt UndefinedValue Expr := do
  (← e.transformM m.value?).simplify

/-- Runs a statement. The value is computed before the address, both in the old memory. -/
def exec (m : SymbolicMemory) : Statement → Attempt UndefinedValue SymbolicMemory
  | .skip => return m
  | .assign place value => do
    let value ← m.eval value
    match place with
    | .reg r => m.writeRegister r value
    | .mem base offset _ => do
      let address ← concreteAddress (← m.eval base) offset
      m.write address value
    | _ => throw (.fault (.executedPlace place.render))

end SymbolicMemory

namespace State

/-- What tells states apart: location and memory, but not the path that led there. -/
def point (s : State) : Location × SymbolicMemory :=
  (s.pc, s.memory)

def render (s : State) : String :=
  "State at " ++ s.pc.render ++ " [\n    path: " ++ s.pathCondition.render ++ "\n" ++
    s.memory.render ++ "]"

end State

end FlowRecovery
