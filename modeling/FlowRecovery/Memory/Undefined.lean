import FlowRecovery.Expr.Basic

namespace FlowRecovery

/-- What was read and holds no value. -/
inductive UndefinedValue where
  | address (address : UInt64)
  | register (name : String)
  /-- A memory access whose address is no constant. -/
  | symbolicAddress (address : Expr)
deriving DecidableEq

def UndefinedValue.message : UndefinedValue → String
  | address a => "undefined memory at " ++ Text.hex a.toNat
  | register name => "undefined register " ++ name
  | symbolicAddress a => "memory access through symbolic address " ++ a.render

/-- A change of a memory that may find something undefined; what it changed before stays
changed. -/
abbrev Edit (μ : Type) := ExceptT UndefinedValue (StateT μ Checked)

namespace Edit

variable {μ α : Type}

/-- Computes a value from a memory and changes the memory by it. -/
def update (value : μ → Attempt UndefinedValue α) (change : μ → α → μ) : Edit μ Unit := do
  let a ← value (← get)
  modify (change · a)

/-- The memory that a change makes of another one. -/
def onto (edit : Edit μ Unit) (m : μ) : Attempt UndefinedValue μ := do
  match ← edit.run.run m with
  | (.ok (), m') => return m'
  | (.error undefined, _) => .fail undefined

theorem run_update (value : μ → Attempt UndefinedValue α) (change : μ → α → μ) (m : μ) :
    (update value change).run.run m = (value m).split.map fun outcome =>
      (outcome.map fun _ => (), (outcome.toOption.map (change m)).getD m) := by
  change ((liftM (value m) : Edit μ α) >>= fun a => modify (change · a)).run.run m = _
  rcases value m with (fault | undefined) | a <;> rfl

theorem onto_update (value : μ → Attempt UndefinedValue α) (change : μ → α → μ) (m : μ) :
    (update value change).onto m = (value m).map (change m) := by
  rw [onto, run_update]
  rcases value m with (fault | undefined) | a <;> rfl

end Edit

end FlowRecovery
