import Mathlib
import FlowRecovery.Proofs.Memory.Refinement

namespace FlowRecovery

/-- One use of a memory that holds values of a type. -/
inductive Access (α : Type) where
  | read (address : UInt64) (width : Nat)
  | readByte (address : UInt64)
  | write (address : UInt64) (value : α)
  | readRegister (register : Register)
  | writeRegister (register : Register) (value : α)

/-- What an access yields: a value if it reads, nothing if it writes, or what was undefined. -/
abbrev Outcome (α : Type) := Except UndefinedValue (Option α)

namespace Access

variable {α β μ : Type}

/-- The same access with other values. -/
def map (f : α → β) : Access α → Access β
  | read address width => read address width
  | readByte address => readByte address
  | write address value => write address (f value)
  | readRegister register => readRegister register
  | writeRegister register value => writeRegister register (f value)

/-- Runs accesses one after the other, each on the memory that the one before it left behind, also
where it found something undefined. A broken contract ends the sequence. -/
def run (perform : Access α → Edit μ (Option α)) :
    List (Access α) → μ → Checked (List (Outcome α) × μ)
  | [], m => return ([], m)
  | access :: rest, m => do
    let (outcome, m') ← (perform access).run.run m
    let (outcomes, last) ← run perform rest m'
    return (outcome :: outcomes, last)

section Run

variable {perform : Access α → Edit μ (Option α)} {access : Access α} {m : μ}

theorem run_cons {outcome : Outcome α} {m' : μ}
    (h : (perform access).run.run m = .ok (outcome, m')) (rest : List (Access α)) :
    run perform (access :: rest) m = (run perform rest m').map fun last =>
      (outcome :: last.1, last.2) := by
  rw [run, h]
  rfl

end Run

/-- Memory accesses cover whole bytes of at most 64 bits, values are well formed, and registers
are windows of their physical registers. -/
def Admissible (s : Scope) (widths : String → Nat) : Access Expr → Prop
  | read _ width => Word.ValidWidth width ∧ width % 8 = 0
  | readByte _ => True
  | write _ value => value.WellFormed s ∧ value.width % 8 = 0
  | readRegister register => register.Fits widths
  | writeRegister register value => register.Fits widths ∧ value.WellFormed s

/-- A value written to a register has its size. -/
def Matches : Access Expr → Prop
  | writeRegister register value => value.width = register.size
  | _ => True

end Access

def SymbolicMemory.perform : Access Expr → Edit SymbolicMemory (Option Expr)
  | .read address width => do return some (← (← get).read address width)
  | .readByte address => do return some (← (← get).readByte address)
  | .write address value => do
    set (← (← get).write address value)
    return none
  | .readRegister register => do return some (← (← get).readRegister register)
  | .writeRegister register value => do
    putRegister register value
    return none

/-- An access to concrete memory in a byte order. -/
def Memory.perform (order : ByteOrder) : Access Word → Edit Memory (Option Word)
  | .read address width => do return some (← (← get).read address width order)
  | .readByte address => do return some ⟨8, (← (← get).readByte address).toNat⟩
  | .write address value => do
    set (← (← get).write address value order)
    return none
  | .readRegister register => do return some (← (← get).readRegister register)
  | .writeRegister register value => do
    putRegister register value
    return none

theorem Edit.run_update_none {μ α β : Type} (value : μ → Attempt UndefinedValue β)
    (change : μ → β → μ) (m : μ) :
    ((do update value change; return none) : Edit μ (Option α)).run.run m = (value m).split.map
      fun outcome =>
      (outcome.map fun _ => none, (outcome.toOption.map (change m)).getD m) := by
  change ((update value change).run.run m >>= fun p => _) = _
  rw [run_update]
  rcases value m with (fault | undefined) | a <;> rfl

theorem Memory.run_writeRegister (order : ByteOrder) (m : Memory) (r : Register) (value : Word) :
    (perform order (.writeRegister r value)).run.run m = (m.merge r value).split.map
      fun outcome =>
      (outcome.map fun _ => none, (outcome.toOption.map (m.setPhysical r.base)).getD m) :=
  Edit.run_update_none _ _ m

namespace SymbolicMemory

variable {s : Scope} {widths : String → Nat} {m : SymbolicMemory}

theorem run_writeRegister (m : SymbolicMemory) (r : Register) (value : Expr) :
    (perform (.writeRegister r value)).run.run m = (m.merge r value).split.map fun outcome =>
      (outcome.map fun _ => none, (outcome.toOption.map (m.setPhysical r.base)).getD m) :=
  Edit.run_update_none _ _ m

theorem reads_refine (m : SymbolicMemory) (v : Valuation) {β : Type} (read : β → Word)
    {good : Expr → Prop} {denote : Expr → β}
    {symbolic : Attempt UndefinedValue Expr} {concrete : Attempt UndefinedValue β}
    (h : Refines good denote symbolic concrete)
    (hread : ∀ e, good e → read (denote e) = e.value v) :
    ∃ outcome : Outcome Expr,
      ((do return some (← symbolic)) : Edit SymbolicMemory (Option Expr)).run.run m =
        .ok (outcome, m) ∧
      ((do return some (read (← concrete))) : Edit Memory (Option Word)).run.run
        (m.concretise v) =
        .ok (outcome.map (Option.map (Expr.value v)), m.concretise v) := by
  rcases h with ⟨e, rfl, he, rfl⟩ | ⟨undefined, rfl, rfl⟩
  · refine ⟨.ok (some e), rfl, ?_⟩
    change Except.ok (Except.ok (some (read (denote e))), _) = _
    rw [hread e he]
    rfl
  · exact ⟨.error undefined, rfl, rfl⟩

/-- An access has an outcome and leaves a memory behind, and so has it on the concrete memory. -/
theorem perform_refines (v : Valuation) (h : m.WellFormed s widths) {access : Access Expr}
    (hadmissible : access.Admissible s widths) (hmatches : access.Matches) :
    ∃ outcome m', (perform access).run.run m = .ok (outcome, m') ∧ Follows s widths m m' ∧
      (Memory.perform m.order (access.map (Expr.value v))).run.run (m.concretise v) =
        .ok (outcome.map (Option.map (Expr.value v)), m'.concretise v) := by
  have hself : Follows s widths m m := ⟨h, rfl, rfl⟩
  cases access with
  | read address width =>
      obtain ⟨outcome, hsymbolic, hconcrete⟩ := reads_refine m v id
        (read_refines h.holdsBytes address hadmissible.1 hadmissible.2) fun _ _ => rfl
      exact ⟨outcome, m, hsymbolic, hself, hconcrete⟩
  | readByte address =>
      obtain ⟨outcome, hsymbolic, hconcrete⟩ := reads_refine m v (fun byte => ⟨8, byte.toNat⟩)
        (readByte_refines (v := v) h.holdsBytes address) fun e he => by
          obtain ⟨x, hx⟩ := he.1.exists_bits he.2 v
          simp [hx, Word.ofBits]
      exact ⟨outcome, m, hsymbolic, hself, hconcrete⟩
  | write address value =>
      obtain ⟨m', hm', hwrites, hconcrete⟩ :=
        write_refines (v := v) h.holdsBytes address hadmissible.1 hadmissible.2
      refine ⟨.ok none, m', ?_, hwrites.follows h, ?_⟩
      · change ((liftM (m.write address value) : Edit SymbolicMemory SymbolicMemory) >>=
          fun m' => _).run.run m = _
        rw [hm']
        rfl
      · change ((liftM ((m.concretise v).write address (value.value v) m.order) :
          Edit Memory Memory) >>=
          fun m' => _).run.run (m.concretise v) = _
        rw [hconcrete]
        rfl
  | readRegister register =>
      obtain ⟨outcome, hsymbolic, hconcrete⟩ := reads_refine m v id
        (readRegister_refines h hadmissible) fun _ _ => rfl
      exact ⟨outcome, m, hsymbolic, hself, hconcrete⟩
  | writeRegister register value =>
      rw [run_writeRegister, Access.map, Memory.run_writeRegister]
      rcases merge_refines (v := v) h hadmissible.1 hadmissible.2 hmatches with
        ⟨whole, hsymbolic, ⟨hwhole, hwidth⟩, hconcrete⟩ | ⟨undefined, hsymbolic, hconcrete⟩
      · rw [hsymbolic, hconcrete]
        refine ⟨.ok none, m.setPhysical register.base whole, rfl, ?_, ?_⟩
        · exact ⟨h.setPhysical _ hwhole (hwidth.trans hadmissible.1.baseSize), rfl, rfl⟩
        · rw [concretise_setPhysical]
          rfl
      · rw [hsymbolic, hconcrete]
        exact ⟨.error undefined, m, rfl, hself, rfl⟩

theorem exists_run (h : m.WellFormed s widths) {accesses : List (Access Expr)}
    (hadmissible : ∀ access ∈ accesses, access.Admissible s widths)
    (hmatches : ∀ access ∈ accesses, access.Matches) :
    ∃ result, Access.run perform accesses m = .ok result := by
  induction accesses generalizing m with
  | nil => exact ⟨_, rfl⟩
  | cons access rest ih =>
      obtain ⟨haccess, hrest⟩ := List.forall_mem_cons.mp hadmissible
      obtain ⟨hmatch, hmatches⟩ := List.forall_mem_cons.mp hmatches
      obtain ⟨outcome, m', hsymbolic, hfollows, -⟩ := perform_refines default h haccess hmatch
      obtain ⟨last, hlast⟩ := ih hfollows.wellFormed hrest hmatches
      exact ⟨_, by rw [Access.run_cons hsymbolic, hlast, Except.map]⟩

end SymbolicMemory

end FlowRecovery
