import Mathlib
import FlowRecovery.Testing
import FlowRecovery.Simulation.Simulator
import FlowRecovery.Proofs.Simulation.Evaluation
import FlowRecovery.Proofs.Solver.Enumeration

namespace FlowRecovery

section Results

variable {ε α β : Type} {d d' : Discovery}

/-- A computation breaks no contract and returns a value, which turns one discovery into
another. -/
def SimM.Returns (x : SimM α) (d : Discovery) (a : α) (d' : Discovery) : Prop :=
  x.run.run d = (.ok a, d')

theorem SimM.Returns.eq_of_pure {a b : α} (h : SimM.Returns (pure a) d b d') : a = b := by
  cases h
  rfl

theorem SimM.Returns.of_bind {x : SimM α} {f : α → SimM β} {b : β}
    (h : SimM.Returns (x >>= f) d b d') :
    ∃ a d₁, SimM.Returns x d a d₁ ∧ SimM.Returns (f a) d₁ b d' := by
  rw [Returns, ExceptT.run_bind, StateT.run_bind] at h
  rcases hx : x.run.run d with ⟨_ | a, d₁⟩
  · rw [hx] at h
    cases h
  · rw [hx] at h
    exact ⟨a, d₁, hx, h⟩

theorem SimM.Returns.of_liftM {c : Checked α} {a : α} (h : SimM.Returns (liftM c) d a d') :
    c = .ok a := by
  cases h
  rfl

/-- A computation that may fail returns a value. -/
def Succeeds (x : ExceptT ε SimM α) (d : Discovery) (a : α) (d' : Discovery) : Prop :=
  SimM.Returns x.run d (.ok a) d'

theorem Succeeds.eq_of_pure {a b : α} (h : Succeeds (ε := ε) (pure a) d b d') : a = b := by
  cases h
  rfl

theorem Succeeds.of_bind {x : ExceptT ε SimM α} {f : α → ExceptT ε SimM β} {b : β}
    (h : Succeeds (x >>= f) d b d') : ∃ a d₁, Succeeds x d a d₁ ∧ Succeeds (f a) d₁ b d' := by
  rw [Succeeds, ExceptT.run_bind] at h
  obtain ⟨result, d₁, hx, h⟩ := h.of_bind
  cases result with
  | error error => cases h
  | ok a => exact ⟨a, d₁, hx, h⟩

theorem Succeeds.of_liftM {x : SimM α} {a : α} (h : Succeeds (ε := ε) (liftM x) d a d') :
    SimM.Returns x d a d' := by
  obtain ⟨b, d₁, hx, h⟩ := SimM.Returns.of_bind h
  cases h
  exact hx

theorem Succeeds.of_attempt {x : Attempt ε α} {a : α} (h : Succeeds (ε := ε) (liftM x) d a d') :
    x = .ok a :=
  Attempt.eq_ok_of_split (SimM.Returns.of_liftM h)

end Results

def Scope.variables (vars : String → Nat → Prop) : Scope :=
  ⟨vars, fun _ => False, False⟩

/-- The memory is well formed and the path condition is a formula. -/
structure State.WellFormed (scope : Scope) (widths : String → Nat) (s : State) : Prop where
  memory : s.memory.WellFormed scope widths
  condition : s.pathCondition.WellFormed scope
  condition_width : s.pathCondition.width = 1

/-- Guard and statement of an arrow are well formed, and the guard is a formula. -/
structure Arrow.WellFormed (scope : Scope) (a : Arrow) : Prop where
  guard : a.guard.WellFormed scope
  guard_width : a.guard.width = 1
  statement : a.statement.WellFormed scope

/-- The arrows to fixed locations that graphs get from well formed operands. -/
inductive Arrow.Built (scope : Scope) : Arrow → Prop
  | skip {mc mc' : Microcode} {source target : Location} {guard : Expr}
      (h : mc.addSkip source target guard = .ok mc') (hguard : guard.WellFormed scope) :
      Built scope ⟨source, .static target, guard, .skip⟩
  | assign {mc mc' : Microcode} {source target : Location} {place value : Expr}
      {given : Option Location}
      (h : mc.addAssignment source place value given = .ok (target, mc'))
      (hplace : place.WellFormed scope)
      (hvalue : value.WellFormed scope) :
      Built scope ⟨source, .static target, .bool true, .assign place value⟩

theorem Arrow.Built.wellFormed {scope : Scope} {a : Arrow} (h : a.Built scope) :
    a.WellFormed scope ∧ ∃ location, a.target = .static location := by
  cases h with
  | @skip _ _ _ target _ h hguard =>
      obtain ⟨_, hwidth, -⟩ := exists_of_bind_eq_ok h
      exact ⟨⟨hguard, of_require_eq_ok hwidth, trivial⟩, target, rfl⟩
  | @assign _ _ _ target _ _ _ h hplace hvalue =>
      obtain ⟨_, hisPlace, h⟩ := exists_of_bind_eq_ok h
      obtain ⟨_, hwidth, -⟩ := exists_of_bind_eq_ok h
      have hstatement : Statement.WellFormed scope (.assign _ _) :=
        ⟨of_require_eq_ok hisPlace, hplace, hvalue, of_require_eq_ok hwidth⟩
      exact ⟨⟨Expr.wellFormed_bool true, rfl, hstatement⟩, target, rfl⟩

namespace Simulator

variable {sim : Simulator} {s : State} {a : Arrow} {location : Location} {list : List State}
  {d d' : Discovery}

theorem step_cases (htarget : a.target = .static location)
    (h : Succeeds (sim.step s a) d list d') :
    ∃ guard outcome d₁ d₂, s.memory.eval a.guard = .ok guard ∧
      SimM.Returns (sim.restrict s.pathCondition guard) d₁ outcome d₂ ∧
      ((outcome = none ∧ list = []) ∨ ∃ condition memory, outcome = some condition ∧
        s.memory.exec a.statement = .ok memory ∧ list = [⟨location, memory, condition⟩]) := by
  rw [step, htarget] at h
  obtain ⟨guard, d₁, hguard, h⟩ := h.of_bind
  obtain ⟨outcome, d₂, houtcome, h⟩ := h.of_bind
  refine ⟨guard, outcome, d₁, d₂, hguard.of_attempt, houtcome.of_liftM, ?_⟩
  cases outcome with
  | none =>
      obtain ⟨_, d₃, -, h⟩ := h.of_bind
      exact .inl ⟨rfl, h.eq_of_pure.symm⟩
  | some condition =>
      obtain ⟨targets, d₃, htargets, h⟩ := h.of_bind
      obtain ⟨memory, d₄, hmemory, h⟩ := h.of_bind
      refine .inr ⟨condition, memory, rfl, hmemory.of_attempt, ?_⟩
      rw [← h.eq_of_pure, ← htargets.eq_of_pure]
      rfl

theorem isTrue_value_of_bool? {e : Expr} {value : Bool} (h : e.bool? = some value)
    (v : Valuation) :
    (e.value v).isTrue = value := by
  rw [Expr.bool?] at h
  split at h
  · obtain ⟨c, hc, rfl⟩ := Option.map_eq_some_iff.mp h
    rw [Expr.const?_eq_some.mp hc, Expr.value]
  · cases h

variable {scope : Scope} {widths : String → Nat} {v : Valuation}

theorem isTrue_value_and {p q : Expr} (hp : p.WellFormed scope) (hq : q.WellFormed scope)
    (hpWidth : p.width = 1) (hqWidth : q.width = 1) (v : Valuation) :
    ((Expr.binary .and p q).value v).isTrue = true ↔
      (p.value v).isTrue = true ∧ (q.value v).isTrue = true := by
  have hbits : ∀ x y : BitVec 1, (x &&& y != 0#1) = true ↔
      (x != 0#1) = true ∧ (y != 0#1) = true := by decide
  obtain ⟨x, hx⟩ := hp.exists_bits hpWidth v
  obtain ⟨y, hy⟩ := hq.exists_bits hqWidth v
  simp only [Expr.value, hx, hy, BinaryOp.on_ofBits, BinaryOp.onBits, Word.isTrue_ofBits,
    BitVec.setWidth_eq, hbits]

theorem isFeasible_sound (hsolver : sim.solver.SoundOver scope) {formula : Expr}
    (hformula : formula.WellFormed scope) (hwidth : formula.width = 1)
    (h : SimM.Returns (sim.isFeasible formula) d false d') (v : Valuation) :
    ¬ (formula.value v).isTrue = true := by
  rw [isFeasible] at h
  split at h
  case h_1 value hvalue =>
    rw [isTrue_value_of_bool? hvalue, h.eq_of_pure]
    decide
  case h_2 =>
    obtain ⟨result, d₁, hresult, h⟩ := h.of_bind
    cases result with
    | error error =>
        obtain ⟨_, d₂, -, h⟩ := h.of_bind
        cases h.eq_of_pure
    | ok answer =>
        have hunsat : answer = .unsat := by simpa [Satisfiability.isFeasible] using h.eq_of_pure
        subst hunsat
        rw [← hformula.satisfies_iff]
        exact hsolver formula hformula hwidth (Attempt.eq_ok_of_split hresult.of_liftM) v

/-- A restricted condition holds where the condition and the guard do, and there is one unless
they hold together nowhere. -/
theorem restrict_spec (hsolver : sim.solver.SoundOver scope) {condition guard : Expr}
    (hcondition : condition.WellFormed scope) (hconditionWidth : condition.width = 1)
    (hguard : guard.WellFormed scope) (hguardWidth : guard.width = 1) {outcome : Option Expr}
    (h : SimM.Returns (sim.restrict condition guard) d outcome d') :
    (∀ restricted, outcome = some restricted → restricted.WellFormed scope ∧
      restricted.width = 1 ∧
      ∀ v, (restricted.value v).isTrue = true ↔
        (condition.value v).isTrue = true ∧ (guard.value v).isTrue = true) ∧
    (outcome = none → ∀ v,
      ¬ ((condition.value v).isTrue = true ∧ (guard.value v).isTrue = true)) := by
  rw [restrict] at h
  split at h
  case h_1 htrue =>
    obtain rfl := h.eq_of_pure
    refine ⟨?_, by simp⟩
    rintro _ ⟨⟩
    refine ⟨hcondition, hconditionWidth, fun v => ?_⟩
    rw [isTrue_value_of_bool? htrue, and_iff_left rfl]
  case h_2 hfalse =>
    obtain rfl := h.eq_of_pure
    refine ⟨by simp, fun _ v => ?_⟩
    rw [isTrue_value_of_bool? hfalse]
    simp
  case h_3 =>
    -- only here the solver is asked, and only about the simplified conjunction
    have hboth : (Expr.binary .and condition guard).WellFormed scope :=
      ⟨hcondition, hguard, hconditionWidth.trans hguardWidth.symm⟩
    obtain ⟨restricted, hrestricted, hequiv⟩ := Expr.simplify_sound hboth
    have hwidth : restricted.width = 1 := hequiv.width.trans hconditionWidth
    have hvalue (v : Valuation) : (restricted.value v).isTrue = true ↔
        (condition.value v).isTrue = true ∧ (guard.value v).isTrue = true := by
      rw [hequiv.value, isTrue_value_and hcondition hguard hconditionWidth hguardWidth]
    rw [Expr.mkBinary_of_wellFormed hboth] at h
    obtain ⟨both, d₁, hbothEq, h⟩ := h.of_bind
    cases hbothEq.of_liftM
    obtain ⟨result, d₂, hresult, h⟩ := h.of_bind
    cases hrestricted.symm.trans hresult.of_liftM
    obtain ⟨feasible, d₃, hfeasible, h⟩ := h.of_bind
    obtain rfl := h.eq_of_pure
    cases feasible with
    | true =>
        refine ⟨?_, by simp⟩
        rintro _ ⟨⟩
        exact ⟨hequiv.wellFormed, hwidth, hvalue⟩
    | false =>
        refine ⟨by simp, fun _ v => ?_⟩
        rw [← hvalue]
        exact isFeasible_sound hsolver hequiv.wellFormed hwidth hfeasible v

theorem step_sound (hsolver : sim.solver.SoundOver scope) (hs : s.WellFormed scope widths)
    (ha : a.WellFormed (scope.onMemory widths)) (htarget : a.target = .static location)
    (v : Valuation) (h : Succeeds (sim.step s a) d list d') :
    ∃ g, (s.memory.concretise v).eval s.memory.order v a.guard = .ok g ∧
      (v.Satisfies s.pathCondition → g.isTrue = true → list.length = 1) ∧
      ∀ next ∈ list, next.WellFormed scope widths ∧ next.pc = location ∧
        SymbolicMemory.Follows scope widths s.memory next.memory ∧
        (s.memory.concretise v).exec s.memory.order v a.statement =
          .ok (next.memory.concretise v) ∧
        (v.Satisfies next.pathCondition ↔ v.Satisfies s.pathCondition ∧ g.isTrue = true) := by
  obtain ⟨guard, outcome, d₁, d₂, hguard, houtcome, hcases⟩ := step_cases htarget h
  obtain ⟨hguardWF, hguardWidth, hguardValue⟩ :=
    (SymbolicMemory.eval_yields (v := v) hs.memory ha.guard).of_eq_ok hguard
  obtain ⟨hsome, hnone⟩ := restrict_spec hsolver hs.condition hs.condition_width hguardWF
    (hguardWidth.trans ha.guard_width) houtcome
  refine ⟨guard.value v, hguardValue, ?_⟩
  rw [hs.condition.satisfies_iff]
  rcases hcases with ⟨rfl, rfl⟩ | ⟨condition, memory, rfl, hmemory, rfl⟩
  · refine ⟨fun hcondition htrue => ?_, by simp⟩
    exact absurd ⟨hcondition, htrue⟩ (hnone rfl v)
  · obtain ⟨hcondition, hwidth, hvalue⟩ := hsome condition rfl
    obtain ⟨hfollows, hexec⟩ :=
      (SymbolicMemory.exec_yields (v := v) hs.memory ha.statement).of_eq_ok hmemory
    refine ⟨fun _ _ => rfl, ?_⟩
    rw [List.forall_mem_singleton, hcondition.satisfies_iff]
    exact ⟨⟨hfollows.wellFormed, hcondition, hwidth⟩, rfl, hfollows, hexec, hvalue v⟩

/-- One symbolic step simulates the concrete step. Under a valuation that satisfies the path
condition and makes the guard true there is exactly one successor: its location is the target, the
valuation satisfies its path condition, and its memory stands for the concrete memory after the
statement. Under any other valuation no successor's path condition holds. -/
theorem step_simulates_concrete {vars : String → Nat → Prop}
    (hsolver : sim.solver.SoundOver (.variables vars))
    (hs : s.WellFormed (.variables vars) widths)
    (ha : a.Built ((Scope.variables vars).onMemory widths)) (v : Valuation)
    (h : Succeeds (sim.step s a) d list d') :
    ∃ g, (s.memory.concretise v).eval s.memory.order v a.guard = .ok g ∧
      (v.Satisfies s.pathCondition → g.isTrue = true →
        ∃ next, list = [next] ∧ a.target = .static next.pc ∧ v.Satisfies next.pathCondition ∧
          (s.memory.concretise v).exec s.memory.order v a.statement =
            .ok (next.memory.concretise v)) ∧
      (¬ (v.Satisfies s.pathCondition ∧ g.isTrue = true) →
        ∀ next ∈ list, ¬ v.Satisfies next.pathCondition) := by
  obtain ⟨haWF, location, htarget⟩ := ha.wellFormed
  obtain ⟨g, hg, hlength, hnext⟩ := step_sound hsolver hs haWF htarget v h
  refine ⟨g, hg, fun hcondition htrue => ?_, fun hnot next hmem hsatisfies => ?_⟩
  · obtain ⟨next, rfl⟩ := List.length_eq_one_iff.mp (hlength hcondition htrue)
    obtain ⟨-, hpc, -, hexec, hiff⟩ := hnext next (List.mem_singleton_self next)
    exact ⟨next, rfl, by rw [htarget, hpc], hiff.mpr ⟨hcondition, htrue⟩, hexec⟩
  · obtain ⟨-, -, -, -, hiff⟩ := hnext next hmem
    exact hnot (hiff.mp hsatisfies)

/-- A sum of two register windows, one from the image, goes to a cell whose address wraps
around. -/
theorem step_simulates_concrete_of_store :
    let sim : Simulator :=
      ⟨.ofGraph ⟨.x86, .little, 32, 32, "eip", ∅⟩ {}, .enumerating 16, .empty, {}⟩
    let registers := (∅ : Std.ExtTreeMap String Expr).insert "esp" (.const ⟨32, 0xfffffffc⟩)
    let image : Memory :=
      ⟨{ registers := (∅ : Std.ExtTreeMap String Word).insert "ecx" ⟨32, 5⟩ }, []⟩
    let memory : SymbolicMemory :=
      { registers := registers.insert "eax" (.var "x" 32), order := .little, image }
    let s : State := ⟨.boundary 0, memory, .binary .ult (.var "x" 32) (.const ⟨32, 16⟩)⟩
    let place : Expr := .mem (.reg ⟨"esp", "esp", 0, 32, 32⟩) 8 16
    let value : Expr := .binary .add (.reg ⟨"ax", "eax", 0, 16, 32⟩)
      (.reg ⟨"cx", "ecx", 0, 16, 32⟩)
    let a : Arrow := ⟨.boundary 0, .static ⟨0, 1⟩, .bool true, .assign place value⟩
    let scope := Scope.variables fun _ width => width = 32
    let v : Valuation := ⟨fun _ width => BitVec.ofNat width 3, fun _ => 0, fun _ _ _ => 0⟩
    (sim.solver.SoundOver scope ∧ s.WellFormed scope (fun _ => 32) ∧
      a.Built (scope.onMemory fun _ => 32)) ∧
    ∃ list d', Succeeds (sim.step s a) {} list d' ∧
    ∃ g, (s.memory.concretise v).eval s.memory.order v a.guard = .ok g ∧
      (v.Satisfies s.pathCondition → g.isTrue = true →
        ∃ next, list = [next] ∧ a.target = .static next.pc ∧ v.Satisfies next.pathCondition ∧
          (s.memory.concretise v).exec s.memory.order v a.statement =
            .ok (next.memory.concretise v)) ∧
      (¬ (v.Satisfies s.pathCondition ∧ g.isTrue = true) →
        ∀ next ∈ list, ¬ v.Satisfies next.pathCondition) := by
  intro sim registers image memory s place value a scope v
  have hsolver : sim.solver.SoundOver scope := by
    apply Solver.enumerating_soundOver
    intro name width width' hw hw'
    exact Eq.trans hw hw'.symm
  have hs : s.WellFormed scope fun _ => 32 := by
    have hlimit : Word.Canonical ⟨32, 16⟩ := by decide
    refine ⟨⟨?_, ?_, ?_⟩, ⟨⟨by decide, rfl⟩, hlimit, rfl⟩, rfl⟩
    · intro address e he
      simp [s, memory] at he
    · intro name e he
      have hcases : e = .var "x" 32 ∨ e = .const ⟨32, 0xfffffffc⟩ := by
        simp [s, memory, registers, Std.ExtTreeMap.getElem?_insert] at he
        grind
      rcases hcases with rfl | rfl
      · exact ⟨⟨by decide, rfl⟩, rfl⟩
      · exact ⟨(by decide : Word.Canonical ⟨32, 0xfffffffc⟩), rfl⟩
    · intro name x hx
      have hecx : x = ⟨32, 5⟩ := by
        simp [s, memory, image, Memory.physical?, Memory.layers,
          Std.ExtTreeMap.getElem?_insert] at hx
        grind
      subst hecx
      exact ⟨by decide, rfl⟩
  have hfits (name base : String) (size : Nat) (hpos : 0 < size) (hle : size ≤ 32) :
      Register.Fits (fun _ => 32) ⟨name, base, 0, size, 32⟩ :=
    ⟨rfl, hpos, by simpa using hle, (by decide : 32 ≤ 64)⟩
  have ha : a.Built (scope.onMemory fun _ => 32) := by
    obtain ⟨mc, hadd⟩ : ∃ mc,
        ({} : Microcode).addAssignment (.boundary 0) place value none = .ok (⟨0, 1⟩, mc) :=
          ⟨_, rfl⟩
    refine .assign hadd ?_ ?_
    · exact ⟨⟨by decide, hfits _ _ 32 (by decide) (by decide)⟩, by decide, by decide, trivial⟩
    · have hwindow := fun name base => hfits name base 16 (by decide) (by decide)
      exact ⟨⟨by decide, hwindow _ _⟩, ⟨by decide, hwindow _ _⟩, rfl⟩
  obtain ⟨list, d', h⟩ : ∃ list d', Succeeds (sim.step s a) {} list d' := ⟨_, _, rfl⟩
  exact ⟨⟨hsolver, hs, ha⟩, list, d', h, step_simulates_concrete hsolver hs ha v h⟩

end Simulator

end FlowRecovery
