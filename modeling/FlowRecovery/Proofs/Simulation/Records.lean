import Mathlib
import FlowRecovery.Proofs.Microcode.Determinism

namespace FlowRecovery

variable {ε α β : Type}

def Microcode.arrowsAt (mc : Microcode) (l : Location) : List Arrow :=
  ((mc.node? l).map Node.arrows).getD []

/-- A program after targets of computed jumps at one location were recorded, found ones and
missing ones. -/
inductive Microcode.Recorded (source : Location) (mc : Microcode) : Microcode → Prop
  | refl : Recorded source mc mc
  | resolved {mc' : Microcode} (h : Recorded source mc mc') (target : Location) :
      Recorded source mc (mc'.addResolved source target)
  | unresolved {mc' : Microcode} (h : Recorded source mc mc') (target : Expr) :
      Recorded source mc (mc'.markUnresolved source (.dynamicJump target))

namespace Microcode

variable {source : Location} {mc mc' mc'' : Microcode}

theorem Recorded.trans (h : Recorded source mc mc') (h' : Recorded source mc' mc'') :
    Recorded source mc mc'' := by
  induction h' with
  | refl => exact h
  | resolved _ target ih => exact ih.resolved target
  | unresolved _ target ih => exact ih.unresolved target

theorem exists_of_mem_arrowsAt {l : Location} {a : Arrow} (h : a ∈ mc.arrowsAt l) :
    ∃ node, mc.node? l = some node ∧ a ∈ node.arrows := by
  rw [arrowsAt] at h
  cases hnode : mc.node? l with
  | none =>
      rw [hnode] at h
      cases h
  | some node =>
      rw [hnode] at h
      exact ⟨node, rfl, h⟩

end Microcode

/-- Nothing but the log changed. -/
def Discovery.Logged (d d' : Discovery) : Prop :=
  ∃ log, d' = { d with log }

/-- Nothing changed but the log and the records at a location. -/
structure Discovery.Noted (source : Location) (d d' : Discovery) : Prop where
  queries : d'.queries = d.queries
  program : Microcode.Recorded source d.program d'.program

def Discovery.SameQueries (d d' : Discovery) : Prop :=
  d'.queries = d.queries

instance : IsPreorder Discovery Discovery.Logged where
  refl d := ⟨d.log, rfl⟩
  trans := by
    rintro d _ _ ⟨_, rfl⟩ ⟨log, rfl⟩
    exact ⟨log, rfl⟩

instance (source : Location) : IsPreorder Discovery (Discovery.Noted source) where
  refl _ := ⟨rfl, .refl⟩
  trans _ _ _ h h' := ⟨h'.queries.trans h.queries, h.program.trans h'.program⟩

instance : IsPreorder Discovery Discovery.SameQueries where
  refl _ := rfl
  trans _ _ _ h h' := Eq.trans h' h

theorem Discovery.Logged.noted {d d' : Discovery} (h : d.Logged d') (source : Location) :
    d.Noted source d' := by
  obtain ⟨log, rfl⟩ := h
  exact ⟨rfl, .refl⟩

namespace SimM

theorem Returns.of_except_bind {x : ExceptT ε SimM α} {f : α → ExceptT ε SimM β}
    {d d' : Discovery} {result : Except ε β} (h : Returns (x >>= f).run d result d') :
    (∃ error, result = .error error ∧ Returns x.run d (.error error) d') ∨
      ∃ a d₁, Succeeds x d a d₁ ∧ Returns (f a).run d₁ result d' := by
  rw [ExceptT.run_bind] at h
  obtain ⟨first, d₁, hx, h⟩ := h.of_bind
  cases first with
  | error error =>
      cases h
      exact .inl ⟨error, rfl, hx⟩
  | ok a => exact .inr ⟨a, d₁, hx, h⟩

theorem Returns.of_modify_bind {f : Discovery → Discovery} {g : PUnit → ExceptT ε SimM β}
    {d d' : Discovery} {result : Except ε β} (h : Returns (modify f >>= g).run d result d') :
    Returns (g ⟨⟩).run (f d) result d' :=
  h

theorem Returns.of_get_bind {g : Discovery → ExceptT ε SimM β} {d d' : Discovery}
    {result : Except ε β} (h : Returns (get >>= g).run d result d') :
    Returns (g d).run d result d' :=
  h

/-- Whatever a computation returns, and also if it breaks a contract, the discoveries before and
after it are related. -/
def Changes (R : Discovery → Discovery → Prop) (x : SimM α) : Prop :=
  ∀ d, R d (x.run.run d).2

variable {R R' : Discovery → Discovery → Prop} {d d' : Discovery}

theorem Changes.of_returns {x : SimM α} (h : Changes R x) {a : α} (hx : Returns x d a d') :
    R d d' := by
  have hd := h d
  rw [hx] at hd
  exact hd

theorem Changes.imp {x : SimM α} (h : Changes R x) (hR : ∀ {d d'}, R d d' → R' d d') :
    Changes R' x :=
  fun d => hR (h d)

theorem Changes.modify {f : Discovery → Discovery} (h : ∀ d, R d (f d)) :
    Changes R (modify f : SimM PUnit) :=
  h

variable [IsPreorder Discovery R]

theorem Changes.pure (a : α) : Changes R (Pure.pure a : SimM α) :=
  fun d => refl_of R d

theorem Changes.lift (c : Checked α) : Changes R (liftM c : SimM α) :=
  fun d => refl_of R d

theorem Changes.bind {x : SimM α} {f : α → SimM β} (hx : Changes R x)
    (hf : ∀ a, Changes R (f a)) :
    Changes R (x >>= f) := by
  intro d
  have hd := hx d
  rw [ExceptT.run_bind, StateT.run_bind]
  rcases hrun : x.run.run d with ⟨_ | a, d₁⟩
  · rw [hrun] at hd
    exact hd
  · rw [hrun] at hd
    exact trans_of R hd (hf a d₁)

theorem Changes.except_bind {x : ExceptT ε SimM α} {f : α → ExceptT ε SimM β}
    (hx : Changes R x.run) (hf : ∀ a, Changes R (f a).run) : Changes R (x >>= f).run := by
  rw [ExceptT.run_bind]
  refine hx.bind fun result => ?_
  cases result with
  | error error => exact .pure _
  | ok a => exact hf a

theorem Changes.except_lift {x : SimM α} (hx : Changes R x) :
    Changes R (liftM x : ExceptT ε SimM α).run :=
  hx.bind fun _ => .pure _

theorem Changes.attempt (c : Attempt ε α) : Changes R (liftM c : ExceptT ε SimM α).run :=
  .lift c.split

end SimM

namespace Simulator

open SimM

variable (sim : Simulator)

theorem report_changes (event : Event) : Changes Discovery.Logged (report event) :=
  .modify fun d => ⟨d.log.push event, rfl⟩

theorem isFeasible_changes (formula : Expr) :
    Changes Discovery.Logged (sim.isFeasible formula) := by
  unfold isFeasible
  split
  · exact .pure _
  · refine (Changes.lift _).bind fun answer => ?_
    cases answer with
    | ok answer => exact .pure _
    | error error => exact (report_changes _).bind fun _ => .pure _

theorem restrict_changes (condition guard : Expr) :
    Changes Discovery.Logged (sim.restrict condition guard) := by
  unfold restrict
  split
  · exact .pure _
  · exact .pure _
  · refine (Changes.lift _).bind fun both => (Changes.lift _).bind fun restricted => ?_
    exact (sim.isFeasible_changes restricted).bind fun _ => .pure _

theorem tryAddresses_changes (target condition : Expr) (addresses : List UInt64)
    (found : List Successor) (remaining : Expr) :
    Changes Discovery.Logged (sim.tryAddresses target condition addresses found remaining) := by
  induction addresses generalizing found remaining with
  | nil => exact .pure _
  | cons address rest ih =>
      unfold tryAddresses
      split
      · exact .pure _
      refine (Changes.lift _).bind fun ones => ?_
      split
      · exact .pure _
      refine (Changes.lift _).bind fun candidate => (Changes.lift _).bind fun equal => ?_
      refine (Changes.lift _).bind fun both => (Changes.lift _).bind fun restricted => ?_
      refine (sim.isFeasible_changes restricted).bind fun feasible => ?_
      split
      · exact (Changes.lift _).bind fun other => (Changes.lift _).bind fun remaining => ih _ _
      · exact ih _ _

theorem resolve_changes (source : Location) (target condition : Expr) :
    Changes (Discovery.Noted source) (sim.resolve source target condition) := by
  have hlogged {γ : Type} {x : SimM γ} (h : Changes Discovery.Logged x) :
      Changes (Discovery.Noted source) x :=
    h.imp fun h => h.noted source
  have hresolved (found : List Successor) (mc : Microcode) : Microcode.Recorded source mc
      (found.foldl (fun mc p => mc.addResolved source p.1) mc) := by
    induction found generalizing mc with
    | nil => exact .refl
    | cons p found ih => exact (Microcode.Recorded.refl.resolved p.1).trans (ih _)
  have hunresolved : Changes (Discovery.Noted source)
      (modifyProgram fun mc => mc.markUnresolved source (.dynamicJump target)) :=
    .modify fun _ => ⟨rfl, Microcode.Recorded.refl.unresolved target⟩
  unfold resolve
  split
  · refine (Changes.modify fun _ => ⟨rfl, Microcode.Recorded.refl.resolved _⟩).bind
      fun _ => .pure _
  · split
    · exact (hlogged (report_changes _)).bind fun _ => hunresolved.bind fun _ => .pure _
    refine (hlogged (sim.tryAddresses_changes _ _ _ _ _)).bind fun p => ?_
    have hfound : Changes (Discovery.Noted source) (do
        modifyProgram fun mc => p.1.foldl (fun mc q => mc.addResolved source q.1) mc
        return p.1) :=
      (Changes.modify fun _ => ⟨rfl, hresolved p.1 _⟩).bind fun _ => .pure _
    refine (Changes.lift _).bind fun simplified => (hlogged (sim.isFeasible_changes _)).bind
      fun feasible => ?_
    split
    · exact (hlogged (report_changes _)).bind fun _ => hunresolved.bind fun _ => hfound
    · exact hfound

variable {R : Discovery → Discovery → Prop} [IsPreorder Discovery R] {s : State}

theorem step_changes_of_resolve {a : Arrow} (hlogged : ∀ {d d'}, Discovery.Logged d d' → R d d')
    (hresolve : ∀ address target condition, a.target = .dynamic address →
      Changes R (sim.resolve a.source target condition)) : Changes R (sim.step s a).run := by
  refine (Changes.attempt _).except_bind fun guard => ?_
  refine ((sim.restrict_changes _ _).imp hlogged).except_lift.except_bind fun outcome => ?_
  cases outcome with
  | none =>
      have hreport : Changes R (report (.infeasible a)) := (report_changes _).imp hlogged
      exact hreport.except_lift.except_bind fun _ => .pure _
  | some condition =>
      have hexec (f : SymbolicMemory → List State) :
          Changes R (do return f (← s.memory.exec a.statement) : ExceptT UndefinedValue SimM
              (List State)).run :=
        (Changes.attempt _).except_bind fun memory => .pure _
      dsimp only
      split
      case h_1 => exact (Changes.pure _).except_bind fun targets => hexec _
      case h_2 address haddress =>
        refine (Changes.attempt _).except_bind fun target => ?_
        exact (hresolve address target condition haddress).except_lift.except_bind
          fun targets => hexec _

theorem step_changes (s : State) (a : Arrow) :
    Changes (Discovery.Noted a.source) (sim.step s a).run :=
  sim.step_changes_of_resolve (fun h => h.noted a.source) fun _ target condition _ =>
    sim.resolve_changes a.source target condition

theorem step_changes_of_static {a : Arrow} {location : Location}
    (htarget : a.target = .static location) (s : State) :
    Changes Discovery.Logged (sim.step s a).run := by
  refine sim.step_changes_of_resolve id fun address _ _ haddress => ?_
  rw [htarget] at haddress
  cases haddress

theorem stepAll_changes {arrows : List Arrow} (h : ∀ a ∈ arrows, Changes R (sim.step s a).run) :
    Changes R (sim.stepAll s arrows).run := by
  induction arrows with
  | nil => exact .pure _
  | cons a rest ih =>
      rw [List.forall_mem_cons] at h
      exact h.1.except_bind fun first => (ih h.2).except_bind fun others => .pure _

section Arrows

variable {sim} {d d' : Discovery}

theorem of_decode {address : UInt64} {result : Except DecodeError Unit}
    (h : Returns (sim.decode address).run d result d') :
    d'.queries = d.queries ∧ ∃ outcome, result = outcome.map (fun _ => ()) ∧
      (sim.decoder.decode sim.image address).run.run d.program = .ok (outcome, d'.program) := by
  have hlift {c c' : Checked (Except DecodeError UInt64 × Microcode)} (hc : c = c')
      (d₁ : Discovery) (f : Except DecodeError UInt64 × Microcode →
        ExceptT DecodeError SimM Unit) :
      (liftM c >>= f).run.run.run d₁ = (liftM c' >>= f).run.run.run d₁ := by
    rw [hc]
  rcases hrun : (sim.decoder.decode sim.image address).run.run d.program with _ | ⟨outcome, mc⟩
  · cases (hlift hrun _ _).symm.trans h
  · cases outcome with
    | error error =>
        cases (hlift hrun _ _).symm.trans h
        exact ⟨rfl, .error error, rfl, rfl⟩
    | ok next =>
        cases (hlift hrun _ _).symm.trans h
        exact ⟨rfl, .ok next, rfl, rfl⟩

theorem of_arrows {result : Except DecodeError (List Arrow)}
    (h : Returns (sim.arrows s).run d result d') :
    d'.queries = d.queries + 1 ∧
      (∀ arrows, result = .ok arrows → arrows = d'.program.arrowsAt s.pc) ∧
      ((d.program.contains (.boundary s.pc.instruction) = true ∧ d'.program = d.program) ∨
        d.program.contains (.boundary s.pc.instruction) = false ∧ ∃ outcome,
          (sim.decoder.decode sim.image s.pc.instruction).run.run d.program =
            .ok (outcome, d'.program) ∧
            ∀ arrows, result = .ok arrows → ∃ next, outcome = .ok next) := by
  -- the arrows are read off the program as it is after the decoding
  have hread {d₁ : Discovery} {read : Discovery → List Arrow}
      (h : Returns (get >>= fun d => pure (read d) : ExceptT DecodeError SimM (List Arrow)).run d₁
        result d')
      (hread : read d₁ = d₁.program.arrowsAt s.pc) : d' = d₁ ∧
          result = .ok (d₁.program.arrowsAt s.pc) := by
    cases h
    exact ⟨rfl, congrArg _ hread⟩
  have h := Returns.of_get_bind (Returns.of_modify_bind h)
  dsimp only at h
  cases hcontains : d.program.contains (.boundary s.pc.instruction) with
  | true =>
      rw [hcontains] at h
      obtain ⟨rfl, rfl⟩ :=
        hread h (by rw [Microcode.arrowsAt]; cases d.program.node? s.pc <;> rfl)
      refine ⟨rfl, ?_, .inl ⟨rfl, rfl⟩⟩
      rintro _ ⟨⟩
      rfl
  | false =>
      rw [hcontains] at h
      rcases Returns.of_except_bind h with ⟨error, rfl, hdecode⟩ | ⟨_, d₁, hdecode, hrest⟩
      · obtain ⟨hqueries, outcome, -, hrun⟩ := of_decode hdecode
        exact ⟨hqueries, nofun, .inr ⟨rfl, outcome, hrun, nofun⟩⟩
      · obtain ⟨hqueries, outcome, houtcome, hrun⟩ := of_decode hdecode
        obtain ⟨rfl, rfl⟩ :=
          hread hrest (by rw [Microcode.arrowsAt]; cases d₁.program.node? s.pc <;> rfl)
        refine ⟨hqueries, ?_, .inr ⟨rfl, outcome, hrun, fun _ _ => ?_⟩⟩
        · rintro _ ⟨⟩
          rfl
        · cases outcome with
          | error error => cases houtcome
          | ok next => exact ⟨next, rfl⟩

theorem recorded_of_stepAll {scope : Scope} {outcome : Except UndefinedValue (List State)}
    (harrows : Deterministic scope s.pc (d.program.arrowsAt s.pc))
    (h : Returns (sim.stepAll s (d.program.arrowsAt s.pc)).run d outcome d') :
    d'.program = d.program ∨
      ∃ node, d.program.node? s.pc = some node ∧
        Microcode.Recorded s.pc d.program d'.program := by
  cases hnode : d.program.node? s.pc with
  | none =>
      have hempty : d.program.arrowsAt s.pc = [] := by
        rw [Microcode.arrowsAt, hnode]
        rfl
      rw [hempty] at h
      cases h
      exact .inl rfl
  | some node =>
      have hnoted : d.Noted s.pc d' := by
        refine Changes.of_returns (sim.stepAll_changes fun a ha => ?_) h
        rw [← (harrows.arrow ha).1]
        exact sim.step_changes s a
      exact .inr ⟨node, rfl, hnoted.program⟩

end Arrows

end Simulator

end FlowRecovery
