import Mathlib
import FlowRecovery.Proofs.Simulation.Concrete
import FlowRecovery.Proofs.Simulation.Jump

namespace FlowRecovery

namespace SimM

variable {ε α β : Type} {able : Prop} {d : Discovery} {post : α → Discovery → Prop}
  {post' : β → Discovery → Prop}

/-- A computation that may fail returns under an assumption, and what it succeeds with satisfies a
condition. -/
def Tries (able : Prop) (x : ExceptT ε SimM α) (d : Discovery) (post : α → Discovery → Prop) :
    Prop :=
  Gives able x.run d fun result d' => ∀ a, result = .ok a → post a d'

theorem Tries.pure {a : α} (h : post a d) :
    Tries able (Pure.pure a : ExceptT ε SimM α) d post := by
  refine Gives.pure ?_
  rintro _ ⟨⟩
  exact h

theorem Tries.bind {x : ExceptT ε SimM α} {f : α → ExceptT ε SimM β} (hx : Tries able x d post)
    (hf : ∀ a d', post a d' → Tries able (f a) d' post') : Tries able (x >>= f) d post' := by
  rw [Tries, ExceptT.run_bind]
  refine Gives.bind hx ?_
  intro result d' hpost
  cases result with
  | error error => exact .pure (by simp)
  | ok a => exact hf a d' (hpost a rfl)

theorem Tries.lift {x : SimM α} (hx : Gives able x d post) :
    Tries able (liftM x : ExceptT ε SimM α) d post := by
  refine Gives.bind hx ?_
  intro a d' hpost
  exact Tries.pure hpost

theorem Tries.attempt {good : α → Prop} {c : Attempt ε α} (hc : Yields good c) :
    Tries able (liftM c : ExceptT ε SimM α) d fun a _ => good a := by
  rcases hc with ⟨a, rfl, ha⟩ | ⟨error, rfl⟩
  · exact Tries.pure ha
  · refine ⟨fun _ => ⟨.error error, d, rfl⟩, ?_⟩
    rintro _ _ ⟨⟩
    simp

theorem Tries.modify {change : Discovery → Discovery} {f : PUnit → ExceptT ε SimM β}
    (hf : Tries able (f ⟨⟩) (change d) post') : Tries able (modify change >>= f) d post' := by
  constructor
  · intro h
    obtain ⟨result, d', hreturns⟩ := Gives.returns hf h
    exact ⟨result, d', hreturns⟩
  · intro result d' hreturns
    exact Gives.result hf hreturns.of_modify_bind

theorem Tries.get {f : Discovery → ExceptT ε SimM β} (hf : Tries able (f d) d post') :
    Tries able (get >>= f) d post' := by
  constructor
  · intro h
    obtain ⟨result, d', hreturns⟩ := Gives.returns hf h
    exact ⟨result, d', hreturns⟩
  · intro result d' hreturns
    exact Gives.result hf hreturns.of_get_bind

end SimM

section Arrows

variable {scope : Scope} {l : Location} {arrows : List Arrow}

theorem Deterministic.wellFormed (h : Deterministic scope l arrows) (a : Arrow)
    (ha : a ∈ arrows) :
    a.WellFormed scope ∧ ∀ address, a.target = .dynamic address → address.WellFormed scope := by
  constructor
  · cases h with
    | halt => simp at ha
    | only _ hguard hstatement =>
        rw [List.mem_singleton] at ha
        subst ha
        exact ⟨hguard ▸ Expr.wellFormed_bool true, hguard ▸ rfl, hstatement⟩
    | branch _ hguard hwidth hother =>
        rcases List.mem_pair.mp ha with rfl | rfl
        · exact ⟨hguard, hwidth, trivial⟩
        · rcases hother with rfl | rfl
          · exact ⟨⟨hguard, trivial⟩, hwidth, trivial⟩
          · exact ⟨hguard.1, hwidth, trivial⟩
  · intro address haddress
    have htarget := (h.arrow ha).2.1
    rw [haddress] at htarget
    exact htarget

end Arrows

namespace Simulator

open SimM

variable {sim : Simulator} {values scope : Scope} {widths : String → Nat} {s : State} {a : Arrow}
  {d : Discovery}

theorem arrows_tries {limit : Nat} (hdecoder : sim.decoder.Incremental scope limit)
    (hd : d.program.Stepwise scope) (s : State) :
    Tries True (sim.arrows s) d fun _ _ => True := by
  refine Tries.modify (Tries.get ?_)
  dsimp only
  cases hnew : d.program.contains (.boundary s.pc.instruction) with
  | true => exact Tries.get (.pure trivial)
  | false =>
      have hrun : ∃ p, (sim.decoder.decode sim.image s.pc.instruction).run.run
          d.program = .ok p := by
        rcases hdecoder _ _ (hd.free hnew) sim.image with ⟨error, hrun⟩ | ⟨next, mc, n, hrun, -⟩
        · exact ⟨_, hrun⟩
        · exact ⟨_, hrun⟩
      obtain ⟨⟨result, mc⟩, hrun⟩ := hrun
      have hdecode : Tries True (sim.decode s.pc.instruction) { d with queries := d.queries + 1 }
          fun _ _ => True :=
        ⟨fun _ => ⟨_, _, decode_of_run hrun⟩, fun _ _ _ => trivial⟩
      exact hdecode.bind fun _ _ _ => Tries.get (.pure trivial)

theorem restrict_gives {condition guard : Expr} (hcondition : condition.WellFormed values)
    (hconditionWidth : condition.width = 1) (hguard : guard.WellFormed values)
    (hguardWidth : guard.width = 1) :
    Gives (sim.solver.Answers values) (sim.restrict condition guard) d fun outcome _ =>
      ∀ restricted, outcome = some restricted → restricted.WellFormed values ∧
        restricted.width = 1 := by
  unfold restrict
  split
  · refine .pure ?_
    rintro _ ⟨⟩
    exact ⟨hcondition, hconditionWidth⟩
  · exact .pure (by simp)
  · have hboth : (Expr.binary .and condition guard).WellFormed values :=
      ⟨hcondition, hguard, hconditionWidth.trans hguardWidth.symm⟩
    obtain ⟨restricted, hsimplify, hequiv⟩ := Expr.simplify_sound hboth
    have hwidth : restricted.width = 1 := hequiv.width.trans hconditionWidth
    refine .checked (Expr.mkBinary_of_wellFormed hboth) (.checked hsimplify ?_)
    refine (isFeasible_gives hequiv.wellFormed hwidth).bind ?_
    rintro feasible d' -
    refine .pure ?_
    intro found hfound
    split at hfound
    · cases hfound
      exact ⟨hequiv.wellFormed, hwidth⟩
    · cases hfound

variable (hscope : ∀ {e : Expr}, e.WellFormed scope → e.WellFormed (values.onMemory widths))
  (hs : s.WellFormed values widths)
include hscope hs

theorem step_tries (ha : a.WellFormed scope)
    (htarget : ∀ address, a.target = .dynamic address → address.WellFormed scope) :
    Tries (sim.solver.Answers values) (sim.step s a) d fun list _ =>
      (∀ t ∈ list, t.WellFormed values widths) ∧
        list.length ≤ max 1 sim.image.definedAddresses.size := by
  have hexec {targets : List Successor}
      (htargets : ∀ p ∈ targets, p.2.WellFormed values ∧ p.2.width = 1)
      (hlength : targets.length ≤ max 1 sim.image.definedAddresses.size) (d' : Discovery) :
      Tries (sim.solver.Answers values) (do
        let memory ← (s.memory.exec a.statement : ExceptT UndefinedValue SimM SymbolicMemory)
        return targets.map fun p => ({ pc := p.1, memory, pathCondition := p.2 } : State)) d'
        fun list _ => (∀ t ∈ list, t.WellFormed values widths) ∧
          list.length ≤ max 1 sim.image.definedAddresses.size := by
    refine (Tries.attempt
      (SymbolicMemory.exec_yields (v := default) hs.memory (ha.statement.mono hscope))).bind ?_
    rintro memory d'' ⟨hfollows, -⟩
    refine .pure ⟨?_, by rwa [List.length_map]⟩
    rw [List.forall_mem_map]
    intro p hp
    exact ⟨hfollows.wellFormed, (htargets p hp).1, (htargets p hp).2⟩
  unfold step
  refine (Tries.attempt
    (SymbolicMemory.eval_yields (v := default) hs.memory (hscope ha.guard))).bind ?_
  rintro guard d₁ ⟨hguard, hwidth, -⟩
  refine (Tries.lift (restrict_gives hs.condition hs.condition_width hguard
    (hwidth.trans ha.guard_width))).bind ?_
  intro outcome d₂ houtcome
  cases outcome with
  | none =>
      refine (Tries.lift (Gives.modify (.pure trivial) : Gives _ (report _) d₂ fun _ _ =>
        True)).bind ?_
      exact fun _ _ _ => .pure ⟨by simp, Nat.zero_le _⟩
  | some condition =>
      obtain ⟨hcondition, hconditionWidth⟩ := houtcome condition rfl
      dsimp only
      split
      case h_1 location hstatic =>
        rw [pure_bind]
        exact hexec (by simpa using ⟨hcondition, hconditionWidth⟩) (le_max_left _ _) d₂
      case h_2 address hdynamic =>
        have haddress := hscope (htarget address hdynamic)
        refine (Tries.attempt
          (SymbolicMemory.eval_yields (v := default) hs.memory haddress)).bind ?_
        rintro target d₃ ⟨htargetWF, -, -⟩
        refine (Tries.lift (resolve_finds htargetWF hcondition hconditionWidth a.source)).bind ?_
        rintro targets d₄ ⟨-, htargets, hlength, -⟩
        exact hexec htargets hlength d₄

theorem stepAll_tries {arrows : List Arrow} (harrows : ∀ a ∈ arrows, a.WellFormed scope ∧
      ∀ address, a.target = .dynamic address → address.WellFormed scope) :
    Tries (sim.solver.Answers values) (sim.stepAll s arrows) d fun list _ =>
      ∀ t ∈ list, t.WellFormed values widths := by
  induction arrows generalizing d with
  | nil => exact .pure (by simp)
  | cons a rest ih =>
      rw [List.forall_mem_cons] at harrows
      obtain ⟨⟨ha, htarget⟩, hrest⟩ := harrows
      refine (step_tries hscope hs ha htarget).bind ?_
      rintro first d₁ ⟨hfirst, -⟩
      refine (ih hrest).bind ?_
      intro others d₂ hothers
      exact .pure (List.forall_mem_append.mpr ⟨hfirst, hothers⟩)

end Simulator

end FlowRecovery
