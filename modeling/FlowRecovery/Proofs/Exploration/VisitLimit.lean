import Mathlib
import FlowRecovery.Proofs.Exploration.History

namespace FlowRecovery

variable {scope : Scope}

theorem Location.isBoundary_iff {l : Location} :
    l.isBoundary = true ↔ l = .boundary l.instruction := by
  obtain ⟨instruction, step⟩ := l
  simp [isBoundary, boundary]

theorem Microcode.Recorded.stepwise {l : Location} {mc mc' : Microcode} (h : Recorded l mc mc')
    (hmc : mc.Stepwise scope) {node : Node} (hnode : mc.node? l = some node) :
    mc'.Stepwise scope ∧ ∃ node', mc'.node? l = some node' := by
  induction h with
  | refl => exact ⟨hmc, node, hnode⟩
  | resolved _ target ih =>
      obtain ⟨hstepwise, node', hnode'⟩ := ih
      refine ⟨hstepwise.modifyNode hnode' rfl, ?_⟩
      rw [addResolved, node?_modifyNode, if_pos rfl]
      exact ⟨_, rfl⟩
  | unresolved _ target ih =>
      obtain ⟨hstepwise, hnode'⟩ := ih
      exact ⟨hstepwise.markUnresolved l _, hnode'⟩

theorem Microcode.Stepwise.arrowsAt {mc : Microcode} (hmc : mc.Stepwise scope) (l : Location) :
    Deterministic scope l (mc.arrowsAt l) := by
  rw [Microcode.arrowsAt]
  cases hnode : mc.node? l with
  | none => exact .halt
  | some node => exact hmc.arrows hnode

namespace Simulator

open SimM

variable {sim : Simulator} {s : State} {a : Arrow} {d d' : Discovery} {target condition : Expr}

section Successors

theorem tryAddresses_boundary {addresses : List UInt64} {found : List Successor}
    {remaining : Expr} {result : List Successor × Expr}
    (hfound : ∀ p ∈ found, p.1.isBoundary = true)
    (h : Returns (sim.tryAddresses target condition addresses found remaining) d result d') :
    ∀ p ∈ result.1, p.1.isBoundary = true := by
  induction addresses generalizing found remaining d with
  | nil =>
      cases h
      exact hfound
  | cons address rest ih =>
      rw [tryAddresses] at h
      split at h
      · cases h
        exact hfound
      obtain ⟨ones, d₁, -, h⟩ := h.of_bind
      split at h
      · cases h
        exact hfound
      obtain ⟨candidate, d₂, -, h⟩ := h.of_bind
      obtain ⟨equal, d₃, -, h⟩ := h.of_bind
      obtain ⟨both, d₄, -, h⟩ := h.of_bind
      obtain ⟨restricted, d₅, -, h⟩ := h.of_bind
      obtain ⟨feasible, d₆, -, h⟩ := h.of_bind
      split at h
      · obtain ⟨other, d₇, -, h⟩ := h.of_bind
        obtain ⟨both, d₈, -, h⟩ := h.of_bind
        refine ih ?_ h
        rw [List.forall_mem_append, List.forall_mem_singleton]
        exact ⟨hfound, rfl⟩
      · exact ih hfound h

theorem resolve_boundary {source : Location} {found : List Successor}
    (h : Returns (sim.resolve source target condition) d found d') :
    ∀ p ∈ found, p.1.isBoundary = true := by
  rw [resolve] at h
  split at h
  · cases h
    simp [Location.isBoundary, Location.boundary]
  · split at h
    · cases h
      simp
    obtain ⟨⟨found', remaining⟩, d₁, htry, h⟩ := h.of_bind
    have hfound' := tryAddresses_boundary (by simp) htry
    obtain ⟨simplified, d₂, -, h⟩ := h.of_bind
    obtain ⟨feasible, d₃, -, h⟩ := h.of_bind
    split at h
    · cases h
      exact hfound'
    · cases h
      exact hfound'

theorem step_locations {list : List State} (h : Succeeds (sim.step s a) d list d') :
    (∃ l, a.target = .static l ∧ list.length ≤ 1 ∧ ∀ t ∈ list, t.pc = l) ∨
      (∃ address, a.target = .dynamic address) ∧ ∀ t ∈ list, t.pc.isBoundary = true := by
  cases htarget : a.target with
  | static l =>
      obtain ⟨_, _, _, _, -, -, ⟨-, rfl⟩ | ⟨_, _, -, -, rfl⟩⟩ := step_cases htarget h
      · exact .inl ⟨l, rfl, by simp, by simp⟩
      · exact .inl ⟨l, rfl, by simp, by simp⟩
  | dynamic address =>
      refine .inr ⟨⟨address, rfl⟩, ?_⟩
      rw [step, htarget] at h
      obtain ⟨guard, d₁, -, h⟩ := h.of_bind
      obtain ⟨outcome, d₂, -, h⟩ := h.of_bind
      cases outcome with
      | none =>
          obtain ⟨_, d₃, -, h⟩ := h.of_bind
          cases h
          simp
      | some condition =>
          obtain ⟨value, d₃, -, h⟩ := h.of_bind
          obtain ⟨targets, d₄, hresolve, h⟩ := h.of_bind
          obtain ⟨memory, d₅, -, h⟩ := h.of_bind
          rw [← h.eq_of_pure, List.forall_mem_map]
          exact resolve_boundary hresolve.of_liftM

theorem step_countP_le {list : List State} (h : Succeeds (sim.step s a) d list d')
    (g : UInt64) (k : Nat) :
    list.countP (·.pc = ⟨g, k + 1⟩) ≤ if a.target = .static ⟨g, k + 1⟩ then 1 else 0 := by
  rcases step_locations h with ⟨l, htarget, hlength, hlist⟩ | ⟨-, hlist⟩
  · rw [htarget]
    split
    case isTrue => exact List.countP_le_length.trans hlength
    case isFalse hne =>
      rw [Nat.le_zero, List.countP_eq_zero]
      intro t ht
      rw [hlist t ht, decide_eq_true_eq]
      exact fun heq => hne (congrArg _ heq)
  · have hnone : list.countP (·.pc = ⟨g, k + 1⟩) = 0 := by
      rw [List.countP_eq_zero]
      intro t ht
      rw [decide_eq_true_eq]
      intro hpc
      have hboundary := hlist t ht
      rw [hpc] at hboundary
      cases hboundary
    omega

theorem eq_of_leaves {l : Location} {g : UInt64} {k : Nat}
    (h : (Target.static ⟨g, k + 1⟩).Leaves scope l) :
    l = ⟨g, k⟩ := by
  rcases h with heq | hboundary
  · cases heq
    rfl
  · cases hboundary

theorem stepAll_countP_le {arrows : List Arrow} {successors : List State}
    (harrows : Deterministic scope s.pc arrows)
    (h : Succeeds (sim.stepAll s arrows) d successors d') (g : UInt64) (k : Nat) :
    successors.countP (·.pc = ⟨g, k + 1⟩) ≤ if s.pc = ⟨g, k⟩ then 1 else 0 := by
  cases harrows with
  | halt =>
      cases h
      exact Nat.zero_le _
  | @only a _ _ _ htarget =>
      obtain ⟨first, d₁, hfirst, h⟩ := h.of_bind
      obtain ⟨_, d₂, hnil, h⟩ := h.of_bind
      cases hnil
      rw [← h.eq_of_pure, List.append_nil]
      refine (step_countP_le hfirst g k).trans ?_
      split
      case isTrue heq =>
        rw [heq] at htarget
        rw [if_pos (eq_of_leaves htarget)]
      case isFalse => exact Nat.zero_le _
  | @branch first second guard other hne _ _ _ hfirst hsecond =>
      obtain ⟨list, d₁, hlist, h⟩ := h.of_bind
      obtain ⟨_, d₂, hrest, h⟩ := h.of_bind
      obtain ⟨list', d₃, hlist', hrest⟩ := hrest.of_bind
      obtain ⟨_, d₄, hnil, hrest⟩ := hrest.of_bind
      cases hnil
      rw [← h.eq_of_pure, ← hrest.eq_of_pure, List.append_nil, List.countP_append]
      have hcount := step_countP_le hlist g k
      have hcount' := step_countP_le hlist' g k
      simp only [Target.static.injEq] at hcount hcount'
      -- the two targets differ, so only one of them is the next step
      by_cases heq : first = ⟨g, k + 1⟩
      · rw [if_pos (eq_of_leaves (heq ▸ hfirst))]
        rw [if_neg fun heq' => hne (heq.trans heq'.symm)] at hcount'
        split at hcount <;> omega
      · rw [if_neg heq] at hcount
        by_cases heq' : second = ⟨g, k + 1⟩
        · rw [if_pos (eq_of_leaves (heq' ▸ hsecond))]
          rw [if_pos heq'] at hcount'
          omega
        · rw [if_neg heq'] at hcount'
          omega

theorem stepwise_of_follow {result : Except DecodeError (List Arrow)}
    (h : Returns (sim.arrows s).run d result d') (hdecoder : sim.decoder.Deterministic scope)
    (hd : d.program.Stepwise scope) :
    d'.program.Stepwise scope ∧ ∀ arrows, result = .ok arrows → Deterministic scope s.pc arrows ∧
      ∀ {outcome : Except UndefinedValue (List State)} {d'' : Discovery},
        Returns (sim.stepAll s arrows).run d' outcome d'' → d''.program.Stepwise scope := by
  obtain ⟨-, harrows, hcases⟩ := of_arrows h
  have hd' : d'.program.Stepwise scope := by
    rcases hcases with ⟨-, hsame⟩ | ⟨hnew, outcome, hdecode, -⟩
    · rw [hsame]
      exact hd
    · rcases hdecoder hd hnew sim.image with ⟨error, hrun⟩ | ⟨next, mc, n, hrun, hextends⟩
      · rw [hrun, Except.ok.injEq, Prod.mk.injEq] at hdecode
        exact hdecode.2 ▸ hd
      · rw [hrun, Except.ok.injEq, Prod.mk.injEq] at hdecode
        exact hdecode.2 ▸ hextends.stepwise hd
  refine ⟨hd', fun arrows hresult => ?_⟩
  rw [harrows arrows hresult]
  refine ⟨hd'.arrowsAt s.pc, fun {outcome d''} hsteps => ?_⟩
  rcases recorded_of_stepAll (hd'.arrowsAt s.pc) hsteps with hsame | ⟨node, hnode, hrecorded⟩
  · rw [hsame]
    exact hd'
  · exact (hrecorded.stepwise hd' hnode).1

end Successors

end Simulator

namespace Explorer

variable {e : Explorer} {s : State} {x y : Exploration} {fate : Fate} {added : List State}
  {result : Except DecodeError Unit} {history : History}

section Boundaries

variable (hlimit : 0 < e.settings.maxVisits)
include hlimit

theorem getD_visitsAfter (g : UInt64) :
    (e.visitsAfter x s).getD g 0 = x.visits.getD g 0 + if s.pc = .boundary g then 1 else 0 := by
  have hlimited : ¬ e.settings.maxVisits = 0 := Nat.ne_of_gt hlimit
  rw [visitsAfter]
  cases hboundary : s.pc.isBoundary with
  | false =>
      have hne : s.pc ≠ .boundary g := by
        intro heq
        rw [heq] at hboundary
        cases hboundary
      simp [hne]
  | true =>
      have hpc : s.pc = .boundary g ↔ s.pc.instruction = g := by
        rw [Location.isBoundary_iff.mp hboundary]
        simp [Location.boundary]
      simp only [hlimited, Bool.not_true, Bool.false_eq_true, or_self, if_false, hpc,
        Std.ExtTreeMap.getD_insert, Std.LawfulEqCmp.compare_eq_iff_eq]
      split
      case isTrue heq => rw [heq]
      case isFalse => rfl

theorem Expansion.visits (h : e.Expansion s x fate added result y) (g : UInt64) :
    (x.visits.getD g 0 + if fate = .expanded ∧ s.pc = .boundary g then 1 else 0) ≤
      y.visits.getD g 0 ∧
      (fate = .expanded → s.pc = .boundary g → x.visits.getD g 0 < e.settings.maxVisits) := by
  have hafter := getD_visitsAfter (x := x) (s := s) hlimit g
  cases h with
  | duplicate => exact ⟨le_rfl, nofun⟩
  | outside => exact ⟨le_rfl, nofun⟩
  | throttled =>
      refine ⟨?_, nofun⟩
      simp only [hafter]
      simp
  | expanded _ _ hadmits h =>
      refine ⟨?_, fun _ hpc => ?_⟩
      · rw [h.visits, hafter]
        simp
      · have hlimited : ¬ e.settings.maxVisits = 0 := Nat.ne_of_gt hlimit
        simpa [admits, hlimited, hpc, Location.boundary, Location.isBoundary] using hadmits

theorem Session.expansions_boundary (h : e.Session history x) (g : UInt64) :
    history.expansions (.boundary g) ≤ x.visits.getD g 0 ∧
      history.expansions (.boundary g) ≤ e.settings.maxVisits := by
  have hstep {history : History} {x y : Exploration} {s : State}
      {rest added : List State} {fate : Fate} {result : Except DecodeError Unit}
      (h : e.Expansion s { x with todo := rest } fate added result y)
      (hx : history.expansions (.boundary g) ≤ x.visits.getD g 0 ∧
        history.expansions (.boundary g) ≤ e.settings.maxVisits) :
      (history.take s fate added).expansions (.boundary g) ≤ y.visits.getD g 0 ∧
        (history.take s fate added).expansions (.boundary g) ≤ e.settings.maxVisits := by
    obtain ⟨hvisits, hbelow⟩ := h.visits hlimit g
    dsimp only at hvisits hbelow
    rw [History.expansions_take]
    split
    case isTrue hexpanded =>
      rw [if_pos hexpanded] at hvisits
      have hbelow := hbelow hexpanded.1 hexpanded.2
      omega
    case isFalse hnot =>
      rw [if_neg hnot] at hvisits
      omega
  induction h with
  | start => exact ⟨Nat.zero_le _, Nat.zero_le _⟩
  | note _ _ ih => exact ih
  | push _ _ ih => exact ih
  | expand _ _ hrun ih => exact hstep (Expansion.of_run hrun) ih
  -- the visits stay when a run fails
  | fail _ _ hrun ih => exact (hstep (Expansion.of_run hrun) ih :)

end Boundaries

section InnerSteps

variable (hdecoder : e.decoder.Deterministic scope)
include hdecoder

theorem Expansion.inner (h : e.Expansion s x fate added result y)
    (hx : x.program.Stepwise scope) :
    y.program.Stepwise scope ∧ ∀ g k, added.countP (·.pc = ⟨g, k + 1⟩) ≤
      if fate = .expanded ∧ s.pc = ⟨g, k⟩ then 1 else 0 := by
  cases h with
  | duplicate => exact ⟨hx, by simp⟩
  | outside => exact ⟨hx.markUnresolved _ _, by simp⟩
  | throttled => exact ⟨hx, by simp⟩
  | expanded _ _ _ h =>
      cases h with
      | undecoded harrows => exact ⟨(Simulator.stepwise_of_follow harrows hdecoder hx).1, by simp⟩
      | abandoned harrows hsteps =>
          obtain ⟨-, hfollow⟩ := Simulator.stepwise_of_follow harrows hdecoder hx
          have hstepwise := (hfollow _ rfl).2 hsteps
          exact ⟨hstepwise, by simp⟩
      | followed harrows hsteps =>
          obtain ⟨-, hfollow⟩ := Simulator.stepwise_of_follow harrows hdecoder hx
          obtain ⟨hdeterministic, hkeeps⟩ := hfollow _ rfl
          have hstepwise := hkeeps hsteps
          refine ⟨hstepwise, fun g k => ?_⟩
          simpa using Simulator.stepAll_countP_le hdeterministic hsteps g k

/-- A step within an instruction is expanded, or waits to be, no more often than the step before
it was expanded. -/
theorem Session.inner (h : e.Session history x)
    (hseeds : ∀ s ∈ history.seeds, s.pc.isBoundary = true) :
    x.program.Stepwise scope ∧ ∀ g k,
      history.expansions ⟨g, k + 1⟩ + x.todo.countP (·.pc = ⟨g, k + 1⟩) ≤
        history.expansions ⟨g, k⟩ := by
  induction h with
  | start => exact ⟨Microcode.stepwise_empty, fun _ _ => le_rfl⟩
  | note _ _ ih => exact ih hseeds
  | @push history x _ s ih =>
      obtain ⟨hs, hseeds⟩ := List.forall_mem_cons.mp hseeds
      obtain ⟨hprogram, hx⟩ := ih hseeds
      refine ⟨hprogram, fun g k => ?_⟩
      have hne : ¬ s.pc = ⟨g, k + 1⟩ := by
        intro heq
        rw [heq] at hs
        cases hs
      simp only [Exploration.push, List.countP_cons, hne, decide_false, Bool.false_eq_true,
        if_false, Nat.add_zero]
      exact hx g k
  | @expand history x y s rest _ htodo hrun ih =>
      have hexpansion := Expansion.of_run hrun
      obtain ⟨hprogram, hx⟩ := ih hseeds
      obtain ⟨hprogram', hcount⟩ := hexpansion.inner hdecoder hprogram
      refine ⟨hprogram', fun g k => ?_⟩
      have hx := hx g k
      have hcount := hcount g k
      rw [htodo, List.countP_cons] at hx
      rw [hexpansion.todo, List.countP_append, History.expansions_take, History.expansions_take]
      by_cases hexpanded : Fate.between x y = .expanded
      · simp only [hexpanded, true_and, decide_eq_true_eq] at hx hcount ⊢
        omega
      · simp only [hexpanded, false_and, if_false] at hcount ⊢
        omega
  | @fail history x y s rest error _ htodo hrun ih =>
      have hexpansion := Expansion.of_run hrun
      obtain ⟨hprogram, hx⟩ := ih hseeds
      obtain ⟨hprogram', -⟩ := hexpansion.inner hdecoder hprogram
      refine ⟨hprogram', fun g k => ?_⟩
      have hx := hx g k
      rw [htodo, List.countP_cons] at hx
      change (history.take s (.between x y) (pushedOnto rest y.todo)).expansions _ + 0 ≤
        (history.take s (.between x y) (pushedOnto rest y.todo)).expansions _
      rw [hexpansion.expanded_of_error]
      simp only [History.expansions_take, true_and, decide_eq_true_eq] at hx ⊢
      omega

theorem Session.expansions_le_boundary (h : e.Session history x)
    (hseeds : ∀ s ∈ history.seeds, s.pc.isBoundary = true) (g : UInt64) (k : Nat) :
    history.expansions ⟨g, k⟩ ≤ history.expansions (.boundary g) := by
  induction k with
  | zero => exact le_rfl
  | succ k ih =>
      have hstep := (h.inner hdecoder hseeds).2 g k
      omega

end InnerSteps

end Explorer

end FlowRecovery
