import Mathlib
import FlowRecovery.Proofs.Exploration.Consistency
import FlowRecovery.Proofs.Simulation.Totality

/-!
Termination under a limit of visits. An expansion may put many states on the worklist, but it is
paid for: at the boundary of an instruction by one of the visits that are left to the instruction,
and within an instruction by the steps that are left in it. What the states on the worklist weigh
and what the visits that are left are worth makes a potential that every expansion lowers.
-/

namespace FlowRecovery

variable {scope values : Scope} {limit defined : Nat}

/-- A state that is well formed, and on whose memory all expressions of the microcode are. -/
def State.Ready (scope values : Scope) (s : State) : Prop :=
  ∃ widths, (∀ e : Expr, e.WellFormed scope → e.WellFormed (values.onMemory widths)) ∧
    s.WellFormed values widths

section Weights

/-- More than the successors of a state weigh. -/
def Location.reach (limit defined : Nat) (l : Location) : Nat :=
  defined + 2 + 2 * (limit - l.step)

/-- The weight of a waiting state. At a boundary, the successors are paid for by a visit. -/
def Location.weight (limit defined : Nat) (l : Location) : Nat :=
  if l.isBoundary then 1 else l.reach limit defined

/-- What some states weigh together. -/
def load (limit defined : Nat) (states : List State) : Nat :=
  (states.map (·.pc.weight limit defined)).sum

variable {l target : Location} {states : List State}

theorem Location.weight_boundary (h : l.isBoundary = true) : l.weight limit defined = 1 :=
  if_pos h

theorem Location.weight_pos : 0 < l.weight limit defined := by
  rw [weight, reach]
  split <;> omega

theorem Location.weight_le : l.weight limit defined ≤ defined + 2 + 2 * limit := by
  rw [weight, reach]
  split <;> omega

theorem Location.weight_of_leaves (h : (Target.static target).Leaves scope l)
    (hl : l.step < limit) :
    target.weight limit defined = 1 ∨
      target = ⟨l.instruction, l.step + 1⟩ ∧
      target.weight limit defined + 2 = l.reach limit defined := by
  rcases h with rfl | hboundary
  · refine .inr ⟨rfl, ?_⟩
    simp only [weight, reach, isBoundary, Nat.add_eq_zero_iff, one_ne_zero, and_false,
      beq_iff_eq, if_false]
    omega
  · exact .inl (weight_boundary hboundary)

theorem load_append {others : List State} :
    load limit defined (states ++ others) = load limit defined states + load limit
      defined others := by
  rw [load, List.map_append, List.sum_append, load, load]

theorem load_reverse : load limit defined states.reverse = load limit defined states := by
  rw [load, List.map_reverse, List.sum_reverse, load]

theorem load_le_length :
    load limit defined states ≤ states.length * (defined + 2 + 2 * limit) := by
  rw [load, ← smul_eq_mul, ← List.length_map (·.pc.weight limit defined)]
  apply List.sum_le_card_nsmul
  rw [List.forall_mem_map]
  exact fun s _ => Location.weight_le

theorem load_boundaries (h : ∀ t ∈ states, t.pc.isBoundary = true) :
    load limit defined states = states.length := by
  rw [load, List.map_congr_left fun t ht => Location.weight_boundary (h t ht)]
  simp

theorem load_le_weight (hlength : states.length ≤ 1) (h : ∀ t ∈ states, t.pc = l) :
    load limit defined states ≤ l.weight limit defined := by
  cases states with
  | nil => exact Nat.zero_le _
  | cons t rest =>
      obtain rfl : rest = [] :=
        List.length_eq_zero_iff.mp (Nat.le_zero.mp (Nat.le_of_succ_le_succ hlength))
      rw [load, List.map_singleton, List.sum_singleton, h t List.mem_cons_self]

end Weights

namespace Simulator

open SimM

variable {sim : Simulator} {s : State} {a : Arrow} {arrows : List Arrow} {d d' : Discovery}

theorem load_static {list : List State} (h : Succeeds (sim.step s a) d list d') {l : Location}
    (htarget : a.target = .static l) : load limit defined list ≤ l.weight limit defined := by
  obtain ⟨_, _, _, _, -, -, ⟨-, rfl⟩ | ⟨_, _, -, -, rfl⟩⟩ := step_cases htarget h
  · exact Nat.zero_le _
  · exact load_le_weight le_rfl (by simp)

theorem stepAll_load_lt (harrows : Deterministic scope s.pc arrows)
    (hbound : arrows ≠ [] → s.pc.step < limit)
    (hjumps : ∀ a ∈ arrows, ∀ d list d', Succeeds (sim.step s a) d list d' →
      list.length ≤ max 1 defined) {successors : List State}
    (h : Succeeds (sim.stepAll s arrows) d successors d') :
    load limit defined successors < s.pc.reach limit defined := by
  have hreach (hstep : s.pc.step < limit) : defined + 4 ≤ s.pc.reach limit defined := by
    rw [Location.reach]
    omega
  cases harrows with
  | halt =>
      cases h
      rw [load, List.map_nil, List.sum_nil, Location.reach]
      omega
  | @only a _ _ _ htarget =>
      have hstep : s.pc.step < limit := hbound (List.cons_ne_nil _ _)
      have hreach := hreach hstep
      obtain ⟨first, d₁, hfirst, h⟩ := h.of_bind
      obtain ⟨_, d₂, hnil, h⟩ := h.of_bind
      cases hnil
      rw [← h.eq_of_pure, List.append_nil]
      rcases step_locations hfirst with ⟨l, hstatic, -, -⟩ | ⟨-, hlist⟩
      · rw [hstatic] at htarget
        have hload : load limit defined first ≤ _ := load_static hfirst hstatic
        rcases Location.weight_of_leaves htarget hstep with hweight | ⟨-, hweight⟩
        · rw [hweight] at hload
          omega
        · omega
      · have hlength := hjumps a List.mem_cons_self _ _ _ hfirst
        rw [load_boundaries hlist]
        omega
  | @branch first second guard other hne _ _ _ hfirst hsecond =>
      have hstep : s.pc.step < limit := hbound (List.cons_ne_nil _ _)
      have hreach := hreach hstep
      obtain ⟨list, d₁, hlist, h⟩ := h.of_bind
      obtain ⟨_, d₂, hrest, h⟩ := h.of_bind
      obtain ⟨list', d₃, hlist', hrest⟩ := hrest.of_bind
      obtain ⟨_, d₄, hnil, hrest⟩ := hrest.of_bind
      cases hnil
      rw [← h.eq_of_pure, ← hrest.eq_of_pure, List.append_nil, load_append]
      have hload : load limit defined list ≤ first.weight limit defined := load_static hlist rfl
      have hload' : load limit defined list' ≤ second.weight limit defined :=
        load_static hlist' rfl
      -- at most one of the two sides is the next step, the other one is a boundary
      rcases Location.weight_of_leaves hfirst hstep with hweight | ⟨heq, hweight⟩
      · rcases Location.weight_of_leaves hsecond hstep with hweight' | ⟨-, hweight'⟩
        · rw [hweight] at hload
          rw [hweight'] at hload'
          omega
        · rw [hweight] at hload
          omega
      · rcases Location.weight_of_leaves hsecond hstep with hweight' | ⟨heq', -⟩
        · rw [hweight'] at hload'
          omega
        · exact absurd (heq.trans heq'.symm) hne

theorem arrows_charted (hdecoder : sim.decoder.Incremental scope limit)
    (h : Succeeds (sim.arrows s) d arrows d') (hd : d.program.Charted scope limit sim.image) :
    Deterministic scope s.pc arrows ∧ (arrows ≠ [] → s.pc.step < limit) := by
  have hd' := hd.discovers (discovers_of_arrows hdecoder h hd.toStepwise)
  rw [(of_arrows h).2.1 arrows rfl]
  refine ⟨hd'.toStepwise.arrowsAt s.pc, ?_⟩
  intro hne
  cases hnode : d'.program.node? s.pc with
  | none =>
      rw [Microcode.arrowsAt, hnode] at hne
      exact absurd rfl hne
  | some node => exact hd'.bounded hnode

end Simulator

namespace Explorer

variable {e : Explorer} {s : State} {x y : Exploration} {fate : Fate} {added : List State}
  {result : Except DecodeError Unit} {history : History}

section Budget

/-- The visits that are left to the instructions of the image. -/
def budget (e : Explorer) (visits : Std.ExtTreeMap UInt64 Nat) : Nat :=
  (e.image.definedAddresses.toList.map fun g => e.settings.maxVisits - visits.getD g 0).sum

/-- What the worklist weighs, and what the visits that are left are worth. -/
def potential (limit : Nat) (e : Explorer) (x : Exploration) : Nat :=
  load limit e.image.definedAddresses.size x.todo +
    (e.image.definedAddresses.size + 2 + 2 * limit) * e.budget x.visits

theorem budget_le {visits : Std.ExtTreeMap UInt64 Nat} :
    e.budget visits ≤ e.image.definedAddresses.size * e.settings.maxVisits := by
  rw [budget, ← smul_eq_mul, ← Std.ExtTreeSet.length_toList,
    ← List.length_map fun g => e.settings.maxVisits - visits.getD g 0]
  apply List.sum_le_card_nsmul
  rw [List.forall_mem_map]
  exact fun g _ => Nat.sub_le _ _

theorem potential_of_cons {rest : List State} (htodo : x.todo = s :: rest) : e.potential limit x =
    s.pc.weight limit e.image.definedAddresses.size + e.potential limit
      { x with todo := rest } := by
  rw [potential, htodo, load, List.map_cons, List.sum_cons, Nat.add_assoc]
  rfl

theorem potential_le : e.potential limit x ≤ (e.image.definedAddresses.size + 2 + 2 * limit) *
    (x.todo.length + e.image.definedAddresses.size * e.settings.maxVisits) := by
  rw [potential, Nat.mul_add, Nat.mul_comm _ x.todo.length]
  exact Nat.add_le_add load_le_length (Nat.mul_le_mul_left _ budget_le)

variable (hlimit : 0 < e.settings.maxVisits)
include hlimit

theorem budget_visitsAfter_le : e.budget (e.visitsAfter x s) ≤ e.budget x.visits := by
  apply List.sum_le_sum
  intro g _
  rw [getD_visitsAfter hlimit]
  omega

theorem budget_visitsAfter_lt (hdefined : e.image.isDefined s.pc.instruction = true)
    (hboundary : s.pc.isBoundary = true) (hadmits : e.admits x s = true) :
    e.budget (e.visitsAfter x s) < e.budget x.visits := by
  apply List.sum_lt_sum
  · intro g _
    rw [getD_visitsAfter hlimit]
    omega
  · refine ⟨s.pc.instruction, ?_, ?_⟩
    · rw [Std.ExtTreeSet.mem_toList, Memory.mem_definedAddresses]
      exact hdefined
    · have hleft : x.visits.getD s.pc.instruction 0 < e.settings.maxVisits := by
        simpa [admits, Nat.ne_of_gt hlimit, hboundary] using hadmits
      rw [getD_visitsAfter hlimit, if_pos (Location.isBoundary_iff.mp hboundary)]
      omega

end Budget

section Successors

theorem isDefined_of_inside (h : e.isOutside x s = false)
    (hx : x.program.Charted scope limit e.image) :
    e.image.isDefined s.pc.instruction = true := by
  rw [isOutside, Bool.and_eq_false_iff, Bool.not_eq_false', Bool.not_eq_false',
    Microcode.contains_eq, Option.isSome_iff_exists] at h
  rcases h with ⟨node, hnode⟩ | hdefined
  · exact (hx.defined hnode :)
  · exact hdefined

variable (hdecoder : e.decoder.Incremental scope limit)
include hdecoder

theorem Following.successors (h : e.Following s x added result y)
    (hx : x.program.Charted scope limit e.image) (hs : s.Ready scope values) :
    (∀ t ∈ added, t.Ready scope values) ∧
      load limit e.image.definedAddresses.size added < s.pc.reach limit
        e.image.definedAddresses.size := by
  have hnone : load limit e.image.definedAddresses.size [] < s.pc.reach limit
      e.image.definedAddresses.size := by
    rw [load, List.map_nil, List.sum_nil, Location.reach]
    omega
  cases h with
  | undecoded => exact ⟨by simp, hnone⟩
  | abandoned => exact ⟨by simp, hnone⟩
  | followed harrows hsteps =>
      obtain ⟨widths, hscope, hs⟩ := hs
      obtain ⟨hdeterministic, hbound⟩ := Simulator.arrows_charted hdecoder harrows hx
      constructor
      · intro t ht
        have hsuccessors :=
          SimM.Gives.result (Simulator.stepAll_tries (hscope _) hs hdeterministic.wellFormed)
            hsteps _ rfl
        exact ⟨widths, hscope, hsuccessors t (List.mem_reverse.mp ht)⟩
      · rw [load_reverse]
        refine Simulator.stepAll_load_lt hdeterministic hbound ?_ hsteps
        intro a ha d list d' hstep
        obtain ⟨hwellFormed, htarget⟩ := hdeterministic.wellFormed a ha
        exact (SimM.Gives.result (Simulator.step_tries (hscope _) hs hwellFormed htarget)
          hstep _ rfl).2

theorem Expansion.ready (h : e.Expansion s x fate added result y)
    (hx : x.program.Charted scope limit e.image) (hs : s.Ready scope values) :
    ∀ t ∈ added, t.Ready scope values := by
  cases h with
  | duplicate => simp
  | outside => simp
  | throttled => simp
  | expanded _ _ _ h => exact (h.successors hdecoder hx hs).1

theorem Expansion.potential_lt (hlimit : 0 < e.settings.maxVisits)
    (h : e.Expansion s x fate added result y) (hx : x.program.Charted scope limit e.image)
    (hs : s.Ready scope values) :
    e.potential limit y < s.pc.weight limit e.image.definedAddresses.size +
      e.potential limit x := by
  have hweight : 0 < s.pc.weight limit e.image.definedAddresses.size := Location.weight_pos
  have hbudget := budget_visitsAfter_le (x := x) (s := s) hlimit
  have htodo := h.todo
  cases h with
  | duplicate => exact Nat.lt_add_of_pos_left hweight
  | outside => exact Nat.lt_add_of_pos_left hweight
  | throttled =>
      refine Nat.lt_of_le_of_lt ?_ (Nat.lt_add_of_pos_left hweight)
      exact Nat.add_le_add_left (Nat.mul_le_mul_left _ hbudget) _
  | expanded _ hinside hadmits h =>
      have hload := (h.successors hdecoder hx hs).2
      have hvisits : y.visits = e.visitsAfter x s := h.visits
      rw [potential, potential, htodo, hvisits, load_append]
      cases hboundary : s.pc.isBoundary with
      | true =>
          -- the visit that is used up is worth more than all successors
          have hlt := budget_visitsAfter_lt hlimit (isDefined_of_inside hinside hx)
            hboundary hadmits
          have hworth := Nat.mul_le_mul_left (e.image.definedAddresses.size + 2 + 2 * limit)
            (Nat.succ_le_of_lt hlt)
          have hreach : s.pc.reach limit e.image.definedAddresses.size ≤
              e.image.definedAddresses.size + 2 + 2 * limit := by
            rw [Location.reach]
            omega
          rw [Nat.mul_succ] at hworth
          omega
      | false =>
          have hworth := Nat.mul_le_mul_left
            (e.image.definedAddresses.size + 2 + 2 * limit) hbudget
          rw [Location.weight, hboundary, if_neg Bool.false_ne_true]
          omega

end Successors

section Results

theorem run_bind_of_returns {α β : Type} {c : ExploreM α} {f : α → ExploreM β} {a : α}
    (hc : c.run x = .ok (a, y)) (hf : ∃ b z, (f a).run y = .ok (b, z)) :
    ∃ b z, (c >>= f).run x = .ok (b, z) := by
  rw [StateT.run_bind, hc]
  exact hf

variable (hdecoder : e.decoder.Incremental scope limit) (hanswers : e.solver.Answers values)
include hdecoder hanswers

theorem follow_returns (hx : x.program.Charted scope limit e.image) (hs : s.Ready scope values) :
    ∃ result y, (e.follow s).run x = .ok (result, y) := by
  obtain ⟨widths, hscope, hs⟩ := hs
  have hdecoder : e.simulator.decoder.Incremental scope limit := hdecoder
  let log := x.discovery.log.push (if e.settings.showStates then .expandingState s
    else .expanding s.pc)
  have htries := Simulator.arrows_tries (d := { x.discovery with log }) hdecoder hx.toStepwise s
  obtain ⟨found, d, harrows⟩ := SimM.Gives.returns htries trivial
  unfold follow
  refine run_bind_of_returns rfl (run_bind_of_returns rfl ?_)
  refine run_bind_of_returns (simulate_of_returns harrows) ?_
  cases found with
  | error error => exact ⟨_, _, rfl⟩
  | ok arrows =>
      obtain ⟨hdeterministic, -⟩ := Simulator.arrows_charted hdecoder harrows hx
      have htries : SimM.Tries (e.simulator.solver.Answers values) (e.simulator.stepAll s arrows)
          d fun list _ =>
          ∀ t ∈ list, t.WellFormed values widths :=
        Simulator.stepAll_tries (hscope _) hs hdeterministic.wellFormed
      obtain ⟨outcome, d', hsteps⟩ := SimM.Gives.returns htries hanswers
      refine run_bind_of_returns (simulate_of_returns hsteps) ?_
      cases outcome with
      | error error => exact ⟨_, _, rfl⟩
      | ok successors =>
          cases successors with
          | nil => exact ⟨_, _, rfl⟩
          | cons next rest => exact ⟨_, _, rfl⟩

theorem expand_returns (hx : x.program.Charted scope limit e.image) (hs : s.Ready scope values) :
    ∃ result y, (e.expand s).run x = .ok (result, y) := by
  unfold expand
  refine run_bind_of_returns rfl ?_
  split
  · exact ⟨_, _, rfl⟩
  · split
    · exact ⟨_, _, rfl⟩
    · obtain ⟨log, hvisit⟩ := visit_run (e := e) (s := s) (x := x)
      refine run_bind_of_returns hvisit ?_
      split
      · exact follow_returns hdecoder hanswers hx hs
      · exact ⟨_, _, rfl⟩

end Results

section Runs

variable (hdecoder : e.decoder.Incremental scope limit)
include hdecoder

theorem Session.ready (h : e.Session history x)
    (hseeds : ∀ s ∈ history.seeds, s.Ready scope values) :
    ∀ s ∈ x.todo, s.Ready scope values := by
  induction h with
  | start => simp
  | note _ _ ih => exact ih hseeds
  | push _ s ih =>
      rw [List.forall_mem_cons] at hseeds
      exact List.forall_mem_cons.mpr ⟨hseeds.1, ih hseeds.2⟩
  | expand h htodo hrun ih =>
      have hx := h.charted hdecoder
      have htodo' := ih hseeds
      rw [htodo, List.forall_mem_cons] at htodo'
      have hexpansion := Expansion.of_run hrun
      have hnew := hexpansion.ready hdecoder hx htodo'.1
      rw [hexpansion.todo, List.forall_mem_append]
      exact ⟨hnew, htodo'.2⟩
  | fail => simp [Exploration.abort]

theorem run_empties (hlimit : 0 < e.settings.maxVisits) (hanswers : e.solver.Answers values)
    {steps : Nat} (hx : x.program.Charted scope limit e.image)
    (hready : ∀ s ∈ x.todo, s.Ready scope values) (hsteps : e.potential limit x ≤ steps) :
    ∃ result y, (e.run steps).run x = .ok (result, y) ∧ y.todo = [] := by
  induction steps generalizing x with
  | zero =>
      cases htodo : x.todo with
      | nil => exact ⟨_, _, run_of_nil htodo 0, htodo⟩
      | cons s rest =>
          rw [potential_of_cons htodo] at hsteps
          have hweight : 0 < s.pc.weight limit e.image.definedAddresses.size :=
            Location.weight_pos
          omega
  | succ steps ih =>
      cases htodo : x.todo with
      | nil => exact ⟨_, _, run_of_nil htodo (steps + 1), htodo⟩
      | cons s rest =>
          rw [htodo, List.forall_mem_cons] at hready
          obtain ⟨hs, hrest⟩ := hready
          obtain ⟨outcome, x', hexpand⟩ := expand_returns (x := { x with todo := rest }) hdecoder
            hanswers hx hs
          obtain ⟨fate, added, hexpansion⟩ := expansion_of_run hexpand
          rw [run_of_cons htodo, hexpand, ok_bind]
          cases outcome with
          | error error => exact ⟨_, _, rfl, rfl⟩
          | ok u =>
              have hdiscovers := hexpansion.discovers hdecoder hx
              have hlt := hexpansion.potential_lt hdecoder hlimit hx hs
              rw [potential_of_cons htodo] at hsteps
              refine ih (hx.discovers hdiscovers) ?_ (Nat.le_of_lt_succ (hlt.trans_le hsteps))
              rw [hexpansion.todo, List.forall_mem_append]
              exact ⟨hexpansion.ready hdecoder hx hs, hrest⟩

end Runs

end Explorer

end FlowRecovery
