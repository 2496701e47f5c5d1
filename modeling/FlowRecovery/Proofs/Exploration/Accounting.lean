import Mathlib
import FlowRecovery.Testing
import FlowRecovery.Proofs.Exploration.History

namespace FlowRecovery.Explorer

variable {e : Explorer} {s : State} {x y : Exploration} {fate : Fate} {added : List State}
  {result : Except DecodeError Unit} {history : History}

section Expansions

theorem Expansion.total (h : e.Expansion s x fate added result y) :
    y.statistics.expanded + y.statistics.duplicates + y.statistics.throttled +
      y.statistics.undefinedTargets =
      x.statistics.expanded + x.statistics.duplicates + x.statistics.throttled +
        x.statistics.undefinedTargets + 1 := by
  have hexpanded := h.tally .expanded
  have hduplicate := h.tally .duplicate
  have hthrottled := h.tally .throttled
  have houtside := h.tally .outside
  cases fate <;> simp [Fate.tally] at hexpanded hduplicate hthrottled houtside <;> omega

theorem Expansion.queries_eq_expanded (h : e.Expansion s x fate added result y)
    (hx : x.discovery.queries = x.statistics.expanded) :
    y.discovery.queries = y.statistics.expanded := by
  have htally := h.tally .expanded
  rw [h.queries, hx]
  simpa [Fate.tally, eq_comm] using htally.symm

theorem Expansion.visited (h : e.Expansion s x fate added (.ok ()) y) :
    ((fate = .expanded ∨ fate = .throttled) ∧ s.point ∉ x.visited ∧
      y.visited = s.point :: x.visited) ∨
      (fate = .duplicate ∨ fate = .outside) ∧ y.visited = x.visited := by
  cases h with
  | duplicate => exact .inr ⟨.inl rfl, rfl⟩
  | outside => exact .inr ⟨.inr rfl, rfl⟩
  | throttled hnew => exact .inl ⟨.inr rfl, hnew, rfl⟩
  | expanded hnew _ _ h =>
      cases h with
      | abandoned => exact .inl ⟨.inl rfl, hnew, rfl⟩
      | followed => exact .inl ⟨.inl rfl, hnew, rfl⟩

end Expansions

section Sessions

theorem Session.tally (h : e.Session history x) (fate : Fate) :
    fate.tally x.statistics = (history.meeting fate).length := by
  induction h with
  | start => cases fate <;> rfl
  | note _ _ ih => exact ih
  | push _ _ ih => exact ih
  | expand _ _ hrun ih =>
      rw [History.length_meeting_take, ← ih]
      exact (Expansion.of_run hrun).tally fate
  | @fail history x y s rest _ _ _ hrun ih =>
      change _ = ((history.take s (.between x y) (pushedOnto rest y.todo)).meeting fate).length
      rw [History.length_meeting_take, ← ih]
      exact (Expansion.of_run hrun).tally fate

theorem Session.queries (h : e.Session history x) :
    x.discovery.queries = x.statistics.expanded := by
  induction h with
  | start => rfl
  | note _ _ ih => exact ih
  | push _ _ ih => exact ih
  | expand _ _ hrun ih => exact (Expansion.of_run hrun).queries_eq_expanded ih
  | fail _ _ hrun ih => exact (Expansion.of_run hrun).queries_eq_expanded ih

theorem Session.pushed (h : e.Session history x) (hfailures : history.failures = 0) :
    history.seeds.length + history.successors.length =
      x.statistics.expanded + x.statistics.duplicates + x.statistics.throttled +
        x.statistics.undefinedTargets + x.todo.length := by
  induction h with
  | start => rfl
  | note _ _ ih => exact ih hfailures
  | push _ _ ih =>
      have hx := ih hfailures
      simp only [Exploration.push, List.length_cons]
      omega
  | expand _ htodo hrun ih =>
      have hx := ih hfailures
      have hexpansion := Expansion.of_run hrun
      have htotal := hexpansion.total
      have hlength := congrArg List.length hexpansion.todo
      rw [htodo, List.length_cons] at hx
      rw [List.length_append] at hlength
      simp only [History.take, List.length_append]
      dsimp only at htotal hlength
      omega
  | fail => cases hfailures

/-- The expanded states are among those that are done with, and no two of either are equal. -/
structure Settled (history : History) (visited : List (Location × SymbolicMemory))
    (c : Statistics) : Prop where
  nodup : visited.Nodup
  length : visited.length = c.expanded + c.throttled
  expanded_nodup : ((history.meeting .expanded).map State.point).Nodup
  expanded_mem {s : State} : s ∈ history.meeting .expanded → s.point ∈ visited

theorem Settled.take (hx : Settled history x.visited x.statistics)
    (h : e.Expansion s x fate added (.ok ()) y) :
    Settled (history.take s fate added) y.visited y.statistics := by
  have hexpanded : y.statistics.expanded = _ := h.tally .expanded
  have hthrottled : y.statistics.throttled = _ := h.tally .throttled
  have hlength := hx.length
  have hkept {p : Location × SymbolicMemory} (hp : p ∈ x.visited) : p ∈ y.visited := by
    rcases h.visited with ⟨-, -, hvisited⟩ | ⟨-, hvisited⟩
    · exact hvisited ▸ List.mem_cons_of_mem _ hp
    · exact hvisited ▸ hp
  constructor
  case nodup =>
    rcases h.visited with ⟨-, hnew, hvisited⟩ | ⟨-, hvisited⟩
    · exact hvisited ▸ List.nodup_cons.mpr ⟨hnew, hx.nodup⟩
    · exact hvisited ▸ hx.nodup
  case length =>
    rcases h.visited with ⟨rfl | rfl, -, hvisited⟩ | ⟨rfl | rfl, hvisited⟩ <;>
      simp [Fate.tally] at hexpanded hthrottled <;>
        simp only [hvisited, List.length_cons] <;> omega
  case expanded_nodup =>
    by_cases hfate : fate = .expanded
    · subst hfate
      rw [History.meeting_take_self, List.map_cons, List.nodup_cons]
      refine ⟨fun hpoint => ?_, hx.expanded_nodup⟩
      -- a state with a point that is done with is not expanded
      obtain ⟨t, ht, heq⟩ := List.mem_map.mp hpoint
      cases h with
      | expanded hnew => exact hnew (heq ▸ hx.expanded_mem ht)
    · rw [History.meeting_take_of_ne hfate]
      exact hx.expanded_nodup
  case expanded_mem =>
    intro t ht
    by_cases hfate : fate = .expanded
    · subst hfate
      rw [History.meeting_take_self, List.mem_cons] at ht
      rcases ht with rfl | ht
      · rcases h.visited with ⟨-, -, hvisited⟩ | ⟨hdropped, -⟩
        · exact hvisited ▸ List.mem_cons_self
        · cases hdropped <;> contradiction
      · exact hkept (hx.expanded_mem ht)
    · rw [History.meeting_take_of_ne hfate] at ht
      exact hkept (hx.expanded_mem ht)

theorem Session.settled (h : e.Session history x) (hfailures : history.failures = 0) :
    Settled history x.visited x.statistics := by
  induction h with
  | start => exact ⟨List.nodup_nil, rfl, List.nodup_nil, nofun⟩
  | note _ _ ih => exact ih hfailures
  | push _ _ ih =>
      obtain ⟨hnodup, hlength, hexpanded, hmem⟩ := ih hfailures
      exact ⟨hnodup, hlength, hexpanded, hmem⟩
  | @expand history x y s rest _ _ hrun ih =>
      exact Settled.take (x := { x with todo := rest }) (ih hfailures) (Expansion.of_run hrun)
  | fail => cases hfailures

end Sessions

end FlowRecovery.Explorer
