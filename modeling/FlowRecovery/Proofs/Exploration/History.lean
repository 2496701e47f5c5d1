import Mathlib
import FlowRecovery.Proofs.Exploration.SinglePath
import FlowRecovery.Proofs.Simulation.Records

namespace FlowRecovery

/-- What becomes of a state that is taken from the worklist. -/
inductive Fate where
  | expanded
  | duplicate
  | throttled
  | outside
deriving DecidableEq

/-- The number of states that met a fate, as it is counted. -/
def Fate.tally (c : Statistics) : Fate → Nat
  | expanded => c.expanded
  | duplicate => c.duplicates
  | throttled => c.throttled
  | outside => c.undefinedTargets

/-- What became of a state, told from what is left behind: its arrows were asked for, or else one
of the other counters changed. -/
def Fate.between (x y : Exploration) : Fate :=
  if y.discovery.queries ≠ x.discovery.queries then .expanded
  else if y.statistics.duplicates ≠ x.statistics.duplicates then .duplicate
  else if y.statistics.throttled ≠ x.statistics.throttled then .throttled
  else .outside

/-- The states that were put on a worklist. -/
def pushedOnto (rest todo : List State) : List State :=
  todo.take (todo.length - rest.length)

/-- The states that went through a worklist. -/
structure History where
  /-- The states that were pushed from outside. -/
  seeds : List State := []
  /-- The states that expansions pushed. -/
  successors : List State := []
  /-- The states that were taken out, the latest first, with their fates. -/
  taken : List (State × Fate) := []
  /-- The number of runs that failed. -/
  failures : Nat := 0

namespace History

/-- The states that met a fate. -/
def meeting (history : History) (fate : Fate) : List State :=
  (history.taken.filter (·.2 = fate)).map Prod.fst

/-- How often states at a location were expanded. -/
def expansions (history : History) (l : Location) : Nat :=
  (history.meeting .expanded).countP (·.pc = l)

/-- A state is taken out, and an expansion pushes others. -/
def take (history : History) (s : State) (fate : Fate) (added : List State) : History :=
  { history with successors := added ++ history.successors, taken := (s, fate) :: history.taken }

/-- Nothing was pushed from outside since. -/
structure Continues (history history' : History) : Prop where
  seeds : history'.seeds = history.seeds
  successors : history.successors <:+ history'.successors
  taken : history.taken <:+ history'.taken

variable {history history' history'' : History} {s : State} {fate other : Fate}
  {added : List State} {l : Location}

theorem meeting_take_self :
    (history.take s fate added).meeting fate = s :: history.meeting fate := by
  simp [meeting, take]

theorem meeting_take_of_ne (h : other ≠ fate) :
    (history.take s other added).meeting fate = history.meeting fate := by
  simp [meeting, take, h]

theorem length_meeting_take : ((history.take s other added).meeting fate).length =
    (history.meeting fate).length + if fate = other then 1 else 0 := by
  by_cases hsame : fate = other
  · subst hsame
    rw [meeting_take_self, List.length_cons, if_pos rfl]
  · rw [meeting_take_of_ne (Ne.symm hsame), if_neg hsame, Nat.add_zero]

theorem mem_meeting : s ∈ history.meeting fate ↔ (s, fate) ∈ history.taken := by
  simp [meeting]

theorem expansions_take : (history.take s fate added).expansions l =
    history.expansions l + if fate = .expanded ∧ s.pc = l then 1 else 0 := by
  by_cases hfate : fate = .expanded
  · simp [expansions, hfate, meeting_take_self, List.countP_cons]
  · simp [expansions, hfate, meeting_take_of_ne hfate]

theorem Continues.refl (history : History) : history.Continues history :=
  ⟨rfl, List.suffix_rfl, List.suffix_rfl⟩

theorem Continues.trans (h : history.Continues history') (h' : history'.Continues history'') :
    history.Continues history'' :=
  ⟨h'.seeds.trans h.seeds, h.successors.trans h'.successors, h.taken.trans h'.taken⟩

theorem continues_take : history.Continues (history.take s fate added) :=
  ⟨rfl, List.suffix_append _ _, List.suffix_cons _ _⟩

end History

namespace Explorer

/-- The explorations of pushes and runs, between one expansion and the next, with what went
through the worklist. Nothing is asked of an expansion but that it came to its end: what became of
the state, and what was pushed, is read off the exploration that it left behind. -/
inductive Session (e : Explorer) : History → Exploration → Prop
  | start : Session e {} {}
  | note {history : History} {x : Exploration} (h : Session e history x) (log : Array Event) :
      Session e history (x.withLog log)
  | push {history : History} {x : Exploration} (h : Session e history x) (s : State) :
      Session e { history with seeds := s :: history.seeds } (x.push s)
  | expand {history : History} {x y : Exploration} {s : State} {rest : List State}
      (h : Session e history x) (htodo : x.todo = s :: rest)
      (hrun : (e.expand s).run { x with todo := rest } = .ok (.ok (), y)) :
      Session e (history.take s (.between x y) (pushedOnto rest y.todo)) y
  | fail {history : History} {x y : Exploration} {s : State} {rest : List State}
      {error : DecodeError}
      (h : Session e history x) (htodo : x.todo = s :: rest)
      (hrun : (e.expand s).run { x with todo := rest } = .ok (.error error, y)) :
      Session e { history.take s (.between x y) (pushedOnto rest y.todo) with failures :=
        history.failures + 1 } (y.abort error)

/-- Whether a state is within the limit of visits. -/
def admits (e : Explorer) (x : Exploration) (s : State) : Bool :=
  e.settings.maxVisits = 0 || !s.pc.isBoundary || x.visits.getD s.pc.instruction 0 <
    e.settings.maxVisits

/-- The visits after one more state was considered. -/
def visitsAfter (e : Explorer) (x : Exploration) (s : State) : Std.ExtTreeMap UInt64 Nat :=
  if e.settings.maxVisits = 0 ∨ !s.pc.isBoundary then x.visits
  else x.visits.insert s.pc.instruction (x.visits.getD s.pc.instruction 0 + 1)

/-- What following the arrows of a state leaves behind, with the successors that were pushed. -/
inductive Following (e : Explorer) (s : State) (x : Exploration) :
    List State → Except DecodeError Unit → Exploration → Prop
  | undecoded {log : Array Event} {error : DecodeError} {d : Discovery}
      (harrows : SimM.Returns (e.simulator.arrows s).run { x.discovery with log }
        (.error error) d) :
      Following e s x [] (.error error)
        { x with
          discovery := d
          statistics := { x.statistics with expanded := x.statistics.expanded + 1 } }
  | abandoned {log log' : Array Event} {arrows : List Arrow} {error : UndefinedValue}
      {d d' : Discovery}
      (harrows : Succeeds (e.simulator.arrows s) { x.discovery with log } arrows d)
      (hsteps : SimM.Returns (e.simulator.stepAll s arrows).run d (.error error) d') :
      Following e s x [] (.ok ())
        { x with
          discovery := { d' with log := log' }
          visited := s.point :: x.visited
          statistics := { x.statistics with
            expanded := x.statistics.expanded + 1
            undefinedValues := x.statistics.undefinedValues + 1 } }
  | followed {log log' : Array Event} {arrows : List Arrow} {successors : List State}
      {d d' : Discovery}
      (harrows : Succeeds (e.simulator.arrows s) { x.discovery with log } arrows d)
      (hsteps : Succeeds (e.simulator.stepAll s arrows) d successors d') :
      Following e s x successors.reverse (.ok ())
        { x with
          discovery := { d' with log := log' }
          todo := successors.reverse ++ x.todo
          visited := s.point :: x.visited
          statistics := { x.statistics with
            expanded := x.statistics.expanded + 1
            deadStates := x.statistics.deadStates + if successors.isEmpty then 1 else 0 } }

/-- What dealing with a state leaves behind, with its fate and the successors that were pushed. -/
inductive Expansion (e : Explorer) (s : State) (x : Exploration) :
    Fate → List State → Except DecodeError Unit → Exploration → Prop
  | duplicate {log : Array Event} (hvisited : s.point ∈ x.visited) :
      Expansion e s x .duplicate [] (.ok ())
        { x.withLog log with statistics :=
          { x.statistics with duplicates := x.statistics.duplicates + 1 } }
  | outside {log : Array Event} (hnew : s.point ∉ x.visited) (houtside : e.isOutside x s = true) :
      Expansion e s x .outside [] (.ok ())
        { x with
          discovery := { x.discovery with
            program := x.program.markUnresolved (.boundary s.pc.instruction) .outOfBounds
            log }
          statistics :=
            { x.statistics with undefinedTargets := x.statistics.undefinedTargets + 1 } }
  | throttled {log : Array Event} (hnew : s.point ∉ x.visited) (hinside : e.isOutside x s = false)
      (hlimit : e.admits x s = false) :
      Expansion e s x .throttled [] (.ok ())
        { x.withLog log with
          visited := s.point :: x.visited
          visits := e.visitsAfter x s
          statistics := { x.statistics with throttled := x.statistics.throttled + 1 } }
  | expanded {added : List State} {result : Except DecodeError Unit} {y : Exploration}
      (hnew : s.point ∉ x.visited)
      (hinside : e.isOutside x s = false) (hlimit : e.admits x s = true)
      (h : e.Following s { x with visits := e.visitsAfter x s } added result y) :
      Expansion e s x .expanded added result y

variable {e : Explorer} {s : State} {x y : Exploration} {result : Except DecodeError Unit}

section Inversion

theorem of_simulate_eq_ok {α : Type} {action : SimM α} {a : α}
    (h : (simulate action).run x = .ok (a, y)) :
    ∃ d, SimM.Returns action x.discovery a d ∧ y = { x with discovery := d } := by
  -- stated for any pair, since the run of `action` does not reduce
  have hset (p : Except Fault α × Discovery)
      (hp : (do set { x with discovery := p.2 }; liftM p.1 : ExploreM α).run x = .ok (a, y)) :
      p = (.ok a, p.2) ∧ y = { x with discovery := p.2 } := by
    rcases p with ⟨_ | b, d⟩
    · cases hp
    · cases hp
      exact ⟨rfl, rfl⟩
  obtain ⟨hreturns, rfl⟩ := hset _ h
  exact ⟨_, hreturns, rfl⟩

theorem simulate_of_returns {α : Type} {action : SimM α} {a : α} {d : Discovery}
    (h : SimM.Returns action x.discovery a d) :
    (simulate action).run x = .ok (a, { x with discovery := d }) := by
  have hset (p : Except Fault α × Discovery) (hp : p = (.ok a, d)) :
      (do set { x with discovery := p.2 }; liftM p.1 : ExploreM α).run x =
          .ok (a, { x with discovery := d }) := by
    subst hp
    rfl
  exact hset _ h

theorem exists_of_run_bind {α β : Type} {c : ExploreM α} {f : α → ExploreM β} {b : β}
    (h : (c >>= f).run x = .ok (b, y)) :
    ∃ a x', c.run x = .ok (a, x') ∧ (f a).run x' = .ok (b, y) := by
  rw [StateT.run_bind] at h
  obtain ⟨⟨a, x'⟩, hc, hf⟩ := exists_of_bind_eq_ok h
  exact ⟨a, x', hc, hf⟩

theorem visit_run : ∃ log, (e.visit s).run x =
    .ok (e.admits x s, { x.withLog log with visits := e.visitsAfter x s }) := by
  unfold visit admits visitsAfter
  by_cases hfree : e.settings.maxVisits = 0 ∨ !s.pc.isBoundary
  · refine ⟨x.discovery.log, ?_⟩
    have hadmits : (decide (e.settings.maxVisits = 0) || !s.pc.isBoundary) = true := by
      simpa using hfree
    simp only [hfree, hadmits, if_true, Bool.true_or]
    rfl
  · have hadmits : (decide (e.settings.maxVisits = 0) || !s.pc.isBoundary) = false := by
      simpa using hfree
    simp only [hfree, hadmits, if_false, Bool.false_or]
    by_cases hreached : x.visits.getD s.pc.instruction 0 = e.settings.maxVisits
    · refine ⟨x.discovery.log.push (.pruning s.pc.instruction e.settings.maxVisits), ?_⟩
      simp only [StateT.run_bind, StateT.run_get, pure_bind, hreached, if_true]
      rfl
    · refine ⟨x.discovery.log, ?_⟩
      simp only [StateT.run_bind, StateT.run_get, pure_bind, hreached, if_false]
      rfl

theorem following_of_run {log : Array Event}
    (h : (e.follow s).run (x.withLog log) = .ok (result, y)) :
    ∃ added, e.Following s x added result y := by
  unfold follow at h
  obtain ⟨_, _, hreport, h⟩ := exists_of_run_bind h
  cases hreport
  obtain ⟨_, _, hcount, h⟩ := exists_of_run_bind h
  cases hcount
  obtain ⟨arrows, _, hrun, h⟩ := exists_of_run_bind h
  obtain ⟨d, harrows, rfl⟩ := of_simulate_eq_ok hrun
  cases arrows with
  | error error =>
      cases h
      exact ⟨_, .undecoded harrows⟩
  | ok arrows =>
      obtain ⟨successors, _, hrun, h⟩ := exists_of_run_bind h
      obtain ⟨d', hsteps, rfl⟩ := of_simulate_eq_ok hrun
      cases successors with
      | error error =>
          cases h
          exact ⟨_, .abandoned harrows hsteps⟩
      | ok successors =>
          cases successors with
          | nil =>
              cases h
              exact ⟨_, .followed harrows hsteps⟩
          | cons next successors =>
              cases h
              exact ⟨_, .followed harrows hsteps⟩

theorem expansion_of_run (h : (e.expand s).run x = .ok (result, y)) :
    ∃ fate added, e.Expansion s x fate added result y := by
  unfold expand at h
  obtain ⟨_, _, hget, h⟩ := exists_of_run_bind h
  cases hget
  split at h
  case isTrue hvisited =>
    cases h
    exact ⟨_, _, .duplicate hvisited⟩
  case isFalse hnew =>
    split at h
    case isTrue houtside =>
      cases h
      exact ⟨_, _, .outside hnew houtside⟩
    case isFalse hinside =>
      rw [Bool.not_eq_true] at hinside
      obtain ⟨admitted, _, hvisit, h⟩ := exists_of_run_bind h
      obtain ⟨log, hvisits⟩ := visit_run (e := e) (s := s) (x := x)
      cases hvisits.symm.trans hvisit
      split at h
      case isTrue hadmits =>
        obtain ⟨added, hfollowing⟩ :=
          following_of_run (x := { x with visits := e.visitsAfter x s }) h
        exact ⟨_, _, .expanded hnew hinside hadmits hfollowing⟩
      case isFalse hlimit =>
        cases h
        exact ⟨_, _, .throttled hnew hinside (Bool.not_eq_true _ ▸ hlimit)⟩

end Inversion

section Sessions

variable {history : History} {fate : Fate} {rest added : List State} {error : DecodeError}

theorem Expansion.todo (h : e.Expansion s x fate added result y) : y.todo = added ++ x.todo := by
  cases h with
  | duplicate => rfl
  | outside => rfl
  | throttled => rfl
  | expanded _ _ _ h =>
      cases h with
      | undecoded => rfl
      | abandoned => rfl
      | followed => rfl

theorem Following.visits (h : e.Following s x added result y) : y.visits = x.visits := by
  cases h with
  | undecoded => rfl
  | abandoned => rfl
  | followed => rfl

theorem Expansion.tally (h : e.Expansion s x fate added result y) (other : Fate) :
    other.tally y.statistics = other.tally x.statistics + if other = fate then 1 else 0 := by
  cases h with
  | duplicate => cases other <;> rfl
  | outside => cases other <;> rfl
  | throttled => cases other <;> rfl
  | expanded _ _ _ h =>
      cases h with
      | undecoded => cases other <;> rfl
      | abandoned => cases other <;> rfl
      | followed => cases other <;> rfl

theorem Expansion.queries (h : e.Expansion s x fate added result y) :
    y.discovery.queries = x.discovery.queries + if fate = .expanded then 1 else 0 := by
  have hsteps {arrows : List Arrow} {d d' : Discovery}
      {successors : Except UndefinedValue (List State)}
      (h : SimM.Returns (e.simulator.stepAll s arrows).run d successors d') :
      d'.queries = d.queries := by
    refine SimM.Changes.of_returns (R := Discovery.SameQueries)
      (e.simulator.stepAll_changes fun a _ => ?_) h
    exact (e.simulator.step_changes s a).imp fun h => h.queries
  cases h with
  | duplicate => rfl
  | outside => rfl
  | throttled => rfl
  | expanded _ _ _ h =>
      cases h with
      | undecoded harrows => exact (Simulator.of_arrows harrows).1
      | abandoned harrows h => exact (hsteps h).trans (Simulator.of_arrows harrows).1
      | followed harrows h => exact (hsteps h).trans (Simulator.of_arrows harrows).1

theorem Expansion.between (h : e.Expansion s x fate added result y) :
    Fate.between x y = fate := by
  have hqueries := h.queries
  have hduplicates : y.statistics.duplicates = _ := h.tally .duplicate
  have hthrottled : y.statistics.throttled = _ := h.tally .throttled
  rw [Fate.between, hqueries, hduplicates, hthrottled]
  cases fate <;> simp [Fate.tally]

theorem Expansion.pushed (h : e.Expansion s x fate added result y) :
    pushedOnto x.todo y.todo = added := by
  rw [pushedOnto, h.todo, List.length_append, Nat.add_sub_cancel, List.take_left]

theorem Expansion.of_run (hrun : (e.expand s).run { x with todo := rest } = .ok (result, y)) :
    e.Expansion s { x with todo := rest } (.between x y) (pushedOnto rest y.todo) result y := by
  obtain ⟨fate, added, h⟩ := expansion_of_run hrun
  have hfate : Fate.between x y = fate := h.between
  have hadded : pushedOnto rest y.todo = added := h.pushed
  rw [hfate, hadded]
  exact h

theorem Expansion.expanded_of_error (h : e.Expansion s x fate added (.error error) y) :
    fate = .expanded := by
  cases h with
  | expanded => rfl

theorem Session.of_passes (h : e.Session history x) (hpasses : e.Passes x y) :
    ∃ history', e.Session history' y ∧ history.Continues history' ∧
      history'.failures = history.failures := by
  induction hpasses with
  | start => exact ⟨history, h, .refl history, rfl⟩
  | expand _ htodo hrun ih =>
      obtain ⟨history', h', hcontinues, hfailures⟩ := ih
      exact ⟨_, h'.expand htodo hrun, hcontinues.trans History.continues_take, hfailures⟩

/-- A run goes on with a session. It empties the worklist, and if it fails it also forgets what
was visited. -/
theorem Session.of_run {steps : Nat} (h : e.Session history x)
    (hrun : (e.run steps).run x = .ok (result, y)) :
    ∃ history', e.Session history' y ∧ history.Continues history' ∧ y.todo = [] ∧
      (result = .ok () → history'.failures = history.failures) ∧
      ∀ error, result = .error error → history'.failures = history.failures + 1 ∧
        y.visited = [] := by
  rcases Passes.cases_of_run .start hrun with
    ⟨rfl, hpasses, htodo⟩ | ⟨z, s, rest, error, y', hpasses, htodo, hexpand, rfl, rfl⟩
  · obtain ⟨history', h', hcontinues, hfailures⟩ := h.of_passes hpasses
    exact ⟨history', h', hcontinues, htodo, fun _ => hfailures, by simp⟩
  · obtain ⟨history', h', hcontinues, hfailures⟩ := h.of_passes hpasses
    obtain ⟨hseeds, hsuccessors, htaken⟩ := hcontinues.trans History.continues_take
    refine ⟨_, h'.fail htodo hexpand, ⟨hseeds, hsuccessors, htaken⟩, rfl, by simp, ?_⟩
    rintro _ ⟨⟩
    exact ⟨congrArg (· + 1) hfailures, rfl⟩

end Sessions

end Explorer

end FlowRecovery
