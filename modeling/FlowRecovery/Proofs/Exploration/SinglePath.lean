import Mathlib
import FlowRecovery.Recovery
import FlowRecovery.Proofs.Simulation.Concrete

namespace FlowRecovery

variable {scope : Scope} {widths : String → Nat}

/-- The numbers of states at which a path ended, by the reason for it. -/
def Statistics.endings (c : Statistics) : List Nat :=
  [c.duplicates, c.throttled, c.undefinedTargets, c.undefinedValues, c.deadStates]

theorem Statistics.sum_endings (c : Statistics) : c.endings.sum =
    c.duplicates + (c.throttled + (c.undefinedTargets + (c.undefinedValues + c.deadStates))) :=
  rfl

theorem perm_of_sum_eq_one {l : List Nat} (h : l.sum = 1) :
    l.Perm (1 :: List.replicate (l.length - 1) 0) := by
  induction l with
  | nil => cases h
  | cons a l ih =>
      rw [List.sum_cons] at h
      cases a with
      | zero =>
          rw [Nat.zero_add] at h
          have hlength : l.length - 1 + 1 = l.length := by
            cases l with
            | nil => cases h
            | cons _ _ => rfl
          refine ((ih h).cons 0).trans ((List.Perm.swap 1 0 _).trans ?_)
          rw [← List.replicate_succ, hlength]
          rfl
      | succ a =>
          have hrest : l.sum = 0 := by omega
          have ha : a = 0 := by omega
          subst ha
          rw [List.sum_eq_zero_iff] at hrest
          rw [List.eq_replicate_of_mem hrest]
          simp

namespace Exploration

/-- The path goes on at one state of the worklist, or it came to one end. -/
structure OnePath (scope : Scope) (widths : String → Nat) (x : Exploration) : Prop where
  program : x.program.Sound scope
  concrete : ∀ s ∈ x.todo, s.Concrete widths
  ending : x.todo.length + x.statistics.endings.sum = 1

theorem OnePath.withLog {x : Exploration} (hx : x.OnePath scope widths) (log : Array Event) :
    (x.withLog log).OnePath scope widths :=
  ⟨hx.program, hx.concrete, hx.ending⟩

theorem OnePath.todo_constant {x : Exploration} (hx : x.OnePath scope widths) :
    x.todo.length ≤ 1 ∧ ∀ s ∈ x.todo, s.AllConstant := by
  constructor
  · have hending := hx.ending
    omega
  · intro s hs
    exact (hx.concrete s hs).allConstant

theorem OnePath.popped {x : Exploration} {s : State} {rest : List State}
    (hx : x.OnePath scope widths) (htodo : x.todo = s :: rest) :
    (({ x with todo := rest } : Exploration).push s).OnePath scope widths := by
  refine ⟨hx.program, ?_, ?_⟩
  · rw [push, ← htodo]
    exact hx.concrete
  · rw [push, ← htodo]
    exact hx.ending

theorem OnePath.ended {x x' : Exploration} {s : State} (hx : (x.push s).OnePath scope widths)
    (hprogram : x'.program.Sound scope) (htodo : x'.todo = x.todo)
    (hending : x'.statistics.endings.sum = x.statistics.endings.sum + 1) :
    x'.OnePath scope widths := by
  have hlength : x.todo.length + 1 + x.statistics.endings.sum = 1 := hx.ending
  have hempty : x.todo = [] := List.eq_nil_of_length_eq_zero (by omega)
  refine ⟨hprogram, ?_, ?_⟩
  · rw [htodo, hempty]
    exact fun _ => nofun
  · rw [htodo, hending]
    omega

theorem OnePath.advanced {x x' : Exploration} {s next : State}
    (hx : (x.push s).OnePath scope widths) (hprogram : x'.program.Sound scope)
    (hnext : next.Concrete widths) (htodo : x'.todo = next :: x.todo)
    (hending : x'.statistics.endings = x.statistics.endings) : x'.OnePath scope widths := by
  have hrest (t : State) (ht : t ∈ x.todo) : t.Concrete widths :=
    hx.concrete t (List.mem_cons_of_mem s ht)
  refine ⟨hprogram, ?_, ?_⟩
  · rw [htodo, List.forall_mem_cons]
    exact ⟨hnext, hrest⟩
  · rw [htodo, hending]
    exact hx.ending

/-- An exploration after an instruction could not be decoded. -/
def abort (x : Exploration) (error : DecodeError) : Exploration :=
  { x.withLog (x.discovery.log.push (.aborted error)) with todo := [], visited := [] }

end Exploration

namespace Explorer

/-- The explorations of a run between two expansions. -/
inductive Passes (e : Explorer) (start : Exploration) : Exploration → Prop
  | start : Passes e start start
  | expand {x y : Exploration} {s : State} {rest : List State} (h : Passes e start x)
      (htodo : x.todo = s :: rest)
      (hrun : (e.expand s).run { x with todo := rest } = .ok (.ok (), y)) :
      Passes e start y

def withSolver (e : Explorer) (solver : Solver) : Explorer :=
  { e with solver }

/-- The decoder is deterministic, and all registers are those of the image or have a known
width. -/
structure Certain (scope : Scope) (widths : String → Nat) (e : Explorer) : Prop where
  decoder : e.decoder.Deterministic scope
  scope {expr : Expr} : expr.WellFormed scope → expr.WellFormed (Scope.ground.onMemory widths)
  registers {name : String} {r : Register} : e.decoder.arch.register? name = some r →
    r.Fits widths
  image {name : String} {x : Word} : e.image.physical? name = some x → x.Canonical ∧
    x.width = widths name

variable {e : Explorer} {x : Exploration} {s : State}

section Expansion

theorem settings_withSolver (solver : Solver) : (e.withSolver solver).settings = e.settings :=
  rfl

theorem isOutside_withSolver (solver : Solver) :
    (e.withSolver solver).isOutside x s = e.isOutside x s :=
  rfl

theorem visit_withSolver (solver : Solver) : (e.withSolver solver).visit s = e.visit s :=
  rfl

theorem visit_uniform : ExploreM.Uniform (fun _ : Solver => e.visit s) x fun _ x' =>
    ∃ visits, x' = { x with visits } := by
  unfold visit
  refine .ite (fun _ => ?_) fun _ =>
    .get (fun _ _ => rfl) (.modify (fun _ => rfl) (.ite (fun _ => ?_) fun _ => ?_))
  · exact .pure ⟨x.visits, rfl⟩
  · exact .report (.pure ⟨_, rfl⟩)
  · exact .pure ⟨_, rfl⟩

theorem follow_uniform (he : e.Certain scope widths) (hx : (x.push s).OnePath scope widths) :
    ExploreM.Uniform (fun solver => (e.withSolver solver).follow s) x fun result x' =>
      ∀ u, result = .ok u → x'.OnePath scope widths := by
  have hprogram : x.discovery.program.Sound scope := hx.program
  have hs : s.Concrete widths := hx.concrete s List.mem_cons_self
  refine .report (.count ?_)
  refine (ExploreM.simulate_uniform (Simulator.arrows_uniform e.simulator he.decoder hprogram s)
    (by rfl)).bind ?_
  rintro result _ ⟨d, rfl, hd, harrows⟩
  cases result with
  | error error => exact .pure nofun
  | ok arrows =>
      obtain ⟨hdeterministic, hnode⟩ := harrows arrows rfl
      have hsteps := Simulator.stepAll_uniform he.scope e.simulator hs hd hdeterministic hnode
      refine (ExploreM.simulate_uniform hsteps (by rfl)).bind ?_
      rintro result _ ⟨d, rfl, hd, hlist⟩
      cases result with
      | error error =>
          refine .report (.count (.markVisited (.pure fun _ _ => ?_)))
          refine hx.ended hd rfl ?_
          simp only [Statistics.sum_endings]
          omega
      | ok list =>
          rcases hlist list rfl with ⟨-, rfl⟩ | ⟨next, rfl, hnext⟩
          · refine .report (.count (.markVisited (.modify (fun _ => rfl) (.pure fun _ _ => ?_))))
            refine hx.ended hd rfl ?_
            simp only [Statistics.sum_endings]
            omega
          · refine .markVisited (.modify (fun _ => rfl) (.pure fun _ _ => ?_))
            exact hx.advanced hd hnext rfl rfl

theorem expand_uniform (he : e.Certain scope widths) (hx : (x.push s).OnePath scope widths) :
    ExploreM.Uniform (fun solver => (e.withSolver solver).expand s) x fun result x' =>
      ∀ u, result = .ok u → x'.OnePath scope widths := by
  simp only [expand, isOutside_withSolver, visit_withSolver]
  refine .get (fun _ _ => rfl) (.ite (fun _ => ?_) fun _ => .ite (fun _ => ?_) fun _ => ?_)
  · refine .report (.count (.pure fun _ _ => ?_))
    refine hx.ended hx.program rfl ?_
    simp only [Statistics.sum_endings]
    omega
  · refine .report (.modifyProgram (.count (.pure fun _ _ => ?_)))
    refine hx.ended (hx.program.markUnresolved _ nofun) rfl ?_
    simp only [Statistics.sum_endings]
    omega
  · refine visit_uniform.bind ?_
    rintro allowed _ ⟨visits, rfl⟩
    refine .ite (fun _ => ?_) fun _ => .count (.markVisited (.pure fun _ _ => ?_))
    · exact follow_uniform he ⟨hx.program, hx.concrete, hx.ending⟩
    · refine hx.ended hx.program rfl ?_
      simp only [Statistics.sum_endings]
      omega

end Expansion

section Runs

theorem Passes.onePath {start : Exploration} {solver : Solver} (he : e.Certain scope widths)
    (hstart : start.OnePath scope widths) (h : (e.withSolver solver).Passes start x) :
    x.OnePath scope widths := by
  induction h with
  | start => exact hstart
  | @expand x y s rest _ htodo hrun ih =>
      rcases expand_uniform he (ih.popped htodo) with hstop | ⟨result, x', hpost, hexpand⟩
      · cases (hstop solver x.discovery.log).symm.trans hrun
      · obtain ⟨log, hexpand⟩ := hexpand solver x.discovery.log
        cases hexpand.symm.trans hrun
        exact (hpost () rfl).withLog log

theorem run_uniform (he : e.Certain scope widths) (hx : x.OnePath scope widths) (steps : Nat) :
    ExploreM.Uniform (fun solver => (e.withSolver solver).run steps) x fun result x' =>
      ∀ u, result = .ok u → x'.OnePath scope widths ∧ x'.todo = [] := by
  induction steps generalizing x with
  | zero =>
      unfold run
      refine .get (fun _ _ => rfl) ?_
      cases htodo : x.todo with
      | nil => exact .pure fun _ _ => ⟨hx, htodo⟩
      | cons s rest => exact .inl fun _ _ => rfl
  | succ steps ih =>
      unfold run
      refine .get (fun _ _ => rfl) ?_
      cases htodo : x.todo with
      | nil => exact .pure fun _ _ => ⟨hx, htodo⟩
      | cons s rest =>
          refine .modify (fun _ => rfl) ((expand_uniform he (hx.popped htodo)).bind ?_)
          intro result x' hpost
          cases result with
          | ok u => exact ih (hpost u rfl)
          -- a failed expansion empties the worklist, and its error is the result
          | error error => exact .report (.modify (fun _ => rfl) (.pure nofun))

theorem run_of_nil (htodo : x.todo = []) (steps : Nat) :
    (e.run steps).run x = .ok (.ok (), x) := by
  cases steps with
  | zero => simp [run, htodo]
  | succ steps => simp [run, htodo]

theorem run_of_cons {rest : List State} (htodo : x.todo = s :: rest) (steps : Nat) :
    (e.run (steps + 1)).run x = (e.expand s).run { x with todo := rest } >>= fun p => StateT.run
      (match p.1 with
      | .ok () => e.run steps
      | .error error => do
        report (.aborted error)
        modify fun x => { x with todo := [], visited := [] }
        return .error error) p.2 := by
  simp only [run, StateT.run_bind, StateT.run_get, pure_bind, htodo]
  rfl

theorem Passes.exists_run_eq {start : Exploration} (h : e.Passes start x) :
    ∃ done, ∀ steps, (e.run (done + steps)).run start = (e.run steps).run x := by
  induction h with
  | start =>
      refine ⟨0, fun steps => ?_⟩
      rw [Nat.zero_add]
  | expand _ htodo hrun ih =>
      obtain ⟨done, hdone⟩ := ih
      refine ⟨done + 1, fun steps => ?_⟩
      rw [Nat.add_assoc, Nat.add_comm 1, hdone, run_of_cons htodo, hrun, ok_bind]

/-- A run that comes to its end passes through explorations up to one with an empty worklist, or
up to an expansion that fails. -/
theorem Passes.cases_of_run {start y : Exploration} {steps : Nat}
    {result : Except DecodeError Unit} (h : e.Passes start x)
    (hrun : (e.run steps).run x = .ok (result, y)) :
    (result = .ok () ∧ e.Passes start y ∧ y.todo = []) ∨
      ∃ z s rest error y', e.Passes start z ∧ z.todo = s :: rest ∧
        (e.expand s).run { z with todo := rest } = .ok (.error error, y') ∧
        result = .error error ∧
        y = y'.abort error := by
  induction steps generalizing x with
  | zero =>
      cases htodo : x.todo with
      | nil =>
          cases (run_of_nil htodo 0).symm.trans hrun
          exact .inl ⟨rfl, h, htodo⟩
      | cons s rest =>
          simp only [run, StateT.run_bind, StateT.run_get, pure_bind, htodo] at hrun
          cases hrun
  | succ steps ih =>
      cases htodo : x.todo with
      | nil =>
          cases (run_of_nil htodo (steps + 1)).symm.trans hrun
          exact .inl ⟨rfl, h, htodo⟩
      | cons s rest =>
          rw [run_of_cons htodo] at hrun
          obtain ⟨⟨outcome, x'⟩, hexpand, hrest⟩ := exists_of_bind_eq_ok hrun
          cases outcome with
          | ok u => exact ih (h.expand htodo hexpand) hrest
          | error error =>
              cases hrest
              exact .inr ⟨x, s, rest, error, x', h, htodo, hexpand, rfl, rfl⟩

theorem Passes.of_run {start y : Exploration} {steps : Nat} (h : e.Passes start x)
    (hrun : (e.run steps).run x = .ok (.ok (), y)) : e.Passes start y ∧ y.todo = [] := by
  rcases h.cases_of_run hrun with ⟨-, hpasses⟩ | ⟨_, _, _, _, _, -, -, -, herror, -⟩
  · exact hpasses
  · cases herror

end Runs

end Explorer

namespace Recovery

variable {e : Explorer} {x : Exploration}

theorem forIn_report_uniform {γ : Type} {l : List γ} {event : Solver → γ → Event} :
    ExploreM.Uniform (fun solver => forIn l PUnit.unit fun r _ => do
      Explorer.report (event solver r)
      pure (ForInStep.yield PUnit.unit)) x fun _ x' => x' = x := by
  induction l with
  | nil => exact .pure rfl
  | cons r l ih =>
      simp only [List.forIn_cons, bind_assoc, pure_bind]
      exact .report ih

theorem announce_uniform (entrypoint : UInt64) :
    ExploreM.Uniform (fun solver => announce (e.withSolver solver) entrypoint) x
      fun _ x' => x' = x := by
  have hlast : ExploreM.Uniform
      (fun solver : Solver => Explorer.report (.exploring entrypoint solver.name)) x
      fun _ x' => x' = x :=
    .inr ⟨⟨⟩, x, rfl, fun _ _ => ⟨_, rfl⟩⟩
  simp only [announce, Explorer.settings_withSolver]
  refine forIn_report_uniform.bind ?_
  rintro _ _ rfl
  exact .ite (fun _ => .report hlast) fun _ => hlast

theorem launch_uniform (he : e.Certain scope widths) (entrypoint : UInt64) :
    ExploreM.Uniform (fun solver => (launch (e.withSolver solver) entrypoint).run) {}
      fun result x' =>
      ∀ u, result = .ok u → x'.OnePath scope widths := by
  have hinit := Simulator.init_uniform (d := {}) e.simulator he.registers he.image entrypoint
    e.settings.initRegisters
  simp only [launch]
  refine .except_lift (announce_uniform entrypoint) ?_
  rintro _ _ rfl
  refine .except_lift (ExploreM.simulate_uniform hinit rfl) ?_
  rintro result _ ⟨_, rfl, rfl, hstate⟩
  cases result with
  | error error => exact .pure nofun
  | ok s =>
      refine .inr ⟨.ok (), ({} : Exploration).push s, fun _ _ => ⟨?_, ?_, rfl⟩,
        fun _ log => ⟨log, rfl⟩⟩
      · exact Microcode.sound_empty
      · rw [Exploration.push, List.forall_mem_singleton]
        exact hstate s rfl

theorem explorer_cases (image : Image) (decoder : Decoder) (settings : Settings) :
    (∃ error, ∀ solver log, ∃ log', (explorer image decoder (.ok solver) settings).run.run
      (x.withLog log) =
        .ok (.error error, x.withLog log')) ∨
      ∀ solver, explorer image decoder (.ok solver) settings =
        pure ⟨decoder, solver, image.memory, settings⟩ := by
  by_cases hprocessor : image.arch.processor = decoder.arch.processor
  · cases hvalid : settings.validate decoder.arch with
    | error error =>
        refine .inl ⟨.settings error, fun solver log => ⟨log, ?_⟩⟩
        simp only [explorer, hprocessor, hvalid, ne_eq, not_true_eq_false, if_false]
        rfl
    | ok u =>
        refine .inr fun solver => ?_
        simp only [explorer, hprocessor, hvalid, ne_eq, not_true_eq_false, if_false]
  · refine .inl ⟨.settings (.architectureMismatch image.arch.processor decoder.arch.processor),
        fun solver log =>
      ⟨log.push (.wrongDecoder image.arch.processor decoder.arch.processor), ?_⟩⟩
    simp only [explorer, hprocessor, ne_eq, not_false_eq_true, if_true]
    rfl

theorem finish_of_onePath (hx : x.OnePath scope widths) (htodo : x.todo = []) :
    x.finish.statistics.endings.Perm [1, 0, 0, 0, 0] ∧
      x.finish.statistics.unresolvedJumps = 0 := by
  have hending := hx.ending
  rw [htodo, List.length_nil, Nat.zero_add] at hending
  -- targets that no path reached are recorded as well, but not as jumps
  have hprogram (targets : List Location) {mc : Microcode} (hmc : mc.Sound scope) :
      (targets.foldl (fun mc target => mc.markUnresolved target .unexplored) mc).Sound scope := by
    induction targets generalizing mc with
    | nil => exact hmc
    | cons target targets ih => exact ih (hmc.markUnresolved target nofun)
  refine ⟨perm_of_sum_eq_one hending, ?_⟩
  have hjumps := (hprogram x.program.danglingTargets.toList hx.program).unresolvedJumps
  rw [Exploration.finish, hjumps]
  rfl

theorem explore_uniform {image : Image} {decoder : Decoder} {settings : Settings}
    (he : Explorer.Certain scope widths ⟨decoder, .enumerating, image.memory, settings⟩)
    (steps : Nat) :
    ExploreM.Uniform (fun solver => (explore steps image decoder (.ok solver) settings).run) {}
      fun result _ =>
      ∀ r, result = .ok r → r.statistics.endings.Perm [1, 0, 0, 0, 0] ∧
        r.statistics.unresolvedJumps = 0 := by
  rcases explorer_cases image decoder settings with ⟨error, hrun⟩ | hexplorer
  · have hfails : ExploreM.Uniform
        (fun solver => (explorer image decoder (.ok solver) settings).run) {} fun result _ =>
          result = .error error := .inr ⟨.error error, {}, rfl, hrun⟩
    refine hfails.except_bind ?_ ?_
    · exact fun _ _ _ => nofun
    · exact fun _ _ => nofun
  · simp only [explore, hexplorer, pure_bind]
    refine (launch_uniform he image.entrypoint).except_bind ?_ ?_
    · exact fun _ _ _ => nofun
    intro u x hx
    refine .except_lift (Explorer.run_uniform he (hx u rfl) steps) ?_
    intro result y hy
    cases result with
    | error error => exact .pure nofun
    | ok u =>
        obtain ⟨hpath, htodo⟩ := hy u rfl
        let program := { y.finish.program with entrypoint := some (.boundary image.entrypoint) }
        refine .inr ⟨.ok { y.finish with program }, y, ?_, fun _ log => ?_⟩
        · rintro _ ⟨⟩
          exact finish_of_onePath hpath htodo
        · exact ⟨log.push (.recovered y.finish.program.nodes.size y.finish.statistics), rfl⟩

end Recovery

end FlowRecovery
