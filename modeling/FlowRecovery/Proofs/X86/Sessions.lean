import Mathlib
import FlowRecovery.Testing
import FlowRecovery.Proofs.Exploration.Termination
import FlowRecovery.Proofs.X86.Recovery

namespace FlowRecovery.X86

variable {lengthOf : List UInt8 → Option Nat} {solver : Solver} {image : Memory}
  {settings : Settings} {history : History} {x : Exploration}

section Consistency

/-- After any sequence of pushes and runs on x86 code, failed ones included: the finished program
has the nodes that were found, and all known targets have a node or a record; no node is recorded
as outside of the image or as unexplored; only boundaries of instructions that the image does not
define are recorded as outside; and jumps with further targets are recorded at nodes. Between any
two expansions of a run, and after it, all nodes of before are there with the same arrows and
texts and with at least the same resolved targets, and the sequence may go on. -/
theorem session_program_consistent
    (h : Explorer.Session ⟨decoder lengthOf, solver, image, settings⟩ history x) :
    let e : Explorer := ⟨decoder lengthOf, solver, image, settings⟩
    let mc := x.finish.program
    mc.danglingTargets = ∅ ∧ mc.nodes = x.program.nodes ∧
      (∀ l : Location, mc.contains l = true →
        mc.unresolved[l]? ≠ some .outOfBounds ∧ mc.unresolved[l]? ≠ some .unexplored) ∧
      (∀ l : Location, mc.unresolved[l]? = some .outOfBounds →
        l.isBoundary = true ∧ image.isDefined l.instruction = false) ∧
      (∀ (l : Location) (target : Expr), mc.unresolved[l]? = some (.dynamicJump target) →
        mc.contains l = true) ∧
      (∀ y, e.Passes x y → x.program.Keeps y.program) ∧
      ∀ steps result y, (e.run steps).run x = .ok (result, y) →
        x.program.Keeps y.program ∧ ∃ history', e.Session history' y ∧
        history.Continues history' := by
  intro e mc
  have hx : x.program.Charted scope maxSteps image := h.charted decoder_incremental
  refine ⟨x.danglingTargets_finish, x.nodes_finish, ?_, ?_, ?_, ?_, ?_⟩
  · intro l hl
    constructor
    · intro hrecord
      rcases Exploration.of_record_finish hx hrecord with ⟨⟨⟩, -⟩ | ⟨-, hnone, -⟩ | ⟨⟨_, ⟨⟩⟩, -⟩
      exact absurd hl (Bool.not_eq_true _ ▸ hnone)
    · intro hrecord
      rcases Exploration.of_record_finish hx hrecord with ⟨-, hnone⟩ | ⟨⟨⟩, -⟩ | ⟨⟨_, ⟨⟩⟩, -⟩
      exact absurd hl (Bool.not_eq_true _ ▸ hnone)
  · intro l hrecord
    rcases Exploration.of_record_finish hx hrecord with ⟨⟨⟩, -⟩ | ⟨-, -, houtside⟩ | ⟨⟨_, ⟨⟩⟩, -⟩
    exact houtside
  · intro l target hrecord
    rcases Exploration.of_record_finish hx hrecord with ⟨⟨⟩, -⟩ | ⟨⟨⟩, -⟩ | ⟨-, hnode⟩
    exact hnode
  · intro y hpasses
    have hdiscovers := hpasses.discovers decoder_incremental hx
    exact hdiscovers.keeps
  · intro steps result y hrun
    have hdiscovers := Explorer.discovers_of_run decoder_incremental hrun hx
    obtain ⟨history', h', hcontinues, -⟩ := h.of_run hrun
    exact ⟨hdiscovers.keeps, history', h', hcontinues⟩

/-- A jump to an unknown address and a jump out of the image are explored, then a branch one side
of which cannot be decoded. -/
theorem session_program_consistent_of_failed_run :
    let image : Memory := ⟨{
      bytes := .ofList ([(0x1000, 0xff), (0x1001, 0xe0), (0x1010, 0x74), (0x1011, 0x02),
        (0x1012, 0x0f), (0x1013, 0xff), (0x1014, 0xf4), (0x1020, 0xeb),
        (0x1021, 0x10)] : List (UInt64 × UInt8)) }, []⟩
    let e : Explorer := ⟨decoder fun _ => none, .fixed .unknown, image, {}⟩
    let memory : SymbolicMemory := { SymbolicMemory.ofImage image .little with
      registers := (∅ : Std.ExtTreeMap String Expr).insertMany
        [("eax", .var "eax" 32), ("zf", .var "zf" 1)] }
    let start (address : UInt64) : State := ⟨.boundary address, memory, .bool true⟩
    ∃ history x, e.Session history x ∧ history.failures = 1 ∧
      history.seeds = [start 0x1010, start 0x1020, start 0x1000] ∧
      x.finish.program.unresolved.toList = [(.boundary 0x1000, .dynamicJump (.var "eax" 32)),
        (.boundary 0x1012, .unexplored), (.boundary 0x1014, .unexplored),
        (.boundary 0x1032, .outOfBounds)] ∧
      x.finish.program.danglingTargets = ∅ ∧ x.finish.program.contains (.boundary 0x1000) = true ∧
      image.isDefined 0x1032 = false := by
  intro image e memory start
  have hruns : ((e.run 16).run ((({} : Exploration).push (start 0x1000)).push (start 0x1020)) >>=
      fun p => (e.run 16).run (p.2.push (start 0x1010)) >>= fun q =>
      .ok (p.1, q.1, q.2.finish.program.unresolved.toList)) =
        .ok (.ok (), .error (.unsupported 0x1012 [0x0f, 0xff]),
          [(.boundary 0x1000, .dynamicJump (.var "eax" 32)), (.boundary 0x1012, .unexplored),
            (.boundary 0x1014, .unexplored), (.boundary 0x1032, .outOfBounds)]) := by
    decide +kernel
  obtain ⟨⟨first, x⟩, hfirst, hruns⟩ := exists_of_bind_eq_ok hruns
  obtain ⟨⟨second, y⟩, hsecond, hruns⟩ := exists_of_bind_eq_ok hruns
  rw [Except.ok.injEq, Prod.mk.injEq, Prod.mk.injEq] at hruns
  obtain ⟨rfl, rfl, hunresolved⟩ := hruns
  obtain ⟨history, h, hcontinues, -, hfailures, -⟩ :=
    ((Explorer.Session.start.push (start 0x1000)).push (start 0x1020)).of_run hfirst
  obtain ⟨history', h', hcontinues', -, -, hfailures'⟩ := (h.push (start 0x1010)).of_run hsecond
  have hseeds : history'.seeds = [start 0x1010, start 0x1020, start 0x1000] := by
    rw [hcontinues'.seeds, hcontinues.seeds]
  have hrecord (l : Location) (reason : Unresolved)
      (hmem : (l, reason) ∈ y.finish.program.unresolved.toList) :
      y.finish.program.unresolved[l]? = some reason :=
    Std.ExtTreeMap.mem_toList_iff_getElem?_eq_some.mp hmem
  obtain ⟨hclosed, -, -, houtside, hjumps, -⟩ := session_program_consistent h'
  refine ⟨history', y, h', ?_, hseeds, hunresolved, hclosed, ?_, ?_⟩
  · exact (hfailures' _ rfl).1.trans (congrArg (· + 1) (hfailures rfl))
  · exact hjumps _ (.var "eax" 32) (hrecord _ _ (by simp [hunresolved]))
  · exact (houtside _ (hrecord (.boundary 0x1032) _ (by simp [hunresolved]))).2

end Consistency

section Termination

theorem ready_of_fits {values : Scope} {widths : String → Nat} {s : State}
    (hfits : ∀ r ∈ registers, r.Fits widths) (hs : s.WellFormed values widths) :
    s.Ready scope values := by
  refine ⟨widths, ?_, hs⟩
  intro e he
  exact he.mono (fun _ _ hnone => hnone.elim) hfits id

/-- With a limit of visits and a solver that answers, a run on x86 code empties the worklist, if
only because an instruction cannot be decoded, and breaks no contract. It takes no more steps than
a product of the size of the image and of the states that wait or may be visited. The states that
were pushed may be symbolic, and anything may have been explored before. -/
theorem run_empties_worklist {values : Scope} (hlimit : 0 < settings.maxVisits)
    (hanswers : solver.Answers values)
    (h : Explorer.Session ⟨decoder lengthOf, solver, image, settings⟩ history x)
    (hseeds : ∀ s ∈ history.seeds, ∃ widths, (∀ r ∈ registers, r.Fits widths) ∧
      s.WellFormed values widths) {steps : Nat}
    (hsteps : (image.definedAddresses.size + 16) *
      (x.todo.length + image.definedAddresses.size * settings.maxVisits) ≤ steps) :
    ∃ result y, (Explorer.run ⟨decoder lengthOf, solver, image, settings⟩ steps).run x =
      .ok (result, y) ∧ y.todo = [] := by
  have hready : ∀ s ∈ x.todo, s.Ready scope values := by
    apply h.ready decoder_incremental
    intro s hs
    obtain ⟨widths, hfits, hs⟩ := hseeds s hs
    exact ready_of_fits hfits hs
  exact Explorer.run_empties decoder_incremental hlimit hanswers
    (h.charted decoder_incremental) hready (Explorer.potential_le.trans hsteps)

/-- A loop over an unknown count that ends in a jump to an unknown address, where nothing is ever
excluded. -/
theorem run_empties_worklist_of_open_loop :
    let image : Memory := ⟨{
      bytes := .ofList ([(0x1000, 0x48), (0x1001, 0x75), (0x1002, 0xfd), (0x1003, 0xff),
        (0x1004, 0xe0)] : List (UInt64 × UInt8)) }, []⟩
    let settings : Settings := { maxVisits := 2, jumps := ⟨16, true⟩ }
    let e : Explorer := ⟨decoder fun _ => none, .fixed .unknown, image, settings⟩
    let memory : SymbolicMemory := { SymbolicMemory.ofImage image .little with
      registers := (∅ : Std.ExtTreeMap String Expr).insert "eax" (.var "n" 32) }
    let seed : State := ⟨.boundary 0x1000, memory, .bool true⟩
    seed.WellFormed (.variables fun _ width => width = 32) (widths image) ∧
      ∃ result y, (e.run 231).run (({} : Exploration).push seed) = .ok (result, y) ∧
        y.todo = [] := by
  intro image settings e memory seed
  have hseed : seed.WellFormed (.variables fun _ width => width = 32) (widths image) := by
    refine ⟨⟨?_, ?_, ?_⟩, Expr.wellFormed_bool true, rfl⟩
    · intro address cell hcell
      simp [seed, memory, SymbolicMemory.ofImage] at hcell
    · intro name value hvalue
      have heax : widths image "eax" = 32 := by decide +kernel
      obtain ⟨rfl, rfl⟩ : "eax" = name ∧ Expr.var "n" 32 = value := by
        simpa [seed, memory, Std.ExtTreeMap.getElem?_insert] using hvalue
      exact ⟨⟨by decide, rfl⟩, heax.symm⟩
    · intro name value hvalue
      simp [seed, memory, image, SymbolicMemory.ofImage, Memory.physical?,
        Memory.layers] at hvalue
  have hanswers : e.solver.Answers (.variables fun _ width => width = 32) := fun _ _ _ => ⟨_, rfl⟩
  refine ⟨hseed, ?_⟩
  refine run_empties_worklist (by decide) hanswers (.push .start seed) ?_ (by decide +kernel)
  intro s hs
  rw [List.mem_singleton.mp hs]
  exact ⟨widths image, fun r => fits_of_mem_registers image, hseed⟩

end Termination

end FlowRecovery.X86
