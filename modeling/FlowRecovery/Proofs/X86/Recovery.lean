import Mathlib
import FlowRecovery.Testing
import FlowRecovery.Proofs.Exploration.SinglePath
import FlowRecovery.Proofs.X86.Decoding

namespace FlowRecovery

/-- All stored registers are canonical integers, as wide as the physical registers of their
names. -/
def Memory.StoresPhysical (registers : List Register) (m : Memory) : Prop :=
  ∀ name x, m.physical? name = some x → x.Canonical ∧ ∀ r ∈ registers, r.base = name →
    x.width = r.baseSize

namespace Architecture

theorem register?_foldl_insert {l : List Register} {arch : Architecture} {name : String}
    {r : Register} (h : (l.foldl insert arch).register? name = some r) :
    r ∈ l ∨ arch.register? name = some r := by
  induction l generalizing arch with
  | nil => exact .inr h
  | cons first l ih =>
      rcases ih h with hmem | hinsert
      · exact .inl (List.mem_cons_of_mem first hmem)
      · rw [register?, insert, Std.ExtTreeMap.getElem?_insert] at hinsert
        split at hinsert
        · cases hinsert
          exact .inl List.mem_cons_self
        · exact .inr hinsert

end Architecture

namespace X86

/-- The widths of the physical registers, and of what else an image stores. -/
def widths (image : Memory) (name : String) : Nat :=
  match registers.find? (·.base = name) with
  | some r => r.baseSize
  | none => ((image.physical? name).map Word.width).getD 0

theorem fits_of_mem_registers (image : Memory) {r : Register} (hr : r ∈ registers) :
    r.Fits (widths image) := by
  have hall : ∀ r ∈ registers, (registers.find? (·.base = r.base)).map Register.baseSize =
      some r.baseSize ∧
      0 < r.size ∧ r.offset + r.size ≤ r.baseSize ∧ r.baseSize ≤ 64 := by
    decide +kernel
  obtain ⟨hbase, hpos, hinside, hle⟩ := hall r hr
  obtain ⟨r', hfound, hsize⟩ := Option.map_eq_some_iff.mp hbase
  refine ⟨?_, hpos, hinside, hle⟩
  rw [widths, hfound, ← hsize]

theorem mem_registers_of_register? {name : String} {r : Register}
    (h : Architecture.x86.register? name = some r) : r ∈ registers := by
  rcases Architecture.register?_foldl_insert h with hmem | hempty
  · exact hmem
  · simp [Architecture.register?] at hempty

theorem certain (lengthOf : List UInt8 → Option Nat) {image : Memory}
    (himage : image.StoresPhysical registers) (solver : Solver) (settings : Settings) :
    Explorer.Certain scope (widths image) ⟨decoder lengthOf, solver, image, settings⟩ where
  decoder := decoder_incremental.deterministic
  scope h := h.mono (fun _ _ => id) (fun _ hr => fits_of_mem_registers image hr) id
  registers h := fits_of_mem_registers image (mem_registers_of_register? h)
  image {name x} hx := by
    obtain ⟨hcanonical, hwidth⟩ := himage name x hx
    refine ⟨hcanonical, ?_⟩
    unfold widths
    cases hfound : registers.find? (·.base = name) with
    | some r =>
        exact hwidth r (List.mem_of_find?_eq_some hfound) (by simpa using List.find?_some hfound)
    | none =>
        -- not a register of the processor: it has the width that is stored
        dsimp only
        rw [hx]
        rfl

theorem exists_answer {lengthOf : List UInt8 → Option Nat} {image : Image}
    (himage : image.memory.StoresPhysical registers) (settings : Settings) (steps : Nat) :
    ∃ answer, (∀ solver, (recover steps image (decoder lengthOf) (.ok solver) settings).map
      Prod.fst = answer) ∧
      (∀ fault, answer = .error fault → fault = .outOfSteps) ∧
      ∀ r, answer = .ok (.ok r) →
        r.statistics.endings.Perm [1, 0, 0, 0, 0] ∧ r.statistics.unresolvedJumps = 0 := by
  have hrecover (solver : Solver) :
      (recover steps image (decoder lengthOf) (.ok solver) settings).map Prod.fst =
      ((Recovery.explore steps image (decoder lengthOf) (.ok solver) settings).run.run {}).map
      Prod.fst := by
    rw [recover]
    cases (Recovery.explore steps image (decoder lengthOf) (.ok solver) settings).run.run {} with
    | error fault => rfl
    | ok p => rfl
  simp only [hrecover]
  rcases Recovery.explore_uniform (certain lengthOf himage .enumerating settings) steps with
    hstop | ⟨result, x, hpost, hrun⟩
  · refine ⟨.error .outOfSteps, fun solver => ?_, ?_, nofun⟩
    · exact congrArg (Except.map Prod.fst) (hstop solver #[])
    · rintro _ ⟨⟩
      rfl
  · refine ⟨.ok result, fun solver => ?_, nofun, ?_⟩
    · obtain ⟨log, hexplore⟩ := hrun solver #[]
      exact congrArg (Except.map Prod.fst) hexplore
    · rintro r ⟨⟩
      exact hpost r rfl

theorem onePath_of_passes {lengthOf : List UInt8 → Option Nat} {image : Image}
    (himage : image.memory.StoresPhysical registers) {settings : Settings} {solver : Solver}
    {x y : Exploration}
    (hlaunch : (Recovery.launch ⟨decoder lengthOf, solver, image.memory, settings⟩
      image.entrypoint).run.run {} =
        .ok (.ok (), x))
    (h : Explorer.Passes ⟨decoder lengthOf, solver, image.memory, settings⟩ x y) :
    y.OnePath scope (widths image.memory) := by
  have he := certain lengthOf himage solver settings
  refine Explorer.Passes.onePath he ?_ h
  rcases Recovery.launch_uniform he image.entrypoint with hstop | ⟨result, x', hpost, hrun⟩
  · cases (hstop solver #[]).symm.trans hlaunch
  · obtain ⟨log, hrun⟩ := hrun solver #[]
    cases hrun.symm.trans hlaunch
    exact (hpost () rfl).withLog log

/-- The recovery of an image whose registers are as wide as the physical ones does not depend on
the solver: any two of them give the same result, or none comes to an end within the steps.
Wherever the run passes through, the worklist holds at most one state, with constants in all cells
and registers and the path condition true; a run that ends without an error has emptied it. A
recovery that succeeds counts one ending of the path, and no jump that it could not resolve. -/
theorem recover_follows_one_path {lengthOf : List UInt8 → Option Nat} {image : Image}
    (himage : image.memory.StoresPhysical registers) (settings : Settings) (steps : Nat)
    (first second : Solver) :
    let e : Explorer := ⟨decoder lengthOf, first, image.memory, settings⟩
    (recover steps image (decoder lengthOf) (.ok first) settings).map Prod.fst =
        (recover steps image (decoder lengthOf) (.ok second) settings).map Prod.fst ∧
      (∀ fault, recover steps image (decoder lengthOf) (.ok first) settings = .error fault →
        fault = .outOfSteps) ∧
      (∀ x, (Recovery.launch e image.entrypoint).run.run {} = .ok (.ok (), x) →
        (∀ y, e.Passes x y → (∃ done, ∀ more, (e.run (done + more)).run x = (e.run more).run y) ∧
          y.todo.length ≤ 1 ∧ ∀ s ∈ y.todo, s.AllConstant) ∧
        ∀ y, (e.run steps).run x = .ok (.ok (), y) → e.Passes x y ∧ y.todo = []) ∧
      ∀ r log, recover steps image (decoder lengthOf) (.ok first) settings = .ok (.ok r, log) →
        r.statistics.endings.Perm [1, 0, 0, 0, 0] ∧ r.statistics.unresolvedJumps = 0 := by
  intro e
  obtain ⟨answer, hanswer, hfault, hending⟩ := exists_answer himage settings steps
  refine ⟨(hanswer first).trans (hanswer second).symm, ?_, fun x hlaunch => ⟨?_, ?_⟩, ?_⟩
  · intro fault hrun
    apply hfault
    rw [← hanswer first, hrun]
    rfl
  · intro y hy
    exact ⟨hy.exists_run_eq, (onePath_of_passes himage hlaunch hy).todo_constant⟩
  · intro y hrun
    exact Explorer.Passes.of_run .start hrun
  · intro r log hrun
    apply hending
    rw [← hanswer first, hrun]
    rfl

/-- A loop that counts the stored `eax` down from two and halts: the decrement with its five
assignments and the branch are expanded twice, then the halt. -/
theorem recover_follows_one_path_of_countdown :
    let image : Image := {
      memory := ⟨{
        registers := Std.ExtTreeMap.insert ∅ "eax" ⟨32, 2⟩
        bytes := .ofList ([(0x1000, 0x48), (0x1001, 0x75), (0x1002, 0xfd), (0x1003, 0xf4)] :
          List (UInt64 × UInt8)) }, []⟩
      entrypoint := 0x1000
      arch := .x86
      symbols := {} }
    let e : Explorer := ⟨decoder fun _ => none, .enumerating, image.memory, {}⟩
    let round : List Location := .boundary 0x1001 :: [5, 4, 3, 2, 1, 0].map (Location.mk 0x1000)
    image.memory.StoresPhysical registers ∧
      (recover 64 image e.decoder (.ok .enumerating) {}).map (·.1.map (·.statistics.endings)) =
        .ok (.ok [0, 0, 0, 0, 1]) ∧
      (recover 64 image e.decoder (.ok .enumerating) {}).map Prod.fst =
        (recover 64 image e.decoder (.ok (.failing "no answer")) {}).map Prod.fst ∧
      ∃ x y, (Recovery.launch e image.entrypoint).run.run {} = .ok (.ok (), x) ∧
        (e.run 64).run x = .ok (.ok (), y) ∧ e.Passes x y ∧ y.todo = [] ∧
        y.visited.map Prod.fst = .boundary 0x1003 :: (round ++ round) ∧
        ∀ z, e.Passes x z → z.todo.length ≤ 1 ∧ ∀ s ∈ z.todo, s.AllConstant := by
  intro image e round
  have himage : image.memory.StoresPhysical registers := by
    intro name x hx
    have hfound : ((∅ : Std.ExtTreeMap String Word).insert "eax" ⟨32, 2⟩)[name]? = some x := by
      simpa [image, Memory.physical?, Memory.layers] using hx
    rw [Std.ExtTreeMap.getElem?_insert] at hfound
    split at hfound
    · rename_i heax
      cases hfound
      cases Std.LawfulEqCmp.compare_eq_iff_eq.mp heax
      exact ⟨by decide, by decide +kernel⟩
    · simp at hfound
  obtain ⟨hsame, -, hpath, -⟩ := recover_follows_one_path himage {} 64 .enumerating
    (.failing "no answer")
  have hruns : ((Recovery.launch e image.entrypoint).run.run {} >>= fun p =>
      (e.run 64).run p.2 >>= fun q => .ok (p.1, q.1, q.2.visited.map Prod.fst)) =
        .ok (.ok (), .ok (), .boundary 0x1003 :: (round ++ round)) := by
    decide +kernel
  obtain ⟨⟨_, x⟩, hlaunch, hruns⟩ := exists_of_bind_eq_ok hruns
  obtain ⟨⟨_, y⟩, hrun, hruns⟩ := exists_of_bind_eq_ok hruns
  rw [Except.ok.injEq, Prod.mk.injEq, Prod.mk.injEq] at hruns
  obtain ⟨rfl, rfl, hvisited⟩ := hruns
  obtain ⟨hall, hend⟩ := hpath x hlaunch
  obtain ⟨hpasses, htodo⟩ := hend y hrun
  exact ⟨himage, by decide +kernel, hsame, x, y, hlaunch, hrun, hpasses, htodo, hvisited,
    fun z hz => (hall z hz).2⟩

end X86

end FlowRecovery
