import Mathlib
import FlowRecovery.Proofs.Simulation.Execution

/-!
Instructions that go back to their own boundary. Such an instruction decides there whether it goes
on or runs its steps once more. If an invariant, which counts the passes, says when it goes on and
is kept by the statements of a pass, the simulator gets to the next instruction after that number
of passes, along the locations of the passes.
-/

namespace FlowRecovery

/-- A loop inside an instruction: where it leads to in the end, the formulas that it ends or goes
on under, the statements of a pass, and the last one, which leads back. -/
structure Loop where
  next : Location
  finished : Expr
  unfinished : Expr
  body : List Statement
  last : Statement

namespace Loop

variable {loop : Loop} {address : UInt64} {mc : Microcode}

/-- The steps of an instruction are those of a loop. -/
structure In (address : UInt64) (mc : Microcode) (loop : Loop) : Prop where
  present : mc.contains (.boundary address) = true
  test : mc.arrowsAt (.boundary address) =
    Microcode.branchesTo loop.next ⟨address, 1⟩ loop.finished loop.unfinished (.boundary address)
  chain : mc.Chain address 1 loop.body
  back : mc.arrowsAt ⟨address, 1 + loop.body.length⟩ =
    [⟨⟨address, 1 + loop.body.length⟩, .static (.boundary address), .bool true, loop.last⟩]

def pass (address : UInt64) (loop : Loop) : List Location :=
  (List.range (loop.body.length + 2)).map (Location.mk address)

/-- The statements and formulas can be run on the memories of a simulator. -/
structure WellFormed (s : Scope) (loop : Loop) : Prop where
  finished : loop.finished.WellFormed s ∧ loop.finished.Branchless
  unfinished : loop.unfinished.WellFormed s ∧ loop.unfinished.Branchless
  body : ∀ statement ∈ loop.body, statement.WellFormed s ∧ statement.Branchless
  last : loop.last.WellFormed s ∧ loop.last.Branchless

/-- The formulas of a loop say on a memory whether it ends there. -/
structure Ends (order : ByteOrder) (m : Memory) (loop : Loop) (ends : Bool) : Prop where
  finished : m.eval order default loop.finished = .ok (.ofBool ends)
  unfinished : m.eval order default loop.unfinished = .ok (.ofBool !ends)

theorem In.congr {mc' : Microcode} (hpresent : mc'.contains (.boundary address) = true)
    (harrows : ∀ k, mc'.arrowsAt ⟨address, k⟩ = mc.arrowsAt ⟨address, k⟩)
    (h : loop.In address mc) :
    loop.In address mc' :=
  ⟨hpresent, (harrows 0).trans h.test, h.chain.congr fun k _ => harrows k,
    (harrows _).trans h.back⟩

theorem WellFormed.mono {s t : Scope} (h : loop.WellFormed s)
    (hscope : ∀ {e : Expr}, e.WellFormed s → e.WellFormed t) : loop.WellFormed t where
  finished := ⟨hscope h.finished.1, h.finished.2⟩
  unfinished := ⟨hscope h.unfinished.1, h.unfinished.2⟩
  body statement hstatement :=
    ⟨(h.body statement hstatement).1.mono hscope, (h.body statement hstatement).2⟩
  last := ⟨h.last.1.mono hscope, h.last.2⟩

theorem pass_eq (address : UInt64) (loop : Loop) :
    loop.pass address = .boundary address :: (List.range' 1 loop.body.length).map
      (Location.mk address) ++ [⟨address, 1 + loop.body.length⟩] := by
  rw [pass, List.range_eq_range', List.range'_succ, List.range'_concat]
  simp [Location.boundary]

end Loop

namespace Simulator

variable {sim : Simulator} {s s' : State} {d d' : Discovery} {address : UInt64} {mc : Microcode}
  {widths : String → Nat} {loop : Loop} {m : Memory} {a b : Arrow}

theorem stepAll_pair {first second : List State} {d₁ : Discovery}
    (h : Succeeds (sim.step s a) d first d₁) (h' : Succeeds (sim.step s b) d₁ second d') :
    Succeeds (sim.stepAll s [a, b]) d (first ++ second) d' :=
  h.bind ((stepAll_single h').bind rfl)

section Loops

variable (hin : loop.In address mc) (hWF : loop.WellFormed (Scope.ground.onMemory widths))
  (hoffers : sim.Offers address d mc) (hs : s.Concrete widths) (hpc : s.pc = .boundary address)
include hin hWF hoffers hs hpc

theorem exists_test {ends : Bool} (hends : loop.Ends s.memory.order s.machine ends) :
    ∃ d' s', sim.Walks d s [.boundary address] d' s' ∧ sim.Offers address d' mc ∧
      s.Reaches widths (if ends then loop.next else ⟨address, 1⟩) s.machine s' := by
  have hfinished := SymbolicMemory.eval_of_concrete hs.memory hWF.finished.1 hWF.finished.2
    hends.finished
  have hunfinished := SymbolicMemory.eval_of_concrete hs.memory hWF.unfinished.1 hWF.unfinished.2
    hends.unfinished
  obtain ⟨s', hreaches, hsteps⟩ := exists_branch sim hs hfinished hunfinished
    loop.next ⟨address, 1⟩
  obtain ⟨d', hadvances, hprogram⟩ : ∃ d', sim.Advances d s d' s' ∧ d'.program = mc := by
    have harrows := hin.test
    rw [← hpc] at harrows
    refine Advances.of_arrows (by rw [hpc]; exact hoffers) harrows fun {d₁} hd₁ => ?_
    obtain ⟨d₂, d₃, hfirst, hsecond, -, hprogram⟩ := hsteps s.pc d₁
    refine ⟨d₃, ?_, hprogram.trans hd₁⟩
    have hboth := stepAll_pair hfirst hsecond
    cases ends <;> exact hboth
  subst hprogram
  refine ⟨d', s', ?_, .present hin.present, hreaches⟩
  rw [← hpc]
  exact .single hadvances

theorem exists_pass (hends : loop.Ends s.memory.order s.machine false)
    (hm : s.machine.execAll s.memory.order (loop.body ++ [loop.last]) = .ok m) :
    ∃ d' s', sim.Walks d s (loop.pass address) d' s' ∧ sim.Offers address d' mc ∧
      s.Reaches widths (.boundary address) m s' := by
  obtain ⟨d₁, s₁, hwalks₁, hoffers₁, hreaches₁⟩ := exists_test hin hWF hoffers hs hpc hends
  rw [Memory.execAll, List.foldlM_append] at hm
  obtain ⟨m₂, hm₂, hm⟩ := exists_of_bind_eq_ok hm
  obtain ⟨_, hm, hpure⟩ := exists_of_bind_eq_ok hm
  cases hpure
  rw [← hreaches₁.machine, ← hreaches₁.order] at hm₂
  obtain ⟨d₂, s₂, hwalks₂, hoffers₂, hreaches₂⟩ :=
    Walks.of_chain hoffers₁ hin.present hreaches₁.concrete hreaches₁.pc hin.chain hWF.body hm₂
  have hreaches := hreaches₁.trans hreaches₂
  rw [← hreaches.machine, ← hreaches.order] at hm
  obtain ⟨s₃, hreaches₃, hstep⟩ :=
    exists_step sim hreaches.concrete loop.last hWF.last.1 hWF.last.2 hm (.boundary address)
  obtain ⟨d₃, hadvances, hprogram⟩ : ∃ d₃, sim.Advances d₂ s₂ d₃ s₃ ∧ d₃.program = mc := by
    have harrows := hin.back
    rw [← hreaches.pc] at harrows
    refine Advances.of_arrows ?_ harrows fun hd => ⟨_, stepAll_single (hstep _ _), hd⟩
    rw [hreaches.pc]
    exact hoffers₂
  subst hprogram
  refine ⟨d₃, s₃, ?_, .present hin.present, hreaches.trans hreaches₃⟩
  have hback := Walks.single hadvances
  rw [hreaches.pc] at hback
  rw [Loop.pass_eq]
  exact (hwalks₁.trans hwalks₂).trans hback

/-- A loop with an invariant that counts its passes gets to the next instruction after all of
them. -/
theorem exists_loop {Inv : Nat → Memory → Prop} {n : Nat} (hstart : Inv 0 s.machine)
    (hends : ∀ k ≤ n, ∀ m, Inv k m → loop.Ends s.memory.order m (k == n))
    (hpass : ∀ k < n, ∀ m, Inv k m →
      ∃ m', m.execAll s.memory.order (loop.body ++ [loop.last]) = .ok m' ∧ Inv (k + 1) m') :
    ∃ d' s', sim.Walks d s
      ((List.replicate n (loop.pass address)).flatten ++ [.boundary address]) d' s' ∧
      s.Reaches widths loop.next s'.machine s' ∧ Inv n s'.machine := by
  have hrun (k : Nat) (hk : k ≤ n) : ∃ d' s',
      sim.Walks d s (List.replicate k (loop.pass address)).flatten d' s' ∧
      sim.Offers address d' mc ∧ s.Reaches widths (.boundary address) s'.machine s' ∧
      Inv k s'.machine := by
    induction k with
    | zero => exact ⟨d, s, .stay d s, hoffers, ⟨hs, hpc, rfl, rfl, rfl⟩, hstart⟩
    | succ k ih =>
        obtain ⟨d₁, s₁, hwalks₁, hoffers₁, hreaches₁, hInv₁⟩ := ih (by omega)
        have hunfinished := hends k (by omega) _ hInv₁
        rw [beq_eq_false_iff_ne.mpr (by omega), ← hreaches₁.order] at hunfinished
        obtain ⟨m', hm', hInv'⟩ := hpass k (by omega) _ hInv₁
        rw [← hreaches₁.order] at hm'
        obtain ⟨d₂, s₂, hwalks₂, hoffers₂, hreaches₂⟩ :=
          exists_pass hin hWF hoffers₁ hreaches₁.concrete hreaches₁.pc hunfinished hm'
        refine ⟨d₂, s₂, ?_, hoffers₂, hreaches₁.trans hreaches₂.self, hreaches₂.machine ▸ hInv'⟩
        rw [List.replicate_succ', List.flatten_append, List.flatten_singleton]
        exact hwalks₁.trans hwalks₂
  obtain ⟨d₁, s₁, hwalks₁, hoffers₁, hreaches₁, hInv₁⟩ := hrun n le_rfl
  have hfinished := hends n le_rfl _ hInv₁
  rw [beq_self_eq_true, ← hreaches₁.order] at hfinished
  obtain ⟨d₂, s₂, hwalks₂, -, hreaches₂⟩ :=
    exists_test hin hWF hoffers₁ hreaches₁.concrete hreaches₁.pc hfinished
  exact ⟨d₂, s₂, hwalks₁.trans hwalks₂, hreaches₁.trans hreaches₂.self, hreaches₂.machine ▸ hInv₁⟩

end Loops

end Simulator

end FlowRecovery
