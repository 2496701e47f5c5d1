import Mathlib
import FlowRecovery.Proofs.Exploration.Accounting
import FlowRecovery.Proofs.Exploration.VisitLimit
import FlowRecovery.Proofs.X86.Decoding

namespace FlowRecovery.X86

theorem decoder_deterministic {lengthOf : List UInt8 → Option Nat} :
    (decoder lengthOf).Deterministic scope :=
  decoder_incremental.deterministic

/-- With a limit of visits, in any sequence of pushes and runs, failed ones included, no boundary
of an instruction is expanded more often than the limit allows, and the arrows of states are asked
for once in each expansion. If instructions are decoded as x86 code and all states that are pushed
from outside are at boundaries, the limit holds for every step within an instruction as well. All
that a run passes through, whether it comes to its end or not, and what it leaves behind goes on
with such a sequence. -/
theorem expansions_le_maxVisits {e : Explorer} {history : History} {x : Exploration}
    (hlimit : 0 < e.settings.maxVisits) (h : e.Session history x) :
    (∀ g, history.expansions (.boundary g) ≤ e.settings.maxVisits) ∧
      ((∃ lengthOf, e.decoder = decoder lengthOf) →
        (∀ s ∈ history.seeds, s.pc.isBoundary = true) →
        ∀ l, history.expansions l ≤ e.settings.maxVisits) ∧
      (history.meeting .expanded).length = x.discovery.queries ∧
      (∀ y, e.Passes x y → (∃ history', e.Session history' y ∧ history.Continues history') ∧
        ∃ done, ∀ more, (e.run (done + more)).run x = (e.run more).run y) ∧
      ∀ steps result y, (e.run steps).run x = .ok (result, y) →
        ∃ history', e.Session history' y ∧ history.Continues history' := by
  have hboundary (g : UInt64) := (h.expansions_boundary hlimit g).2
  refine ⟨hboundary, fun hdecoder hseeds l => ?_, ?_, fun y hpasses =>
    ⟨?_, hpasses.exists_run_eq⟩, fun steps result y hrun => ?_⟩
  · obtain ⟨lengthOf, hdecoder⟩ := hdecoder
    have hdeterministic : e.decoder.Deterministic scope := hdecoder ▸ decoder_deterministic
    exact (h.expansions_le_boundary hdeterministic hseeds l.instruction l.step).trans
      (hboundary l.instruction)
  · rw [h.queries]
    exact (h.tally .expanded).symm
  · obtain ⟨history', h', hcontinues, -⟩ := h.of_passes hpasses
    exact ⟨history', h', hcontinues⟩
  · obtain ⟨history', h', hcontinues, -⟩ := h.of_run hrun
    exact ⟨history', h', hcontinues⟩

/-- A loop that counts `eax` down is pushed, then an instruction that cannot be decoded, then the
loop again. -/
theorem expansions_le_maxVisits_of_countdown :
    let image : Memory := ⟨{
      registers := Std.ExtTreeMap.insert ∅ "eax" ⟨32, 5⟩
      bytes := .ofList ([(0x1000, 0x48), (0x1001, 0x75), (0x1002, 0xfd), (0x1003, 0xf4),
        (0x2000, 0x0f), (0x2001, 0xff)] : List (UInt64 × UInt8)) }, []⟩
    let e : Explorer := ⟨decoder fun _ => none, .enumerating, image, { maxVisits := 2 }⟩
    let loop : State := ⟨.boundary 0x1000, .ofImage image .little, .bool true⟩
    let lost : State := { loop with pc := .boundary 0x2000 }
    ∃ history x, e.Session history x ∧ history.failures = 1 ∧ history.seeds = [loop, lost, loop] ∧
      x.statistics.throttled = 2 ∧ ∀ l, history.expansions l ≤ 2 := by
  intro image e loop lost
  have hruns : ((e.run 64).run (({} : Exploration).push loop) >>= fun p =>
      (e.run 64).run (p.2.push lost) >>= fun q =>
      (e.run 64).run (q.2.push loop) >>= fun r =>
      .ok (p.1, q.1, r.1, r.2.statistics.throttled)) =
        .ok (.ok (), .error (.unsupported 0x2000 [0x0f, 0xff]), .ok (), 2) := by
    decide +kernel
  obtain ⟨⟨first, x⟩, hfirst, hruns⟩ := exists_of_bind_eq_ok hruns
  obtain ⟨⟨second, y⟩, hsecond, hruns⟩ := exists_of_bind_eq_ok hruns
  obtain ⟨⟨third, z⟩, hthird, hruns⟩ := exists_of_bind_eq_ok hruns
  rw [Except.ok.injEq, Prod.mk.injEq, Prod.mk.injEq, Prod.mk.injEq] at hruns
  obtain ⟨rfl, rfl, rfl, hthrottled⟩ := hruns
  obtain ⟨history, h, hcontinues, -, hfailures, -⟩ :=
    (Explorer.Session.start.push loop).of_run hfirst
  obtain ⟨history', h', hcontinues', -, -, hfailures'⟩ := (h.push lost).of_run hsecond
  obtain ⟨history'', h'', hcontinues'', -, hfailures'', -⟩ := (h'.push loop).of_run hthird
  have hseeds : history''.seeds = [loop, lost, loop] := by
    rw [hcontinues''.seeds, hcontinues'.seeds, hcontinues.seeds]
  have hboundaries : ∀ s ∈ history''.seeds, s.pc.isBoundary = true := by
    rw [hseeds]
    simp [loop, lost, Location.isBoundary, Location.boundary]
  refine ⟨history'', z, h'', ?_, hseeds, hthrottled, ?_⟩
  · rw [hfailures'' rfl]
    exact (hfailures' _ rfl).1.trans (congrArg (· + 1) (hfailures rfl))
  · exact (expansions_le_maxVisits (by decide) h'').2.1 ⟨_, rfl⟩ hboundaries

end FlowRecovery.X86
