import Mathlib
import FlowRecovery.Proofs.Exploration.VisitLimit
import FlowRecovery.Proofs.Microcode.Discovery

namespace FlowRecovery

open Microcode

variable {scope : Scope} {limit : Nat}

section Simulation

open SimM

variable {sim : Simulator} {s : State} {d d' d'' : Discovery}
  (hdecoder : sim.decoder.Incremental scope limit)
include hdecoder

theorem Simulator.discovers_of_arrows {result : Except DecodeError (List Arrow)}
    (h : Returns (sim.arrows s).run d result d') (hd : d.program.Stepwise scope) :
    Discovers scope limit sim.image d.program d'.program := by
  rcases (Simulator.of_arrows h).2.2 with ⟨-, hsame⟩ | ⟨hnew, outcome, hdecode, -⟩
  · rw [hsame]
    exact .refl
  · have hfree := hd.free hnew
    rcases hdecoder _ _ hfree sim.image with
      ⟨error, hrun⟩ | ⟨next, mc, n, hrun, hn, hdefined, hextends⟩
    · rw [hrun, Except.ok.injEq, Prod.mk.injEq] at hdecode
      rw [← hdecode.2]
      exact .refl
    · rw [hrun, Except.ok.injEq, Prod.mk.injEq] at hdecode
      rw [← hdecode.2]
      exact .single (.instruction hfree hdefined hn hextends)

theorem Simulator.discovers_of_follow {arrows : List Arrow}
    {outcome : Except UndefinedValue (List State)} (harrows : Succeeds (sim.arrows s) d arrows d')
    (hsteps : Returns (sim.stepAll s arrows).run d' outcome d'')
    (hd : d.program.Charted scope limit sim.image) :
    Discovers scope limit sim.image d.program d''.program := by
  have hdiscovers := Simulator.discovers_of_arrows hdecoder harrows hd.toStepwise
  have hdeterministic := (hd.discovers hdiscovers).toStepwise.arrowsAt s.pc
  rw [(Simulator.of_arrows harrows).2.1 arrows rfl] at hsteps
  rcases Simulator.recorded_of_stepAll hdeterministic hsteps with hsame | ⟨node, hnode, hrecorded⟩
  · rw [hsame]
    exact hdiscovers
  · exact hdiscovers.trans (hrecorded.discovers hnode).1

end Simulation

namespace Explorer

variable {e : Explorer} {s : State} {x y : Exploration} {fate : Fate} {added : List State}
  {result : Except DecodeError Unit} {history : History}

section Discovery

variable (hdecoder : e.decoder.Incremental scope limit)
include hdecoder

theorem Expansion.discovers (h : e.Expansion s x fate added result y)
    (hx : x.program.Charted scope limit e.image) :
    Discovers scope limit e.image x.program y.program := by
  cases h with
  | duplicate => exact .refl
  | throttled => exact .refl
  | outside _ houtside =>
      rw [isOutside, Bool.and_eq_true, Bool.not_eq_true', Bool.not_eq_true'] at houtside
      exact .single (.outside houtside.1 houtside.2)
  | expanded _ _ _ h =>
      cases h with
      | undecoded harrows =>
          exact (Simulator.discovers_of_arrows hdecoder harrows hx.toStepwise :)
      | abandoned harrows hsteps =>
          exact (Simulator.discovers_of_follow hdecoder harrows hsteps hx :)
      | followed harrows hsteps =>
          exact (Simulator.discovers_of_follow hdecoder harrows hsteps hx :)

theorem Session.charted (h : e.Session history x) : x.program.Charted scope limit e.image := by
  induction h with
  | start => exact charted_empty
  | note _ _ ih => exact ih
  | push _ _ ih => exact ih
  | expand _ _ hrun ih =>
      have hdiscovers := (Expansion.of_run hrun).discovers hdecoder ih
      exact ih.discovers hdiscovers
  | fail _ _ hrun ih =>
      have hdiscovers := (Expansion.of_run hrun).discovers hdecoder ih
      exact ih.discovers hdiscovers

theorem Passes.discovers (h : e.Passes x y) (hx : x.program.Charted scope limit e.image) :
    Discovers scope limit e.image x.program y.program := by
  induction h with
  | start => exact .refl
  | expand _ _ hrun ih =>
      obtain ⟨fate, added, hexpansion⟩ := expansion_of_run hrun
      have hdiscovers := hexpansion.discovers hdecoder (hx.discovers ih)
      exact ih.trans hdiscovers

theorem discovers_of_run {steps : Nat} (hrun : (e.run steps).run x = .ok (result, y))
    (hx : x.program.Charted scope limit e.image) :
    Discovers scope limit e.image x.program y.program := by
  rcases Passes.cases_of_run .start hrun with
    ⟨-, hpasses, -⟩ | ⟨z, s, rest, error, y', hpasses, -, hexpand, -, rfl⟩
  · exact hpasses.discovers hdecoder hx
  · have hz := hpasses.discovers hdecoder hx
    obtain ⟨fate, added, hexpansion⟩ := expansion_of_run hexpand
    have hdiscovers := hexpansion.discovers hdecoder (hx.discovers hz)
    exact hz.trans hdiscovers

end Discovery

end Explorer

section Ending

variable {image : Memory} {x : Exploration} {l : Location}

theorem Exploration.nodes_finish : x.finish.program.nodes = x.program.nodes :=
  nodes_foldl_markUnresolved _ _

theorem Exploration.contains_finish : x.finish.program.contains l = x.program.contains l := by
  rw [Microcode.contains, Microcode.contains, Exploration.nodes_finish]

theorem Exploration.unresolved_finish : x.finish.program.unresolved[l]? =
    if l ∈ x.program.danglingTargets then some .unexplored else x.program.unresolved[l]? := by
  simp only [← Std.ExtTreeSet.mem_toList]
  exact unresolved_foldl_markUnresolved _ _ l

theorem Exploration.danglingTargets_finish : x.finish.program.danglingTargets = ∅ := by
  rw [Std.ExtTreeSet.eq_empty_iff_forall_not_mem]
  intro target htarget
  rw [mem_danglingTargets, Exploration.unresolved_finish] at htarget
  obtain ⟨hleads, hnew, hrecord⟩ := htarget
  split at hrecord
  case isTrue => cases hrecord
  case isFalse hnot =>
    refine hnot (mem_danglingTargets.mpr ⟨?_, ?_, hrecord⟩)
    · simpa only [node?, Exploration.nodes_finish] using hleads
    · rwa [Exploration.contains_finish] at hnew

theorem Exploration.of_record_finish (hx : x.program.Charted scope limit image)
    {reason : Unresolved} (h : x.finish.program.unresolved[l]? = some reason) :
    (reason = .unexplored ∧ x.finish.program.contains l = false) ∨
      (reason = .outOfBounds ∧ x.finish.program.contains l = false ∧ l.isBoundary = true ∧
        image.isDefined l.instruction = false) ∨
      (∃ target, reason = .dynamicJump target) ∧ x.finish.program.contains l = true := by
  rw [Exploration.contains_finish]
  rw [Exploration.unresolved_finish] at h
  split at h
  case isTrue hdangling =>
    exact .inl ⟨(Option.some.inj h).symm, (mem_danglingTargets.mp hdangling).2.1⟩
  case isFalse =>
    cases reason with
    | unexplored => exact absurd h hx.explored
    | dynamicJump target => exact .inr (.inr ⟨⟨target, rfl⟩, hx.dynamicJump h⟩)
    | outOfBounds =>
        obtain ⟨hboundary, hundefined⟩ := hx.outOfBounds h
        refine .inr (.inl ⟨rfl, ?_, hboundary, hundefined⟩)
        -- a node would be one of an instruction in the image
        cases hnode : x.program.node? l with
        | none => rw [contains_eq, hnode, Option.isSome_none]
        | some node =>
            rw [hx.defined hnode] at hundefined
            cases hundefined

end Ending

end FlowRecovery
