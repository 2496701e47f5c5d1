import Mathlib
import FlowRecovery.Proofs.Simulation.Records

/-!
The discovery of a program. Four things are found out about it: that an address lies outside of
the image, the steps of an instruction, a target of a computed jump, and that a computed jump may
have others. Whatever is found in whichever order, nodes stay with their arrows and every record
keeps its meaning.
-/

namespace FlowRecovery.Microcode

variable {scope : Scope} {limit : Nat} {image : Memory} {mc mc' mc'' : Microcode}

/-- One thing is found out about a program. Instructions have fewer steps than a limit. -/
inductive Finds (scope : Scope) (limit : Nat) (image : Memory) (mc : Microcode) : Microcode → Prop
  | outside {address : UInt64} (hnew : mc.contains (.boundary address) = false)
      (hundefined : image.isDefined address = false) :
      Finds scope limit image mc (mc.markUnresolved (.boundary address) .outOfBounds)
  | instruction {address : UInt64} {n : Nat} {mc' : Microcode}
      (hfree : ∀ k, mc.node? ⟨address, k⟩ = none)
      (hdefined : image.isDefined address = true) (hn : n < limit)
      (h : Extends scope address (n + 1) mc mc') :
      Finds scope limit image mc mc'
  | target {l : Location} {node : Node} (hnode : mc.node? l = some node) (target : Location) :
      Finds scope limit image mc (mc.addResolved l target)
  | furtherTargets {l : Location} {node : Node} (hnode : mc.node? l = some node) (target : Expr) :
      Finds scope limit image mc (mc.markUnresolved l (.dynamicJump target))

/-- Any number of things are found out about a program. -/
def Discovers (scope : Scope) (limit : Nat) (image : Memory) : Microcode → Microcode → Prop :=
  Relation.ReflTransGen (Finds scope limit image)

theorem Recorded.discovers {l : Location} (h : Recorded l mc mc') {node : Node}
    (hnode : mc.node? l = some node) :
    Discovers scope limit image mc mc' ∧ ∃ node', mc'.node? l = some node' := by
  induction h with
  | refl => exact ⟨.refl, node, hnode⟩
  | resolved _ target ih =>
      obtain ⟨hdiscovers, node', hnode'⟩ := ih
      refine ⟨hdiscovers.tail (.target hnode' target), ?_⟩
      rw [addResolved, node?_modifyNode, if_pos rfl]
      exact ⟨_, rfl⟩
  | unresolved _ target ih =>
      obtain ⟨hdiscovers, node', hnode'⟩ := ih
      exact ⟨hdiscovers.tail (.furtherTargets hnode' target), node', hnode'⟩

section Growth

/-- All nodes stay, with their arrows and their texts, and resolved targets are only added. -/
def Keeps (mc mc' : Microcode) : Prop :=
  ∀ l node, mc.node? l = some node → ∃ node', mc'.node? l = some node' ∧
    node'.arrows = node.arrows ∧
    node'.annotation = node.annotation ∧ ∀ target ∈ node.resolved, target ∈ node'.resolved

theorem Keeps.refl (mc : Microcode) : mc.Keeps mc :=
  fun _ node hnode => ⟨node, hnode, rfl, rfl, fun _ => id⟩

theorem Keeps.trans (h : mc.Keeps mc') (h' : mc'.Keeps mc'') : mc.Keeps mc'' := by
  intro l node hnode
  obtain ⟨node', hnode', harrows, htext, hresolved⟩ := h l node hnode
  obtain ⟨node'', hnode'', harrows', htext', hresolved'⟩ := h' l node' hnode'
  exact ⟨node'', hnode'', harrows'.trans harrows, htext'.trans htext, fun t ht =>
    hresolved' t (hresolved t ht)⟩

theorem Keeps.contains (h : mc.Keeps mc') {l : Location} (hl : mc.contains l = true) :
    mc'.contains l = true := by
  rw [contains_eq, Option.isSome_iff_exists] at hl ⊢
  obtain ⟨node, hnode⟩ := hl
  obtain ⟨node', hnode', -⟩ := h l node hnode
  exact ⟨node', hnode'⟩

theorem keeps_addResolved (l target : Location) : mc.Keeps (mc.addResolved l target) := by
  intro other node hnode
  rw [addResolved, node?_modifyNode]
  split
  case isTrue heq =>
    subst heq
    rw [hnode]
    refine ⟨_, rfl, rfl, rfl, ?_⟩
    intro t ht
    exact Std.ExtTreeSet.mem_insert.mpr (.inr ht)
  case isFalse => exact ⟨node, hnode, rfl, rfl, fun _ => id⟩

theorem Finds.keeps (h : Finds scope limit image mc mc') : mc.Keeps mc' := by
  cases h with
  | outside => exact .refl mc
  | instruction hfree _ _ h =>
      exact fun _ node hnode => ⟨node, h.kept hfree hnode, rfl, rfl, fun _ => id⟩
  | target _ target => exact keeps_addResolved _ target
  | furtherTargets => exact .refl mc

theorem Discovers.keeps (h : Discovers scope limit image mc mc') : mc.Keeps mc' := by
  induction h with
  | refl => exact .refl mc
  | tail _ hfinds ih => exact ih.trans hfinds.keeps

end Growth

section Records

/-- All steps are deterministic and belong to instructions of the image. What lies outside of the
image is recorded at boundaries, and jumps with further targets are recorded at their nodes. -/
structure Charted (scope : Scope) (limit : Nat) (image : Memory) (mc : Microcode) :
    Prop extends Stepwise scope mc where
  defined {l : Location} {node : Node} : mc.node? l = some node →
    image.isDefined l.instruction = true
  bounded {l : Location} {node : Node} : mc.node? l = some node → l.step < limit
  outOfBounds {l : Location} : mc.unresolved[l]? = some .outOfBounds →
    l.isBoundary = true ∧ image.isDefined l.instruction = false
  dynamicJump {l : Location} {target : Expr} : mc.unresolved[l]? = some (.dynamicJump target) →
    mc.contains l = true
  explored {l : Location} : mc.unresolved[l]? ≠ some .unexplored

theorem charted_empty : Charted scope limit image {} where
  toStepwise := stepwise_empty
  defined h := by simp [node?] at h
  bounded h := by simp [node?] at h
  outOfBounds h := by simp at h
  dynamicJump h := by simp at h
  explored := by simp

theorem getElem?_unresolved_markUnresolved {l other : Location} {reason : Unresolved} :
    (mc.markUnresolved l reason).unresolved[other]? = if l = other then some reason
      else mc.unresolved[other]? := by
  simp only [markUnresolved, Std.ExtTreeMap.getElem?_insert, Std.LawfulEqCmp.compare_eq_iff_eq]

theorem Charted.markUnresolved (h : mc.Charted scope limit image) {l : Location}
    {reason : Unresolved}
    (houtside : reason = .outOfBounds → l.isBoundary = true ∧
      image.isDefined l.instruction = false)
    (hjump : ∀ target, reason = .dynamicJump target → mc.contains l = true)
    (hexplored : reason ≠ .unexplored) :
    (mc.markUnresolved l reason).Charted scope limit image where
  toStepwise := h.toStepwise.markUnresolved l reason
  defined := h.defined
  bounded := h.bounded
  outOfBounds {other} hother := by
    rw [getElem?_unresolved_markUnresolved] at hother
    split at hother
    case isTrue heq => exact heq ▸ houtside (Option.some.inj hother)
    case isFalse => exact h.outOfBounds hother
  dynamicJump {other target} hother := by
    rw [getElem?_unresolved_markUnresolved] at hother
    split at hother
    case isTrue heq => exact heq ▸ hjump target (Option.some.inj hother)
    case isFalse => exact h.dynamicJump hother
  explored {other} hother := by
    rw [getElem?_unresolved_markUnresolved] at hother
    split at hother
    case isTrue => exact hexplored (Option.some.inj hother)
    case isFalse => exact h.explored hother

theorem Charted.of_nodes (h : mc.Charted scope limit image) (hstepwise : mc'.Stepwise scope)
    (hkeeps : mc.Keeps mc') (hunresolved : mc'.unresolved = mc.unresolved)
    (hnodes : ∀ l node, mc'.node? l = some node → image.isDefined l.instruction = true ∧
      l.step < limit) :
    mc'.Charted scope limit image where
  toStepwise := hstepwise
  defined hnode := (hnodes _ _ hnode).1
  bounded hnode := (hnodes _ _ hnode).2
  outOfBounds hl := h.outOfBounds (hunresolved ▸ hl)
  dynamicJump hl := hkeeps.contains (h.dynamicJump (hunresolved ▸ hl))
  explored hl := h.explored (hunresolved ▸ hl)

theorem Charted.step (h : mc.Charted scope limit image)
    (hfinds : Finds scope limit image mc mc') :
    mc'.Charted scope limit image := by
  have hkeeps := hfinds.keeps
  cases hfinds with
  | outside _ hundefined =>
      exact h.markUnresolved (fun _ => ⟨rfl, hundefined⟩) (by simp) (by simp)
  | furtherTargets hnode target =>
      refine h.markUnresolved (by simp) ?_ (by simp)
      intro _ _
      rw [contains_eq, hnode, Option.isSome_some]
  | target hnode target =>
      refine h.of_nodes (h.modifyNode hnode rfl) hkeeps rfl ?_
      intro other changed hchanged
      rw [addResolved, node?_modifyNode] at hchanged
      split at hchanged
      case isTrue heq => exact heq ▸ ⟨h.defined hnode, h.bounded hnode⟩
      case isFalse => exact ⟨h.defined hchanged, h.bounded hchanged⟩
  | @instruction address n _ hfree hdefined hn hextends =>
      refine h.of_nodes (hextends.stepwise h.toStepwise) hkeeps hextends.unresolved ?_
      rintro ⟨instruction, k⟩ node hnode
      by_cases hl : instruction = address
      · subst hl
        refine ⟨hdefined, ?_⟩
        -- steps from the limit on would be free
        by_contra hk
        dsimp only at hk
        rw [hextends.free (by omega)] at hnode
        cases hnode
      · rw [hextends.other hl] at hnode
        exact ⟨h.defined hnode, h.bounded hnode⟩

theorem Charted.discovers (h : mc.Charted scope limit image)
    (hdiscovers : Discovers scope limit image mc mc') :
    mc'.Charted scope limit image := by
  induction hdiscovers with
  | refl => exact h
  | tail _ hfinds ih => exact ih.step hfinds

end Records

section Closing

theorem mem_danglingTargets {target : Location} : target ∈ mc.danglingTargets ↔
    (∃ l node, mc.node? l = some node ∧ target ∈ node.targets) ∧ mc.contains target = false ∧
      mc.unresolved[target]? = none := by
  have hrecord : mc.unresolved.contains target = false ↔ mc.unresolved[target]? = none := by
    rw [Std.ExtTreeMap.contains_eq_isSome_getElem?, Option.isSome_eq_false_iff,
      Option.isNone_iff_eq_none]
  simp only [danglingTargets, Std.ExtTreeSet.mem_ofList, List.contains_iff_mem, List.mem_filter,
    List.mem_flatMap, Prod.exists, Std.ExtTreeMap.mem_toList_iff_getElem?_eq_some, node?,
    Bool.and_eq_true, Bool.not_eq_true', hrecord]

theorem nodes_foldl_markUnresolved (targets : List Location) (mc : Microcode) :
    (targets.foldl (fun mc target => mc.markUnresolved target .unexplored) mc).nodes =
      mc.nodes := by
  induction targets generalizing mc with
  | nil => rfl
  | cons target targets ih => exact ih _

theorem unresolved_foldl_markUnresolved (targets : List Location) (mc : Microcode)
    (l : Location) :
    (targets.foldl (fun mc target => mc.markUnresolved target .unexplored) mc).unresolved[l]? =
      if l ∈ targets then some .unexplored else mc.unresolved[l]? := by
  induction targets generalizing mc with
  | nil => simp
  | cons target targets ih =>
      rw [List.foldl_cons, ih, getElem?_unresolved_markUnresolved]
      by_cases hl : l ∈ targets
      · simp [hl]
      · by_cases heq : target = l
        · simp [heq]
        · simp [hl, heq, Ne.symm heq]

end Closing

end FlowRecovery.Microcode
