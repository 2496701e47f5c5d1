import Mathlib
import FlowRecovery.Microcode.Graph
import FlowRecovery.Proofs.Simulation.Step

namespace FlowRecovery

variable {scope : Scope}

/-- Where an arrow of an instruction may lead: to its next step, to the boundary of an
instruction, or to a computed address. -/
def Target.Leaves (scope : Scope) (l : Location) : Target → Prop
  | .static target => target = ⟨l.instruction, l.step + 1⟩ ∨ target.isBoundary = true
  | .dynamic address => address.WellFormed scope

/-- The arrows of a micro step of which at most one can be taken. -/
inductive Deterministic (scope : Scope) (l : Location) : List Arrow → Prop
  | halt : Deterministic scope l []
  | only {a : Arrow} (hsource : a.source = l) (hguard : a.guard = .bool true)
      (hstatement : a.statement.WellFormed scope) (htarget : a.target.Leaves scope l) :
      Deterministic scope l [a]
  | branch {first second : Location} {guard other : Expr} (hne : first ≠ second)
      (hguard : guard.WellFormed scope)
      (hwidth : guard.width = 1) (hother : other = guard.not ∨ guard = other.not)
      (hfirst : (Target.static first).Leaves scope l)
      (hsecond : (Target.static second).Leaves scope l) :
      Deterministic scope l [⟨l, .static first, guard, .skip⟩, ⟨l, .static second, other, .skip⟩]

theorem Deterministic.arrow {l : Location} {arrows : List Arrow}
    (h : Deterministic scope l arrows) {a : Arrow} (ha : a ∈ arrows) :
    a.source = l ∧ a.target.Leaves scope l ∧ a.statement.WellFormed scope := by
  cases h with
  | halt => simp at ha
  | only hsource _ hstatement htarget =>
      rw [List.mem_singleton] at ha
      subst ha
      exact ⟨hsource, htarget, hstatement⟩
  | branch _ _ _ _ hfirst hsecond =>
      rcases List.mem_pair.mp ha with rfl | rfl
      · exact ⟨rfl, hfirst, trivial⟩
      · exact ⟨rfl, hsecond, trivial⟩

namespace Microcode

variable {mc mc' : Microcode} {l other : Location} {address : UInt64} {n : Nat}
  {f g : Node → Node}

section Nodes

theorem node?_modifyNode : (mc.modifyNode l f).node? other =
    if l = other then some (f ((mc.node? l).getD {})) else mc.node? other := by
  simp only [node?, modifyNode, Std.ExtTreeMap.getElem?_insert,
    Std.ExtTreeMap.getD_eq_getD_getElem?, Std.LawfulEqCmp.compare_eq_iff_eq]

theorem modifyNode_modifyNode : (mc.modifyNode l f).modifyNode l g = mc.modifyNode l (g ∘ f) := by
  have hnodes : ((mc.modifyNode l f).modifyNode l g).nodes = (mc.modifyNode l (g ∘ f)).nodes := by
    ext1 other
    change ((mc.modifyNode l f).modifyNode l g).node? other =
      (mc.modifyNode l (g ∘ f)).node? other
    simp only [node?_modifyNode]
    split
    · simp
    · rfl
  exact congrArg (fun nodes => { mc with nodes }) hnodes

theorem contains_eq : mc.contains l = (mc.node? l).isSome := by
  rw [contains, node?, Std.ExtTreeMap.isSome_getElem?_eq_contains]

end Nodes

/-- All steps are deterministic, and they come with the boundary of their instruction. -/
structure Stepwise (scope : Scope) (mc : Microcode) : Prop where
  arrows {l : Location} {node : Node} : mc.node? l = some node → Deterministic scope l node.arrows
  boundary {l : Location} {node : Node} : mc.node? l = some node →
    mc.contains (.boundary l.instruction) = true

/-- All steps are deterministic, steps come with the boundary of their instruction, and no
computed jump is left unresolved. -/
structure Sound (scope : Scope) (mc : Microcode) : Prop extends Stepwise scope mc where
  unresolved {l : Location} {target : Expr} : mc.unresolved[l]? ≠ some (.dynamicJump target)

theorem stepwise_empty : Stepwise scope {} := by
  refine ⟨fun h => ?_, fun h => ?_⟩
  · simp [node?] at h
  · simp [node?] at h

theorem sound_empty : Sound scope {} :=
  ⟨stepwise_empty, by simp⟩

theorem Stepwise.modifyNode (h : mc.Stepwise scope) {node : Node} (hnode : mc.node? l = some node)
    (hf : (f node).arrows = node.arrows) : (mc.modifyNode l f).Stepwise scope := by
  have hcontains (other : Location) : (mc.modifyNode l f).contains other = mc.contains other := by
    rw [contains_eq, contains_eq, node?_modifyNode]
    split
    case isTrue heq => rw [← heq, hnode]; rfl
    case isFalse => rfl
  refine ⟨fun {other changed} hchanged => ?_, fun {other changed} hchanged => ?_⟩
  · rw [node?_modifyNode] at hchanged
    split at hchanged
    case isTrue heq =>
      subst heq
      rw [hnode] at hchanged
      cases hchanged
      rw [Option.getD_some, hf]
      exact h.arrows hnode
    case isFalse => exact h.arrows hchanged
  · rw [hcontains]
    rw [node?_modifyNode] at hchanged
    split at hchanged
    case isTrue heq =>
      subst heq
      exact h.boundary hnode
    case isFalse => exact h.boundary hchanged

theorem Sound.addResolved (h : mc.Sound scope) {node : Node} (hnode : mc.node? l = some node)
    (target : Location) : (mc.addResolved l target).Sound scope :=
  ⟨h.modifyNode hnode rfl, h.unresolved⟩

theorem Stepwise.markUnresolved (h : mc.Stepwise scope) (l : Location) (reason : Unresolved) :
    (mc.markUnresolved l reason).Stepwise scope :=
  ⟨h.arrows, h.boundary⟩

theorem Sound.markUnresolved (h : mc.Sound scope) (l : Location) {reason : Unresolved}
    (hreason : ∀ target, reason ≠ .dynamicJump target) :
    (mc.markUnresolved l reason).Sound scope := by
  refine ⟨h.toStepwise.markUnresolved l reason, fun {other target} hother => ?_⟩
  rw [Microcode.markUnresolved, Std.ExtTreeMap.getElem?_insert] at hother
  split at hother
  · cases hother
    exact hreason target rfl
  · exact h.unresolved hother

theorem Sound.unresolvedJumps (h : mc.Sound scope) : mc.unresolvedJumps = [] := by
  rw [Microcode.unresolvedJumps, List.filterMap_eq_nil_iff]
  rintro ⟨l, reason⟩ hmem
  rw [Std.ExtTreeMap.mem_toList_iff_getElem?_eq_some] at hmem
  cases reason with
  | dynamicJump target => exact absurd hmem h.unresolved
  | outOfBounds => rfl
  | unexplored => rfl

/-- A graph after the first steps of an instruction were added to another one. -/
structure Extends (scope : Scope) (address : UInt64) (n : Nat) (mc mc' : Microcode) : Prop where
  other {l : Location} : l.instruction ≠ address → mc'.node? l = mc.node? l
  emitted {k : Nat} : k < n →
    ∃ node, mc'.node? ⟨address, k⟩ = some node ∧ Deterministic scope ⟨address, k⟩ node.arrows
  free {k : Nat} : n ≤ k → mc'.node? ⟨address, k⟩ = none
  unresolved : mc'.unresolved = mc.unresolved
  entrypoint : mc'.entrypoint = mc.entrypoint

theorem Stepwise.free (h : mc.Stepwise scope) (hnew : mc.contains (.boundary address) = false)
    (k : Nat) :
    mc.node? ⟨address, k⟩ = none := by
  cases hnode : mc.node? ⟨address, k⟩ with
  | none => rfl
  | some node =>
      have hboundary := h.boundary hnode
      rw [hnew] at hboundary
      cases hboundary

theorem extends_zero (hfree : ∀ k, mc.node? ⟨address, k⟩ = none) :
    Extends scope address 0 mc mc :=
  ⟨fun _ => rfl, fun hk => absurd hk (Nat.not_lt_zero _), fun _ => hfree _, rfl, rfl⟩

theorem Extends.kept (h : Extends scope address n mc mc')
    (hfree : ∀ k, mc.node? ⟨address, k⟩ = none) {l : Location} {node : Node}
    (hnode : mc.node? l = some node) : mc'.node? l = some node := by
  rw [h.other, hnode]
  rintro rfl
  rw [hfree l.step] at hnode
  cases hnode

theorem Extends.modifyNode (h : Extends scope address n mc mc')
    (hf : Deterministic scope ⟨address, n⟩ (f {}).arrows) :
    Extends scope address (n + 1) mc (mc'.modifyNode ⟨address, n⟩ f) := by
  refine ⟨fun {l} hl => ?_, fun {k} hk => ?_, fun {k} hk => ?_, h.unresolved, h.entrypoint⟩
  · rw [node?_modifyNode, if_neg fun heq => hl (by rw [← heq])]
    exact h.other hl
  · rw [node?_modifyNode]
    split
    case isTrue heq =>
      cases heq
      rw [h.free le_rfl]
      exact ⟨_, rfl, hf⟩
    case isFalse hne =>
      refine h.emitted (Nat.lt_of_le_of_ne (Nat.le_of_lt_succ hk) fun heq => hne ?_)
      rw [heq]
  · rw [node?_modifyNode, if_neg fun heq => ?_]
    · exact h.free (by omega)
    · cases heq
      omega

theorem Extends.annotate (h : Extends scope address n mc mc') {k : Nat} (hk : k < n)
    (text : String) :
    Extends scope address n mc (mc'.annotate ⟨address, k⟩ text) := by
  refine ⟨fun {l} hl => ?_, fun {j} hj => ?_, fun {j} hj => ?_, h.unresolved, h.entrypoint⟩
  · rw [Microcode.annotate, node?_modifyNode, if_neg fun heq => hl (by rw [← heq])]
    exact h.other hl
  · rw [Microcode.annotate, node?_modifyNode]
    split
    case isTrue heq =>
      cases heq
      obtain ⟨node, hnode, harrows⟩ := h.emitted hk
      rw [hnode]
      exact ⟨_, rfl, harrows⟩
    case isFalse => exact h.emitted hj
  · rw [Microcode.annotate, node?_modifyNode, if_neg fun heq => ?_]
    · exact h.free hj
    · cases heq
      omega

theorem Extends.stepwise (h : Extends scope address (n + 1) mc mc') (hmc : mc.Stepwise scope) :
    mc'.Stepwise scope := by
  have hstart : mc'.contains (.boundary address) = true := by
    obtain ⟨node, hnode, -⟩ := h.emitted (Nat.succ_pos n)
    rw [contains_eq]
    change (mc'.node? ⟨address, 0⟩).isSome = true
    rw [hnode]
    rfl
  -- a step of the graph is one of the new instruction or was there before
  refine ⟨fun {l node} hnode => ?_, fun {l node} hnode => ?_⟩
  · by_cases hl : l.instruction = address
    · obtain ⟨instruction, k⟩ := l
      cases hl
      rcases Nat.lt_or_ge k (n + 1) with hk | hk
      · obtain ⟨node', hnode', harrows⟩ := h.emitted hk
        cases hnode'.symm.trans hnode
        exact harrows
      · cases (h.free hk).symm.trans hnode
    · rw [h.other hl] at hnode
      exact hmc.arrows hnode
  · by_cases hl : l.instruction = address
    · rw [hl]
      exact hstart
    · rw [h.other hl] at hnode
      have hboundary := hmc.boundary hnode
      have hsame : mc'.node? (.boundary l.instruction) = mc.node? (.boundary l.instruction) :=
        h.other hl
      rw [contains_eq] at hboundary ⊢
      rw [hsame]
      exact hboundary

theorem Extends.sound (h : Extends scope address (n + 1) mc mc') (hmc : mc.Sound scope) :
    mc'.Sound scope := by
  refine ⟨h.stepwise hmc.toStepwise, ?_⟩
  intro l target
  rw [h.unresolved]
  exact hmc.unresolved

end Microcode

/-- A decoder that adds the deterministic steps of an instruction that starts in the memory, fewer
than a limit, or fails and leaves the graph as it is. -/
def Decoder.Incremental (scope : Scope) (limit : Nat) (decoder : Decoder) : Prop :=
  ∀ (mc : Microcode) (address : UInt64), (∀ k, mc.node? ⟨address, k⟩ = none) →
    ∀ memory, (∃ error, (decoder.decode memory address).run.run mc = .ok (.error error, mc)) ∨
      ∃ next mc' n, (decoder.decode memory address).run.run mc = .ok (.ok next, mc') ∧ n < limit ∧
        memory.isDefined address = true ∧ Microcode.Extends scope address (n + 1) mc mc'

end FlowRecovery
