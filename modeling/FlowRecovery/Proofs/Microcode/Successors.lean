import Mathlib
import FlowRecovery.Microcode.Graph

/-!
Successors of an instruction. The search enters every internal step once at most, so it ends in
every graph, also in one with cycles and missing nodes. No boundary is lost that way: when it is
over, all targets of the steps that it entered were found or entered themselves. So the successors
found are the boundaries at the ends of the paths through internal steps, and no others.
-/

namespace FlowRecovery

theorem Node.mem_targets {node : Node} {target : Location} :
    target ∈ node.targets ↔ (∃ arrow ∈ node.arrows, arrow.target = .static target) ∨
      target ∈ node.resolved := by
  have hstatic (arrow : Arrow) : arrow.staticTarget? = some target ↔
      arrow.target = .static target := by
    rw [Arrow.staticTarget?]
    cases arrow.target <;> simp
  simp only [targets, List.mem_append, List.mem_filterMap, hstatic, Std.ExtTreeSet.mem_toList]

namespace Microcode

variable {nodes : Std.ExtTreeMap Location Node} {l n target : Location} {node : Node}

/-- A boundary is reached from a location through internal steps, all of which are nodes. -/
inductive Exits (nodes : Std.ExtTreeMap Location Node) : Location → Location → Prop
  | here {l target : Location} {node : Node} (hnode : nodes[l]? = some node)
      (htarget : target ∈ node.targets)
      (hboundary : target.isBoundary = true) : Exits nodes l target
  | through {l n target : Location} {node : Node} (hnode : nodes[l]? = some node)
      (hn : n ∈ node.targets)
      (hinner : n.isBoundary = false) (h : Exits nodes n target) : Exits nodes l target

/-- A boundary is a target itself, or is reached from it. -/
def LeadsTo (nodes : Std.ExtTreeMap Location Node) (t target : Location) : Prop :=
  (t.isBoundary = true ∧ t = target) ∨ (t.isBoundary = false ∧ Exits nodes t target)

theorem exits_iff : Exits nodes l target ↔
    ∃ node, nodes[l]? = some node ∧ ∃ t ∈ node.targets, LeadsTo nodes t target := by
  constructor
  · intro h
    cases h with
    | here hnode htarget hboundary => exact ⟨_, hnode, target, htarget, .inl ⟨hboundary, rfl⟩⟩
    | through hnode hn hinner h => exact ⟨_, hnode, _, hn, .inr ⟨hinner, h⟩⟩
  · rintro ⟨node, hnode, t, ht, ⟨hboundary, rfl⟩ | ⟨hinner, h⟩⟩
    · exact .here hnode ht hboundary
    · exact .through hnode ht hinner h

/-- A search has dealt with a target. -/
def Search.Covers (s : Search) (t : Location) : Prop :=
  (t.isBoundary = true → t ∈ s.found) ∧ (t.isBoundary = false → t ∈ s.seen)

/-- What a search through some targets adds. -/
structure Searched (nodes : Std.ExtTreeMap Location Node) (targets : List Location)
    (s s' : Search) : Prop where
  found : ∀ l ∈ s.found, l ∈ s'.found
  seen : ∀ l ∈ s.seen, l ∈ s'.seen
  covers : ∀ t ∈ targets, s'.Covers t
  entered : ∀ l ∈ s'.seen, l ∈ s.seen ∨ ∀ node, nodes[l]? = some node →
    ∀ t ∈ node.targets, s'.Covers t
  leads : ∀ l ∈ s'.found, l ∈ s.found ∨ ∃ t ∈ targets, LeadsTo nodes t l

variable {s s' s'' : Search} {t : Location} {targets rest : List Location}

theorem Search.mem_find : n ∈ (s.find l).found ↔ l = n ∨ n ∈ s.found := by
  simp [find]

theorem Search.Covers.mono (h : s.Covers t) (hfound : ∀ l ∈ s.found, l ∈ s'.found)
    (hseen : ∀ l ∈ s.seen, l ∈ s'.seen) : s'.Covers t :=
  ⟨fun hboundary => hfound t (h.1 hboundary), fun hinner => hseen t (h.2 hinner)⟩

theorem Searched.nil : Searched nodes [] s s :=
  ⟨fun _ h => h, fun _ h => h, by simp, fun _ h => .inl h, fun _ h => .inl h⟩

theorem Searched.cons (h : Searched nodes [t] s s') (hrest : Searched nodes rest s' s'') :
    Searched nodes (t :: rest) s s'' := by
  have hkeeps {t : Location} (ht : s'.Covers t) : s''.Covers t := ht.mono hrest.found hrest.seen
  refine ⟨fun l hl => hrest.found l (h.found l hl), fun l hl => hrest.seen l (h.seen l hl), ?_,
    fun l hl => ?_, fun l hl => ?_⟩
  · exact List.forall_mem_cons.mpr ⟨hkeeps (h.covers t (List.mem_singleton_self t)), hrest.covers⟩
  · rcases hrest.entered l hl with hl | hcovered
    · rcases h.entered l hl with hl | hcovered
      · exact .inl hl
      · exact .inr fun node hnode t ht => hkeeps (hcovered node hnode t ht)
    · exact .inr hcovered
  · rcases hrest.leads l hl with hl | ⟨t', ht', hleads⟩
    · rcases h.leads l hl with hl | ⟨t', ht', hleads⟩
      · exact .inl hl
      · exact .inr ⟨t', List.mem_cons.mpr (.inl (List.mem_singleton.mp ht')), hleads⟩
    · exact .inr ⟨t', List.mem_cons_of_mem t ht', hleads⟩

theorem searched_find (hboundary : t.isBoundary = true) : Searched nodes [t] s (s.find t) := by
  refine ⟨fun l hl => Search.mem_find.mpr (.inr hl), fun _ hl => hl, ?_, fun _ hl => .inl hl,
    fun l hl => ?_⟩
  · rw [List.forall_mem_singleton]
    refine ⟨fun _ => Search.mem_find.mpr (.inl rfl), fun hinner => ?_⟩
    rw [hboundary] at hinner
    cases hinner
  · rcases Search.mem_find.mp hl with rfl | hl
    · exact .inr ⟨t, List.mem_singleton_self t, .inl ⟨hboundary, rfl⟩⟩
    · exact .inl hl

theorem covers_of_seen (hinner : t.isBoundary = false) (hseen : t ∈ s.seen) :
    ∀ t' ∈ [t], s.Covers t' := by
  rw [List.forall_mem_singleton]
  refine ⟨fun hboundary => ?_, fun _ => hseen⟩
  rw [hinner] at hboundary
  cases hboundary

theorem searched_seen (hinner : t.isBoundary = false) (hseen : t ∈ s.seen) :
    Searched nodes [t] s s :=
  ⟨fun _ hl => hl, fun _ hl => hl, covers_of_seen hinner hseen, fun _ hl => .inl hl,
    fun _ hl => .inl hl⟩

theorem Searched.enter (hinner : t.isBoundary = false)
    (hnode : (nodes[t]?.map Node.targets).getD [] = targets)
    (h : Searched nodes targets (s.enter t) s') : Searched nodes [t] s s' := by
  have hseen {l : Location} (hl : l ∈ s.seen) : l ∈ s'.seen :=
    h.seen l (Search.mem_enter.mpr (.inr hl))
  have htargets {node : Node} (hfound : nodes[t]? = some node) : node.targets = targets := by
    rwa [hfound] at hnode
  refine ⟨h.found, fun l hl => hseen hl, ?_, fun l hl => ?_, fun l hl => ?_⟩
  · exact covers_of_seen hinner (h.seen t (Search.mem_enter.mpr (.inl rfl)))
  · rcases h.entered l hl with hl | hcovered
    · rcases Search.mem_enter.mp hl with rfl | hl
      · exact .inr fun node hfound t' ht' => h.covers t' (htargets hfound ▸ ht')
      · exact .inl hl
    · exact .inr hcovered
  · rcases h.leads l hl with hl | ⟨t', ht', hleads⟩
    · exact .inl hl
    · refine .inr ⟨t, List.mem_singleton_self t, .inr ⟨hinner, exits_iff.mpr ?_⟩⟩
      cases hfound : nodes[t]? with
      | none =>
          rw [hfound] at hnode
          rw [← hnode] at ht'
          cases ht'
      | some node => exact ⟨node, rfl, t', htargets hfound ▸ ht', hleads⟩

theorem searched_collectSuccessors (mc : Microcode) (targets : List Location) (s : Search) :
    Searched mc.nodes targets s (mc.collectSuccessors targets s).1 := by
  fun_induction collectSuccessors mc targets s with
  | case1 s => exact .nil
  | case2 s t rest hboundary ih => exact (searched_find hboundary).cons ih
  | case3 s t rest hinner hseen ih => exact (searched_seen (by simpa using hinner) hseen).cons ih
  | case4 s t rest hinner hseen _ hnode last ih =>
      refine Searched.cons (.enter (by simpa using hinner) ?_ .nil) ih
      rw [hnode]
      rfl
  | case5 s t rest hinner hseen _ node hnode inner last hinnerTargets ih =>
      refine Searched.cons (.enter (by simpa using hinner) ?_ hinnerTargets) ih
      rw [hnode]
      rfl

/-- When a search from nothing is over, it found all boundaries that the targets lead to. -/
theorem Searched.mem_found_iff (h : Searched nodes targets {} s') :
    target ∈ s'.found ↔ ∃ t ∈ targets, LeadsTo nodes t target := by
  have hentered {l : Location} (hl : l ∈ s'.seen) {node : Node} (hnode : nodes[l]? = some node)
      {t : Location} (ht : t ∈ node.targets) : s'.Covers t := by
    refine (h.entered l hl).resolve_left ?_ node hnode t ht
    simp
  have hexits {l target : Location} (hl : l ∈ s'.seen) (hexits : Exits nodes l target) : target ∈
      s'.found := by
    induction hexits with
    | here hnode htarget hboundary => exact (hentered hl hnode htarget).1 hboundary
    | through hnode hn hinner _ ih => exact ih ((hentered hl hnode hn).2 hinner)
  constructor
  · intro htarget
    refine (h.leads target htarget).resolve_left ?_
    simp
  · rintro ⟨t, ht, ⟨hboundary, rfl⟩ | ⟨hinner, hleads⟩⟩
    · exact (h.covers t ht).1 hboundary
    · exact hexits ((h.covers t ht).2 hinner) hleads

/-- The node at a location has an arrow to a location, or a computed target of it was found to
lead there. -/
def Edge (mc : Microcode) (l target : Location) : Prop :=
  ∃ node, mc.node? l = some node ∧
    ((∃ arrow ∈ node.arrows, arrow.target = .static target) ∨ target ∈ node.resolved)

theorem edge_iff {mc : Microcode} :
    mc.Edge l target ↔ ∃ node, mc.nodes[l]? = some node ∧ target ∈ node.targets := by
  simp only [Edge, node?, Node.mem_targets]

theorem Edge.contains {mc : Microcode} (h : mc.Edge l target) : mc.contains l = true := by
  obtain ⟨node, hnode, -⟩ := h
  rw [Microcode.contains, Std.ExtTreeMap.contains_eq_isSome_getElem?]
  exact Option.isSome_of_eq_some hnode

/-- A path from a location to another one through internal steps, which have nodes like the
location it starts from. -/
structure Path (mc : Microcode) (l : Location) (steps : List Location) (target : Location) :
    Prop where
  inner : ∀ n ∈ steps, 0 < n.step
  present : ∀ n ∈ l :: steps, mc.contains n = true
  edges : List.IsChain mc.Edge (l :: steps ++ [target])

section Paths

variable {mc : Microcode} {steps : List Location}

theorem path_nil_iff : mc.Path l [] target ↔ mc.Edge l target := by
  constructor
  · intro h
    exact List.isChain_pair.mp h.edges
  · intro h
    exact ⟨by simp, by simpa using h.contains, List.isChain_pair.mpr h⟩

theorem path_cons_iff :
    mc.Path l (n :: steps) target ↔ mc.Edge l n ∧ 0 < n.step ∧ mc.Path n steps target := by
  constructor
  · rintro ⟨hinner, hpresent, hedges⟩
    obtain ⟨hn, hinner⟩ := List.forall_mem_cons.mp hinner
    obtain ⟨hedge, hedges⟩ := List.isChain_cons_cons.mp hedges
    exact ⟨hedge, hn, hinner, (List.forall_mem_cons.mp hpresent).2, hedges⟩
  · rintro ⟨hedge, hn, hinner, hpresent, hedges⟩
    exact ⟨List.forall_mem_cons.mpr ⟨hn, hinner⟩,
      List.forall_mem_cons.mpr ⟨hedge.contains, hpresent⟩,
      List.isChain_cons_cons.mpr ⟨hedge, hedges⟩⟩

theorem exits_iff_path :
    Exits mc.nodes l target ↔ target.isBoundary = true ∧ ∃ steps, mc.Path l steps target := by
  constructor
  · intro h
    induction h with
    | here hnode htarget hboundary =>
        exact ⟨hboundary, [], path_nil_iff.mpr (edge_iff.mpr ⟨_, hnode, htarget⟩)⟩
    | @through l n target node hnode hn hinner _ ih =>
        obtain ⟨hboundary, steps, hpath⟩ := ih
        have hstep : 0 < n.step := Nat.pos_of_ne_zero (beq_eq_false_iff_ne.mp hinner)
        exact ⟨hboundary, n :: steps,
          path_cons_iff.mpr ⟨edge_iff.mpr ⟨node, hnode, hn⟩, hstep, hpath⟩⟩
  · rintro ⟨hboundary, steps, hpath⟩
    induction steps generalizing l with
    | nil =>
        obtain ⟨node, hnode, htarget⟩ := edge_iff.mp (path_nil_iff.mp hpath)
        exact .here hnode htarget hboundary
    | cons n steps ih =>
        obtain ⟨hedge, hstep, hpath⟩ := path_cons_iff.mp hpath
        obtain ⟨node, hnode, hn⟩ := edge_iff.mp hedge
        exact .through hnode hn (beq_eq_false_iff_ne.mpr hstep.ne') (ih hpath)

end Paths

theorem mem_successors {mc : Microcode} : target ∈ mc.successors l ↔ Exits mc.nodes l target := by
  rw [successors, exits_iff]
  cases mc.nodes[l]? with
  | none => simp
  | some node => simp [(mc.searched_collectSuccessors node.targets {}).mem_found_iff]

/-- The successors of a location are exactly the boundaries that a path leads to from there,
through any number of internal steps, along the fixed targets of arrows and the computed targets
that were found. -/
theorem mem_successors_iff_path (mc : Microcode) (l target : Location) :
    target ∈ mc.successors l ↔ target.isBoundary = true ∧ ∃ steps, mc.Path l steps target := by
  rw [mem_successors, exits_iff_path]

end Microcode

end FlowRecovery
