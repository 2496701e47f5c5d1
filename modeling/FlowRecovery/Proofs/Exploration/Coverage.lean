import Mathlib
import FlowRecovery.Testing
import FlowRecovery.Proofs.Exploration.Accounting

/-!
Coverage of concrete executions. The exploration of a graph with fixed targets matches every step
of a concrete execution from an expanded state by a state that it puts on the worklist. States are
told apart without their path conditions, so a state may be dropped in favour of one that stands
for other valuations; an execution that passes through no such state only gets to locations that
were expanded.
-/

namespace FlowRecovery

/-- One step of the concrete execution of a graph with fixed targets, along an arrow whose guard
is true. -/
inductive Microcode.Takes (graph : Microcode) (order : ByteOrder) (v : Valuation) :
    Location × Memory → Location × Memory → Prop
  | arrow {l target : Location} {m m' : Memory} {a : Arrow} {g : Word} (ha : a ∈ graph.arrowsAt l)
      (htarget : a.target = .static target) (hguard : m.eval order v a.guard = .ok g)
      (htrue : g.isTrue = true)
      (hexec : m.exec order v a.statement = .ok m') : Takes graph order v (l, m) (target, m')

/-- A concrete execution of a graph from one location and memory to another, with those it passed
on its way, the latest first. -/
inductive Microcode.Executes (graph : Microcode) (order : ByteOrder) (v : Valuation)
    (start : Location × Memory) :
    List (Location × Memory) → Location × Memory → Prop
  | start : Executes graph order v start [] start
  | step {passed : List (Location × Memory)} {place next : Location × Memory}
      (h : Executes graph order v start passed place) (hstep : graph.Takes order v place next) :
      Executes graph order v start (place :: passed) next

/-- The location of a state with the memory that it stands for under a valuation. -/
def State.concretise (v : Valuation) (s : State) : Location × Memory :=
  (s.pc, s.memory.concretise v)

/-- On its way an execution passed a state that was dropped as a duplicate of an expanded state,
but the expanded state does not stand for the valuation. -/
def History.Drops (history : History) (v : Valuation) (passed : List (Location × Memory)) :
    Prop :=
  ∃ dropped ∈ history.meeting .duplicate, ∃ twin ∈ history.meeting .expanded, twin.point =
    dropped.point ∧
    v.Satisfies dropped.pathCondition ∧ ¬ v.Satisfies twin.pathCondition ∧
    dropped.concretise v ∈ passed

theorem State.concretise_eq_of_point {s t : State} (h : s.point = t.point) (v : Valuation) :
    s.concretise v = t.concretise v := by
  obtain ⟨hpc, hmemory⟩ := Prod.mk.inj h
  rw [concretise, concretise, hpc, hmemory]

/-- Of each instruction, all nodes of a graph are there or none. -/
def Microcode.PartOf (graph mc : Microcode) : Prop :=
  ∀ g, (∀ k, mc.node? ⟨g, k⟩ = graph.node? ⟨g, k⟩) ∨ ∀ k, mc.node? ⟨g, k⟩ = none

/-- A decoder that adds the nodes that a graph has for an instruction, or fails. -/
def Decoder.HandsOut (graph : Microcode) (decoder : Decoder) : Prop :=
  ∀ {mc mc' : Microcode} {memory : Memory} {address next : UInt64}, graph.PartOf mc →
    (decoder.decode memory address).run.run mc = .ok (.ok next, mc') →
      (∀ k, mc'.node? ⟨address, k⟩ = graph.node? ⟨address, k⟩) ∧
        ∀ l, l.instruction ≠ address → mc'.node? l = mc.node? l

/-- The arrows of a graph are well formed, and their targets are fixed. -/
def Microcode.Fixed (scope : Scope) (graph : Microcode) : Prop :=
  ∀ {l : Location} {a : Arrow}, a ∈ graph.arrowsAt l → a.WellFormed scope ∧
    ∃ target, a.target = .static target

section Graphs

variable {graph : Microcode}

theorem Microcode.Takes.exists_node {order : ByteOrder} {v : Valuation}
    {place next : Location × Memory} (h : graph.Takes order v place next) :
    ∃ node, graph.node? place.1 = some node := by
  cases h with
  | arrow ha =>
      obtain ⟨node, hnode, -⟩ := exists_of_mem_arrowsAt ha
      exact ⟨node, hnode⟩

theorem Microcode.partOf_empty : graph.PartOf {} := by
  intro g
  right
  intro k
  simp [node?]

theorem Decoder.ofGraph_handsOut (arch : Architecture) (graph : Microcode) :
    (Decoder.ofGraph arch graph).HandsOut graph := by
  intro mc mc' memory address next hpart hdecode
  simp only [Decoder.ofGraph] at hdecode
  split at hdecode
  · cases hdecode
  cases hdecode
  -- a location that is not among the copied ones keeps its node
  have hkept {l : Location} (hl : l.instruction = address → graph.node? l = none) :
      (mc.nodes.insertMany (graph.nodes.toList.filter (·.1.instruction = address)))[l]? =
          mc.nodes[l]? := by
    apply Std.ExtTreeMap.getElem?_insertMany_list_of_contains_eq_false
    rw [List.contains_eq_mem, decide_eq_false_iff_not, List.mem_map]
    rintro ⟨⟨_, node⟩, hmem, rfl⟩
    obtain ⟨hmem, haddress⟩ := List.mem_filter.mp hmem
    have hnode : graph.node? _ = some node :=
      Std.ExtTreeMap.mem_toList_iff_getElem?_eq_some.mp hmem
    rw [hl (of_decide_eq_true haddress)] at hnode
    cases hnode
  refine ⟨fun k => ?_, fun l hl => hkept fun heq => absurd heq hl⟩
  cases hnode : graph.node? ⟨address, k⟩ with
  | none =>
      refine (hkept fun _ => hnode).trans ?_
      rcases hpart address with hsame | hnone
      · exact (hsame k).trans hnode
      · exact hnone k
  | some node =>
      refine Std.ExtTreeMap.getElem?_insertMany_list_of_mem Std.ReflCmp.compare_self
        (Std.ExtTreeMap.distinct_keys_toList.filter _) (List.mem_filter.mpr ⟨?_, ?_⟩)
      · exact Std.ExtTreeMap.mem_toList_iff_getElem?_eq_some.mpr hnode
      · exact decide_eq_true rfl

end Graphs

namespace Simulator

variable {sim : Simulator} {s : State} {d d' d'' : Discovery} {graph : Microcode}
  {arrows : List Arrow} {successors : List State}

theorem stepAll_parts (h : Succeeds (sim.stepAll s arrows) d successors d') :
    (∀ a ∈ arrows, ∃ list d₁ d₂, Succeeds (sim.step s a) d₁ list d₂ ∧ list ⊆ successors) ∧
      ∀ t ∈ successors, ∃ a ∈ arrows, ∃ list d₁ d₂, Succeeds (sim.step s a) d₁ list d₂ ∧
        t ∈ list := by
  induction arrows generalizing d d' successors with
  | nil =>
      cases h
      simp
  | cons a rest ih =>
      obtain ⟨first, d₁, hfirst, h⟩ := h.of_bind
      obtain ⟨others, d₂, hothers, h⟩ := h.of_bind
      obtain ⟨hparts, hfrom⟩ := ih hothers
      rw [← h.eq_of_pure]
      constructor
      · rw [List.forall_mem_cons]
        refine ⟨⟨first, d, d₁, hfirst, List.subset_append_left _ _⟩, fun b hb => ?_⟩
        obtain ⟨list, d₃, d₄, hlist, hsubset⟩ := hparts b hb
        exact ⟨list, d₃, d₄, hlist, List.subset_append_of_subset_right _ hsubset⟩
      · rw [List.forall_mem_append]
        refine ⟨fun t ht => ⟨a, List.mem_cons_self, first, d, d₁, hfirst, ht⟩, fun t ht => ?_⟩
        obtain ⟨b, hb, hlist⟩ := hfrom t ht
        exact ⟨b, List.mem_cons_of_mem a hb, hlist⟩

theorem arrows_eq_arrowsAt (h : Succeeds (sim.arrows s) d arrows d')
    (hdecoder : sim.decoder.HandsOut graph) (hd : graph.PartOf d.program) :
    graph.PartOf d'.program ∧ arrows = graph.arrowsAt s.pc := by
  obtain ⟨-, harrows, hcases⟩ := of_arrows h
  have hnodes : graph.PartOf d'.program ∧ ∀ k,
      d'.program.node? ⟨s.pc.instruction, k⟩ = graph.node? ⟨s.pc.instruction, k⟩ := by
    rcases hcases with ⟨hcontains, hsame⟩ | ⟨-, outcome, hdecode, hok⟩
    · rw [hsame]
      refine ⟨hd, (hd s.pc.instruction).resolve_right fun hnone => ?_⟩
      rw [Microcode.contains_eq, Location.boundary, hnone 0] at hcontains
      cases hcontains
    · obtain ⟨next, rfl⟩ := hok arrows rfl
      obtain ⟨hnew, hold⟩ := hdecoder hd hdecode
      refine ⟨fun g => ?_, hnew⟩
      by_cases hg : g = s.pc.instruction
      · rw [hg]
        exact .inl hnew
      · have hkept (k : Nat) : d'.program.node? ⟨g, k⟩ = d.program.node? ⟨g, k⟩ := hold ⟨g, k⟩ hg
        simp only [hkept]
        exact hd g
  refine ⟨hnodes.1, ?_⟩
  rw [harrows arrows rfl, Microcode.arrowsAt, Microcode.arrowsAt]
  exact congrArg (fun node? => (node?.map Node.arrows).getD []) (hnodes.2 s.pc.step)

variable {scope : Scope} {widths : String → Nat}

/-- The successors along the arrows of a graph match every concrete step from a state. -/
theorem stepAll_covers (hsolver : sim.solver.SoundOver scope)
    (hgraph : graph.Fixed (scope.onMemory widths)) (hs : s.WellFormed scope widths)
    (h : Succeeds (sim.stepAll s (graph.arrowsAt s.pc)) d successors d') :
    d'.program = d.program ∧
      (∀ t ∈ successors, t.WellFormed scope widths ∧ t.memory.order = s.memory.order) ∧
      ∀ v next, v.Satisfies s.pathCondition → graph.Takes s.memory.order v (s.concretise v) next →
        ∃ t ∈ successors, v.Satisfies t.pathCondition ∧ t.concretise v = next := by
  obtain ⟨hparts, hfrom⟩ := stepAll_parts h
  refine ⟨?_, fun t ht => ?_, fun v next hv hstep => ?_⟩
  · have hlogged : d.Logged d' := by
      refine SimM.Changes.of_returns (sim.stepAll_changes fun a ha => ?_) h
      obtain ⟨-, target, htarget⟩ := hgraph ha
      exact sim.step_changes_of_static htarget s
    obtain ⟨log, rfl⟩ := hlogged
    rfl
  · obtain ⟨a, ha, list, d₁, d₂, hlist, hmem⟩ := hfrom t ht
    obtain ⟨haWF, target, htarget⟩ := hgraph ha
    obtain ⟨_, -, -, hnext⟩ := step_sound hsolver hs haWF htarget default hlist
    obtain ⟨ht, -, hfollows, -⟩ := hnext t hmem
    exact ⟨ht, hfollows.order⟩
  · generalize hstart : s.concretise v = start at hstep
    cases hstep with
    | @arrow l target m m' a g ha htarget hguard htrue hexec =>
        cases hstart
        obtain ⟨list, d₁, d₂, hlist, hsubset⟩ := hparts a ha
        obtain ⟨g', hg', hlength, hnext⟩ := step_sound hsolver hs (hgraph ha).1 htarget v hlist
        cases hg'.symm.trans hguard
        obtain ⟨t, rfl⟩ := List.length_eq_one_iff.mp (hlength hv htrue)
        obtain ⟨-, hpc, -, hmemory, hiff⟩ := hnext t (List.mem_singleton_self t)
        cases hmemory.symm.trans hexec
        refine ⟨t, hsubset (List.mem_singleton_self t), hiff.mpr ⟨hv, htrue⟩, ?_⟩
        rw [State.concretise, hpc]

end Simulator

namespace Explorer

/-- A state waits or was taken from the worklist. -/
def Knows (history : History) (x : Exploration) (s : State) : Prop :=
  s ∈ x.todo ∨ ∃ fate, (s, fate) ∈ history.taken

/-- The exploration of a graph: all known states are well formed, and each concrete step from an
expanded state is matched by a known state. -/
structure Covering (e : Explorer) (graph : Microcode) (scope : Scope) (widths : String → Nat)
    (order : ByteOrder) (history : History) (x : Exploration) : Prop where
  program : graph.PartOf x.program
  known {s : State} : Knows history x s → s.WellFormed scope widths ∧ s.memory.order = order
  seeds {s : State} : s ∈ history.seeds → Knows history x s
  expanded {s : State} : (s, .expanded) ∈ history.taken →
    ∀ {v next}, v.Satisfies s.pathCondition →
    graph.Takes order v (s.concretise v) next →
      ∃ t, Knows history x t ∧ v.Satisfies t.pathCondition ∧ t.concretise v = next
  visited {p : Location × SymbolicMemory} : p ∈ x.visited →
    ∃ t, (t, .expanded) ∈ history.taken ∧ t.point = p
  duplicate {s : State} : (s, .duplicate) ∈ history.taken → ∃ t, (t, .expanded) ∈ history.taken ∧
    t.point = s.point
  throttled {s : State} : (s, .throttled) ∉ history.taken
  outside {s : State} : (s, .outside) ∈ history.taken → e.image.isDefined s.pc.instruction = false

variable {e : Explorer} {graph : Microcode} {scope : Scope} {widths : String → Nat}
  {order : ByteOrder} {history : History} {x y : Exploration} {s : State}
  {rest added : List State} {fate : Fate}

section Steps

theorem knows_take {t : State} (htodo : x.todo = s :: rest) (hadded : y.todo = added ++ rest)
    (h : Knows history x t) : Knows (history.take s fate added) y t := by
  rcases h with hwaits | ⟨other, htaken⟩
  · rw [htodo] at hwaits
    rcases List.mem_cons.mp hwaits with rfl | hrest
    · exact .inr ⟨fate, List.mem_cons_self⟩
    · exact .inl (hadded ▸ List.mem_append_right added hrest)
  · exact .inr ⟨other, List.mem_cons_of_mem _ htaken⟩

theorem mem_or_knows_of_take {t : State} (htodo : x.todo = s :: rest)
    (hadded : y.todo = added ++ rest) (h : Knows (history.take s fate added) y t) :
    t ∈ added ∨ Knows history x t := by
  rcases h with hwaits | ⟨other, htaken⟩
  · rw [hadded] at hwaits
    rcases List.mem_append.mp hwaits with hnew | hrest
    · exact .inl hnew
    · exact .inr (.inl (htodo ▸ List.mem_cons_of_mem s hrest))
  · rcases List.mem_cons.mp htaken with heq | htaken
    · cases heq
      exact .inr (.inl (htodo ▸ List.mem_cons_self))
    · exact .inr (.inr ⟨other, htaken⟩)

theorem Covering.taken (hx : e.Covering graph scope widths order history x)
    (htodo : x.todo = s :: rest) (hadded : y.todo = added ++ rest)
    (hprogram : graph.PartOf y.program)
    (hnew : ∀ t ∈ added, t.WellFormed scope widths ∧ t.memory.order = order)
    (hexpanded : fate = .expanded → ∀ {v next}, v.Satisfies s.pathCondition →
      graph.Takes order v (s.concretise v) next → ∃ t ∈ added, v.Satisfies t.pathCondition ∧
      t.concretise v = next)
    (hvisited : ∀ p ∈ y.visited, p ∈ x.visited ∨ fate = .expanded ∧ p = s.point)
    (hduplicate : fate = .duplicate → s.point ∈ x.visited) (hthrottled : fate ≠ .throttled)
    (houtside : fate = .outside → e.image.isDefined s.pc.instruction = false) :
    e.Covering graph scope widths order (history.take s fate added) y := by
  have hknows {t : State} (ht : Knows history x t) : Knows (history.take s fate added) y t :=
    knows_take htodo hadded ht
  have hkept {t : State} (ht : (t, .expanded) ∈ history.taken) :
      (t, Fate.expanded) ∈ (history.take s fate added).taken :=
    List.mem_cons_of_mem _ ht
  have htwin {p : Location × SymbolicMemory} (hp : p ∈ x.visited) :
      ∃ t, (t, .expanded) ∈ (history.take s fate added).taken ∧ t.point = p := by
    obtain ⟨t, ht, hpoint⟩ := hx.visited hp
    exact ⟨t, hkept ht, hpoint⟩
  constructor
  case program => exact hprogram
  case known =>
    intro t ht
    rcases mem_or_knows_of_take htodo hadded ht with hmem | hold
    · exact hnew t hmem
    · exact hx.known hold
  case seeds =>
    intro t ht
    exact hknows (hx.seeds ht)
  case expanded =>
    intro t ht v next hv hstep
    rcases List.mem_cons.mp ht with heq | hold
    · cases heq
      obtain ⟨t, hmem, ht⟩ := hexpanded rfl hv hstep
      exact ⟨t, .inl (hadded ▸ List.mem_append_left rest hmem), ht⟩
    · obtain ⟨t, hknown, ht⟩ := hx.expanded hold hv hstep
      exact ⟨t, hknows hknown, ht⟩
  case visited =>
    intro p hp
    rcases hvisited p hp with hold | ⟨rfl, rfl⟩
    · exact htwin hold
    · exact ⟨s, List.mem_cons_self, rfl⟩
  case duplicate =>
    intro t ht
    rcases List.mem_cons.mp ht with heq | hold
    · cases heq
      exact htwin (hduplicate rfl)
    · obtain ⟨twin, htwin, hpoint⟩ := hx.duplicate hold
      exact ⟨twin, hkept htwin, hpoint⟩
  case throttled =>
    intro t ht
    rcases List.mem_cons.mp ht with heq | hold
    · cases heq
      exact hthrottled rfl
    · exact hx.throttled hold
  case outside =>
    intro t ht
    rcases List.mem_cons.mp ht with heq | hold
    · cases heq
      exact houtside rfl
    · exact hx.outside hold

theorem Covering.expansion (hdecoder : e.decoder.HandsOut graph)
    (hgraph : graph.Fixed (scope.onMemory widths)) (hsolver : e.solver.SoundOver scope)
    (hlimit : e.settings.maxVisits = 0) (hx : e.Covering graph scope widths order history x)
    (htodo : x.todo = s :: rest) (h : e.Expansion s { x with todo := rest } fate added (.ok ()) y)
    (hundefined : y.statistics.undefinedValues = 0) :
    e.Covering graph scope widths order (history.take s fate added) y := by
  have hadded := h.todo
  cases h with
  | duplicate hvisited =>
      exact hx.taken htodo hadded hx.program (by simp) nofun (fun p hp => .inl hp)
        (fun _ => hvisited) nofun nofun
  | outside _ houtside =>
      have hundefined : e.image.isDefined s.pc.instruction = false := by
        simp only [isOutside, Bool.and_eq_true, Bool.not_eq_true'] at houtside
        exact houtside.2
      exact hx.taken htodo hadded hx.program (by simp) nofun (fun p hp => .inl hp) nofun nofun
        fun _ => hundefined
  | throttled _ _ hdenied => simp [admits, hlimit] at hdenied
  | expanded _ _ _ h =>
      cases h with
      | abandoned => cases hundefined
      | @followed _ _ arrows successors _ _ harrows hsteps =>
          obtain ⟨hs, horder⟩ := hx.known (.inl (htodo ▸ List.mem_cons_self))
          obtain ⟨hpart, rfl⟩ := Simulator.arrows_eq_arrowsAt harrows hdecoder hx.program
          obtain ⟨hprogram, hnew, hcovers⟩ := Simulator.stepAll_covers hsolver hgraph hs hsteps
          rw [horder] at hnew hcovers
          refine hx.taken htodo hadded (hprogram ▸ hpart) ?_ ?_ ?_ nofun nofun nofun
          · intro t ht
            exact hnew t (List.mem_reverse.mp ht)
          · intro _ v next hv hstep
            obtain ⟨t, ht, hmatch⟩ := hcovers v next hv hstep
            exact ⟨t, List.mem_reverse.mpr ht, hmatch⟩
          · intro p hp
            rcases List.mem_cons.mp hp with rfl | hold
            · exact .inr ⟨rfl, rfl⟩
            · exact .inl hold

theorem Expansion.undefinedValues_le {result : Except DecodeError Unit}
    (h : e.Expansion s x fate added result y) :
    x.statistics.undefinedValues ≤ y.statistics.undefinedValues := by
  cases h with
  | duplicate => exact le_rfl
  | outside => exact le_rfl
  | throttled => exact le_rfl
  | expanded _ _ _ h =>
      cases h with
      | undecoded => exact le_rfl
      | abandoned => exact Nat.le_succ _
      | followed => exact le_rfl

theorem Covering.push (hx : e.Covering graph scope widths order history x)
    (hs : s.WellFormed scope widths ∧ s.memory.order = order) :
    e.Covering graph scope widths order { history with seeds := s :: history.seeds }
      (x.push s) := by
  have hknows {t : State} (ht : Knows history x t) :
      Knows { history with seeds := s :: history.seeds } (x.push s) t := by
    rcases ht with hwaits | htaken
    · exact .inl (List.mem_cons_of_mem s hwaits)
    · exact .inr htaken
  refine ⟨hx.program, ?_, ?_, ?_, hx.visited, hx.duplicate, hx.throttled, hx.outside⟩
  · rintro t (hwaits | htaken)
    · rcases List.mem_cons.mp hwaits with rfl | hold
      · exact hs
      · exact hx.known (.inl hold)
    · exact hx.known (.inr htaken)
  · intro t ht
    rcases List.mem_cons.mp ht with rfl | hold
    · exact .inl List.mem_cons_self
    · exact hknows (hx.seeds hold)
  · intro t ht v next hv hstep
    obtain ⟨t', hknown, ht'⟩ := hx.expanded ht hv hstep
    exact ⟨t', hknows hknown, ht'⟩

theorem Session.covering (hdecoder : e.decoder.HandsOut graph)
    (hgraph : graph.Fixed (scope.onMemory widths)) (hsolver : e.solver.SoundOver scope)
    (hlimit : e.settings.maxVisits = 0) (h : e.Session history x)
    (hfailures : history.failures = 0) (hundefined : x.statistics.undefinedValues = 0)
    (hseeds : ∀ s ∈ history.seeds, s.WellFormed scope widths ∧ s.memory.order = order) :
    e.Covering graph scope widths order history x := by
  induction h with
  | start =>
      refine ⟨Microcode.partOf_empty, ?_, nofun, nofun, nofun, nofun, nofun, nofun⟩
      rintro s (hwaits | ⟨fate, htaken⟩)
      · cases hwaits
      · cases htaken
  | note _ _ ih =>
      obtain ⟨hprogram, hknown, hseeds, hexpanded, hvisited, hduplicate, hthrottled, houtside⟩ :=
        ih hfailures hundefined hseeds
      exact ⟨hprogram, hknown, hseeds, hexpanded, hvisited, hduplicate, hthrottled, houtside⟩
  | push _ _ ih =>
      obtain ⟨hs, hseeds⟩ := List.forall_mem_cons.mp hseeds
      exact (ih hfailures hundefined hseeds).push hs
  | expand _ htodo hrun ih =>
      have h := Expansion.of_run hrun
      have hx := ih hfailures (Nat.le_zero.mp (hundefined ▸ h.undefinedValues_le)) hseeds
      exact hx.expansion hdecoder hgraph hsolver hlimit htodo h hundefined
  | fail => cases hfailures

end Steps

section Executions

variable {v : Valuation} {place : Location × Memory} {passed : List (Location × Memory)}

/-- When no state waits, an execution from a seed is at a state that was taken from the worklist,
or it passed through a dropped one. -/
theorem Covering.executes (hx : e.Covering graph scope widths order history x)
    (htodo : x.todo = []) (himage : ∀ {l : Location} {node : Node}, graph.node? l = some node →
      e.image.isDefined l.instruction = true)
    {seed : State} (hseed : seed ∈ history.seeds) (hv : v.Satisfies seed.pathCondition)
    (h : graph.Executes order v (seed.concretise v) passed place) :
    (∃ s fate, (s, fate) ∈ history.taken ∧ v.Satisfies s.pathCondition ∧ s.concretise v = place) ∨
      history.Drops v passed := by
  have htaken {s : State} (hs : Knows history x s) : ∃ fate, (s, fate) ∈ history.taken := by
    refine hs.resolve_left ?_
    rw [htodo]
    exact List.not_mem_nil
  induction h with
  | start =>
      obtain ⟨fate, hfate⟩ := htaken (hx.seeds hseed)
      exact .inl ⟨seed, fate, hfate, hv, rfl⟩
  | @step passed place next _ hstep ih =>
      rcases ih with ⟨s, fate, hs, hsatisfies, rfl⟩ | ⟨dropped, hdropped, twin, htwin, hpoint,
        hd, ht, hpassed⟩
      · have hnext {t : State} (ht : (t, .expanded) ∈ history.taken)
            (htv : v.Satisfies t.pathCondition) (hsame : t.concretise v = s.concretise v) :
            ∃ s fate, (s, fate) ∈ history.taken ∧ v.Satisfies s.pathCondition ∧
                s.concretise v = next := by
          obtain ⟨t', hknown, ht'⟩ := hx.expanded ht htv (hsame ▸ hstep)
          obtain ⟨fate, hfate⟩ := htaken hknown
          exact ⟨t', fate, hfate, ht'⟩
        cases fate with
        | expanded => exact .inl (hnext hs hsatisfies rfl)
        | duplicate =>
            obtain ⟨twin, htwin, hpoint⟩ := hx.duplicate hs
            by_cases htwinv : v.Satisfies twin.pathCondition
            · exact .inl (hnext htwin htwinv (State.concretise_eq_of_point hpoint v))
            · exact .inr ⟨s, History.mem_meeting.mpr hs, twin, History.mem_meeting.mpr htwin,
                hpoint, hsatisfies, htwinv, List.mem_cons_self⟩
        | throttled => exact absurd hs hx.throttled
        | outside =>
            -- a location with an arrow has a node, so its instruction is in the image
            obtain ⟨node, hnode⟩ := hstep.exists_node
            cases (hx.outside hs).symm.trans (himage hnode)
      · exact .inr ⟨dropped, hdropped, twin, htwin, hpoint, hd, ht,
          List.mem_cons_of_mem _ hpassed⟩

/-- Let a decoder hand out a graph with fixed targets whose instructions are all in the image, let
the solver be sound, and let visits be unlimited. If the exploration of a seed under no condition
comes to its end and needed no undefined value, then under every valuation each location that an
execution from the seed gets to was expanded, unless this execution passed a state on its way that
was dropped as a duplicate of an expanded state under a path condition that the valuation does not
satisfy. -/
theorem run_covers_executions {vars : String → Nat → Prop} {seed : State} {steps : Nat}
    (hdecoder : e.decoder.HandsOut graph)
    (hgraph : graph.Fixed ((Scope.variables vars).onMemory widths))
    (himage : ∀ {l : Location} {node : Node}, graph.node? l = some node →
      e.image.isDefined l.instruction = true) (hsolver : e.solver.SoundOver (.variables vars))
    (hlimit : e.settings.maxVisits = 0) (hseed : seed.WellFormed (.variables vars) widths)
    (hcondition : seed.pathCondition = .bool true)
    (hrun : (e.run steps).run (({} : Exploration).push seed) = .ok (.ok (), y))
    (hundefined : y.statistics.undefinedValues = 0) :
    ∃ history, e.Session history y ∧ history.seeds = [seed] ∧ history.failures = 0 ∧
      ∀ v passed l m, graph.Executes seed.memory.order v (seed.concretise v) passed (l, m) →
        e.image.isDefined l.instruction = true →
          (∃ s ∈ history.meeting .expanded, s.pc = l) ∨ history.Drops v passed := by
  obtain ⟨history, hsession, hcontinues, htodo, hfailures, -⟩ :=
    (Session.start.push seed).of_run hrun
  have hseeds : history.seeds = [seed] := hcontinues.seeds
  have hcovering : e.Covering graph (.variables vars) widths seed.memory.order history y := by
    refine hsession.covering hdecoder hgraph hsolver hlimit (hfailures rfl) hundefined ?_
    rw [hseeds, List.forall_mem_singleton]
    exact ⟨hseed, rfl⟩
  refine ⟨history, hsession, hseeds, hfailures rfl, fun v passed l m hexecutes hdefined => ?_⟩
  have hv : v.Satisfies seed.pathCondition := hcondition ▸ ⟨_, rfl, rfl⟩
  rcases hcovering.executes htodo himage (hseeds ▸ List.mem_singleton_self seed) hv hexecutes with
    ⟨s, fate, hs, -, hplace⟩ | hdrops
  · left
    obtain ⟨rfl, -⟩ := Prod.mk.inj hplace
    cases fate with
    | expanded => exact ⟨s, History.mem_meeting.mpr hs, rfl⟩
    | duplicate =>
        obtain ⟨twin, htwin, hpoint⟩ := hcovering.duplicate hs
        exact ⟨twin, History.mem_meeting.mpr htwin, congrArg Prod.fst hpoint⟩
    | throttled => exact absurd hs hcovering.throttled
    | outside =>
        rw [hcovering.outside hs] at hdefined
        cases hdefined
  · exact .inr hdrops

/-- Two paths that a branch on `p` divides meet before a second branch on `p`. -/
def rejoining : Microcode :=
  let p : Expr := .var "p" 1
  let skip (source target : UInt64) (guard : Expr) : Arrow :=
    ⟨.boundary source, .static (.boundary target), guard, .skip⟩
  { nodes := (((∅ : Std.ExtTreeMap Location Node).insert (.boundary 19) {}).insert (.boundary 18)
      { arrows := [skip 18 19 p] }).insert (.boundary 17) { arrows := [skip 17 18 (.bool true)] }
      |>.insert
      (.boundary 16) { arrows := [skip 16 17 p, skip 16 18 p.not] } }

def rejoiningExplorer : Explorer :=
  { decoder := .ofGraph ⟨.x86, .little, 32, 32, "eip", ∅⟩ rejoining
    solver := .enumerating
    image :=
      ⟨{ bytes := .ofList ([(16, 0), (17, 0), (18, 0), (19, 0)] : List (UInt64 × UInt8)) }, []⟩
    settings := {} }

/-- The state before the first branch. -/
def rejoiningSeed : State :=
  ⟨.boundary 16, .ofImage rejoiningExplorer.image .little, .bool true⟩

def booleans : Scope :=
  .variables fun _ width => width = 1

theorem rejoining_fixed : rejoining.Fixed (booleans.onMemory fun _ => 1) := by
  have hall : ∀ p ∈ rejoining.nodes.toList, ∀ a ∈ p.2.arrows, a.statement = .skip ∧
      (a.guard = .var "p" 1 ∨ a.guard = (Expr.var "p" 1).not ∨ a.guard = .bool true) ∧
      a.staticTarget?.isSome = true := by
    decide +kernel
  intro l a ha
  obtain ⟨node, hnode, ha⟩ := Microcode.exists_of_mem_arrowsAt ha
  obtain ⟨hstatement, hguard, htarget⟩ :=
    hall (l, node) (Std.ExtTreeMap.mem_toList_iff_getElem?_eq_some.mpr hnode) a ha
  have hp : (Expr.var "p" 1).WellFormed (booleans.onMemory fun _ => 1) := ⟨by decide, rfl⟩
  have hguardWF : a.guard.WellFormed (booleans.onMemory fun _ => 1) ∧ a.guard.width = 1 := by
    rcases hguard with h | h | h
    · rw [h]
      exact ⟨hp, rfl⟩
    · rw [h]
      exact ⟨⟨hp, trivial⟩, rfl⟩
    · rw [h]
      exact ⟨Expr.wellFormed_bool true, rfl⟩
  refine ⟨⟨hguardWF.1, hguardWF.2, ?_⟩, ?_⟩
  · rw [hstatement]
    trivial
  · rw [Arrow.staticTarget?] at htarget
    split at htarget
    case h_1 target h => exact ⟨target, h⟩
    case h_2 => cases htarget

theorem rejoining_defined {l : Location} {node : Node} (h : rejoining.node? l = some node) :
    rejoiningExplorer.image.isDefined l.instruction = true := by
  have hall : ∀ p ∈ rejoining.nodes.toList,
      rejoiningExplorer.image.isDefined p.1.instruction = true := by
    decide +kernel
  exact hall (l, node) (Std.ExtTreeMap.mem_toList_iff_getElem?_eq_some.mpr h)

theorem rejoining_soundOver : rejoiningExplorer.solver.SoundOver booleans := by
  apply Solver.enumerating_soundOver
  intro name width width' hw hw'
  exact Eq.trans hw hw'.symm

theorem rejoiningSeed_wellFormed : rejoiningSeed.WellFormed booleans fun _ => 1 := by
  refine ⟨⟨fun h => ?_, fun h => ?_, fun h => ?_⟩, Expr.wellFormed_bool true, rfl⟩
  · simp [rejoiningSeed, SymbolicMemory.ofImage] at h
  · simp [rejoiningSeed, SymbolicMemory.ofImage] at h
  · simp [rejoiningSeed, rejoiningExplorer, SymbolicMemory.ofImage, Memory.physical?,
      Memory.layers] at h

theorem rejoining_run :
    ∃ y, (rejoiningExplorer.run 8).run (({} : Exploration).push rejoiningSeed) = .ok (.ok (), y) ∧
    y.statistics.undefinedValues = 0 ∧ ∀ history, rejoiningExplorer.Session history y →
    history.failures = 0 →
      ∀ s ∈ history.meeting .expanded, s.pc ≠ .boundary 19 := by
  have hrun : ((rejoiningExplorer.run 8).run (({} : Exploration).push rejoiningSeed) >>= fun p =>
      .ok (p.1, p.2.statistics.undefinedValues, p.2.visited.map Prod.fst)) =
        .ok (.ok (), 0, [.boundary 17, .boundary 18, .boundary 16]) := by
    decide +kernel
  obtain ⟨⟨_, y⟩, hrun, hresult⟩ := exists_of_bind_eq_ok hrun
  rw [Except.ok.injEq, Prod.mk.injEq, Prod.mk.injEq] at hresult
  obtain ⟨rfl, hvalues, hvisited⟩ := hresult
  refine ⟨y, hrun, hvalues, fun history h hfailures s hs hpc => ?_⟩
  -- expanded states are done with, and none that is done with is at that location
  have hmem : s.pc ∈ y.visited.map Prod.fst :=
    List.mem_map_of_mem ((h.settled hfailures).expanded_mem hs)
  rw [hvisited, hpc] at hmem
  revert hmem
  decide

theorem rejoining_executes {v : Valuation} (hv : v.Satisfies (.var "p" 1)) :
    let m := rejoiningSeed.memory.concretise v
    rejoining.Executes .little v (rejoiningSeed.concretise v)
      [(.boundary 18, m), (.boundary 17, m), (.boundary 16, m)] (.boundary 19, m) := by
  obtain ⟨x, hx, htrue⟩ := hv
  cases hx
  intro m
  have hskip (source target : UInt64) (guard : Expr) {g : Word}
      (ha : ⟨.boundary source, .static (.boundary target), guard, .skip⟩ ∈ rejoining.arrowsAt
        (.boundary source))
      (hguard : m.eval .little v guard = .ok g) (htrue : g.isTrue = true) :
      rejoining.Takes .little v (.boundary source, m) (.boundary target, m) :=
    .arrow ha rfl hguard htrue rfl
  have hfirst := hskip 16 17 (.var "p" 1) (by decide +kernel) rfl htrue
  have hsecond := hskip 17 18 (.bool true) (by decide +kernel) rfl rfl
  have hthird := hskip 18 19 (.var "p" 1) (by decide +kernel) rfl htrue
  exact ((Microcode.Executes.start.step hfirst).step hsecond).step hthird

/-- All that the coverage of executions asks for holds of the rejoining paths, but where `p` is
true the execution gets to a location that is not expanded: the state in front of it under `p` was
dropped in favour of the one under the complement of `p`. -/
theorem rejoining_loses_location :
    (rejoiningExplorer.decoder.HandsOut rejoining ∧
      rejoining.Fixed (booleans.onMemory fun _ => 1) ∧
      (∀ {l : Location} {node : Node}, rejoining.node? l = some node →
        rejoiningExplorer.image.isDefined l.instruction = true) ∧
      rejoiningExplorer.solver.SoundOver booleans ∧ rejoiningExplorer.settings.maxVisits = 0 ∧
      rejoiningSeed.WellFormed booleans (fun _ => 1) ∧ rejoiningSeed.pathCondition = .bool true) ∧
    ∃ y, (rejoiningExplorer.run 8).run (({} : Exploration).push rejoiningSeed) = .ok (.ok (), y) ∧
      y.statistics.undefinedValues = 0 ∧
      ∃ v passed l m, rejoining.Executes .little v (rejoiningSeed.concretise v) passed (l, m) ∧
        ∀ history, rejoiningExplorer.Session history y → history.failures = 0 →
          ∀ s ∈ history.meeting .expanded, s.pc ≠ l := by
  obtain ⟨y, hrun, hvalues, hexpanded⟩ := rejoining_run
  exact ⟨⟨Decoder.ofGraph_handsOut _ _, rejoining_fixed, rejoining_defined,
    rejoining_soundOver, rfl, rejoiningSeed_wellFormed, rfl⟩, y, hrun, hvalues,
    ⟨fun _ _ => 1, fun _ => 0, fun _ _ _ => 0⟩, _, .boundary 19, _,
    rejoining_executes ⟨_, rfl, rfl⟩, hexpanded⟩

/-- Where `p` is true, one of the three states that the execution of the rejoining paths passes
was dropped. -/
theorem run_covers_executions_of_rejoining :
    ∃ history y, (rejoiningExplorer.run 8).run (({} : Exploration).push rejoiningSeed) =
      .ok (.ok (), y) ∧
      rejoiningExplorer.Session history y ∧ ∀ v : Valuation, v.Satisfies (.var "p" 1) →
        let m := rejoiningSeed.memory.concretise v
        history.Drops v [(.boundary 18, m), (.boundary 17, m), (.boundary 16, m)] := by
  obtain ⟨y, hrun, hvalues, hexpanded⟩ := rejoining_run
  obtain ⟨history, h, -, hfailures, hcovers⟩ :=
    run_covers_executions (Decoder.ofGraph_handsOut _ rejoining) rejoining_fixed rejoining_defined
      rejoining_soundOver rfl rejoiningSeed_wellFormed rfl hrun hvalues
  refine ⟨history, y, hrun, h, fun v hv => ?_⟩
  refine (hcovers v _ _ _ (rejoining_executes hv) (by decide +kernel)).resolve_left ?_
  rintro ⟨s, hs, hpc⟩
  exact hexpanded history h hfailures s hs hpc

end Executions

end Explorer

end FlowRecovery
