import Mathlib
import FlowRecovery.Proofs.Microcode.Determinism
import FlowRecovery.Proofs.X86.Denotation

/-!
Emitted steps. While an instruction is lowered, the steps that were emitted form a chain of
assignments, and when it is lowered, the arrows of the last step are known. This is so in every
graph. If the steps are executed, they turn one concrete memory into another; if the graph had no
step of the instruction before, the steps are those of the chain.
-/

namespace FlowRecovery

namespace Microcode

variable {mc mc' : Microcode} {l other : Location} {f : Node → Node} {text : String}

theorem arrowsAt_modifyNode : (mc.modifyNode l f).arrowsAt other =
    if l = other then (f ((mc.node? l).getD {})).arrows else mc.arrowsAt other := by
  rw [arrowsAt, node?_modifyNode]
  split
  · rfl
  · rfl

theorem arrowsAt_modifyNode_of_free (h : mc.node? l = none) :
    (mc.modifyNode l f).arrowsAt l = (f {}).arrows := by
  rw [arrowsAt_modifyNode, if_pos rfl, h]
  rfl

theorem arrowsAt_annotate : (mc.annotate l text).arrowsAt other = mc.arrowsAt other := by
  rw [annotate, arrowsAt_modifyNode]
  split
  case isTrue heq =>
    subst heq
    rw [arrowsAt]
    cases mc.node? l <;> rfl
  case isFalse => rfl

theorem contains_annotate : (mc.annotate l text).contains l = true := by
  rw [contains_eq, annotate, node?_modifyNode, if_pos rfl]
  rfl

variable {address : UInt64} {n k : Nat} {statements : List Statement}

theorem arrowsAt_modifyNode_of_lt (hk : k < n) :
    (mc.modifyNode ⟨address, n⟩ f).arrowsAt ⟨address, k⟩ = mc.arrowsAt ⟨address, k⟩ := by
  rw [arrowsAt_modifyNode, if_neg]
  intro heq
  cases heq
  omega

theorem node?_modifyNode_of_lt (hk : n < k) :
    (mc.modifyNode ⟨address, n⟩ f).node? ⟨address, k⟩ = mc.node? ⟨address, k⟩ := by
  rw [node?_modifyNode, if_neg]
  intro heq
  cases heq
  omega

theorem node?_modifyNode_of_ne (hl : l.instruction ≠ address) :
    (mc.modifyNode ⟨address, n⟩ f).node? l = mc.node? l := by
  rw [node?_modifyNode, if_neg fun heq => hl (by rw [← heq])]

/-- A node with one more arrow, which runs a statement and leads to the next step. -/
def stepOn (l : Location) (statement : Statement) (node : Node) : Node :=
  { node with arrows := node.arrows ++
      [⟨l, .static ⟨l.instruction, l.step + 1⟩, .bool true, statement⟩] }

/-- A graph with a chain of statements that starts at a step of an instruction. -/
def chained (address : UInt64) : Microcode → Nat → List Statement → Microcode
  | mc, _, [] => mc
  | mc, n, statement :: rest =>
    chained address (mc.modifyNode ⟨address, n⟩ (stepOn ⟨address, n⟩ statement)) (n + 1) rest

theorem chained_concat (statement : Statement) :
    chained address mc n (statements ++ [statement]) =
      (chained address mc n statements).modifyNode ⟨address, n + statements.length⟩
        (stepOn ⟨address, n + statements.length⟩ statement) := by
  induction statements generalizing mc n with
  | nil => rfl
  | cons first rest ih =>
      rw [List.length_cons, Nat.add_comm rest.length, ← Nat.add_assoc]
      exact ih

theorem node?_chained_of_ne (hl : l.instruction ≠ address) :
    (chained address mc n statements).node? l = mc.node? l := by
  induction statements generalizing mc n with
  | nil => rfl
  | cons statement rest ih => exact ih.trans (node?_modifyNode_of_ne hl)

theorem arrowsAt_chained_of_lt (hk : k < n) :
    (chained address mc n statements).arrowsAt ⟨address, k⟩ = mc.arrowsAt ⟨address, k⟩ := by
  induction statements generalizing mc n with
  | nil => rfl
  | cons statement rest ih =>
      exact (ih (Nat.lt_succ_of_lt hk)).trans (arrowsAt_modifyNode_of_lt hk)

theorem node?_chained_of_le (hk : n + statements.length ≤ k) :
    (chained address mc n statements).node? ⟨address, k⟩ = mc.node? ⟨address, k⟩ := by
  induction statements generalizing mc n with
  | nil => rfl
  | cons statement rest ih =>
      rw [List.length_cons] at hk
      exact (ih (by omega)).trans (node?_modifyNode_of_lt (by omega))

theorem chain_chained (hfree : ∀ k, n ≤ k → mc.node? ⟨address, k⟩ = none) :
    (chained address mc n statements).Chain address n statements := by
  induction statements generalizing mc n with
  | nil => trivial
  | cons statement rest ih =>
      refine ⟨?_, ih fun k hk => ?_⟩
      · refine (arrowsAt_chained_of_lt (Nat.lt_succ_self n)).trans ?_
        rw [arrowsAt_modifyNode_of_free (hfree n le_rfl)]
        rfl
      · exact (node?_modifyNode_of_lt hk).trans (hfree k (Nat.le_of_succ_le hk))

theorem Chain.ne_nil (h : mc.Chain address n statements) (hn : n ≤ k)
    (hk : k < n + statements.length) : mc.arrowsAt ⟨address, k⟩ ≠ [] := by
  induction statements generalizing n with
  | nil => simp at hk; omega
  | cons statement rest ih =>
      rw [List.length_cons] at hk
      rcases Nat.eq_or_lt_of_le hn with rfl | hlt
      · rw [h.1]
        exact List.cons_ne_nil _ _
      · exact ih h.2 hlt (by omega)

theorem Extends.chained {scope : Scope} (h : Extends scope address n mc mc')
    (hstatements : ∀ statement ∈ statements, statement.WellFormed scope) :
    Extends scope address (n + statements.length) mc (chained address mc' n statements) := by
  induction statements generalizing mc' n with
  | nil => exact h
  | cons statement rest ih =>
      rw [List.forall_mem_cons] at hstatements
      rw [List.length_cons, Nat.add_comm rest.length, ← Nat.add_assoc]
      refine ih (h.modifyNode ?_) hstatements.2
      exact .only rfl rfl hstatements.1 (.inl rfl)

end Microcode

namespace X86

section Emissions

variable {α β : Type}

/-- Lowering breaks no contract and does not fail, and what it returns and emits satisfies a
condition. -/
def Emits (x : LowerM α) (e : Emission) (post : α → Emission → Prop) : Prop :=
  ∃ a e', x.run.run e = .ok (.ok a, e') ∧ post a e'

variable {post : α → Emission → Prop} {post' : β → Emission → Prop} {e : Emission}

theorem Emits.pure {a : α} (h : post a e) : Emits (Pure.pure a) e post :=
  ⟨a, e, rfl, h⟩

theorem Emits.bind {x : LowerM α} {f : α → LowerM β} (hx : Emits x e post)
    (hf : ∀ a e', post a e' → Emits (f a) e' post') : Emits (x >>= f) e post' := by
  obtain ⟨a, e', hrun, ha⟩ := hx
  obtain ⟨b, e'', hrest, hb⟩ := hf a e' ha
  refine ⟨b, e'', ?_, hb⟩
  rw [ExceptT.run_bind, StateT.run_bind, hrun]
  exact hrest

theorem Emits.imp {x : LowerM α} (hx : Emits x e post) {weaker : α → Emission → Prop}
    (h : ∀ {a e'}, post a e' → weaker a e') : Emits x e weaker := by
  obtain ⟨a, e', hrun, ha⟩ := hx
  exact ⟨a, e', hrun, h ha⟩

theorem Emits.get {f : Emission → LowerM β} (hf : Emits (f e) e post') :
    Emits (MonadState.get >>= f) e post' :=
  hf

theorem Emits.set {post : PUnit → Emission → Prop} {e' : Emission} (h : post ⟨⟩ e') :
    Emits (MonadStateOf.set e') e post :=
  ⟨⟨⟩, e', rfl, h⟩

theorem Emits.modify {f : PUnit → LowerM β} {change : Emission → Emission}
    (hf : Emits (f ⟨⟩) (change e) post') : Emits (modify change >>= f) e post' :=
  hf

theorem Emits.checked {c : Checked α} {a : α} (hc : c = .ok a) {f : α → LowerM β}
    (hf : Emits (f a) e post') : Emits (liftM c >>= f) e post' := by
  subst hc
  exact hf

theorem Emits.build {order : ByteOrder} {M : Memory → Prop} {w : Nat} {x : BitVec w}
    {c : Checked Expr} (hc : Builds order M x c) {f : Expr → LowerM β}
    (hf : ∀ t, Denotes order M x t → Emits (f t) e post') : Emits (liftM c >>= f) e post' := by
  obtain ⟨t, ht, hdenotes⟩ := hc
  exact .checked ht (hf t hdenotes)

section Operands

variable {i : Instruction} {k : Nat} {o : Operand}

theorem Emits.operand (hk : i.operands[k]? = some o) {f : Operand → LowerM β}
    (hf : Emits (f o) e post') : Emits (Lowering.operand i k >>= f) e post' := by
  rw [Lowering.operand, hk]
  exact hf

theorem Emits.value {order : ByteOrder} {M : Memory → Prop} {w : Nat} {x : BitVec w}
    (hk : i.operands[k]? = some o) (hx : Builds order M x o.value) {f : Expr → LowerM β}
    (hf : ∀ t, Denotes order M x t → Emits (f t) e post') :
    Emits (Lowering.value i k >>= f) e post' := by
  rw [Lowering.value, bind_assoc]
  exact .operand hk (.build hx hf)

theorem Emits.place {place : Expr} (hk : i.operands[k]? = some o)
    (hplace : o.place? = .ok (some place)) {f : Expr → LowerM β} (hf : Emits (f place) e post') :
    Emits (Lowering.place i k >>= f) e post' := by
  rw [Lowering.place, bind_assoc]
  refine .operand hk ?_
  rw [bind_assoc]
  exact .checked hplace hf

end Operands

/-- The greatest number of steps of an instruction. -/
def maxSteps : Nat :=
  7

variable {mc : Microcode} {place value guard other : Expr}

theorem addAssignment_eq {source : Location} {target : Option Location}
    (hisPlace : Microcode.isPlace place = true) (hwidth : place.width = value.width)
    (hstep : source.step + 1 < 0x100000000) :
    mc.addAssignment source place value target =
      .ok (target.getD ⟨source.instruction, source.step + 1⟩, mc.modifyNode source fun node =>
        { node with arrows := node.arrows ++
            [⟨source, .static (target.getD ⟨source.instruction, source.step + 1⟩), .bool true,
              .assign place value⟩] }) := by
  simp [Microcode.addAssignment, Location.advance, hisPlace, hwidth, hstep]

theorem addSkip_eq {source target : Location} (hwidth : guard.width = 1) :
    mc.addSkip source target guard = .ok (mc.modifyNode source fun node =>
      { node with arrows :=
          Microcode.withSkip ⟨source, .static target, guard, .skip⟩ node.arrows }) := by
  simp [Microcode.addSkip, hwidth]

theorem emits_emit {f : Microcode → Location → Checked Microcode} {g : Microcode}
    (h : f e.graph e.here = .ok g) {post : PUnit → Emission → Prop}
    (hpost : post ⟨⟩ { e with graph := g }) : Emits (Lowering.emit f) e post :=
  .get (.checked h (.set hpost))

theorem emits_skips {first second : Location} (hne : first ≠ second) (hguard : guard.width = 1)
    (hother : other.width = 1) :
    Emits (do Lowering.skip first guard; Lowering.skip second other) e fun _ e' =>
      ∃ g, (g {}).arrows = Microcode.branchesTo first second guard other e.here ∧
        e' = ⟨e.graph.modifyNode e.here g, e.here⟩ := by
  have hskip : Emits (Lowering.skip first guard) e fun _ e' => e' = { e with graph := _ } :=
    emits_emit (addSkip_eq hguard) rfl
  refine hskip.bind ?_
  rintro _ _ rfl
  refine emits_emit (addSkip_eq hother) ?_
  dsimp only
  rw [Microcode.modifyNode_modifyNode]
  exact ⟨_, by simp [Microcode.withSkip, Microcode.branchesTo, hne], rfl⟩

variable {address : UInt64} {n : Nat} {statements : List Statement}

/-- A chain of statements was emitted from a step of an instruction on, and the next step is to be
emitted. -/
def Emission.after (mc : Microcode) (address : UInt64) (n : Nat) (statements : List Statement) :
    Emission :=
  ⟨mc.chained address n statements, ⟨address, n + statements.length⟩⟩

theorem step_lt (hn : n < maxSteps) : (Location.mk address n).step + 1 < 0x100000000 :=
  Nat.lt_trans (Nat.succ_lt_succ hn) (by decide)

theorem emits_assign (place value : Expr) (hn : n + statements.length < maxSteps)
    (hisPlace : Microcode.isPlace place = true) (hwidth : place.width = value.width) :
    Emits (Lowering.assign place value) (.after mc address n statements) fun _ e =>
      e = .after mc address n (statements ++ [.assign place value]) := by
  refine .get (.checked (addAssignment_eq hisPlace hwidth (step_lt hn)) (.set ?_))
  rw [Emission.after, Emission.after, Microcode.chained_concat, List.length_append]
  rfl

theorem emits_back (place value : Expr) (target : Location)
    (hn : n + statements.length < maxSteps) (hisPlace : Microcode.isPlace place = true)
    (hwidth : place.width = value.width) :
    Emits (Lowering.emit fun mc here =>
        return (← mc.addAssignment here place value (some target)).2)
      (.after mc address n statements) fun _ e => ∃ g : Node → Node,
        (g {}).arrows = [⟨⟨address, n + statements.length⟩, .static target, .bool true,
          .assign place value⟩] ∧
        e.graph = (mc.chained address n statements).modifyNode
          ⟨address, n + statements.length⟩ g := by
  let g (node : Node) : Node := { node with arrows := node.arrows ++
    [⟨⟨address, n + statements.length⟩, .static target, .bool true, .assign place value⟩] }
  refine emits_emit (g := (mc.chained address n statements).modifyNode _ g) ?_ ⟨g, rfl, rfl⟩
  exact congrArg (fun c => c >>= fun p => pure p.2)
    (addAssignment_eq hisPlace hwidth (step_lt hn))

end Emissions

/-- Where lowering starts: the address of the instruction and the graph, and the memory on which
the steps are executed, if they are. -/
structure Start where
  address : UInt64
  order : ByteOrder
  graph : Microcode
  memory : Memory
  executed : Prop

namespace Start

/-- The memories on which operands have the values that they have at the start. -/
def Data (start : Start) (m : Memory) : Prop :=
  start.executed ∧ SameData start.memory m

/-- The one memory on which a step is executed. -/
def On (start : Start) (m m' : Memory) : Prop :=
  start.executed ∧ m' = m

/-- Statements turn the memory of the start into another one, if they are executed. -/
structure Runs (start : Start) (statements : List Statement) (m : Memory) : Prop where
  wellFormed : ∀ statement ∈ statements, statement.WellFormed scope ∧ statement.Branchless
  exec : start.executed → start.memory.execAll start.order statements = .ok m

end Start

/-- The next step is to be emitted, and the steps before it lead to a memory. -/
def Emission.Ran (start : Start) (n : Nat) (m : Memory) (e : Emission) : Prop :=
  ∃ statements, statements.length = n ∧ start.Runs statements m ∧
    e = .after start.graph start.address 0 statements

/-- All steps were emitted, the arrows of the last one are known, and those before it lead to a
memory. -/
def Emission.Ended (start : Start) (n : Nat) (m : Memory) (last : Location → List Arrow)
    (e : Emission) : Prop :=
  ∃ statements g, statements.length = n ∧ start.Runs statements m ∧
    (g {}).arrows = last ⟨start.address, n⟩ ∧
    e.graph = (start.graph.chained start.address 0 statements).modifyNode ⟨start.address, n⟩ g

section Chains

variable {start : Start} {n w : Nat} {m m' : Memory} {e : Emission} {place value guard : Expr}
  {last : Location → List Arrow}

theorem Start.uniform_data (start : Start) : Uniform start.Data :=
  fun _ _ h h' => h.2.symm.trans h'.2

theorem Start.builds_value (start : Start) {size : Size} {o : Operand} (ho : o.Has size)
    {x : BitVec size.bits} (hx : o.read start.memory start.order = .ok (.ofBits x)) :
    Builds start.order start.Data x o.value :=
  Operand.builds_value start.uniform_data ho fun hm =>
    (Operand.read_congr_of_sameData hm.2).trans hx

theorem Start.ran (start : Start) :
    Emission.Ran start 0 start.memory ⟨start.graph, .boundary start.address⟩ :=
  ⟨[], rfl, ⟨by simp, fun _ => rfl⟩, rfl⟩

theorem Emission.Ran.assign (h : e.Ran start n m) (hn : n < maxSteps) (hplace : Term w place)
    (hisPlace : Microcode.isPlace place = true) (hvalue : Term w value)
    (hbranchless : place.Branchless ∧ value.Branchless)
    (hexec : start.executed → m.exec start.order default (.assign place value) = .ok m') :
    Emits (Lowering.assign place value) e fun _ => Emission.Ran start (n + 1) m' := by
  obtain ⟨statements, rfl, hruns, rfl⟩ := h
  have hwidth : place.width = value.width := hplace.width.trans hvalue.width.symm
  refine (emits_assign place value (by rwa [Nat.zero_add]) hisPlace hwidth).imp ?_
  rintro _ _ rfl
  refine ⟨_, List.length_append, ⟨?_, fun hexecuted => ?_⟩, rfl⟩
  · rw [List.forall_mem_append, List.forall_mem_singleton]
    exact ⟨hruns.wellFormed, ⟨hisPlace, hplace.wellFormed, hvalue.wellFormed, hwidth⟩,
      hbranchless⟩
  · exact Memory.execAll_concat (hruns.exec hexecuted) (hexec hexecuted)

theorem Emission.Ran.setRegister (h : e.Ran start n m) (hn : n < maxSteps) {r : Gpr}
    (hr : r.size = .dword) {x : BitVec 32} (hvalue : Denotes start.order (start.On m) x value) :
    Emits (Lowering.assign r.expr value) e fun _ =>
      Emission.Ran start (n + 1) (m.setPhysical r.name (.ofBits x)) :=
  h.assign hn (Gpr.term_dword hr) rfl hvalue.term ⟨trivial, hvalue.branchless⟩ fun hexecuted =>
    hvalue.exec_register hr ⟨hexecuted, rfl⟩

theorem Emission.Ran.emit (h : e.Ran start n m) {f : Microcode → Location → Checked Microcode}
    {g : Node → Node}
    (hf : f e.graph ⟨start.address, n⟩ = .ok (e.graph.modifyNode ⟨start.address, n⟩ g))
    (hg : (g {}).arrows = last ⟨start.address, n⟩) :
    Emits (Lowering.emit f) e fun _ => Emission.Ended start n m last := by
  obtain ⟨statements, rfl, hruns, rfl⟩ := h
  rw [← Nat.zero_add statements.length] at hf hg ⊢
  exact emits_emit hf ⟨statements, g, (Nat.zero_add _).symm, hruns, hg, rfl⟩

theorem Emission.Ran.goto (h : e.Ran start n m) (target : Location) :
    Emits (Lowering.goto target) e fun _ =>
      Emission.Ended start n m (Microcode.leadsTo target) :=
  h.emit (addSkip_eq rfl) (by simp [Microcode.withSkip, Microcode.leadsTo])

theorem Emission.Ran.jump (h : e.Ran start n m) (target : Expr) :
    Emits (Lowering.jump target) e fun _ =>
      Emission.Ended start n m (Microcode.jumpsTo target) :=
  h.emit rfl rfl

theorem Emission.Ran.skips (h : e.Ran start n m) {target next : Location} (hne : target ≠ next)
    {other : Expr} (hguard : guard.width = 1) (hother : other.width = 1) :
    Emits (do Lowering.skip target guard; Lowering.skip next other) e fun _ =>
      Emission.Ended start n m (Microcode.branchesTo target next guard other) := by
  obtain ⟨statements, rfl, hruns, rfl⟩ := h
  refine (emits_skips hne hguard hother).imp ?_
  rintro _ _ ⟨g, hg, rfl⟩
  rw [Emission.after, Nat.zero_add] at hg
  refine ⟨statements, g, rfl, hruns, hg, ?_⟩
  rw [Emission.after, Nat.zero_add]

namespace Emission.Ended

variable (h : e.Ended start n m last)
include h

theorem other {l : Location} (hl : l.instruction ≠ start.address) :
    e.graph.node? l = start.graph.node? l := by
  obtain ⟨statements, g, -, -, -, hgraph⟩ := h
  rw [hgraph, Microcode.node?_modifyNode_of_ne hl, Microcode.node?_chained_of_ne hl]

variable (hfree : ∀ k, start.graph.node? ⟨start.address, k⟩ = none)
include hfree

theorem steps : ∃ statements, statements.length = n ∧ start.Runs statements m ∧
    e.graph.Chain start.address 0 statements ∧
    e.graph.arrowsAt ⟨start.address, n⟩ = last ⟨start.address, n⟩ := by
  obtain ⟨statements, g, rfl, hruns, hg, hgraph⟩ := h
  refine ⟨statements, rfl, hruns, ?_, ?_⟩
  · rw [hgraph]
    refine (Microcode.chain_chained fun k _ => hfree k).congr fun k hk => ?_
    rw [Nat.zero_add] at hk
    exact Microcode.arrowsAt_modifyNode_of_lt hk
  · rw [hgraph, Microcode.arrowsAt_modifyNode_of_free, hg]
    exact (Microcode.node?_chained_of_le (Nat.zero_add _).le).trans (hfree _)

theorem extends_graph
    (hlast : Deterministic scope ⟨start.address, n⟩ (last ⟨start.address, n⟩)) :
    Microcode.Extends scope start.address (n + 1) start.graph e.graph := by
  obtain ⟨statements, g, rfl, hruns, hg, hgraph⟩ := h
  rw [← hg] at hlast
  have hstart : Microcode.Extends scope start.address 0 start.graph start.graph :=
    Microcode.extends_zero hfree
  have hchain := hstart.chained fun statement hstatement =>
    (hruns.wellFormed statement hstatement).1
  rw [Nat.zero_add] at hchain
  rw [hgraph]
  exact hchain.modifyNode hlast

end Emission.Ended

end Chains

end X86

end FlowRecovery
