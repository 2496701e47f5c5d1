import Mathlib
import FlowRecovery.Proofs.Simulation.Loop
import FlowRecovery.Proofs.X86.Emission

namespace FlowRecovery.X86

/-- Where a string instruction takes its bytes from: cells from an address on, or the
accumulator. -/
inductive StringSource where
  | cells (start : BitVec 32)
  | accumulator (fill : UInt8)

def oneMore (r : Gpr) : Expr :=
  .binary .add r.expr (.const (.ofBits 1#32))

def oneLess (r : Gpr) : Expr :=
  .binary .sub r.expr (.const (.ofBits 1#32))

def countedDown : Expr :=
  .binary .eq Gpr.ecx.expr (.const (.ofBits 0#32))

theorem denotes_oneMore (order : ByteOrder) {r : Gpr} (hr : r.size = .dword) (x : BitVec 32) :
    Denotes order (fun m => m.readRegister r.register = .ok (.ofBits x)) (x + 1#32) (oneMore r) :=
  (Gpr.denotes_dword hr id).node (denotes_const (by decide) 1#32) rfl rfl

theorem denotes_oneLess (order : ByteOrder) {r : Gpr} (hr : r.size = .dword) (x : BitVec 32) :
    Denotes order (fun m => m.readRegister r.register = .ok (.ofBits x)) (x - 1#32) (oneLess r) :=
  (Gpr.denotes_dword hr id).node (denotes_const (by decide) 1#32) rfl rfl

theorem denotes_countedDown (order : ByteOrder) (x : BitVec 32) :
    Denotes order (fun m => m.readRegister Gpr.ecx.register = .ok (.ofBits x))
      (BitVec.ofBool (x == 0#32)) countedDown :=
  (Gpr.denotes_dword rfl id).node (denotes_const (by decide) 0#32) rfl rfl

namespace StringSource

/-- The string instruction that takes its bytes from a source. -/
def mnemonic : StringSource → Mnemonic
  | cells _ => .movsb
  | accumulator _ => .stosb

/-- Whether the bytes are loaded from memory. -/
def loads : StringSource → Bool
  | cells _ => true
  | accumulator _ => false

/-- The expression of the next byte. -/
def value : StringSource → Expr
  | cells _ => .mem Gpr.esi.expr 0 8
  | accumulator _ => Gpr.al.expr

/-- The statements that go on to the next byte of a source. -/
def steps : StringSource → List Statement
  | cells _ => [.assign Gpr.esi.expr (oneMore .esi)]
  | accumulator _ => []

/-- The statements that move one byte. -/
def body (source : StringSource) : List Statement :=
  .assign (.mem Gpr.edi.expr 0 8) source.value ::
    (source.steps ++ [.assign Gpr.edi.expr (oneMore .edi)])

/-- The loop of a repeated string instruction. -/
def loop (source : StringSource) (next : Location) : Loop :=
  ⟨next, countedDown, countedDown.not, source.body, .assign Gpr.ecx.expr (oneLess .ecx)⟩

theorem length_body_lt (source : StringSource) : 1 + source.body.length < maxSteps := by
  cases source with
  | cells _ => exact (by decide : 4 < maxSteps)
  | accumulator _ => exact (by decide : 3 < maxSteps)

theorem term_value (source : StringSource) : Term 8 source.value ∧ source.value.Branchless := by
  cases source with
  | cells start => exact ⟨⟨⟨Gpr.esi.term.wellFormed, by decide, rfl, trivial⟩, rfl⟩, trivial⟩
  | accumulator fill => exact ⟨Gpr.al.term, trivial⟩

theorem wellFormed_loop (source : StringSource) (next : Location) :
    (source.loop next).WellFormed scope := by
  have htest := denotes_countedDown .little 0
  have hcell : Term 8 (.mem Gpr.edi.expr 0 8) :=
    ⟨⟨Gpr.edi.term.wellFormed, by decide, rfl, trivial⟩, rfl⟩
  have hassign {w : Nat} {place value : Expr} (hplace : Term w place) (hvalue : Term w value)
      (hisPlace : Microcode.isPlace place = true)
      (hbranchless : place.Branchless ∧ value.Branchless) :
      (Statement.assign place value).WellFormed scope ∧
        (Statement.assign place value).Branchless :=
    ⟨⟨hisPlace, hplace.wellFormed, hvalue.wellFormed, hplace.width.trans hvalue.width.symm⟩,
      hbranchless⟩
  have hmore (r : Gpr) (hr : r.size = .dword) :=
    hassign (Gpr.term_dword hr) (denotes_oneMore .little hr 0).term rfl
      ⟨trivial, trivial, trivial⟩
  obtain ⟨hvalue, hbranchless⟩ := source.term_value
  constructor
  · exact ⟨htest.term.wellFormed, htest.branchless⟩
  · exact ⟨htest.not.term.wellFormed, htest.not.branchless⟩
  · refine List.forall_mem_cons.mpr ⟨hassign hcell hvalue rfl ⟨trivial, hbranchless⟩, ?_⟩
    refine List.forall_mem_append.mpr ⟨?_, List.forall_mem_singleton.mpr (hmore .edi rfl)⟩
    cases source with
    | cells start => exact List.forall_mem_singleton.mpr (hmore .esi rfl)
    | accumulator fill => exact List.forall_mem_nil _
  · exact hassign Gpr.ecx.term (denotes_oneLess .little rfl 0).term rfl
      ⟨trivial, trivial, trivial⟩

end StringSource

/-- The steps of a loop were emitted: the test at the boundary, the chain of its body, and the
step that leads back. -/
def Emission.Loops (address : UInt64) (mc : Microcode) (loop : Loop) (e : Emission) : Prop :=
  ∃ test back : Node → Node,
    (test {}).arrows = Microcode.branchesTo loop.next ⟨address, 1⟩ loop.finished loop.unfinished
      (.boundary address) ∧
    (back {}).arrows = [⟨⟨address, 1 + loop.body.length⟩, .static (.boundary address), .bool true,
      loop.last⟩] ∧
    e.graph = ((mc.modifyNode (.boundary address) test).chained address 1 loop.body).modifyNode
      ⟨address, 1 + loop.body.length⟩ back

section Emission

variable {address : UInt64} {mc : Microcode} {e : Emission} {i : Instruction} {next : Location}

namespace Emission.Loops

variable {loop : Loop} (h : e.Loops address mc loop)
include h

theorem other {l : Location} (hl : l.instruction ≠ address) : e.graph.node? l = mc.node? l := by
  obtain ⟨test, back, -, -, hgraph⟩ := h
  rw [hgraph, Microcode.node?_modifyNode_of_ne hl, Microcode.node?_chained_of_ne hl]
  exact Microcode.node?_modifyNode_of_ne hl

variable (hfree : ∀ k, mc.node? ⟨address, k⟩ = none)
include hfree

theorem steps : e.graph.arrowsAt (.boundary address) =
      Microcode.branchesTo loop.next ⟨address, 1⟩ loop.finished loop.unfinished
        (.boundary address) ∧
    e.graph.Chain address 1 loop.body ∧
    e.graph.arrowsAt ⟨address, 1 + loop.body.length⟩ =
      [⟨⟨address, 1 + loop.body.length⟩, .static (.boundary address), .bool true,
        loop.last⟩] := by
  obtain ⟨test, back, htest, hback, hgraph⟩ := h
  have hafter (k : Nat) (hk : 1 ≤ k) :
      (mc.modifyNode (.boundary address) test).node? ⟨address, k⟩ = none :=
    (Microcode.node?_modifyNode_of_lt hk).trans (hfree k)
  rw [hgraph]
  refine ⟨?_, ?_, ?_⟩
  · refine (Microcode.arrowsAt_modifyNode_of_lt (by omega)).trans ?_
    refine (Microcode.arrowsAt_chained_of_lt Nat.one_pos).trans ?_
    exact (Microcode.arrowsAt_modifyNode_of_free (hfree 0)).trans htest
  · exact (Microcode.chain_chained hafter).congr fun k hk =>
      Microcode.arrowsAt_modifyNode_of_lt hk
  · refine (Microcode.arrowsAt_modifyNode_of_free ?_).trans hback
    exact (Microcode.node?_chained_of_le le_rfl).trans (hafter _ (Nat.le_add_right 1 _))

theorem extends_graph (hWF : loop.WellFormed scope) (hwidth : loop.finished.width = 1)
    (hunfinished : loop.unfinished = loop.finished.not) (hnext : loop.next.isBoundary = true) :
    Microcode.Extends scope address (1 + loop.body.length + 1) mc e.graph := by
  obtain ⟨test, back, htest, hback, hgraph⟩ := h
  -- the two ways on differ, so their arrows are not merged
  have hne : loop.next ≠ ⟨address, 1⟩ := by
    intro heq
    rw [heq] at hnext
    cases hnext
  have hbranch : Deterministic scope ⟨address, 0⟩ (test {}).arrows := by
    rw [htest]
    exact .branch hne hWF.finished.1 hwidth (.inl hunfinished) (.inr hnext) (.inl rfl)
  have hlast : Deterministic scope ⟨address, 1 + loop.body.length⟩ (back {}).arrows := by
    rw [hback]
    exact .only rfl rfl hWF.last.1 (.inr rfl)
  rw [hgraph]
  refine Microcode.Extends.modifyNode (.chained ?_ fun statement hs => (hWF.body statement hs).1)
    hlast
  exact (Microcode.extends_zero hfree).modifyNode hbranch

end Emission.Loops

theorem StringSource.emits_step (source : StringSource) {n : Nat} (hn : n + 3 < maxSteps) :
    Emits (Lowering.stringStep source.loads) (.after mc address n []) fun _ e =>
      e = .after mc address n source.body := by
  have hone : Expr.constant 32 1 = .ok (.const (.ofBits 1#32)) := rfl
  have hesi : Expr.mkBinary .add Gpr.esi.expr (.const (.ofBits 1#32)) = .ok (oneMore .esi) := rfl
  have hedi : Expr.mkBinary .add Gpr.edi.expr (.const (.ofBits 1#32)) = .ok (oneMore .edi) := rfl
  have hcell (r : Gpr) : Expr.mkMem r.expr 0 8 = .ok (.mem r.expr 0 8) :=
    Expr.mkMem_of_bytes _ 0 (by decide) rfl
  have hassign (place value : Expr) {statements : List Statement}
      (hlength : statements.length ≤ 2) (hisPlace : Microcode.isPlace place = true)
      (hwidth : place.width = value.width) :
      Emits (Lowering.assign place value) (.after mc address n statements) fun _ e =>
        e = .after mc address n (statements ++ [.assign place value]) :=
    emits_assign place value (by omega) hisPlace hwidth
  refine .checked hone ?_
  cases source with
  | cells start =>
      simp only [loads, if_true]
      refine .checked (hcell .esi) (.checked (hcell .edi) ?_)
      refine (hassign (.mem Gpr.edi.expr 0 8) (.mem Gpr.esi.expr 0 8) (by decide) rfl rfl).bind ?_
      rintro _ _ rfl
      refine .checked hesi ((hassign Gpr.esi.expr (oneMore .esi) (by decide) rfl rfl).bind ?_)
      rintro _ _ rfl
      exact .checked hedi (hassign Gpr.edi.expr (oneMore .edi) (by decide) rfl rfl)
  | accumulator fill =>
      simp only [loads, Bool.false_eq_true, if_false, pure_bind]
      refine .checked (hcell .edi) ?_
      refine (hassign (.mem Gpr.edi.expr 0 8) Gpr.al.expr (by decide) rfl rfl).bind ?_
      rintro _ _ rfl
      exact .checked hedi (hassign Gpr.edi.expr (oneMore .edi) (by decide) rfl rfl)

theorem StringSource.emits_once {start : Start} {m : Memory} (source : StringSource)
    (honce : i.repetition.isNone = true) (h : e.Ran start 0 start.memory)
    (hexec : start.executed → start.memory.execAll start.order source.body = .ok m) :
    Emits (Lowering.string i next source.loads) e fun _ =>
      Emission.Ended start source.body.length m (Microcode.leadsTo next) := by
  obtain ⟨statements, hlength, -, rfl⟩ := h
  obtain rfl := List.length_eq_zero_iff.mp hlength
  rw [Lowering.string, if_pos honce]
  refine (source.emits_step (by decide)).bind ?_
  rintro _ _ rfl
  refine Emission.Ran.goto ⟨source.body, rfl, ⟨?_, hexec⟩, rfl⟩ next
  exact (source.wellFormed_loop next).body

theorem StringSource.emits_loop (source : StringSource) (hrepeated : ¬ i.repetition.isNone = true)
    (hnext : next.isBoundary = true) (mc : Microcode) :
    Emits (Lowering.string i next source.loads) ⟨mc, .boundary i.address⟩ fun _ =>
      Emission.Loops i.address mc (source.loop next) := by
  have hzero : Expr.constant 32 0 = .ok (.const (.ofBits 0#32)) := rfl
  have hone : Expr.constant 32 1 = .ok (.const (.ofBits 1#32)) := rfl
  have htest : Expr.mkBinary .eq Gpr.ecx.expr (.const (.ofBits 0#32)) = .ok countedDown := rfl
  have hless : Expr.mkBinary .sub Gpr.ecx.expr (.const (.ofBits 1#32)) = .ok (oneLess .ecx) := rfl
  have hadvance : (Location.boundary i.address).advance 1 = .ok ⟨i.address, 1⟩ := rfl
  have hne : next ≠ ⟨i.address, 1⟩ := by
    rintro rfl
    cases hnext
  rw [Lowering.string, if_neg hrepeated]
  refine .checked hzero (.checked htest (.get (.checked hadvance ?_)))
  rw [← bind_assoc]
  refine (emits_skips hne rfl rfl).bind ?_
  rintro _ _ ⟨test, hbranch, rfl⟩
  have hbody : Emits (Lowering.stringStep source.loads)
      ⟨mc.modifyNode (.boundary i.address) test, ⟨i.address, 1⟩⟩ fun _ e =>
        e = .after (mc.modifyNode (.boundary i.address) test) i.address 1 source.body :=
    source.emits_step (by decide)
  refine .modify (hbody.bind ?_)
  rintro _ _ rfl
  -- counting down leads back to the boundary, where the next iteration is decided
  refine .checked hone (.checked hless ?_)
  refine (emits_back Gpr.ecx.expr (oneLess .ecx) (.boundary i.address) source.length_body_lt rfl
    rfl).imp ?_
  rintro _ _ ⟨back, hback, hgraph⟩
  exact ⟨test, back, hbranch, hback, hgraph⟩

end Emission

end FlowRecovery.X86
