import Mathlib
import FlowRecovery.Simulation.State
import FlowRecovery.Proofs.Memory.Refinement

namespace FlowRecovery

namespace Memory

/-- The address of a cell from the value of its base; the sum wraps at the base's width. -/
def cellAddress (base : Word) (offset : UInt64) : Checked UInt64 := do
  let sum ← Word.ofNat base.width (base.value + offset.toNat)
  return UInt64.ofNat sum.value

/-- The value of an expression on a concrete memory. A choice evaluates the branch it takes. -/
def eval (m : Memory) (order : ByteOrder) (v : Valuation) : Expr → Attempt UndefinedValue Word
  | .const value => return value
  | .var name width => return .ofBits (v.var name width)
  | .reg register => m.readRegister register
  | .mem base offset width => do
    let address ← cellAddress (← m.eval order v base) offset
    m.read address width order
  | .unary op a => do op.apply (← m.eval order v a)
  | .binary op a b => do
    let x ← m.eval order v a
    let y ← m.eval order v b
    op.apply x y
  | .ite condition a b => do
    if (← m.eval order v condition).isTrue then m.eval order v a else m.eval order v b

/-- The memory after a statement. Value and address are evaluated in the memory before it. -/
def exec (m : Memory) (order : ByteOrder) (v : Valuation) :
    Statement → Attempt UndefinedValue Memory
  | .skip => return m
  | .assign (.reg register) value => do m.writeRegister register (← m.eval order v value)
  | .assign (.mem base offset _) value => do
    let stored ← m.eval order v value
    let address ← cellAddress (← m.eval order v base) offset
    m.write address stored order
  | .assign place _ => throw (.fault (.executedPlace place.render))

end Memory

/-- An assignment goes to a register or a cell and keeps its width. -/
def Statement.WellFormed (s : Scope) : Statement → Prop
  | .skip => True
  | .assign place value =>
      Microcode.isPlace place = true ∧ place.WellFormed s ∧ value.WellFormed s ∧
        place.width = value.width

/-- The scope of expressions that are evaluated on a memory: cells, and registers that fit its
registers. -/
def Scope.onMemory (s : Scope) (widths : String → Nat) : Scope :=
  ⟨s.var, Register.Fits widths, True⟩

namespace SymbolicMemory

variable {s : Scope} {widths : String → Nat} {m : SymbolicMemory} {v : Valuation}

theorem concreteAddress_yields {base : Expr} (offset : UInt64) (h : base.WellFormed s) :
    Yields (fun address => Memory.cellAddress (base.value v) offset = .ok address)
      (concreteAddress base offset) := by
  rw [concreteAddress]
  split
  case h_1 x hconst =>
    rw [Expr.const?_eq_some] at hconst
    subst hconst
    have hvalid : Word.ValidWidth x.width := h.1
    simp only [Expr.value, Memory.cellAddress, Word.ofNat_eq hvalid, liftM_ok, ok_bind]
    exact .ok rfl
  case h_2 => exact .inr ⟨_, rfl⟩

/-- What evaluation on a symbolic memory has to find. -/
def Evaluates (s : Scope) (m : SymbolicMemory) (v : Valuation) (e r : Expr) : Prop :=
  r.WellFormed s ∧ r.width = e.width ∧ (m.concretise v).eval m.order v e = .ok (r.value v)

theorem transformM_yields (h : m.WellFormed s widths) {e : Expr}
    (he : e.WellFormed (s.onMemory widths)) :
    Yields (Evaluates s m v e) (e.transformM m.value?) := by
  induction e with
  | const value => exact .ok ⟨he, rfl, rfl⟩
  | var name width => exact .ok ⟨he, rfl, rfl⟩
  | reg register =>
      rw [Expr.transformM, value?, map_eq_pure_bind, bind_assoc]
      refine (readRegister_refines (v := v) h he.2).yields.bind fun r hr => ?_
      exact .ok ⟨hr.1.1, hr.1.2, hr.2⟩
  | mem base offset width ih =>
      obtain ⟨hbase, hvalid, hbytes, -⟩ := he
      rw [Expr.transformM]
      refine (ih hbase).bind fun b hb => ?_
      obtain ⟨hbWF, -, hbValue⟩ := hb
      -- the base is read after its own substitution; unless it simplifies to a constant,
      -- evaluation fails
      obtain ⟨b', hb', hequiv⟩ := Expr.simplify_sound hbWF
      rw [Expr.mkMem_of_bytes b offset hvalid hbytes, liftM_ok, ok_bind, value?, hb',
        liftM_ok, ok_bind, bind_assoc]
      refine (concreteAddress_yields (v := v) offset hequiv.wellFormed).bind
        fun address haddress => ?_
      rw [hequiv.value] at haddress
      rw [map_eq_pure_bind, bind_assoc]
      refine (read_refines (v := v) h.holdsBytes address hvalid hbytes).yields.bind fun r hr => ?_
      refine .ok ⟨hr.1.1, hr.1.2, ?_⟩
      rw [Memory.eval, hbValue, ok_bind, haddress, liftM_ok, ok_bind, hr.2, Option.getD_some]
  | unary op a ih =>
      obtain ⟨ha, hop⟩ := he
      rw [Expr.transformM]
      refine (ih ha).bind fun x hx => ?_
      obtain ⟨hxWF, hxWidth, hxValue⟩ := hx
      have hnode : (Expr.unary op x).WellFormed s := ⟨hxWF, hxWidth ▸ hop⟩
      rw [Expr.mkUnary_of_wellFormed hnode, liftM_ok, ok_bind]
      refine .ok ⟨hnode, ?_, ?_⟩
      · rw [Option.getD_none, Expr.width, Expr.width, hxWidth]
      · have happly := UnaryOp.apply_eq_on (hxWF.canonical_value v)
          (by rw [hxWF.width_value]; exact hnode.2)
        rw [Memory.eval, hxValue, ok_bind, happly]
        rfl
  | binary op a b iha ihb =>
      obtain ⟨ha, hb, hop⟩ := he
      rw [Expr.transformM]
      refine (iha ha).bind fun x hx => (ihb hb).bind fun y hy => ?_
      obtain ⟨hxWF, hxWidth, hxValue⟩ := hx
      obtain ⟨hyWF, hyWidth, hyValue⟩ := hy
      have hnode : (Expr.binary op x y).WellFormed s := ⟨hxWF, hyWF, by rwa [hxWidth, hyWidth]⟩
      rw [Expr.mkBinary_of_wellFormed hnode, liftM_ok, ok_bind]
      refine .ok ⟨hnode, ?_, ?_⟩
      · rw [Option.getD_none, Expr.width_binary, Expr.width_binary, hxWidth, hyWidth]
      · have happly := BinaryOp.apply_eq_on (hxWF.canonical_value v) (hyWF.canonical_value v)
          (by rw [hxWF.width_value, hyWF.width_value]; exact hnode.2.2)
        rw [Memory.eval, hxValue, ok_bind, hyValue, ok_bind, happly]
        rfl
  | ite condition a b ihc iha ihb =>
      obtain ⟨hc, ha, hb, hone, hsame⟩ := he
      rw [Expr.transformM]
      refine (ihc hc).bind fun c hc => (iha ha).bind fun x hx => (ihb hb).bind fun y hy => ?_
      obtain ⟨hcWF, hcWidth, hcValue⟩ := hc
      obtain ⟨hxWF, hxWidth, hxValue⟩ := hx
      obtain ⟨hyWF, hyWidth, hyValue⟩ := hy
      have hnode : (Expr.ite c x y).WellFormed s :=
        ⟨hcWF, hxWF, hyWF, hcWidth.trans hone, by rw [hxWidth, hyWidth, hsame]⟩
      rw [Expr.mkIte_of_wellFormed hnode, liftM_ok, ok_bind]
      refine .ok ⟨hnode, hxWidth, ?_⟩
      rw [Memory.eval, hcValue, ok_bind, hxValue, hyValue, Option.getD_none, Expr.value]
      split <;> rfl

theorem eval_yields (h : m.WellFormed s widths) {e : Expr}
    (he : e.WellFormed (s.onMemory widths)) :
    Yields (Evaluates s m v e) (m.eval e) := by
  rw [eval]
  refine (transformM_yields (v := v) h he).bind fun r hr => ?_
  obtain ⟨hWF, hwidth, hvalue⟩ := hr
  obtain ⟨r', hr', hequiv⟩ := Expr.simplify_sound hWF
  rw [hr', liftM_ok]
  exact .ok ⟨hequiv.wellFormed, hequiv.width.trans hwidth, by rw [hvalue, hequiv.value]⟩

theorem exec_yields (h : m.WellFormed s widths) {statement : Statement}
    (hstatement : statement.WellFormed (s.onMemory widths)) :
    Yields (fun m' => Follows s widths m m' ∧
      (m.concretise v).exec m.order v statement = .ok (m'.concretise v)) (m.exec statement) := by
  cases statement with
  | skip => exact .ok ⟨⟨h, rfl, rfl⟩, rfl⟩
  | assign place value =>
      obtain ⟨hplace, hplaceWF, hvalue, hwidth⟩ := hstatement
      refine (eval_yields (v := v) h hvalue).bind fun x hx => ?_
      obtain ⟨hxWF, hxWidth, hxValue⟩ := hx
      cases place with
      | reg register =>
          have hsize : x.width = register.size := hxWidth.trans hwidth.symm
          refine (writeRegister_refines (v := v) h hplaceWF.2 hxWF hsize).yields.imp fun m' hm' =>
            ⟨hm'.1, ?_⟩
          rw [Memory.exec, hxValue, ok_bind, hm'.2]
      | mem base offset width =>
          obtain ⟨hbase, -, hbytes, -⟩ := hplaceWF
          refine (eval_yields (v := v) h hbase).bind fun b hb => ?_
          obtain ⟨hbWF, -, hbValue⟩ := hb
          refine (concreteAddress_yields (v := v) offset hbWF).bind fun address haddress => ?_
          have hwhole : x.width % 8 = 0 := by
            rw [hxWidth, ← hwidth]
            exact hbytes
          obtain ⟨m', hm', hwrites, hconcrete⟩ :=
            write_refines (v := v) h.holdsBytes address hxWF hwhole
          rw [hm', liftM_ok]
          refine .ok ⟨hwrites.follows h, ?_⟩
          rw [Memory.exec, hxValue, ok_bind, hbValue, ok_bind, haddress, liftM_ok, ok_bind,
            hconcrete, liftM_ok]
      | _ => cases hplace

end SymbolicMemory

end FlowRecovery
