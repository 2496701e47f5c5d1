import Mathlib
import FlowRecovery.Expr.Basic
import FlowRecovery.Proofs.Expr.Operator

namespace FlowRecovery

/-- The variables and registers that may occur in an expression, and whether memory cells may. -/
structure Scope where
  var : String → Nat → Prop
  reg : Register → Prop
  cell : Prop

def Scope.all : Scope :=
  ⟨fun _ _ => True, fun _ => True, True⟩

instance (name : String) (width : Nat) : Decidable (Scope.all.var name width) :=
  inferInstanceAs (Decidable True)

instance (register : Register) : Decidable (Scope.all.reg register) :=
  inferInstanceAs (Decidable True)

instance : Decidable Scope.all.cell :=
  inferInstanceAs (Decidable True)

namespace Expr

variable {s : Scope}

theorem width_binary (op : BinaryOp) (a b : Expr) :
    (binary op a b).width = op.resultWidth a.width b.width := by
  cases op <;> rfl

/-- Constants are canonical, leaves are in scope and have valid widths, and the operands of each
node fit together. -/
def WellFormed (s : Scope) : Expr → Prop
  | const value => value.Canonical
  | var name width => Word.ValidWidth width ∧ s.var name width
  | reg register => Word.ValidWidth register.size ∧ s.reg register
  | mem address _ width => address.WellFormed s ∧ Word.ValidWidth width ∧ width % 8 = 0 ∧ s.cell
  | unary op a => a.WellFormed s ∧ op.Admits a.width
  | binary op a b => a.WellFormed s ∧ b.WellFormed s ∧ op.Admits a.width b.width
  | ite condition a b =>
    condition.WellFormed s ∧ a.WellFormed s ∧ b.WellFormed s ∧ condition.width = 1 ∧
      a.width = b.width

/-- Whether an expression is well formed can be computed for a scope that can. -/
def decidableWellFormed (s : Scope) [∀ name width, Decidable (s.var name width)]
    [∀ register, Decidable (s.reg register)] [Decidable s.cell] :
    (e : Expr) → Decidable (e.WellFormed s)
  | const value => inferInstanceAs (Decidable value.Canonical)
  | var _ _ => inferInstanceAs (Decidable (_ ∧ _))
  | reg _ => inferInstanceAs (Decidable (_ ∧ _))
  | mem address _ _ =>
    have := decidableWellFormed s address
    inferInstanceAs (Decidable (_ ∧ _ ∧ _ ∧ _))
  | unary _ a =>
    have := decidableWellFormed s a
    inferInstanceAs (Decidable (_ ∧ _))
  | binary _ a b =>
    have := decidableWellFormed s a
    have := decidableWellFormed s b
    inferInstanceAs (Decidable (_ ∧ _ ∧ _))
  | ite condition a b =>
    have := decidableWellFormed s condition
    have := decidableWellFormed s a
    have := decidableWellFormed s b
    inferInstanceAs (Decidable (_ ∧ _ ∧ _ ∧ _ ∧ _))

instance (s : Scope) [∀ name width, Decidable (s.var name width)]
    [∀ register, Decidable (s.reg register)] [Decidable s.cell] : DecidablePred (WellFormed s) :=
  decidableWellFormed s

theorem WellFormed.validWidth {e : Expr} (h : e.WellFormed s) : Word.ValidWidth e.width := by
  induction e with
  | const value => exact h.1
  | var name width => exact h.1
  | reg register => exact h.1
  | mem address offset width => exact h.2.1
  | unary op a ih => exact h.2.validWidth (ih h.1)
  | binary op a b iha _ =>
      rw [width_binary]
      exact h.2.2.validWidth (iha h.1)
  | ite condition a b _ iha _ => exact iha h.2.1

theorem mkMem_of_bytes (address : Expr) (offset : UInt64) {width : Nat}
    (hvalid : Word.ValidWidth width) (hbytes : width % 8 = 0) :
    mkMem address offset width = .ok (mem address offset width) := by
  have hpos : 0 < width := hvalid.1
  simp [mkMem, hpos, hbytes]

theorem mkUnary_of_wellFormed {op : UnaryOp} {a : Expr} (h : (unary op a).WellFormed s) :
    mkUnary op a = .ok (unary op a) := by
  obtain ⟨ha, hop⟩ := h
  have hw := ha.validWidth.2
  cases op with
  | not => rfl
  | neg => rfl
  | extract offset size =>
      obtain ⟨hpos, hle⟩ := hop
      simp [mkUnary, hpos, hle, addWidths_of_lt (show offset + size < 0x100000000 by omega)]
  | zeroExtend target => simp [mkUnary, hop.1, hop.2]
  | signExtend target => simp [mkUnary, hop.1, hop.2]

theorem mkBinary_of_wellFormed {op : BinaryOp} {a b : Expr} (h : (binary op a b).WellFormed s) :
    mkBinary op a b = .ok (binary op a b) := by
  obtain ⟨-, -, hop⟩ := h
  cases op with
  | concat =>
      have hle : a.width + b.width ≤ 64 := hop
      simp [mkBinary, hle, addWidths_of_lt (show a.width + b.width < 0x100000000 by omega)]
  | _ =>
      have heq : a.width = b.width := hop
      simp [mkBinary, heq]

theorem mkIte_of_wellFormed {condition a b : Expr} (h : (ite condition a b).WellFormed s) :
    mkIte condition a b = .ok (ite condition a b) := by
  obtain ⟨-, -, -, hc, hab⟩ := h
  simp [mkIte, hc, hab]

/-- What the checked constructors build from leaves of valid widths. -/
inductive Built (s : Scope) : Expr → Prop
  | const {value : Word} (h : value.Canonical) : Built s (const value)
  | var {name : String} {width : Nat} (hw : Word.ValidWidth width) (h : s.var name width) :
      Built s (var name width)
  | reg {register : Register} (hw : Word.ValidWidth register.size) (h : s.reg register) :
      Built s (reg register)
  | mem {address e : Expr} {offset : UInt64} {width : Nat} (ha : Built s address)
      (hw : Word.ValidWidth width) (hcell : s.cell) (h : mkMem address offset width = .ok e) :
      Built s e
  | unary {op : UnaryOp} {a e : Expr} (ha : Built s a) (h : mkUnary op a = .ok e) : Built s e
  | binary {op : BinaryOp} {a b e : Expr} (ha : Built s a) (hb : Built s b)
      (h : mkBinary op a b = .ok e) : Built s e
  | ite {condition a b e : Expr} (hc : Built s condition) (ha : Built s a) (hb : Built s b)
      (h : mkIte condition a b = .ok e) : Built s e

theorem admits_of_mkUnary {op : UnaryOp} {a e : Expr} (h : mkUnary op a = .ok e) :
    op.Admits a.width ∧ e = unary op a := by
  cases op with
  | not | neg =>
      cases h
      exact ⟨trivial, rfl⟩
  | extract offset size =>
      obtain ⟨_, hpos, h⟩ := exists_of_bind_eq_ok h
      obtain ⟨sum, hsum, h⟩ := exists_of_bind_eq_ok h
      obtain ⟨_, hle, h⟩ := exists_of_bind_eq_ok h
      cases h
      obtain rfl := eq_add_of_addWidths hsum
      exact ⟨⟨of_require_eq_ok hpos, of_require_eq_ok hle⟩, rfl⟩
  | zeroExtend width | signExtend width =>
      obtain ⟨_, hrange, h⟩ := exists_of_bind_eq_ok h
      cases h
      exact ⟨of_require_eq_ok hrange, rfl⟩

theorem admits_of_mkBinary {op : BinaryOp} {a b e : Expr} (h : mkBinary op a b = .ok e) :
    op.Admits a.width b.width ∧ e = binary op a b := by
  cases op with
  | concat =>
      obtain ⟨sum, hsum, h⟩ := exists_of_bind_eq_ok h
      obtain ⟨_, hle, h⟩ := exists_of_bind_eq_ok h
      cases h
      obtain rfl := eq_add_of_addWidths hsum
      exact ⟨of_require_eq_ok hle, rfl⟩
  | _ =>
      obtain ⟨_, hsame, h⟩ := exists_of_bind_eq_ok h
      cases h
      exact ⟨of_require_eq_ok hsame, rfl⟩

theorem built_iff_wellFormed {e : Expr} : e.Built s ↔ e.WellFormed s := by
  constructor
  · intro h
    induction h with
    | const h => exact h
    | var hw h => exact ⟨hw, h⟩
    | reg hw h => exact ⟨hw, h⟩
    | mem _ hw hcell h iha =>
        obtain ⟨_, hbytes, h⟩ := exists_of_bind_eq_ok h
        cases h
        exact ⟨iha, hw, (of_require_eq_ok hbytes).2, hcell⟩
    | unary _ h iha =>
        obtain ⟨hop, rfl⟩ := admits_of_mkUnary h
        exact ⟨iha, hop⟩
    | binary _ _ h iha ihb =>
        obtain ⟨hop, rfl⟩ := admits_of_mkBinary h
        exact ⟨iha, ihb, hop⟩
    | ite _ _ _ h ihc iha ihb =>
        obtain ⟨_, hone, h⟩ := exists_of_bind_eq_ok h
        obtain ⟨_, hsame, h⟩ := exists_of_bind_eq_ok h
        cases h
        exact ⟨ihc, iha, ihb, of_require_eq_ok hone, of_require_eq_ok hsame⟩
  · intro h
    induction e with
    | const value => exact .const h
    | var name width => exact .var h.1 h.2
    | reg register => exact .reg h.1 h.2
    | mem address offset width ih =>
        exact .mem (ih h.1) h.2.1 h.2.2.2 (mkMem_of_bytes _ _ h.2.1 h.2.2.1)
    | unary op a ih => exact .unary (ih h.1) (mkUnary_of_wellFormed h)
    | binary op a b iha ihb => exact .binary (iha h.1) (ihb h.2.1) (mkBinary_of_wellFormed h)
    | ite condition a b ihc iha ihb =>
        exact .ite (ihc h.1) (iha h.2.1) (ihb h.2.2.1) (mkIte_of_wellFormed h)

theorem wellFormed_bool (value : Bool) : (bool value).WellFormed s := by
  rw [bool, WellFormed, Word.ofBool_eq]
  exact Word.canonical_ofBits (by decide) _

end Expr

end FlowRecovery
