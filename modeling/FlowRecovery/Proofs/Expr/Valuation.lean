import Mathlib
import FlowRecovery.Proofs.Expr.WellFormed

/-!
Valuations give every variable and register a value of its width, and every memory cell a value
that depends only on the value of its address, its offset and its width. Under a valuation each
well formed expression has exactly one value, which is what evaluation finds.
-/

namespace FlowRecovery

/-- Values of all variables, registers and memory cells. The value of a cell depends only on the
value of its address, its offset and its width. -/
structure Valuation where
  var (name : String) (width : Nat) : BitVec width
  reg (register : Register) : BitVec register.size
  cell (address : Word) (offset : UInt64) (width : Nat) : BitVec width
deriving Inhabited

namespace Expr

/-- The value of an expression under a valuation. -/
def value (v : Valuation) : Expr → Word
  | const value => value
  | var name width => .ofBits (v.var name width)
  | reg register => .ofBits (v.reg register)
  | mem address offset width => .ofBits (v.cell (address.value v) offset width)
  | unary op a => op.on (a.value v)
  | binary op a b => op.on (a.value v) (b.value v)
  | ite condition a b => if (condition.value v).isTrue then a.value v else b.value v

end Expr

/-- What a valuation answers for the leaves of an expression. -/
def Valuation.leaf (v : Valuation) (e : Expr) : Option Word :=
  some (e.value v)

/-- A valuation satisfies a formula if the formula evaluates to a true value. -/
def Valuation.Satisfies (v : Valuation) (formula : Expr) : Prop :=
  ∃ x, formula.evaluate v.leaf = .ok (some x) ∧ x.isTrue = true

namespace Expr

variable {s : Scope}

theorem WellFormed.width_value {e : Expr} (h : e.WellFormed s) (v : Valuation) :
    (e.value v).width = e.width := by
  induction e with
  | const value => rfl
  | var name width => rfl
  | reg register => rfl
  | mem address offset width _ => rfl
  | unary op a ih => rw [value, UnaryOp.width_on, ih h.1, width]
  | binary op a b iha ihb => rw [value, BinaryOp.width_on, iha h.1, ihb h.2.1, width_binary]
  | ite condition a b _ iha ihb =>
      obtain ⟨-, ha, hb, -, hab⟩ := h
      rw [value, width]
      split
      · exact iha ha
      · exact (ihb hb).trans hab.symm

theorem WellFormed.canonical_value {e : Expr} (h : e.WellFormed s) (v : Valuation) :
    (e.value v).Canonical := by
  induction e with
  | const value => exact h
  | var name width => exact Word.canonical_ofBits h.1 _
  | reg register => exact Word.canonical_ofBits h.1 _
  | mem address offset width _ => exact Word.canonical_ofBits h.2.1 _
  | unary op a ih =>
      apply UnaryOp.canonical_on (ih h.1)
      rw [h.1.width_value]
      exact h.2
  | binary op a b iha _ =>
      apply BinaryOp.canonical_on (iha h.1)
      rw [h.1.width_value, h.2.1.width_value]
      exact h.2.2
  | ite condition a b _ iha ihb =>
      obtain ⟨-, ha, hb, -⟩ := h
      rw [value]
      split
      · exact iha ha
      · exact ihb hb

theorem evaluate_eq_value {leaf : Expr → Option Word} {v : Valuation}
    (hvar : ∀ name width, s.var name width →
      leaf (var name width) = some ((var name width).value v))
    (hreg : ∀ register, s.reg register → leaf (reg register) = some ((reg register).value v))
    (hcell : ∀ address offset width, s.cell →
      leaf (mem address offset width) = some ((mem address offset width).value v))
    {e : Expr} (h : e.WellFormed s) : e.evaluate leaf = .ok (some (e.value v)) := by
  induction e with
  | const value => rfl
  | var name width => exact congrArg Except.ok (hvar name width h.2)
  | reg register => exact congrArg Except.ok (hreg register h.2)
  | mem address offset width _ => exact congrArg Except.ok (hcell address offset width h.2.2.2)
  | unary op a ih =>
      have hop : op.Admits (a.value v).width := by
        rw [h.1.width_value]
        exact h.2
      simp [evaluate, ih h.1, UnaryOp.apply_eq_on (h.1.canonical_value v) hop, value]
  | binary op a b iha ihb =>
      have hop : op.Admits (a.value v).width (b.value v).width := by
        rw [h.1.width_value, h.2.1.width_value]
        exact h.2.2
      simp [evaluate, iha h.1, ihb h.2.1, value,
        BinaryOp.apply_eq_on (h.1.canonical_value v) (h.2.1.canonical_value v) hop]
  | ite condition a b ihc iha ihb =>
      obtain ⟨hc, ha, hb, -⟩ := h
      simp only [evaluate, ihc hc, iha ha, ihb hb, value, ok_bind]
      split <;> rfl

theorem evaluate_leaf {e : Expr} (h : e.WellFormed s) (v : Valuation) :
    e.evaluate v.leaf = .ok (some (e.value v)) :=
  evaluate_eq_value (fun _ _ _ => rfl) (fun _ _ => rfl) (fun _ _ _ _ => rfl) h

theorem WellFormed.satisfies_iff {formula : Expr} (h : formula.WellFormed s) (v : Valuation) :
    v.Satisfies formula ↔ (formula.value v).isTrue = true := by
  rw [Valuation.Satisfies, evaluate_leaf h]
  constructor
  · rintro ⟨x, hx, htrue⟩
    cases hx
    exact htrue
  · exact fun htrue => ⟨_, rfl, htrue⟩

theorem WellFormed.exists_bits {e : Expr} (h : e.WellFormed s) {w : Nat} (hw : e.width = w)
    (v : Valuation) :
    ∃ x : BitVec w, e.value v = .ofBits x :=
  (h.canonical_value v).exists_bits ((h.width_value v).trans hw)

end Expr

end FlowRecovery
