import Mathlib
import FlowRecovery.Proofs.Expr.Variables

namespace FlowRecovery

namespace Expr

variable {s : Scope} {bindings : Bindings} {e : Expr}

/-- An expression with its bound variables replaced by their bindings, all at once. -/
def substitute (bindings : Bindings) : Expr → Expr
  | var name width => bindings[name]?.getD (var name width)
  | const value => const value
  | reg register => reg register
  | mem address offset width => mem (address.substitute bindings) offset width
  | unary op a => unary op (a.substitute bindings)
  | binary op a b => binary op (a.substitute bindings) (b.substitute bindings)
  | ite condition a b =>
      ite (condition.substitute bindings) (a.substitute bindings) (b.substitute bindings)

/-- Each node is what its checked constructor builds from the operands. Leaves may have any
width. -/
def Constructed : Expr → Prop
  | const _ | var _ _ | reg _ => True
  | mem address offset width =>
      address.Constructed ∧ mkMem address offset width = .ok (mem address offset width)
  | unary op a => a.Constructed ∧ mkUnary op a = .ok (unary op a)
  | binary op a b => a.Constructed ∧ b.Constructed ∧ mkBinary op a b = .ok (binary op a b)
  | ite condition a b =>
    condition.Constructed ∧ a.Constructed ∧ b.Constructed ∧
      mkIte condition a b = .ok (ite condition a b)

theorem WellFormed.constructed (h : e.WellFormed s) : e.Constructed := by
  induction e with
  | const value => trivial
  | var name width => trivial
  | reg register => trivial
  | mem address offset width ih => exact ⟨ih h.1, mkMem_of_bytes _ _ h.2.1 h.2.2.1⟩
  | unary op a ih => exact ⟨ih h.1, mkUnary_of_wellFormed h⟩
  | binary op a b iha ihb => exact ⟨iha h.1, ihb h.2.1, mkBinary_of_wellFormed h⟩
  | ite condition a b ihc iha ihb =>
      exact ⟨ihc h.1, iha h.2.1, ihb h.2.2.1, mkIte_of_wellFormed h⟩

/-- Instantiation yields the expression with its bound variables replaced, if its nodes can be
built. -/
theorem instantiate_eq_substitute (h : (e.substitute bindings).Constructed) :
    e.instantiate bindings = .ok (e.substitute bindings) := by
  induction e with
  | const value => rfl
  | var name width => rfl
  | reg register => rfl
  | mem address offset width ih =>
      rw [instantiate] at ih ⊢
      rw [transformM, ih h.1, ok_bind, h.2]
      rfl
  | unary op a ih =>
      rw [instantiate] at ih ⊢
      rw [transformM, ih h.1, ok_bind, h.2]
      rfl
  | binary op a b iha ihb =>
      rw [instantiate] at iha ihb ⊢
      rw [transformM, iha h.1, ok_bind, ihb h.2.1, ok_bind, h.2.2]
      rfl
  | ite condition a b ihc iha ihb =>
      rw [instantiate] at ihc iha ihb ⊢
      rw [transformM, ihc h.1, ok_bind, iha h.2.1, ok_bind, ihb h.2.2.1, ok_bind, h.2.2.2]
      rfl

section Variables

variable {P : String → Nat → Prop} {a b c : Expr}

/-- All variables that occur in an expression have a property together with their widths. -/
def AllVars (P : String → Nat → Prop) (e : Expr) : Prop :=
  ∀ name width, var name width ∈ e.subterms → P name width

@[simp] theorem allVars_const (value : Word) : (const value).AllVars P := by
  simp [AllVars, subterms]

@[simp] theorem allVars_reg (register : Register) : (reg register).AllVars P := by
  simp [AllVars, subterms]

@[simp] theorem allVars_var {name : String} {width : Nat} :
    (var name width).AllVars P ↔ P name width := by
  simp [AllVars, subterms]

@[simp] theorem allVars_mem {offset : UInt64} {width : Nat} :
    (mem a offset width).AllVars P ↔ a.AllVars P := by
  simp [AllVars, subterms]

@[simp] theorem allVars_unary {op : UnaryOp} : (unary op a).AllVars P ↔ a.AllVars P := by
  simp [AllVars, subterms]

@[simp] theorem allVars_binary {op : BinaryOp} :
    (binary op a b).AllVars P ↔ a.AllVars P ∧ b.AllVars P := by
  simp [AllVars, subterms, or_imp, forall_and]

@[simp] theorem allVars_ite :
    (ite c a b).AllVars P ↔ c.AllVars P ∧ a.AllVars P ∧ b.AllVars P := by
  simp [AllVars, subterms, or_imp, forall_and]

end Variables

theorem WellFormed.of_substitute (h : (e.substitute bindings).WellFormed s) :
    e.AllVars fun name _ => ∀ t, bindings[name]? = some t → t.WellFormed s := by
  induction e with
  | const value => exact allVars_const value
  | reg register => exact allVars_reg register
  | var name width =>
      rw [allVars_var]
      intro t ht
      rwa [substitute, ht] at h
  | mem address offset width ih => exact allVars_mem.mpr (ih h.1)
  | unary op a ih => exact allVars_unary.mpr (ih h.1)
  | binary op a b iha ihb => exact allVars_binary.mpr ⟨iha h.1, ihb h.2.1⟩
  | ite condition a b ihc iha ihb => exact allVars_ite.mpr ⟨ihc h.1, iha h.2.1, ihb h.2.2.1⟩

/-- The bound variables of an expression are bound to well formed expressions of their widths. -/
def Suits (s : Scope) (bindings : Bindings) : Expr → Prop :=
  AllVars fun name width => ∀ t, bindings[name]? = some t → t.WellFormed s ∧ t.width = width

theorem Suits.wellFormed_substitute (hs : e.Suits s bindings) (h : e.WellFormed s) :
    (e.substitute bindings).WellFormed s ∧ (e.substitute bindings).width = e.width := by
  induction e with
  | const value => exact ⟨h, rfl⟩
  | reg register => exact ⟨h, rfl⟩
  | var name width =>
      rw [substitute]
      cases ht : bindings[name]? with
      | none => exact ⟨h, rfl⟩
      | some t => exact allVars_var.mp hs t ht
  | mem address offset width ih => exact ⟨⟨(ih (allVars_mem.mp hs) h.1).1, h.2⟩, rfl⟩
  | unary op a ih =>
      obtain ⟨ha, hwidth⟩ := ih (allVars_unary.mp hs) h.1
      refine ⟨⟨ha, ?_⟩, ?_⟩
      · rw [hwidth]
        exact h.2
      · rw [substitute, width, width, hwidth]
  | binary op a b iha ihb =>
      obtain ⟨hsa, hsb⟩ := allVars_binary.mp hs
      obtain ⟨ha, hwidth⟩ := iha hsa h.1
      obtain ⟨hb, hwidth'⟩ := ihb hsb h.2.1
      refine ⟨⟨ha, hb, ?_⟩, ?_⟩
      · rw [hwidth, hwidth']
        exact h.2.2
      · rw [substitute, width_binary, width_binary, hwidth, hwidth']
  | ite condition a b ihc iha ihb =>
      obtain ⟨hsc, hsa, hsb⟩ := allVars_ite.mp hs
      obtain ⟨hc, hone⟩ := ihc hsc h.1
      obtain ⟨ha, hwidth⟩ := iha hsa h.2.1
      obtain ⟨hb, hwidth'⟩ := ihb hsb h.2.2.1
      refine ⟨⟨hc, ha, hb, hone.trans h.2.2.2.1, ?_⟩, hwidth⟩
      rw [hwidth, hwidth', h.2.2.2.2]

end Expr

/-- The valuation under which each bound variable has the value of its binding. -/
def Valuation.rebind (v : Valuation) (bindings : Expr.Bindings) : Valuation where
  var name width := (bindings[name]?.map fun t => BitVec.ofNat width (t.value v).value).getD
    (v.var name width)
  reg := v.reg
  cell := v.cell

theorem Expr.Suits.value_substitute {s : Scope} {bindings : Bindings} {e : Expr}
    (hs : e.Suits s bindings) (v : Valuation) :
    (e.substitute bindings).value v = e.value (v.rebind bindings) := by
  induction e with
  | const value => rfl
  | reg register => rfl
  | var name width =>
      simp only [substitute, value, Valuation.rebind]
      cases ht : bindings[name]? with
      | none => rfl
      | some t =>
          obtain ⟨hwellFormed, hwidth⟩ := allVars_var.mp hs t ht
          -- the value of the binding has the width of the variable, so it is not cut
          obtain ⟨x, hx⟩ := hwellFormed.exists_bits hwidth v
          simp [hx]
  | mem address offset width ih =>
      rw [substitute, value, value, ih (allVars_mem.mp hs)]
      rfl
  | unary op a ih => rw [substitute, value, value, ih (allVars_unary.mp hs)]
  | binary op a b iha ihb =>
      obtain ⟨hsa, hsb⟩ := allVars_binary.mp hs
      rw [substitute, value, value, iha hsa, ihb hsb]
  | ite condition a b ihc iha ihb =>
      obtain ⟨hsc, hsa, hsb⟩ := allVars_ite.mp hs
      rw [substitute, value, value, ihc hsc, iha hsa, ihb hsb]

end FlowRecovery
