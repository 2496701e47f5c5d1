import Mathlib
import FlowRecovery.Proofs.Expr.SimplifyRules

namespace FlowRecovery.Expr

variable {s : Scope}

section Congruence

variable {a a' b b' c c' : Expr}

theorem Equiv.mem_congr {offset : UInt64} {width : Nat} (h : (mem a offset width).WellFormed s)
    (ha : Equiv s a a') : Equiv s (mem a offset width) (mem a' offset width) := by
  refine ⟨⟨ha.wellFormed, h.2⟩, rfl, fun v => ?_⟩
  rw [Expr.value, Expr.value, ha.value]

theorem Equiv.unary_congr {op : UnaryOp} (h : (unary op a).WellFormed s) (ha : Equiv s a a') :
    Equiv s (unary op a) (unary op a') := by
  refine ⟨⟨ha.wellFormed, ?_⟩, ?_, fun v => ?_⟩
  · rw [ha.width]
    exact h.2
  · rw [Expr.width, Expr.width, ha.width]
  · rw [Expr.value, Expr.value, ha.value]

theorem Equiv.binary_congr {op : BinaryOp} (h : (binary op a b).WellFormed s) (ha : Equiv s a a')
    (hb : Equiv s b b') : Equiv s (binary op a b) (binary op a' b') := by
  refine ⟨⟨ha.wellFormed, hb.wellFormed, ?_⟩, ?_, fun v => ?_⟩
  · rw [ha.width, hb.width]
    exact h.2.2
  · rw [width_binary, width_binary, ha.width, hb.width]
  · rw [Expr.value, Expr.value, ha.value, hb.value]

theorem Equiv.ite_congr (h : (ite c a b).WellFormed s) (hc : Equiv s c c') (ha : Equiv s a a')
    (hb : Equiv s b b') : Equiv s (ite c a b) (ite c' a' b') := by
  refine ⟨⟨hc.wellFormed, ha.wellFormed, hb.wellFormed, ?_, ?_⟩, ha.width, fun v => ?_⟩
  · rw [hc.width]
    exact h.2.2.2.1
  · rw [ha.width, hb.width]
    exact h.2.2.2.2
  · rw [Expr.value, Expr.value, hc.value, ha.value, hb.value]

end Congruence

theorem Answers.getD {e e' : Expr} {result : Checked (Option Expr)} (hnode : Equiv s e e')
    (h : Answers s e' result) : ∃ r, (do return (← result).getD e') = .ok r ∧ Equiv s e r := by
  obtain ⟨o, rfl, ho⟩ := h
  refine ⟨o.getD e', rfl, ?_⟩
  cases o with
  | none => exact hnode
  | some r => exact hnode.trans (ho r rfl)

/-- Rules that are sound on each node are sound when applied from the leaves to the root. -/
theorem transformM_sound {rule : Expr → Checked (Option Expr)}
    (hrule : ∀ e, e.WellFormed s → Answers s e (rule e)) {e : Expr} (h : e.WellFormed s) :
    ∃ r, e.transformM rule = .ok r ∧ Equiv s e r := by
  induction e with
  | const value => exact Answers.getD (.refl h) (hrule _ h)
  | var name width => exact Answers.getD (.refl h) (hrule _ h)
  | reg register => exact Answers.getD (.refl h) (hrule _ h)
  | mem address offset width ih =>
      obtain ⟨a, ha, hequiv⟩ := ih h.1
      have hnode := Equiv.mem_congr h hequiv
      obtain ⟨r, hr, hresult⟩ := Answers.getD hnode (hrule _ hnode.wellFormed)
      refine ⟨r, ?_, hresult⟩
      rw [transformM, ha, ok_bind, mkMem_of_bytes _ _ h.2.1 h.2.2.1]
      exact hr
  | unary op a ih =>
      obtain ⟨a', ha, hequiv⟩ := ih h.1
      have hnode := Equiv.unary_congr h hequiv
      obtain ⟨r, hr, hresult⟩ := Answers.getD hnode (hrule _ hnode.wellFormed)
      refine ⟨r, ?_, hresult⟩
      rw [transformM, ha, ok_bind, mkUnary_of_wellFormed hnode.wellFormed]
      exact hr
  | binary op a b iha ihb =>
      obtain ⟨a', ha, haequiv⟩ := iha h.1
      obtain ⟨b', hb, hbequiv⟩ := ihb h.2.1
      have hnode := Equiv.binary_congr h haequiv hbequiv
      obtain ⟨r, hr, hresult⟩ := Answers.getD hnode (hrule _ hnode.wellFormed)
      refine ⟨r, ?_, hresult⟩
      rw [transformM, ha, ok_bind, hb, ok_bind, mkBinary_of_wellFormed hnode.wellFormed]
      exact hr
  | ite condition a b ihc iha ihb =>
      obtain ⟨c', hc, hcequiv⟩ := ihc h.1
      obtain ⟨a', ha, haequiv⟩ := iha h.2.1
      obtain ⟨b', hb, hbequiv⟩ := ihb h.2.2.1
      have hnode := Equiv.ite_congr h hcequiv haequiv hbequiv
      obtain ⟨r, hr, hresult⟩ := Answers.getD hnode (hrule _ hnode.wellFormed)
      refine ⟨r, ?_, hresult⟩
      rw [transformM, hc, ok_bind, ha, ok_bind, hb, ok_bind, mkIte_of_wellFormed hnode.wellFormed]
      exact hr

theorem simplifyPass_sound {e : Expr} (h : e.WellFormed s) :
    ∃ r, e.simplifyPass = .ok r ∧ Equiv s e r :=
  transformM_sound (fun _ => answers_simplifyNode) h

theorem settle_sound (n : Nat) {e : Expr} (h : e.WellFormed s) :
    ∃ r, settle n e = .ok r ∧ Equiv s e r := by
  induction n generalizing e with
  | zero => exact ⟨e, rfl, .refl h⟩
  | succ n ih =>
      obtain ⟨next, hnext, hequiv⟩ := simplifyPass_sound h
      rw [settle, hnext, ok_bind]
      split
      · exact ⟨e, rfl, .refl h⟩
      · obtain ⟨r, hr, hresult⟩ := ih hequiv.wellFormed
        exact ⟨r, hr, hequiv.trans hresult⟩

theorem simplify_sound {e : Expr} (h : e.WellFormed s) : ∃ r, e.simplify = .ok r ∧ Equiv s e r :=
  settle_sound e.weight h

theorem equiv_simplify {e r : Expr} (h : e.WellFormed s) (hr : e.simplify = .ok r) :
    Equiv s e r := by
  obtain ⟨r', hr', hequiv⟩ := simplify_sound h
  cases hr.symm.trans hr'
  exact hequiv

theorem Equiv.evaluate_eq {e r : Expr} (h : Equiv s e r) (he : e.WellFormed s) (v : Valuation) :
    r.evaluate v.leaf = e.evaluate v.leaf := by
  rw [evaluate_leaf h.wellFormed, evaluate_leaf he, h.value]

/-- Simplifying an expression, once or until nothing changes, raises no fault and keeps its width,
and under every valuation the results evaluate to the same integer as the expression. -/
theorem simplify_preserves_meaning {e : Expr} (h : e.Built .all) :
    ∃ pass result, e.simplifyPass = .ok pass ∧ e.simplify = .ok result ∧
      pass.width = e.width ∧ result.width = e.width ∧
      ∀ v : Valuation, ∃ x, e.evaluate v.leaf = .ok (some x) ∧
        pass.evaluate v.leaf = .ok (some x) ∧ result.evaluate v.leaf = .ok (some x) := by
  rw [built_iff_wellFormed] at h
  obtain ⟨pass, hpass, hpassEquiv⟩ := simplifyPass_sound h
  obtain ⟨result, hresult, hresultEquiv⟩ := simplify_sound h
  refine ⟨pass, result, hpass, hresult, hpassEquiv.width, hresultEquiv.width, fun v => ?_⟩
  refine ⟨e.value v, evaluate_leaf h v, ?_, ?_⟩
  · rw [hpassEquiv.evaluate_eq h, evaluate_leaf h]
  · rw [hresultEquiv.evaluate_eq h, evaluate_leaf h]

/-- A complemented signed comparison of a slice that reaches into a concatenation with a memory
cell. -/
theorem simplify_preserves_meaning_of_slice :
    let e := unary .not (binary .slt
      (unary (.extract 8 16)
        (binary .concat (mem (var "p" 32) 4 16) (reg ⟨"ax", "eax", 0, 16, 32⟩)))
      (const ⟨16, 0x8000⟩))
    e.Built .all ∧ ∃ pass result, e.simplifyPass = .ok pass ∧ e.simplify = .ok result ∧
      pass.width = e.width ∧ result.width = e.width ∧
      ∀ v : Valuation, ∃ x, e.evaluate v.leaf = .ok (some x) ∧
        pass.evaluate v.leaf = .ok (some x) ∧ result.evaluate v.leaf = .ok (some x) := by
  intro e
  have h : e.Built .all := built_iff_wellFormed.mpr (by decide)
  exact ⟨h, simplify_preserves_meaning h⟩

end FlowRecovery.Expr
