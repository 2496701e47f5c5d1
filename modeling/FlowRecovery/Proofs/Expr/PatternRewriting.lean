import Mathlib
import FlowRecovery.Proofs.Expr.Matching
import FlowRecovery.Proofs.Expr.Simplification

namespace FlowRecovery.Expr

variable {s : Scope} {free : List String} {bindings : Bindings} {tree pattern value e : Expr}

/-- A match binds the free variables of any expression that uses them at the widths of the pattern
to well formed expressions of these widths. -/
theorem Solves.suits (h : Solves free bindings pattern tree) (htree : tree.WellFormed s)
    (hwidths : ∀ name ∈ free, ∀ width width', var name width ∈ pattern.subterms →
      var name width' ∈ e.subterms →
      width = width') : e.Suits s bindings := by
  intro name width hmem t ht
  obtain ⟨hfree, width', hoccurs⟩ :=
    (h.names name).mp (Std.ExtTreeMap.mem_iff_isSome_getElem?.mpr (by simp [ht]))
  obtain ⟨t', ht', hwidth⟩ := h.bound name width' hoccurs hfree
  obtain rfl : t' = t := Option.some.inj (ht'.symm.trans ht)
  rw [← h.result] at htree
  exact ⟨htree.of_substitute name width' hoccurs t' ht,
    hwidth.trans (hwidths name hfree _ _ hoccurs hmem)⟩

/-- A rule that may be applied everywhere. Both sides are built from leaves of valid widths, have
the same width, use each free variable at one width, and evaluate equally under every
valuation. -/
structure ValidRule (pattern : Expr) (free : List String) (value : Expr) : Prop where
  builtPattern : pattern.Built .all
  builtValue : value.Built .all
  sameWidth : pattern.width = value.width
  oneWidth : ∀ name ∈ free, ∀ width width', var name width ∈ pattern.subterms ++ value.subterms →
    var name width' ∈ pattern.subterms ++ value.subterms → width = width'
  evaluate_eq (v : Valuation) : pattern.evaluate v.leaf = value.evaluate v.leaf

theorem ValidRule.value_eq (h : ValidRule pattern free value) (v : Valuation) :
    pattern.value v = value.value v := by
  have heq := h.evaluate_eq v
  rw [evaluate_leaf (built_iff_wellFormed.mp h.builtPattern),
    evaluate_leaf (built_iff_wellFormed.mp h.builtValue)] at heq
  exact Option.some.inj (Except.ok.inj heq)

/-- The instance of the value of a rule may stand for the tree that matches its pattern. -/
theorem ValidRule.equiv_substitute (h : ValidRule pattern free value)
    (htree : tree.WellFormed .all) (hsolves : Solves free bindings pattern tree) :
    Equiv .all tree (value.substitute bindings) := by
  have hpattern : pattern.Suits .all bindings :=
    hsolves.suits htree fun name hfree width width' hw hw' =>
    h.oneWidth name hfree width width' (List.mem_append_left _ hw) (List.mem_append_left _ hw')
  have hvalue : value.Suits .all bindings :=
    hsolves.suits htree fun name hfree width width' hw hw' =>
    h.oneWidth name hfree width width' (List.mem_append_left _ hw) (List.mem_append_right _ hw')
  obtain ⟨-, hpatternWidth⟩ :=
    hpattern.wellFormed_substitute (built_iff_wellFormed.mp h.builtPattern)
  obtain ⟨hwellFormed, hvalueWidth⟩ :=
    hvalue.wellFormed_substitute (built_iff_wellFormed.mp h.builtValue)
  refine ⟨hwellFormed, ?_, fun v => ?_⟩
  · rw [hvalueWidth, ← h.sameWidth, ← hpatternWidth, hsolves.result]
  · calc (value.substitute bindings).value v
      _ = value.value (v.rebind bindings) := hvalue.value_substitute v
      _ = pattern.value (v.rebind bindings) := (h.value_eq _).symm
      _ = (pattern.substitute bindings).value v := (hpattern.value_substitute v).symm
      _ = tree.value v := by rw [hsolves.result]

theorem ValidRule.replacePattern_sound (h : ValidRule pattern free value)
    (htree : tree.WellFormed .all) :
    ∃ r, tree.replacePattern pattern free value = .ok r ∧ Equiv .all tree r := by
  refine transformM_sound (fun e he => ?_) htree
  cases hmatch : matchPattern e pattern free with
  | none => exact .of_none e
  | some bindings =>
      have hequiv := h.equiv_substitute he (solves_of_matchPattern hmatch)
      simp only [instantiate_eq_substitute hequiv.wellFormed.constructed, ok_bind]
      exact .of_some hequiv

/-- Applying a valid rule everywhere raises no fault and keeps the width of the tree, and under
every valuation the result evaluates to the same integer as the tree. -/
theorem replacePattern_preserves_meaning (hrule : ValidRule pattern free value)
    (htree : tree.Built .all) :
    ∃ r, tree.replacePattern pattern free value = .ok r ∧ r.width = tree.width ∧
      ∀ v : Valuation, ∃ x, tree.evaluate v.leaf = .ok (some x) ∧
        r.evaluate v.leaf = .ok (some x) := by
  rw [built_iff_wellFormed] at htree
  obtain ⟨r, hr, hequiv⟩ := hrule.replacePattern_sound htree
  refine ⟨r, hr, hequiv.width, fun v => ⟨tree.value v, evaluate_leaf htree v, ?_⟩⟩
  rw [hequiv.evaluate_eq htree, evaluate_leaf htree]

/-- A difference as a sum, in a tree in which the variables of the rule occur too, at other
places. -/
theorem replacePattern_preserves_meaning_of_difference :
    let pattern := binary .sub (var "A" 32) (var "B" 32)
    let value := binary .add (var "A" 32) (unary .neg (var "B" 32))
    let tree := binary .sub (mem (binary .sub (var "B" 32) (var "A" 32)) 8 32) (var "A" 32)
    ValidRule pattern ["A", "B"] value ∧ tree.Built .all ∧
      ∃ r, tree.replacePattern pattern ["A", "B"] value = .ok r ∧ r.width = tree.width ∧
        ∀ v : Valuation, ∃ x, tree.evaluate v.leaf = .ok (some x) ∧
          r.evaluate v.leaf = .ok (some x) := by
  intro pattern value tree
  have hpattern : pattern.WellFormed .all := by decide
  have hvalue : value.WellFormed .all := by decide
  have hrule : ValidRule pattern ["A", "B"] value := by
    refine ⟨built_iff_wellFormed.mpr hpattern, built_iff_wellFormed.mpr hvalue, rfl,
      ?_, fun v => ?_⟩
    · simp [pattern, value, subterms]
    · rw [evaluate_leaf hpattern, evaluate_leaf hvalue]
      simp only [pattern, value, Expr.value, BinaryOp.on_ofBits, UnaryOp.on_ofBits,
        BinaryOp.onBits, UnaryOp.onBits]
      rw [BitVec.setWidth_eq, BitVec.setWidth_eq, BitVec.sub_eq_add_neg]
  have htree : tree.Built .all := built_iff_wellFormed.mpr (by decide)
  exact ⟨hrule, htree, replacePattern_preserves_meaning hrule htree⟩

end FlowRecovery.Expr
