import Mathlib
import FlowRecovery.Expr.Substitution
import FlowRecovery.Proofs.Expr.Valuation

namespace FlowRecovery.Expr

variable {s t : Scope}

theorem WellFormed.subterm {e : Expr} (h : e.WellFormed s) :
    ∀ x ∈ e.subterms, x.WellFormed s := by
  induction e with
  | const value => simpa [subterms] using h
  | var name width => simpa [subterms] using h
  | reg register => simpa [subterms] using h
  | mem address offset width ih =>
      rw [subterms, List.forall_mem_cons]
      exact ⟨h, ih h.1⟩
  | unary op a ih =>
      rw [subterms, List.forall_mem_cons]
      exact ⟨h, ih h.1⟩
  | binary op a b iha ihb =>
      rw [subterms, List.forall_mem_cons, List.forall_mem_append]
      exact ⟨h, iha h.1, ihb h.2.1⟩
  | ite condition a b ihc iha ihb =>
      rw [subterms, List.forall_mem_cons, List.forall_mem_append, List.forall_mem_append]
      exact ⟨h, ⟨ihc h.1, iha h.2.1⟩, ihb h.2.2.1⟩

/-- The condition of a scope on one node. -/
def InScope (s : Scope) : Expr → Prop
  | var name width => s.var name width
  | reg register => s.reg register
  | mem _ _ _ => s.cell
  | _ => True

theorem WellFormed.of_inScope {e : Expr} (h : e.WellFormed s)
    (hin : ∀ x ∈ e.subterms, x.InScope t) :
    e.WellFormed t := by
  induction e with
  | const value => exact h
  | var name width => exact ⟨h.1, hin (var name width) (by simp [subterms])⟩
  | reg register => exact ⟨h.1, hin (reg register) (by simp [subterms])⟩
  | mem address offset width ih =>
      rw [subterms, List.forall_mem_cons] at hin
      exact ⟨ih h.1 hin.2, h.2.1, h.2.2.1, hin.1⟩
  | unary op a ih =>
      rw [subterms, List.forall_mem_cons] at hin
      exact ⟨ih h.1 hin.2, h.2⟩
  | binary op a b iha ihb =>
      rw [subterms, List.forall_mem_cons, List.forall_mem_append] at hin
      exact ⟨iha h.1 hin.2.1, ihb h.2.1 hin.2.2, h.2.2⟩
  | ite condition a b ihc iha ihb =>
      rw [subterms, List.forall_mem_cons, List.forall_mem_append, List.forall_mem_append] at hin
      obtain ⟨-, ⟨hinc, hina⟩, hinb⟩ := hin
      exact ⟨ihc h.1 hinc, iha h.2.1 hina, ihb h.2.2.1 hinb, h.2.2.2⟩

theorem WellFormed.mono {e : Expr} (h : e.WellFormed s)
    (hvar : ∀ name width, s.var name width → t.var name width) (hreg : ∀ r, s.reg r → t.reg r)
    (hcell : s.cell → t.cell) : e.WellFormed t := by
  refine h.of_inScope fun x hx => ?_
  have hwf := h.subterm x hx
  cases x with
  | var name width => exact hvar name width hwf.2
  | reg r => exact hreg r hwf.2
  | mem address offset width => exact hcell hwf.2.2.2
  | _ => trivial

/-- The scope of what occurs in an expression. -/
def occurring (e : Expr) : Scope where
  var name width := var name width ∈ e.subterms
  reg register := reg register ∈ e.subterms
  cell := ∃ address offset width, mem address offset width ∈ e.subterms

theorem WellFormed.occurring {e : Expr} (h : e.WellFormed s) : e.WellFormed e.occurring := by
  refine h.of_inScope fun x hx => ?_
  cases x with
  | var name width => exact hx
  | reg register => exact hx
  | mem address offset width => exact ⟨address, offset, width, hx⟩
  | _ => trivial

/-- Each variable name occurs at one width. -/
def SingleWidths (e : Expr) : Prop :=
  ∀ name width width', var name width ∈ e.subterms → var name width' ∈ e.subterms → width = width'

theorem SingleWidths.of_occurring {e r : Expr} (h : e.SingleWidths)
    (hr : r.WellFormed e.occurring) :
    r.SingleWidths :=
  fun name _ _ hw hw' => h name _ _ (hr.subterm _ hw).2 (hr.subterm _ hw').2

section Collection

theorem getElem?_foldl_collect {name : String} {width : Nat} (l : List Expr)
    (found : Std.ExtTreeMap String Nat)
    (hsingle : ∀ m w w', (found[m]? = some w ∨ var m w ∈ l) →
      (found[m]? = some w' ∨ var m w' ∈ l) → w = w') :
    (l.foldl (fun found t => match t with
      | var name width => found.insert name width
      | _ =>
          found) found)[name]? = some width ↔ found[name]? = some width ∨ var name width ∈ l := by
  induction l generalizing found with
  | nil => simp
  | cons x l ih =>
      rw [List.foldl_cons]
      cases x with
      | var m w =>
          have hfound : ∀ k, found[m]? = some k → k = w :=
            fun k hk => hsingle m k w (.inl hk) (.inr List.mem_cons_self)
          have hinsert : ∀ n k, (found.insert m w)[n]? = some k ↔
              found[n]? = some k ∨ var n k = var m w := by
            intro n k
            rw [Std.ExtTreeMap.getElem?_insert]
            by_cases hn : m = n
            · subst hn
              simpa [eq_comm] using hfound k
            · simp [Std.LawfulEqCmp.compare_eq_iff_eq, hn, Ne.symm hn]
          rw [ih, hinsert, or_assoc, List.mem_cons]
          simpa only [hinsert, or_assoc, ← List.mem_cons] using hsingle
      | const _ | reg _ | mem _ _ _ | unary _ _ | binary _ _ _ | ite _ _ _ =>
          simp only [List.mem_cons, reduceCtorEq, false_or] at hsingle ⊢
          exact ih found hsingle

theorem getElem?_freeVariables {e : Expr} (h : e.SingleWidths) {name : String} {width : Nat} :
    e.freeVariables[name]? = some width ↔ var name width ∈ e.subterms := by
  refine (getElem?_foldl_collect e.subterms ∅ ?_).trans ?_
  · simpa [SingleWidths] using h
  · simp

theorem mem_toList_freeVariables {e : Expr} (h : e.SingleWidths) {name : String} {width : Nat} :
    (name, width) ∈ e.freeVariables.toList ↔ var name width ∈ e.subterms := by
  rw [Std.ExtTreeMap.mem_toList_iff_getElem?_eq_some, getElem?_freeVariables h]

theorem nodup_names_freeVariables (e : Expr) : (e.freeVariables.toList.map Prod.fst).Nodup := by
  rw [List.Nodup, List.pairwise_map]
  refine e.freeVariables.distinct_keys_toList.imp ?_
  rintro ⟨n, w⟩ ⟨n', w'⟩ hne rfl
  exact hne (by simp)

def variableWidth (e : Expr) : Nat :=
  (e.freeVariables.toList.map Prod.snd).sum

theorem variableWidth_le {e r : Expr} (h : e.SingleWidths) (hr : r.WellFormed e.occurring) :
    r.variableWidth ≤ e.variableWidth := by
  have hsub : r.freeVariables.toList ⊆ e.freeVariables.toList := by
    rintro ⟨name, width⟩ hmem
    rw [mem_toList_freeVariables (h.of_occurring hr)] at hmem
    rw [mem_toList_freeVariables h]
    exact (hr.subterm _ hmem).2
  obtain ⟨l, hperm, hsublist⟩ := r.nodup_names_freeVariables.of_map.subperm hsub
  calc r.variableWidth = (l.map Prod.snd).sum := ((hperm.map _).sum_eq).symm
    _ ≤ e.variableWidth := (hsublist.map _).sum_le_sum (by simp)

end Collection

end FlowRecovery.Expr
