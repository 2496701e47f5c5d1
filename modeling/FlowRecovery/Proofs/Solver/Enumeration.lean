import Mathlib
import FlowRecovery.Solver
import FlowRecovery.Proofs.Expr.Simplification
import FlowRecovery.Proofs.Expr.Variables

namespace FlowRecovery.Solver

/-- A solver that finds formulas over a scope unsatisfiable only if no valuation satisfies
them. -/
def SoundOver (s : Scope) (solver : Solver) : Prop :=
  ∀ formula : Expr, formula.WellFormed s → formula.width = 1 → solver.check formula = .ok .unsat →
    ∀ v : Valuation, ¬ v.Satisfies formula

variable {s : Scope} {vars : List (String × Nat)} {formula : Expr}

section Counters

/-- The values that a valuation gives to a list of variables. -/
def valuesOf (v : Valuation) (vars : List (String × Nat)) : List (String × Word) :=
  vars.map fun p => (p.1, .ofBits (v.var p.1 p.2))

theorem lookup_valuesOf (v : Valuation) {name : String} {width : Nat}
    (hnames : (vars.map Prod.fst).Nodup) (hmem : (name, width) ∈ vars) :
    (valuesOf v vars).lookup name = some (.ofBits (v.var name width)) := by
  induction vars with
  | nil => cases hmem
  | cons p rest ih =>
      obtain ⟨hfresh, hrest⟩ := List.nodup_cons.mp hnames
      rcases List.mem_cons.mp hmem with rfl | hmem
      · simp [valuesOf]
      · have hne : name ≠ p.1 := by
          rintro rfl
          exact hfresh (List.mem_map.mpr ⟨_, hmem, rfl⟩)
        rw [valuesOf, List.map_cons, List.lookup_cons, beq_false_of_ne hne]
        exact ih hrest hmem

theorem exists_valuation (hwidths : ∀ p ∈ vars, Word.ValidWidth p.2)
    (hnames : (vars.map Prod.fst).Nodup) (counter : Nat) :
    ∃ v, assignment vars counter = .ok (valuesOf v vars) := by
  induction vars generalizing counter with
  | nil => exact ⟨default, rfl⟩
  | cons p rest ih =>
      obtain ⟨hfresh, hrest⟩ := List.nodup_cons.mp hnames
      obtain ⟨hwidth, hwidths⟩ := List.forall_mem_cons.mp hwidths
      obtain ⟨v, hv⟩ := ih hwidths hrest (counter >>> p.2)
      -- the first variable is not among the rest, so that its value may be changed there
      let v' : Valuation :=
        { v with var :=
          fun name width => if name = p.1 then BitVec.ofNat width counter else v.var name width }
      have hrestValues : valuesOf v' rest = valuesOf v rest := by
        refine List.map_congr_left fun q hq => ?_
        have hne : q.1 ≠ p.1 := by
          intro heq
          exact hfresh (heq ▸ List.mem_map_of_mem hq)
        simp [v', hne]
      refine ⟨v', ?_⟩
      rw [assignment, Word.ofNat_eq hwidth, ok_bind, hv, ok_bind, ← hrestValues]
      simp [valuesOf, v']

theorem exists_counter (hwidths : ∀ p ∈ vars, Word.ValidWidth p.2) (v : Valuation) :
    ∃ counter < Word.modulus (vars.map Prod.snd).sum, assignment vars counter =
      .ok (valuesOf v vars) := by
  induction vars with
  | nil => exact ⟨0, by decide, rfl⟩
  | cons p rest ih =>
      obtain ⟨hwidth, hwidths⟩ := List.forall_mem_cons.mp hwidths
      obtain ⟨counter, hlt, hcounter⟩ := ih hwidths
      have hbits := (v.var p.1 p.2).isLt
      rw [Word.modulus_eq] at hlt
      refine ⟨(v.var p.1 p.2).toNat + 2 ^ p.2 * counter, ?_, ?_⟩
      · rw [Word.modulus_eq, List.map_cons, List.sum_cons, Nat.pow_add]
        calc (v.var p.1 p.2).toNat + 2 ^ p.2 * counter
          _ < 2 ^ p.2 * (counter + 1) := by rw [Nat.mul_add]; omega
          _ ≤ 2 ^ p.2 * 2 ^ (rest.map Prod.snd).sum := Nat.mul_le_mul_left _ hlt
      · have hlow : BitVec.ofNat p.2 ((v.var p.1 p.2).toNat + 2 ^ p.2 * counter) =
            v.var p.1 p.2 := by
          apply BitVec.eq_of_toNat_eq
          rw [BitVec.toNat_ofNat, Nat.add_mul_mod_self_left, Nat.mod_eq_of_lt hbits]
        have hhigh : ((v.var p.1 p.2).toNat + 2 ^ p.2 * counter) >>> p.2 = counter := by
          rw [Nat.shiftRight_eq_div_pow, Nat.add_mul_div_left _ _ (Nat.two_pow_pos _),
            Nat.div_eq_of_lt hbits, Nat.zero_add]
        rw [assignment, Word.ofNat_eq hwidth, ok_bind, hlow, hhigh, hcounter]
        rfl

end Counters

section Search

variable (hformula : formula.WellFormed ⟨fun name width => (name, width) ∈ vars, fun _ =>
  False, False⟩) (hwidths : ∀ p ∈ vars, Word.ValidWidth p.2) (hnames : (vars.map Prod.fst).Nodup)

include hformula hnames

theorem holdsUnder_valuesOf (v : Valuation) :
    holdsUnder formula (valuesOf v vars) = .ok (formula.value v).isTrue := by
  rw [holdsUnder, Expr.evaluate_eq_value (v := v) _ _ _ hformula]
  · rfl
  · exact fun name width hmem => lookup_valuesOf v hnames hmem
  · exact fun register hfalse => hfalse.elim
  · exact fun address offset width hfalse => hfalse.elim

include hwidths

theorem holdsFrom_spec (count counter : Nat) :
    ∃ found, holdsFrom formula vars count counter = .ok found ∧
    (found = true ↔ ∃ k, counter ≤ k ∧ k < counter + count ∧
      ∃ v, assignment vars k = .ok (valuesOf v vars) ∧ (formula.value v).isTrue = true) := by
  induction count generalizing counter with
  | zero => exact ⟨false, rfl, by simp; omega⟩
  | succ count ih =>
      obtain ⟨v, hv⟩ := exists_valuation hwidths hnames counter
      have hholds := holdsUnder_valuesOf hformula hnames v
      obtain ⟨found, hfound, hiff⟩ := ih (counter + 1)
      rw [holdsFrom, hv, ok_bind, hholds, ok_bind]
      cases htrue : (formula.value v).isTrue with
      | true => exact ⟨true, rfl, by simpa using ⟨counter, by omega, by omega, v, hv, htrue⟩⟩
      | false =>
          refine ⟨found, hfound, hiff.trans ?_⟩
          constructor
          · rintro ⟨k, hle, hlt, hk⟩
            exact ⟨k, by omega, by omega, hk⟩
          · rintro ⟨k, hle, hlt, v', hv', htrue'⟩
            refine ⟨k, ?_, by omega, v', hv', htrue'⟩
            -- the first counter assigns the values of `v`, under which the formula is false
            by_contra hlow
            obtain rfl : k = counter := by omega
            rw [hv, Except.ok.injEq] at hv'
            rw [hv', holdsUnder_valuesOf hformula hnames v', htrue', htrue] at hholds
            cases hholds

theorem holdsFrom_modulus : ∃ found,
    holdsFrom formula vars (Word.modulus (vars.map Prod.snd).sum) 0 = .ok found ∧
      (found = true ↔ ∃ v, (formula.value v).isTrue = true) := by
  obtain ⟨found, hfound, hiff⟩ :=
    holdsFrom_spec hformula hwidths hnames (Word.modulus (vars.map Prod.snd).sum) 0
  refine ⟨found, hfound, hiff.trans ?_⟩
  constructor
  · rintro ⟨k, -, -, v, -, htrue⟩
    exact ⟨v, htrue⟩
  · rintro ⟨v, htrue⟩
    obtain ⟨k, hlt, hk⟩ := exists_counter hwidths v
    exact ⟨k, k.zero_le, by omega, v, hk, htrue⟩

end Search

section Answer

theorem foldlM_addWidths (start : Nat) (hlt : start + (vars.map Prod.snd).sum < 2 ^ 32) :
    vars.foldlM (fun sum v => addWidths sum v.2) start =
      .ok (start + (vars.map Prod.snd).sum) := by
  induction vars generalizing start with
  | nil => rfl
  | cons p rest ih =>
      rw [List.map_cons, List.sum_cons, ← Nat.add_assoc] at hlt ⊢
      rw [List.foldlM_cons, addWidths_of_lt (by omega), ok_bind, ih _ hlt]

theorem sum_lt_of_foldlM_addWidths {start total : Nat} (hstart : start < 2 ^ 32)
    (h : vars.foldlM (fun sum v => addWidths sum v.2) start = .ok total) :
    start + (vars.map Prod.snd).sum < 2 ^ 32 := by
  induction vars generalizing start with
  | nil => exact hstart
  | cons p rest ih =>
      rw [List.foldlM_cons, addWidths] at h
      split at h
      case isTrue hlt =>
        have hrest := ih hlt h
        rw [List.map_cons, List.sum_cons]
        omega
      case isFalse => cases h

theorem isOpaque_iff : isOpaque formula = true ↔ (∃ register, .reg register ∈ formula.subterms) ∨
    ∃ address offset width, .mem address offset width ∈ formula.subterms := by
  rw [isOpaque, List.any_eq_true]
  constructor
  · rintro ⟨x, hx, hmentions⟩
    cases x with
    | reg register => exact .inl ⟨register, hx⟩
    | mem address offset width => exact .inr ⟨address, offset, width, hx⟩
    | _ => cases hmentions
  · rintro (⟨register, hx⟩ | ⟨address, offset, width, hx⟩)
    · exact ⟨_, hx, rfl⟩
    · exact ⟨_, hx, rfl⟩

theorem wellFormed_of_not_isOpaque (h : formula.WellFormed s) (hsingle : formula.SingleWidths)
    (hmentions : ¬ isOpaque formula = true) :
    formula.WellFormed
      ⟨fun name width => (name, width) ∈ formula.freeVariables.toList, fun _ =>
        False, False⟩ := by
  rw [isOpaque_iff] at hmentions
  refine h.of_inScope fun x hx => ?_
  cases x with
  | var name width => exact (Expr.mem_toList_freeVariables hsingle).mpr hx
  | reg register => exact hmentions (.inl ⟨register, hx⟩)
  | mem address offset width => exact hmentions (.inr ⟨address, offset, width, hx⟩)
  | _ => trivial

theorem validWidth_freeVariables (h : formula.WellFormed s) (hsingle : formula.SingleWidths) :
    ∀ p ∈ formula.freeVariables.toList, Word.ValidWidth p.2 := by
  rintro ⟨name, width⟩ hmem
  rw [Expr.mem_toList_freeVariables hsingle] at hmem
  exact (h.subterm _ hmem).1

/-- A formula is decided exactly, unless the simplified formula mentions a register or a memory
cell or has too many bits of variables. -/
theorem checkByEnumeration_spec (bound : Nat) (h : formula.WellFormed s)
    (hwidth : formula.width = 1) (hsingle : formula.SingleWidths) {r : Expr}
    (hr : formula.simplify = .ok r) (htotal : r.variableWidth < 2 ^ 32) :
    ∃ answer, checkByEnumeration bound formula = .ok answer ∧
      (answer = .sat → ∃ v : Valuation, v.Satisfies formula) ∧
      (answer = .unsat → ∀ v : Valuation, ¬ v.Satisfies formula) ∧
      (answer = .unknown → isOpaque r = true ∨ bound < r.variableWidth) := by
  have hequiv := Expr.equiv_simplify h.occurring hr
  have hsatisfies : ∀ v : Valuation, v.Satisfies formula ↔ (r.value v).isTrue = true := by
    intro v
    rw [h.satisfies_iff, hequiv.value]
  have hrsingle := hsingle.of_occurring hequiv.wellFormed
  simp only [hsatisfies]
  simp only [checkByEnumeration, hwidth, hr, require_true, ok_bind]
  split
  case h_1 c hconst =>
      rw [Expr.const?_eq_some] at hconst
      subst hconst
      refine ⟨_, rfl, ?_⟩
      cases hc : c.isTrue with
      | true => simp [Expr.value, hc]
      | false => simp [Expr.value, hc]
  case h_2 =>
      rw [foldlM_addWidths 0 (by rwa [Nat.zero_add]), ok_bind, Nat.zero_add, ← Expr.variableWidth]
      simp only [Bool.or_eq_true, decide_eq_true_eq]
      split
      case isTrue hunknown => exact ⟨.unknown, rfl, by simp, by simp, fun _ => hunknown⟩
      case isFalse hknown =>
        have hscope := wellFormed_of_not_isOpaque hequiv.wellFormed hrsingle (not_or.mp hknown).1
        obtain ⟨found, hfound, hiff⟩ := holdsFrom_modulus hscope
          (validWidth_freeVariables hequiv.wellFormed hrsingle) r.nodup_names_freeVariables
        rw [Expr.variableWidth, hfound, ok_bind, ← not_exists, ← hiff]
        refine ⟨_, rfl, ?_⟩
        cases found <;> simp

theorem variableWidth_lt_of_check {bound : Nat} {answer : Satisfiability} {r : Expr}
    (hr : formula.simplify = .ok r) (h : checkByEnumeration bound formula = .ok answer) :
    r.variableWidth < 2 ^ 32 := by
  rw [checkByEnumeration, hr] at h
  obtain ⟨-, -, h⟩ := exists_of_bind_eq_ok h
  rw [ok_bind] at h
  split at h
  case h_1 c hconst =>
    rw [Expr.const?_eq_some] at hconst
    subst hconst
    show 0 < 2 ^ 32
    decide
  case h_2 =>
    obtain ⟨total, htotal, -⟩ := exists_of_bind_eq_ok h
    have hlt := sum_lt_of_foldlM_addWidths (by decide) htotal
    rwa [Nat.zero_add] at hlt

end Answer

theorem enumerating_soundOver (bound : Nat) {s : Scope}
    (hs : ∀ name width width', s.var name width → s.var name width' → width = width') :
    (enumerating bound).SoundOver s := by
  intro formula h hwidth hcheck
  obtain ⟨r, hr, -⟩ := Expr.simplify_sound h
  have hchecked : checkByEnumeration (min bound 24) formula = .ok .unsat := by
    cases hresult : checkByEnumeration (min bound 24) formula with
    | ok answer =>
        simp only [enumerating, hresult] at hcheck
        cases hcheck
        rfl
    | error fault =>
        simp only [enumerating, hresult] at hcheck
        cases hcheck
  have hsingle : formula.SingleWidths :=
    fun name _ _ hw hw' => hs name _ _ (h.subterm _ hw).2 (h.subterm _ hw').2
  obtain ⟨answer, hanswer, -, hunsat, -⟩ :=
    checkByEnumeration_spec (min bound 24) h hwidth hsingle hr
      (variableWidth_lt_of_check hr hchecked)
  cases hchecked.symm.trans hanswer
  exact hunsat rfl

/-- The enumerating solver answers every one-bit formula whose variables each have one width. It
finds a formula satisfiable or unsatisfiable only if it is, and leaves it open only if the
simplified formula still mentions a register or a memory cell, or has more bits of variables than
may be enumerated. -/
theorem enumerating_check_sound_and_complete (bound : Nat) (h : formula.WellFormed .all)
    (hwidth : formula.width = 1) (hsingle : formula.SingleWidths)
    (htotal : formula.variableWidth < 2 ^ 32) :
    ∃ simplified answer, formula.simplify = .ok simplified ∧
      (enumerating bound).check formula = .ok answer ∧
      (answer = .sat → ∃ v : Valuation, v.Satisfies formula) ∧
      (answer = .unsat → ∀ v : Valuation, ¬ v.Satisfies formula) ∧
      (answer = .unknown →
        (∃ register, .reg register ∈ simplified.subterms) ∨
        (∃ address offset width, .mem address offset width ∈ simplified.subterms) ∨
        min bound 24 < simplified.variableWidth) := by
  obtain ⟨simplified, hsimplify, hequiv⟩ := Expr.simplify_sound h.occurring
  have hsimplified := (Expr.variableWidth_le hsingle hequiv.wellFormed).trans_lt htotal
  obtain ⟨answer, hcheck, hsat, hunsat, hunknown⟩ :=
    checkByEnumeration_spec (min bound 24) h hwidth hsingle hsimplify hsimplified
  refine ⟨simplified, answer, hsimplify, ?_, hsat, hunsat, ?_⟩
  · simp only [enumerating, hcheck]
    rfl
  · rwa [isOpaque_iff, or_assoc] at hunknown

/-- A multiplication over one byte that only some values satisfy, next to a comparison of its
slice. -/
theorem enumerating_check_sound_and_complete_of_product :
    let formula : Expr := .binary .and
      (.binary .eq (.binary .mul (.var "x" 8) (.var "x" 8)) (.const ⟨8, 0x31⟩))
      (.binary .ult (.var "y" 4) (.unary (.extract 2 4) (.var "x" 8)))
    (formula.WellFormed .all ∧ formula.width = 1 ∧ formula.SingleWidths ∧
      formula.variableWidth < 2 ^ 32) ∧
    ∃ simplified answer, formula.simplify = .ok simplified ∧
      (enumerating 16).check formula = .ok answer ∧
      (answer = .sat → ∃ v : Valuation, v.Satisfies formula) ∧
      (answer = .unsat → ∀ v : Valuation, ¬ v.Satisfies formula) ∧
      (answer = .unknown →
        (∃ register, .reg register ∈ simplified.subterms) ∨
        (∃ address offset width, .mem address offset width ∈ simplified.subterms) ∨
        min 16 24 < simplified.variableWidth) := by
  intro formula
  have h : formula.WellFormed .all := by decide
  have hsingle : formula.SingleWidths := by
    intro name width width' hw hw'
    simp [formula, Expr.subterms] at hw hw'
    grind
  have htotal : formula.variableWidth < 2 ^ 32 := by decide
  exact ⟨⟨h, rfl, hsingle, htotal⟩, enumerating_check_sound_and_complete 16 h rfl hsingle htotal⟩

end FlowRecovery.Solver
