import Mathlib
import FlowRecovery.Expr.NormalForm
import FlowRecovery.Proofs.Expr.Termination

/-!
Disjunctive normal forms. The clauses of a formula hold exactly where the formula does, and their
literals are subterms of a normal form or complements of such, which the last pass of
simplification turns into literals again. So the normal form of a formula has its meaning and is a
disjunction of conjunctions of literals.
-/

namespace FlowRecovery.Expr

variable {s : Scope}

section Formulas

/-- A well formed one-bit expression, as it is built from connectives. -/
inductive Formula (s : Scope) : Expr → Prop
  | atom {e : Expr} (h : e.WellFormed s) (hwidth : e.width = 1) (hatom : e.isConnective = false) :
      Formula s e
  | not {a : Expr} (ha : Formula s a) : Formula s (unary .not a)
  | and {a b : Expr} (ha : Formula s a) (hb : Formula s b) : Formula s (binary .and a b)
  | or {a b : Expr} (ha : Formula s a) (hb : Formula s b) : Formula s (binary .or a b)
  | xor {a b : Expr} (ha : Formula s a) (hb : Formula s b) : Formula s (binary .xor a b)
  | ite {c a b : Expr} (hc : Formula s c) (ha : Formula s a) (hb : Formula s b) :
      Formula s (ite c a b)

theorem Formula.width {e : Expr} (h : Formula s e) : e.width = 1 := by
  induction h with
  | atom _ hwidth _ => exact hwidth
  | not _ iha => exact iha
  | and _ _ iha _ => exact iha
  | or _ _ iha _ => exact iha
  | xor _ _ iha _ => exact iha
  | ite _ _ _ _ iha _ => exact iha

theorem Formula.wellFormed {e : Expr} (h : Formula s e) : e.WellFormed s := by
  induction h with
  | atom h _ _ => exact h
  | not _ iha => exact ⟨iha, trivial⟩
  | and ha hb iha ihb => exact ⟨iha, ihb, ha.width.trans hb.width.symm⟩
  | or ha hb iha ihb => exact ⟨iha, ihb, ha.width.trans hb.width.symm⟩
  | xor ha hb iha ihb => exact ⟨iha, ihb, ha.width.trans hb.width.symm⟩
  | ite hc ha hb ihc iha ihb => exact ⟨ihc, iha, ihb, hc.width, ha.width.trans hb.width.symm⟩

theorem WellFormed.formula {e : Expr} (h : e.WellFormed s) (hwidth : e.width = 1) :
    Formula s e := by
  induction e with
  | unary op a ih =>
      cases op with
      | not => exact .not (ih h.1 hwidth)
      | _ => exact .atom h hwidth (by simp [isConnective])
  | binary op a b iha ihb =>
      cases op with
      | and => exact .and (iha h.1 hwidth) (ihb h.2.1 (h.2.2.symm.trans hwidth))
      | or => exact .or (iha h.1 hwidth) (ihb h.2.1 (h.2.2.symm.trans hwidth))
      | xor => exact .xor (iha h.1 hwidth) (ihb h.2.1 (h.2.2.symm.trans hwidth))
      | _ => exact .atom h hwidth (by simp [isConnective])
  | ite c a b ihc iha ihb =>
      obtain ⟨hc, ha, hb, hbit, hsame⟩ := h
      exact .ite (ihc hc hbit) (iha ha hwidth) (ihb hb (hsame.symm.trans hwidth))
  | _ => exact .atom h hwidth (by simp [isConnective])

theorem formula_bool (value : Bool) : Formula s (bool value) :=
  (wellFormed_bool value).formula rfl

/-- Whether a formula is true under a valuation. -/
def holds (v : Valuation) (e : Expr) : Bool :=
  (e.value v).isTrue

variable {a b c : Expr} (v : Valuation)

theorem holds_bool (value : Bool) : (bool value).holds v = value := by
  cases value <;> rfl

theorem holds_not (ha : Formula s a) : (unary .not a).holds v = !a.holds v := by
  have hbits : ∀ x : BitVec 1, (~~~x != 0#1) = !(x != 0#1) := by decide
  obtain ⟨x, hx⟩ := ha.wellFormed.exists_bits ha.width v
  simp only [holds, value, hx, UnaryOp.on_ofBits, UnaryOp.onBits, Word.isTrue_ofBits, hbits]

theorem holds_binary {op : BinaryOp} {f : Bool → Bool → Bool} (ha : Formula s a)
    (hb : Formula s b)
    (hop : ∀ x y : BitVec 1, (op.onBits x y).isTrue = f (x != 0#1) (y != 0#1)) :
    (binary op a b).holds v = f (a.holds v) (b.holds v) := by
  obtain ⟨x, hx⟩ := ha.wellFormed.exists_bits ha.width v
  obtain ⟨y, hy⟩ := hb.wellFormed.exists_bits hb.width v
  simp only [holds, value, hx, hy, BinaryOp.on_ofBits, Word.isTrue_ofBits, hop]

theorem holds_and (ha : Formula s a) (hb : Formula s b) :
    (binary .and a b).holds v = (a.holds v && b.holds v) :=
  holds_binary v ha hb (by decide)

theorem holds_or (ha : Formula s a) (hb : Formula s b) :
    (binary .or a b).holds v = (a.holds v || b.holds v) :=
  holds_binary v ha hb (by decide)

theorem holds_xor (ha : Formula s a) (hb : Formula s b) :
    (binary .xor a b).holds v = (a.holds v ^^ b.holds v) :=
  holds_binary v ha hb (by decide)

theorem holds_ite : (ite c a b).holds v = if c.holds v then a.holds v else b.holds v :=
  apply_ite Word.isTrue _ _ _

theorem equiv_of_holds {e r : Expr} (he : Formula s e) (hr : Formula s r)
    (h : ∀ v, r.holds v = e.holds v) :
    Equiv s e r := by
  have hbits : ∀ x y : BitVec 1, (x != 0#1) = (y != 0#1) → x = y := by decide
  refine ⟨hr.wellFormed, hr.width.trans he.width.symm, fun v => ?_⟩
  obtain ⟨x, hx⟩ := hr.wellFormed.exists_bits hr.width v
  obtain ⟨y, hy⟩ := he.wellFormed.exists_bits he.width v
  have hsame := h v
  rw [holds, holds, hx, hy, Word.isTrue_ofBits, Word.isTrue_ofBits] at hsame
  rw [hx, hy, hbits x y hsame]

end Formulas

section Clauses

/-- Whether one of some clauses has only true literals. -/
def clausesHold (v : Valuation) (clauses : List (List Expr)) : Bool :=
  clauses.any fun clause => clause.all (holds v)

theorem clausesHold_append (v : Valuation) (left right : List (List Expr)) :
    clausesHold v (left ++ right) = (clausesHold v left || clausesHold v right) :=
  List.any_append

theorem clausesHold_cross (v : Valuation) (left right : List (List Expr)) :
    clausesHold v (crossClauses left right) = (clausesHold v left && clausesHold v right) := by
  rw [Bool.eq_iff_iff]
  simp only [clausesHold, crossClauses, List.any_eq_true, List.mem_flatMap, List.mem_map,
    Bool.and_eq_true]
  constructor
  · rintro ⟨clause, ⟨l, hl, r, hr, rfl⟩, hall⟩
    rw [List.all_append, Bool.and_eq_true] at hall
    exact ⟨⟨l, hl, hall.1⟩, r, hr, hall.2⟩
  · rintro ⟨⟨l, hl, hleft⟩, r, hr, hright⟩
    refine ⟨l ++ r, ⟨l, hl, r, hr, rfl⟩, ?_⟩
    rw [List.all_append, hleft, hright]
    rfl

section Equations

variable {a b c : Expr} {negated : Bool}

theorem clauses_not (h : a.width = 1) :
    (unary .not a).clauses negated = a.clauses (!negated) := by
  rw [clauses]
  exact if_pos ((Bool.and_true _).trans (decide_eq_true h))

theorem clauses_and (h : a.width = 1) : (binary .and a b).clauses negated =
    if negated then a.clauses true ++ b.clauses true
    else crossClauses (a.clauses false) (b.clauses false) := by
  rw [clauses]
  exact if_pos ((Bool.and_true _).trans (decide_eq_true h))

theorem clauses_or (h : a.width = 1) : (binary .or a b).clauses negated =
    if negated then crossClauses (a.clauses true) (b.clauses true)
    else a.clauses false ++ b.clauses false := by
  rw [clauses]
  exact if_pos ((Bool.and_true _).trans (decide_eq_true h))

theorem clauses_xor (h : a.width = 1) : (binary .xor a b).clauses negated =
    crossClauses (a.clauses false) (b.clauses (!negated)) ++ crossClauses (a.clauses true)
      (b.clauses negated) := by
  rw [clauses]
  exact if_pos ((Bool.and_true _).trans (decide_eq_true h))

theorem clauses_ite (h : a.width = 1) : (ite c a b).clauses negated =
    crossClauses (c.clauses false) (a.clauses negated) ++ crossClauses (c.clauses true)
      (b.clauses negated) := by
  rw [clauses]
  exact if_pos ((Bool.and_true _).trans (decide_eq_true h))

theorem clauses_const (value : Word) :
    (const value).clauses negated = if value.isTrue != negated then [[]] else [] := by
  rw [clauses, if_neg (by simp [isConnective])]

theorem clauses_atom {e : Expr} (hatom : e.isConnective = false) (hvariable : ¬ e.const?.isSome) :
    e.clauses negated = [[if negated then e.not else e]] := by
  unfold clauses
  rw [if_neg (by rw [hatom]; decide)]
  split
  · exact absurd rfl hvariable
  · rfl

end Equations

theorem clausesHold_clauses {e : Expr} (h : Formula s e) (v : Valuation) (negated : Bool) :
    clausesHold v (e.clauses negated) = (e.holds v ^^ negated) := by
  induction h generalizing negated with
  | @atom e h hwidth hatom =>
      by_cases hconst : e.const?.isSome
      · obtain ⟨x, hx⟩ := Option.isSome_iff_exists.mp hconst
        obtain rfl := const?_eq_some.mp hx
        rw [clauses_const, holds, value]
        cases x.isTrue <;> cases negated <;> rfl
      · rw [clauses_atom hatom hconst]
        cases negated with
        | false => simp [clausesHold]
        | true => simp [clausesHold, not, holds_not v (.atom h hwidth hatom)]
  | not ha iha =>
      rw [clauses_not ha.width, iha, holds_not v ha]
      simp
  | and ha hb iha ihb =>
      rw [clauses_and ha.width, holds_and v ha hb]
      cases negated with
      | false => simp [clausesHold_cross, iha, ihb]
      | true => simp [clausesHold_append, iha, ihb]
  | or ha hb iha ihb =>
      rw [clauses_or ha.width, holds_or v ha hb]
      cases negated with
      | false => simp [clausesHold_append, iha, ihb]
      | true => simp [clausesHold_cross, iha, ihb]
  | @xor a b ha hb iha ihb =>
      rw [clauses_xor ha.width, holds_xor v ha hb, clausesHold_append, clausesHold_cross,
        clausesHold_cross, iha, iha, ihb, ihb]
      cases a.holds v <;> cases b.holds v <;> cases negated <;> rfl
  | @ite c a b hc ha hb ihc iha ihb =>
      rw [clauses_ite ha.width, holds_ite, clausesHold_append, clausesHold_cross,
        clausesHold_cross, ihc, ihc, iha, ihb]
      cases c.holds v <;> simp

/-- The literals of the clauses of a formula are its subterms that are no connectives, and their
complements. -/
theorem literals_clauses {e : Expr} (h : Formula s e) {P : Expr → Prop}
    (hP : ∀ t ∈ e.subterms, Formula s t → t.isConnective = false → P t ∧ P t.not)
    (negated : Bool) :
    ∀ clause ∈ e.clauses negated, ∀ l ∈ clause, P l := by
  have happend : ∀ {left right : List (List Expr)}, (∀ clause ∈ left, ∀ l ∈ clause, P l) →
      (∀ clause ∈ right, ∀ l ∈ clause, P l) → ∀ clause ∈ left ++ right, ∀ l ∈ clause, P l :=
    fun hleft hright => List.forall_mem_append.mpr ⟨hleft, hright⟩
  have hcross : ∀ {left right : List (List Expr)}, (∀ clause ∈ left, ∀ l ∈ clause, P l) →
      (∀ clause ∈ right, ∀ l ∈ clause, P l) →
      ∀ clause ∈ crossClauses left right, ∀ l ∈ clause, P l := by
    intro left right hleft hright clause hclause
    simp only [crossClauses, List.mem_flatMap, List.mem_map] at hclause
    obtain ⟨l, hl, r, hr, rfl⟩ := hclause
    exact List.forall_mem_append.mpr ⟨hleft l hl, hright r hr⟩
  induction h generalizing negated with
  | @atom e h hwidth hatom =>
      obtain ⟨hplain, hcomplement⟩ := hP e e.self_mem_subterms (.atom h hwidth hatom) hatom
      by_cases hconst : e.const?.isSome
      · obtain ⟨x, hx⟩ := Option.isSome_iff_exists.mp hconst
        obtain rfl := const?_eq_some.mp hx
        rw [clauses_const]
        split <;> simp
      · rw [clauses_atom hatom hconst]
        cases negated with
        | false => simpa using hplain
        | true => simpa using hcomplement
  | not ha iha =>
      rw [subterms, List.forall_mem_cons] at hP
      rw [clauses_not ha.width]
      exact iha hP.2 _
  | and ha hb iha ihb =>
      rw [subterms, List.forall_mem_cons, List.forall_mem_append] at hP
      rw [clauses_and ha.width]
      cases negated with
      | false => exact hcross (iha hP.2.1 _) (ihb hP.2.2 _)
      | true => exact happend (iha hP.2.1 _) (ihb hP.2.2 _)
  | or ha hb iha ihb =>
      rw [subterms, List.forall_mem_cons, List.forall_mem_append] at hP
      rw [clauses_or ha.width]
      cases negated with
      | false => exact happend (iha hP.2.1 _) (ihb hP.2.2 _)
      | true => exact hcross (iha hP.2.1 _) (ihb hP.2.2 _)
  | xor ha hb iha ihb =>
      rw [subterms, List.forall_mem_cons, List.forall_mem_append] at hP
      rw [clauses_xor ha.width]
      exact happend (hcross (iha hP.2.1 _) (ihb hP.2.2 _)) (hcross (iha hP.2.1 _) (ihb hP.2.2 _))
  | ite hc ha hb ihc iha ihb =>
      rw [subterms, List.forall_mem_cons, List.forall_mem_append, List.forall_mem_append] at hP
      obtain ⟨-, ⟨hPc, hPa⟩, hPb⟩ := hP
      rw [clauses_ite ha.width]
      exact happend (hcross (ihc hPc _) (iha hPa _)) (hcross (ihc hPc _) (ihb hPb _))

end Clauses

section Shapes

/-- An expression that is no connective, or the complement of one. -/
inductive Literal : Expr → Prop
  | atom {t : Expr} (h : t.isConnective = false) : Literal t
  | complement {t : Expr} (h : t.isConnective = false) : Literal (unary .not t)

/-- Expressions of a kind, joined by an operator in any order. -/
inductive Joined (op : BinaryOp) (P : Expr → Prop) : Expr → Prop
  | part {e : Expr} (h : P e) : Joined op P e
  | join {a b : Expr} (ha : Joined op P a) (hb : Joined op P b) : Joined op P (binary op a b)

abbrev Conjunction : Expr → Prop :=
  Joined .and Literal

abbrev Disjunction : Expr → Prop :=
  Joined .or Conjunction

theorem Literal.isLiteral {e : Expr} (h : Literal e) : e.isLiteral = true := by
  cases h with
  | atom h =>
      unfold Expr.isLiteral
      split <;> simp [h]
  | complement h => simp [Expr.isLiteral, h]

theorem isConjunction_of_isLiteral {e : Expr} (h : e.isLiteral = true) :
    e.isConjunction = true := by
  unfold isConjunction
  split
  case h_1 a b =>
    have hwide : ¬ (binary .and a b).width = 1 := fun hbit => by
      simp [isLiteral, isConnective, hbit] at h
    rw [if_neg hwide]
    exact h
  case h_2 => exact h

theorem Joined.isConjunction {e : Expr} (h : Conjunction e) : e.isConjunction = true := by
  induction h with
  | part h => exact isConjunction_of_isLiteral h.isLiteral
  | @join a b ha hb iha ihb =>
      rw [Expr.isConjunction]
      split
      case isTrue => rw [iha, ihb, Bool.and_self]
      case isFalse hwide => simp [isLiteral, isConnective, hwide]

theorem isDnf_of_isConjunction {e : Expr} (h : e.isConjunction = true) : e.isDnf = true := by
  unfold isDnf
  split
  case h_1 a b =>
    have hwide : ¬ (binary .or a b).width = 1 := fun hbit => by
      simp [Expr.isConjunction, isLiteral, isConnective, hbit] at h
    rw [if_neg hwide]
    exact h
  case h_2 => exact h

theorem Joined.isDnf {e : Expr} (h : Disjunction e) : e.isDnf = true := by
  induction h with
  | part h => exact isDnf_of_isConjunction h.isConjunction
  | @join a b ha hb iha ihb =>
      rw [Expr.isDnf]
      split
      case isTrue => rw [iha, ihb, Bool.and_self]
      case isFalse hwide => simp [Expr.isConjunction, isLiteral, isConnective, hwide]

end Shapes

section Pass

/-- What the rules make of a conjunction or a disjunction: one of its sides, a constant, or the
node itself with its sides in some order. -/
theorem afterRule_connective {op : BinaryOp} (hop : op = .and ∨ op = .or) {a b r : Expr}
    (h : afterRule simplifyNode (binary op a b) = .ok r) :
    r.const?.isSome ∨ r = a ∨ r = b ∨ r = binary op a b ∨ r = binary op b a := by
  have hoperator : Gives (fun r => r.const?.isSome ∨ r = a ∨ r = b ∨ r = binary op a b ∨
      r = binary op b a) (simplifyOperator op a b) := by
    refine .of_bind fun one _ => ?_
    rcases hop with rfl | rfl
    · refine .of_ite (fun _ => .of_some (by simp)) fun _ => ?_
      split
      case h_1 c hc =>
        exact .of_bind fun _ _ => .of_ite (fun _ => .of_some (by simp)) fun _ =>
          .of_first (.inl rfl) .of_none
      case h_2 => exact .of_none
    · refine .of_ite (fun _ => .of_some (by simp)) fun _ => ?_
      split
      case h_1 c hc => exact .of_bind fun _ _ => .of_first (by simp) .of_none
      case h_2 => exact .of_none
  have hnode : Gives (fun r => r.const?.isSome ∨ r = a ∨ r = b ∨ r = binary op a b ∨
      r = binary op b a) (simplifyBinary op a b) := by
    refine .of_bind fun _ _ => ?_
    split
    case h_1 x y _ => exact .of_bind fun value _ => .of_some (.inl rfl)
    case h_2 => exact .of_ite (fun _ => .of_mkBinary (by simp)) fun _ => hoperator
    case h_3 => exact hoperator
  obtain ⟨answer, hanswer, h⟩ := exists_of_bind_eq_ok h
  cases h
  cases answer with
  | none => simp
  | some r => exact hnode r hanswer

theorem Joined.of_pass {op : BinaryOp} (hop : op = .and ∨ op = .or) {P Q : Expr → Prop}
    (hconst : ∀ value, Q (const value))
    (hpart : ∀ e r, P e → e.simplifyPass = .ok r → Joined op Q r) {e r : Expr} (h : Joined op P e)
    (hr : e.simplifyPass = .ok r) : Joined op Q r := by
  induction h generalizing r with
  | part h => exact hpart _ r h hr
  | @join a b ha hb iha ihb =>
      obtain ⟨a', b', ha', hb', hr⟩ := transformM_binary hr
      have hleft := iha ha'
      have hright := ihb hb'
      rcases afterRule_connective hop hr with hsome | rfl | rfl | rfl | rfl
      · obtain ⟨value, hvalue⟩ := Option.isSome_iff_exists.mp hsome
        rw [const?_eq_some.mp hvalue]
        exact .part (hconst value)
      · exact hleft
      · exact hright
      · exact .join hleft hright
      · exact .join hright hleft

/-- A literal over an atom that a pass keeps. -/
inductive SettledLiteral (s : Scope) : Expr → Prop
  | atom {t : Expr} (ht : Formula s t) (hatom : t.isConnective = false) (hsettled : t.Settled) :
      SettledLiteral s t
  | complement {t : Expr} (ht : Formula s t) (hatom : t.isConnective = false)
      (hsettled : t.Settled) :
      SettledLiteral s (unary .not t)

theorem SettledLiteral.formula {e : Expr} (h : SettledLiteral s e) : Formula s e := by
  cases h with
  | atom ht _ _ => exact ht
  | complement ht _ _ => exact .not ht

theorem literal_const (value : Word) : Literal (const value) :=
  .atom (by simp [isConnective])

theorem literal_afterRule_not {t r : Expr} (ht : Formula s t) (hatom : t.isConnective = false)
    (h : afterRule simplifyNode (unary .not t) = .ok r) : Literal r := by
  have hrule : Gives Literal (simplifyUnary .not t) := by
    cases t with
    | const value => exact .of_bind fun value _ => .of_some (literal_const value)
    | unary op x =>
        cases op with
        | not =>
            -- the complement of a formula is a connective
            rw [isConnective, Bool.and_true] at hatom
            exact absurd ht.width (of_decide_eq_false hatom)
        | _ => exact .of_none
    | binary comparison x y =>
        cases comparison with
        | eq | ne | ult | ule | slt | sle => exact .of_mkBinary (.atom (by simp [isConnective]))
        | _ => exact .of_none
    | _ => exact .of_none
  obtain ⟨answer, hanswer, h⟩ := exists_of_bind_eq_ok h
  cases h
  cases answer with
  | none => exact .complement hatom
  | some r => exact hrule r hanswer

theorem SettledLiteral.literal_of_pass {e r : Expr} (h : SettledLiteral s e)
    (hr : e.simplifyPass = .ok r) :
    Literal r := by
  cases h with
  | atom ht hatom hsettled =>
      cases hsettled.symm.trans hr
      exact .atom hatom
  | complement ht hatom hsettled =>
      obtain ⟨t', ht', hr⟩ := transformM_unary hr
      cases hsettled.symm.trans ht'
      exact literal_afterRule_not ht hatom hr

end Pass

section Join

/-- An operator that joins two formulas by a connective, and any number of them by its fold over
lists. -/
structure Joins (s : Scope) (op : BinaryOp) (f : Bool → Bool → Bool) (neutral : Bool)
    (fold : List Expr → (Expr → Bool) → Bool) : Prop where
  formula {a b : Expr} (ha : Formula s a) (hb : Formula s b) : Formula s (binary op a b)
  holds {a b : Expr} (v : Valuation) (ha : Formula s a) (hb : Formula s b) :
    (binary op a b).holds v = f (a.holds v) (b.holds v)
  assoc (x y z : Bool) : f (f x y) z = f x (f y z)
  neutral_right (x : Bool) : f x neutral = x
  fold_nil (p : Expr → Bool) : fold [] p = neutral
  fold_cons (e : Expr) (es : List Expr) (p : Expr → Bool) : fold (e :: es) p = f (p e) (fold es p)

theorem joins_and : Joins s .and (· && ·) true List.all :=
  ⟨.and, holds_and, Bool.and_assoc, Bool.and_true, fun _ => rfl, fun _ _ _ => rfl⟩

theorem joins_or : Joins s .or (· || ·) false List.any :=
  ⟨.or, holds_or, Bool.or_assoc, Bool.or_false, fun _ => rfl, fun _ _ _ => rfl⟩

variable {op : BinaryOp} {f : Bool → Bool → Bool} {neutral : Bool}
  {fold : List Expr → (Expr → Bool) → Bool} {P : Expr → Prop}

theorem Joins.foldlM_mkBinary (hop : Joins s op f neutral fold) (hP : ∀ e, P e → Formula s e)
    (rest : List Expr) {first : Expr} (hfirst : Formula s first) (hjoined : Joined op P first)
    (hrest : ∀ e ∈ rest, P e) :
    ∃ r, rest.foldlM (mkBinary op) first = .ok r ∧ Formula s r ∧ Joined op P r ∧
      ∀ v, r.holds v = f (first.holds v) (fold rest (Expr.holds v)) := by
  induction rest generalizing first with
  | nil =>
      refine ⟨first, rfl, hfirst, hjoined, fun v => ?_⟩
      rw [hop.fold_nil, hop.neutral_right]
  | cons e rest ih =>
      rw [List.forall_mem_cons] at hrest
      have he := hP e hrest.1
      have hnode := hop.formula hfirst he
      obtain ⟨r, hr, hformula, hresult, hholds⟩ :=
        ih hnode (.join hjoined (.part hrest.1)) hrest.2
      refine ⟨r, ?_, hformula, hresult, fun v => ?_⟩
      · rw [List.foldlM_cons, mkBinary_of_wellFormed hnode.wellFormed, ok_bind, hr]
      · rw [hholds, hop.holds v hfirst he, hop.assoc, hop.fold_cons]

theorem Joins.joinWith (hop : Joins s op f neutral fold) (hP : ∀ e, P e → Formula s e)
    (hneutral : P (bool neutral)) {es : List Expr} (hes : ∀ e ∈ es, P e) :
    ∃ r, joinWith op (bool neutral) es = .ok r ∧ Formula s r ∧ Joined op P r ∧
      ∀ v, r.holds v = fold es (Expr.holds v) := by
  cases es with
  | nil =>
      refine ⟨bool neutral, rfl, formula_bool neutral, .part hneutral, fun v => ?_⟩
      rw [hop.fold_nil, holds_bool]
  | cons e rest =>
      rw [List.forall_mem_cons] at hes
      simp only [hop.fold_cons]
      exact hop.foldlM_mkBinary hP rest (hP e hes.1) (.part hes.1) hes.2

end Join

section Result

/-- A conjunction of literals over atoms that a pass keeps. -/
abbrev SettledConjunction (s : Scope) (e : Expr) : Prop :=
  Formula s e ∧ Joined .and (SettledLiteral s) e

theorem settledLiteral_bool (value : Bool) : SettledLiteral s (bool value) :=
  .atom (formula_bool value) (by simp [bool, isConnective]) rfl

theorem mapM_joinWith {clauses : List (List Expr)}
    (h : ∀ clause ∈ clauses, ∀ l ∈ clause, SettledLiteral s l) :
    ∃ es, clauses.mapM (joinWith .and (bool true)) = .ok es ∧ (∀ e ∈ es, SettledConjunction s e) ∧
      ∀ v, es.any (holds v) = clausesHold v clauses := by
  induction clauses with
  | nil => exact ⟨[], rfl, by simp, fun v => rfl⟩
  | cons clause rest ih =>
      rw [List.forall_mem_cons] at h
      obtain ⟨e, he, hformula, hjoined, hholds⟩ :=
        joins_and.joinWith (fun _ => SettledLiteral.formula) (settledLiteral_bool true) h.1
      obtain ⟨es, hes, hall, hany⟩ := ih h.2
      refine ⟨e :: es, ?_, List.forall_mem_cons.mpr ⟨⟨hformula, hjoined⟩, hall⟩, fun v => ?_⟩
      · rw [List.mapM_cons, he, ok_bind, hes, ok_bind]
        rfl
      · rw [List.any_cons, hholds, hany]
        rfl

theorem dnf_sound {e : Expr} (h : e.WellFormed s) (hwidth : e.width = 1) :
    ∃ r, e.dnf = .ok r ∧ Disjunction r ∧ Equiv s e r := by
  obtain ⟨t, ht, hequiv⟩ := simplify_sound h
  have hformula := hequiv.wellFormed.formula (hequiv.width.trans hwidth)
  have hliterals : ∀ clause ∈ t.clauses false, ∀ l ∈ clause, SettledLiteral s l := by
    refine literals_clauses hformula (fun x hx hatomic hatom => ?_) false
    have hsettled := (settled_of_simplify ht).subterm hx
    exact ⟨.atom hatomic hatom hsettled, .complement hatomic hatom hsettled⟩
  obtain ⟨es, hes, hall, hany⟩ := mapM_joinWith hliterals
  have hfalse : SettledConjunction s (bool false) :=
    ⟨formula_bool false, .part (settledLiteral_bool false)⟩
  obtain ⟨d, hd, hdformula, hjoined, hholds⟩ := joins_or.joinWith (fun _ he => he.1) hfalse hall
  obtain ⟨r, hr, hrequiv⟩ := simplifyPass_sound hdformula.wellFormed
  refine ⟨r, ?_, ?_, ?_⟩
  · rw [dnf, require, if_pos hwidth, ok_bind, ht, ok_bind, hes, ok_bind, hd, ok_bind, hr]
  · refine hjoined.of_pass (.inr rfl) (fun value => .part (literal_const value))
      (fun c c' hc hc' => ?_) hr
    exact .part (hc.2.of_pass (.inl rfl) literal_const
      (fun l l' hl hl' => .part (hl.literal_of_pass hl')) hc')
  · refine (hequiv.trans (equiv_of_holds hformula hdformula fun v => ?_)).trans hrequiv
    rw [hholds, hany, clausesHold_clauses hformula, Bool.xor_false]

/-- The disjunctive normal form of a one-bit expression exists, and it is a disjunction of
conjunctions of literals, also by the decision procedure for that. -/
theorem dnf_is_disjunction_of_conjunctions {e : Expr} (h : e.Built .all) (hwidth : e.width = 1) :
    ∃ r, e.dnf = .ok r ∧ r.width = 1 ∧ r.isDnf = true ∧ Disjunction r := by
  rw [built_iff_wellFormed] at h
  obtain ⟨r, hr, hshape, hequiv⟩ := dnf_sound h hwidth
  exact ⟨r, hr, hequiv.width.trans hwidth, hshape.isDnf, hshape⟩

/-- A choice between formulas under an exclusive disjunction, one of which is complemented. -/
theorem dnf_is_disjunction_of_conjunctions_of_choice :
    let e := binary .xor
      (ite (var "p" 1) (binary .ult (var "x" 8) (const ⟨8, 5⟩)) (unary .not (var "q" 1)))
      (unary .not (binary .and (var "q" 1) (unary (.extract 3 1) (var "x" 8))))
    e.Built .all ∧ e.width = 1 ∧ ∃ r, e.dnf = .ok r ∧ r.width = 1 ∧ r.isDnf = true ∧
      Disjunction r := by
  intro e
  have h : e.Built .all := built_iff_wellFormed.mpr (by decide)
  have hwidth : e.width = 1 := by decide
  exact ⟨h, hwidth, dnf_is_disjunction_of_conjunctions h hwidth⟩

/-- A one-bit expression and its disjunctive normal form, which exists, evaluate to the same bit
under every valuation. -/
theorem dnf_preserves_meaning {e : Expr} (h : e.Built .all) (hwidth : e.width = 1) :
    ∃ r, e.dnf = .ok r ∧ r.width = 1 ∧ ∀ v : Valuation, ∃ x : BitVec 1,
      e.evaluate v.leaf = .ok (some (.ofBits x)) ∧
      r.evaluate v.leaf = .ok (some (.ofBits x)) := by
  rw [built_iff_wellFormed] at h
  obtain ⟨r, hr, -, hequiv⟩ := dnf_sound h hwidth
  refine ⟨r, hr, hequiv.width.trans hwidth, fun v => ?_⟩
  obtain ⟨x, hx⟩ := h.exists_bits hwidth v
  refine ⟨x, ?_, ?_⟩
  · rw [evaluate_leaf h, hx]
  · rw [hequiv.evaluate_eq h, evaluate_leaf h, hx]

/-- A complemented choice whose clauses are crossed with those of a disjunction. -/
theorem dnf_preserves_meaning_of_choice :
    let e := binary .and
      (unary .not (ite (binary .eq (var "x" 16) (mem (var "a" 32) 2 16)) (var "p" 1) (var "q" 1)))
      (binary .or (unary .not (var "p" 1)) (binary .sle (var "x" 16) (const ⟨16, 0xfffe⟩)))
    e.Built .all ∧ e.width = 1 ∧ ∃ r, e.dnf = .ok r ∧ r.width = 1 ∧
      ∀ v : Valuation, ∃ x : BitVec 1, e.evaluate v.leaf = .ok (some (.ofBits x)) ∧
        r.evaluate v.leaf = .ok (some (.ofBits x)) := by
  intro e
  have h : e.Built .all := built_iff_wellFormed.mpr (by decide)
  have hwidth : e.width = 1 := by decide
  exact ⟨h, hwidth, dnf_preserves_meaning h hwidth⟩

end Result

end FlowRecovery.Expr
