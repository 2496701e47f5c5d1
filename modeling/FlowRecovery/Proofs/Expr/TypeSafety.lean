import Mathlib
import FlowRecovery.Proofs.Expr.WellFormed

namespace FlowRecovery.Expr

variable {s : Scope} {leaf : Expr → Option Word} {e : Expr} {v : Word}

/-- The leaves that evaluation may ask for. What stands in the address of a memory cell is not
among them. -/
def leaves : Expr → List Expr
  | const _ => []
  | e@(var _ _) | e@(reg _) | e@(mem _ _ _) => [e]
  | unary _ a => a.leaves
  | binary _ a b => a.leaves ++ b.leaves
  | ite condition a b => condition.leaves ++ (a.leaves ++ b.leaves)

/-- The values that the leaves of an expression have, if they have any, fit their widths. -/
def LeavesFit (leaf : Expr → Option Word) (e : Expr) : Prop :=
  ∀ l ∈ e.leaves, ∀ x, leaf l = some x → x.width = l.width ∧ x.value < 2 ^ l.width

/-- What an expression evaluates to. Of a choice only the chosen side needs a value. -/
inductive Evaluates (leaf : Expr → Option Word) : Expr → Word → Prop
  | const (value : Word) : Evaluates leaf (const value) value
  | var {name : String} {width : Nat} {x : Word} (h : leaf (var name width) = some x) :
      Evaluates leaf (var name width) x
  | reg {register : Register} {x : Word} (h : leaf (reg register) = some x) : Evaluates leaf
      (reg register) x
  | mem {address : Expr} {offset : UInt64} {width : Nat} {x : Word}
      (h : leaf (mem address offset width) = some x) :
      Evaluates leaf (mem address offset width) x
  | unary {op : UnaryOp} {a : Expr} {x : Word} (ha : Evaluates leaf a x) : Evaluates leaf
      (unary op a) (op.on x)
  | binary {op : BinaryOp} {a b : Expr} {x y : Word} (ha : Evaluates leaf a x)
      (hb : Evaluates leaf b y) :
      Evaluates leaf (binary op a b) (op.on x y)
  | first {condition a b : Expr} {c x : Word} (hc : Evaluates leaf condition c)
      (htrue : c.isTrue = true)
      (ha : Evaluates leaf a x) : Evaluates leaf (ite condition a b) x
  | second {condition a b : Expr} {c x : Word} (hc : Evaluates leaf condition c)
      (hfalse : c.isTrue = false)
      (hb : Evaluates leaf b x) : Evaluates leaf (ite condition a b) x

section Leaves

variable {op : UnaryOp} {op' : BinaryOp} {condition a b : Expr}

theorem LeavesFit.operand (h : LeavesFit leaf (unary op a)) : LeavesFit leaf a :=
  h

theorem LeavesFit.operands (h : LeavesFit leaf (binary op' a b)) :
    LeavesFit leaf a ∧ LeavesFit leaf b :=
  List.forall_mem_append.mp h

theorem LeavesFit.branches (h : LeavesFit leaf (ite condition a b)) :
    LeavesFit leaf condition ∧ LeavesFit leaf a ∧ LeavesFit leaf b := by
  obtain ⟨hc, hab⟩ := List.forall_mem_append.mp h
  exact ⟨hc, List.forall_mem_append.mp hab⟩

theorem LeavesFit.canonical (h : LeavesFit leaf e) (he : e.WellFormed s) (hmem : e ∈ e.leaves)
    (hv : leaf e = some v) :
    v.Canonical ∧ v.width = e.width := by
  obtain ⟨hwidth, hlt⟩ := h e hmem v hv
  refine ⟨⟨?_, ?_⟩, hwidth⟩
  · rw [hwidth]
    exact he.validWidth
  · rwa [hwidth, Word.modulus_eq]

end Leaves

theorem Evaluates.canonical (h : Evaluates leaf e v) (he : e.WellFormed s)
    (hleaf : LeavesFit leaf e) :
    v.Canonical ∧ v.width = e.width := by
  induction h with
  | const value => exact ⟨he, rfl⟩
  | var h => exact hleaf.canonical he List.mem_cons_self h
  | reg h => exact hleaf.canonical he List.mem_cons_self h
  | mem h => exact hleaf.canonical he List.mem_cons_self h
  | unary _ ih =>
      obtain ⟨hx, hwidth⟩ := ih he.1 hleaf.operand
      constructor
      · apply UnaryOp.canonical_on hx
        rw [hwidth]
        exact he.2
      · rw [UnaryOp.width_on, hwidth, width]
  | binary _ _ iha ihb =>
      obtain ⟨hx, hxwidth⟩ := iha he.1 hleaf.operands.1
      obtain ⟨-, hywidth⟩ := ihb he.2.1 hleaf.operands.2
      constructor
      · apply BinaryOp.canonical_on hx
        rw [hxwidth, hywidth]
        exact he.2.2
      · rw [BinaryOp.width_on, hxwidth, hywidth, width_binary]
  | first _ _ _ _ iha => exact iha he.2.1 hleaf.branches.2.1
  | second _ _ _ _ ihb =>
      obtain ⟨hx, hwidth⟩ := ihb he.2.2.1 hleaf.branches.2.2
      exact ⟨hx, hwidth.trans he.2.2.2.2.symm⟩

theorem exists_evaluates (h : ∀ l ∈ e.leaves, (leaf l).isSome = true) :
    ∃ v, Evaluates leaf e v := by
  induction e with
  | const value => exact ⟨value, .const value⟩
  | var name width =>
      obtain ⟨x, hx⟩ := Option.isSome_iff_exists.mp (h _ List.mem_cons_self)
      exact ⟨x, .var hx⟩
  | reg register =>
      obtain ⟨x, hx⟩ := Option.isSome_iff_exists.mp (h _ List.mem_cons_self)
      exact ⟨x, .reg hx⟩
  | mem address offset width =>
      obtain ⟨x, hx⟩ := Option.isSome_iff_exists.mp (h _ List.mem_cons_self)
      exact ⟨x, .mem hx⟩
  | unary op a ih =>
      obtain ⟨x, hx⟩ := ih h
      exact ⟨op.on x, .unary hx⟩
  | binary op a b iha ihb =>
      obtain ⟨ha, hb⟩ := List.forall_mem_append.mp h
      obtain ⟨x, hx⟩ := iha ha
      obtain ⟨y, hy⟩ := ihb hb
      exact ⟨op.on x y, .binary hx hy⟩
  | ite condition a b ihc iha ihb =>
      obtain ⟨hc, hab⟩ := List.forall_mem_append.mp h
      obtain ⟨ha, hb⟩ := List.forall_mem_append.mp hab
      obtain ⟨c, hc⟩ := ihc hc
      cases htruth : c.isTrue with
      | true =>
          obtain ⟨x, hx⟩ := iha ha
          exact ⟨x, .first hc htruth hx⟩
      | false =>
          obtain ⟨x, hx⟩ := ihb hb
          exact ⟨x, .second hc htruth hx⟩

section Inversion

variable {op : UnaryOp} {op' : BinaryOp} {condition a b : Expr}

theorem evaluates_unary_iff :
    Evaluates leaf (unary op a) v ↔ ∃ x, Evaluates leaf a x ∧ op.on x = v := by
  constructor
  · intro h
    cases h with
    | unary ha => exact ⟨_, ha, rfl⟩
  · rintro ⟨x, ha, rfl⟩
    exact .unary ha

theorem evaluates_binary_iff : Evaluates leaf (binary op' a b) v ↔
    ∃ x, Evaluates leaf a x ∧ ∃ y, Evaluates leaf b y ∧ op'.on x y = v := by
  constructor
  · intro h
    cases h with
    | binary ha hb => exact ⟨_, ha, _, hb, rfl⟩
  · rintro ⟨x, ha, y, hb, rfl⟩
    exact .binary ha hb

theorem evaluates_ite_iff : Evaluates leaf (ite condition a b) v ↔
    ∃ c, Evaluates leaf condition c ∧ Evaluates leaf (if c.isTrue then a else b) v := by
  constructor
  · intro h
    cases h with
    | first hc htrue ha => exact ⟨_, hc, by rwa [if_pos htrue]⟩
    | second hc hfalse hb => exact ⟨_, hc, by rwa [if_neg (by simp [hfalse])]⟩
  · rintro ⟨c, hc, h⟩
    split at h
    case isTrue htrue => exact .first hc htrue h
    case isFalse hfalse => exact .second hc (by simpa using hfalse) h

end Inversion

/-- Evaluation breaks no contract, and finds a value exactly when the expression evaluates to
it. -/
theorem exists_evaluate (he : e.WellFormed s) (hleaf : LeavesFit leaf e) :
    ∃ r, e.evaluate leaf = .ok r ∧ ∀ v, r = some v ↔ Evaluates leaf e v := by
  induction e with
  | const value =>
      refine ⟨some value, rfl, fun v => ⟨?_, ?_⟩⟩
      · rintro ⟨⟩
        exact .const value
      · rintro ⟨⟩
        rfl
  | var name width =>
      refine ⟨leaf (var name width), rfl, fun v => ⟨.var, ?_⟩⟩
      rintro ⟨⟩
      assumption
  | reg register =>
      refine ⟨leaf (reg register), rfl, fun v => ⟨.reg, ?_⟩⟩
      rintro ⟨⟩
      assumption
  | mem address offset width =>
      refine ⟨leaf (mem address offset width), rfl, fun v => ⟨.mem, ?_⟩⟩
      rintro ⟨⟩
      assumption
  | unary op a ih =>
      obtain ⟨r, hr, hiff⟩ := ih he.1 hleaf.operand
      refine ⟨r.map op.on, ?_, ?_⟩
      · cases r with
        | none => simp [evaluate, hr]
        | some x =>
            obtain ⟨hx, hwidth⟩ := ((hiff x).mp rfl).canonical he.1 hleaf.operand
            have happly : op.apply x = .ok (op.on x) := UnaryOp.apply_eq_on hx (hwidth ▸ he.2)
            simp [evaluate, hr, happly]
      · intro v
        simp only [evaluates_unary_iff, Option.map_eq_some_iff, hiff]
  | binary op a b iha ihb =>
      obtain ⟨hfita, hfitb⟩ := hleaf.operands
      obtain ⟨ra, hra, hiffa⟩ := iha he.1 hfita
      obtain ⟨rb, hrb, hiffb⟩ := ihb he.2.1 hfitb
      refine ⟨ra.bind fun x => rb.map (op.on x), ?_, ?_⟩
      · cases ra with
        | none => simp [evaluate, hra]
        | some x =>
            cases rb with
            | none => simp [evaluate, hra, hrb]
            | some y =>
                obtain ⟨hx, hxwidth⟩ := ((hiffa x).mp rfl).canonical he.1 hfita
                obtain ⟨hy, hywidth⟩ := ((hiffb y).mp rfl).canonical he.2.1 hfitb
                have happly : op.apply x y = .ok (op.on x y) :=
                  BinaryOp.apply_eq_on hx hy (hxwidth ▸ hywidth ▸ he.2.2)
                simp [evaluate, hra, hrb, happly]
      · intro v
        simp only [evaluates_binary_iff, Option.bind_eq_some_iff,
          Option.map_eq_some_iff, hiffa, hiffb]
  | ite condition a b ihc iha ihb =>
      obtain ⟨hfitc, hfita, hfitb⟩ := hleaf.branches
      obtain ⟨rc, hrc, hiffc⟩ := ihc he.1 hfitc
      obtain ⟨ra, hra, hiffa⟩ := iha he.2.1 hfita
      obtain ⟨rb, hrb, hiffb⟩ := ihb he.2.2.1 hfitb
      refine ⟨rc.bind fun c => if c.isTrue then ra else rb, ?_, ?_⟩
      · cases rc with
        | none => simp [evaluate, hrc]
        | some c => cases htruth : c.isTrue <;> simp [evaluate, hrc, hra, hrb, htruth]
      · intro v
        simp only [evaluates_ite_iff, Option.bind_eq_some_iff, hiffc]
        refine exists_congr fun c => and_congr_right fun _ => ?_
        split
        · exact hiffa v
        · exact hiffb v

/-- The evaluation of an expression that was built from leaves of valid widths, under values that
fit them, breaks no contract. It finds what the expression evaluates to, always if all leaves have
values, and that has the width of the expression. -/
theorem evaluate_is_type_safe {e : Expr} (he : e.Built .all) {leaf : Expr → Option Word}
    (hleaf : ∀ l ∈ e.leaves, ∀ x, leaf l = some x → x.width = l.width ∧ x.value < 2 ^ l.width) :
    ∃ r, e.evaluate leaf = .ok r ∧ (∀ v, r = some v ↔ Evaluates leaf e v) ∧
      ((∀ l ∈ e.leaves, (leaf l).isSome = true) → r.isSome = true) ∧
      ∀ v, r = some v → v.width = e.width ∧ v.value < 2 ^ e.width := by
  have hwf : e.WellFormed .all := built_iff_wellFormed.mp he
  obtain ⟨r, hr, hiff⟩ := exists_evaluate hwf hleaf
  refine ⟨r, hr, hiff, ?_, ?_⟩
  · intro hall
    obtain ⟨v, hv⟩ := exists_evaluates hall
    rw [(hiff v).mpr hv, Option.isSome_some]
  · intro v hv
    obtain ⟨⟨-, hlt⟩, hwidth⟩ := ((hiff v).mp hv).canonical hwf hleaf
    rw [hwidth, Word.modulus_eq] at hlt
    exact ⟨hwidth, hlt⟩

/-- A choice between a concatenation of 64 bits and a memory cell that has no value and is not
chosen. -/
theorem evaluate_is_type_safe_of_choice :
    let x := var "x" 40
    let y := var "y" 24
    let cell := mem (var "p" 32) 0 64
    let e := ite (binary .slt x (const ⟨40, 0⟩)) (binary .concat x y) cell
    let leaf := fun l => if l = x then some ⟨40, 2 ^ 40 - 1⟩
      else if l = y then some (⟨24, 5⟩ : Word) else none
    e.Built .all ∧ LeavesFit leaf e ∧ leaf cell = none ∧
      ∃ v, e.evaluate leaf = .ok (some v) ∧ Evaluates leaf e v ∧ v.width = 64 ∧
        v.value < 2 ^ 64 := by
  intro x y cell e leaf
  have hbuilt : e.Built .all := built_iff_wellFormed.mpr (by decide)
  have hx : leaf x = some ⟨40, 2 ^ 40 - 1⟩ := by decide
  have hy : leaf y = some ⟨24, 5⟩ := by decide
  have hcell : leaf cell = none := by decide
  have hfit : LeavesFit leaf e := by
    intro l hl v hv
    have hl : l = x ∨ l = y ∨ l = cell := by simpa [e, cell, x, y, leaves] using hl
    rcases hl with rfl | rfl | rfl
    · obtain rfl := Option.some.inj (hx.symm.trans hv)
      decide
    · obtain rfl := Option.some.inj (hy.symm.trans hv)
      decide
    · rw [hcell] at hv
      cases hv
  obtain ⟨r, hr, hiff, -, htyped⟩ := evaluate_is_type_safe hbuilt hfit
  have hvalue : e.evaluate leaf = .ok (some ⟨64, 2 ^ 64 - 2 ^ 24 + 5⟩) := by decide +kernel
  obtain rfl := Except.ok.inj (hr.symm.trans hvalue)
  exact ⟨hbuilt, hfit, hcell, _, hvalue, (hiff _).mp rfl, htyped _ rfl⟩

end FlowRecovery.Expr
