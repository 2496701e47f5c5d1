import Mathlib
import FlowRecovery.Proofs.Expr.Simplification
import FlowRecovery.Proofs.Expr.Variables

namespace FlowRecovery.Expr

section Weight

variable (a b c : Expr)

@[simp] theorem weight_const (value : Word) : (const value).weight = 1 := rfl

@[simp] theorem weight_mem (offset : UInt64) (width : Nat) :
    (mem a offset width).weight = a.weight + 2 := rfl

@[simp] theorem weight_not : (unary .not a).weight = a.weight + 2 := rfl

@[simp] theorem weight_neg : (unary .neg a).weight = a.weight + 2 := rfl

@[simp] theorem weight_extract (offset size : Nat) :
    (unary (.extract offset size) a).weight = 2 * a.weight + 1 := rfl

@[simp] theorem weight_zeroExtend (width : Nat) :
    (unary (.zeroExtend width) a).weight = a.weight + 2 := rfl

@[simp] theorem weight_signExtend (width : Nat) :
    (unary (.signExtend width) a).weight = a.weight + 2 := rfl

@[simp] theorem weight_ite : (ite c a b).weight = c.weight + a.weight + b.weight + 1 := rfl

/-- What a left operand adds to the weight of a binary node: its own weight, and one more for a
constant that could change sides. -/
def leftWeight (op : BinaryOp) (a : Expr) : Nat :=
  a.weight + if op.isCommutative ∧ a.const?.isSome then 1 else 0

theorem weight_binary (op : BinaryOp) :
    (binary op a b).weight = leftWeight op a + b.weight + if op = .sub then 3 else 2 := by
  change a.weight + b.weight + _ + _ = a.weight + _ + b.weight + _
  omega

theorem le_weight_binary (op : BinaryOp) : a.weight + b.weight + 2 ≤ (binary op a b).weight := by
  have hleft : a.weight ≤ leftWeight op a := Nat.le_add_right _ _
  rw [weight_binary]
  split <;> omega

theorem weight_pos (e : Expr) : 0 < e.weight := by
  cases e with
  | const value => exact Nat.one_pos
  | var name width => exact Nat.succ_pos 2
  | reg register => exact Nat.succ_pos 2
  | mem address offset width => exact Nat.succ_pos _
  | unary op a => cases op <;> exact Nat.succ_pos _
  | binary op a b =>
      have := le_weight_binary a b op
      omega
  | ite condition a b => exact Nat.succ_pos _

theorem weight_of_const {e : Expr} (h : e.const?.isSome) : e.weight = 1 := by
  obtain ⟨value, hvalue⟩ := Option.isSome_iff_exists.mp h
  rw [const?_eq_some.mp hvalue, weight_const]

theorem three_le_weight {e : Expr} (h : ¬ e.const?.isSome) : 3 ≤ e.weight := by
  cases e with
  | const value => exact absurd rfl h
  | var name width => exact le_rfl
  | reg register => exact le_rfl
  | mem address offset width =>
      have := address.weight_pos
      rw [weight_mem]
      omega
  | unary op a =>
      have := a.weight_pos
      cases op <;> simp <;> omega
  | binary op a b =>
      have := a.weight_pos
      have := le_weight_binary a b op
      omega
  | ite condition a b =>
      have := condition.weight_pos
      have := a.weight_pos
      rw [weight_ite]
      omega

theorem leftWeight_of_not_const (op : BinaryOp) {a : Expr} (h : ¬ a.const?.isSome) :
    leftWeight op a = a.weight := by
  rw [leftWeight, if_neg fun hconst => h hconst.2, Nat.add_zero]

theorem leftWeight_lt (op : BinaryOp) {a a' : Expr} (h : a'.weight < a.weight) :
    leftWeight op a' < leftWeight op a := by
  have hle : a.weight ≤ leftWeight op a := Nat.le_add_right _ _
  refine lt_of_lt_of_le ?_ hle
  rw [leftWeight]
  split
  case isTrue hconst =>
    -- what is heavier than a constant is none, and weighs two more at least
    have hone := weight_of_const hconst.2
    have hvariable : ¬ a.const?.isSome := fun hsome => by
      have := weight_of_const hsome
      omega
    have := three_le_weight hvariable
    omega
  case isFalse => exact h

end Weight

section Rules

/-- A rule that answers with an expression, answers with one of a given kind. -/
def Gives (P : Expr → Prop) (result : Checked (Option Expr)) : Prop :=
  ∀ r, result = .ok (some r) → P r

section Answers

variable {P : Expr → Prop}

theorem Gives.of_none : Gives P (.ok none) := by
  intro r hr
  cases hr

theorem Gives.of_some {r : Expr} (h : P r) : Gives P (.ok (some r)) := by
  intro r' hr'
  cases hr'
  exact h

theorem Gives.of_bind {α : Type} {x : Checked α} {f : α → Checked (Option Expr)}
    (h : ∀ a, x = .ok a → Gives P (f a)) : Gives P (x >>= f) := by
  intro r hr
  obtain ⟨a, ha, hr⟩ := exists_of_bind_eq_ok hr
  exact h a ha r hr

theorem Gives.of_ite {c : Prop} [Decidable c] {x y : Checked (Option Expr)} (hx : c → Gives P x)
    (hy : ¬ c → Gives P y) : Gives P (if c then x else y) := by
  split
  · exact hx ‹_›
  · exact hy ‹_›

theorem Gives.of_first {r : Expr} {c : Prop} [Decidable c] {o : Option Expr} (h : P r)
    (ho : Gives P (.ok o)) : Gives P (.ok (if c then some r else o)) := by
  split
  · exact .of_some h
  · exact ho

theorem Gives.of_mkUnary {a : Expr} {op : UnaryOp} (h : P (unary op a)) :
    Gives P (do return some (← mkUnary op a)) := by
  refine .of_bind fun r hr => ?_
  obtain ⟨-, rfl⟩ := admits_of_mkUnary hr
  exact .of_some h

theorem Gives.of_mkBinary {a b : Expr} {op : BinaryOp} (h : P (binary op a b)) :
    Gives P (do return some (← mkBinary op a b)) := by
  refine .of_bind fun r hr => ?_
  obtain ⟨-, rfl⟩ := admits_of_mkBinary hr
  exact .of_some h

end Answers

/-- A rule that answers a node with an expression, answers with a lighter one. -/
abbrev Lightens (e : Expr) (result : Checked (Option Expr)) : Prop :=
  Gives (fun r => r.weight < e.weight) result

variable {a b : Expr}

theorem lightens_complement (op : BinaryOp) (x y : Expr) :
    Lightens (unary .not (binary op x y)) (complement op x y) := by
  have hsame (op' : BinaryOp)
      (h : op.isCommutative = op'.isCommutative ∧ op ≠ .sub ∧ op' ≠ .sub) :
      (binary op' x y).weight < (unary .not (binary op x y)).weight := by
    rw [weight_not, weight_binary, weight_binary, leftWeight, leftWeight, h.1,
      if_neg h.2.1, if_neg h.2.2]
    omega
  have hswapped (op' : BinaryOp)
      (h : op.isCommutative = false ∧ op'.isCommutative = false ∧ op ≠ .sub ∧ op' ≠ .sub) :
      (binary op' y x).weight < (unary .not (binary op x y)).weight := by
    rw [weight_not, weight_binary, weight_binary, leftWeight, leftWeight, h.1, h.2.1,
      if_neg h.2.2.1, if_neg h.2.2.2]
    simp
    omega
  cases op with
  | eq => exact .of_mkBinary (hsame .ne (by decide))
  | ne => exact .of_mkBinary (hsame .eq (by decide))
  | ult => exact .of_mkBinary (hswapped .ule (by decide))
  | ule => exact .of_mkBinary (hswapped .ult (by decide))
  | slt => exact .of_mkBinary (hswapped .sle (by decide))
  | sle => exact .of_mkBinary (hswapped .slt (by decide))
  | _ => exact .of_none

theorem lightens_simplifyExtract (offset size : Nat) (a : Expr) :
    Lightens (unary (.extract offset size) a) (simplifyExtract offset size a) := by
  have hinner {x : Expr} (offset' : Nat) (h : x.weight < a.weight) :
      (unary (.extract offset' size) x).weight < (unary (.extract offset size) a).weight := by
    rw [weight_extract, weight_extract]
    omega
  unfold simplifyExtract
  split
  case h_1 first _ x =>
    refine .of_mkUnary (hinner _ ?_)
    rw [weight_extract]
    omega
  case h_2 high low =>
    have hconcat := le_weight_binary high low .concat
    exact .of_ite (fun _ => .of_mkUnary (hinner _ (by omega))) fun _ =>
      .of_ite (fun _ => .of_mkUnary (hinner _ (by omega))) fun _ => .of_none
  case h_3 width x =>
    refine .of_ite (fun _ => .of_mkUnary (hinner _ (by simp))) fun _ =>
      .of_ite (fun _ => .of_bind fun r hr => .of_some ?_) fun _ => .of_none
    obtain ⟨c, -, hr⟩ := exists_of_bind_eq_ok hr
    cases hr
    simp
  case h_4 width x => exact .of_ite (fun _ => .of_mkUnary (hinner _ (by simp))) fun _ => .of_none
  case h_5 op x y hconcat =>
    -- both sides pay for one extraction each, the node paid twice for the operator as well
    have hpush : Lightens (unary (.extract offset size) (binary op x y)) (do
        let low ← mkUnary (.extract offset size) x
        return some (← mkBinary op low (← mkUnary (.extract offset size) y))) := by
      refine .of_bind fun low hlow => .of_bind fun high hhigh => .of_mkBinary ?_
      obtain ⟨-, rfl⟩ := admits_of_mkUnary hlow
      obtain ⟨-, rfl⟩ := admits_of_mkUnary hhigh
      have hleft : x.weight ≤ leftWeight op x := Nat.le_add_right _ _
      rw [weight_extract, weight_binary, weight_binary, leftWeight_of_not_const op
        (by simp [const?]), weight_extract, weight_extract]
      split <;> omega
    exact .of_ite (fun _ => hpush) fun _ => .of_none
  case h_6 => exact .of_none

theorem lightens_simplifyUnary (op : UnaryOp) (a : Expr) :
    Lightens (unary op a) (simplifyUnary op a) := by
  have hoperand : a.weight < (unary op a).weight := by
    cases op <;> simp
    omega
  unfold simplifyUnary
  split
  case h_1 c hconst =>
    refine .of_bind fun value _ => .of_some ?_
    rw [weight_const]
    exact lt_of_le_of_lt a.weight_pos hoperand
  case h_2 =>
    split
    case h_1 x => exact .of_some (by simp; omega)
    case h_2 x => exact .of_some (by simp; omega)
    case h_3 => exact lightens_complement _ _ _
    case h_4 offset size =>
      exact .of_ite (fun _ => .of_some hoperand) fun _ => lightens_simplifyExtract offset size a
    case h_5 width =>
      refine .of_ite (fun _ => .of_some hoperand) fun _ => ?_
      split
      · exact .of_mkUnary (by simp)
      · exact .of_none
    case h_6 width =>
      refine .of_ite (fun _ => .of_some hoperand) fun _ => ?_
      split
      · exact .of_mkUnary (by simp)
      · exact .of_none
    case h_7 => exact .of_none

theorem lightens_simplifyAdd (a : Expr) (c : Word) :
    Lightens (binary .add a (const c)) (simplifyAdd a c) := by
  have hleft := le_weight_binary a (const c) .add
  refine .of_ite (fun _ => .of_some (by omega)) fun _ => ?_
  split
  case h_1 =>
    refine .of_bind fun sum _ => .of_mkBinary ?_
    simp only [weight_binary, weight_const] at hleft ⊢
    omega
  case h_2 => exact .of_none

/-- The rules for operators keep an operand, complement one, or answer with a constant, unless
they turn a difference into a sum, which is lighter if not both operands are constant. -/
theorem lightens_simplifyOperator (op : BinaryOp) (h : ¬ (a.const?.isSome ∧ b.const?.isSome)) :
    Lightens (binary op a b) (simplifyOperator op a b) := by
  have hnode := le_weight_binary a b op
  have ha := a.weight_pos
  have hb := b.weight_pos
  have hconst (c : Word) : (const c).weight < (binary op a b).weight := by
    rw [weight_const]
    omega
  have hleft : a.weight < (binary op a b).weight := by omega
  have hright : b.weight < (binary op a b).weight := by omega
  have hnot : a.not.weight < (binary op a b).weight := by
    rw [not, weight_not]
    omega
  refine .of_bind fun one _ => ?_
  cases op with
  | add =>
      dsimp only
      split
      case h_1 c hc =>
        rw [const?_eq_some.mp hc]
        exact lightens_simplifyAdd a c
      case h_2 => exact .of_none
  | sub =>
      refine .of_ite (fun _ => .of_some (hconst _)) fun _ =>
        .of_ite (fun _ => .of_some hleft) fun _ => ?_
      split
      case h_1 c hc =>
        have hright : b.const?.isSome := by
          rw [hc]
          rfl
        have hvariable : ¬ a.const?.isSome := fun hsome => h ⟨hsome, hright⟩
        refine .of_bind fun negated _ => .of_mkBinary ?_
        rw [weight_binary, weight_binary, leftWeight_of_not_const _ hvariable,
          leftWeight_of_not_const _ hvariable, weight_const, weight_of_const hright]
        simp
      case h_2 =>
        refine .of_first ?_ (.of_none)
        rw [neg, weight_neg]
        omega
  | mul => exact .of_first (hconst _) (.of_first hleft (.of_none))
  | udiv => exact .of_first hleft (.of_none)
  | urem => exact .of_first (hconst _) (.of_none)
  | and =>
      refine .of_ite (fun _ => .of_some hleft) fun _ => ?_
      split
      case h_1 c hc =>
        exact .of_bind fun ones _ => .of_ite (fun _ => .of_some hleft) fun _ =>
          .of_first (hconst _) (.of_none)
      case h_2 => exact .of_none
  | or =>
      refine .of_ite (fun _ => .of_some hleft) fun _ => ?_
      split
      case h_1 c hc => exact .of_bind fun ones _ => .of_first hright (.of_none)
      case h_2 => exact .of_none
  | xor => exact .of_first (hconst _) (.of_first hleft (.of_first hnot (.of_none)))
  | shl | shr | sar => exact .of_first hleft (.of_none)
  | concat =>
      dsimp only
      split
      case h_1 high highSize x low lowSize y =>
        refine .of_ite (fun _ => .of_mkUnary ?_) fun _ => .of_none
        rw [weight_extract] at hleft ⊢
        exact hleft
      case h_2 => exact .of_none
  | eq | ne =>
      refine .of_ite (fun _ => .of_some (hconst _)) fun _ =>
        .of_ite (fun _ => ?_) fun _ => .of_none
      split
      case h_1 c hc =>
        refine .of_some ?_
        split
        · exact hleft
        · exact hnot
      case h_2 => exact .of_none
  | ult | ule | slt | sle => exact .of_first (hconst _) (.of_none)

theorem weight_swap {op : BinaryOp} (hop : op.isCommutative) (ha : a.const?.isSome)
    (hb : ¬ b.const?.isSome) :
    (binary op b a).weight < (binary op a b).weight := by
  have hleft : leftWeight op a = a.weight + 1 := by rw [leftWeight, if_pos ⟨hop, ha⟩]
  rw [weight_binary, weight_binary, leftWeight_of_not_const op hb, hleft]
  omega

theorem lightens_simplifyBinary (op : BinaryOp) (a b : Expr) :
    Lightens (binary op a b) (simplifyBinary op a b) := by
  refine .of_bind fun _ _ => ?_
  split
  case h_1 x y _ =>
    refine .of_bind fun value _ => .of_some ?_
    have := le_weight_binary (const x) (const y) op
    simp only [weight_const] at this ⊢
    omega
  case h_2 x _ hb =>
    have hvariable : ¬ b.const?.isSome := by
      intro hsome
      obtain ⟨y, hy⟩ := Option.isSome_iff_exists.mp hsome
      exact hb y (const?_eq_some.mp hy)
    exact .of_ite (fun hop => .of_mkBinary (weight_swap hop rfl hvariable)) fun _ =>
      lightens_simplifyOperator op fun hboth => hvariable hboth.2
  case h_3 ha _ =>
    refine lightens_simplifyOperator op fun hboth => ?_
    obtain ⟨x, hx⟩ := Option.isSome_iff_exists.mp hboth.1
    exact ha x (const?_eq_some.mp hx)

theorem lightens_simplifyNode (e : Expr) : Lightens e (simplifyNode e) := by
  cases e with
  | unary op a => exact lightens_simplifyUnary op a
  | binary op a b => exact lightens_simplifyBinary op a b
  | ite condition a b =>
      have ha : a.weight < (ite condition a b).weight := by
        rw [weight_ite]
        omega
      have hb : b.weight < (ite condition a b).weight := by
        rw [weight_ite]
        omega
      rw [simplifyNode]
      split
      · refine .of_some ?_
        split
        · exact ha
        · exact hb
      · exact .of_first ha (.of_none)
  | _ => exact .of_none

end Rules

section Pass

/-- An expression is kept, or replaced by a lighter one. -/
def Lighter (e r : Expr) : Prop :=
  r = e ∨ r.weight < e.weight

theorem Lighter.weight_le {e r : Expr} (h : Lighter e r) : r.weight ≤ e.weight := by
  rcases h with rfl | h
  · exact le_rfl
  · exact h.le

theorem Lighter.antisymm {e r : Expr} (h : Lighter e r) (h' : Lighter r e) : r = e := by
  have := h'.weight_le
  rcases h with rfl | h
  · rfl
  · omega

theorem Lighter.trans {e r t : Expr} (h : Lighter e r) (h' : Lighter r t) : Lighter e t := by
  rcases h with rfl | h
  · exact h'
  · exact .inr (lt_of_le_of_lt h'.weight_le h)

variable {a a' b b' c c' : Expr}

theorem Lighter.mem_congr (offset : UInt64) (width : Nat) (ha : Lighter a a') :
    Lighter (mem a offset width) (mem a' offset width) := by
  rcases ha with rfl | ha
  · exact .inl rfl
  · exact .inr (by simpa using ha)

theorem Lighter.unary_congr (op : UnaryOp) (ha : Lighter a a') :
    Lighter (unary op a) (unary op a') := by
  rcases ha with rfl | ha
  · exact .inl rfl
  · refine .inr ?_
    cases op <;> simpa using ha

theorem Lighter.binary_congr (op : BinaryOp) (ha : Lighter a a') (hb : Lighter b b') :
    Lighter (binary op a b) (binary op a' b') := by
  have hle := hb.weight_le
  rcases ha with rfl | ha
  · rcases hb with rfl | hb
    · exact .inl rfl
    · refine .inr ?_
      rw [weight_binary, weight_binary]
      omega
  · refine .inr ?_
    have hlt := leftWeight_lt op ha
    rw [weight_binary, weight_binary]
    omega

theorem Lighter.ite_congr (hc : Lighter c c') (ha : Lighter a a') (hb : Lighter b b') :
    Lighter (ite c a b) (ite c' a' b') := by
  have hale := ha.weight_le
  have hble := hb.weight_le
  by_cases hsame : c' = c ∧ a' = a ∧ b' = b
  · obtain ⟨rfl, rfl, rfl⟩ := hsame
    exact .inl rfl
  · refine .inr ?_
    rw [weight_ite, weight_ite]
    rcases hc with rfl | hc
    · rcases ha with rfl | ha
      · rcases hb with rfl | hb
        · exact absurd ⟨rfl, rfl, rfl⟩ hsame
        · omega
      · omega
    · omega

variable {rule : Expr → Checked (Option Expr)} {e r : Expr}

/-- What a rule makes of a node: its answer, or the node itself. -/
def afterRule (rule : Expr → Checked (Option Expr)) (e : Expr) : Checked Expr := do
  return (← rule e).getD e

theorem lighter_afterRule (hrule : ∀ e, Lightens e (rule e)) (h : afterRule rule e = .ok r) :
    Lighter e r := by
  obtain ⟨answer, hanswer, h⟩ := exists_of_bind_eq_ok h
  cases h
  cases answer with
  | none => exact .inl rfl
  | some r => exact .inr (hrule e r hanswer)

theorem transformM_mem {offset : UInt64} {width : Nat}
    (h : (mem a offset width).transformM rule = .ok r) :
    ∃ a', a.transformM rule = .ok a' ∧ afterRule rule (mem a' offset width) = .ok r := by
  obtain ⟨a', ha, h⟩ := exists_of_bind_eq_ok h
  obtain ⟨node, hnode, h⟩ := exists_of_bind_eq_ok h
  obtain ⟨-, -, hnode⟩ := exists_of_bind_eq_ok hnode
  cases hnode
  exact ⟨a', ha, h⟩

theorem transformM_unary {op : UnaryOp} (h : (unary op a).transformM rule = .ok r) :
    ∃ a', a.transformM rule = .ok a' ∧ afterRule rule (unary op a') = .ok r := by
  obtain ⟨a', ha, h⟩ := exists_of_bind_eq_ok h
  obtain ⟨node, hnode, h⟩ := exists_of_bind_eq_ok h
  obtain ⟨-, rfl⟩ := admits_of_mkUnary hnode
  exact ⟨a', ha, h⟩

theorem transformM_binary {op : BinaryOp} (h : (binary op a b).transformM rule = .ok r) :
    ∃ a' b', a.transformM rule = .ok a' ∧ b.transformM rule = .ok b' ∧
      afterRule rule (binary op a' b') = .ok r := by
  obtain ⟨a', ha, h⟩ := exists_of_bind_eq_ok h
  obtain ⟨b', hb, h⟩ := exists_of_bind_eq_ok h
  obtain ⟨node, hnode, h⟩ := exists_of_bind_eq_ok h
  obtain ⟨-, rfl⟩ := admits_of_mkBinary hnode
  exact ⟨a', b', ha, hb, h⟩

theorem transformM_ite (h : (ite c a b).transformM rule = .ok r) :
    ∃ c' a' b', c.transformM rule = .ok c' ∧ a.transformM rule = .ok a' ∧
      b.transformM rule = .ok b' ∧
      afterRule rule (ite c' a' b') = .ok r := by
  obtain ⟨c', hc, h⟩ := exists_of_bind_eq_ok h
  obtain ⟨a', ha, h⟩ := exists_of_bind_eq_ok h
  obtain ⟨b', hb, h⟩ := exists_of_bind_eq_ok h
  obtain ⟨node, hnode, h⟩ := exists_of_bind_eq_ok h
  obtain ⟨-, -, hnode⟩ := exists_of_bind_eq_ok hnode
  obtain ⟨-, -, hnode⟩ := exists_of_bind_eq_ok hnode
  cases hnode
  exact ⟨c', a', b', hc, ha, hb, h⟩

theorem lighter_transformM (hrule : ∀ e, Lightens e (rule e)) (h : e.transformM rule = .ok r) :
    Lighter e r := by
  induction e generalizing r with
  | const value => exact lighter_afterRule hrule h
  | var name width => exact lighter_afterRule hrule h
  | reg register => exact lighter_afterRule hrule h
  | mem address offset width ih =>
      obtain ⟨a', ha, h⟩ := transformM_mem h
      exact ((ih ha).mem_congr offset width).trans (lighter_afterRule hrule h)
  | unary op a ih =>
      obtain ⟨a', ha, h⟩ := transformM_unary h
      exact ((ih ha).unary_congr op).trans (lighter_afterRule hrule h)
  | binary op a b iha ihb =>
      obtain ⟨a', b', ha, hb, h⟩ := transformM_binary h
      exact ((iha ha).binary_congr op (ihb hb)).trans (lighter_afterRule hrule h)
  | ite condition a b ihc iha ihb =>
      obtain ⟨c', a', b', hc, ha, hb, h⟩ := transformM_ite h
      exact ((ihc hc).ite_congr (iha ha) (ihb hb)).trans (lighter_afterRule hrule h)

/-- An expression that such rules keep is kept node by node: had an operand become lighter,
nothing after that could have made up for it. -/
theorem transformM_subterm (hrule : ∀ e, Lightens e (rule e)) (h : e.transformM rule = .ok e) :
    ∀ t ∈ e.subterms, t.transformM rule = .ok t ∧ afterRule rule t = .ok t := by
  induction e with
  | const value => exact List.forall_mem_singleton.mpr ⟨h, h⟩
  | var name width => exact List.forall_mem_singleton.mpr ⟨h, h⟩
  | reg register => exact List.forall_mem_singleton.mpr ⟨h, h⟩
  | mem address offset width ih =>
      obtain ⟨a', ha, hnode⟩ := transformM_mem h
      have hkept := ((lighter_transformM hrule ha).mem_congr offset width).antisymm
        (lighter_afterRule hrule hnode)
      cases hkept
      rw [subterms, List.forall_mem_cons]
      exact ⟨⟨h, hnode⟩, ih ha⟩
  | unary op a ih =>
      obtain ⟨a', ha, hnode⟩ := transformM_unary h
      have hkept := ((lighter_transformM hrule ha).unary_congr op).antisymm
        (lighter_afterRule hrule hnode)
      cases hkept
      rw [subterms, List.forall_mem_cons]
      exact ⟨⟨h, hnode⟩, ih ha⟩
  | binary op a b iha ihb =>
      obtain ⟨a', b', ha, hb, hnode⟩ := transformM_binary h
      have hkept :=
        ((lighter_transformM hrule ha).binary_congr op (lighter_transformM hrule hb)).antisymm
        (lighter_afterRule hrule hnode)
      cases hkept
      rw [subterms, List.forall_mem_cons, List.forall_mem_append]
      exact ⟨⟨h, hnode⟩, iha ha, ihb hb⟩
  | ite condition a b ihc iha ihb =>
      obtain ⟨c', a', b', hc, ha, hb, hnode⟩ := transformM_ite h
      have hkept := ((lighter_transformM hrule hc).ite_congr (lighter_transformM hrule ha)
        (lighter_transformM hrule hb)).antisymm (lighter_afterRule hrule hnode)
      cases hkept
      rw [subterms, List.forall_mem_cons, List.forall_mem_append, List.forall_mem_append]
      exact ⟨⟨h, hnode⟩, ⟨ihc hc, iha ha⟩, ihb hb⟩

end Pass

section Loop

/-- A pass keeps the expression. -/
def Settled (e : Expr) : Prop :=
  e.simplifyPass = .ok e

theorem Settled.subterm {e t : Expr} (h : e.Settled) (ht : t ∈ e.subterms) : t.Settled :=
  (transformM_subterm lightens_simplifyNode h t ht).1

theorem self_mem_subterms (e : Expr) : e ∈ e.subterms := by
  cases e <;> exact List.mem_cons_self

theorem Settled.simplifyNode {e : Expr} (h : e.Settled) : afterRule Expr.simplifyNode e = .ok e :=
  (transformM_subterm lightens_simplifyNode h e e.self_mem_subterms).2

theorem Settled.simplify {e : Expr} (h : e.Settled) : e.simplify = .ok e := by
  obtain ⟨n, hn⟩ := Nat.exists_eq_succ_of_ne_zero e.weight_pos.ne'
  rw [Expr.simplify, hn, settle, h, ok_bind, if_pos rfl]
  rfl

/-- Passes that are repeated without a bound stop after a number of them: the last one is the
first that keeps what it is given. -/
inductive StopsAfter : Nat → Expr → Expr → Prop
  | kept {e : Expr} (h : e.simplifyPass = .ok e) : StopsAfter 1 e e
  | changed {n : Nat} {e next r : Expr} (h : e.simplifyPass = .ok next) (hne : next ≠ e)
      (hrest : StopsAfter n next r) : StopsAfter (n + 1) e r

theorem StopsAfter.settled {n : Nat} {e r : Expr} (h : StopsAfter n e r) : r.Settled := by
  induction h with
  | kept h => exact h
  | changed _ _ _ ih => exact ih

theorem stopsAfter_of_settle {n : Nat} {e r : Expr} (hweight : e.weight ≤ n)
    (h : settle n e = .ok r) :
    ∃ passes ≤ n, StopsAfter passes e r := by
  induction n generalizing e with
  | zero =>
      have := e.weight_pos
      omega
  | succ n ih =>
      obtain ⟨next, hnext, h⟩ := exists_of_bind_eq_ok h
      split at h
      case isTrue hsame =>
        subst hsame
        cases h
        exact ⟨1, by omega, .kept hnext⟩
      case isFalse hne =>
        have hlighter : next.weight < e.weight :=
          (lighter_transformM lightens_simplifyNode hnext).resolve_left hne
        obtain ⟨passes, hle, hrest⟩ := ih (by omega) h
        exact ⟨passes + 1, by omega, .changed hnext hne hrest⟩

theorem settled_of_simplify {e r : Expr} (h : e.simplify = .ok r) : r.Settled := by
  obtain ⟨passes, -, hstops⟩ := stopsAfter_of_settle le_rfl h
  exact hstops.settled

/-- Repeating passes without a bound stops, after no more of them than the expression weighs, and
gives what simplification gives. The result is a normal form: neither a pass nor simplification
changes it, and a pass changes none of its subterms. -/
theorem simplify_reaches_normal_form {e : Expr} (h : e.Built .all) :
    ∃ passes r, passes ≤ e.weight ∧ StopsAfter passes e r ∧ e.simplify = .ok r ∧
      r.simplifyPass = .ok r ∧ r.simplify = .ok r ∧ ∀ t ∈ r.subterms, t.simplifyPass = .ok t := by
  rw [built_iff_wellFormed] at h
  obtain ⟨r, hr, -⟩ := simplify_sound h
  obtain ⟨passes, hle, hstops⟩ := stopsAfter_of_settle le_rfl hr
  have hsettled := hstops.settled
  exact ⟨passes, r, hle, hstops, hr, hsettled, hsettled.simplify, fun t ht => hsettled.subterm ht⟩

/-- An extraction that is pushed through a difference with a constant on its left. -/
theorem simplify_reaches_normal_form_of_narrowing :
    let e := unary (.extract 0 8) (binary .xor (const ⟨32, 0x1ff⟩)
      (binary .sub (unary (.zeroExtend 32) (var "x" 8)) (const ⟨32, 0x101⟩)))
    e.Built .all ∧ ∃ passes r, passes ≤ e.weight ∧ StopsAfter passes e r ∧ e.simplify = .ok r ∧
      r.simplifyPass = .ok r ∧ r.simplify = .ok r ∧ ∀ t ∈ r.subterms, t.simplifyPass = .ok t := by
  intro e
  have h : e.Built .all := built_iff_wellFormed.mpr (by decide)
  exact ⟨h, simplify_reaches_normal_form h⟩

end Loop

end FlowRecovery.Expr
