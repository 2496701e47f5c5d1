import Mathlib
import FlowRecovery.Expr.Simplify
import FlowRecovery.Proofs.Expr.Valuation

namespace FlowRecovery.Expr

variable {s : Scope}

/-- The second expression is well formed and may stand for the first one: it has the same width
and the same value under every valuation. -/
structure Equiv (s : Scope) (e r : Expr) : Prop where
  wellFormed : r.WellFormed s
  width : r.width = e.width
  value (v : Valuation) : r.value v = e.value v

theorem Equiv.refl {e : Expr} (h : e.WellFormed s) : Equiv s e e :=
  ⟨h, rfl, fun _ => rfl⟩

theorem Equiv.trans {e r t : Expr} (her : Equiv s e r) (hrt : Equiv s r t) : Equiv s e t :=
  ⟨hrt.wellFormed, hrt.width.trans her.width, fun v => (hrt.value v).trans (her.value v)⟩

/-- A result without a fault whose expression, if there is one, may stand for a given one. -/
def Answers (s : Scope) (e : Expr) (result : Checked (Option Expr)) : Prop :=
  ∃ o, result = .ok o ∧ ∀ r, o = some r → Equiv s e r

theorem Answers.of_none (e : Expr) : Answers s e (.ok none) :=
  ⟨none, rfl, by simp⟩

theorem Answers.of_some {e r : Expr} (h : Equiv s e r) : Answers s e (.ok (some r)) :=
  ⟨some r, rfl, by simpa using h⟩

theorem Answers.of_mkUnary {e a : Expr} {op : UnaryOp} (h : Equiv s e (unary op a)) :
    Answers s e (do return some (← mkUnary op a)) := by
  rw [mkUnary_of_wellFormed h.wellFormed]
  exact .of_some h

theorem Answers.of_mkBinary {e a b : Expr} {op : BinaryOp} (h : Equiv s e (binary op a b)) :
    Answers s e (do return some (← mkBinary op a b)) := by
  rw [mkBinary_of_wellFormed h.wellFormed]
  exact .of_some h

theorem const?_eq_some {e : Expr} {c : Word} : e.const? = some c ↔ e = const c := by
  cases e <;> simp [const?]

section Unary

variable {x y : Expr} {offset size first length width inner : Nat}

theorem equiv_not_not (h : (unary .not (unary .not x)).WellFormed s) :
    Equiv s (unary .not (unary .not x)) x := by
  refine ⟨h.1.1, rfl, fun v => ?_⟩
  obtain ⟨b, hb⟩ := h.1.1.exists_bits rfl v
  simp only [value, hb, UnaryOp.on_ofBits, UnaryOp.onBits, BitVec.not_not]

theorem equiv_neg_neg (h : (unary .neg (unary .neg x)).WellFormed s) :
    Equiv s (unary .neg (unary .neg x)) x := by
  refine ⟨h.1.1, rfl, fun v => ?_⟩
  obtain ⟨b, hb⟩ := h.1.1.exists_bits rfl v
  simp only [value, hb, UnaryOp.on_ofBits, UnaryOp.onBits, BitVec.neg_neg]

theorem equiv_extract_whole (h : (unary (.extract 0 x.width) x).WellFormed s) :
    Equiv s (unary (.extract 0 x.width) x) x := by
  refine ⟨h.1, rfl, fun v => ?_⟩
  obtain ⟨b, hb⟩ := h.1.exists_bits rfl v
  simp only [value, hb, UnaryOp.on_ofBits, UnaryOp.onBits, BitVec.extractLsb'_eq_self]

theorem equiv_extract_extract
    (h : (unary (.extract offset size) (unary (.extract first length) x)).WellFormed s) :
    Equiv s (unary (.extract offset size) (unary (.extract first length) x))
      (unary (.extract (first + offset) size) x) := by
  obtain ⟨⟨hx, -, hinner⟩, hpos, houter⟩ := h
  have hle : offset + size ≤ length := houter
  refine ⟨⟨hx, hpos, by omega⟩, rfl, fun v => ?_⟩
  obtain ⟨b, hb⟩ := hx.exists_bits rfl v
  simp only [value, hb, UnaryOp.on_ofBits, UnaryOp.onBits, slice_slice b hle]

theorem equiv_extract_concat_low
    (h : (unary (.extract offset size) (binary .concat x y)).WellFormed s)
    (hle : offset + size ≤ y.width) :
    Equiv s (unary (.extract offset size) (binary .concat x y))
      (unary (.extract offset size) y) := by
  obtain ⟨⟨hx, hy, -⟩, hpos, -⟩ := h
  refine ⟨⟨hy, hpos, hle⟩, rfl, fun v => ?_⟩
  obtain ⟨b, hb⟩ := hx.exists_bits rfl v
  obtain ⟨c, hc⟩ := hy.exists_bits rfl v
  simp only [value, hb, hc, UnaryOp.on_ofBits, BinaryOp.on_ofBits, UnaryOp.onBits,
    BinaryOp.onBits, BitVec.extractLsb'_append_eq_of_add_le hle]

theorem equiv_extract_concat_high
    (h : (unary (.extract offset size) (binary .concat x y)).WellFormed s)
    (hle : y.width ≤ offset) :
    Equiv s (unary (.extract offset size) (binary .concat x y))
      (unary (.extract (offset - y.width) size) x) := by
  obtain ⟨⟨hx, hy, -⟩, hpos, houter⟩ := h
  have hsum : offset + size ≤ x.width + y.width := houter
  refine ⟨⟨hx, hpos, by omega⟩, rfl, fun v => ?_⟩
  obtain ⟨b, hb⟩ := hx.exists_bits rfl v
  obtain ⟨c, hc⟩ := hy.exists_bits rfl v
  simp only [value, hb, hc, UnaryOp.on_ofBits, BinaryOp.on_ofBits, UnaryOp.onBits,
    BinaryOp.onBits, BitVec.extractLsb'_append_eq_of_le hle]

theorem equiv_extract_zeroExtend_low
    (h : (unary (.extract offset size) (unary (.zeroExtend width) x)).WellFormed s)
    (hle : offset + size ≤ x.width) :
    Equiv s (unary (.extract offset size) (unary (.zeroExtend width) x))
      (unary (.extract offset size) x) := by
  obtain ⟨⟨hx, hwidth, -⟩, hpos, -⟩ := h
  refine ⟨⟨hx, hpos, hle⟩, rfl, fun v => ?_⟩
  obtain ⟨b, hb⟩ := hx.exists_bits rfl v
  simp only [value, hb, UnaryOp.on_ofBits, UnaryOp.onBits,
    BitVec.extractLsb'_setWidth_of_le (le_trans hle hwidth)]

theorem equiv_extract_zeroExtend_high
    (h : (unary (.extract offset size) (unary (.zeroExtend width) x)).WellFormed s)
    (hle : x.width ≤ offset) :
    Equiv s (unary (.extract offset size) (unary (.zeroExtend width) x))
      (const (.ofBits (BitVec.ofNat size 0))) := by
  refine ⟨Word.canonical_ofBits h.validWidth _, rfl, fun v => ?_⟩
  obtain ⟨b, hb⟩ := h.1.1.exists_bits rfl v
  simp only [value, hb, UnaryOp.on_ofBits, UnaryOp.onBits, slice_setWidth_of_le b hle]

theorem equiv_extract_signExtend_low
    (h : (unary (.extract offset size) (unary (.signExtend width) x)).WellFormed s)
    (hle : offset + size ≤ x.width) :
    Equiv s (unary (.extract offset size) (unary (.signExtend width) x))
      (unary (.extract offset size) x) := by
  obtain ⟨⟨hx, hwidth, -⟩, hpos, -⟩ := h
  refine ⟨⟨hx, hpos, hle⟩, rfl, fun v => ?_⟩
  obtain ⟨b, hb⟩ := hx.exists_bits rfl v
  simp only [value, hb, UnaryOp.on_ofBits, UnaryOp.onBits, slice_signExtend b hle hwidth]

theorem equiv_extract_binary {op : BinaryOp}
    (h : (unary (.extract offset size) (binary op x y)).WellFormed s)
    (hadmits : ∀ m n, op.Admits m n ↔ m = n) (hresult : ∀ m, op.resultWidth m m = m)
    (hslice : ∀ b c : BitVec x.width, UnaryOp.on (.extract offset size) (op.onBits b c) =
      op.onBits (b.extractLsb' offset size) (c.extractLsb' offset size)) :
    Equiv s (unary (.extract offset size) (binary op x y))
      (binary op (unary (.extract offset size) x) (unary (.extract offset size) y)) := by
  obtain ⟨⟨hx, hy, hop⟩, hpos, hle⟩ := h
  have hxy : x.width = y.width := (hadmits _ _).mp hop
  rw [width_binary, ← hxy, hresult] at hle
  refine ⟨⟨⟨hx, hpos, hle⟩, ⟨hy, hpos, hxy ▸ hle⟩, (hadmits _ _).mpr rfl⟩, ?_, fun v => ?_⟩
  · rw [width_binary]
    exact hresult size
  · obtain ⟨b, hb⟩ := hx.exists_bits rfl v
    obtain ⟨c, hc⟩ := hy.exists_bits hxy.symm v
    simp only [value, hb, hc, UnaryOp.on_ofBits, BinaryOp.on_ofBits, hslice, UnaryOp.onBits]

theorem equiv_extend_same {op : UnaryOp} (h : (unary op x).WellFormed s)
    (hop : op = .zeroExtend x.width ∨ op = .signExtend x.width) : Equiv s (unary op x) x := by
  rcases hop with rfl | rfl
  · refine ⟨h.1, rfl, fun v => ?_⟩
    obtain ⟨b, hb⟩ := h.1.exists_bits rfl v
    simp only [value, hb, UnaryOp.on_ofBits, UnaryOp.onBits, BitVec.setWidth_eq]
  · refine ⟨h.1, rfl, fun v => ?_⟩
    obtain ⟨b, hb⟩ := h.1.exists_bits rfl v
    simp only [value, hb, UnaryOp.on_ofBits, UnaryOp.onBits, BitVec.signExtend_eq]

theorem equiv_zeroExtend_zeroExtend
    (h : (unary (.zeroExtend width) (unary (.zeroExtend inner) x)).WellFormed s) :
    Equiv s (unary (.zeroExtend width) (unary (.zeroExtend inner) x))
      (unary (.zeroExtend width) x) := by
  obtain ⟨⟨hx, hinner, -⟩, houter, hle⟩ := h
  have hio : inner ≤ width := houter
  refine ⟨⟨hx, le_trans hinner hio, hle⟩, rfl, fun v => ?_⟩
  obtain ⟨b, hb⟩ := hx.exists_bits rfl v
  have hsame : (b.setWidth inner).setWidth width = b.setWidth width :=
    BitVec.setWidth_setWidth (by omega)
  simp only [value, hb, UnaryOp.on_ofBits, UnaryOp.onBits, hsame]

theorem equiv_signExtend_signExtend
    (h : (unary (.signExtend width) (unary (.signExtend inner) x)).WellFormed s) :
    Equiv s (unary (.signExtend width) (unary (.signExtend inner) x))
      (unary (.signExtend width) x) := by
  obtain ⟨⟨hx, hinner, -⟩, houter, hle⟩ := h
  have hio : inner ≤ width := houter
  refine ⟨⟨hx, le_trans hinner hio, hle⟩, rfl, fun v => ?_⟩
  obtain ⟨b, hb⟩ := hx.exists_bits rfl v
  simp only [value, hb, UnaryOp.on_ofBits, UnaryOp.onBits, signExtend_signExtend b hinner hio]

theorem answers_complement {op : BinaryOp} (h : (unary .not (binary op x y)).WellFormed s) :
    Answers s (unary .not (binary op x y)) (complement op x y) := by
  obtain ⟨⟨hx, hy, hop⟩, -⟩ := h
  by_cases hcmp : op.isComparison
  · have hxy : x.width = y.width := (BinaryOp.admits_of_isComparison hcmp _ _).mp hop
    have hbits : ∀ v, ∃ b c : BitVec x.width, x.value v = .ofBits b ∧ y.value v = .ofBits c := by
      intro v
      obtain ⟨b, hb⟩ := hx.exists_bits rfl v
      obtain ⟨c, hc⟩ := hy.exists_bits hxy.symm v
      exact ⟨b, c, hb, hc⟩
    cases op with
    | eq | ne =>
        refine .of_mkBinary ⟨⟨hx, hy, hxy⟩, rfl, fun v => ?_⟩
        obtain ⟨b, c, hb, hc⟩ := hbits v
        simp [value, hb, hc, UnaryOp.on_ofBits, BinaryOp.on_ofBits, UnaryOp.onBits,
          BinaryOp.onBits, bne]
    | ult | ule =>
        refine .of_mkBinary ⟨⟨hy, hx, hxy.symm⟩, rfl, fun v => ?_⟩
        obtain ⟨b, c, hb, hc⟩ := hbits v
        simp [value, hb, hc, UnaryOp.on_ofBits, BinaryOp.on_ofBits, UnaryOp.onBits,
          BinaryOp.onBits, BitVec.ule_eq_not_ult]
    | slt | sle =>
        refine .of_mkBinary ⟨⟨hy, hx, hxy.symm⟩, rfl, fun v => ?_⟩
        obtain ⟨b, c, hb, hc⟩ := hbits v
        simp [value, hb, hc, UnaryOp.on_ofBits, BinaryOp.on_ofBits, UnaryOp.onBits,
          BinaryOp.onBits, BitVec.sle_eq_not_slt]
    | _ => simp [BinaryOp.isComparison] at hcmp
  · cases op with
    | eq | ne | ult | ule | slt | sle => simp [BinaryOp.isComparison] at hcmp
    | _ => exact .of_none _

theorem Answers.of_push {e : Expr} {inner : UnaryOp} {op : BinaryOp}
    (h : Equiv s e (binary op (unary inner x) (unary inner y))) :
    Answers s e (do
      let low ← mkUnary inner x
      return some (← mkBinary op low (← mkUnary inner y))) := by
  rw [mkUnary_of_wellFormed h.wellFormed.1, ok_bind, mkUnary_of_wellFormed h.wellFormed.2.1,
    ok_bind]
  exact .of_mkBinary h

theorem answers_simplifyExtract {a : Expr} (h : (unary (.extract offset size) a).WellFormed s) :
    Answers s (unary (.extract offset size) a) (simplifyExtract offset size a) := by
  unfold simplifyExtract
  split
  case h_1 first _ x => exact .of_mkUnary (equiv_extract_extract h)
  case h_2 high low =>
    split
    · exact .of_mkUnary (equiv_extract_concat_low h ‹_›)
    · split
      · exact .of_mkUnary (equiv_extract_concat_high h ‹_›)
      · exact .of_none _
  case h_3 width x =>
    split
    · exact .of_mkUnary (equiv_extract_zeroExtend_low h ‹_›)
    · split
      · have hsize : Word.ValidWidth size := h.validWidth
        rw [constant, Word.ofNat_eq hsize]
        exact .of_some (equiv_extract_zeroExtend_high h ‹_›)
      · exact .of_none _
  case h_4 width x =>
    split
    · exact .of_mkUnary (equiv_extract_signExtend_low h ‹_›)
    · exact .of_none _
  case h_5 op x y hconcat =>
    cases op with
    | concat => exact absurd rfl hconcat
    | and =>
        refine .of_push (equiv_extract_binary h (fun _ _ => Iff.rfl) (fun _ => rfl) fun b c => ?_)
        simp [BinaryOp.onBits, UnaryOp.on_ofBits, UnaryOp.onBits, BitVec.extractLsb'_and]
    | or =>
        refine .of_push (equiv_extract_binary h (fun _ _ => Iff.rfl) (fun _ => rfl) fun b c => ?_)
        simp [BinaryOp.onBits, UnaryOp.on_ofBits, UnaryOp.onBits, BitVec.extractLsb'_or]
    | xor =>
        refine .of_push (equiv_extract_binary h (fun _ _ => Iff.rfl) (fun _ => rfl) fun b c => ?_)
        simp [BinaryOp.onBits, UnaryOp.on_ofBits, UnaryOp.onBits, BitVec.extractLsb'_xor]
    | add | sub | mul =>
        have hle : offset + size ≤ x.width := h.2.2
        dsimp only
        split
        · rename_i hnarrow
          simp only [Bool.and_eq_true, beq_iff_eq] at hnarrow
          obtain ⟨⟨rfl, -⟩, -⟩ := hnarrow
          refine .of_push (equiv_extract_binary h (fun _ _ => Iff.rfl) (fun _ => rfl)
            fun b c => ?_)
          have hsize : size ≤ x.width := by omega
          simp [BinaryOp.onBits, UnaryOp.on_ofBits, UnaryOp.onBits, BitVec.extractLsb'_add hsize,
            BitVec.extractLsb'_mul hsize, slice_sub _ _ hsize]
        · exact .of_none _
    | _ => exact .of_none _
  case h_6 => exact .of_none _

theorem answers_fold_unary {op : UnaryOp} {c : Word} (h : (unary op (const c)).WellFormed s) :
    Answers s (unary op (const c)) (do return some (const (← op.apply c))) := by
  obtain ⟨hc, hop⟩ := h
  rw [UnaryOp.apply_eq_on hc hop]
  exact .of_some ⟨UnaryOp.canonical_on hc hop, UnaryOp.width_on op c, fun _ => rfl⟩

theorem answers_simplifyUnary {op : UnaryOp} {a : Expr} (h : (unary op a).WellFormed s) :
    Answers s (unary op a) (simplifyUnary op a) := by
  unfold simplifyUnary
  split
  case h_1 c hconst =>
    obtain rfl := const?_eq_some.mp hconst
    exact answers_fold_unary h
  case h_2 =>
    split
    case h_1 => exact .of_some (equiv_not_not h)
    case h_2 => exact .of_some (equiv_neg_neg h)
    case h_3 => exact answers_complement h
    case h_4 =>
      split
      · rename_i hwhole
        obtain ⟨rfl, rfl⟩ := hwhole
        exact .of_some (equiv_extract_whole h)
      · exact answers_simplifyExtract h
    case h_5 =>
      split
      · rename_i hsame
        exact .of_some (equiv_extend_same h (.inl (by rw [hsame])))
      · split
        · exact .of_mkUnary (equiv_zeroExtend_zeroExtend h)
        · exact .of_none _
    case h_6 =>
      split
      · rename_i hsame
        exact .of_some (equiv_extend_same h (.inr (by rw [hsame])))
      · split
        · exact .of_mkUnary (equiv_signExtend_signExtend h)
        · exact .of_none _
    case h_7 => exact .of_none _

end Unary

section Binary

variable {a b : Expr}

-- One definition holds the rules of all operators: its equation is derived here, for all the
-- cases at once.
attribute [local simp] simplifyOperator

theorem Equiv.of_binary {op : BinaryOp} {r : Expr} {w : Nat} (h : (binary op a b).WellFormed s)
    (hwa : a.width = w) (hwb : b.width = w) (hr : r.WellFormed s)
    (hwidth : r.width = op.resultWidth a.width b.width)
    (hvalue : ∀ v (x y : BitVec w), a.value v = .ofBits x → b.value v = .ofBits y →
      r.value v = op.onBits x y) : Equiv s (binary op a b) r := by
  refine ⟨hr, hwidth.trans (width_binary op a b).symm, fun v => ?_⟩
  obtain ⟨x, hx⟩ := h.1.exists_bits hwa v
  obtain ⟨y, hy⟩ := h.2.1.exists_bits hwb v
  rw [hvalue v x y hx hy, Expr.value, hx, hy, BinaryOp.on_ofBits]

theorem answers_fold_binary {op : BinaryOp} {c d : Word}
    (h : (binary op (const c) (const d)).WellFormed s) :
    Answers s (binary op (const c) (const d)) (do return some (const (← op.apply c d))) := by
  obtain ⟨hc, hd, hop⟩ := h
  rw [BinaryOp.apply_eq_on hc hd hop]
  refine .of_some ⟨BinaryOp.canonical_on hc hop, ?_, fun _ => rfl⟩
  rw [width_binary]
  exact BinaryOp.width_on op c d

theorem equiv_swap {op : BinaryOp} (h : (binary op a b).WellFormed s) (hop : op.isCommutative) :
    Equiv s (binary op a b) (binary op b a) := by
  have hab : a.width = b.width := by
    cases op with
    | concat => simp [BinaryOp.isCommutative] at hop
    | _ => exact h.2.2
  have hwf : (binary op b a).WellFormed s := by
    refine ⟨h.2.1, h.1, ?_⟩
    rw [← hab]
    have := h.2.2
    rwa [← hab] at this
  refine .of_binary h rfl hab.symm hwf (by rw [width_binary, hab]) fun v x y hx hy => ?_
  rw [value, hx, hy, BinaryOp.on_ofBits]
  cases op with
  | add => simp [BinaryOp.onBits, BitVec.add_comm]
  | mul => simp [BinaryOp.onBits, BitVec.mul_comm]
  | and => simp [BinaryOp.onBits, BitVec.and_comm]
  | or => simp [BinaryOp.onBits, BitVec.or_comm]
  | xor => simp [BinaryOp.onBits, BitVec.xor_comm]
  | eq => simp [BinaryOp.onBits, BEq.comm]
  | ne => simp [BinaryOp.onBits, bne, BEq.comm]
  | _ => simp [BinaryOp.isCommutative] at hop

theorem wellFormed_const {w : Nat} (hw : Word.ValidWidth w) (x : BitVec w) :
    (const (.ofBits x)).WellFormed s :=
  Word.canonical_ofBits hw x

theorem bits_unique {e : Expr} {w : Nat} {x y : BitVec w} {v : Valuation}
    (hx : e.value v = .ofBits x) (hy : e.value v = .ofBits y) : x = y :=
  Word.ofBits_inj.mp (hx.symm.trans hy)

theorem bits_of_const {e : Expr} {w : Nat} {x c : BitVec w} {v : Valuation}
    (hx : e.value v = .ofBits x) (hc : e = const (.ofBits c)) : x = c := by
  subst hc
  exact bits_unique hx rfl

theorem answers_simplifyAdd {c : Word} (h : (binary .add a (const c)).WellFormed s) :
    Answers s (binary .add a (const c)) (simplifyAdd a c) := by
  have hac : a.width = c.width := h.2.2
  unfold simplifyAdd
  split
  · rename_i hzero
    rw [Word.zero_eq] at hzero
    refine .of_some (.of_binary h rfl hac.symm h.1 rfl fun v x y hx hy => ?_)
    obtain rfl := bits_of_const hy (by rw [hzero])
    simp [hx, BinaryOp.onBits]
  · split
    case h_1 x d _ =>
      obtain ⟨⟨hx, hd, hxd⟩, hc, -⟩ := h
      have hw := hx.validWidth
      have hxc : x.width = c.width := hac
      obtain ⟨p, rfl⟩ := Word.Canonical.exists_bits hd (Eq.symm hxd)
      obtain ⟨q, rfl⟩ := Word.Canonical.exists_bits hc hxc.symm
      rw [Word.add_ofBits hw]
      refine .of_mkBinary ⟨⟨hx, wellFormed_const hw _, rfl⟩, rfl, fun v => ?_⟩
      obtain ⟨y, hy⟩ := hx.exists_bits rfl v
      simp [value, hy, BinaryOp.on_ofBits, BinaryOp.onBits, BitVec.add_assoc]
    case h_2 => exact .of_none _

theorem answers_sub (h : (binary .sub a b).WellFormed s) :
    Answers s (binary .sub a b) (simplifyOperator .sub a b) := by
  have hab : a.width = b.width := h.2.2
  have hw := h.1.validWidth
  simp only [simplifyOperator, Word.ofNat_eq hw, Word.zero_eq, ok_bind, const?_eq_some]
  split
  · rename_i hsame
    subst hsame
    refine .of_some (.of_binary h rfl rfl (wellFormed_const hw _) rfl fun v x y hx hy => ?_)
    obtain rfl := bits_unique hx hy
    simp [value, BinaryOp.onBits]
  · split
    · rename_i hzero
      refine .of_some (.of_binary h rfl hab.symm h.1 rfl fun v x y hx hy => ?_)
      obtain rfl := bits_of_const hy hzero
      simp [hx, BinaryOp.onBits]
    · split
      · rename_i c hc
        obtain rfl := const?_eq_some.mp hc
        obtain ⟨q, rfl⟩ := Word.Canonical.exists_bits h.2.1 hab.symm
        rw [Word.neg_ofBits hw]
        refine .of_mkBinary (.of_binary h rfl hab.symm ⟨h.1, wellFormed_const hw _, rfl⟩ rfl
          fun v x y hx hy => ?_)
        obtain rfl := bits_of_const hy rfl
        simp [value, hx, BinaryOp.on_ofBits, BinaryOp.onBits, BitVec.sub_eq_add_neg]
      · split
        · rename_i hzero
          refine .of_some (.of_binary h rfl hab.symm ⟨h.2.1, trivial⟩ hab.symm
            fun v x y hx hy => ?_)
          obtain rfl := bits_of_const hx hzero
          simp [neg, value, hy, UnaryOp.on_ofBits, UnaryOp.onBits, BinaryOp.onBits]
        · exact .of_none _

theorem answers_add (h : (binary .add a b).WellFormed s) :
    Answers s (binary .add a b) (simplifyOperator .add a b) := by
  simp only [simplifyOperator, Word.ofNat_eq h.1.validWidth, ok_bind]
  split
  · rename_i c hc
    obtain rfl := const?_eq_some.mp hc
    exact answers_simplifyAdd h
  · exact .of_none _

theorem answers_mul (h : (binary .mul a b).WellFormed s) :
    Answers s (binary .mul a b) (simplifyOperator .mul a b) := by
  have hab : a.width = b.width := h.2.2
  have hw := h.1.validWidth
  simp only [simplifyOperator, Word.ofNat_eq hw, Word.zero_eq, ok_bind, const?_eq_some]
  split
  · rename_i hzero
    refine .of_some (.of_binary h rfl hab.symm (wellFormed_const hw _) rfl fun v x y hx hy => ?_)
    obtain rfl := bits_of_const hy hzero
    simp [value, BinaryOp.onBits]
  · split
    · rename_i hone
      refine .of_some (.of_binary h rfl hab.symm h.1 rfl fun v x y hx hy => ?_)
      obtain rfl := bits_of_const hy hone
      simp [hx, BinaryOp.onBits]
    · exact .of_none _

theorem one_ne_zero_of_validWidth {w : Nat} (hw : Word.ValidWidth w) : 1#w ≠ 0#w := by
  intro heq
  have hnat := congrArg BitVec.toNat heq
  have hlt : 1 < 2 ^ w := Nat.one_lt_two_pow (by have := hw.1; omega)
  simp [Nat.mod_eq_of_lt hlt] at hnat

theorem answers_udiv (h : (binary .udiv a b).WellFormed s) :
    Answers s (binary .udiv a b) (simplifyOperator .udiv a b) := by
  have hab : a.width = b.width := h.2.2
  have hw := h.1.validWidth
  simp only [simplifyOperator, Word.ofNat_eq hw, ok_bind, const?_eq_some]
  split
  · rename_i hone
    refine .of_some (.of_binary h rfl hab.symm h.1 rfl fun v x y hx hy => ?_)
    obtain rfl := bits_of_const hy hone
    simp [hx, BinaryOp.onBits, BitVec.smtUDiv_eq, one_ne_zero_of_validWidth hw]
  · exact .of_none _

theorem answers_urem (h : (binary .urem a b).WellFormed s) :
    Answers s (binary .urem a b) (simplifyOperator .urem a b) := by
  have hab : a.width = b.width := h.2.2
  have hw := h.1.validWidth
  simp only [simplifyOperator, Word.ofNat_eq hw, Word.zero_eq, ok_bind, const?_eq_some]
  split
  · rename_i hone
    refine .of_some (.of_binary h rfl hab.symm (wellFormed_const hw _) rfl fun v x y hx hy => ?_)
    obtain rfl := bits_of_const hy hone
    simp [value, BinaryOp.onBits]
  · exact .of_none _

theorem answers_and (h : (binary .and a b).WellFormed s) :
    Answers s (binary .and a b) (simplifyOperator .and a b) := by
  have hab : a.width = b.width := h.2.2
  have hw := h.1.validWidth
  simp only [simplifyOperator, Word.ofNat_eq hw, Word.zero_eq, ok_bind]
  split
  · rename_i hsame
    subst hsame
    refine .of_some (.of_binary h rfl rfl h.1 rfl fun v x y hx hy => ?_)
    obtain rfl := bits_unique hx hy
    simp [hx, BinaryOp.onBits]
  · split
    · rename_i c hc
      obtain rfl := const?_eq_some.mp hc
      obtain ⟨q, rfl⟩ := Word.Canonical.exists_bits h.2.1 hab.symm
      rw [Word.isOnes_ofBits hw, ok_bind]
      split
      · rename_i hones
        obtain rfl := eq_of_beq hones
        refine .of_some (.of_binary h rfl hab.symm h.1 rfl fun v x y hx hy => ?_)
        obtain rfl := bits_of_const hy rfl
        simp [hx, BinaryOp.onBits]
      · split
        · rename_i hzero
          obtain rfl := Word.ofBits_inj.mp hzero
          refine .of_some (.of_binary h rfl hab.symm (wellFormed_const hw _) rfl
            fun v x y hx hy => ?_)
          obtain rfl := bits_of_const hy rfl
          simp [value, BinaryOp.onBits]
        · exact .of_none _
    · exact .of_none _

theorem answers_or (h : (binary .or a b).WellFormed s) :
    Answers s (binary .or a b) (simplifyOperator .or a b) := by
  have hab : a.width = b.width := h.2.2
  have hw := h.1.validWidth
  simp only [simplifyOperator, Word.ofNat_eq hw, Word.zero_eq, ok_bind, const?_eq_some]
  split
  · rename_i hleft
    refine .of_some (.of_binary h rfl hab.symm h.1 rfl fun v x y hx hy => ?_)
    rcases hleft with hsame | hzero
    · subst hsame
      obtain rfl := bits_unique hx hy
      simp [hx, BinaryOp.onBits]
    · obtain rfl := bits_of_const hy hzero
      simp [hx, BinaryOp.onBits]
  · split
    · rename_i c hc
      obtain rfl := const?_eq_some.mp hc
      obtain ⟨q, rfl⟩ := Word.Canonical.exists_bits h.2.1 hab.symm
      rw [Word.isOnes_ofBits hw, ok_bind]
      split
      · rename_i hones
        obtain rfl := eq_of_beq hones
        refine .of_some (.of_binary h rfl hab.symm h.2.1 rfl fun v x y hx hy => ?_)
        obtain rfl := bits_of_const hy rfl
        simp [value, BinaryOp.onBits]
      · exact .of_none _
    · exact .of_none _

theorem answers_xor (h : (binary .xor a b).WellFormed s) :
    Answers s (binary .xor a b) (simplifyOperator .xor a b) := by
  have hab : a.width = b.width := h.2.2
  have hw := h.1.validWidth
  simp only [simplifyOperator, Word.ofNat_eq hw, Word.zero_eq, ok_bind, const?_eq_some]
  split
  · rename_i hsame
    subst hsame
    refine .of_some (.of_binary h rfl rfl (wellFormed_const hw _) rfl fun v x y hx hy => ?_)
    obtain rfl := bits_unique hx hy
    simp [value, BinaryOp.onBits]
  · split
    · rename_i hzero
      refine .of_some (.of_binary h rfl hab.symm h.1 rfl fun v x y hx hy => ?_)
      obtain rfl := bits_of_const hy hzero
      simp [hx, BinaryOp.onBits]
    · split
      · rename_i hbit
        obtain ⟨hbit, hone⟩ := hbit
        refine .of_some (.of_binary h rfl hab.symm ⟨h.1, trivial⟩ rfl fun v x y hx hy => ?_)
        obtain rfl := bits_of_const hy hone
        -- The only bit of a one-bit integer is set in all ones.
        have hones : BitVec.ofNat a.width 1 = BitVec.allOnes a.width := by rw [hbit]; rfl
        simp [not, value, hx, UnaryOp.on_ofBits, UnaryOp.onBits, BinaryOp.onBits, hones]
      · exact .of_none _

theorem answers_shift {op : BinaryOp} (h : (binary op a b).WellFormed s)
    (hop : op = .shl ∨ op = .shr ∨ op = .sar) :
    Answers s (binary op a b) (simplifyOperator op a b) := by
  have hab : a.width = b.width := by
    rcases hop with rfl | rfl | rfl <;> exact h.2.2
  have hw := h.1.validWidth
  have hwidth : a.width = op.resultWidth a.width b.width := by
    rcases hop with rfl | rfl | rfl <;> rfl
  have hrule : simplifyOperator op a b =
      .ok (if b = const (.ofBits 0#a.width) ∨ a = const (.ofBits 0#a.width) then some a
        else none) := by
    rcases hop with rfl | rfl | rfl <;>
      simp only [simplifyOperator, Word.ofNat_eq hw, Word.zero_eq, ok_bind, pure_eq_ok,
        const?_eq_some]
  rw [hrule]
  split
  · rename_i hzero
    refine .of_some (.of_binary h rfl hab.symm h.1 hwidth fun v x y hx hy => ?_)
    rcases hzero with hzero | hzero
    · obtain rfl := bits_of_const hy hzero
      rcases hop with rfl | rfl | rfl <;> simp [hx, BinaryOp.onBits]
    · obtain rfl := bits_of_const hx hzero
      rcases hop with rfl | rfl | rfl <;> simp [hx, BinaryOp.onBits]
  · exact .of_none _

theorem answers_concat (h : (binary .concat a b).WellFormed s) :
    Answers s (binary .concat a b) (simplifyOperator .concat a b) := by
  simp only [simplifyOperator, Word.ofNat_eq h.1.validWidth, ok_bind]
  split
  case h_1 high highSize x low lowSize y =>
    split
    · rename_i hadjacent
      obtain ⟨rfl, hadjacent⟩ := hadjacent
      obtain ⟨⟨hx, -, hhigh⟩, ⟨-, hpos, -⟩, -⟩ := h
      refine .of_mkUnary ⟨⟨hx, by omega, by omega⟩, Nat.add_comm _ _, fun v => ?_⟩
      obtain ⟨p, hp⟩ := hx.exists_bits rfl v
      have hjoin : p.extractLsb' high highSize ++ p.extractLsb' low lowSize =
          p.extractLsb' low (highSize + lowSize) :=
        BitVec.extractLsb'_append_extractLsb'_eq_extractLsb' hadjacent.symm
      simp only [value, hp, UnaryOp.on_ofBits, BinaryOp.on_ofBits, UnaryOp.onBits,
        BinaryOp.onBits, hjoin]
      rw [Nat.add_comm]
    · exact .of_none _
  case h_2 => exact .of_none _

theorem equiv_comparison_self {op : BinaryOp} {answer : Bool} (h : (binary op a a).WellFormed s)
    (hop : op.isComparison)
    (hvalue : ∀ x : BitVec a.width, op.onBits x x = .ofBits (BitVec.ofBool answer)) :
    Equiv s (binary op a a) (bool answer) := by
  refine .of_binary h rfl rfl (wellFormed_bool answer) ?_ fun v x y hx hy => ?_
  · cases op with
    | eq | ne | ult | ule | slt | sle => rfl
    | _ => simp [BinaryOp.isComparison] at hop
  · obtain rfl := bits_unique hx hy
    rw [hvalue, bool, value, Word.ofBool_eq]

theorem eq_bit : ∀ x c : BitVec 1, BitVec.ofBool (x == c) = if (c != 0#1) == true then x
      else ~~~x := by
  decide

theorem ne_bit : ∀ x c : BitVec 1, BitVec.ofBool (x != c) = if (c != 0#1) == false then x
      else ~~~x := by
  decide

theorem equiv_compare_bit {op : BinaryOp} {c : BitVec 1} {keep : Bool}
    (h : (binary op a (const (.ofBits c))).WellFormed s) (hbit : a.width = 1)
    (hop : op.isComparison)
    (hvalue : ∀ x : BitVec 1, op.onBits x c = .ofBits (if (c != 0#1) == keep then x else ~~~x)) :
    Equiv s (binary op a (const (.ofBits c)))
      (if (Word.ofBits c).isTrue == keep then a else a.not) := by
  have hr : (if (Word.ofBits c).isTrue == keep then a else a.not).WellFormed s ∧
      (if (Word.ofBits c).isTrue == keep then a else a.not).width = 1 := by
    split
    · exact ⟨h.1, hbit⟩
    · exact ⟨⟨h.1, trivial⟩, hbit⟩
  refine .of_binary h hbit rfl hr.1 ?_ fun v x y hx hy => ?_
  · cases op with
    | eq | ne | ult | ule | slt | sle => exact hr.2
    | _ => simp [BinaryOp.isComparison] at hop
  · obtain rfl := bits_of_const hy rfl
    rw [hvalue, Word.isTrue_ofBits]
    split
    · exact hx
    · rw [not, value, hx, UnaryOp.on_ofBits]
      rfl

theorem answers_equality {op : BinaryOp} (h : (binary op a b).WellFormed s)
    (hop : op = .eq ∨ op = .ne) :
    Answers s (binary op a b) (simplifyOperator op a b) := by
  cases op with
  | eq | ne =>
      have hab : a.width = b.width := h.2.2
      have hne : (BinaryOp.ne == BinaryOp.eq) = false := rfl
      simp only [simplifyOperator, Word.ofNat_eq h.1.validWidth, ok_bind]
      split
      · rename_i hsame
        subst hsame
        exact .of_some (equiv_comparison_self h rfl fun x => by simp [BinaryOp.onBits, hne])
      · split
        · rename_i hbit
          split
          · rename_i c hc
            obtain rfl := const?_eq_some.mp hc
            obtain ⟨q, rfl⟩ := Word.Canonical.exists_bits h.2.1 (hab.symm.trans hbit)
            refine .of_some (equiv_compare_bit h hbit rfl fun x => ?_)
            simp [BinaryOp.onBits, eq_bit, ne_bit, hne]
          · exact .of_none _
        · exact .of_none _
  | _ => simp at hop

theorem answers_ult (h : (binary .ult a b).WellFormed s) :
    Answers s (binary .ult a b) (simplifyOperator .ult a b) := by
  have hab : a.width = b.width := h.2.2
  simp only [simplifyOperator, Word.ofNat_eq h.1.validWidth, Word.zero_eq, ok_bind,
    const?_eq_some]
  split
  · rename_i hcases
    rcases hcases with hsame | hzero
    · subst hsame
      exact .of_some (equiv_comparison_self h rfl fun x => by simp [BinaryOp.onBits, BitVec.ult])
    · refine .of_some (.of_binary h rfl hab.symm (wellFormed_bool false) rfl
        fun v x y hx hy => ?_)
      obtain rfl := bits_of_const hy hzero
      simp [bool, value, Word.ofBool_eq, BinaryOp.onBits, BitVec.ult]
  · exact .of_none _

theorem answers_ule (h : (binary .ule a b).WellFormed s) :
    Answers s (binary .ule a b) (simplifyOperator .ule a b) := by
  have hab : a.width = b.width := h.2.2
  simp only [simplifyOperator, Word.ofNat_eq h.1.validWidth, Word.zero_eq, ok_bind,
    const?_eq_some]
  split
  · rename_i hcases
    rcases hcases with hsame | hzero
    · subst hsame
      exact .of_some (equiv_comparison_self h rfl fun x => by simp [BinaryOp.onBits, BitVec.ule])
    · refine .of_some (.of_binary h rfl hab.symm (wellFormed_bool true) rfl fun v x y hx hy => ?_)
      obtain rfl := bits_of_const hx hzero
      simp [bool, value, Word.ofBool_eq, BinaryOp.onBits, BitVec.ule]
  · exact .of_none _

theorem answers_signed {op : BinaryOp} (h : (binary op a b).WellFormed s)
    (hop : op = .slt ∨ op = .sle) :
    Answers s (binary op a b) (simplifyOperator op a b) := by
  cases op with
  | slt | sle =>
      simp only [simplifyOperator, Word.ofNat_eq h.1.validWidth, ok_bind]
      split
      · rename_i hsame
        subst hsame
        exact .of_some (equiv_comparison_self h rfl
          fun x => by simp [BinaryOp.onBits, BitVec.slt, BitVec.sle])
      · exact .of_none _
  | _ => simp at hop

theorem answers_simplifyOperator {op : BinaryOp} (h : (binary op a b).WellFormed s) :
    Answers s (binary op a b) (simplifyOperator op a b) := by
  cases op with
  | add => exact answers_add h
  | sub => exact answers_sub h
  | mul => exact answers_mul h
  | udiv => exact answers_udiv h
  | urem => exact answers_urem h
  | and => exact answers_and h
  | or => exact answers_or h
  | xor => exact answers_xor h
  | shl => exact answers_shift h (.inl rfl)
  | shr => exact answers_shift h (.inr (.inl rfl))
  | sar => exact answers_shift h (.inr (.inr rfl))
  | concat => exact answers_concat h
  | eq => exact answers_equality h (.inl rfl)
  | ne => exact answers_equality h (.inr rfl)
  | ult => exact answers_ult h
  | ule => exact answers_ule h
  | slt => exact answers_signed h (.inl rfl)
  | sle => exact answers_signed h (.inr rfl)

theorem answers_simplifyBinary {op : BinaryOp} (h : (binary op a b).WellFormed s) :
    Answers s (binary op a b) (simplifyBinary op a b) := by
  have hw := h.1.validWidth
  simp only [simplifyBinary, hw, require_true, ok_bind]
  split
  case h_1 => exact answers_fold_binary h
  case h_2 =>
    split
    · exact .of_mkBinary (equiv_swap h ‹_›)
    · exact answers_simplifyOperator h
  case h_3 => exact answers_simplifyOperator h

end Binary

/-- Every rule answers a well formed node without a fault, and with an expression that may stand
for it. -/
theorem answers_simplifyNode {e : Expr} (h : e.WellFormed s) : Answers s e (simplifyNode e) := by
  cases e with
  | unary op a => exact answers_simplifyUnary h
  | binary op a b => exact answers_simplifyBinary h
  | ite condition a b =>
      obtain ⟨hc, ha, hb, hbit, hab⟩ := h
      rw [simplifyNode]
      split
      · rename_i c hconst
        obtain rfl := const?_eq_some.mp hconst
        by_cases htrue : c.isTrue
        · rw [if_pos htrue]
          exact .of_some ⟨ha, rfl, fun v => by rw [value, value, if_pos htrue]⟩
        · rw [if_neg htrue]
          exact .of_some ⟨hb, hab.symm, fun v => by rw [value, value, if_neg htrue]⟩
      · split
        · rename_i hsame
          subst hsame
          exact .of_some ⟨ha, rfl, fun v => by rw [value, ite_self]⟩
        · exact .of_none _
  | _ => exact .of_none _

end FlowRecovery.Expr
