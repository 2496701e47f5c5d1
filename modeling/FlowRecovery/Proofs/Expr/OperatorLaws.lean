import Mathlib
import FlowRecovery.Proofs.Expr.Operator

namespace FlowRecovery

namespace Word

/-- The bit of an integer at a position, counted from the lowest. -/
def bit (a : Word) (i : Nat) : Bool :=
  a.value.testBit i

/-- The value of an integer whose highest bit counts negatively. -/
def twosComplement (a : Word) : Int :=
  if a.bit (a.width - 1) then (a.value : Int) - 2 ^ a.width else a.value

theorem bit_ofBits {w : Nat} (x : BitVec w) (i : Nat) : (ofBits x).bit i = x.getLsbD i :=
  rfl

theorem twosComplement_ofBits {w : Nat} (x : BitVec w) : (ofBits x).twosComplement = x.toInt := by
  rw [twosComplement, ofBits_width, bit_ofBits, ← BitVec.msb_eq_getLsbD_last, ofBits_value,
    BitVec.toInt_eq_msb_cond]
  norm_cast

section Results

variable {w : Nat} {r : Word} {x : BitVec w}

theorem eq_ofBits_iff_of (hw : ValidWidth w) {P : Word → Prop}
    (hP : ∀ y : BitVec w, P (ofBits y) ↔ y = x) :
    r = ofBits x ↔ r.Canonical ∧ r.width = w ∧ P r := by
  constructor
  · rintro rfl
    exact ⟨canonical_ofBits hw x, rfl, (hP x).mpr rfl⟩
  · rintro ⟨hr, hwidth, h⟩
    obtain ⟨y, rfl⟩ := hr.exists_bits hwidth
    rw [(hP y).mp h]

theorem eq_ofBits_iff_value (hw : ValidWidth w) {n : Nat} (hx : x.toNat = n) :
    r = ofBits x ↔ r.Canonical ∧ r.width = w ∧ r.value = n := by
  apply eq_ofBits_iff_of hw
  intro y
  rw [ofBits_value, ← hx, BitVec.toNat_inj]

theorem eq_ofBits_iff_modEq (hw : ValidWidth w) {n : Int} (hx : x = BitVec.ofInt w n) :
    r = ofBits x ↔ r.Canonical ∧ r.width = w ∧ (r.value : Int) ≡ n [ZMOD 2 ^ w] := by
  apply eq_ofBits_iff_of hw
  intro y
  have hy : (y.toNat : Int) % 2 ^ w = y.toNat := Int.emod_eq_of_lt (by positivity)
    (by exact_mod_cast y.isLt)
  have hn : ((BitVec.ofInt w n).toNat : Int) = n % 2 ^ w := by
    rw [BitVec.toNat_ofInt, Int.toNat_of_nonneg (Int.emod_nonneg n (by positivity))]
    norm_cast
  rw [ofBits_value, Int.ModEq, hy, ← hn, Int.natCast_inj, BitVec.toNat_inj, hx]

theorem eq_ofBits_iff_bit (hw : ValidWidth w) {f : Nat → Bool} (hx : ∀ i < w, x.getLsbD i = f i) :
    r = ofBits x ↔ r.Canonical ∧ r.width = w ∧ ∀ i < w, r.bit i = f i := by
  apply eq_ofBits_iff_of hw
  intro y
  constructor
  · intro h
    apply BitVec.eq_of_getLsbD_eq
    intro i hi
    rw [hx i hi]
    exact h i hi
  · rintro rfl
    exact hx

theorem eq_ofBits_iff_twosComplement (hw : ValidWidth w) {n : Int} (hx : x.toInt = n) :
    r = ofBits x ↔ r.Canonical ∧ r.width = w ∧ r.twosComplement = n := by
  apply eq_ofBits_iff_of hw
  intro y
  rw [twosComplement_ofBits, ← hx, BitVec.toInt_inj]

theorem eq_ofBits_iff_isTrue {b : Bool} {p : Prop} (hb : b = true ↔ p) :
    r = ofBits (BitVec.ofBool b) ↔ r.Canonical ∧ r.width = 1 ∧ (r.isTrue = true ↔ p) := by
  apply eq_ofBits_iff_of (by decide)
  intro y
  rw [isTrue_ofBits, ← hb]
  revert y
  cases b <;> decide

end Results

end Word

namespace UnaryOp

/-- What holds of the result `r` of an operator on `a`. -/
def Law (a r : Word) : UnaryOp → Prop
  | not => ∀ i < a.width, r.bit i = !a.bit i
  | neg => (r.value : Int) ≡ -a.value [ZMOD 2 ^ a.width]
  | extract offset size => ∀ i < size, r.bit i = a.bit (offset + i)
  | zeroExtend _ => r.value = a.value
  | signExtend _ => r.twosComplement = a.twosComplement

theorem eq_onBits_iff {op : UnaryOp} {r : Word} {w : Nat} (hw : Word.ValidWidth w)
    (h : op.Admits w) (x : BitVec w) :
    r = op.onBits x ↔ r.Canonical ∧ r.width = op.resultWidth w ∧ op.Law (.ofBits x) r := by
  cases op with
  | not =>
      apply Word.eq_ofBits_iff_bit hw
      intro i hi
      simp [hi, Word.bit_ofBits]
  | neg =>
      apply Word.eq_ofBits_iff_modEq hw
      simp [BitVec.ofInt_neg]
  | extract offset size =>
      have hsize : Word.ValidWidth size := h.validWidth hw
      apply Word.eq_ofBits_iff_bit hsize
      intro i hi
      simp [hi, Word.bit_ofBits]
  | zeroExtend width =>
      have hwidth : Word.ValidWidth width := h.validWidth hw
      apply Word.eq_ofBits_iff_value hwidth
      exact BitVec.toNat_setWidth_of_le h.1
  | signExtend width =>
      have hwidth : Word.ValidWidth width := h.validWidth hw
      apply Word.eq_ofBits_iff_twosComplement hwidth
      rw [Word.twosComplement_ofBits]
      exact BitVec.toInt_signExtend_of_le h.1

end UnaryOp

namespace BinaryOp

/-- The widths of the integers that an operator takes. Shifts take amounts of any width. -/
def Takes : BinaryOp → Nat → Nat → Prop
  | shl, _, _ | shr, _, _ | sar, _, _ => True
  | op, left, right => op.Admits left right

/-- What holds of the result `r` of an operator on `a` and `b`. -/
def Law (a b r : Word) : BinaryOp → Prop
  | add => (r.value : Int) ≡ a.value + b.value [ZMOD 2 ^ a.width]
  | sub => (r.value : Int) ≡ a.value - b.value [ZMOD 2 ^ a.width]
  | mul => (r.value : Int) ≡ a.value * b.value [ZMOD 2 ^ a.width]
  | udiv => r.value = if b.value = 0 then 2 ^ a.width - 1 else a.value / b.value
  | urem => r.value = if b.value = 0 then a.value else a.value % b.value
  | and => ∀ i < a.width, r.bit i = (a.bit i && b.bit i)
  | or => ∀ i < a.width, r.bit i = (a.bit i || b.bit i)
  | xor => ∀ i < a.width, r.bit i = (a.bit i ^^ b.bit i)
  | shl => r.value = if a.width ≤ b.value then 0 else a.value * 2 ^ b.value % 2 ^ a.width
  | shr => r.value = if a.width ≤ b.value then 0 else a.value / 2 ^ b.value
  | sar =>
      ∀ i < a.width, r.bit i = if b.value + i < a.width then a.bit (b.value + i)
        else a.bit (a.width - 1)
  | concat =>
      ∀ i < a.width + b.width, r.bit i = if i < b.width then b.bit i else a.bit (i - b.width)
  | eq => r.isTrue = true ↔ a.value = b.value
  | ne => r.isTrue = true ↔ a.value ≠ b.value
  | ult => r.isTrue = true ↔ a.value < b.value
  | ule => r.isTrue = true ↔ a.value ≤ b.value
  | slt => r.isTrue = true ↔ a.twosComplement < b.twosComplement
  | sle => r.isTrue = true ↔ a.twosComplement ≤ b.twosComplement

theorem eq_onBits_iff {op : BinaryOp} {r : Word} {m n : Nat} (hm : Word.ValidWidth m)
    (h : op.Takes m n) (x : BitVec m) (y : BitVec n) : r = op.onBits x y ↔
      r.Canonical ∧ r.width = op.resultWidth m n ∧ op.Law (.ofBits x) (.ofBits y) r := by
  cases op with
  | add | sub | mul =>
      obtain rfl : m = n := h
      apply Word.eq_ofBits_iff_modEq hm
      simp [Int.sub_eq_add_neg, BitVec.sub_eq_add_neg, BitVec.ofInt_add, BitVec.ofInt_neg,
        BitVec.ofInt_mul]
  | udiv =>
      obtain rfl : m = n := h
      apply Word.eq_ofBits_iff_value hm
      rw [BitVec.setWidth_eq, BitVec.smtUDiv_eq, Word.ofBits_value, Word.ofBits_value,
        Word.ofBits_width]
      by_cases hy : y = 0#m
      · simp [hy]
      · have hn : y.toNat ≠ 0 := by simpa [← BitVec.toNat_inj] using hy
        simp [hy, hn]
  | urem =>
      obtain rfl : m = n := h
      apply Word.eq_ofBits_iff_value hm
      rw [BitVec.setWidth_eq, BitVec.toNat_umod, Word.ofBits_value, Word.ofBits_value]
      split
      case isTrue hy => rw [hy, Nat.mod_zero]
      case isFalse => rfl
  | and | or | xor =>
      obtain rfl : m = n := h
      apply Word.eq_ofBits_iff_bit hm
      intro i hi
      simp [Word.bit_ofBits]
  | shl =>
      apply Word.eq_ofBits_iff_value hm
      rw [Word.ofBits_value, Word.ofBits_value, Word.ofBits_width]
      split
      case isTrue hle => rw [BitVec.shiftLeft_eq_zero hle, BitVec.toNat_zero]
      case isFalse => rw [BitVec.toNat_shiftLeft, Nat.shiftLeft_eq]
  | shr =>
      apply Word.eq_ofBits_iff_value hm
      rw [Word.ofBits_value, Word.ofBits_value, Word.ofBits_width]
      split
      case isTrue hle => rw [BitVec.ushiftRight_eq_zero hle, BitVec.toNat_zero]
      case isFalse => rw [BitVec.toNat_ushiftRight, Nat.shiftRight_eq_div_pow]
  | sar =>
      apply Word.eq_ofBits_iff_bit hm
      intro i hi
      have hlt : ¬ m ≤ i := by omega
      rw [BitVec.getLsbD_sshiftRight, BitVec.msb_eq_getLsbD_last, decide_eq_false hlt,
        Bool.not_false, Bool.true_and]
      rfl
  | concat =>
      have hadmits : concat.Admits m n := h
      have hwidth : Word.ValidWidth (m + n) := hadmits.validWidth hm
      apply Word.eq_ofBits_iff_bit hwidth
      intro i _
      rw [BitVec.getLsbD_append]
      rfl
  | eq | ne =>
      obtain rfl : m = n := h
      apply Word.eq_ofBits_iff_isTrue
      simp [BitVec.toNat_inj]
  | ult | ule =>
      obtain rfl : m = n := h
      apply Word.eq_ofBits_iff_isTrue
      simp [BitVec.ult, BitVec.ule]
  | slt | sle =>
      obtain rfl : m = n := h
      apply Word.eq_ofBits_iff_isTrue
      simp [BitVec.slt, BitVec.sle, Word.twosComplement_ofBits]

theorem apply_ofBits_of_takes {op : BinaryOp} {m n : Nat} (hm : Word.ValidWidth m)
    (h : op.Takes m n) (x : BitVec m) (y : BitVec n) :
    op.apply (.ofBits x) (.ofBits y) = .ok (op.onBits x y) := by
  cases op with
  | shl => exact Word.shl_ofBits hm x y
  | shr => exact Word.shr_ofBits hm x y
  | sar => exact Word.sar_ofBits hm x y
  | _ =>
      apply apply_ofBits hm
      exact h

end BinaryOp

/-- On canonical integers whose widths it takes, an operator yields the integer of the bit vector
that the operation of its name yields. That is the only canonical integer of the width of the
result for which the law of the operator holds. -/
theorem operators_compute_bit_vectors :
    (∀ (op : UnaryOp) (a : Word), a.Canonical → op.Admits a.width →
      op.apply a = .ok (op.on a) ∧
      ∀ r, op.apply a = .ok r ↔ r.Canonical ∧ r.width = op.resultWidth a.width ∧ op.Law a r) ∧
    ∀ (op : BinaryOp) (a b : Word), a.Canonical → b.Canonical → op.Takes a.width b.width →
      op.apply a b = .ok (op.on a b) ∧
      ∀ r, op.apply a b = .ok r ↔ r.Canonical ∧ r.width = op.resultWidth a.width b.width ∧
        op.Law a b r := by
  constructor
  · intro op a ha h
    have happly : op.apply a = .ok (op.on a) := UnaryOp.apply_eq_on ha h
    refine ⟨happly, ?_⟩
    intro r
    rw [happly, Except.ok.injEq, eq_comm]
    have hlaw := UnaryOp.eq_onBits_iff (r := r) ha.1 h a.bits
    rwa [ha.ofBits_bits] at hlaw
  · intro op a b ha hb h
    have happly : op.apply a b = .ok (op.on a b) := by
      have hbits := BinaryOp.apply_ofBits_of_takes ha.1 h a.bits b.bits
      rwa [ha.ofBits_bits, hb.ofBits_bits] at hbits
    refine ⟨happly, ?_⟩
    intro r
    rw [happly, Except.ok.injEq, eq_comm]
    have hlaw := BinaryOp.eq_onBits_iff (r := r) ha.1 h a.bits b.bits
    rwa [ha.ofBits_bits, hb.ofBits_bits] at hlaw

/-- An arithmetic shift of 64 bits by the greatest amount, a left shift by an amount that is wider
than what is shifted, and a byte that is extended to 64 bits. -/
theorem operators_compute_bit_vectors_at_extremes :
    let least : Word := ⟨64, 2 ^ 63⟩
    let greatest : Word := ⟨64, 2 ^ 64 - 1⟩
    (least.Canonical ∧ greatest.Canonical ∧ BinaryOp.sar.Takes 64 64 ∧
      BinaryOp.sar.apply least greatest = .ok greatest ∧
      BinaryOp.sar.Law least greatest greatest) ∧
    (BinaryOp.shl.Takes 8 64 ∧ BinaryOp.shl.Law ⟨8, 0xff⟩ greatest ⟨8, 0⟩) ∧
    ((UnaryOp.signExtend 64).Admits 8 ∧
      (UnaryOp.signExtend 64).Law ⟨8, 0x81⟩ ⟨64, 2 ^ 64 - 127⟩) := by
  intro least greatest
  obtain ⟨hunary, hbinary⟩ := operators_compute_bit_vectors
  have hleast : least.Canonical := by decide
  have hgreatest : greatest.Canonical := by decide
  have hsar : BinaryOp.sar.apply least greatest = .ok greatest := by decide +kernel
  have hshl : BinaryOp.shl.apply ⟨8, 0xff⟩ greatest = .ok ⟨8, 0⟩ := by decide +kernel
  have hext : (UnaryOp.signExtend 64).apply ⟨8, 0x81⟩ = .ok ⟨64, 2 ^ 64 - 127⟩ := by
    decide +kernel
  refine ⟨⟨hleast, hgreatest, trivial, hsar, ?_⟩, ⟨trivial, ?_⟩, by decide, ?_⟩
  · exact (((hbinary .sar least greatest hleast hgreatest trivial).2 greatest).mp hsar).2.2
  · exact (((hbinary .shl ⟨8, 0xff⟩ greatest (by decide) hgreatest trivial).2 ⟨8, 0⟩).mp hshl).2.2
  · exact (((hunary (.signExtend 64) ⟨8, 0x81⟩ (by decide) (by decide)).2 _).mp hext).2.2

end FlowRecovery
