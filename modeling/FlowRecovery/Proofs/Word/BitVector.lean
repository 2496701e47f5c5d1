import Mathlib
import FlowRecovery.Expr.Operator

namespace FlowRecovery

section Slices

variable {w : Nat} {offset size : Nat} (x y : BitVec w)

theorem slice_slice {first length : Nat} (h : offset + size ≤ length) :
    (x.extractLsb' first length).extractLsb' offset size =
      x.extractLsb' (first + offset) size := by
  ext i hi
  simp [show offset + i < length by omega, Nat.add_assoc]

theorem slice_setWidth_of_le {width : Nat} (h : w ≤ offset) :
    (x.setWidth width).extractLsb' offset size = BitVec.ofNat size 0 := by
  ext i hi
  simp [BitVec.getLsbD_of_ge x (offset + i) (by omega)]

theorem slice_signExtend {width : Nat} (h : offset + size ≤ w) (hw : w ≤ width) :
    (x.signExtend width).extractLsb' offset size = x.extractLsb' offset size := by
  ext i hi
  simp [BitVec.getElem_signExtend, show offset + i < width by omega, show offset + i < w by omega]

theorem slice_sub (h : size ≤ w) :
    (x - y).extractLsb' 0 size = x.extractLsb' 0 size - y.extractLsb' 0 size := by
  rw [BitVec.sub_eq_add_neg, BitVec.sub_eq_add_neg, BitVec.extractLsb'_add h]
  congr 1
  rw [← BitVec.setWidth_eq_extractLsb' h, ← BitVec.setWidth_eq_extractLsb' h,
    BitVec.setWidth_neg_of_le h]

theorem signExtend_signExtend {inner outer : Nat} (h : w ≤ inner) (ho : inner ≤ outer) :
    (x.signExtend inner).signExtend outer = x.signExtend outer := by
  apply BitVec.eq_of_toInt_eq
  rw [BitVec.toInt_signExtend_of_le ho, BitVec.toInt_signExtend_of_le h,
    BitVec.toInt_signExtend_of_le (le_trans h ho)]

end Slices

namespace Word

theorem modulus_eq (width : Nat) : modulus width = 2 ^ width := by
  rw [modulus, Nat.one_shiftLeft]

/-- The integer that holds the bits of a bit vector. -/
def ofBits {w : Nat} (x : BitVec w) : Word :=
  ⟨w, x.toNat⟩

@[simp] theorem ofBits_width {w : Nat} (x : BitVec w) : (ofBits x).width = w := rfl

@[simp] theorem ofBits_value {w : Nat} (x : BitVec w) : (ofBits x).value = x.toNat := rfl

theorem ofBits_inj {w : Nat} {x y : BitVec w} : ofBits x = ofBits y ↔ x = y := by
  constructor
  · intro h
    exact BitVec.eq_of_toNat_eq (congrArg Word.value h)
  · rintro rfl
    rfl

/-- An integer of a valid width with no bit beyond it. -/
def Canonical (a : Word) : Prop :=
  ValidWidth a.width ∧ a.value < modulus a.width

instance (a : Word) : Decidable a.Canonical :=
  inferInstanceAs (Decidable (_ ∧ _))

theorem canonical_ofBits {w : Nat} (hw : ValidWidth w) (x : BitVec w) : (ofBits x).Canonical := by
  refine ⟨hw, ?_⟩
  rw [ofBits_value, ofBits_width, modulus_eq]
  exact x.isLt

/-- The bits of an integer as a bit vector of its width. -/
def bits (a : Word) : BitVec a.width :=
  BitVec.ofNat a.width a.value

@[simp] theorem bits_ofBits {w : Nat} (x : BitVec w) : (ofBits x).bits = x :=
  BitVec.eq_of_toNat_eq (by simp [bits, ofBits])

theorem Canonical.ofBits_bits {a : Word} (h : a.Canonical) : ofBits a.bits = a := by
  have hlt : a.value < 2 ^ a.width := modulus_eq a.width ▸ h.2
  simp [ofBits, bits, Nat.mod_eq_of_lt hlt]

theorem Canonical.exists_bits {a : Word} (h : a.Canonical) {w : Nat} (hw : a.width = w) :
    ∃ x : BitVec w, a = ofBits x := by
  subst hw
  exact ⟨a.bits, h.ofBits_bits.symm⟩

theorem ofNat_eq {w : Nat} (hw : ValidWidth w) (n : Nat) :
    ofNat w n = .ok (ofBits (BitVec.ofNat w n)) := by
  simp [ofNat, hw, ofBits, modulus_eq]

theorem ofInt_eq {w : Nat} (hw : ValidWidth w) (n : Int) :
    ofInt w n = .ok (ofBits (BitVec.ofInt w n)) := by
  simp [ofInt, hw, ofBits, modulus_eq, BitVec.toNat_ofInt]

theorem ofBool_eq (b : Bool) : ofBool b = ofBits (BitVec.ofBool b) := by
  cases b <;> rfl

theorem zero_eq (w : Nat) : zero w = ofBits 0#w := by
  simp [zero, ofBits]

theorem ones_eq {w : Nat} (hw : ValidWidth w) : ones w = .ok (ofBits (BitVec.allOnes w)) := by
  simp [ones, hw, ofBits, modulus_eq]

@[simp] theorem isTrue_ofBits {w : Nat} (x : BitVec w) : (ofBits x).isTrue = (x != 0#w) := by
  rw [isTrue, ofBits_value, Bool.eq_iff_iff, bne_iff_ne, bne_iff_ne, ne_eq, ne_eq,
    ← BitVec.toNat_inj]
  simp

@[simp] theorem sameWidth_ofBits {w : Nat} (operation : String) (x y : BitVec w) :
    sameWidth operation (ofBits x) (ofBits y) = .ok () := by
  simp [sameWidth]

section

variable {w : Nat} (hw : ValidWidth w) (x y : BitVec w)

include hw

theorem isOnes_ofBits : (ofBits x).isOnes = .ok (x == BitVec.allOnes w) := by
  simp [isOnes, ones_eq hw, ofBits_inj, beq_eq_decide]

theorem signed_ofBits : (ofBits x).signed = .ok x.toInt := by
  simp [signed, hw, modulus_eq, BitVec.toInt_eq_toNat_cond]

theorem add_ofBits : (ofBits x).add (ofBits y) = .ok (ofBits (x + y)) := by
  simp [add, ofNat_eq hw, BitVec.ofNat_add]

theorem sub_ofBits : (ofBits x).sub (ofBits y) = .ok (ofBits (x - y)) := by
  have h : BitVec.ofInt w ((x.toNat : Int) - y.toNat) = x - y := by
    rw [Int.sub_eq_add_neg, BitVec.ofInt_add, BitVec.ofInt_neg]
    simp [BitVec.sub_eq_add_neg]
  simp [sub, ofInt_eq hw, h]

theorem mul_ofBits : (ofBits x).mul (ofBits y) = .ok (ofBits (x * y)) := by
  simp [mul, ofNat_eq hw, BitVec.ofNat_mul]

theorem udiv_ofBits : (ofBits x).udiv (ofBits y) = .ok (ofBits (x.smtUDiv y)) := by
  by_cases hy : y = 0#w
  · subst hy
    simp [udiv, ones_eq hw]
  · have hn : y.toNat ≠ 0 := by simpa [← BitVec.toNat_inj] using hy
    have hd : BitVec.ofNat w (x.toNat / y.toNat) = x / y := by
      apply BitVec.eq_of_toNat_eq
      rw [BitVec.toNat_ofNat, BitVec.toNat_udiv]
      exact Nat.mod_eq_of_lt (lt_of_le_of_lt (Nat.div_le_self _ _) x.isLt)
    simp [udiv, ofNat_eq hw, hn, hd, BitVec.smtUDiv_eq, hy]

theorem urem_ofBits : (ofBits x).urem (ofBits y) = .ok (ofBits (x % y)) := by
  by_cases hy : y.toNat = 0
  · have h : x % y = x := BitVec.eq_of_toNat_eq (by simp [hy])
    simp [urem, hy, h]
  · have hr : BitVec.ofNat w (x.toNat % y.toNat) = x % y := by
      apply BitVec.eq_of_toNat_eq
      rw [BitVec.toNat_ofNat, BitVec.toNat_umod]
      exact Nat.mod_eq_of_lt (lt_of_le_of_lt (Nat.mod_le _ _) x.isLt)
    simp [urem, ofNat_eq hw, hy, hr]

theorem and_ofBits : (ofBits x).and (ofBits y) = .ok (ofBits (x &&& y)) := by
  simp [and, ofNat_eq hw]

theorem or_ofBits : (ofBits x).or (ofBits y) = .ok (ofBits (x ||| y)) := by
  simp [or, ofNat_eq hw]

theorem xor_ofBits : (ofBits x).xor (ofBits y) = .ok (ofBits (x ^^^ y)) := by
  simp [xor, ofNat_eq hw]

theorem not_ofBits : (ofBits x).not = .ok (ofBits (~~~x)) := by
  have h : BitVec.ofInt w (-1 - x.toNat) = ~~~x := by
    rw [Int.sub_eq_add_neg, BitVec.ofInt_add, BitVec.ofInt_neg, BitVec.ofInt_neg,
      BitVec.not_eq_neg_add]
    simp [BitVec.sub_eq_add_neg, BitVec.add_comm]
  simp [not, ofInt_eq hw, h]

theorem neg_ofBits : (ofBits x).neg = .ok (ofBits (-x)) := by
  have h : BitVec.ofInt w (-x.toNat) = -x := by
    rw [BitVec.ofInt_neg]
    simp
  simp [neg, ofInt_eq hw, h]

theorem shl_ofBits {n : Nat} (y : BitVec n) :
    (ofBits x).shl (ofBits y) = .ok (ofBits (x <<< y.toNat)) := by
  by_cases hy : w ≤ y.toNat
  · simp [shl, hy, zero_eq, BitVec.shiftLeft_eq_zero hy]
  · have h : y.toNat < 64 := by have := hw.2; omega
    have hs : BitVec.ofNat w (x.toNat <<< y.toNat) = x <<< y.toNat :=
      BitVec.eq_of_toNat_eq (by simp)
    simp [shl, hy, h, ofNat_eq hw, hs]

theorem shr_ofBits {n : Nat} (y : BitVec n) :
    (ofBits x).shr (ofBits y) = .ok (ofBits (x >>> y.toNat)) := by
  by_cases hy : w ≤ y.toNat
  · simp [shr, hy, zero_eq, BitVec.ushiftRight_eq_zero hy]
  · have h : y.toNat < 64 := by have := hw.2; omega
    have hs : BitVec.ofNat w (x.toNat >>> y.toNat) = x >>> y.toNat := by
      apply BitVec.eq_of_toNat_eq
      rw [BitVec.toNat_ofNat, BitVec.toNat_ushiftRight]
      exact Nat.mod_eq_of_lt (lt_of_le_of_lt (Nat.shiftRight_le _ _) x.isLt)
    simp [shr, hy, h, ofNat_eq hw, hs]

theorem sar_ofBits {n : Nat} (y : BitVec n) :
    (ofBits x).sar (ofBits y) = .ok (ofBits (x.sshiftRight y.toNat)) := by
  -- A shift by the width or more leaves the sign in every bit, as one by the width less one does.
  have h : x.sshiftRight (min y.toNat (w - 1)) = x.sshiftRight y.toNat := by
    have := hw.1
    apply BitVec.eq_of_getLsbD_eq
    intro i hi
    rcases Nat.lt_or_ge y.toNat w with hy | hy
    · rw [Nat.min_eq_left (by omega)]
    · rw [Nat.min_eq_right (by omega), BitVec.getLsbD_sshiftRight, BitVec.getLsbD_sshiftRight]
      by_cases h0 : i = 0
      · subst h0
        simp [BitVec.msb_eq_getLsbD_last, show ¬ y.toNat < w by omega, show w - 1 < w by omega]
      · simp [show ¬ w - 1 + i < w by omega, show ¬ y.toNat + i < w by omega]
  simp [sar, signed_ofBits hw, ofInt_eq hw, ← BitVec.sshiftRight_eq, h]

theorem slt_ofBits : (ofBits x).slt (ofBits y) = .ok (ofBits (BitVec.ofBool (x.slt y))) := by
  simp [slt, signed_ofBits hw, ofBool_eq, BitVec.slt]

theorem sle_ofBits : (ofBits x).sle (ofBits y) = .ok (ofBits (BitVec.ofBool (x.sle y))) := by
  simp [sle, signed_ofBits hw, ofBool_eq, BitVec.sle]

end

section

variable {w : Nat} (x y : BitVec w)

theorem eq_ofBits : (ofBits x).eq (ofBits y) = .ok (ofBits (BitVec.ofBool (x == y))) := by
  have h : (x.toNat == y.toNat) = (x == y) := by
    rw [Bool.eq_iff_iff, beq_iff_eq, beq_iff_eq, BitVec.toNat_inj]
  simp [eq, ofBool_eq, h]

theorem ne_ofBits : (ofBits x).ne (ofBits y) = .ok (ofBits (BitVec.ofBool (x != y))) := by
  have h : (x.toNat != y.toNat) = (x != y) := by
    rw [Bool.eq_iff_iff, bne_iff_ne, bne_iff_ne, ne_eq, ne_eq, BitVec.toNat_inj]
  simp [ne, ofBool_eq, h]

theorem ult_ofBits : (ofBits x).ult (ofBits y) = .ok (ofBits (BitVec.ofBool (x.ult y))) := by
  rw [ult, sameWidth_ofBits, ok_bind]
  exact congrArg Except.ok (ofBool_eq _)

theorem ule_ofBits : (ofBits x).ule (ofBits y) = .ok (ofBits (BitVec.ofBool (x.ule y))) := by
  rw [ule, sameWidth_ofBits, ok_bind]
  exact congrArg Except.ok (ofBool_eq _)

end

theorem extract_ofBits {w : Nat} (hw : ValidWidth w) (x : BitVec w) {offset size : Nat}
    (hs : 0 < size) (h : offset + size ≤ w) :
    (ofBits x).extract offset size = .ok (ofBits (x.extractLsb' offset size)) := by
  have := hw.2
  have hv : ValidWidth size := ⟨hs, by omega⟩
  have hr : BitVec.ofNat size (x.toNat >>> offset) = x.extractLsb' offset size :=
    BitVec.eq_of_toNat_eq (by simp)
  have ho : offset < 64 := by omega
  simp [extract, addWidths_of_lt (show offset + size < 0x100000000 by omega), h,
    ho, ofNat_eq hv, hr]

theorem zeroExtend_ofBits {w : Nat} (x : BitVec w) {width : Nat} (h : w ≤ width) :
    (ofBits x).zeroExtend width = .ok (ofBits (x.setWidth width)) := by
  have hlt : x.toNat < 2 ^ width := lt_of_lt_of_le x.isLt (Nat.pow_le_pow_right (by decide) h)
  simp [zeroExtend, h, ofBits, Nat.mod_eq_of_lt hlt]

theorem signExtend_ofBits {w : Nat} (hw : ValidWidth w) (x : BitVec w) {width : Nat}
    (h : w ≤ width) (hv : width ≤ 64) :
    (ofBits x).signExtend width = .ok (ofBits (x.signExtend width)) := by
  have hwidth : ValidWidth width := ⟨le_trans hw.1 h, hv⟩
  simp [signExtend, h, signed_ofBits hw, ofInt_eq hwidth, BitVec.signExtend]

theorem concat_ofBits {m n : Nat} (hm : ValidWidth m) (x : BitVec m) (y : BitVec n)
    (h : m + n ≤ 64) : (ofBits x).concat (ofBits y) = .ok (ofBits (x ++ y)) := by
  have := hm.1
  have hv : ValidWidth (m + n) := ⟨by omega, h⟩
  have hl : n < 64 := by omega
  have hr : BitVec.ofNat (m + n) (x.toNat <<< n + y.toNat) = x ++ y := by
    apply BitVec.eq_of_toNat_eq
    rw [BitVec.toNat_append, BitVec.toNat_ofNat, ← Nat.shiftLeft_add_eq_or_of_lt y.isLt]
    apply Nat.mod_eq_of_lt
    have hx := x.isLt
    have hy := y.isLt
    rw [Nat.shiftLeft_eq, pow_add]
    nlinarith
  simp [concat, addWidths_of_lt (show m + n < 0x100000000 by omega), h, hl,
    ofNat_eq hv, hr]

end Word

end FlowRecovery
