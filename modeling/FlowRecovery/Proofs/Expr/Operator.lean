import Mathlib
import FlowRecovery.Proofs.Word.BitVector

namespace FlowRecovery

namespace UnaryOp

/-- The widths of the operand that an operator takes. -/
def Admits : UnaryOp → Nat → Prop
  | not, _ | neg, _ => True
  | extract offset size, width => 0 < size ∧ offset + size ≤ width
  | zeroExtend target, width | signExtend target, width => width ≤ target ∧ target ≤ 64

instance : (op : UnaryOp) → (width : Nat) → Decidable (op.Admits width)
  | .not, _ | .neg, _ => inferInstanceAs (Decidable True)
  | .extract _ _, _ => inferInstanceAs (Decidable (_ ∧ _))
  | .zeroExtend _, _ | .signExtend _, _ => inferInstanceAs (Decidable (_ ∧ _))

/-- The integer of the bit vector that an operator yields. -/
def onBits {w : Nat} (x : BitVec w) : UnaryOp → Word
  | not => .ofBits (~~~x)
  | neg => .ofBits (-x)
  | extract offset size => .ofBits (x.extractLsb' offset size)
  | zeroExtend target => .ofBits (x.setWidth target)
  | signExtend target => .ofBits (x.signExtend target)

/-- The operation on bit vectors, on the bits of an integer. -/
def on (op : UnaryOp) (a : Word) : Word :=
  op.onBits a.bits

theorem on_ofBits (op : UnaryOp) {w : Nat} (x : BitVec w) : op.on (.ofBits x) = op.onBits x := by
  rw [on, Word.bits_ofBits]
  rfl

theorem width_on (op : UnaryOp) (a : Word) : (op.on a).width = op.resultWidth a.width := by
  cases op <;> rfl

theorem Admits.validWidth {op : UnaryOp} {width : Nat} (h : op.Admits width)
    (hw : Word.ValidWidth width) : Word.ValidWidth (op.resultWidth width) := by
  obtain ⟨hpos, hle⟩ := hw
  cases op with
  | not => exact ⟨hpos, hle⟩
  | neg => exact ⟨hpos, hle⟩
  | extract offset size => exact ⟨h.1, le_trans (le_trans (Nat.le_add_left _ _) h.2) hle⟩
  | zeroExtend target => exact ⟨le_trans hpos h.1, h.2⟩
  | signExtend target => exact ⟨le_trans hpos h.1, h.2⟩

theorem apply_ofBits {op : UnaryOp} {w : Nat} (hw : Word.ValidWidth w) (h : op.Admits w)
    (x : BitVec w) :
    op.apply (.ofBits x) = .ok (op.onBits x) := by
  cases op with
  | not => exact Word.not_ofBits hw x
  | neg => exact Word.neg_ofBits hw x
  | extract offset size => exact Word.extract_ofBits hw x h.1 h.2
  | zeroExtend target => exact Word.zeroExtend_ofBits x h.1
  | signExtend target => exact Word.signExtend_ofBits hw x h.1 h.2

theorem apply_eq_on {op : UnaryOp} {a : Word} (ha : a.Canonical) (h : op.Admits a.width) :
    op.apply a = .ok (op.on a) := by
  have happly := apply_ofBits ha.1 h a.bits
  rwa [ha.ofBits_bits] at happly

theorem canonical_on {op : UnaryOp} {a : Word} (ha : a.Canonical) (h : op.Admits a.width) :
    (op.on a).Canonical := by
  have hw := h.validWidth ha.1
  cases op <;> exact Word.canonical_ofBits hw _

end UnaryOp

namespace BinaryOp

/-- The widths of the operands that an operator takes. -/
def Admits : BinaryOp → Nat → Nat → Prop
  | concat, left, right => left + right ≤ 64
  | _, left, right => left = right

instance : (op : BinaryOp) → (left right : Nat) → Decidable (op.Admits left right)
  | .concat, left, right => inferInstanceAs (Decidable (left + right ≤ 64))
  | .add, left, right | .sub, left, right | .mul, left, right | .udiv, left, right
  | .urem, left, right | .and, left, right | .or, left, right | .xor, left, right
  | .shl, left, right | .shr, left, right | .sar, left, right | .eq, left, right
  | .ne, left, right | .ult, left, right | .ule, left, right | .slt, left, right
  | .sle, left, right => inferInstanceAs (Decidable (left = right))

theorem admits_of_isComparison {op : BinaryOp} (h : op.isComparison) (left right : Nat) :
    op.Admits left right ↔ left = right := by
  cases op with
  | concat => simp [isComparison] at h
  | _ => exact Iff.rfl

def resultWidth : BinaryOp → Nat → Nat → Nat
  | concat, left, right => left + right
  | eq, _, _ | ne, _, _ | ult, _, _ | ule, _, _ | slt, _, _ | sle, _, _ => 1
  | _, left, _ => left

/-- The integer of the bit vector that an operator yields. But for a concatenation the second bit
vector is as wide as the first. -/
def onBits {m n : Nat} (x : BitVec m) (y : BitVec n) : BinaryOp → Word
  | add => .ofBits (x + y.setWidth m)
  | sub => .ofBits (x - y.setWidth m)
  | mul => .ofBits (x * y.setWidth m)
  | udiv => .ofBits (x.smtUDiv (y.setWidth m))
  | urem => .ofBits (x % y.setWidth m)
  | and => .ofBits (x &&& y.setWidth m)
  | or => .ofBits (x ||| y.setWidth m)
  | xor => .ofBits (x ^^^ y.setWidth m)
  | shl => .ofBits (x <<< y.toNat)
  | shr => .ofBits (x >>> y.toNat)
  | sar => .ofBits (x.sshiftRight y.toNat)
  | concat => .ofBits (x ++ y)
  | eq => .ofBits (BitVec.ofBool (x == y.setWidth m))
  | ne => .ofBits (BitVec.ofBool (x != y.setWidth m))
  | ult => .ofBits (BitVec.ofBool (x.ult (y.setWidth m)))
  | ule => .ofBits (BitVec.ofBool (x.ule (y.setWidth m)))
  | slt => .ofBits (BitVec.ofBool (x.slt (y.setWidth m)))
  | sle => .ofBits (BitVec.ofBool (x.sle (y.setWidth m)))

/-- The operation on bit vectors, on the bits of two integers. -/
def on (op : BinaryOp) (a b : Word) : Word :=
  op.onBits a.bits b.bits

theorem on_ofBits (op : BinaryOp) {m n : Nat} (x : BitVec m) (y : BitVec n) :
    op.on (.ofBits x) (.ofBits y) = op.onBits x y := by
  rw [on, Word.bits_ofBits, Word.bits_ofBits]
  rfl

theorem width_on (op : BinaryOp) (a b : Word) :
    (op.on a b).width = op.resultWidth a.width b.width := by
  cases op <;> rfl

theorem Admits.validWidth {op : BinaryOp} {left right : Nat} (h : op.Admits left right)
    (hl : Word.ValidWidth left) : Word.ValidWidth (op.resultWidth left right) := by
  cases op with
  | concat => exact ⟨le_trans hl.1 (Nat.le_add_right _ _), h⟩
  | eq | ne | ult | ule | slt | sle => exact (by decide : Word.ValidWidth 1)
  | _ => exact hl

theorem apply_ofBits {op : BinaryOp} {m n : Nat} (hm : Word.ValidWidth m) (h : op.Admits m n)
    (x : BitVec m) (y : BitVec n) : op.apply (.ofBits x) (.ofBits y) = .ok (op.onBits x y) := by
  by_cases hop : op = .concat
  · subst hop
    exact Word.concat_ofBits hm x y h
  · have hmn : m = n := by
      cases op with
      | concat => exact absurd rfl hop
      | _ => exact h
    subst hmn
    cases op with
    | concat => exact absurd rfl hop
    | add => simpa [apply, onBits] using Word.add_ofBits hm x y
    | sub => simpa [apply, onBits] using Word.sub_ofBits hm x y
    | mul => simpa [apply, onBits] using Word.mul_ofBits hm x y
    | udiv => simpa [apply, onBits] using Word.udiv_ofBits hm x y
    | urem => simpa [apply, onBits] using Word.urem_ofBits hm x y
    | and => simpa [apply, onBits] using Word.and_ofBits hm x y
    | or => simpa [apply, onBits] using Word.or_ofBits hm x y
    | xor => simpa [apply, onBits] using Word.xor_ofBits hm x y
    | shl => exact Word.shl_ofBits hm x y
    | shr => exact Word.shr_ofBits hm x y
    | sar => exact Word.sar_ofBits hm x y
    | eq => simpa [apply, onBits] using Word.eq_ofBits x y
    | ne => simpa [apply, onBits] using Word.ne_ofBits x y
    | ult => simpa [apply, onBits] using Word.ult_ofBits x y
    | ule => simpa [apply, onBits] using Word.ule_ofBits x y
    | slt => simpa [apply, onBits] using Word.slt_ofBits hm x y
    | sle => simpa [apply, onBits] using Word.sle_ofBits hm x y

theorem apply_eq_on {op : BinaryOp} {a b : Word} (ha : a.Canonical) (hb : b.Canonical)
    (h : op.Admits a.width b.width) : op.apply a b = .ok (op.on a b) := by
  have happly := apply_ofBits ha.1 h a.bits b.bits
  rwa [ha.ofBits_bits, hb.ofBits_bits] at happly

theorem canonical_on {op : BinaryOp} {a b : Word} (ha : a.Canonical)
    (h : op.Admits a.width b.width) :
    (op.on a b).Canonical := by
  have hw := h.validWidth ha.1
  cases op <;> exact Word.canonical_ofBits hw _

end BinaryOp

end FlowRecovery
