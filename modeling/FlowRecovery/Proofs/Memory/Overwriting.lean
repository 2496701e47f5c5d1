import Mathlib
import FlowRecovery.Proofs.Memory.Constant

namespace FlowRecovery

namespace ByteOrder

variable {start : UInt64} {count j k : Nat}

theorem place_inj (order : ByteOrder) (hcount : count ≤ 8) (hj : j < count) (hk : k < count)
    (h : order.place start count j = order.place start count k) : j = k := by
  have hoffset {i i' : Nat} (hi : i < 8) (hi' : i' < 8)
      (h : start + UInt64.ofNat i = start + UInt64.ofNat i') :
      i = i' := by
    have heq := congrArg UInt64.toNat ((UInt64.add_right_inj _).mp h)
    rw [UInt64.toNat_ofNat', UInt64.toNat_ofNat'] at heq
    omega
  cases order with
  | little => exact hoffset (by omega) (by omega) h
  | big =>
      have heq := hoffset (by omega) (by omega) h
      omega

theorem exists_place (order : ByteOrder) (hk : k < count) :
    ∃ j < count, order.place start count k = start + UInt64.ofNat j := by
  cases order with
  | little => exact ⟨k, hk, rfl⟩
  | big => exact ⟨count - 1 - k, by omega, rfl⟩

end ByteOrder

theorem Register.Fits.validWidth {r : Register} {widths : String → Nat} (hr : r.Fits widths) :
    Word.ValidWidth r.baseSize := by
  have hpos := hr.size_pos
  have hinside := hr.inside
  exact ⟨by omega, hr.baseSize_le⟩

namespace Memory

variable {m m' : Memory} {name other : String} {address : UInt64} {order : ByteOrder}

section Bytes

theorem byte?_writeByte (m : Memory) (address a : UInt64) (byte : UInt8) :
    (m.writeByte address byte).byte? a = if address = a then some byte else m.byte? a := by
  simp only [byte?, layers, writeByte, List.findSome?_cons, Std.ExtTreeMap.getElem?_insert,
    Std.LawfulEqCmp.compare_eq_iff_eq]
  by_cases h : address = a
  · rw [if_pos h, if_pos h]
  · rw [if_neg h, if_neg h]

@[simp] theorem physical?_writeByte (m : Memory) (address : UInt64) (byte : UInt8) :
    (m.writeByte address byte).physical? name = m.physical? name :=
  rfl

variable {place : Nat → UInt64} {byte : Nat → UInt8} {count : Nat}

/-- The memory after bytes were written one after the other. -/
def writeAll (m : Memory) (place : Nat → UInt64) (byte : Nat → UInt8) (count : Nat) : Memory :=
  (List.range count).foldl (fun m k => m.writeByte (place k) (byte k)) m

theorem writeAll_succ : m.writeAll place byte (count + 1) =
    (m.writeAll place byte count).writeByte (place count) (byte count) := by
  rw [writeAll, List.range_succ, List.foldl_append]
  rfl

theorem physical?_writeAll : (m.writeAll place byte count).physical? name = m.physical? name := by
  induction count with
  | zero => rfl
  | succ count ih => rw [writeAll_succ, physical?_writeByte, ih]

theorem byte?_writeAll_of_ne {a : UInt64} (h : ∀ k < count, place k ≠ a) :
    (m.writeAll place byte count).byte? a = m.byte? a := by
  induction count with
  | zero => rfl
  | succ count ih =>
      rw [writeAll_succ, byte?_writeByte, if_neg (h count (Nat.lt_succ_self count))]
      exact ih fun k hk => h k (Nat.lt_succ_of_lt hk)

theorem byte?_writeAll (hinj : ∀ j < count, ∀ k < count, place j = place k → j = k) {k : Nat}
    (hk : k < count) :
    (m.writeAll place byte count).byte? (place k) = some (byte k) := by
  induction count with
  | zero => omega
  | succ count ih =>
      rw [writeAll_succ, byte?_writeByte]
      split
      case isTrue heq => rw [hinj count (Nat.lt_succ_self count) k hk heq]
      case isFalse hne =>
        refine ih (fun i hi j hj => hinj i (by omega) j (by omega))
          (lt_of_le_of_ne (Nat.le_of_lt_succ hk) ?_)
        rintro rfl
        exact hne rfl

theorem isSome_byte?_writeAll {a : UInt64} (h : (m.byte? a).isSome) :
    ((m.writeAll place byte count).byte? a).isSome := by
  induction count with
  | zero => exact h
  | succ count ih =>
      rw [writeAll_succ, byte?_writeByte]
      split
      · rfl
      · exact ih

theorem readFrom_of_bytes {value : Nat}
    (h : ∀ k < count, m.byte? (place k) = some (UInt8.ofNat (value >>> (8 * k)))) :
    m.readFrom place count (value >>> (8 * count)) = .ok value := by
  induction count with
  | zero => rfl
  | succ count ih =>
      have hbyte : 256 * (value >>> (8 * (count + 1))) +
          (UInt8.ofNat (value >>> (8 * count))).toNat =
          value >>> (8 * count) := by
        rw [Nat.mul_add, Nat.shiftRight_add, UInt8.toNat_ofNat',
          Nat.shiftRight_eq_div_pow _ (8 * 1)]
        omega
      rw [readFrom, h count (Nat.lt_succ_self count)]
      dsimp only
      rw [hbyte]
      exact ih fun k hk => h k (Nat.lt_succ_of_lt hk)

theorem readFrom_congr {value : Nat} (h : ∀ k < count, m'.byte? (place k) = m.byte? (place k)) :
    m'.readFrom place count value = m.readFrom place count value := by
  induction count generalizing value with
  | zero => rfl
  | succ count ih =>
      rw [readFrom, readFrom, h count (Nat.lt_succ_self count)]
      cases m.byte? (place count) with
      | none => rfl
      | some byte => exact ih fun k hk => h k (Nat.lt_succ_of_lt hk)

theorem exists_readFrom {value value' x : Nat}
    (hdefined : ∀ {a}, (m.byte? a).isSome → (m'.byte? a).isSome)
    (h : m.readFrom place count value = .ok x) : ∃ y, m'.readFrom place count value' = .ok y := by
  induction count generalizing value value' with
  | zero => exact ⟨value', rfl⟩
  | succ count ih =>
      rw [readFrom] at h
      cases hbyte : m.byte? (place count) with
      | none =>
          rw [hbyte] at h
          cases h
      | some byte =>
          rw [hbyte] at h
          obtain ⟨byte', hbyte'⟩ := Option.isSome_iff_exists.mp (hdefined (by rw [hbyte]; rfl))
          rw [readFrom, hbyte']
          exact ih h

variable {w : Nat}

theorem exists_read (hdefined : ∀ {a}, (m.byte? a).isSome → (m'.byte? a).isSome) {x : Word}
    (h : m.read address w order = .ok x) : ∃ y, m'.read address w order = .ok y := by
  obtain ⟨count, hcount, h⟩ := exists_of_bind_eq_ok h
  obtain ⟨value, hvalue, h⟩ := exists_of_bind_eq_ok h
  obtain ⟨value', hvalue'⟩ : ∃ y, m'.readFrom (order.place address count) count 0 = .ok y :=
    exists_readFrom hdefined hvalue
  obtain ⟨_, hvalid, -⟩ := exists_of_bind_eq_ok (of_liftM_eq_ok h)
  rw [read, hcount, ok_bind, hvalue', ok_bind, Word.ofNat_eq (of_require_eq_ok hvalid)]
  exact ⟨_, rfl⟩

theorem isSome_byte?_write {x : Word} (h : m.write address x order = .ok m') {a : UInt64}
    (ha : (m.byte? a).isSome) :
    (m'.byte? a).isSome := by
  obtain ⟨count, -, h⟩ := exists_of_bind_eq_ok h
  cases h
  exact isSome_byte?_writeAll ha

theorem read_congr
    (h : ∀ k < w / 8, m'.byte? (address + UInt64.ofNat k) = m.byte? (address + UInt64.ofNat k)) :
    m'.read address w order = m.read address w order := by
  rw [read, read]
  cases hcount : byteCount w with
  | error fault => rfl
  | ok count =>
      obtain ⟨_, -, hquotient⟩ := exists_of_bind_eq_ok hcount
      cases hquotient
      have hsame : m'.readFrom (order.place address (w / 8)) (w / 8) 0 =
          m.readFrom (order.place address (w / 8)) (w / 8) 0 := by
        refine readFrom_congr fun k hk => ?_
        obtain ⟨j, hj, heq⟩ := order.exists_place hk
        rw [heq, h j hj]
      rw [liftM_ok, ok_bind, ok_bind, hsame]

theorem exists_bits_of_ofNat {n : Nat} {x : Word} (h : Word.ofNat w n = .ok x) :
    ∃ y : BitVec w, x = .ofBits y := by
  obtain ⟨_, hvalid, -⟩ := exists_of_bind_eq_ok h
  rw [Word.ofNat_eq (of_require_eq_ok hvalid)] at h
  cases h
  exact ⟨_, rfl⟩

theorem exists_bits_of_read {x : Word} (h : m.read address w order = .ok x) :
    ∃ y : BitVec w, x = .ofBits y := by
  obtain ⟨count, -, h⟩ := exists_of_bind_eq_ok h
  obtain ⟨value, -, h⟩ := exists_of_bind_eq_ok h
  exact exists_bits_of_ofNat (of_liftM_eq_ok h)

end Bytes

section Registers

theorem physical?_setPhysical (m : Memory) (name other : String) (x : Word) :
    (m.setPhysical name x).physical? other = if name = other then some x
      else m.physical? other := by
  simp only [physical?, layers, setPhysical, List.findSome?_cons, Std.ExtTreeMap.getElem?_insert,
    Std.LawfulEqCmp.compare_eq_iff_eq]
  by_cases h : name = other
  · rw [if_pos h, if_pos h]
  · rw [if_neg h, if_neg h]

@[simp] theorem byte?_setPhysical (m : Memory) (name : String) (x : Word) (a : UInt64) :
    (m.setPhysical name x).byte? a = m.byte? a :=
  rfl

variable {r : Register} {widths : String → Nat}

theorem readRegister_congr (h : m'.physical? r.base = m.physical? r.base) :
    m'.readRegister r = m.readRegister r := by
  rw [readRegister, readRegister, h]

theorem readRegister_setPhysical_of_ne {x : Word} (h : name ≠ r.base) :
    (m.setPhysical name x).readRegister r = m.readRegister r := by
  apply readRegister_congr
  rw [physical?_setPhysical, if_neg h]

theorem readRegister_of_physical? (hr : r.Fits widths) {x : BitVec r.baseSize}
    (h : m.physical? r.base = some (.ofBits x)) :
    m.readRegister r = .ok (.ofBits (x.extractLsb' r.offset r.size)) := by
  have hvalid : Word.ValidWidth r.baseSize := hr.validWidth
  rw [readRegister, h]
  dsimp only
  rw [Word.extract_ofBits hvalid x hr.size_pos hr.inside]
  rfl

theorem exists_bits_of_readRegister {x : Word} (h : m.readRegister r = .ok x) :
    ∃ y : BitVec r.size, x = .ofBits y := by
  rw [readRegister] at h
  cases hwhole : m.physical? r.base with
  | none =>
      rw [hwhole] at h
      cases h
  | some whole =>
      rw [hwhole] at h
      obtain ⟨_, -, h⟩ := exists_of_bind_eq_ok (of_liftM_eq_ok h)
      obtain ⟨_, -, h⟩ := exists_of_bind_eq_ok h
      obtain ⟨_, -, h⟩ := exists_of_bind_eq_ok h
      exact exists_bits_of_ofNat h

/-- All stored registers are canonical integers of given widths. -/
def Stores (widths : String → Nat) (m : Memory) : Prop :=
  ∀ {name : String} {x : Word}, m.physical? name = some x → x.Canonical ∧ x.width = widths name

def bit? (m : Memory) (name : String) (k : Nat) : Option Bool :=
  (m.physical? name).map fun x => x.value.testBit k

theorem exists_physical?_of_readRegister (hm : m.Stores widths) (hr : r.Fits widths) {x : Word}
    (h : m.readRegister r = .ok x) :
    ∃ whole : BitVec r.baseSize, m.physical? r.base = some (.ofBits whole) := by
  rw [readRegister] at h
  cases hwhole : m.physical? r.base with
  | none =>
      rw [hwhole] at h
      cases h
  | some whole =>
      obtain ⟨hcanonical, hwidth⟩ := hm hwhole
      rw [hr.baseSize, ← hwidth]
      exact ⟨whole.bits, by rw [hcanonical.ofBits_bits]⟩

theorem testBit_splice {offset size : Nat} (old : Nat) {x : Nat} (hx : x < 2 ^ size) (k : Nat) :
    ((old ^^^ (old &&& ((2 ^ size - 1) <<< offset))) ||| (x <<< offset)).testBit k =
      if offset ≤ k ∧ k < offset + size then x.testBit (k - offset) else old.testBit k := by
  simp only [Nat.testBit_or, Nat.testBit_xor, Nat.testBit_and, Nat.testBit_shiftLeft,
    Nat.testBit_two_pow_sub_one]
  rcases Nat.lt_or_ge k offset with hlow | hlow
  · simp [show ¬ offset ≤ k by omega]
  · rcases Nat.lt_or_ge k (offset + size) with hin | hin
    · simp [hlow, hin, show k - offset < size by omega]
    · have hzero : x.testBit (k - offset) = false :=
        Nat.testBit_lt_two_pow (hx.trans_le (Nat.pow_le_pow_right (by decide) (by omega)))
      simp [hlow, hzero, show ¬ k < offset + size by omega, show ¬ k - offset < size by omega]

theorem exists_writeRegister (hr : r.Fits widths) {old : BitVec r.baseSize}
    (h : m.physical? r.base = some (.ofBits old)) (x : BitVec r.size) :
    ∃ new : BitVec r.baseSize, m.writeRegister r (.ofBits x) =
      .ok (m.setPhysical r.base (.ofBits new)) ∧
      new.extractLsb' r.offset r.size = x ∧
      ∀ k, k < r.offset ∨ r.offset + r.size ≤ k → new.getLsbD k = old.getLsbD k := by
  have hinside := hr.inside
  have hle := hr.baseSize_le
  have hpos := hr.size_pos
  have hsize : Word.ValidWidth r.size := ⟨hpos, by omega⟩
  let new : BitVec r.baseSize := BitVec.ofNat r.baseSize
    ((old.toNat ^^^ (old.toNat &&& ((2 ^ r.size - 1) <<< r.offset))) ||| (x.toNat <<< r.offset))
  have hbit (k : Nat) (hk : k < r.baseSize) : new.getLsbD k =
      if r.offset ≤ k ∧ k < r.offset + r.size then x.getLsbD (k - r.offset)
        else old.getLsbD k := by
    rw [BitVec.getLsbD_ofNat, testBit_splice old.toNat x.isLt, BitVec.testBit_toNat,
      BitVec.testBit_toNat]
    simp [hk]
  refine ⟨new, ?_, ?_, ?_⟩
  · rw [writeRegister_eq, merge]
    simp only [Word.ofBits_width, require_true, liftM_ok, ok_bind, h]
    split
    case isTrue hphysical =>
      obtain ⟨hoffset, hwhole⟩ : r.offset = 0 ∧ r.size = r.baseSize := by
        simpa [Register.isPhysical] using hphysical
      have hnew : Word.ofBits x = .ofBits new := by
        have hvalue : x.toNat = new.toNat := by
          refine Nat.eq_of_testBit_eq fun k => ?_
          rw [BitVec.testBit_toNat, BitVec.testBit_toNat]
          rcases Nat.lt_or_ge k r.baseSize with hlt | hge
          · rw [hbit k hlt, if_pos ⟨by omega, by omega⟩, hoffset, Nat.sub_zero]
          · rw [BitVec.getLsbD_of_ge _ _ (hwhole ▸ hge), BitVec.getLsbD_of_ge _ _ hge]
        rw [Word.ofBits, Word.ofBits, hvalue, hwhole]
      rw [hnew]
      rfl
    case isFalse =>
      have hsplice : spliceWindow r (.ofBits old) (.ofBits x) = .ok (.ofBits new) := by
        rw [spliceWindow, Word.ones_eq hsize, ok_bind, Word.ofNat_eq hr.validWidth]
        simp only [show r.offset < 64 by omega, require_true, ok_bind, Word.ofBits_value,
          BitVec.toNat_allOnes, new]
      rw [hsplice]
      rfl
  · ext k hk
    rw [BitVec.getElem_extractLsb', hbit _ (by omega), if_pos ⟨by omega, by omega⟩,
      Nat.add_sub_cancel_left, BitVec.getLsbD_eq_getElem hk]
  · intro k hk
    rcases Nat.lt_or_ge k r.baseSize with hlt | hge
    · rw [hbit k hlt, if_neg (by omega)]
    · rw [BitVec.getLsbD_of_ge _ _ hge, BitVec.getLsbD_of_ge _ _ hge]

theorem readRegister_physical {w : Nat} (hw : Word.ValidWidth w) {x : BitVec w}
    (h : m.physical? name = some (.ofBits x)) :
    m.readRegister (.physical name w) = .ok (.ofBits x) := by
  have hfits : (Register.physical name w).Fits fun _ => w :=
    ⟨rfl, hw.1, (Nat.zero_add w).le, hw.2⟩
  rw [readRegister_of_physical? (x := x) hfits h]
  exact congrArg (fun x => Except.ok (Word.ofBits x)) BitVec.extractLsb'_eq_self

theorem writeRegister_physical (m : Memory) (name : String) {w : Nat} (x : BitVec w) :
    m.writeRegister (.physical name w) (.ofBits x) = .ok (m.setPhysical name (.ofBits x)) := by
  simp [writeRegister_eq, merge, Register.physical, Register.isPhysical, Except.map]

end Registers

end Memory

end FlowRecovery
