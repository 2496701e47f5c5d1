import Mathlib
import FlowRecovery.Proofs.Memory.Overwriting

/-!
Reads after writes to layered memory. A read is described byte by byte, whatever the byte order:
it succeeds when all of its bytes are defined, and otherwise reports the first undefined one from
the most significant byte on. A write puts a value in front of what the layers hold. So a read
after a write finds the bytes of the value where the two meet, and elsewhere what the topmost
layer held before.
-/

namespace FlowRecovery

namespace ByteOrder

variable {start : UInt64} {count j k : Nat}

/-- The number of bytes of a value that are less significant than the one at a distance from its
address. -/
def rank (order : ByteOrder) (count distance : Nat) : Nat :=
  if order = .little then distance else count - 1 - distance

theorem rank_lt (order : ByteOrder) (hj : j < count) : order.rank count j < count := by
  rw [rank]
  split <;> omega

theorem rank_rank (order : ByteOrder) (hj : j < count) :
    order.rank count (order.rank count j) = j := by
  simp only [rank]
  split
  · rfl
  · omega

theorem place_eq (order : ByteOrder) (start : UInt64) (count k : Nat) :
    order.place start count k = start + UInt64.ofNat (order.rank count k) := by
  cases order <;> rfl

theorem place_rank (order : ByteOrder) (start : UInt64) (hj : j < count) :
    order.place start count (order.rank count j) = start + UInt64.ofNat j := by
  rw [place_eq, rank_rank order hj]

/-- The byte of a value that is found at an address when the value is stored from another address
on. -/
def stored? {w : Nat} (order : ByteOrder) (start : UInt64) (x : BitVec w) (address : UInt64) :
    Option UInt8 :=
  let distance := (address - start).toNat
  if distance < w / 8 then
    some (UInt8.ofBitVec (x.extractLsb' (8 * order.rank (w / 8) distance) 8)) else none

end ByteOrder

namespace Memory

variable {m m' : Memory} {address : UInt64} {order : ByteOrder} {w : Nat}

section Reads

variable {place : Nat → UInt64} {count value : Nat}

theorem bytes_of_readFrom {y : Nat} (h : m.readFrom place count value = .ok y) :
    y >>> (8 * count) = value ∧
      ∀ k < count, m.byte? (place k) = some (UInt8.ofNat (y >>> (8 * k))) := by
  induction count generalizing value with
  | zero =>
      cases h
      exact ⟨rfl, by omega⟩
  | succ count ih =>
      rw [readFrom] at h
      cases hbyte : m.byte? (place count) with
      | none =>
          rw [hbyte] at h
          cases h
      | some byte =>
          rw [hbyte] at h
          obtain ⟨hhigh, hlow⟩ := ih h
          have hlt : byte.toNat < 256 := byte.toNat_lt
          constructor
          · rw [Nat.mul_add, Nat.shiftRight_add, hhigh, Nat.shiftRight_eq_div_pow]
            omega
          · intro k hk
            rcases Nat.lt_succ_iff_lt_or_eq.mp hk with hk | rfl
            · exact hlow k hk
            · rw [hbyte, hhigh, Option.some_inj, ← UInt8.toNat_inj, UInt8.toNat_ofNat']
              omega

theorem readFrom_cases (m : Memory) (place : Nat → UInt64) (count value : Nat) :
    (∃ y, m.readFrom place count value = .ok y) ∨
      ∃ k < count, m.byte? (place k) = none ∧ (∀ i < count, k < i → (m.byte? (place i)).isSome) ∧
        m.readFrom place count value = .fail (.address (place k)) := by
  induction count generalizing value with
  | zero => exact .inl ⟨value, rfl⟩
  | succ count ih =>
      rw [readFrom]
      cases hbyte : m.byte? (place count) with
      | none => exact .inr ⟨count, Nat.lt_succ_self count, hbyte, fun i hi hlt => by omega, rfl⟩
      | some byte =>
          rcases ih (256 * value + byte.toNat) with hok | ⟨k, hk, hnone, hdefined, hfail⟩
          · exact .inl hok
          · refine .inr ⟨k, by omega, hnone, fun i hi hlt => ?_, hfail⟩
            rcases Nat.lt_succ_iff_lt_or_eq.mp hi with hi | rfl
            · exact hdefined i hi hlt
            · rw [hbyte]
              rfl

theorem exists_bytes (hw : Word.ValidWidth w) (hbytes : w % 8 = 0) :
    ∃ n, w = 8 * (n + 1) ∧ n + 1 ≤ 8 := by
  have hpos := hw.1
  have hle := hw.2
  exact ⟨w / 8 - 1, by omega, by omega⟩

theorem read_eq (hw : Word.ValidWidth w) (hbytes : w % 8 = 0) (m : Memory) (address : UInt64)
    (order : ByteOrder) :
    m.read address w order = do
      let value ← m.readFrom (order.place address (w / 8)) (w / 8) 0
      return .ofBits (BitVec.ofNat w value) := by
  obtain ⟨n, rfl, -⟩ := exists_bytes hw hbytes
  rw [read, byteCount_eq, liftM_ok, ok_bind, Nat.mul_div_cancel_left _ (by decide)]
  simp only [Word.ofNat_eq hw, liftM_ok]
  rfl

theorem read_eq_ok_iff (hw : Word.ValidWidth w) (hbytes : w % 8 = 0) {y : BitVec w} :
    m.read address w order = .ok (.ofBits y) ↔ ∀ j < w / 8, m.byte? (address + UInt64.ofNat j) =
      some (UInt8.ofBitVec (y.extractLsb' (8 * order.rank (w / 8) j) 8)) := by
  have hwidth : 8 * (w / 8) = w := by omega
  rw [read_eq hw hbytes]
  constructor
  · intro h j hj
    obtain ⟨value, hvalue, h⟩ := exists_of_bind_eq_ok h
    obtain ⟨hhigh, hlow⟩ := bytes_of_readFrom hvalue
    obtain rfl := Word.ofBits_inj.mp (Except.ok.inj h)
    have hsmall : value < 2 ^ w := by
      rw [hwidth, Nat.shiftRight_eq_div_pow] at hhigh
      exact (Nat.div_eq_zero_iff_lt (Nat.two_pow_pos w)).mp hhigh
    have hbyte := hlow _ (order.rank_lt hj)
    rw [order.place_rank address hj] at hbyte
    rw [hbyte, BitVec.extractLsb', BitVec.toNat_ofNat, Nat.mod_eq_of_lt hsmall]
    rfl
  · intro h
    have hread : m.readFrom (order.place address (w / 8)) (w / 8) (y.toNat >>> (8 * (w / 8))) =
        .ok y.toNat := by
      apply readFrom_of_bytes
      intro k hk
      rw [order.place_eq, h _ (order.rank_lt hk), order.rank_rank hk]
      rfl
    rw [hwidth, Nat.shiftRight_eq_div_pow, Nat.div_eq_of_lt y.isLt] at hread
    rw [hread, ok_bind, BitVec.ofNat_toNat, BitVec.setWidth_eq]
    rfl

theorem read_cases (hw : Word.ValidWidth w) (hbytes : w % 8 = 0) (m : Memory) (address : UInt64)
    (order : ByteOrder) :
    (∃ y : BitVec w, m.read address w order = .ok (.ofBits y)) ∨
      ∃ j < w / 8, m.byte? (address + UInt64.ofNat j) = none ∧
        (∀ i < w / 8, order.rank (w / 8) j < order.rank (w / 8) i →
          (m.byte? (address + UInt64.ofNat i)).isSome) ∧
        m.read address w order = .fail (.address (address + UInt64.ofNat j)) := by
  rw [read_eq hw hbytes]
  rcases m.readFrom_cases (order.place address (w / 8)) (w / 8) 0 with
    ⟨value, hvalue⟩ | ⟨k, hk, hnone, hdefined, hfail⟩
  · rw [hvalue]
    exact .inl ⟨_, rfl⟩
  · rw [order.place_eq] at hnone hfail
    refine .inr ⟨order.rank (w / 8) k, order.rank_lt hk, hnone, fun i hi hlt => ?_,
      by rw [hfail]; rfl⟩
    rw [order.rank_rank hk] at hlt
    rw [← order.place_rank address hi]
    exact hdefined _ (order.rank_lt hi) hlt

theorem exists_read_iff (hw : Word.ValidWidth w) (hbytes : w % 8 = 0) :
    (∃ x, m.read address w order = .ok x) ↔
      ∀ j < w / 8, (m.byte? (address + UInt64.ofNat j)).isSome := by
  constructor
  · rintro ⟨x, hx⟩ j hj
    obtain ⟨y, rfl⟩ := exists_bits_of_read hx
    rw [(read_eq_ok_iff hw hbytes).mp hx j hj]
    rfl
  · intro hdefined
    rcases read_cases hw hbytes m address order with ⟨y, hy⟩ | ⟨j, hj, hnone, -⟩
    · exact ⟨_, hy⟩
    · have hsome := hdefined j hj
      rw [hnone] at hsome
      cases hsome

end Reads

section Writes

variable {x : BitVec w}

theorem write_eq (hw : Word.ValidWidth w) (hbytes : w % 8 = 0) (m : Memory) (address : UInt64)
    (x : BitVec w) (order : ByteOrder) :
    m.write address (.ofBits x) order =
      .ok (m.writeAll (order.place address (w / 8))
        (fun k => UInt8.ofBitVec (x.extractLsb' (8 * k) 8)) (w / 8)) := by
  obtain ⟨n, rfl, -⟩ := exists_bytes hw hbytes
  rw [write, Word.ofBits_width, byteCount_eq, ok_bind, Nat.mul_div_cancel_left _ (by decide)]
  rfl

theorem layers_writeAll (m : Memory) (place : Nat → UInt64) (byte : Nat → UInt8) (count : Nat) :
    (m.writeAll place byte count).below = m.below ∧
      (m.writeAll place byte count).top.registers = m.top.registers := by
  induction count with
  | zero => exact ⟨rfl, rfl⟩
  | succ count ih =>
      rw [writeAll_succ]
      exact ih

theorem byte?_write (hw : Word.ValidWidth w) (hbytes : w % 8 = 0)
    (h : m.write address (.ofBits x) order = .ok m') (a : UInt64) :
    m'.byte? a = (order.stored? address x a).or (m.byte? a) := by
  rw [write_eq hw hbytes] at h
  cases h
  have hle : w / 8 ≤ 8 := by have := hw.2; omega
  have ha : a = address + UInt64.ofNat (a - address).toNat := by
    rw [UInt64.ofNat_toNat, add_sub_cancel]
  simp only [ByteOrder.stored?]
  split
  case isTrue hin =>
    rw [← order.place_rank address hin] at ha
    rw [Option.some_or]
    conv_lhs => rw [ha]
    exact byte?_writeAll (fun i hi j hj => order.place_inj hle hi hj) (order.rank_lt hin)
  case isFalse hout =>
    rw [Option.none_or]
    apply byte?_writeAll_of_ne
    rintro k hk rfl
    apply hout
    rw [order.place_eq, add_sub_cancel_left, UInt64.toNat_ofNat']
    have hrank := order.rank_lt hk
    omega

end Writes

/-- The topmost of the layers that hold an address holds a byte there. -/
def Topmost (m : Memory) (a : UInt64) (byte : UInt8) : Prop :=
  ∃ above layer below, m.layers = above ++ layer :: below ∧ (∀ l ∈ above, l.bytes[a]? = none) ∧
    layer.bytes[a]? = some byte

theorem byte?_eq_some_iff {a : UInt64} {byte : UInt8} :
    m.byte? a = some byte ↔ m.Topmost a byte := by
  rw [byte?, List.findSome?_eq_some_iff, Topmost]
  constructor
  · rintro ⟨above, layer, below, hlayers, hbyte, habove⟩
    exact ⟨above, layer, below, hlayers, habove, hbyte⟩
  · rintro ⟨above, layer, below, hlayers, habove, hbyte⟩
    exact ⟨above, layer, below, hlayers, hbyte, habove⟩

theorem isSome_byte?_iff {a : UInt64} :
    (m.byte? a).isSome ↔ ∃ layer ∈ m.layers, a ∈ layer.bytes := by
  rw [byte?, List.findSome?_isSome_iff]
  simp only [Std.ExtTreeMap.mem_iff_isSome_getElem?]

section ReadOverWrite

variable {a : UInt64} {x : BitVec w}

theorem stored?_eq_some (hw : Word.ValidWidth w) {k : Nat} (hk : k < w / 8) :
    order.stored? a x (a + UInt64.ofNat k) =
      some (UInt8.ofBitVec (x.extractLsb' (8 * order.rank (w / 8) k) 8)) := by
  have hdistance : (a + UInt64.ofNat k - a).toNat = k := by
    have hle := hw.2
    rw [add_sub_cancel_left, UInt64.toNat_ofNat']
    omega
  simp only [ByteOrder.stored?, hdistance, if_pos hk]

theorem stored?_eq_none {c : UInt64} (h : ∀ k < w / 8, c ≠ a + UInt64.ofNat k) :
    order.stored? a x c = none := by
  simp only [ByteOrder.stored?]
  rw [if_neg]
  intro hin
  apply h _ hin
  rw [UInt64.ofNat_toNat, add_sub_cancel]

theorem read_write (hw : Word.ValidWidth w) (hbytes : w % 8 = 0)
    (h : m.write a (.ofBits x) order = .ok m') :
    m'.read a w order = .ok (.ofBits x) := by
  apply (read_eq_ok_iff hw hbytes).mpr
  intro j hj
  rw [byte?_write hw hbytes h, stored?_eq_some hw hj, Option.some_or]

theorem exists_write (m : Memory) (a : UInt64) (order : ByteOrder) (hw : Word.ValidWidth w)
    (hbytes : w % 8 = 0) (x : BitVec w) :
    ∃ m', m.write a (.ofBits x) order = .ok m' ∧ m'.read a w order = .ok (.ofBits x) ∧
      (∀ name, m'.physical? name = m.physical? name) ∧
      ∀ c, (∀ k < w / 8, a + UInt64.ofNat k ≠ c) → m'.byte? c = m.byte? c := by
  have hwrite := write_eq hw hbytes m a x order
  refine ⟨_, hwrite, read_write hw hbytes hwrite, fun name => physical?_writeAll, fun c hc => ?_⟩
  rw [byte?_write hw hbytes hwrite, stored?_eq_none fun k hk heq => hc k hk heq.symm,
    Option.none_or]

/-- An address is defined in some layer, or is one of a number of bytes from another address
on. -/
def DefinedWith (m : Memory) (a : UInt64) (count : Nat) (c : UInt64) : Prop :=
  (∃ layer ∈ m.layers, c ∈ layer.bytes) ∨ ∃ k < count, c = a + UInt64.ofNat k

theorem isSome_byte?_write_iff (hw : Word.ValidWidth w) (hbytes : w % 8 = 0)
    (h : m.write a (.ofBits x) order = .ok m') (c : UInt64) :
    (m'.byte? c).isSome ↔ m.DefinedWith a (w / 8) c := by
  rw [byte?_write hw hbytes h, DefinedWith, ← isSome_byte?_iff]
  by_cases hin : ∃ k < w / 8, c = a + UInt64.ofNat k
  · obtain ⟨k, hk, rfl⟩ := hin
    rw [stored?_eq_some hw hk]
    exact iff_of_true rfl (.inr ⟨k, hk, rfl⟩)
  · rw [stored?_eq_none fun k hk heq => hin ⟨k, hk, heq⟩, Option.none_or, or_iff_left hin]

/-- What is read after a write, for any overlap of the two and any two byte orders. The read
succeeds exactly if each of its bytes was defined in some layer or was just written. Then a byte
is the one of the value that was written to its address, or else the one that the topmost layer
held there. Otherwise the first undefined address, from the most significant byte on, is reported.
The layers below the top one stay as they are. -/
theorem read_after_write (m : Memory) (a b : UInt64) (order order' : ByteOrder) {w u : Nat}
    (hw : Word.ValidWidth w) (hwBytes : w % 8 = 0) (hu : Word.ValidWidth u) (huBytes : u % 8 = 0)
    (x : BitVec w) :
    ∃ m', m.write a (.ofBits x) order = .ok m' ∧ m'.below = m.below ∧
      m'.read a w order = .ok (.ofBits x) ∧
      ((∃ y, m'.read b u order' = .ok y) ↔
        ∀ j < u / 8, m.DefinedWith a (w / 8) (b + UInt64.ofNat j)) ∧
      (∀ y, m'.read b u order' = .ok y → ∃ bits : BitVec u, y = .ofBits bits ∧ ∀ j < u / 8,
        let byte := bits.extractLsb' (8 * order'.rank (u / 8) j) 8
        (∀ k < w / 8, b + UInt64.ofNat j = a + UInt64.ofNat k →
          byte = x.extractLsb' (8 * order.rank (w / 8) k) 8) ∧
        ((∀ k < w / 8, b + UInt64.ofNat j ≠ a + UInt64.ofNat k) →
          m.Topmost (b + UInt64.ofNat j) (UInt8.ofBitVec byte))) ∧
      ((¬ ∃ y, m'.read b u order' = .ok y) →
        ∃ j < u / 8, ¬ m.DefinedWith a (w / 8) (b + UInt64.ofNat j) ∧
        (∀ i < u / 8, order'.rank (u / 8) j < order'.rank (u / 8) i →
          m.DefinedWith a (w / 8) (b + UInt64.ofNat i)) ∧
        m'.read b u order' = .fail (.address (b + UInt64.ofNat j))) := by
  have hwrite := write_eq hw hwBytes m a x order
  refine ⟨_, hwrite, (m.layers_writeAll _ _ _).1, read_write hw hwBytes hwrite, ?_, ?_, ?_⟩
  · rw [exists_read_iff hu huBytes]
    simp only [isSome_byte?_write_iff hw hwBytes hwrite]
  · intro y hy
    obtain ⟨bits, rfl⟩ := exists_bits_of_read hy
    refine ⟨bits, rfl, fun j hj => ?_⟩
    have hbyte := (read_eq_ok_iff hu huBytes).mp hy j hj
    rw [byte?_write hw hwBytes hwrite] at hbyte
    constructor
    · intro k hk heq
      rw [heq, stored?_eq_some hw hk, Option.some_or, Option.some_inj] at hbyte
      exact (congrArg UInt8.toBitVec hbyte).symm
    · intro hout
      rw [stored?_eq_none hout, Option.none_or] at hbyte
      exact byte?_eq_some_iff.mp hbyte
  · intro hfails
    rcases read_cases hu huBytes (m.writeAll _ _ _) b order' with
      ⟨y, hy⟩ | ⟨j, hj, hnone, hdefined, hfail⟩
    · exact absurd ⟨_, hy⟩ hfails
    · refine ⟨j, hj, fun hdefined => ?_, fun i hi hlt => ?_, hfail⟩
      · have hsome := (isSome_byte?_write_iff hw hwBytes hwrite _).mpr hdefined
        rw [hnone] at hsome
        cases hsome
      · exact (isSome_byte?_write_iff hw hwBytes hwrite _).mp (hdefined i hi hlt)

/-- A big-endian value over the last and the first address, read in little-endian order with the
byte above it, which comes from the layer below. -/
theorem read_after_write_of_wrapping :
    let m : Memory := ⟨{}, [{ bytes := Std.ExtTreeMap.insert ∅ 1 0x44 }]⟩
    let last : UInt64 := 0xffffffffffffffff
    ∃ (m' : Memory) (bits : BitVec 24), m.write last (.ofBits 0xabcd#16) .big = .ok m' ∧
      m'.below = m.below ∧
      m'.read last 16 .big = .ok (.ofBits 0xabcd#16) ∧
      m'.read last 24 .little = .ok (.ofBits bits) ∧
      bits.extractLsb' 0 8 = 0xab#8 ∧ bits.extractLsb' 8 8 = 0xcd#8 ∧
      m.Topmost 1 (UInt8.ofBitVec (bits.extractLsb' 16 8)) := by
  intro m last
  obtain ⟨m', hwrite, hbelow, hsame, hdefined, hbytes, -⟩ :=
    read_after_write m last last .big .little (w := 16) (u := 24) (by decide) (by decide)
    (by decide) (by decide) 0xabcd#16
  obtain ⟨y, hy⟩ := hdefined.mpr (by
    intro j hj
    obtain hj | rfl : j < 2 ∨ j = 2 := by omega
    · exact .inr ⟨j, hj, rfl⟩
    · exact .inl ⟨_, List.mem_cons_of_mem _ (List.mem_singleton_self _), by decide +kernel⟩)
  obtain ⟨bits, rfl, hbits⟩ := hbytes y hy
  refine ⟨m', bits, hwrite, hbelow, hsame, hy, ?_, ?_, ?_⟩
  · exact (hbits 0 (by decide)).1 0 (by decide) rfl
  · exact (hbits 1 (by decide)).1 1 (by decide) rfl
  · have habove : m.Topmost (last + UInt64.ofNat 2) _ := (hbits 2 (by decide)).2 (by decide)
    have hnext : last + UInt64.ofNat 2 = 1 := by decide
    rwa [hnext] at habove

end ReadOverWrite

end Memory

end FlowRecovery
