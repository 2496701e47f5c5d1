import Mathlib
import FlowRecovery.Proofs.Memory.ReadOverWrite
import FlowRecovery.Proofs.Simulation.Execution

/-!
Cells of several bytes and the cells of their bytes. Within the address space of its base, a cell
evaluates to the concatenation of its byte cells, and after an assignment the byte cells evaluate
to the bytes of the value. Two things set bounds to this: only the address of the first byte wraps
at the width of the base, and an assignment can change what its own base evaluates to.
-/

namespace FlowRecovery

/-- The address of the first byte of a cell, from the value of its base. -/
def Word.cellStart (base : Word) (offset : UInt64) : Nat :=
  (base.value + offset.toNat) % 2 ^ base.width

/-- The byte at a distance from the start of a cell does not lie beyond the addresses that the
base can express. -/
def Word.Spans (base : Word) (offset : UInt64) (distance : Nat) : Prop :=
  base.width = 64 ∨ base.cellStart offset + distance < 2 ^ base.width

/-- Under every valuation, an expression is the byte of another one that is stored at a distance
from its start. -/
def Expr.IsByteAt (order : ByteOrder) (count distance : Nat) (e byte : Expr) : Prop :=
  ∀ v, ∃ x : BitVec (8 * count), e.value v = .ofBits x ∧
    byte.value v = .ofBits (x.extractLsb' (8 * order.rank count distance) 8)

theorem Expr.IsByteAt.congr {order : ByteOrder} {count distance : Nat} {e e' byte byte' : Expr}
    (h : e.IsByteAt order count distance byte) (he : ∀ v, e'.value v = e.value v)
    (hbyte : ∀ v, byte'.value v = byte.value v) : e'.IsByteAt order count distance byte' := by
  intro v
  rw [he, hbyte]
  exact h v

section Addresses

variable {base : Word} {offset : UInt64} {distance : Nat}

theorem Memory.cellAddress_eq (hbase : Word.ValidWidth base.width) (offset : UInt64) :
    cellAddress base offset = .ok (UInt64.ofNat (base.cellStart offset)) := by
  rw [cellAddress, Word.ofNat_eq hbase, ok_bind, Word.ofBits_value, BitVec.toNat_ofNat]
  rfl

theorem Word.cellStart_add (hbase : Word.ValidWidth base.width) (h : base.Spans offset distance) :
    UInt64.ofNat (base.cellStart (offset + UInt64.ofNat distance)) =
      UInt64.ofNat (base.cellStart offset) + UInt64.ofNat distance := by
  have hsum : base.cellStart (offset + UInt64.ofNat distance) =
      (base.cellStart offset + distance) % 2 ^ base.width := by
    have hdvd : 2 ^ base.width ∣ 2 ^ 64 := Nat.pow_dvd_pow 2 hbase.2
    rw [cellStart, cellStart, UInt64.toNat_add, UInt64.toNat_ofNat', Nat.add_mod,
      Nat.mod_mod_of_dvd _ hdvd, ← Nat.add_mod, Nat.mod_add_mod, ← Nat.add_assoc, Nat.add_mod,
      Nat.mod_mod_of_dvd _ hdvd, ← Nat.add_mod]
  rw [hsum, ← UInt64.ofNat_add]
  rcases h with h64 | hlt
  · rw [h64]
    exact UInt64.ofNat_mod_size
  · rw [Nat.mod_eq_of_lt hlt]

end Addresses

namespace SymbolicMemory

variable {s : Scope} {m m' : SymbolicMemory} {address : UInt64} {k i : Nat} {e byte : Expr}

section Bytes

theorem validWidth_bytes (hpos : 1 ≤ k) (hle : k ≤ 8) : Word.ValidWidth (8 * k) :=
  ⟨by omega, by omega⟩

theorem exists_read_iff (hm : m.HoldsBytes s) (v : Valuation) (hpos : 1 ≤ k) (hle : k ≤ 8) :
    (∃ e, m.read address (8 * k) = .ok e) ↔
      ∀ i < k, ((m.concretise v).byte? (address + UInt64.ofNat i)).isSome := by
  have hvalid := validWidth_bytes hpos hle
  have hbytes : 8 * k % 8 = 0 := Nat.mul_mod_right 8 k
  have hcount : 8 * k / 8 = k := Nat.mul_div_cancel_left k (by decide)
  have hconcrete : (∃ x, (m.concretise v).read address (8 * k) m.order = .ok x) ↔ _ :=
    Memory.exists_read_iff hvalid hbytes
  rw [hcount] at hconcrete
  rw [← hconcrete]
  have hrefines := read_refines (v := v) hm address hvalid hbytes
  constructor
  · rintro ⟨e, he⟩
    obtain ⟨-, hvalue⟩ := hrefines.yields.of_eq_ok he
    exact ⟨_, hvalue⟩
  · rintro ⟨x, hx⟩
    exact hrefines.exists_ok hx

theorem value_of_read (hm : m.HoldsBytes s) (v : Valuation) (hpos : 1 ≤ k) (hle : k ≤ 8)
    (he : m.read address (8 * k) = .ok e) : ∃ x : BitVec (8 * k), e.value v = .ofBits x ∧ ∀ i < k,
      (m.concretise v).byte? (address + UInt64.ofNat i) =
        some (UInt8.ofBitVec (x.extractLsb' (8 * m.order.rank k i) 8)) := by
  have hvalid := validWidth_bytes hpos hle
  have hbytes : 8 * k % 8 = 0 := Nat.mul_mod_right 8 k
  have hcount : 8 * k / 8 = k := Nat.mul_div_cancel_left k (by decide)
  obtain ⟨-, hvalue⟩ := (read_refines (v := v) hm address hvalid hbytes).yields.of_eq_ok he
  obtain ⟨x, hx⟩ := Memory.exists_bits_of_read hvalue
  rw [hx] at hvalue
  have hx' := (Memory.read_eq_ok_iff hvalid hbytes).mp hvalue
  rw [hcount] at hx'
  exact ⟨x, hx, hx'⟩

theorem add_ofNat_zero (address : UInt64) : address + UInt64.ofNat 0 = address :=
  UInt64.add_zero address

theorem exists_readByte_iff (hm : m.HoldsBytes s) (v : Valuation) :
    (∃ byte, m.read address 8 = .ok byte) ↔ ((m.concretise v).byte? address).isSome := by
  have hiff : (∃ byte, m.read address (8 * 1) = .ok byte) ↔ _ :=
    exists_read_iff hm v (le_refl 1) (by decide)
  rw [Nat.mul_one] at hiff
  rw [hiff]
  constructor
  · intro h
    have hstart := h 0 Nat.one_pos
    rwa [add_ofNat_zero] at hstart
  · intro h i hi
    rwa [Nat.lt_one_iff.mp hi, add_ofNat_zero]

theorem value_of_readByte (hm : m.HoldsBytes s) (v : Valuation)
    (hbyte : m.read address 8 = .ok byte) {x : UInt8}
    (hx : (m.concretise v).byte? address = some x) : byte.value v = .ofBits x.toBitVec := by
  obtain ⟨y, hy, hy'⟩ := value_of_read (k := 1) hm v (le_refl 1) (by decide) hbyte
  have hrank : m.order.rank 1 0 = 0 := Nat.lt_one_iff.mp (m.order.rank_lt Nat.one_pos)
  have hsame := hy' 0 Nat.one_pos
  rw [add_ofNat_zero, hx, hrank, Option.some_inj] at hsame
  subst hsame
  rw [hy, Word.ofBits_inj]
  exact BitVec.extractLsb'_eq_self.symm

theorem exists_read_iff_bytes (hm : m.HoldsBytes s) (hpos : 1 ≤ k) (hle : k ≤ 8) :
    (∃ e, m.read address (8 * k) = .ok e) ↔
      ∀ i < k, ∃ byte, m.read (address + UInt64.ofNat i) 8 = .ok byte := by
  simp only [exists_read_iff hm default hpos hle, exists_readByte_iff hm default]

theorem isByteAt_of_read (hm : m.HoldsBytes s) (hpos : 1 ≤ k) (hle : k ≤ 8)
    (he : m.read address (8 * k) = .ok e) (hi : i < k)
    (hbyte : m.read (address + UInt64.ofNat i) 8 = .ok byte) : e.IsByteAt m.order k i byte := by
  intro v
  obtain ⟨x, hx, hbytes⟩ := value_of_read hm v hpos hle he
  exact ⟨x, hx, value_of_readByte hm v hbyte (hbytes i hi)⟩

theorem HoldsBytes.write (hm : m.HoldsBytes s) (he : e.WellFormed s) (hbytes : e.width % 8 = 0)
    (hwrite : m.write address e = .ok m') : m'.HoldsBytes s := by
  obtain ⟨_, h, hwrites, -⟩ := write_refines (v := default) hm address he hbytes
  cases h.symm.trans hwrite
  exact hwrites.holdsBytes

theorem exists_byte_of_write (hm : m.HoldsBytes s) (hpos : 1 ≤ k) (hle : k ≤ 8)
    (he : e.WellFormed s) (hwidth : e.width = 8 * k) (hwrite : m.write address e = .ok m')
    (hi : i < k) :
    ∃ byte, m'.read (address + UInt64.ofNat i) 8 = .ok byte ∧ e.IsByteAt m.order k i byte := by
  have hvalid := validWidth_bytes hpos hle
  have hbytes : 8 * k % 8 = 0 := Nat.mul_mod_right 8 k
  have hcount : 8 * k / 8 = k := Nat.mul_div_cancel_left k (by decide)
  have hwhole : e.width % 8 = 0 := by rw [hwidth, hbytes]
  have hm' : m'.HoldsBytes s := hm.write he hwhole hwrite
  have hstored (v : Valuation) : ∃ x : BitVec (8 * k), e.value v = .ofBits x ∧
      (m'.concretise v).byte? (address + UInt64.ofNat i) =
        some (UInt8.ofBitVec (x.extractLsb' (8 * m.order.rank k i) 8)) := by
    obtain ⟨_, h, -, hconcrete⟩ := write_refines (v := v) hm address he hwhole
    cases h.symm.trans hwrite
    obtain ⟨x, hx⟩ := he.exists_bits hwidth v
    rw [hx] at hconcrete
    have hin : i < 8 * k / 8 := by rwa [hcount]
    refine ⟨x, hx, ?_⟩
    rw [Memory.byte?_write hvalid hbytes hconcrete, Memory.stored?_eq_some hvalid hin,
      Option.some_or, hcount]
  obtain ⟨x, -, hx⟩ := hstored default
  obtain ⟨byte, hbyte⟩ := (exists_readByte_iff hm' default).mpr (by rw [hx]; rfl)
  refine ⟨byte, hbyte, fun v => ?_⟩
  obtain ⟨x, hvalue, hx⟩ := hstored v
  exact ⟨x, hvalue, value_of_readByte hm' v hbyte hx⟩

end Bytes

section Cells

variable {a r : Expr} {c : Word} {offset : UInt64}

theorem eval_cell (ha : m.eval a = .ok (.const c)) (hc : Word.ValidWidth c.width)
    (offset : UInt64) {w : Nat} (hw : Word.ValidWidth w) (hbytes : w % 8 = 0) :
    m.eval (.mem a offset w) = m.read (UInt64.ofNat (c.cellStart offset)) w >>= fun e =>
      liftM e.simplify := by
  obtain ⟨a', ha', hsimplify⟩ := exists_of_bind_eq_ok ha
  have hsimplify := of_liftM_eq_ok hsimplify
  rw [eval, Expr.transformM, ha', ok_bind, Expr.mkMem_of_bytes a' offset hw hbytes, liftM_ok,
    ok_bind, value?, hsimplify, liftM_ok, ok_bind, concreteAddress_const,
    Memory.cellAddress_eq hc, liftM_ok, ok_bind]
  cases m.read (UInt64.ofNat (c.cellStart offset)) w <;> rfl

theorem exists_eval_of_read (hm : m.HoldsBytes s) (ha : m.eval a = .ok (.const c))
    (hc : Word.ValidWidth c.width) (hpos : 1 ≤ k) (hle : k ≤ 8)
    (hr : m.read (UInt64.ofNat (c.cellStart offset)) (8 * k) = .ok r) :
    ∃ e, m.eval (.mem a offset (8 * k)) = .ok e ∧ ∀ v, e.value v = r.value v := by
  have hvalid := validWidth_bytes hpos hle
  have hbytes : 8 * k % 8 = 0 := Nat.mul_mod_right 8 k
  obtain ⟨⟨hWF, -⟩, -⟩ := (read_refines (v := default) hm _ hvalid hbytes).yields.of_eq_ok hr
  obtain ⟨e, he, hequiv⟩ := Expr.simplify_sound hWF
  refine ⟨e, ?_, hequiv.value⟩
  rw [eval_cell ha hc offset hvalid hbytes, hr, ok_bind, he]
  rfl

theorem exists_read_of_eval (hm : m.HoldsBytes s) (ha : m.eval a = .ok (.const c))
    (hc : Word.ValidWidth c.width) (hpos : 1 ≤ k) (hle : k ≤ 8)
    (he : m.eval (.mem a offset (8 * k)) = .ok e) :
    ∃ r, m.read (UInt64.ofNat (c.cellStart offset)) (8 * k) = .ok r ∧
      ∀ v, e.value v = r.value v := by
  rw [eval_cell ha hc offset (validWidth_bytes hpos hle) (Nat.mul_mod_right 8 k)] at he
  obtain ⟨r, hr, hsimplify⟩ := exists_of_bind_eq_ok he
  obtain ⟨e', he', hvalue⟩ := exists_eval_of_read hm ha hc hpos hle hr
  rw [eval_cell ha hc offset (validWidth_bytes hpos hle) (Nat.mul_mod_right 8 k), hr, ok_bind,
    hsimplify] at he'
  cases he'
  exact ⟨r, hr, hvalue⟩

theorem exists_eval_iff_read (hm : m.HoldsBytes s) (ha : m.eval a = .ok (.const c))
    (hc : Word.ValidWidth c.width) (hpos : 1 ≤ k) (hle : k ≤ 8) :
    (∃ e, m.eval (.mem a offset (8 * k)) = .ok e) ↔
      ∃ r, m.read (UInt64.ofNat (c.cellStart offset)) (8 * k) = .ok r := by
  constructor
  · rintro ⟨e, he⟩
    obtain ⟨r, hr, -⟩ := exists_read_of_eval hm ha hc hpos hle he
    exact ⟨r, hr⟩
  · rintro ⟨r, hr⟩
    obtain ⟨e, he, -⟩ := exists_eval_of_read hm ha hc hpos hle hr
    exact ⟨e, he⟩

theorem exec_cell (ha : m.eval a = .ok (.const c)) (hc : Word.ValidWidth c.width)
    (offset : UInt64) (w : Nat) {value x : Expr} (hx : m.eval value = .ok x) :
    m.exec (.assign (.mem a offset w) value) =
      liftM (m.write (UInt64.ofNat (c.cellStart offset)) x) := by
  rw [exec, hx, ok_bind]
  dsimp only
  rw [ha, ok_bind, concreteAddress_const, Memory.cellAddress_eq hc, liftM_ok, ok_bind]

/-- Cells and their bytes, for a base with a constant value of any width. A cell within the
address space of its base evaluates exactly if all its byte cells do, and then consists of them in
the byte order. After an assignment to a cell, each of its byte cells within that space evaluates
to the byte of the value, under every base that has the same constant value then. -/
theorem eval_cell_bytewise (hm : m.HoldsBytes .all) (ha : m.eval a = .ok (.const c))
    (hc : Word.ValidWidth c.width) (offset : UInt64) (hpos : 1 ≤ k) (hle : k ≤ 8) :
    (c.Spans offset (k - 1) →
      ((∃ e, m.eval (.mem a offset (8 * k)) = .ok e) ↔
        ∀ i < k, ∃ byte, m.eval (.mem a (offset + UInt64.ofNat i) 8) = .ok byte) ∧
      ∀ e, m.eval (.mem a offset (8 * k)) = .ok e → ∀ i < k, ∃ byte,
        m.eval (.mem a (offset + UInt64.ofNat i) 8) = .ok byte ∧ e.IsByteAt m.order k i byte) ∧
    ∀ value x, m.eval value = .ok x → x.WellFormed .all → x.width = 8 * k → ∃ m',
      m.exec (.assign (.mem a offset (8 * k)) value) = .ok m' ∧ ∀ i < k, c.Spans offset i →
        ∀ b, m'.eval b = .ok (.const c) → ∃ byte,
          m'.eval (.mem b (offset + UInt64.ofNat i) 8) = .ok byte ∧
          x.IsByteAt m.order k i byte := by
  refine ⟨fun hspans => ?_, fun value x hx hWF hwidth => ?_⟩
  · have hinside (i : Nat) (hi : i < k) : c.Spans offset i := hspans.imp_right fun hlt => by omega
    constructor
    · rw [exists_eval_iff_read hm ha hc hpos hle, exists_read_iff_bytes hm hpos hle]
      apply forall₂_congr
      intro i hi
      rw [← Word.cellStart_add hc (hinside i hi)]
      exact (exists_eval_iff_read (k := 1) hm ha hc (le_refl 1) (by decide)).symm
    · intro e he i hi
      obtain ⟨r, hr, hvalue⟩ := exists_read_of_eval hm ha hc hpos hle he
      obtain ⟨byte, hbyte⟩ := (exists_read_iff_bytes hm hpos hle).mp ⟨r, hr⟩ i hi
      have hIs := isByteAt_of_read hm hpos hle hr hi hbyte
      rw [← Word.cellStart_add hc (hinside i hi)] at hbyte
      obtain ⟨e', he', hvalue'⟩ := exists_eval_of_read (k := 1) hm ha hc (le_refl 1)
        (by decide) hbyte
      exact ⟨e', he', hIs.congr hvalue hvalue'⟩
  · have hbytes : x.width % 8 = 0 := by rw [hwidth, Nat.mul_mod_right]
    obtain ⟨m', hwrite, -⟩ :=
      write_refines (v := default) hm (UInt64.ofNat (c.cellStart offset)) hWF hbytes
    refine ⟨m', by rw [exec_cell ha hc offset _ hx, hwrite, liftM_ok],
      fun i hi hinside b hb => ?_⟩
    obtain ⟨byte, hbyte, hIs⟩ := exists_byte_of_write hm hpos hle hWF hwidth hwrite hi
    rw [← Word.cellStart_add hc hinside] at hbyte
    obtain ⟨e, he, hvalue⟩ :=
      exists_eval_of_read (k := 1) (hm.write hWF hbytes hwrite) hb hc (le_refl 1)
        (by decide) hbyte
    exact ⟨e, he, hIs.congr (fun _ => rfl) hvalue⟩

/-- A big-endian cell at the end of the addresses of its base, with one byte from the image and
one that is unknown. -/
theorem eval_cell_bytewise_at_end :
    let base : Expr := .const ⟨32, 0xfffffff0⟩
    let image : Memory := ⟨{ bytes := Std.ExtTreeMap.insert ∅ 0xfffffffe 0x7b }, []⟩
    let m : SymbolicMemory :=
      { ofImage image .big with cells := Std.ExtTreeMap.insert ∅ 0xffffffff (.var "x" 8) }
    (∃ e, m.eval (.mem base 14 16) = .ok e ∧ ∀ i < 2, ∃ byte,
      m.eval (.mem base (14 + UInt64.ofNat i) 8) = .ok byte ∧ e.IsByteAt .big 2 i byte) ∧
    ∃ m', m.exec (.assign (.mem base 14 16) (.var "y" 16)) = .ok m' ∧ ∀ i < 2, ∃ byte,
      m'.eval (.mem base (14 + UInt64.ofNat i) 8) = .ok byte ∧
      (Expr.var "y" 16).IsByteAt .big 2 i byte := by
  intro base image m
  have hm : m.HoldsBytes .all := by
    refine HoldsBytes.insert_cell (m := ofImage image .big) ?_ 0xffffffff (by decide) rfl
    intro address e he
    simp [ofImage] at he
  have hspans (i : Nat) (hi : i < 2) : Word.Spans ⟨32, 0xfffffff0⟩ 14 i :=
    .inr (by rw [Word.cellStart]; simp; omega)
  obtain ⟨hread, hwrite⟩ := eval_cell_bytewise (a := base) (c := ⟨32, 0xfffffff0⟩) (k := 2) hm rfl
    (by decide) 14 (by decide) (by decide)
  obtain ⟨hiff, hbytes⟩ := hread (hspans 1 (by decide))
  obtain ⟨e, he⟩ := hiff.mpr fun i hi => by
    obtain rfl | rfl : i = 0 ∨ i = 1 := by omega
    · exact ⟨.const ⟨8, 0x7b⟩, by decide +kernel⟩
    · exact ⟨.var "x" 8, by decide +kernel⟩
  obtain ⟨m', hexec, hstored⟩ := hwrite (.var "y" 16) (.var "y" 16) rfl (by decide) rfl
  exact ⟨⟨e, he, hbytes e he⟩, m', hexec, fun i hi => hstored i hi (hspans i hi) base rfl⟩

/-- Beyond the addresses of its base, a cell has other bytes than its byte cells; and a byte cell
whose base is read from the byte that was assigned moves away from it. -/
theorem cell_differs_from_byteCells :
    (let base : Expr := .const ⟨32, 0xffffffff⟩
      let bytes : List (UInt64 × UInt8) := [(0, 0xaa), (0xffffffff, 0xbb), (0x100000000, 0xcc)]
      let m := ofImage ⟨{ bytes := .ofList bytes }, []⟩ .little
      m.eval (.mem base 0 16) = .ok (.const ⟨16, 0xccbb⟩) ∧
        m.eval (.mem base 0 8) = .ok (.const ⟨8, 0xbb⟩) ∧
        m.eval (.mem base 1 8) = .ok (.const ⟨8, 0xaa⟩)) ∧
    (let base : Expr := .mem (.const ⟨32, 0x10⟩) 0 32
      let bytes : List (UInt64 × UInt8) :=
        [(0x10, 0x10), (0x11, 0), (0x12, 0), (0x13, 0), (0x20, 0x77)]
      let m := ofImage ⟨{ bytes := .ofList bytes }, []⟩ .little
      m.eval base = .ok (.const ⟨32, 0x10⟩) ∧
        ∃ m', m.exec (.assign (.mem base 0 8) (.const ⟨8, 0x20⟩)) = .ok m' ∧
        m'.eval (.mem base 0 8) = .ok (.const ⟨8, 0x77⟩)) := by
  refine ⟨⟨by decide +kernel, by decide +kernel, by decide +kernel⟩, by decide +kernel, ?_⟩
  exact ⟨_, rfl, by decide +kernel⟩

end Cells

end SymbolicMemory

end FlowRecovery
