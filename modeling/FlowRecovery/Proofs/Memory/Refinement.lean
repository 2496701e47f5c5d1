import Mathlib
import FlowRecovery.Proofs.Memory.Concretisation

namespace FlowRecovery

namespace Expr

variable {s : Scope} {a b : Expr} (v : Valuation)

theorem testBit_value_extract {offset size : Nat} (ha : a.WellFormed s) (i : Nat) :
    ((unary (.extract offset size) a).value v).value.testBit i =
      (decide (i < size) && (a.value v).value.testBit (offset + i)) := by
  obtain ⟨x, hx⟩ := ha.exists_bits rfl v
  simp [value, hx, UnaryOp.on_ofBits, UnaryOp.onBits, BitVec.testBit_toNat]

theorem testBit_value_concat (ha : a.WellFormed s) (hb : b.WellFormed s) (i : Nat) :
    ((binary .concat a b).value v).value.testBit i =
      if i < b.width then (b.value v).value.testBit i
        else (a.value v).value.testBit (i - b.width) := by
  obtain ⟨x, hx⟩ := ha.exists_bits rfl v
  obtain ⟨y, hy⟩ := hb.exists_bits rfl v
  simp only [value, hx, hy, BinaryOp.on_ofBits, BinaryOp.onBits, Word.ofBits_value,
    BitVec.testBit_toNat, BitVec.getLsbD_append]

theorem testBit_value_of_le (ha : a.WellFormed s) {i : Nat} (hi : a.width ≤ i) :
    (a.value v).value.testBit i = false := by
  obtain ⟨x, hx⟩ := ha.exists_bits rfl v
  rw [hx, Word.ofBits_value, BitVec.testBit_toNat, BitVec.getLsbD_of_ge x i hi]

theorem value_concat_byte (ha : a.WellFormed s) (hb : b.WellFormed s) (hwidth : b.width = 8) :
    ((binary .concat a b).value v).value =
      256 * (a.value v).value + (UInt8.ofNat (b.value v).value).toNat := by
  obtain ⟨x, hx⟩ := ha.exists_bits rfl v
  obtain ⟨y, hy⟩ := hb.exists_bits hwidth v
  have hlt := y.isLt
  simp only [value, hx, hy, BinaryOp.on_ofBits, BinaryOp.onBits, Word.ofBits_value]
  rw [BitVec.toNat_append, ← Nat.shiftLeft_add_eq_or_of_lt hlt, Nat.shiftLeft_eq,
    UInt8.toNat_ofNat', Nat.mod_eq_of_lt hlt]
  omega

end Expr

namespace Memory

/-- Reads one byte, or reports its address. -/
def readByte (m : Memory) (address : UInt64) : Attempt UndefinedValue UInt8 :=
  match m.byte? address with
  | some byte => return byte
  | none => .fail (.address address)

theorem readFrom_succ (m : Memory) (place : Nat → UInt64) (k value : Nat) :
    m.readFrom place (k + 1) value =
      m.readByte (place k) >>= fun byte => m.readFrom place k (256 * value + byte.toNat) := by
  rw [readFrom, readByte]
  cases m.byte? (place k) <;> rfl

theorem byteCount_eq (k : Nat) : byteCount (8 * (k + 1)) = .ok (k + 1) := by
  have hpos : 0 < 8 * (k + 1) := by omega
  simp [byteCount, hpos]

end Memory

namespace SymbolicMemory

variable {s : Scope} {widths : String → Nat} {m : SymbolicMemory} {v : Valuation}

/-- A well formed memory that comes from another one by writes. -/
structure Follows (s : Scope) (widths : String → Nat) (m m' : SymbolicMemory) : Prop where
  wellFormed : m'.WellFormed s widths
  order : m'.order = m.order
  image : m'.image = m.image

/-- Bytes were written to cells, and nothing else changed. -/
structure Overwrites (s : Scope) (m m' : SymbolicMemory) : Prop where
  holdsBytes : m'.HoldsBytes s
  registers : m'.registers = m.registers
  order : m'.order = m.order
  image : m'.image = m.image

theorem Overwrites.trans {m₁ m₂ : SymbolicMemory} (h₁ : Overwrites s m m₁)
    (h₂ : Overwrites s m₁ m₂) :
    Overwrites s m m₂ :=
  ⟨h₂.holdsBytes, h₂.registers.trans h₁.registers, h₂.order.trans h₁.order,
    h₂.image.trans h₁.image⟩

theorem Overwrites.follows {m' : SymbolicMemory} (h : Overwrites s m m')
    (hm : m.WellFormed s widths) :
    Follows s widths m m' := by
  refine ⟨⟨h.holdsBytes, fun {name e} he => ?_, fun {name x} hx => ?_⟩, h.order, h.image⟩
  · rw [h.registers] at he
    exact hm.register he
  · rw [h.image] at hx
    exact hm.image hx

section Bytes

theorem readByte_refines (h : m.HoldsBytes s) (address : UInt64) :
    Refines (fun e => e.WellFormed s ∧ e.width = 8) (fun e => UInt8.ofNat (e.value v).value)
      (m.readByte address) ((m.concretise v).readByte address) := by
  rw [readByte, Memory.readByte, byte?_concretise]
  cases hcell : m.cells[address]? with
  | some e => exact .ok (h hcell) rfl
  | none =>
      cases m.image.byte? address with
      | none => exact .fail _
      | some byte =>
          have hvalid : Word.ValidWidth 8 := by decide
          simp only [Expr.constant, Word.ofNat_eq hvalid, ok_bind, pure_eq_ok, liftM_ok]
          refine .ok ⟨Word.canonical_ofBits hvalid _, rfl⟩ ?_
          simp [Expr.value]

theorem readFrom_refines (h : m.HoldsBytes s) (place : Nat → UInt64) (k : Nat)
    {j : Nat} {high : Expr} (hhigh : high.WellFormed s) (hwidth : high.width = 8 * j)
    (hle : j + k ≤ 8) :
    Refines (fun e => e.WellFormed s ∧ e.width = 8 * (j + k)) (fun e => (e.value v).value)
      (m.readFrom place k high) ((m.concretise v).readFrom place k (high.value v).value) := by
  induction k generalizing j high with
  | zero => exact .ok ⟨hhigh, hwidth⟩ rfl
  | succ k ih =>
      rw [readFrom, Memory.readFrom_succ]
      refine (readByte_refines h (place k)).bind fun byte hbyte => ?_
      -- `j` bytes stand above the `k + 1` that are left, so that the concatenation stays within
      -- 64 bits
      have hconcat : (Expr.binary .concat high byte).WellFormed s :=
        ⟨hhigh, hbyte.1, show high.width + byte.width ≤ 64 by omega⟩
      rw [Expr.mkBinary_of_wellFormed hconcat, liftM_ok, ok_bind,
        ← Expr.value_concat_byte v hhigh hbyte.1 hbyte.2, ← Nat.add_assoc, Nat.add_right_comm]
      refine ih hconcat ?_ (by omega)
      rw [Expr.width, hwidth, hbyte.2]
      omega

theorem read_refines (h : m.HoldsBytes s) (address : UInt64) {width : Nat}
    (hvalid : Word.ValidWidth width) (hbytes : width % 8 = 0) :
    Refines (fun e => e.WellFormed s ∧ e.width = width) (Expr.value v)
      (m.read address width) ((m.concretise v).read address width m.order) := by
  obtain ⟨k, rfl⟩ : ∃ k, width = 8 * (k + 1) := ⟨width / 8 - 1, by have := hvalid.1; omega⟩
  simp only [read, Memory.read, Memory.byteCount_eq, liftM_ok, ok_bind,
    Memory.readFrom_succ, bind_assoc, Nat.add_sub_cancel]
  refine (readByte_refines h _).bind fun high hhigh => ?_
  have hvalue : 256 * 0 + (UInt8.ofNat (high.value v).value).toNat = (high.value v).value := by
    obtain ⟨x, hx⟩ := hhigh.1.exists_bits hhigh.2 v
    rw [hx, Word.ofBits_value, UInt8.toNat_ofNat', Nat.mod_eq_of_lt x.isLt,
      Nat.mul_zero, Nat.zero_add]
  have hle : 1 + k ≤ 8 := by have := hvalid.2; omega
  rw [hvalue]
  refine (readFrom_refines h _ k hhigh.1 hhigh.2 hle).bind fun e he => ?_
  obtain ⟨r, hr, hequiv⟩ := Expr.simplify_sound he.1
  have hwidth : e.width = 8 * (k + 1) := by rw [he.2, Nat.add_comm]
  obtain ⟨x, hx⟩ := he.1.exists_bits hwidth v
  rw [hr, Word.ofNat_eq hvalid, hx, Word.ofBits_value, BitVec.ofNat_toNat, BitVec.setWidth_eq]
  refine .ok ⟨hequiv.wellFormed, hequiv.width.trans hwidth⟩ ?_
  rw [hequiv.value, hx]

theorem ofNat_value_slice {e : Expr} (he : e.WellFormed s) (k : Nat) :
    UInt8.ofNat ((Expr.unary (.extract (8 * k) 8) e).value v).value =
      UInt8.ofNat ((e.value v).value >>> (8 * k)) := by
  obtain ⟨x, hx⟩ := he.exists_bits rfl v
  simp only [Expr.value, hx, UnaryOp.on_ofBits, UnaryOp.onBits, Word.ofBits_value,
    BitVec.extractLsb'_toNat]
  exact UInt8.ofNat_mod_size

theorem foldlM_refines {f : SymbolicMemory → Nat → Checked SymbolicMemory}
    {g : Memory → Nat → Memory} {order : ByteOrder} {l : List Nat} (h : m.HoldsBytes s)
    (horder : m.order = order) (hstep : ∀ k ∈ l, ∀ m, m.HoldsBytes s → m.order = order →
      ∃ m', f m k = .ok m' ∧ Overwrites s m m' ∧ g (m.concretise v) k = m'.concretise v) :
    ∃ m', l.foldlM f m = .ok m' ∧ Overwrites s m m' ∧
      l.foldl g (m.concretise v) = m'.concretise v := by
  induction l generalizing m with
  | nil => exact ⟨m, rfl, ⟨h, rfl, rfl, rfl⟩, rfl⟩
  | cons k l ih =>
      obtain ⟨hk, hl⟩ := List.forall_mem_cons.mp hstep
      obtain ⟨m₁, hm₁, hwrites, hvalue⟩ := hk m h horder
      obtain ⟨m₂, hm₂, hrest, hrestValue⟩ := ih hwrites.holdsBytes (hwrites.order.trans horder) hl
      refine ⟨m₂, ?_, hwrites.trans hrest, ?_⟩
      · rw [List.foldlM_cons, hm₁, ok_bind, hm₂]
      · rw [List.foldl_cons, hvalue, hrestValue]

theorem write_refines (h : m.HoldsBytes s) (address : UInt64) {e : Expr} (he : e.WellFormed s)
    (hbytes : e.width % 8 = 0) :
    ∃ m', m.write address e = .ok m' ∧ Overwrites s m m' ∧
      (m.concretise v).write address (e.value v) m.order = .ok (m'.concretise v) := by
  obtain ⟨n, hwidth⟩ : ∃ n, e.width = 8 * (n + 1) :=
    ⟨e.width / 8 - 1, by have := he.validWidth.1; omega⟩
  simp only [write, Memory.write, he.width_value, hwidth, Memory.byteCount_eq,
    Nat.mul_mod_right, require_true, ok_bind, pure_eq_ok, Nat.mul_div_cancel_left (n + 1)
    (show 0 < 8 by decide), Except.ok.injEq]
  refine foldlM_refines h rfl fun k hk m₁ h₁ horder => ?_
  have hslice : (Expr.unary (.extract (8 * k) 8) e).WellFormed s :=
    ⟨he, by decide, by have := List.mem_range.mp hk; omega⟩
  obtain ⟨byte, hbyte, hequiv⟩ := Expr.simplify_sound hslice
  rw [Expr.mkUnary_of_wellFormed hslice, ok_bind, hbyte]
  refine ⟨_, rfl, ⟨h₁.insert_cell _ hequiv.wellFormed hequiv.width, rfl, rfl, rfl⟩, ?_⟩
  rw [concretise_insert_cell, hequiv.value, ofNat_value_slice he, horder]

end Bytes

section Registers

variable {r : Register}

theorem physical?_refines (h : m.WellFormed s widths) (hr : r.Fits widths) :
    ∃ whole, m.physical? r = .ok whole ∧
      (m.concretise v).physical? r.base = whole.map (Expr.value v) ∧
      ∀ e, whole = some e → e.WellFormed s ∧ e.width = r.baseSize := by
  rw [physical?, physical?_concretise]
  cases hregister : m.registers[r.base]? with
  | some e =>
      obtain ⟨he, hwidth⟩ := h.register hregister
      refine ⟨some e, rfl, rfl, ?_⟩
      rintro _ ⟨⟩
      exact ⟨he, hwidth.trans hr.baseSize.symm⟩
  | none =>
      cases himage : m.image.physical? r.base with
      | none =>
          refine ⟨none, ?_, rfl, by simp⟩
          simp [Memory.readRegister, Register.whole, Register.physical, himage, Attempt.fail,
            Attempt.split]
      | some x =>
          obtain ⟨hx, hwidth⟩ := h.image himage
          obtain ⟨b, rfl⟩ := hx.exists_bits (hwidth.trans hr.baseSize.symm)
          have hvalid : Word.ValidWidth r.baseSize := hx.1
          refine ⟨some (.const (.ofBits b)), ?_, rfl, ?_⟩
          · simp [Memory.readRegister, Register.whole, Register.physical, himage, Attempt.split,
              Word.extract_ofBits hvalid b hvalid.1 (show 0 + r.baseSize ≤ r.baseSize by omega)]
          · rintro _ ⟨⟩
            exact ⟨hx, rfl⟩

theorem readRegister_refines (h : m.WellFormed s widths) (hr : r.Fits widths) :
    Refines (fun e => e.WellFormed s ∧ e.width = r.size) (Expr.value v)
      (m.readRegister r) ((m.concretise v).readRegister r) := by
  obtain ⟨whole, hwhole, hconcrete, hgood⟩ := physical?_refines (v := v) h hr
  rw [readRegister, Memory.readRegister, hwhole, hconcrete]
  cases whole with
  | none => exact .fail _
  | some e =>
      obtain ⟨he, hwidth⟩ := hgood e rfl
      obtain ⟨x, hx⟩ := he.exists_bits hwidth v
      have hslice : (Expr.unary (.extract r.offset r.size) e).WellFormed s :=
        ⟨he, hr.size_pos, hwidth ▸ hr.inside⟩
      have hvalue : (Expr.unary (.extract r.offset r.size) e).value v =
          .ofBits (x.extractLsb' r.offset r.size) := by
        simp only [Expr.value, hx, UnaryOp.on_ofBits, UnaryOp.onBits]
      simp only [liftM_ok, ok_bind, Option.map_some, hx,
        Word.extract_ofBits (hwidth ▸ he.validWidth) x hr.size_pos hr.inside]
      split
      case isTrue hphysical =>
        obtain ⟨hoffset, hsize⟩ : r.offset = 0 ∧ r.size = r.baseSize := by
          simpa [Register.isPhysical] using hphysical
        refine .ok ⟨he, hwidth.trans hsize.symm⟩ ?_
        rw [hoffset, hsize, ← hwidth] at hslice
        rw [← hvalue, hoffset, hsize, ← hwidth, (Expr.equiv_extract_whole hslice).value]
      case isFalse =>
        obtain ⟨result, hresult, hequiv⟩ := Expr.simplify_sound hslice
        simp only [Expr.mkUnary_of_wellFormed hslice, liftM_ok, ok_bind, hresult]
        exact .ok ⟨hequiv.wellFormed, hequiv.width⟩ (by rw [hequiv.value, hvalue])

/-- A value below the bits of an old one that lie above its window. -/
def belowUpper (r : Register) (old value : Expr) : Expr :=
  if r.offset + r.size < r.baseSize then
    .binary .concat (.unary (.extract (r.offset + r.size) (r.baseSize - (r.offset + r.size))) old)
      value
  else value

/-- A value between the bits of an old one that lie above and below its window. -/
def spliced (r : Register) (old value : Expr) : Expr :=
  if 0 < r.offset then .binary .concat (belowUpper r old value) (.unary (.extract 0 r.offset) old)
  else belowUpper r old value

section Splice

variable (hr : r.Fits widths) {old value : Expr} (hold : old.WellFormed s)
  (holdWidth : old.width = r.baseSize) (hvalue : value.WellFormed s)
  (hvalueWidth : value.width = r.size)

include hr hold holdWidth hvalue hvalueWidth

theorem belowUpper_wellFormed :
    (belowUpper r old value).WellFormed s ∧ (belowUpper r old value).width = r.baseSize -
      r.offset := by
  have hinside := hr.inside
  have hle := hr.baseSize_le
  rw [belowUpper]
  split
  · refine ⟨⟨⟨hold, by omega, by omega⟩, hvalue, ?_⟩, ?_⟩
    · show r.baseSize - (r.offset + r.size) + value.width ≤ 64
      omega
    · show r.baseSize - (r.offset + r.size) + value.width = r.baseSize - r.offset
      omega
  · exact ⟨hvalue, by omega⟩

theorem spliced_wellFormed :
    (spliced r old value).WellFormed s ∧ (spliced r old value).width = r.baseSize := by
  obtain ⟨hhigh, hhighWidth⟩ := belowUpper_wellFormed hr hold holdWidth hvalue hvalueWidth
  have hinside := hr.inside
  have hle := hr.baseSize_le
  rw [spliced]
  split
  · refine ⟨⟨hhigh, ⟨hold, by omega, by omega⟩, ?_⟩, ?_⟩
    · show (belowUpper r old value).width + r.offset ≤ 64
      omega
    · show (belowUpper r old value).width + r.offset = r.baseSize
      omega
  · exact ⟨hhigh, by omega⟩

theorem spliceWindow_eq : spliceWindow r old value = (spliced r old value).simplify := by
  obtain ⟨hhigh, -⟩ := belowUpper_wellFormed hr hold holdWidth hvalue hvalueWidth
  obtain ⟨hspliced, -⟩ := spliced_wellFormed hr hold holdWidth hvalue hvalueWidth
  have hinside := hr.inside
  have hle := hr.baseSize_le
  rw [spliceWindow, addWidths_of_lt (by omega), ok_bind]
  by_cases hupper : r.offset + r.size < r.baseSize
  · rw [belowUpper, if_pos hupper] at hhigh
    by_cases hlower : 0 < r.offset
    · simp only [spliced, belowUpper, if_pos hupper, if_pos hlower] at hspliced ⊢
      simp only [Expr.mkUnary_of_wellFormed hhigh.1, Expr.mkBinary_of_wellFormed hhigh,
        Expr.mkUnary_of_wellFormed hspliced.2.1, Expr.mkBinary_of_wellFormed hspliced, ok_bind]
    · simp only [spliced, belowUpper, if_pos hupper, if_neg hlower,
        Expr.mkUnary_of_wellFormed hhigh.1, Expr.mkBinary_of_wellFormed hhigh,
        ok_bind, pure_eq_ok]
  · by_cases hlower : 0 < r.offset
    · simp only [spliced, belowUpper, if_neg hupper, if_pos hlower] at hspliced ⊢
      simp only [Expr.mkUnary_of_wellFormed hspliced.2.1, Expr.mkBinary_of_wellFormed hspliced,
        ok_bind, pure_eq_ok]
    · simp only [spliced, belowUpper, if_neg hupper, if_neg hlower, ok_bind, pure_eq_ok]

theorem testBit_belowUpper (v : Valuation) (i : Nat) :
    ((belowUpper r old value).value v).value.testBit i =
    if i < r.size then (value.value v).value.testBit i
      else (old.value v).value.testBit (r.offset + i) := by
  have hinside := hr.inside
  by_cases hupper : r.offset + r.size < r.baseSize
  · have hslice :
        (Expr.unary (.extract (r.offset + r.size) (r.baseSize - (r.offset + r.size)))
            old).WellFormed s :=
      ⟨hold, by omega, by omega⟩
    rw [belowUpper, if_pos hupper, Expr.testBit_value_concat v hslice hvalue, hvalueWidth]
    split
    · rfl
    · rw [Expr.testBit_value_extract v hold, show r.offset + r.size + (i - r.size) =
        r.offset + i by omega]
      by_cases hi : r.offset + i < r.baseSize
      · simp [show i - r.size < r.baseSize - (r.offset + r.size) by omega]
      · simp [Expr.testBit_value_of_le v hold (show old.width ≤ r.offset + i by omega)]
  · rw [belowUpper, if_neg hupper]
    split
    · rfl
    · rw [Expr.testBit_value_of_le v hvalue (by omega),
        Expr.testBit_value_of_le v hold (by omega)]

theorem testBit_spliced (v : Valuation) (i : Nat) :
    ((spliced r old value).value v).value.testBit i =
    if r.offset ≤ i ∧ i < r.offset + r.size then (value.value v).value.testBit (i - r.offset)
    else (old.value v).value.testBit i := by
  obtain ⟨hhigh, -⟩ := belowUpper_wellFormed hr hold holdWidth hvalue hvalueWidth
  have hinside := hr.inside
  have hbits : ((spliced r old value).value v).value.testBit i =
      if i < r.offset then (old.value v).value.testBit i
      else ((belowUpper r old value).value v).value.testBit (i - r.offset) := by
    by_cases hlower : 0 < r.offset
    · have hslice : (Expr.unary (.extract 0 r.offset) old).WellFormed s :=
        ⟨hold, hlower, by omega⟩
      rw [spliced, if_pos hlower, Expr.testBit_value_concat v hhigh hslice,
        Expr.testBit_value_extract v hold, Nat.zero_add, Expr.width, UnaryOp.resultWidth]
      split <;> simp [*]
    · simp [spliced, show r.offset = 0 by omega]
  rw [hbits, testBit_belowUpper hr hold holdWidth hvalue hvalueWidth]
  rcases Nat.lt_or_ge i r.offset with hlow | hlow
  · rw [if_pos hlow, if_neg (by omega)]
  · rw [if_neg (by omega)]
    rcases Nat.lt_or_ge i (r.offset + r.size) with hin | hin
    · rw [if_pos (by omega), if_pos ⟨hlow, hin⟩]
    · rw [if_neg (by omega), if_neg (by omega), Nat.add_sub_cancel' hlow]

end Splice

theorem spliceWindow_refines (hr : r.Fits widths) {old value : Expr} (hold : old.WellFormed s)
    (holdWidth : old.width = r.baseSize) (hvalue : value.WellFormed s)
    (hvalueWidth : value.width = r.size) :
    ∃ e, spliceWindow r old value = .ok e ∧ e.WellFormed s ∧ e.width = r.baseSize ∧
      Memory.spliceWindow r (old.value v) (value.value v) = .ok (e.value v) := by
  obtain ⟨hspliced, hwidth⟩ := spliced_wellFormed hr hold holdWidth hvalue hvalueWidth
  obtain ⟨e, he, hequiv⟩ := Expr.simplify_sound hspliced
  refine ⟨e, ?_, hequiv.wellFormed, hequiv.width.trans hwidth, ?_⟩
  · rw [spliceWindow_eq hr hold holdWidth hvalue hvalueWidth, he]
  have hinside := hr.inside
  have hle := hr.baseSize_le
  have hpos := hr.size_pos
  obtain ⟨x, hx⟩ := hspliced.exists_bits hwidth v
  rw [Memory.spliceWindow, Word.ones_eq ⟨hpos, by omega⟩, ok_bind, hequiv.value, hx,
    Word.ofNat_eq ⟨by omega, hle⟩]
  simp only [show r.offset < 64 by omega, require_true, ok_bind, Except.ok.injEq, Word.ofBits_inj]
  -- one side masks and shifts, the other one slices and concatenates: they meet only bit by bit
  ext i hi
  have hbit := testBit_spliced hr hold holdWidth hvalue hvalueWidth v i
  rw [hx, Word.ofBits_value, BitVec.testBit_toNat, BitVec.getLsbD_eq_getElem hi] at hbit
  rw [hbit, ← BitVec.getLsbD_eq_getElem hi, BitVec.getLsbD_ofNat, Word.ofBits_value,
    BitVec.toNat_allOnes]
  simp only [hi, Nat.testBit_or, Nat.testBit_xor, Nat.testBit_and, Nat.testBit_shiftLeft,
    Nat.testBit_two_pow_sub_one, decide_true, Bool.true_and]
  rcases Nat.lt_or_ge i r.offset with hlow | hlow
  · simp [show ¬ r.offset ≤ i by omega]
  · rcases Nat.lt_or_ge i (r.offset + r.size) with hin | hin
    · simp [hlow, hin, show i - r.offset < r.size by omega]
    · simp [show ¬ i < r.offset + r.size by omega, show ¬ i - r.offset < r.size by omega,
        Expr.testBit_value_of_le v hvalue (show value.width ≤ i - r.offset by omega)]

theorem merge_refines (h : m.WellFormed s widths) (hr : r.Fits widths) {e : Expr}
    (he : e.WellFormed s) (hwidth : e.width = r.size) :
    Refines (fun x => x.WellFormed s ∧ x.width = r.baseSize) (Expr.value v)
      (m.merge r e) ((m.concretise v).merge r (e.value v)) := by
  simp only [merge, Memory.merge, he.width_value, hwidth, require_true, liftM_ok, ok_bind]
  split
  case isTrue hphysical =>
    have hsize : r.size = r.baseSize := by
      simp only [Register.isPhysical, Bool.and_eq_true, beq_iff_eq] at hphysical
      exact hphysical.2
    exact .ok ⟨he, hwidth.trans hsize⟩ rfl
  case isFalse =>
    obtain ⟨whole, hwhole, hconcrete, hgood⟩ := physical?_refines (v := v) h hr
    simp only [hwhole, hconcrete, liftM_ok, ok_bind]
    cases whole with
    | none => exact .fail _
    | some old =>
        obtain ⟨hold, holdWidth⟩ := hgood old rfl
        obtain ⟨x, hx, hxWF, hxWidth, hspliced⟩ :=
          spliceWindow_refines (v := v) hr hold holdWidth he hwidth
        simp only [Option.map_some, hx, hspliced, liftM_ok]
        exact .ok ⟨hxWF, hxWidth⟩ rfl

theorem writeRegister_refines (h : m.WellFormed s widths) (hr : r.Fits widths) {e : Expr}
    (he : e.WellFormed s) (hwidth : e.width = r.size) :
    Refines (Follows s widths m) (concretise v)
      (m.writeRegister r e) ((m.concretise v).writeRegister r (e.value v)) := by
  rw [writeRegister_eq, Memory.writeRegister_eq]
  refine (merge_refines h hr he hwidth).map (fun x hx => ?_) fun x => ?_
  · exact ⟨h.setPhysical _ hx.1 (hx.2.trans hr.baseSize), rfl, rfl⟩
  · exact (concretise_setPhysical v m r.base x).symm

end Registers

end SymbolicMemory

end FlowRecovery
