import Mathlib
import FlowRecovery.Proofs.Memory.ReadOverWrite
import FlowRecovery.Proofs.X86.Arithmetic

namespace FlowRecovery

namespace Memory

variable {m : Memory} {address : UInt64} {order : ByteOrder}

theorem read_byte {byte : UInt8} (h : m.byte? address = some byte) :
    m.read address 8 order = .ok (.ofBits byte.toBitVec) := by
  refine (read_eq_ok_iff (by decide) rfl).mpr fun j hj => ?_
  obtain rfl : j = 0 := Nat.lt_one_iff.mp hj
  have hrank : order.rank 1 0 = 0 := Nat.lt_one_iff.mp (order.rank_lt Nat.one_pos)
  have hstart : address + UInt64.ofNat 0 = address := UInt64.add_zero address
  rw [hstart, h, Option.some_inj]
  show byte = UInt8.ofBitVec (byte.toBitVec.extractLsb' (8 * order.rank 1 0) 8)
  rw [hrank, Nat.mul_zero, BitVec.extractLsb'_eq_self]

theorem write_byte (m : Memory) (address : UInt64) (byte : UInt8) (order : ByteOrder) :
    m.write address (.ofBits byte.toBitVec) order = .ok (m.writeByte address byte) := by
  have hcount : byteCount 8 = .ok 1 := rfl
  have hplace : order.place address 1 0 = address := by
    rw [order.place_eq, Nat.lt_one_iff.mp (order.rank_lt Nat.one_pos)]
    exact UInt64.add_zero address
  rw [write, Word.ofBits_width, hcount, ok_bind]
  simp [hplace]

end Memory

namespace X86

def cellAt (start : BitVec 32) (distance : Nat) : UInt64 :=
  UInt64.ofNat (start + BitVec.ofNat 32 distance).toNat

namespace StringSource

/-- The byte that comes after a number of others. -/
def byte? (m : Memory) (k : Nat) : StringSource → Option UInt8
  | cells start => m.byte? (cellAt start k)
  | accumulator fill => some fill

/-- The register of a source is ready for the byte that comes after a number of others. -/
def Ready (m : Memory) (k : Nat) : StringSource → Prop
  | cells start => m.readRegister Gpr.esi.register = .ok (.ofBits (start + BitVec.ofNat 32 k))
  | accumulator fill => m.readRegister Gpr.al.register = .ok (.ofBits fill.toBitVec)

/-- The registers that a repeated instruction changes. -/
def changed : StringSource → List String
  | cells _ => ["ecx", "edi", "esi"]
  | accumulator _ => ["ecx", "edi"]

/-- The memory after a loop that moves a number of bytes, one after the other, if all of them are
defined when they are read. -/
def move? (source : StringSource) (target : BitVec 32) (count : Nat) (m : Memory) :
    Option Memory :=
  (List.range count).foldlM (fun m k => (source.byte? m k).map (m.writeByte (cellAt target k))) m

end StringSource

section Passes

variable {source : StringSource} {m m₀ : Memory} {order : ByteOrder}
  {count target : BitVec 32} {k : Nat} {byte : UInt8} {name : String}

namespace StringSource

theorem denotes_value (source : StringSource) (order : ByteOrder) (k : Nat) (byte : UInt8) :
    Denotes order (fun m => source.Ready m k ∧ source.byte? m k = some byte) byte.toBitVec
      source.value := by
  cases source with
  | cells start =>
      have haddress : Denotes order
          (fun m => (cells start).Ready m k ∧ (cells start).byte? m k = some byte)
          (start + BitVec.ofNat 32 k) Gpr.esi.expr := Gpr.denotes_dword rfl And.left
      exact haddress.cellNode (by decide) rfl fun hm => Memory.read_byte hm.2
  | accumulator fill =>
      refine ⟨Gpr.al.term, trivial, ?_⟩
      rintro m ⟨hready, hbyte⟩
      cases hbyte
      exact hready

theorem byte?_congr {m' : Memory} (source : StringSource) (h : ∀ a, m'.byte? a = m.byte? a)
    (k : Nat) :
    source.byte? m' k = source.byte? m k := by
  cases source with
  | cells start => exact h _
  | accumulator fill => rfl

theorem move?_succ (source : StringSource) (target : BitVec 32) (k : Nat) (m : Memory) :
    source.move? target (k + 1) m =
      (source.move? target k m).bind fun m =>
        (source.byte? m k).map (m.writeByte (cellAt target k)) := by
  rw [move?, List.range_succ, List.foldlM_append]
  simp [move?]

theorem isSome_move? {n : Nat} (hk : k ≤ n) (h : (source.move? target n m).isSome) :
    (source.move? target k m).isSome := by
  induction n, hk using Nat.le_induction with
  | base => exact h
  | succ n _ ih =>
      rw [move?_succ] at h
      exact ih (Option.isSome_of_isSome_bind h)

/-- The memory after the source went on to the byte that comes after a number of others. -/
def advance (m : Memory) (k : Nat) : StringSource → Memory
  | cells start => m.setPhysical "esi" (.ofBits (start + BitVec.ofNat 32 k))
  | accumulator _ => m

theorem byte?_advance (source : StringSource) (m : Memory) (k : Nat) (address : UInt64) :
    (source.advance m k).byte? address = m.byte? address := by
  cases source <;> rfl

theorem physical?_advance (source : StringSource) (m : Memory) (k : Nat)
    (h : "esi" ≠ name ∨ name ∉ source.changed) :
    (source.advance m k).physical? name = m.physical? name := by
  cases source with
  | cells start =>
      have hne : "esi" ≠ name := by
        rintro rfl
        exact h.elim (fun h => h rfl) fun h => h (List.mem_of_elem_eq_true rfl)
      rw [advance, Memory.physical?_setPhysical, if_neg hne]
  | accumulator fill => rfl

theorem Ready.advance (h : source.Ready m k) (n : Nat) : source.Ready (source.advance m n) n := by
  cases source with
  | cells start => exact Gpr.readRegister_setPhysical rfl _ _
  | accumulator fill => exact h

theorem Ready.congr {m' : Memory} (h : source.Ready m k)
    (hesi : m'.physical? "esi" = m.physical? "esi")
    (heax : m'.physical? "eax" = m.physical? "eax") : source.Ready m' k := by
  cases source with
  | cells start => exact (Memory.readRegister_congr hesi).trans h
  | accumulator fill => exact (Memory.readRegister_congr heax).trans h

/-- A number of bytes were moved, starting from a memory. -/
structure Moved (m₀ : Memory) (count target : BitVec 32) (k : Nat) (m : Memory)
    (source : StringSource) : Prop where
  counter : m.readRegister Gpr.ecx.register = .ok (.ofBits (count - BitVec.ofNat 32 k))
  place : m.readRegister Gpr.edi.register = .ok (.ofBits (target + BitVec.ofNat 32 k))
  ready : source.Ready m k
  register {name : String} : name ∉ source.changed → m.physical? name = m₀.physical? name
  bytes : ∃ moved, source.move? target k m₀ = some moved ∧ ∀ a, m.byte? a = moved.byte? a

/-- The memory after one more byte was moved and counted. -/
def moveOne (source : StringSource) (count target : BitVec 32) (k : Nat) (byte : UInt8)
    (m : Memory) : Memory :=
  ((source.advance (m.writeByte (cellAt target k) byte) (k + 1)).setPhysical "edi"
    (.ofBits (target + BitVec.ofNat 32 (k + 1)))).setPhysical "ecx"
    (.ofBits (count - BitVec.ofNat 32 (k + 1)))

theorem Moved.exec_store (h : source.Moved m₀ count target k m)
    (hbyte : source.byte? m k = some byte) (order : ByteOrder) :
    m.exec order default (.assign (.mem Gpr.edi.expr 0 8) source.value) =
      .ok (m.writeByte (cellAt target k) byte) := by
  have hvalue := (source.denotes_value order k byte).eval ⟨h.ready, hbyte⟩
  have haddress : m.eval order default Gpr.edi.expr =
      .ok (.ofBits (target + BitVec.ofNat 32 k)) := h.place
  rw [Memory.exec, hvalue, ok_bind, haddress, ok_bind, cellAddress_ofBits, liftM_ok, ok_bind,
    Memory.write_byte, liftM_ok, cellAt]

theorem exec_oneMore (order : ByteOrder) {r : Gpr} (hr : r.size = .dword) {x : BitVec 32}
    (h : m.readRegister r.register = .ok (.ofBits (x + BitVec.ofNat 32 k))) :
    m.exec order default (.assign r.expr (oneMore r)) =
      .ok (m.setPhysical r.name (.ofBits (x + BitVec.ofNat 32 (k + 1)))) := by
  rw [BitVec.ofNat_add, ← BitVec.add_assoc]
  exact (denotes_oneMore order hr _).exec_register hr h

theorem exec_oneLess (order : ByteOrder)
    (h : m.readRegister Gpr.ecx.register = .ok (.ofBits (count - BitVec.ofNat 32 k))) :
    m.exec order default (.assign Gpr.ecx.expr (oneLess .ecx)) =
      .ok (m.setPhysical "ecx" (.ofBits (count - BitVec.ofNat 32 (k + 1)))) := by
  rw [BitVec.ofNat_add, ← sub_sub]
  exact (denotes_oneLess order rfl _).exec_register rfl h

theorem Moved.execAll_steps (h : source.Moved m₀ count target k m)
    (hbyte : source.byte? m k = some byte) (order : ByteOrder) :
    m.execAll order (.assign (.mem Gpr.edi.expr 0 8) source.value :: source.steps) =
      .ok (source.advance (m.writeByte (cellAt target k) byte) (k + 1)) := by
  have hstart : m.execAll order [] = .ok m := rfl
  have hstore := Memory.execAll_concat hstart (h.exec_store hbyte order)
  cases source with
  | cells start => exact Memory.execAll_concat hstore (exec_oneMore order rfl h.ready)
  | accumulator fill => exact hstore

theorem Moved.execAll_pass (h : source.Moved m₀ count target k m)
    (hbyte : source.byte? m k = some byte) (order : ByteOrder) (next : Location) :
    m.execAll order ((source.loop next).body ++ [(source.loop next).last]) =
      .ok (source.moveOne count target k byte m) := by
  let m₁ := source.advance (m.writeByte (cellAt target k) byte) (k + 1)
  have hkept {name : String} (hname : "esi" ≠ name) : m₁.physical? name = m.physical? name :=
    source.physical?_advance _ _ (.inl hname)
  have hedi := (Memory.readRegister_congr (hkept (by decide))).trans h.place
  have hecx := (Memory.readRegister_congr (hkept (by decide))).trans h.counter
  have hbody : m.execAll order (source.loop next).body = _ :=
    Memory.execAll_concat (h.execAll_steps hbyte order) (exec_oneMore order rfl hedi)
  refine Memory.execAll_concat hbody (exec_oneLess order ?_)
  exact (Memory.readRegister_setPhysical_of_ne (by decide)).trans hecx

theorem byte?_moveOne (source : StringSource) (address : UInt64) :
    (source.moveOne count target k byte m).byte? address =
      if cellAt target k = address then some byte else m.byte? address :=
  (source.byte?_advance _ _ _).trans (Memory.byte?_writeByte m _ address byte)

theorem physical?_moveOne (source : StringSource) (h : name ∉ source.changed) :
    (source.moveOne count target k byte m).physical? name = m.physical? name := by
  have hne : "ecx" ≠ name ∧ "edi" ≠ name := by
    constructor
    all_goals
      rintro rfl
      cases source <;> exact h (List.mem_of_elem_eq_true rfl)
  obtain ⟨hecx, hedi⟩ := hne
  rw [moveOne, Memory.physical?_setPhysical, if_neg hecx,
    Memory.physical?_setPhysical, if_neg hedi, source.physical?_advance _ _ (.inr h),
    Memory.physical?_writeByte]

theorem Ready.moveOne (h : source.Ready m k) :
    source.Ready (source.moveOne count target k byte m) (k + 1) := by
  have hwritten : source.Ready (m.writeByte (cellAt target k) byte) k := h.congr rfl rfl
  refine (hwritten.advance (k + 1)).congr ?_ ?_
  all_goals rw [StringSource.moveOne, Memory.physical?_setPhysical, if_neg (by decide),
    Memory.physical?_setPhysical, if_neg (by decide)]

theorem Moved.exists_pass (h : source.Moved m₀ count target k m)
    (hmoved : (source.move? target (k + 1) m₀).isSome) (order : ByteOrder) (next : Location) :
    ∃ m', m.execAll order ((source.loop next).body ++ [(source.loop next).last]) = .ok m' ∧
      source.Moved m₀ count target (k + 1) m' := by
  obtain ⟨moved, hmove, hbytes⟩ := h.bytes
  -- the byte is read from the memory with all writes before, so one that was moved there may be
  -- moved once more
  rw [move?_succ, hmove, Option.bind_some, Option.isSome_map] at hmoved
  obtain ⟨byte, hbyte⟩ := Option.isSome_iff_exists.mp hmoved
  refine ⟨_, h.execAll_pass ((source.byte?_congr hbytes k).trans hbyte) order next, ?_⟩
  constructor
  · exact Gpr.readRegister_setPhysical rfl _ _
  · rw [moveOne, Memory.readRegister_setPhysical_of_ne (by decide)]
    exact Gpr.readRegister_setPhysical rfl _ _
  · exact h.ready.moveOne
  · intro name hname
    exact (source.physical?_moveOne hname).trans (h.register hname)
  · refine ⟨moved.writeByte (cellAt target k) byte, ?_, fun a => ?_⟩
    · rw [move?_succ, hmove, Option.bind_some, hbyte, Option.map_some]
    · rw [source.byte?_moveOne, Memory.byte?_writeByte, hbytes]

theorem Moved.start (hcount : m.readRegister Gpr.ecx.register = .ok (.ofBits count))
    (htarget : m.readRegister Gpr.edi.register = .ok (.ofBits target))
    (hsource : source.Ready m 0) :
    source.Moved m count target 0 m where
  counter := by rw [hcount, BitVec.sub_zero]
  place := by rw [htarget, BitVec.add_zero]
  ready := hsource
  register _ := rfl
  bytes := ⟨m, rfl, fun _ => rfl⟩

theorem Moved.ends (h : source.Moved m₀ count target k m) (hk : k ≤ count.toNat)
    (order : ByteOrder) (next : Location) :
    (source.loop next).Ends order m (k == count.toNat) := by
  have hzero : (count - BitVec.ofNat 32 k == 0#32) = (k == count.toNat) := by
    rw [Bool.eq_iff_iff, beq_iff_eq, beq_iff_eq]
    show count - BitVec.ofNat 32 k = 0 ↔ _
    rw [sub_eq_zero, ← BitVec.toNat_inj, BitVec.toNat_ofNat,
      Nat.mod_eq_of_lt (Nat.lt_of_le_of_lt hk count.isLt), eq_comm]
  have htest := denotes_countedDown order (count - BitVec.ofNat 32 k)
  rw [hzero] at htest
  constructor
  · rw [Word.ofBool_eq]
    exact htest.eval h.counter
  · rw [Word.ofBool_eq, ← BitVec.not_ofBool]
    exact htest.not.eval h.counter

end StringSource

end Passes

section Repetition

variable {widths : String → Nat} {sim : Simulator} {d : Discovery} {s : State} {i : Instruction}
  {count target : BitVec 32}

/-- A repeated string instruction gets to the next instruction after as many passes as its counter
says, and leaves the memory that a loop over the bytes leaves. -/
theorem repeated_string_executes (source : StringSource) (h : Faces widths sim d s i)
    (hm : i.mnemonic = source.mnemonic) (hrepeated : i.repetition.isSome)
    (hcount : s.machine.readRegister Gpr.ecx.register = .ok (.ofBits count))
    (htarget : s.machine.readRegister Gpr.edi.register = .ok (.ofBits target))
    (hsource : source.Ready s.machine 0) {moved : Memory}
    (hmoved : source.move? target count.toNat s.machine = some moved) :
    ∃ d' s', sim.Walks d s ((List.replicate count.toNat ((source.loop
        (.boundary (following i.address i.bytes.length))).pass i.address)).flatten ++
          [.boundary i.address]) d' s' ∧
      s.Reaches widths (.boundary (following i.address i.bytes.length)) s'.machine s' ∧
      s'.machine.readRegister Gpr.ecx.register = .ok (.ofBits 0#32) ∧
      s'.machine.readRegister Gpr.edi.register = .ok (.ofBits (target + count)) ∧
      source.Ready s'.machine count.toNat ∧
      (∀ name ∉ source.changed, s'.machine.physical? name = s.machine.physical? name) ∧
      ∀ address, s'.machine.byte? address = moved.byte? address := by
  have hlower (next : Location) :
      Lowering.lower i next = Lowering.string i next source.loads := by
    rw [Lowering.lower, hm]
    cases source <;> rfl
  have hsome : ¬ i.repetition.isNone = true := by
    rw [Option.isNone_iff_eq_none]
    exact Option.ne_none_iff_isSome.mpr hrepeated
  obtain ⟨mc, hoffers, hin, -⟩ := h.offers_lowered Loop.In.congr fun mc hfree => by
    rw [hlower]
    exact (source.emits_loop hsome rfl mc).imp fun hloops => hloops.lowered hfree
  have hWF := (source.wellFormed_loop (.boundary (following i.address i.bytes.length))).mono
    h.onMemory
  let Inv (k : Nat) (m : Memory) : Prop := source.Moved s.machine count target k m
  have hstart : Inv 0 s.machine := .start hcount htarget hsource
  have hpass (k : Nat) (hk : k < count.toNat) : (source.move? target (k + 1) s.machine).isSome :=
    StringSource.isSome_move? hk (Option.isSome_of_eq_some hmoved)
  obtain ⟨d', s', hwalks, hreaches, hend⟩ :=
    Simulator.exists_loop hin hWF hoffers h.concrete h.pc hstart
    (fun k hk m hInv => StringSource.Moved.ends hInv hk _ _) fun k hk m hInv =>
      StringSource.Moved.exists_pass hInv (hpass k hk) _ _
  have hall : BitVec.ofNat 32 count.toNat = count := by
    rw [BitVec.ofNat_toNat, BitVec.setWidth_eq]
  obtain ⟨_, hmoved', hbytes⟩ := hend.bytes
  cases hmoved.symm.trans hmoved'
  refine ⟨d', s', hwalks, hreaches, ?_, ?_, hend.ready, fun name => hend.register, hbytes⟩
  · rw [hend.counter, hall, BitVec.sub_self]
  · rw [hend.place, hall]

/-- Three bytes from a place below the end of the 32-bit addresses to the one after it. Only the
first of them is defined before, and the others are the copies of it. With the accumulator as
their source the three bytes are its low one. -/
theorem repeated_string_executes_of_overlapping :
    let image : Memory := ⟨{
      registers :=
        (((Std.ExtTreeMap.insert ∅ "eax" ⟨32, 0x12345678⟩).insert "ecx" ⟨32, 3⟩).insert "edi"
          ⟨32, 0xfffffffe⟩).insert "esi" ⟨32, 0xfffffffd⟩
      bytes := .ofList ([(0x1000, 0xf3), (0x1001, 0xa4), (0x1010, 0xf3), (0x1011, 0xaa),
        (0xfffffffd, 0xab)] : List (UInt64 × UInt8)) }, []⟩
    let sim : Simulator := ⟨decoder fun _ => none, .enumerating, image, {}⟩
    let s (address : UInt64) : State := ⟨.boundary address, .ofImage image .little, .bool true⟩
    let movsb : Instruction := ⟨0x1000, [0xf3, 0xa4], some .rep, .movsb, []⟩
    let stosb : Instruction := ⟨0x1010, [0xf3, 0xaa], some .rep, .stosb, []⟩
    (Faces (X86.widths image) sim {} (s 0x1000) movsb ∧
      ∃ d' s', sim.Walks {} (s 0x1000)
        ((List.replicate 3 ((List.range 5).map (Location.mk 0x1000))).flatten ++
          [.boundary 0x1000]) d' s' ∧ s'.pc = .boundary 0x1002 ∧
        s'.machine.readRegister Gpr.ecx.register = .ok ⟨32, 0⟩ ∧
        s'.machine.readRegister Gpr.edi.register = .ok ⟨32, 1⟩ ∧
        s'.machine.readRegister Gpr.esi.register = .ok ⟨32, 0⟩ ∧
        [0xfffffffe, 0xffffffff, 0].map s'.machine.byte? = List.replicate 3 (some 0xab)) ∧
    Faces (X86.widths image) sim {} (s 0x1010) stosb ∧
      ∃ d' s', sim.Walks {} (s 0x1010)
        ((List.replicate 3 ((List.range 4).map (Location.mk 0x1010))).flatten ++
          [.boundary 0x1010]) d' s' ∧ s'.pc = .boundary 0x1012 ∧
        s'.machine.readRegister Gpr.ecx.register = .ok ⟨32, 0⟩ ∧
        s'.machine.readRegister Gpr.edi.register = .ok ⟨32, 1⟩ ∧
        s'.machine.physical? "esi" = some ⟨32, 0xfffffffd⟩ ∧
        [0xfffffffe, 0xffffffff, 0].map s'.machine.byte? = List.replicate 3 (some 0x78) := by
  intro image sim s movsb stosb
  have himage : image.StoresPhysical registers :=
    ((((Memory.storesPhysical_ofBytes _ _).setPhysical (by decide)
      (by decide +kernel)).setPhysical (by decide) (by decide +kernel)).setPhysical (by decide)
      (by decide +kernel)).setPhysical (by decide) (by decide +kernel)
  have hmovsb : Faces (X86.widths image) sim {} (s 0x1000) movsb :=
    faces_ofImage (i := movsb) himage (by decide +kernel) _ _ _
  have hstosb : Faces (X86.widths image) sim {} (s 0x1010) stosb :=
    faces_ofImage (i := stosb) himage (by decide +kernel) _ _ _
  have hcount : image.readRegister Gpr.ecx.register = .ok (.ofBits 3#32) := by decide +kernel
  have htarget : image.readRegister Gpr.edi.register = .ok (.ofBits 0xfffffffe#32) := by
    decide +kernel
  have hesi : image.readRegister Gpr.esi.register = .ok (.ofBits 0xfffffffd#32) := by
    decide +kernel
  have hal : image.readRegister Gpr.al.register = .ok (.ofBits 0x78#8) := by decide +kernel
  refine ⟨⟨hmovsb, ?_⟩, hstosb, ?_⟩
  · obtain ⟨d', s', hwalks, hreaches, hecx, hedi, hesi, -, hbytes⟩ :=
      repeated_string_executes (.cells 0xfffffffd#32) hmovsb rfl rfl hcount htarget hesi rfl
    refine ⟨d', s', hwalks, hreaches.pc, hecx, hedi, hesi, ?_⟩
    rw [funext hbytes]
    decide +kernel
  · obtain ⟨d', s', hwalks, hreaches, hecx, hedi, -, hkept, hbytes⟩ :=
      repeated_string_executes (.accumulator 0x78) hstosb rfl rfl hcount htarget hal rfl
    refine ⟨d', s', hwalks, hreaches.pc, hecx, hedi, (hkept "esi" (by decide)).trans
      (by decide +kernel), ?_⟩
    rw [funext hbytes]
    decide +kernel

end Repetition

end X86

end FlowRecovery
