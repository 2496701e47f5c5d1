import Mathlib
import FlowRecovery.Proofs.Memory.Accesses
import FlowRecovery.Proofs.Memory.Overwriting

namespace FlowRecovery

namespace Register

variable {name label : String} {width first offset size : Nat} {parent r : Register}

/-- The registers that are made from a physical register by windows of at least one bit, of it and
of each other, with the number of their first bit in it. -/
inductive Derived (name : String) (width : Nat) : Register → Nat → Prop
  | physical : Derived name width (physical name width) 0
  | window {parent r : Register} {first offset size : Nat} {label : String}
      (hparent : Derived name width parent first)
      (hsize : 0 < size) (h : window label parent offset size = .ok r) : Derived name width r
        (first + offset)

theorem of_window (h : window label parent offset size = .ok r) : offset + size ≤ parent.size ∧
    r = ⟨label, parent.base, parent.offset + offset, size, parent.baseSize⟩ := by
  obtain ⟨last, hlast, h⟩ := exists_of_bind_eq_ok h
  obtain ⟨_, hrange, h⟩ := exists_of_bind_eq_ok h
  obtain ⟨start, hstart, h⟩ := exists_of_bind_eq_ok h
  cases h
  obtain rfl := eq_add_of_addWidths hlast
  obtain rfl := eq_add_of_addWidths hstart
  exact ⟨of_require_eq_ok hrange, rfl⟩

/-- A slice of a physical register of some width. -/
structure IsSlice (name : String) (width : Nat) (r : Register) (first : Nat) : Prop where
  base : r.base = name
  baseSize : r.baseSize = width
  offset : r.offset = first
  size_pos : 0 < r.size
  inside : first + r.size ≤ width

theorem Derived.isSlice (hw : Word.ValidWidth width) (h : Derived name width r first) :
    r.IsSlice name width first := by
  induction h with
  | physical => exact ⟨rfl, rfl, rfl, hw.1, (Nat.zero_add width).le⟩
  | window _ hsize h ih =>
      obtain ⟨hrange, rfl⟩ := of_window h
      refine ⟨ih.base, ih.baseSize, congrArg (· + _) ih.offset, hsize, ?_⟩
      have hinside := ih.inside
      dsimp only
      omega

theorem IsSlice.fits (hw : Word.ValidWidth width) (h : r.IsSlice name width first) :
    r.Fits fun _ => width := by
  refine ⟨h.baseSize, h.size_pos, ?_, ?_⟩
  · rw [h.offset, h.baseSize]
    exact h.inside
  · rw [h.baseSize]
    exact hw.2

end Register

namespace Memory

variable {m : Memory} {name : String} {width first : Nat} {r : Register} {old : BitVec width}

theorem readRegister_slice (hw : Word.ValidWidth width) (hr : r.IsSlice name width first)
    (h : m.physical? name = some (.ofBits old)) :
    m.readRegister r = .ok (.ofBits (old.extractLsb' first r.size)) := by
  have hfits := hr.fits hw
  obtain ⟨rfl, rfl, rfl, -, -⟩ := hr
  exact readRegister_of_physical? hfits h

/-- The bits of a slice are the ones that are written, and the others stay. -/
theorem exists_writeRegister_slice (hw : Word.ValidWidth width) (hr : r.IsSlice name width first)
    (h : m.physical? name = some (.ofBits old)) (v : BitVec r.size) :
    ∃ new : BitVec width, m.writeRegister r (.ofBits v) = .ok (m.setPhysical name (.ofBits new)) ∧
      ∀ k, new.getLsbD k = if first ≤ k ∧ k < first + r.size then v.getLsbD (k - first)
        else old.getLsbD k := by
  have hfits := hr.fits hw
  obtain ⟨rfl, rfl, rfl, -, -⟩ := hr
  obtain ⟨new, hwrite, hinside, houtside⟩ := exists_writeRegister hfits h v
  refine ⟨new, hwrite, fun k => ?_⟩
  split
  case isTrue hk =>
    rw [← hinside, BitVec.getLsbD_extractLsb', Nat.add_sub_cancel' hk.1]
    simp [show k - r.offset < r.size by omega]
  case isFalse hk => exact houtside k (by omega)

theorem merge_of_undefined (hr : r.IsSlice name width first) (hproper : r.size < width)
    (h : m.physical? name = none) (v : BitVec r.size) :
    m.merge r (.ofBits v) = .fail (.register name) := by
  obtain ⟨rfl, rfl, -, -, -⟩ := hr
  -- a part is written into the old value, which is missing
  have hwindow : r.isPhysical = false := by simp [Register.isPhysical, hproper.ne]
  simp only [merge, Word.ofBits_width, require_true, liftM_ok, ok_bind, hwindow, h]
  rfl

theorem readRegister_window (hw : Word.ValidWidth width) (hr : r.IsSlice name width first)
    (h : m.physical? name = some (.ofBits old)) {label : String} {offset size : Nat}
    {part : Register} (hsize : 0 < size)
    (hpart : Register.window label r offset size = .ok part) :
    ∃ x y, m.readRegister r = .ok x ∧ x.extract offset size = .ok y ∧
      m.readRegister part = .ok y := by
  obtain ⟨hrange, rfl⟩ := Register.of_window hpart
  have hinside := hr.inside
  have hvalid : Word.ValidWidth r.size :=
    ⟨hr.size_pos, (Nat.le_of_add_left_le hinside).trans hw.2⟩
  refine ⟨_, _, readRegister_slice hw hr h, Word.extract_ofBits hvalid _ hsize hrange, ?_⟩
  rw [slice_slice _ hrange]
  exact readRegister_slice hw
    ⟨hr.base, hr.baseSize, congrArg (· + offset) hr.offset, hsize, by dsimp only; omega⟩ h

/-- Windows behave as slices of bits, however they are nested. After a write through one of them,
another one holds the bits of the value where the two meet and its old bits elsewhere. A window of
a register is read as the slice of what is read of the register. While the physical register is
undefined, a write to a part of it reports it and leaves the memory as it was. -/
theorem register_windows_are_slices (hw : Word.ValidWidth width) {a b : Register} {i j : Nat}
    (ha : a.Derived name width i) (hb : b.Derived name width j) (m : Memory) (v : BitVec a.size) :
    (∀ old : BitVec width, m.physical? name = some (.ofBits old) →
      (∃ (m' : Memory) (before after : BitVec b.size), m.readRegister b = .ok (.ofBits before) ∧
        m.writeRegister a (.ofBits v) = .ok m' ∧ m'.readRegister b = .ok (.ofBits after) ∧
        ∀ k < b.size, after.getLsbD k =
          if i ≤ j + k ∧ j + k < i + a.size then v.getLsbD (j + k - i) else before.getLsbD k) ∧
      ∀ label offset size part, 0 < size → Register.window label a offset size = .ok part →
        ∃ x y, m.readRegister a = .ok x ∧ x.extract offset size = .ok y ∧
          m.readRegister part = .ok y) ∧
    (m.physical? name = none → a.size < width →
      m.writeRegister a (.ofBits v) = .fail (.register name) ∧ ∀ order,
        Access.run (Memory.perform order) [.writeRegister a (.ofBits v)] m =
          .ok ([.error (.register name)], m)) := by
  have hsliceA := ha.isSlice hw
  have hsliceB := hb.isSlice hw
  refine ⟨fun old hold => ⟨?_, ?_⟩, fun hundefined hproper => ?_⟩
  · obtain ⟨new, hwrite, hbits⟩ := exists_writeRegister_slice hw hsliceA hold v
    have hnew : (m.setPhysical name (.ofBits new)).physical? name = some (.ofBits new) := by
      rw [physical?_setPhysical, if_pos rfl]
    refine ⟨_, _, _, readRegister_slice hw hsliceB hold, hwrite,
      readRegister_slice hw hsliceB hnew, fun k hk => ?_⟩
    simp only [BitVec.getLsbD_extractLsb', hk, decide_true, Bool.true_and, hbits]
  · intro label offset size part hsize hpart
    exact readRegister_window hw hsliceA hold hsize hpart
  · have hfails := merge_of_undefined hsliceA hproper hundefined v
    refine ⟨?_, fun order => ?_⟩
    · rw [writeRegister_eq, hfails]
      rfl
    · have hperform := run_writeRegister order m a (.ofBits v)
      rw [hfails] at hperform
      rw [Access.run_cons hperform]
      rfl

/-- The second byte of a register, as a window of its lower half, over a value from the layer
below. -/
theorem register_windows_are_slices_of_second_byte :
    let ax : Register := ⟨"ax", "eax", 0, 16, 32⟩
    let ah : Register := ⟨"ah", "eax", 8, 8, 32⟩
    let m : Memory :=
      ⟨{}, [{ registers := Std.ExtTreeMap.insert ∅ "eax" (.ofBits 0x12345678#32) }]⟩
    (ah.Derived "eax" 32 8 ∧ ax.Derived "eax" 32 0 ∧
      m.physical? "eax" = some (.ofBits 0x12345678#32) ∧
      Memory.empty.physical? "eax" = none) ∧
    (∃ (m' : Memory) (before after : BitVec 16), m.readRegister ax = .ok (.ofBits before) ∧
      m.writeRegister ah (.ofBits 0xaa#8) = .ok m' ∧ m'.readRegister ax = .ok (.ofBits after) ∧
      (∀ k < 8, after.getLsbD k = before.getLsbD k) ∧
      ∀ k < 8, after.getLsbD (8 + k) = (0xaa#8).getLsbD k) ∧
    (∃ x y, m.readRegister ax = .ok x ∧ x.extract 8 8 = .ok y ∧ m.readRegister ah = .ok y) ∧
    Memory.empty.writeRegister ah (.ofBits 0xaa#8) = .fail (.register "eax") := by
  intro ax ah m
  have hlower : Register.window "ax" (.physical "eax" 32) 0 16 = .ok ax := rfl
  have hsecond : Register.window "ah" ax 8 8 = .ok ah := rfl
  have hax : ax.Derived "eax" 32 0 := .window .physical (by decide) hlower
  have hah : ah.Derived "eax" 32 8 := .window hax (by decide) hsecond
  have hdefined : m.physical? "eax" = some (.ofBits 0x12345678#32) := by decide +kernel
  have hundefined : Memory.empty.physical? "eax" = none := by decide +kernel
  refine ⟨⟨hah, hax, hdefined, hundefined⟩, ?_, ?_, ?_⟩
  · obtain ⟨m', before, after, hbefore, hwrite, hafter, hbits⟩ :=
      ((register_windows_are_slices (by decide) hah hax m 0xaa#8).1 _ hdefined).1
    refine ⟨m', before, after, hbefore, hwrite, hafter, fun k hk => ?_, fun k hk => ?_⟩
    · have hbit := hbits k (show k < 16 by omega)
      rwa [if_neg (by omega)] at hbit
    · have hbit := hbits (8 + k) (show 8 + k < 16 by omega)
      rwa [if_pos (show 8 ≤ 0 + (8 + k) ∧ 0 + (8 + k) < 8 + 8 by omega), Nat.zero_add,
        Nat.add_sub_cancel_left] at hbit
  · exact ((register_windows_are_slices (by decide) hax hax m 0#16).1 _ hdefined).2 "ah" 8 8 ah
      (by decide) hsecond
  · exact ((register_windows_are_slices (by decide) hah hax Memory.empty 0xaa#8).2 hundefined
      (by decide)).1

end Memory

end FlowRecovery
