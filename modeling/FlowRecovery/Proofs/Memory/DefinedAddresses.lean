import Mathlib
import FlowRecovery.Proofs.Memory.Overwriting

namespace FlowRecovery

namespace Memory

theorem mem_insertAll {l : List (UInt64 × UInt8)} {found : Std.ExtTreeSet UInt64}
    {address : UInt64} :
    address ∈ l.foldl (fun found p => found.insert p.1) found ↔
      address ∈ found ∨ ∃ byte, (address, byte) ∈ l := by
  induction l generalizing found with
  | nil => simp
  | cons p l ih =>
      obtain ⟨first, byte⟩ := p
      rw [List.foldl_cons, ih, Std.ExtTreeSet.mem_insert, Std.LawfulEqCmp.compare_eq_iff_eq]
      simp only [List.mem_cons, Prod.mk.injEq, exists_or]
      aesop

theorem mem_definedAddresses {m : Memory} {address : UInt64} :
    address ∈ m.definedAddresses ↔ m.isDefined address = true := by
  rw [definedAddresses, isDefined, byte?]
  induction m.layers with
  | nil => simp
  | cons layer layers ih =>
      rw [List.foldr_cons, Std.ExtTreeMap.foldl_eq_foldl_toList, mem_insertAll, ih,
        List.findSome?_cons]
      simp only [Std.ExtTreeMap.mem_toList_iff_getElem?_eq_some]
      cases layer.bytes[address]? with
      | none => simp
      | some byte => simp

theorem pairwise_definedAddresses (m : Memory) : m.definedAddresses.toList.Pairwise (· < ·) := by
  refine Std.ExtTreeSet.ordered_toList.imp fun {a b} h => ?_
  exact compareOfLessAndEq_eq_lt.mp h

/-- The memories that are built from the empty one by layering and writing. -/
inductive Built : Memory → Prop
  | empty : Built .empty
  | overlay {m : Memory} (h : Built m) : Built m.overlay
  | writeByte {m : Memory} (h : Built m) (address : UInt64) (byte : UInt8) :
      Built (m.writeByte address byte)
  | writeBytes {m : Memory} (h : Built m) (address : UInt64) (bytes : List UInt8) :
      Built (m.writeBytes address bytes)
  | write {m m' : Memory} (h : Built m) {address : UInt64} {value : Word} {order : ByteOrder}
      (hwrite : m.write address value order = .ok m') : Built m'

def defined (m : Memory) : Set UInt64 :=
  {a | m.isDefined a = true}

theorem defined_empty : defined .empty = ∅ := by
  simp [defined, isDefined, byte?, layers, empty]

theorem defined_overlay (m : Memory) : m.overlay.defined = m.defined := by
  simp [defined, isDefined, byte?, overlay, layers]

theorem defined_writeByte (m : Memory) (address : UInt64) (byte : UInt8) :
    (m.writeByte address byte).defined = insert address m.defined := by
  ext a
  rw [defined, Set.mem_ofPred_eq, isDefined, byte?_writeByte, Set.mem_insert_iff]
  by_cases h : address = a
  · simp [h]
  · simp [h, Ne.symm h, defined, isDefined]

section Bounds

variable {s : Set UInt64} {least greatest : UInt64}

theorem isLeast_insert_min (h : IsLeast s least) (address : UInt64) :
    IsLeast (insert address s) (min least address) := by
  have hdef : min least address = if least ≤ address then least else address := rfl
  rw [hdef]
  split
  case isTrue hle =>
    refine ⟨.inr h.1, ?_⟩
    rintro a (rfl | ha)
    · exact hle
    · exact h.2 ha
  case isFalse hnot =>
    have hle : address ≤ least := (UInt64.le_total least address).resolve_left hnot
    refine ⟨.inl rfl, ?_⟩
    rintro a (rfl | ha)
    · exact UInt64.le_refl a
    · exact UInt64.le_trans hle (h.2 ha)

theorem isGreatest_insert_max (h : IsGreatest s greatest) (address : UInt64) :
    IsGreatest (insert address s) (max greatest address) := by
  have hdef : max greatest address = if greatest ≤ address then address else greatest := rfl
  rw [hdef]
  split
  case isTrue hle =>
    refine ⟨.inl rfl, ?_⟩
    rintro a (rfl | ha)
    · exact UInt64.le_refl a
    · exact UInt64.le_trans (h.2 ha) hle
  case isFalse hnot =>
    have hle : address ≤ greatest := (UInt64.le_total greatest address).resolve_left hnot
    refine ⟨.inr h.1, ?_⟩
    rintro a (rfl | ha)
    · exact hle
    · exact h.2 ha

end Bounds

variable {m : Memory}

/-- The bounds that a memory keeps are those of its defined addresses. -/
structure KeepsBounds (m : Memory) : Prop where
  of_none : m.addressRange = none → m.defined = ∅
  of_some {least greatest : UInt64} : m.addressRange = some (least, greatest) →
    IsLeast m.defined least ∧ IsGreatest m.defined greatest

theorem keepsBounds_empty : KeepsBounds .empty where
  of_none _ := defined_empty
  of_some h := by cases h

theorem KeepsBounds.overlay (h : m.KeepsBounds) : m.overlay.KeepsBounds where
  of_none hrange := (defined_overlay m).trans (h.of_none hrange)
  of_some hrange := by
    rw [defined_overlay]
    exact h.of_some hrange

theorem KeepsBounds.writeByte (h : m.KeepsBounds) (address : UInt64) (byte : UInt8) :
    (m.writeByte address byte).KeepsBounds where
  of_none hrange := by cases hrange
  of_some hrange := by
    rw [defined_writeByte]
    simp only [addressRange, Memory.writeByte] at hrange
    cases hold : m.top.span with
    | none =>
        rw [hold] at hrange
        cases hrange
        rw [h.of_none hold, insert_empty_eq]
        refine ⟨⟨rfl, ?_⟩, rfl, ?_⟩
        · rintro a rfl
          exact UInt64.le_refl a
        · rintro a rfl
          exact UInt64.le_refl a
    | some bounds =>
        rw [hold] at hrange
        cases hrange
        obtain ⟨hleast, hgreatest⟩ := h.of_some hold
        exact ⟨isLeast_insert_min hleast address, isGreatest_insert_max hgreatest address⟩

theorem KeepsBounds.writeBytes (h : m.KeepsBounds) (address : UInt64) (bytes : List UInt8) :
    (m.writeBytes address bytes).KeepsBounds := by
  induction bytes generalizing m address with
  | nil => exact h
  | cons byte rest ih => exact ih (h.writeByte address byte) (address + 1)

theorem KeepsBounds.writeAll (h : m.KeepsBounds) (place : Nat → UInt64) (byte : Nat → UInt8)
    (count : Nat) :
    (m.writeAll place byte count).KeepsBounds := by
  induction count with
  | zero => exact h
  | succ count ih =>
      rw [writeAll_succ]
      exact ih.writeByte (place count) (byte count)

theorem Built.keepsBounds (h : Built m) : m.KeepsBounds := by
  induction h with
  | empty => exact keepsBounds_empty
  | overlay _ ih => exact ih.overlay
  | writeByte _ address byte ih => exact ih.writeByte address byte
  | writeBytes _ address bytes ih => exact ih.writeBytes address bytes
  | @write m m' address value order _ hwrite ih =>
      obtain ⟨count, -, hcount⟩ := exists_of_bind_eq_ok hwrite
      obtain rfl := Except.ok.inj hcount
      exact ih.writeAll _ _ count

section Range

variable {least greatest : UInt64}

theorem KeepsBounds.addressRange_eq_none_iff (h : m.KeepsBounds) :
    m.addressRange = none ↔ m.defined = ∅ := by
  constructor
  · exact h.of_none
  · intro hempty
    cases hrange : m.addressRange with
    | none => rfl
    | some bounds =>
        have hleast := (h.of_some hrange).1.1
        rw [hempty] at hleast
        exact absurd hleast (Set.notMem_empty _)

theorem KeepsBounds.addressRange_eq_some_iff (h : m.KeepsBounds) :
    m.addressRange = some (least, greatest) ↔
    IsLeast m.defined least ∧ IsGreatest m.defined greatest := by
  constructor
  · exact h.of_some
  · rintro ⟨hleast, hgreatest⟩
    cases hrange : m.addressRange with
    | none =>
        have hmem := hleast.1
        rw [h.of_none hrange] at hmem
        exact absurd hmem (Set.notMem_empty _)
    | some bounds =>
        obtain ⟨hlow, hhigh⟩ := h.of_some hrange
        rw [UInt64.le_antisymm (hleast.2 hlow.1) (hlow.2 hleast.1),
          UInt64.le_antisymm (hhigh.2 hgreatest.1) (hgreatest.2 hhigh.1)]

end Range

/-- In every memory that was built by layering and writing, the defined addresses are the
collected ones, and the address range is that of the collected ones: nothing if there are none,
else the smallest and the largest one. -/
theorem addressRange_bounds_definedAddresses (h : Built m) :
    (∀ a, m.isDefined a = true ↔ a ∈ m.definedAddresses) ∧
    (m.addressRange = none ↔ ∀ a, m.isDefined a = false) ∧
    ∀ least greatest, m.addressRange = some (least, greatest) ↔
      IsLeast {a | a ∈ m.definedAddresses} least ∧
      IsGreatest {a | a ∈ m.definedAddresses} greatest := by
  have hcollected : {a | a ∈ m.definedAddresses} = m.defined := Set.ext fun _ =>
    mem_definedAddresses
  have hempty : m.defined = ∅ ↔ ∀ a, m.isDefined a = false := by
    simp [Set.eq_empty_iff_forall_notMem, defined]
  refine ⟨fun _ => mem_definedAddresses.symm, ?_, fun least greatest => ?_⟩
  · rw [h.keepsBounds.addressRange_eq_none_iff, hempty]
  · rw [h.keepsBounds.addressRange_eq_some_iff, hcollected]

/-- A write over both ends of the address space, below a layer with an address between them. -/
theorem addressRange_bounds_definedAddresses_of_wrapping :
    let m := (Memory.empty.writeBytes 0xffffffffffffffff [0xaa, 0xbb]).overlay.writeByte
      0x1000 0xcc
    m.Built ∧ m.isDefined 0 = true ∧ 0 ∈ m.definedAddresses ∧
      IsLeast {a | a ∈ m.definedAddresses} 0 ∧
      IsGreatest {a | a ∈ m.definedAddresses} 0xffffffffffffffff := by
  intro m
  have hbuilt : m.Built := ((Built.empty.writeBytes _ _).overlay).writeByte _ _
  have hrange : m.addressRange = some (0, 0xffffffffffffffff) := by decide +kernel
  have hdefined : m.isDefined 0 = true := by decide +kernel
  obtain ⟨hmem, -, hbounds⟩ := addressRange_bounds_definedAddresses hbuilt
  exact ⟨hbuilt, hdefined, (hmem 0).mp hdefined, (hbounds _ _).mp hrange⟩

end Memory

end FlowRecovery
