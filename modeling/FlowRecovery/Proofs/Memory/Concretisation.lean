import Mathlib
import FlowRecovery.Memory.Symbolic
import FlowRecovery.Proofs.Expr.Simplification

namespace FlowRecovery

section Outcomes

variable {ε α β α' β' : Type}

/-- A symbolic attempt stands for a concrete one: the two succeed with a good symbolic result that
denotes the concrete one, or they fail with the same error. -/
def Refines (good : α → Prop) (denote : α → β) (symbolic : Attempt ε α) (concrete : Attempt ε β) :
    Prop :=
  (∃ a, symbolic = .ok a ∧ good a ∧ concrete = .ok (denote a)) ∨
    ∃ error, symbolic = .fail error ∧ concrete = .fail error

variable {good : α → Prop} {denote : α → β} {good' : α' → Prop} {denote' : α' → β'}

theorem Refines.ok {a : α} {b : β} (ha : good a) (hb : b = denote a) :
    Refines (ε := ε) good denote (.ok a) (.ok b) :=
  .inl ⟨a, rfl, ha, by rw [hb]⟩

theorem Refines.fail (error : ε) : Refines good denote (.fail error) (.fail error) :=
  .inr ⟨error, rfl, rfl⟩

theorem Refines.map {symbolic : Attempt ε α} {concrete : Attempt ε β}
    (h : Refines good denote symbolic concrete) {f : α → α'} {g : β → β'}
    (hgood : ∀ a, good a → good' (f a)) (hdenote : ∀ a, g (denote a) = denote' (f a)) :
    Refines good' denote' (symbolic.map f) (concrete.map g) := by
  rcases h with ⟨a, rfl, ha, rfl⟩ | ⟨error, rfl, rfl⟩
  · exact .ok (hgood a ha) (hdenote a)
  · exact .fail error

theorem Refines.bind {symbolic : Attempt ε α} {concrete : Attempt ε β}
    (h : Refines good denote symbolic concrete) {f : α → Attempt ε α'} {g : β → Attempt ε β'}
    (hf : ∀ a, good a → Refines good' denote' (f a) (g (denote a))) :
    Refines good' denote' (symbolic >>= f) (concrete >>= g) := by
  rcases h with ⟨a, rfl, ha, rfl⟩ | ⟨error, rfl, rfl⟩
  · exact hf a ha
  · exact .fail error

/-- An attempt that breaks no contract: it succeeds with a good result or fails. -/
def Yields (good : α → Prop) (attempt : Attempt ε α) : Prop :=
  (∃ a, attempt = .ok a ∧ good a) ∨ ∃ error, attempt = .fail error

theorem Yields.ok {a : α} (ha : good a) : Yields (ε := ε) good (.ok a) :=
  .inl ⟨a, rfl, ha⟩

theorem Yields.of_eq_ok {attempt : Attempt ε α} (h : Yields good attempt) {a : α}
    (ha : attempt = .ok a) :
    good a := by
  rcases h with ⟨b, rfl, hb⟩ | ⟨error, rfl⟩
  · cases ha
    exact hb
  · cases ha

theorem Yields.bind {attempt : Attempt ε α} (h : Yields good attempt) {f : α → Attempt ε α'}
    (hf : ∀ a, good a → Yields good' (f a)) : Yields good' (attempt >>= f) := by
  rcases h with ⟨a, rfl, ha⟩ | ⟨error, rfl⟩
  · exact hf a ha
  · exact .inr ⟨error, rfl⟩

theorem Yields.imp {attempt : Attempt ε α} (h : Yields good attempt) {better : α → Prop}
    (himp : ∀ a, good a → better a) : Yields better attempt := by
  rcases h with ⟨a, rfl, ha⟩ | ⟨error, rfl⟩
  · exact .ok (himp a ha)
  · exact .inr ⟨error, rfl⟩

theorem Refines.yields {symbolic : Attempt ε α} {concrete : Attempt ε β}
    (h : Refines good denote symbolic concrete) :
    Yields (fun a => good a ∧ concrete = .ok (denote a)) symbolic := by
  rcases h with ⟨a, rfl, ha, hconcrete⟩ | ⟨error, rfl, -⟩
  · exact .ok ⟨ha, hconcrete⟩
  · exact .inr ⟨error, rfl⟩

end Outcomes

/-- A window inside a physical register of a given width. -/
structure Register.Fits (widths : String → Nat) (r : Register) : Prop where
  baseSize : r.baseSize = widths r.base
  size_pos : 0 < r.size
  inside : r.offset + r.size ≤ r.baseSize
  baseSize_le : r.baseSize ≤ 64

namespace SymbolicMemory

variable {s : Scope} {widths : String → Nat} {m : SymbolicMemory}

/-- Cells hold bytes, and registers have their physical widths here and in the image. -/
structure WellFormed (s : Scope) (widths : String → Nat) (m : SymbolicMemory) : Prop where
  cell {address : UInt64} {e : Expr} : m.cells[address]? = some e → e.WellFormed s ∧ e.width = 8
  register {name : String} {e : Expr} : m.registers[name]? = some e → e.WellFormed s ∧
    e.width = widths name
  image {name : String} {x : Word} : m.image.physical? name = some x → x.Canonical ∧
    x.width = widths name

/-- Cells hold bytes. -/
def HoldsBytes (s : Scope) (m : SymbolicMemory) : Prop :=
  ∀ {address : UInt64} {e : Expr}, m.cells[address]? = some e → e.WellFormed s ∧ e.width = 8

theorem WellFormed.holdsBytes (h : m.WellFormed s widths) : m.HoldsBytes s :=
  h.cell

theorem HoldsBytes.insert_cell (h : m.HoldsBytes s) (address : UInt64) {e : Expr}
    (he : e.WellFormed s) (hwidth : e.width = 8) :
    { m with cells := m.cells.insert address e }.HoldsBytes s := by
  intro place x hx
  rw [Std.ExtTreeMap.getElem?_insert] at hx
  split at hx
  · cases hx
    exact ⟨he, hwidth⟩
  · exact h hx

theorem WellFormed.setPhysical (h : m.WellFormed s widths) (name : String) {e : Expr}
    (he : e.WellFormed s) (hwidth : e.width = widths name) :
    (m.setPhysical name e).WellFormed s widths := by
  refine ⟨h.cell, fun {other x} hx => ?_, h.image⟩
  rw [SymbolicMemory.setPhysical, Std.ExtTreeMap.getElem?_insert] at hx
  split at hx
  case isTrue heq =>
    cases hx
    rw [← Std.LawfulEqCmp.eq_of_compare heq]
    exact ⟨he, hwidth⟩
  case isFalse => exact h.register hx

/-- The smallest and the largest address written in a cell or in the image. -/
def span (m : SymbolicMemory) : Option (UInt64 × UInt64) :=
  match m.cells.minKey?, m.cells.maxKey? with
  | some least, some greatest => some <| match m.image.top.span with
    | some (low, high) => (min low least, max high greatest)
    | none => (least, greatest)
  | _, _ => m.image.top.span

/-- The concrete memory that a symbolic memory stands for under a valuation. -/
def concretise (v : Valuation) (m : SymbolicMemory) : Memory where
  top := {
    registers := m.registers.map fun _ e => e.value v
    bytes := m.cells.map fun _ e => UInt8.ofNat (e.value v).value
    span := m.span }
  below := m.image.layers

variable (v : Valuation)

theorem byte?_concretise (m : SymbolicMemory) (address : UInt64) :
    (m.concretise v).byte? address =
      ((m.cells[address]?).map fun e => UInt8.ofNat (e.value v).value).or
        (m.image.byte? address) := by
  rw [Memory.byte?, Memory.layers, List.findSome?_cons, concretise, Std.ExtTreeMap.getElem?_map]
  cases m.cells[address]? <;> rfl

theorem physical?_concretise (m : SymbolicMemory) (name : String) :
    (m.concretise v).physical? name =
    ((m.registers[name]?).map (Expr.value v)).or (m.image.physical? name) := by
  rw [Memory.physical?, Memory.layers, List.findSome?_cons, concretise,
    Std.ExtTreeMap.getElem?_map]
  cases m.registers[name]? <;> rfl

theorem map_insert {α β : Type} {κ : Type} [Ord κ] [Std.TransOrd κ] [Std.LawfulEqOrd κ]
    (t : Std.ExtTreeMap κ α) (f : α → β) (key : κ) (a : α) :
    (t.insert key a).map (fun _ => f) = (t.map fun _ => f).insert key (f a) := by
  ext1 other
  rw [Std.ExtTreeMap.getElem?_map, Std.ExtTreeMap.getElem?_insert, Std.ExtTreeMap.getElem?_insert,
    Std.ExtTreeMap.getElem?_map]
  split <;> rfl

theorem span_insert_cell (m : SymbolicMemory) (address : UInt64) (e : Expr) (byte : UInt8) :
    { m with cells := m.cells.insert address e }.span =
      ((m.concretise v).writeByte address byte).top.span := by
  have hmin (a b : UInt64) : (if (compare a b).isLE then a else b) = min b a := by
    have hcomm : min b a = min a b := by ac_rfl
    simp only [hcomm, Std.isLE_compare]
    rfl
  have hmax (a b : UInt64) : (if (compare a b).isLE then b else a) = max a b := by
    simp only [Std.isLE_compare]
    rfl
  -- a key that is there already changes neither bound, so no case is needed for it
  have hminAssoc (a b c : UInt64) : min a (min b c) = min (min a b) c := by ac_rfl
  have hmaxAssoc (a b c : UInt64) : max a (max b c) = max (max a b) c := by
    have hdef (a b : UInt64) : max a b = if a ≤ b then b else a := rfl
    grind
  simp only [span, concretise, Memory.writeByte, Std.ExtTreeMap.minKey?_insert,
    Std.ExtTreeMap.maxKey?_insert, hmin, hmax]
  cases hleast : m.cells.minKey? with
  | none =>
      have hempty : m.cells = ∅ := Std.ExtTreeMap.minKey?_eq_none_iff.mp hleast
      cases m.image.top.span with
      | none => simp [hempty]
      | some bounds => simp [hempty]
  | some least =>
      cases hgreatest : m.cells.maxKey? with
      | none =>
          have hempty : m.cells = ∅ := Std.ExtTreeMap.maxKey?_eq_none_iff.mp hgreatest
          simp [hempty] at hleast
      | some greatest =>
          cases m.image.top.span with
          | none => rfl
          | some bounds => simp only [Option.elim_some, hminAssoc, hmaxAssoc]

theorem concretise_insert_cell (m : SymbolicMemory) (address : UInt64) (e : Expr) :
    { m with cells := m.cells.insert address e }.concretise v =
      (m.concretise v).writeByte address (UInt8.ofNat (e.value v).value) := by
  let byte := UInt8.ofNat (e.value v).value
  have hbytes := map_insert m.cells (fun e => UInt8.ofNat (Expr.value v e).value) address e
  calc { m with cells := m.cells.insert address e }.concretise v
      = { top := { (m.concretise v).top with
            bytes := (m.concretise v).top.bytes.insert address byte
            span := ((m.concretise v).writeByte address byte).top.span }
          below := m.image.layers } := by
            rw [concretise, hbytes, span_insert_cell v m address e byte]; rfl
    _ = (m.concretise v).writeByte address byte := rfl

theorem concretise_setPhysical (m : SymbolicMemory) (name : String) (e : Expr) :
    (m.setPhysical name e).concretise v = (m.concretise v).setPhysical name (e.value v) := by
  simp only [concretise, setPhysical, Memory.setPhysical, map_insert _ (Expr.value v), span]

end SymbolicMemory

end FlowRecovery
