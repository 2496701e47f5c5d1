import Mathlib
import FlowRecovery.Settings
import FlowRecovery.Proofs.Text.Numeral

namespace FlowRecovery

namespace Settings

/-- What the key of a property looks like. -/
inductive Names : String → Property → Prop
  | stackPointer : Names "disas.symsim.x86_32.init-esp" (.register "esp")
  | register {name : String} (h : name ≠ "") : Names ("disas.symsim.init-register." ++ name)
      (.register name)
  | maxVisits : Names "disas.symsim.nb-visits-per-address" .maxVisits
  | showStates : Names "disas.symsim.debug.show-states" .showStates
  | jumpThreshold : Names "disas.symsim.dynamic-jump-threshold" .jumpThreshold
  | mapToMemory : Names "disas.symsim.map-dynamic-jump-to-memory" .mapToMemory

section Keys

variable {key : String} {p : Property}

theorem ofList_keyStart : String.ofList keyStart = "disas.symsim." := by
  unfold keyStart
  rw [String.ofList_toList]

theorem ofList_registerStart : String.ofList registerStart = "init-register." := by
  unfold registerStart
  rw [String.ofList_toList]

theorem names_of_property? (h : property? key = some p) : Names key p := by
  obtain ⟨name, hname, h⟩ := Option.bind_eq_some_iff.mp h
  have hkey {rest : String} (hrest : String.ofList name = rest) : "disas.symsim." ++
      rest = key := by
    rw [← hrest, ← ofList_keyStart, ← String.ofList_append, ← Text.after?_eq_some_iff.mp hname,
      String.ofList_toList]
  split at h
  case h_1 hrest =>
    cases h
    exact hkey hrest ▸ .stackPointer
  case h_2 hrest =>
    cases h
    exact hkey hrest ▸ .maxVisits
  case h_3 hrest =>
    cases h
    exact hkey hrest ▸ .showStates
  case h_4 hrest =>
    cases h
    exact hkey hrest ▸ .jumpThreshold
  case h_5 hrest =>
    cases h
    exact hkey hrest ▸ .mapToMemory
  case h_6 =>
    split at h
    case h_1 => cases h
    case h_2 => cases h
    case h_3 register hne hregister =>
      cases h
      have hrest : String.ofList name = "init-register." ++ String.ofList register := by
        rw [Text.after?_eq_some_iff.mp hregister, String.ofList_append, ofList_registerStart]
      rw [← hkey hrest, ← String.append_assoc]
      apply Names.register
      simpa using hne

theorem property?_of_names (h : Names key p) : property? key = some p := by
  cases h with
  | @register name h =>
      have hkey : Text.after? keyStart ("disas.symsim.init-register." ++ name).toList =
          some (registerStart ++ name.toList) := by
        rw [Text.after?_eq_some_iff, String.toList_append, ← List.append_assoc]
        rfl
      have hname : Text.after? registerStart (registerStart ++ name.toList) = some name.toList :=
        Text.after?_eq_some_iff.mpr rfl
      -- no other key goes on with the same character
      have hother {rest : String} (heq : String.ofList (registerStart ++ name.toList) = rest) :
          rest.toList.head? = some 'i' := by
        rw [← heq, String.toList_ofList]
        rfl
      rw [property?, hkey, Option.bind_eq_bind, Option.bind_some]
      split
      case h_6 =>
        rw [hname]
        split
        case h_1 heq => cases heq
        case h_2 heq => exact absurd (Option.some.inj heq) (by simpa using h)
        case h_3 register _ heq =>
          cases heq
          rw [String.ofList_toList]
      case h_1 heq => exact absurd (hother heq) (by decide)
      case h_2 heq => exact absurd (hother heq) (by decide)
      case h_3 heq => exact absurd (hother heq) (by decide)
      case h_4 heq => exact absurd (hother heq) (by decide)
      case h_5 heq => exact absurd (hother heq) (by decide)
  | _ => decide +kernel

end Keys

/-- A value for a property. -/
inductive Change where
  | register (name : String) (value : UInt64)
  | maxVisits (count : Nat)
  | showStates (flag : Bool)
  | jumpThreshold (count : Nat)
  | mapToMemory (flag : Bool)

namespace Change

def property : Change → Property
  | register name _ => .register name
  | maxVisits _ => .maxVisits
  | showStates _ => .showStates
  | jumpThreshold _ => .jumpThreshold
  | mapToMemory _ => .mapToMemory

def apply (s : Settings) : Change → Settings
  | register name value => s.setInitRegister name value
  | maxVisits count => { s with maxVisits := count }
  | showStates flag => { s with showStates := flag }
  | jumpThreshold count => { s with jumps := { s.jumps with threshold := count } }
  | mapToMemory flag => { s with jumps := { s.jumps with mapToMemory := flag } }

/-- The settings have a value. -/
def HoldsIn (s : Settings) : Change → Prop
  | register name value => (name, value) ∈ s.initRegisters
  | maxVisits count => s.maxVisits = count
  | showStates flag => s.showStates = flag
  | jumpThreshold count => s.jumps.threshold = count
  | mapToMemory flag => s.jumps.mapToMemory = flag

end Change

/-- A text spells a count in decimal, with an optional plus sign. -/
def Counts (text : List Char) (count : Nat) : Prop :=
  count < 2 ^ 64 ∧ ∃ sign digits, Text.IsSign sign ∧ text = sign ++ digits ∧
    Text.Spells 10 digits count

/-- A text says whether something is on. -/
def Flags (text : String) : Bool → Prop
  | true => text ∈ ["true", "yes", "on", "1"]
  | false => text ∈ ["false", "no", "off", "0"]

/-- A text denotes the value of a change. -/
def Change.Denoted (text : String) : Change → Prop
  | register _ value => Text.Denotes text.toList value.toNat
  | maxVisits count | jumpThreshold count => Counts text.toList count
  | showStates flag | mapToMemory flag => Flags text flag

section Values

variable {key value : String}

theorem number_eq_ok_iff {n : UInt64} :
    number key value = .ok n ↔ Text.Denotes value.toList n.toNat := by
  rw [← Text.number?_eq_some_iff, number]
  cases Text.number? value.toList <;> simp

theorem word?_eq_some_iff_counts {text : List Char} {a : UInt64} :
    Text.word? 10 text = some a ↔ Counts text a.toNat := by
  rw [Text.word?_eq_some_iff (by decide), Counts, and_iff_right a.toNat_lt]

theorem count_eq_ok_iff {n : Nat} : count key value = .ok n ↔ Counts value.toList n := by
  constructor
  · intro h
    rw [count] at h
    split at h
    case h_1 a ha =>
      cases h
      exact word?_eq_some_iff_counts.mp ha
    case h_2 => cases h
  · intro h
    have hn : (UInt64.ofNat n).toNat = n := UInt64.toNat_ofNat_of_lt' h.1
    rw [count, word?_eq_some_iff_counts.mpr (hn.symm ▸ h)]
    exact congrArg Except.ok hn

theorem flag_eq_ok_iff {b : Bool} : flag key value = .ok b ↔ Flags value b := by
  have hdisjoint : value ∈ ["true", "yes", "on", "1"] → value ∉ ["false", "no", "off", "0"] := by
    intro h
    simp only [List.mem_cons, List.not_mem_nil, or_false] at h
    rcases h with rfl | rfl | rfl | rfl <;> decide
  rw [flag]
  split
  case isTrue hon => cases b <;> simp [Flags, hon, hdisjoint hon]
  case isFalse hon =>
    split
    case isTrue hoff => cases b <;> simp [Flags, hon, hoff]
    case isFalse hoff => cases b <;> simp [Flags, hon, hoff]

theorem number_eq_error (h : ∀ n : UInt64, ¬ Text.Denotes value.toList n.toNat) :
    number key value = .error (.invalidValue key value) := by
  rw [number]
  split
  case h_1 n hn => exact absurd (Text.number?_eq_some_iff.mp hn) (h n)
  case h_2 => rfl

theorem count_eq_error (h : ∀ n, ¬ Counts value.toList n) :
    count key value = .error (.invalidValue key value) := by
  rw [count]
  split
  case h_1 a ha => exact absurd (word?_eq_some_iff_counts.mp ha) (h a.toNat)
  case h_2 => rfl

theorem flag_eq_error (h : ∀ b, ¬ Flags value b) :
    flag key value = .error (.invalidValue key value) := by
  have hon : value ∉ ["true", "yes", "on", "1"] := h true
  have hoff : value ∉ ["false", "no", "off", "0"] := h false
  rw [flag, if_neg hon, if_neg hoff]

theorem changeBy_ok {α : Type} {x : Except SettingsError α} {a : α} (h : x = .ok a)
    (change : Settings → α → Settings) (s : Settings) :
    (changeBy x change).run s = (.ok (), change s a) := by
  rw [h]
  rfl

theorem changeBy_error {α : Type} {x : Except SettingsError α} {error : SettingsError}
    (h : x = .error error) (change : Settings → α → Settings) (s : Settings) :
    (changeBy x change).run s = (.error error, s) := by
  rw [h]
  rfl

theorem update_of_denoted {change : Change} (hkey : Names key change.property)
    (hvalue : change.Denoted value) (s : Settings) :
    (update key value).run s = (.ok (), change.apply s) := by
  unfold update
  rw [property?_of_names hkey]
  cases change with
  | register name n => exact changeBy_ok (number_eq_ok_iff.mpr hvalue) _ s
  | maxVisits n => exact changeBy_ok (count_eq_ok_iff.mpr hvalue) _ s
  | showStates b => exact changeBy_ok (flag_eq_ok_iff.mpr hvalue) _ s
  | jumpThreshold n => exact changeBy_ok (count_eq_ok_iff.mpr hvalue) _ s
  | mapToMemory b => exact changeBy_ok (flag_eq_ok_iff.mpr hvalue) _ s

theorem update_of_not_denoted {p : Property} (hkey : Names key p)
    (hvalue : ∀ change : Change, change.property = p → ¬ change.Denoted value) (s : Settings) :
    (update key value).run s = (.error (.invalidValue key value), s) := by
  unfold update
  rw [property?_of_names hkey]
  cases p with
  | register name =>
      exact changeBy_error (number_eq_error fun n => hvalue (.register name n) rfl) _ s
  | maxVisits => exact changeBy_error (count_eq_error fun n => hvalue (.maxVisits n) rfl) _ s
  | showStates => exact changeBy_error (flag_eq_error fun b => hvalue (.showStates b) rfl) _ s
  | jumpThreshold =>
      exact changeBy_error (count_eq_error fun n => hvalue (.jumpThreshold n) rfl) _ s
  | mapToMemory => exact changeBy_error (flag_eq_error fun b => hvalue (.mapToMemory b) rfl) _ s

theorem update_of_unknown (hkey : ∀ p, ¬ Names key p) (value : String) (s : Settings) :
    (update key value).run s = (.error (.unknownKey key), s) := by
  have hnone : property? key = none := by
    rw [Option.eq_none_iff_forall_ne_some]
    intro p hp
    exact hkey p (names_of_property? hp)
  unfold update
  rw [hnone]
  rfl

end Values

end Settings

end FlowRecovery
