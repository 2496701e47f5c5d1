import Mathlib
import FlowRecovery.Text.Numeral
import FlowRecovery.Proofs.Text.Splitting

namespace FlowRecovery.Text

/-- A character is the digit of a value in some base, in lower or upper case. -/
def IsDigit (base : Nat) (c : Char) (d : Nat) : Prop :=
  d < base ∧ (c = d.digitChar ∨ c = d.digitChar.toUpper)

/-- Digits, of which there is at least one, spell a number: each further digit multiplies by the
base. -/
inductive Spells (base : Nat) : List Char → Nat → Prop
  | digit {c : Char} {d : Nat} (hc : IsDigit base c d) : Spells base [c] d
  | snoc {digits : List Char} {n : Nat} {c : Char} {d : Nat} (h : Spells base digits n)
      (hc : IsDigit base c d) :
      Spells base (digits ++ [c]) (n * base + d)

/-- An optional plus sign. -/
def IsSign (sign : List Char) : Prop :=
  sign = [] ∨ sign = ['+']

/-- A text denotes a number: in decimal, or in hexadecimal after `0x` or `0X`, with an optional
plus sign before the digits. -/
inductive Denotes : List Char → Nat → Prop
  | decimal {sign digits : List Char} {n : Nat} (hsign : IsSign sign) (h : Spells 10 digits n) :
      Denotes (sign ++ digits) n
  | hexadecimal {mark sign digits : List Char} {n : Nat}
      (hmark : mark = ['0', 'x'] ∨ mark = ['0', 'X'])
      (hsign : IsSign sign) (h : Spells 16 digits n) : Denotes (mark ++ sign ++ digits) n

section Digits

variable {base : Nat} {c : Char} {d : Nat}

theorem isDigit_of_digitValue? (h : digitValue? base c = some d) : IsDigit base c d := by
  obtain ⟨h, hd⟩ := Option.filter_eq_some_iff.mp h
  refine ⟨by simpa using hd, ?_⟩
  have hle (a b : Char) : a ≤ b ↔ a.toNat ≤ b.toNat := Iff.rfl
  rw [← Char.ofNat_toNat c]
  simp only [hle] at h
  generalize c.toNat = n at h
  split_ifs at h with hrange hrange hrange
  all_goals
    obtain rfl := Option.some.inj h
    obtain ⟨hlow, hhigh⟩ := hrange
    simp only [Char.reduceToNat] at hlow hhigh
    interval_cases n <;> decide

theorem IsDigit.digitValue?_eq (h : IsDigit base c d) (hbase : base ≤ 16) :
    digitValue? base c = some d := by
  obtain ⟨hd, hc⟩ := h
  have hd16 : d < 16 := by omega
  rw [digitValue?, Option.filter_eq_some_iff]
  refine ⟨?_, by simpa using hd⟩
  interval_cases d <;> rcases hc with rfl | rfl <;> decide

theorem IsDigit.plain (h : IsDigit base c d) (hbase : base ≤ 16) :
    isBlank c = false ∧ c ≠ '+' ∧ c ≠ 'x' ∧ c ≠ 'X' ∧ c ≠ '#' := by
  obtain ⟨hd, hc⟩ := h
  have hd16 : d < 16 := by omega
  interval_cases d <;> rcases hc with rfl | rfl <;> decide

end Digits

section Spelling

variable {base n m : Nat} {digits : List Char}

theorem Spells.ne_nil (h : Spells base digits n) : digits ≠ [] := by
  cases h <;> simp

theorem Spells.isDigit (h : Spells base digits n) : ∀ c ∈ digits, ∃ d, IsDigit base c d := by
  induction h with
  | digit hc =>
      intro c hmem
      obtain rfl := List.mem_singleton.mp hmem
      exact ⟨_, hc⟩
  | snoc _ hc ih =>
      intro c hmem
      rcases List.mem_append.mp hmem with hmem | hmem
      · exact ih c hmem
      · obtain rfl := List.mem_singleton.mp hmem
        exact ⟨_, hc⟩

theorem digitsFrom?_concat (base value : Nat) (digits : List Char) (c : Char) :
    digitsFrom? base value (digits ++ [c]) =
      (digitsFrom? base value digits).bind fun n => (digitValue? base c).map (n * base + ·) := by
  induction digits generalizing value with
  | nil =>
      simp only [List.nil_append, digitsFrom?]
      cases digitValue? base c <;> rfl
  | cons first digits ih =>
      simp only [List.cons_append, digitsFrom?]
      cases digitValue? base first with
      | none => rfl
      | some d => exact ih (value * base + d)

theorem Spells.digitsFrom?_eq (h : Spells base digits n) (hbase : base ≤ 16) :
    digitsFrom? base 0 digits = some n := by
  induction h with
  | digit hc => simp [digitsFrom?, hc.digitValue?_eq hbase]
  | snoc _ hc ih => simp [digitsFrom?_concat, ih, hc.digitValue?_eq hbase]

theorem spells_of_digitsFrom? (hne : digits ≠ []) (h : digitsFrom? base 0 digits = some n) :
    Spells base digits n := by
  induction digits using List.reverseRecOn generalizing n with
  | nil => exact absurd rfl hne
  | append_singleton digits c ih =>
      rw [digitsFrom?_concat, Option.bind_eq_some_iff] at h
      obtain ⟨m, hm, h⟩ := h
      obtain ⟨d, hd, rfl⟩ := Option.map_eq_some_iff.mp h
      have hc : IsDigit base c d := isDigit_of_digitValue? hd
      by_cases hnil : digits = []
      · subst hnil
        cases hm
        rw [Nat.zero_mul, Nat.zero_add]
        exact .digit hc
      · exact (ih hnil hm).snoc hc

theorem Spells.unique (hbase : base ≤ 16) (hn : Spells base digits n)
    (hm : Spells base digits m) : n = m :=
  Option.some.inj ((hn.digitsFrom?_eq hbase).symm.trans (hm.digitsFrom?_eq hbase))

theorem spells_toDigits (hbase : 1 < base) (n : Nat) : Spells base (Nat.toDigits base n) n := by
  induction n using Nat.strong_induction_on with
  | _ n ih =>
      rw [Nat.toDigits_eq_if hbase]
      split
      case isTrue hn => exact .digit ⟨hn, .inl rfl⟩
      case isFalse hn =>
        have hlt : n / base < n := Nat.div_lt_self (by omega) hbase
        have hlast : IsDigit base (n % base).digitChar (n % base) :=
          ⟨Nat.mod_lt n (by omega), .inl rfl⟩
        have h := (ih (n / base) hlt).snoc hlast
        rwa [Nat.div_add_mod'] at h

end Spelling

section Reading

variable {base n : Nat} {text : List Char}

theorem unsigned?_eq_some_iff (hbase : base ≤ 16) : unsigned? base text = some n ↔
    ∃ sign digits, IsSign sign ∧ text = sign ++ digits ∧ Spells base digits n := by
  constructor
  · intro h
    simp only [unsigned?, List.isEmpty_iff, Option.ite_none_left_eq_some] at h
    split at h
    case h_1 rest => exact ⟨['+'], rest, .inr rfl, rfl, spells_of_digitsFrom? h.1 h.2⟩
    case h_2 => exact ⟨[], text, .inl rfl, rfl, spells_of_digitsFrom? h.1 h.2⟩
  · rintro ⟨sign, digits, rfl | rfl, rfl, h⟩
    · obtain ⟨c, rest, rfl⟩ := List.exists_cons_of_ne_nil h.ne_nil
      obtain ⟨d, hc⟩ := h.isDigit c List.mem_cons_self
      simp only [unsigned?]
      split
      case h_1 rest' heq => exact absurd (List.cons.inj heq).1 (hc.plain hbase).2.1
      case h_2 => exact h.digitsFrom?_eq hbase
    · simp only [List.cons_append, List.nil_append, unsigned?, List.isEmpty_iff, if_neg h.ne_nil]
      exact h.digitsFrom?_eq hbase

theorem word?_eq_some_iff (hbase : base ≤ 16) {a : UInt64} : word? base text = some a ↔
    ∃ sign digits, IsSign sign ∧ text = sign ++ digits ∧ Spells base digits a.toNat := by
  rw [← unsigned?_eq_some_iff hbase]
  simp only [word?, Option.bind_eq_bind, Option.bind_eq_some_iff, Option.ite_none_right_eq_some]
  constructor
  · rintro ⟨n, hn, hlt, h⟩
    rw [hn, ← Option.some.inj h, UInt64.toNat_ofNat_of_lt' hlt]
  · intro h
    exact ⟨a.toNat, h, a.toNat_lt, by rw [UInt64.ofNat_toNat]⟩

theorem number?_of_decimal {sign digits : List Char} (hsign : IsSign sign)
    (h : Spells 10 digits n) :
    number? (sign ++ digits) = word? 10 (sign ++ digits) := by
  have hplain {c : Char} (hc : c ∈ digits) : c ≠ 'x' ∧ c ≠ 'X' ∧ c ≠ '#' := by
    obtain ⟨d, hd⟩ := h.isDigit c hc
    exact (hd.plain (by decide)).2.2
  have hmark {c : Char} {rest : List Char} (heq : sign ++ digits = '0' :: c :: rest) :
      c ∈ digits := by
    rcases hsign with rfl | rfl
    · rw [List.nil_append] at heq
      simp [heq]
    · simp at heq
  rw [number?.eq_def]
  split
  case h_1 rest heq => exact absurd rfl (hplain (hmark heq)).1
  case h_2 rest heq => exact absurd rfl (hplain (hmark heq)).2.1
  case h_3 => rfl

/-- Reading accepts exactly the texts that denote a 64-bit number. -/
theorem number?_eq_some_iff {a : UInt64} : number? text = some a ↔ Denotes text a.toNat := by
  constructor
  · have hhex {mark digits : List Char} (hmark : mark = ['0', 'x'] ∨ mark = ['0', 'X'])
        (h : word? 16 digits = some a) : Denotes (mark ++ digits) a.toNat := by
      obtain ⟨sign, digits, hsign, rfl, hdigits⟩ := (word?_eq_some_iff (by decide)).mp h
      rw [← List.append_assoc]
      exact .hexadecimal hmark hsign hdigits
    intro h
    rw [number?.eq_def] at h
    split at h
    case h_1 digits => exact hhex (.inl rfl) h
    case h_2 digits => exact hhex (.inr rfl) h
    case h_3 =>
      obtain ⟨sign, digits, hsign, rfl, hdigits⟩ := (word?_eq_some_iff (by decide)).mp h
      exact .decimal hsign hdigits
  · intro h
    cases h with
    | @decimal sign digits _ hsign hdigits =>
        rw [number?_of_decimal hsign hdigits]
        exact (word?_eq_some_iff (by decide)).mpr ⟨sign, digits, hsign, rfl, hdigits⟩
    | @hexadecimal mark sign digits _ hmark hsign hdigits =>
        have hword : word? 16 (sign ++ digits) = some a :=
          (word?_eq_some_iff (by decide)).mpr ⟨sign, digits, hsign, rfl, hdigits⟩
        rcases hmark with rfl | rfl
        · exact hword
        · exact hword

theorem Denotes.isWord (h : Denotes text n) : IsWord text ∧ '#' ∉ text := by
  have hdigit {base : Nat} (hbase : base ≤ 16) {digits : List Char}
      (hdigits : Spells base digits n) :
      ∀ c ∈ digits, isBlank c = false ∧ c ≠ '#' := by
    intro c hc
    obtain ⟨d, hd⟩ := hdigits.isDigit c hc
    exact ⟨(hd.plain hbase).1, (hd.plain hbase).2.2.2.2⟩
  have hsigned {sign : List Char} (hsign : IsSign sign) : ∀ c ∈ sign, isBlank c = false ∧
      c ≠ '#' := by
    rcases hsign with rfl | rfl <;> simp [isBlank]
  have hall : text ≠ [] ∧ ∀ c ∈ text, isBlank c = false ∧ c ≠ '#' := by
    cases h with
    | decimal hsign hdigits =>
        exact ⟨by simp [hdigits.ne_nil],
          List.forall_mem_append.mpr ⟨hsigned hsign, hdigit (by decide) hdigits⟩⟩
    | @hexadecimal mark sign digits _ hmark hsign hdigits =>
        have hmark : ∀ c ∈ mark, isBlank c = false ∧
            c ≠ '#' := by rcases hmark with rfl | rfl <;> simp [isBlank]
        exact ⟨by simp [hdigits.ne_nil], List.forall_mem_append.mpr
          ⟨List.forall_mem_append.mpr ⟨hmark, hsigned hsign⟩, hdigit (by decide) hdigits⟩⟩
  exact ⟨⟨hall.1, fun c hc => (hall.2 c hc).1⟩, fun hmem => (hall.2 _ hmem).2 rfl⟩

end Reading

end FlowRecovery.Text
