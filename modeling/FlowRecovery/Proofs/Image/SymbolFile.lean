import Mathlib
import FlowRecovery.Image
import FlowRecovery.Proofs.Text.Numeral

namespace FlowRecovery

namespace SymbolTable

/-- What a line of a symbol file says: nothing, if it is blank or a comment, or that an address
has a name. -/
inductive Says : List Char → Option (UInt64 × String) → Prop
  | blank {line : List Char} (h : Text.AllBlank line) : Says line none
  | comment {indent : List Char} (h : Text.AllBlank indent) (rest : List Char) :
      Says (indent ++ '#' :: rest) none
  | entry {before address between name behind : List Char} {a : UInt64}
      (hbefore : Text.AllBlank before)
      (haddress : Text.Denotes address a.toNat) (hbetween : Text.AllBlank between)
      (hne : between ≠ [])
      (hname : Text.IsWord name) (hbehind : Text.AllBlank behind) :
      Says (before ++ address ++ between ++ name ++ behind) (some (a, String.ofList name))

/-- A line that is blank, a comment or an entry. -/
def WellFormed (line : List Char) : Prop :=
  ∃ item, Says line item

/-- The lines of a text say nothing but these entries, in this order. -/
def Lists (text : String) (entries : List (UInt64 × String)) : Prop :=
  ∃ lines items, Text.IsLines text.toList lines ∧ List.Forall₂ Says lines items ∧
    items.reduceOption = entries

/-- A table with some entries inserted one after the other. -/
def insertAll (table : SymbolTable) (entries : List (UInt64 × String)) : SymbolTable :=
  entries.foldl (fun table entry => table.insert entry.1 entry.2) table

section Lines

variable {line : List Char} {a : UInt64} {name : String}

theorem Says.isComment (h : Says line none) : Text.isComment (Text.trim line) = true := by
  rw [Text.isComment_trim_iff]
  cases h with
  | blank h => exact .inl h
  | comment h rest => exact .inr ⟨_, rest, h, rfl⟩

theorem says_none_of_isComment (h : Text.isComment (Text.trim line) = true) : Says line none := by
  rcases Text.isComment_trim_iff.mp h with hblank | ⟨indent, rest, hindent, rfl⟩
  · exact .blank hblank
  · exact .comment hindent rest

theorem Says.not_isComment (h : Says line (some (a, name))) :
    Text.isComment (Text.trim line) = false := by
  cases h with
  | @entry before address between name behind _ hbefore haddress hbetween hne hname hbehind =>
      obtain ⟨hword, hmark⟩ := haddress.isWord
      rw [Bool.eq_false_iff, ne_eq, Text.isComment_iff_head?, List.append_assoc,
        List.append_assoc, Text.head?_trim_of_isWord hbefore hword]
      rintro (hnone | hsome)
      · exact hword.ne_nil (List.head?_eq_none_iff.mp hnone)
      · exact hmark (List.mem_of_head? hsome)

theorem says_entry_iff : Says line (some (a, name)) ↔
    ∃ address word, Text.words line = [address, word] ∧ Text.number? address = some a ∧
      String.ofList word = name := by
  constructor
  · intro h
    cases h with
    | @entry before address between name behind _ hbefore haddress hbetween hne hname hbehind =>
        exact ⟨address, name, Text.words_of_pair hbefore haddress.isWord.1 hbetween hne
          hname hbehind, Text.number?_eq_some_iff.mpr haddress, rfl⟩
  · rintro ⟨address, word, hwords, haddress, rfl⟩
    obtain ⟨before, between, behind, rfl, hbefore, -, hbetween, hne, hname, hbehind⟩ :=
      Text.words_eq_pair_iff.mp hwords
    exact .entry hbefore (Text.number?_eq_some_iff.mp haddress) hbetween hne hname hbehind

theorem insertLine_of_says (h : Says line (some (a, name))) (table : SymbolTable) (number : Nat) :
    table.insertLine number (Text.trim line) = .ok (table.insert a name) := by
  obtain ⟨address, word, hwords, haddress, rfl⟩ := says_entry_iff.mp h
  rw [insertLine, Text.words_trim, hwords]
  simp only [haddress]

theorem insertLine_of_not_wellFormed (h : ¬ WellFormed line) (table : SymbolTable)
    (number : Nat) :
    table.insertLine number (Text.trim line) = .error (.symbol number) := by
  rw [insertLine, Text.words_trim]
  split
  case h_1 address word hwords =>
    cases haddress : Text.number? address with
    | none => rfl
    | some a => exact absurd ⟨_, says_entry_iff.mpr ⟨address, word, hwords, haddress, rfl⟩⟩ h
  case h_2 => rfl

end Lines

section Files

variable {pieces : List (List Char)} {items : List (Option (UInt64 × String))} {line : List Char}

/-- Reads lines into a table, with the number of the first one. -/
def readLines (table : SymbolTable) (number : Nat) (pieces : List (List Char)) :
    Except LoadError SymbolTable :=
  (Text.numbered number pieces).foldlM (fun table line => table.insertLine line.1 line.2) table

theorem parse_eq (text : String) : parse text = readLines {} 1 (Text.lines text.toList) := by
  rw [parse, Text.numberedLines_eq]
  rfl

theorem readLines_cons_none (h : Says line none) (table : SymbolTable) (number : Nat) :
    table.readLines number (line :: pieces) = table.readLines (number + 1) pieces := by
  rw [readLines, Text.numbered_cons_of_comment h.isComment, readLines]

theorem readLines_cons_entry {a : UInt64} {name : String} (h : Says line (some (a, name)))
    (table : SymbolTable) (number : Nat) : table.readLines number (line :: pieces) =
      (table.insert a name).readLines (number + 1) pieces := by
  rw [readLines, Text.numbered_cons h.not_isComment, List.foldlM_cons, insertLine_of_says h]
  rfl

theorem readLines_cons_of_not_wellFormed (h : ¬ WellFormed line) (table : SymbolTable)
    (number : Nat) :
    table.readLines number (line :: pieces) = .error (.symbol number) := by
  have hcomment : Text.isComment (Text.trim line) = false := by
    rw [Bool.eq_false_iff]
    intro hcomment
    exact h ⟨none, says_none_of_isComment hcomment⟩
  rw [readLines, Text.numbered_cons hcomment, List.foldlM_cons, insertLine_of_not_wellFormed h]
  rfl

theorem readLines_of_says (h : List.Forall₂ Says pieces items) (table : SymbolTable)
    (number : Nat) :
    table.readLines number pieces = .ok (table.insertAll items.reduceOption) := by
  induction h generalizing table number with
  | nil => rfl
  | @cons line item pieces items hline _ ih =>
      cases item with
      | none => rw [readLines_cons_none hline, ih, List.reduceOption_cons_of_none]
      | some entry =>
          rw [readLines_cons_entry hline, ih, List.reduceOption_cons_of_some]
          rfl

theorem readLines_of_first {before : List (List Char)} (hbefore : ∀ l ∈ before, WellFormed l)
    (h : ¬ WellFormed line) (table : SymbolTable) (number : Nat) :
    table.readLines number (before ++ line :: pieces) =
      .error (.symbol (before.length + number)) := by
  induction before generalizing table number with
  | nil =>
      rw [List.length_nil, Nat.zero_add]
      exact readLines_cons_of_not_wellFormed h table number
  | cons first before ih =>
      obtain ⟨⟨item, hfirst⟩, hbefore⟩ := List.forall_mem_cons.mp hbefore
      rw [List.length_cons, Nat.add_right_comm, Nat.add_assoc, List.cons_append]
      cases item with
      | none => rw [readLines_cons_none hfirst, ih hbefore]
      | some entry => rw [readLines_cons_entry hfirst, ih hbefore]

theorem wellFormed_or_first (pieces : List (List Char)) :
    (∃ items, List.Forall₂ Says pieces items) ∨
    ∃ before line behind, pieces = before ++ line :: behind ∧ (∀ l ∈ before, WellFormed l) ∧
      ¬ WellFormed line := by
  induction pieces with
  | nil => exact .inl ⟨[], .nil⟩
  | cons first pieces ih =>
      by_cases hfirst : WellFormed first
      · rcases ih with ⟨items, hitems⟩ | ⟨before, line, behind, rfl, hbefore, hline⟩
        · obtain ⟨item, hitem⟩ := hfirst
          exact .inl ⟨item :: items, .cons hitem hitems⟩
        · exact .inr ⟨first :: before, line, behind, rfl,
            List.forall_mem_cons.mpr ⟨hfirst, hbefore⟩, hline⟩
      · exact .inr ⟨[], first, pieces, rfl, by simp, hfirst⟩

theorem parse_of_lists {text : String} {entries : List (UInt64 × String)}
    (h : Lists text entries) :
    parse text = .ok (insertAll {} entries) := by
  obtain ⟨lines, items, hlines, hitems, rfl⟩ := h
  rw [parse_eq, Text.isLines_iff.mp hlines]
  exact readLines_of_says hitems {} 1

theorem wellFormed_of_says (h : List.Forall₂ Says pieces items) :
    ∀ line ∈ pieces, WellFormed line := by
  induction h with
  | nil => simp
  | cons hline _ ih => exact List.forall_mem_cons.mpr ⟨⟨_, hline⟩, ih⟩

theorem Lists.wellFormed {text : String} {entries : List (UInt64 × String)}
    (h : Lists text entries) {lines : List (List Char)}
    (hlines : Text.IsLines text.toList lines) : ∀ line ∈ lines, WellFormed line := by
  obtain ⟨lines', items, hlines', hitems, -⟩ := h
  obtain rfl := (Text.isLines_iff.mp hlines').symm.trans (Text.isLines_iff.mp hlines)
  exact wellFormed_of_says hitems

/-- A text lists entries and is read, or reading it stops at its first line that is not well
formed. -/
theorem lists_or_first {text : String} {lines : List (List Char)}
    (h : Text.IsLines text.toList lines) :
    (∃ entries, Lists text entries) ∨ ∃ before line behind, lines = before ++ line :: behind ∧
      (∀ l ∈ before, WellFormed l) ∧ ¬ WellFormed line ∧
      parse text = .error (.symbol (before.length + 1)) := by
  rcases wellFormed_or_first lines with
    ⟨items, hitems⟩ | ⟨before, line, behind, rfl, hbefore, hline⟩
  · exact .inl ⟨_, lines, items, h, hitems, rfl⟩
  · refine .inr ⟨before, line, behind, rfl, hbefore, hline, ?_⟩
    rw [parse_eq, Text.isLines_iff.mp h]
    exact readLines_of_first hbefore hline {} 1

/-- A text with a line for each of some entries, and else only blank lines and comments, is read
as the table into which they are inserted in their order. Reading a text fails when one of its
lines is neither blank nor a comment nor an entry, and then with the number of the first such
line. -/
theorem parse_reads_symbol_files (text : String) :
    let lines := Text.lines text.toList
    Text.IsLines text.toList lines ∧
    (∀ entries, Lists text entries → parse text = .ok (insertAll {} entries)) ∧
    ((∃ error, parse text = .error error) ↔ ∃ line ∈ lines, ¬ WellFormed line) ∧
    ∀ error, parse text = .error error → ∃ before line behind, lines = before ++ line :: behind ∧
      (∀ l ∈ before, WellFormed l) ∧ ¬ WellFormed line ∧ error = .symbol (before.length + 1) := by
  intro lines
  have hlines : Text.IsLines text.toList lines := Text.isLines_iff.mpr rfl
  refine ⟨hlines, fun entries h => parse_of_lists h, ?_⟩
  rcases lists_or_first hlines with
    ⟨entries, hlists⟩ | ⟨before, line, behind, hfirst, hbefore, hline, hparse⟩
  · have hparse := parse_of_lists hlists
    have hwellFormed := hlists.wellFormed hlines
    constructor
    · constructor
      · rintro ⟨error, herror⟩
        rw [hparse] at herror
        cases herror
      · rintro ⟨line, hmem, hline⟩
        exact absurd (hwellFormed line hmem) hline
    · intro error herror
      rw [hparse] at herror
      cases herror
  · constructor
    · refine ⟨fun _ => ⟨line, by simp [hfirst], hline⟩, fun _ => ⟨_, hparse⟩⟩
    · intro error herror
      rw [hparse] at herror
      exact ⟨before, line, behind, hfirst, hbefore, hline, (Except.error.inj herror).symm⟩

/-- Hexadecimal and decimal addresses, a comment, a blank line and a carriage return; and a file
whose second line has three words and whose third line has no digits. -/
theorem parse_reads_symbol_files_of_comments :
    let text := "\t0X+1F  main\r\n# a note\n\n 0032800\thelper "
    let entries : List (UInt64 × String) := [(0x1f, "main"), (32800, "helper")]
    Lists text entries ∧ parse text = .ok (insertAll {} entries) ∧
      (∃ table, parse text = .ok table ∧ table.name? 0x1f = some "main" ∧
        table.address? "helper" = some 32800 ∧ table.name? 32 = none) ∧
      ∃ before line behind, Text.lines "1 a\n2 b c\n0x g".toList = before ++ line :: behind ∧
        (∀ l ∈ before, WellFormed l) ∧ ¬ WellFormed line ∧ before.length + 1 = 2 := by
  intro text entries
  have hmain : Says "\t0X+1F  main\r".toList (some (0x1f, "main")) :=
    says_entry_iff.mpr ⟨"0X+1F".toList, "main".toList, by decide +kernel, by decide +kernel, rfl⟩
  have hnothing : Text.AllBlank [] := by simp [Text.AllBlank]
  have hnote : Says "# a note".toList none := .comment hnothing " a note".toList
  have hempty : Says [] none := .blank hnothing
  have hhelper : Says " 0032800\thelper ".toList (some (32800, "helper")) :=
    says_entry_iff.mpr ⟨"0032800".toList, "helper".toList, by decide +kernel,
      by decide +kernel, rfl⟩
  have hlists : Lists text entries :=
    ⟨_, _, Text.isLines_iff.mpr (by decide +kernel),
      .cons hmain (.cons hnote (.cons hempty (.cons hhelper .nil))), rfl⟩
  have hfails : parse "1 a\n2 b c\n0x g" = .error (.symbol 2) := by decide +kernel
  obtain ⟨before, line, behind, hlines, hbefore, hline, herror⟩ :=
    (parse_reads_symbol_files _).2.2.2 _ hfails
  have hparse := (parse_reads_symbol_files text).2.1 entries hlists
  refine ⟨hlists, hparse, ⟨_, hparse, ?_⟩, before, line, behind, hlines, hbefore, hline, ?_⟩
  · decide +kernel
  · exact (LoadError.symbol.inj herror).symm

end Files

end SymbolTable

end FlowRecovery
