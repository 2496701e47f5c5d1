import Mathlib
import FlowRecovery.Text.Blank

namespace FlowRecovery.Text

variable {text : List Char}

theorem splitAt_eq_splitOnP (separates : Char → Bool) (text : List Char) :
    splitAt separates text = text.splitOnP separates := by
  induction text with
  | nil => rw [splitAt, List.splitOnP_nil]
  | cons c rest ih =>
      obtain ⟨piece, pieces, hpieces⟩ :=
        List.exists_cons_of_ne_nil (List.splitOnP_ne_nil separates rest)
      rw [splitAt, List.splitOnP_cons_eq_if_modifyHead, ih, hpieces]
      rfl

section Lines

/-- Pieces without a line feed that give back a text when they are joined by line feeds. -/
structure IsLines (text : List Char) (lines : List (List Char)) : Prop where
  ne_nil : lines ≠ []
  whole : ∀ line ∈ lines, '\n' ∉ line
  joined : ['\n'].intercalate lines = text

theorem lines_eq_splitOn (text : List Char) : lines text = text.splitOn '\n' :=
  splitAt_eq_splitOnP _ text

theorem not_mem_of_mem_lines (text : List Char) : ∀ line ∈ lines text, '\n' ∉ line := by
  rw [lines_eq_splitOn]
  induction text with
  | nil => simp
  | cons c rest ih =>
      obtain ⟨piece, pieces, hpieces⟩ :=
        List.exists_cons_of_ne_nil (List.splitOn_ne_nil '\n' rest)
      rw [hpieces] at ih
      obtain ⟨hpiece, hrest⟩ := List.forall_mem_cons.mp ih
      rw [List.splitOn_cons_eq_if_modifyHead, hpieces]
      split
      case isTrue => exact List.forall_mem_cons.mpr ⟨List.not_mem_nil, ih⟩
      case isFalse hc =>
        refine List.forall_mem_cons.mpr ⟨?_, hrest⟩
        rintro (_ | ⟨_, hmem⟩)
        · exact hc rfl
        · exact hpiece hmem

theorem isLines_iff {pieces : List (List Char)} : IsLines text pieces ↔ lines text = pieces := by
  constructor
  · rintro ⟨hne, hwhole, rfl⟩
    rw [lines_eq_splitOn, List.splitOn_intercalate '\n' hwhole hne]
  · rintro rfl
    refine ⟨?_, not_mem_of_mem_lines text, ?_⟩
    · rw [lines_eq_splitOn]
      exact List.splitOn_ne_nil '\n' text
    · rw [lines_eq_splitOn]
      exact List.intercalate_splitOn '\n'

end Lines

/-- A text of blanks only. -/
def AllBlank (text : List Char) : Prop :=
  ∀ c ∈ text, isBlank c = true

/-- A text that is not empty and has no blanks. -/
structure IsWord (text : List Char) : Prop where
  ne_nil : text ≠ []
  solid : ∀ c ∈ text, isBlank c = false

section Words

variable {blanks word first second before between behind : List Char} {c : Char}

theorem words_append_cons (hc : isBlank c = true) (text rest : List Char) :
    words (text ++ c :: rest) = words text ++ words rest := by
  simp only [words, splitAt_eq_splitOnP, List.splitOnP_append_cons text rest hc,
    List.filter_append]

@[simp] theorem words_nil : words [] = [] :=
  rfl

theorem words_append_left (h : AllBlank blanks) (text : List Char) :
    words (blanks ++ text) = words text := by
  induction blanks with
  | nil => rfl
  | cons c blanks ih =>
      obtain ⟨hc, hblanks⟩ := List.forall_mem_cons.mp h
      rw [List.cons_append, ← List.nil_append (c :: (blanks ++ text)), words_append_cons hc,
        words_nil, List.nil_append, ih hblanks]

theorem words_of_allBlank (h : AllBlank blanks) : words blanks = [] := by
  rw [← List.append_nil blanks, words_append_left h, words_nil]

theorem words_append_right (h : AllBlank blanks) (text : List Char) :
    words (text ++ blanks) = words text := by
  cases blanks with
  | nil => rw [List.append_nil]
  | cons c blanks =>
      obtain ⟨hc, hblanks⟩ := List.forall_mem_cons.mp h
      rw [words_append_cons hc, words_of_allBlank hblanks, List.append_nil]

theorem words_of_isWord (h : IsWord word) : words word = [word] := by
  simp [words, splitAt_eq_splitOnP, List.splitOnP_eq_singleton h.solid, h.ne_nil]

theorem words_of_pair (hbefore : AllBlank before) (hfirst : IsWord first)
    (hbetween : AllBlank between) (hne : between ≠ []) (hsecond : IsWord second)
    (hbehind : AllBlank behind) :
    words (before ++ first ++ between ++ second ++ behind) = [first, second] := by
  obtain ⟨c, rest, rfl⟩ := List.exists_cons_of_ne_nil hne
  obtain ⟨hc, hrest⟩ := List.forall_mem_cons.mp hbetween
  rw [words_append_right hbehind, List.append_assoc, List.append_assoc, words_append_left hbefore,
    List.cons_append, words_append_cons hc, words_append_left hrest, words_of_isWord hfirst,
    words_of_isWord hsecond]
  rfl

theorem exists_run (inClass : Char → Bool) (text : List Char) : ∃ run rest, text = run ++ rest ∧
    (∀ c ∈ run, inClass c = true) ∧
    (rest = [] ∨ ∃ c tail, rest = c :: tail ∧ inClass c = false) := by
  induction text with
  | nil => exact ⟨[], [], rfl, by simp, .inl rfl⟩
  | cons c text ih =>
      cases hc : inClass c with
      | false => exact ⟨[], c :: text, rfl, by simp, .inr ⟨c, text, rfl, hc⟩⟩
      | true =>
          obtain ⟨run, rest, rfl, hrun, hrest⟩ := ih
          exact ⟨c :: run, rest, rfl, List.forall_mem_cons.mpr ⟨hc, hrun⟩, hrest⟩

theorem allBlank_or_exists_word (text : List Char) :
    AllBlank text ∨ ∃ blanks word rest, text = blanks ++ word ++ rest ∧
    AllBlank blanks ∧ IsWord word ∧ words text = word :: words rest ∧
    (rest = [] ∨ ∃ c tail, rest = c :: tail ∧ isBlank c = true) := by
  obtain ⟨blanks, body, rfl, hblanks, rfl | ⟨c, tail, rfl, hc⟩⟩ := exists_run isBlank text
  · rw [List.append_nil]
    exact .inl hblanks
  · obtain ⟨word, rest, hbody, hsolid, hrest⟩ := exists_run (!isBlank ·) tail
    have hword : IsWord (c :: word) := by
      refine ⟨List.cons_ne_nil c word, List.forall_mem_cons.mpr ⟨hc, fun x hx => ?_⟩⟩
      simpa using hsolid x hx
    refine .inr ⟨blanks, c :: word, rest, by simp [hbody], hblanks, hword, ?_, ?_⟩
    · rw [words_append_left hblanks, hbody, ← List.cons_append]
      obtain rfl | ⟨d, rest, rfl, hd⟩ := hrest
      · rw [List.append_nil, words_of_isWord hword, words_nil]
      · have hd : isBlank d = true := by simpa using hd
        rw [words_append_cons hd, words_of_isWord hword, ← List.nil_append (d :: rest),
          words_append_cons hd]
        rfl
    · obtain hrest | ⟨d, rest, hrest, hd⟩ := hrest
      · exact .inl hrest
      · exact .inr ⟨d, rest, hrest, by simpa using hd⟩

theorem words_eq_nil_iff : words text = [] ↔ AllBlank text := by
  constructor
  · intro h
    obtain hblank | ⟨_, _, _, -, -, -, hwords, -⟩ := allBlank_or_exists_word text
    · exact hblank
    · rw [h] at hwords
      cases hwords
  · exact words_of_allBlank

theorem words_eq_pair_iff : words text = [first, second] ↔ ∃ before between behind,
    text = before ++ first ++ between ++ second ++ behind ∧ AllBlank before ∧ IsWord first ∧
    AllBlank between ∧
      between ≠ [] ∧ IsWord second ∧ AllBlank behind := by
  constructor
  · intro h
    obtain hblank | ⟨before, word, rest, rfl, hbefore, hfirst, hwords, hrest⟩ :=
      allBlank_or_exists_word text
    · rw [words_of_allBlank hblank] at h
      cases h
    obtain ⟨rfl, hrestWords⟩ := List.cons.inj (h.symm.trans hwords)
    obtain hblank | ⟨between, word, behind, rfl, hbetween, hsecond, hwords, -⟩ :=
      allBlank_or_exists_word rest
    · rw [words_of_allBlank hblank] at hrestWords
      cases hrestWords
    obtain ⟨rfl, hbehind⟩ := List.cons.inj (hrestWords.trans hwords)
    refine ⟨before, between, behind, by simp, hbefore, hfirst, hbetween, ?_, hsecond,
      words_eq_nil_iff.mp hbehind.symm⟩
    -- the first word would not end where the second one starts
    rintro rfl
    obtain hnil | ⟨c, tail, htail, hc⟩ := hrest
    · simp [hsecond.ne_nil] at hnil
    · obtain ⟨d, word, rfl⟩ := List.exists_cons_of_ne_nil hsecond.ne_nil
      obtain ⟨rfl, -⟩ := List.cons.inj htail
      rw [hsecond.solid d List.mem_cons_self] at hc
      cases hc
  · rintro ⟨before, between, behind, rfl, hbefore, hfirst, hbetween, hne, hsecond, hbehind⟩
    exact words_of_pair hbefore hfirst hbetween hne hsecond hbehind

end Words

section Trimming

theorem allBlank_takeWhile (text : List Char) : AllBlank (text.takeWhile isBlank) := by
  intro c hc
  exact List.mem_takeWhile_imp hc

theorem exists_trim (text : List Char) :
    ∃ before behind, text = before ++ trim text ++ behind ∧ AllBlank before ∧
    AllBlank behind := by
  let body := (text.dropWhile isBlank).reverse
  refine ⟨text.takeWhile isBlank, (body.takeWhile isBlank).reverse, ?_,
    allBlank_takeWhile text, ?_⟩
  · calc text = text.takeWhile isBlank ++ body.reverse := by
          rw [List.reverse_reverse, List.takeWhile_append_dropWhile]
      _ = text.takeWhile isBlank ++
          (body.takeWhile isBlank ++ body.dropWhile isBlank).reverse := by
          rw [List.takeWhile_append_dropWhile]
      _ = text.takeWhile isBlank ++ trim text ++ (body.takeWhile isBlank).reverse := by
          rw [List.reverse_append, List.append_assoc]
          rfl
  · intro c hc
    exact allBlank_takeWhile body c (List.mem_reverse.mp hc)

theorem words_trim (text : List Char) : words (trim text) = words text := by
  obtain ⟨before, behind, htext, hbefore, hbehind⟩ := exists_trim text
  conv_rhs => rw [htext]
  rw [words_append_right hbehind, words_append_left hbefore]

theorem head?_trim (text : List Char) : (trim text).head? = (text.dropWhile isBlank).head? := by
  rw [trim]
  cases hbody : text.dropWhile isBlank with
  | nil => rfl
  | cons c rest =>
      have hc : isBlank c = false := by
        have hhead := List.head_dropWhile_not isBlank (l := text) (by simp [hbody])
        simpa [hbody] using hhead
      rw [List.reverse_cons, List.dropWhile_append]
      split <;> simp [hc]

theorem trim_append_left {blanks : List Char} (h : AllBlank blanks) (text : List Char) :
    trim (blanks ++ text) = trim text := by
  rw [trim, trim, List.dropWhile_append_of_pos h]

theorem trim_append_right {blanks : List Char} (h : AllBlank blanks) (text : List Char) :
    trim (text ++ blanks) = trim text := by
  have hblanks : ∀ c ∈ blanks.reverse, isBlank c = true := fun c hc =>
    h c (List.mem_reverse.mp hc)
  rw [trim, trim, List.dropWhile_append]
  split
  case isTrue hempty =>
    rw [List.isEmpty_iff.mp hempty, List.dropWhile_eq_nil_iff.mpr h]
  case isFalse => rw [List.reverse_append, List.dropWhile_append_of_pos hblanks]

/-- A text without the blanks around it: what is left neither starts nor ends with a blank. -/
structure IsTrim (text core : List Char) : Prop where
  around : ∃ before behind, text = before ++ core ++ behind ∧ AllBlank before ∧ AllBlank behind
  head : ∀ c, core.head? = some c → isBlank c = false
  last : ∀ c, core.getLast? = some c → isBlank c = false

theorem dropWhile_eq_self_of_head? {p : Char → Bool}
    (h : ∀ c, text.head? = some c → p c = false) :
    text.dropWhile p = text := by
  cases text with
  | nil => rfl
  | cons c rest => rw [List.dropWhile_cons_of_neg (by simp [h c rfl])]

theorem isBlank_of_head?_dropWhile {c : Char} (h : (text.dropWhile isBlank).head? = some c) :
    isBlank c = false := by
  have hhead := List.head?_dropWhile_not isBlank text
  rwa [h] at hhead

theorem isTrim_iff {core : List Char} : IsTrim text core ↔ trim text = core := by
  constructor
  · rintro ⟨⟨before, behind, rfl, hbefore, hbehind⟩, hhead, hlast⟩
    rw [trim_append_right hbehind, trim_append_left hbefore, trim,
      dropWhile_eq_self_of_head? hhead, dropWhile_eq_self_of_head? (by rwa [List.head?_reverse]),
      List.reverse_reverse]
  · rintro rfl
    refine ⟨exists_trim text, ?_, ?_⟩
    · intro c hc
      rw [head?_trim] at hc
      exact isBlank_of_head?_dropWhile hc
    · intro c hc
      rw [trim, List.getLast?_reverse] at hc
      exact isBlank_of_head?_dropWhile hc

theorem isComment_iff_head? :
    isComment text = true ↔ text.head? = none ∨ text.head? = some '#' := by
  cases text <;> simp [isComment]

/-- A line that says nothing: it is blank, or its first character other than a blank is a number
sign. -/
def Silent (line : List Char) : Prop :=
  AllBlank line ∨ ∃ indent rest, AllBlank indent ∧ line = indent ++ '#' :: rest

theorem isComment_trim_iff : isComment (trim text) = true ↔ Silent text := by
  rw [isComment_iff_head?, head?_trim]
  constructor
  · have htext : text = text.takeWhile isBlank ++ text.dropWhile isBlank :=
      List.takeWhile_append_dropWhile.symm
    rintro (hnone | hmark)
    · rw [List.head?_eq_none_iff.mp hnone, List.append_nil] at htext
      rw [htext]
      exact .inl (allBlank_takeWhile text)
    · obtain ⟨rest, hrest⟩ := List.head?_eq_some_iff.mp hmark
      rw [hrest] at htext
      exact .inr ⟨_, rest, allBlank_takeWhile text, htext⟩
  · rintro (hblank | ⟨indent, rest, hindent, rfl⟩)
    · left
      rw [List.head?_eq_none_iff, List.dropWhile_eq_nil_iff]
      exact hblank
    · right
      rw [List.dropWhile_append_of_pos hindent]
      rfl

theorem head?_trim_of_isWord {before word : List Char} (hbefore : AllBlank before)
    (hword : IsWord word) (rest : List Char) :
    (trim (before ++ word ++ rest)).head? = word.head? := by
  obtain ⟨c, word, rfl⟩ := List.exists_cons_of_ne_nil hword.ne_nil
  have hc : isBlank c = false := hword.solid c List.mem_cons_self
  rw [head?_trim, List.append_assoc, List.dropWhile_append_of_pos hbefore, List.cons_append,
    List.dropWhile_cons, hc]
  rfl

/-- The lines that say something, trimmed, with their numbers from a first one on. -/
def numbered (number : Nat) (pieces : List (List Char)) : List (Nat × List Char) :=
  (pieces.zipIdx number).filterMap fun p => if isComment (trim p.1) then none
    else some (p.2, trim p.1)

theorem numberedLines_eq (text : List Char) : numberedLines text = numbered 1 (lines text) :=
  rfl

variable {line : List Char}

theorem numbered_cons_of_comment (h : isComment (trim line) = true) (number : Nat)
    (rest : List (List Char)) :
    numbered number (line :: rest) = numbered (number + 1) rest := by
  simp [numbered, List.zipIdx_cons, h]

theorem numbered_cons (h : isComment (trim line) = false) (number : Nat)
    (rest : List (List Char)) :
    numbered number (line :: rest) = (number, trim line) :: numbered (number + 1) rest := by
  simp [numbered, List.zipIdx_cons, h]

end Trimming

section Marks

variable {mark rest before : List Char} {separator : Char}

theorem after?_eq_some_iff : after? mark text = some rest ↔ text = mark ++ rest := by
  induction mark generalizing text with
  | nil => simp [after?, eq_comm]
  | cons m mark ih =>
      cases text with
      | nil => simp [after?]
      | cons c text =>
          by_cases hm : m = c
          · simp [after?, hm, ih]
          · simp [after?, hm, Ne.symm hm]

theorem splitOnce?_eq_none_iff : splitOnce? separator text = none ↔ separator ∉ text := by
  induction text with
  | nil => simp [splitOnce?]
  | cons c text ih =>
      by_cases hc : c = separator
      · simp [splitOnce?, hc]
      · simp [splitOnce?, hc, ih, Ne.symm hc]

theorem splitOnce?_append (h : separator ∉ before) (behind : List Char) :
    splitOnce? separator (before ++ separator :: behind) = some (before, behind) := by
  induction before with
  | nil => simp [splitOnce?]
  | cons c before ih =>
      obtain ⟨hc, hbefore⟩ := not_or.mp (List.mem_cons.not.mp h)
      simp [splitOnce?, Ne.symm hc, ih hbefore]

theorem splitOnce?_trim (hseparator : isBlank separator = false) (h : separator ∉ before)
    (behind : List Char) :
    ∃ first second, splitOnce? separator (trim (before ++ separator :: behind)) =
      some (first, second) ∧
      trim first = trim before ∧ trim second = trim behind := by
  have hblank {blanks : List Char} (hblanks : AllBlank blanks) : separator ∉ blanks := by
    intro hmem
    rw [hblanks separator hmem] at hseparator
    cases hseparator
  obtain ⟨left, right, htext, hleft, hright⟩ := exists_trim (before ++ separator :: behind)
  have hmem : separator ∈ trim (before ++ separator :: behind) := by
    have hmem : separator ∈ before ++ separator :: behind := by simp
    rw [htext] at hmem
    simpa [hblank hleft, hblank hright] using hmem
  obtain ⟨first, second, hcore, hfirst⟩ := List.eq_append_cons_of_mem hmem
  -- both splits are at the first separator of the whole text
  have hsplit : before ++ separator :: behind = (left ++ first) ++ separator ::
      (second ++ right) := by
    rw [htext, hcore]
    simp
  have hnot : separator ∉ left ++ first := by simp [hblank hleft, hfirst]
  have heq := splitOnce?_append h behind
  rw [hsplit, splitOnce?_append hnot] at heq
  cases heq
  refine ⟨first, second, ?_, ?_, ?_⟩
  · rw [hcore, splitOnce?_append hfirst]
  · rw [trim_append_left hleft]
  · rw [trim_append_right hright]

end Marks

end FlowRecovery.Text
