import Mathlib
import FlowRecovery.Proofs.Settings.Requests

namespace FlowRecovery

namespace Settings

/-- What a line of a settings text says: nothing, or that the property with a key has a value. -/
inductive Says : List Char → Option (String × String) → Prop
  | nothing {line : List Char} (h : Text.Silent line) : Says line none
  | property {left right key value : List Char} (h : ¬ Text.Silent (left ++ '=' :: right))
      (hleft : '=' ∉ left)
      (hkey : Text.IsTrim left key) (hvalue : Text.IsTrim right value) :
      Says (left ++ '=' :: right) (some (String.ofList key, String.ofList value))

/-- Properties are set one after the other, each with success. -/
inductive Sets : Settings → List (String × String) → Settings → Prop
  | nil (s : Settings) : Sets s [] s
  | cons {s t u : Settings} {key value : String} {rest : List (String × String)}
      (h : (Request.property key value).run s = (.ok (), t)) (hrest : Sets t rest u) : Sets s
      ((key, value) :: rest) u

/-- All lines say nothing or something, and the properties of which they say something are set in
their order. -/
def Reads (s : Settings) (lines : List (List Char)) (t : Settings) : Prop :=
  ∃ items, List.Forall₂ Says lines items ∧ Sets s items.reduceOption t

/-- Reading stops at a line, which neither is silent nor has an equals sign, or whose property is
refused. -/
inductive Stops (s : Settings) (number : Nat) : List Char → SettingsError → Prop
  | malformed {line : List Char} (h : ¬ Text.Silent line) (hsign : '=' ∉ line) :
      Stops s number line (.malformedLine number)
  | refused {line : List Char} {key value : String} {error : SettingsError}
      (h : Says line (some (key, value)))
      (hrun : (Request.property key value).run s = (.error error, s)) : Stops s number line error

theorem Sets.eq_after {s t : Settings} {properties : List (String × String)}
    (h : Sets s properties t) :
    t = s.after (properties.map fun p => .property p.1 p.2) := by
  induction h with
  | nil => rfl
  | cons hrun _ ih => rw [ih, List.map_cons, after, after, List.foldl_cons, hrun]

section Lines

variable {line : List Char} {key value : String} {s t : Settings}

theorem set_of_run {result : Except SettingsError Unit}
    (h : (Request.property key value).run s = (result, t)) :
    s.set key value = result.map fun _ => t := by
  have hrun : (update key value).run s = (result, t) := h
  rw [set, hrun]

theorem setLine_of_says (h : Says line (some (key, value))) (s : Settings) (number : Nat) :
    s.setLine number (Text.trim line) = s.set key value := by
  cases h with
  | property _ hleft hkey hvalue =>
      obtain ⟨first, second, hsplit, hfirst, hsecond⟩ := Text.splitOnce?_trim (by decide) hleft _
      rw [setLine, hsplit]
      simp only [hfirst, hsecond, Text.isTrim_iff.mp hkey, Text.isTrim_iff.mp hvalue]

theorem setLine_of_not_mem (h : '=' ∉ line) (s : Settings) (number : Nat) :
    s.setLine number (Text.trim line) = .error (.malformedLine number) := by
  have htrim : '=' ∉ Text.trim line := by
    obtain ⟨before, behind, hline, -⟩ := Text.exists_trim line
    intro hmem
    apply h
    rw [hline]
    simp [hmem]
  rw [setLine, Text.splitOnce?_eq_none_iff.mpr htrim]

theorem Says.not_silent (h : Says line (some (key, value))) : ¬ Text.Silent line := by
  cases h
  assumption

theorem says_or_not_mem (line : List Char) :
    (∃ item, Says line item) ∨ (¬ Text.Silent line ∧ '=' ∉ line) := by
  by_cases hsilent : Text.Silent line
  · exact .inl ⟨none, .nothing hsilent⟩
  · by_cases hmem : '=' ∈ line
    · obtain ⟨left, right, rfl, hleft⟩ := List.eq_append_cons_of_mem hmem
      exact .inl ⟨_, .property hsilent hleft (Text.isTrim_iff.mpr rfl) (Text.isTrim_iff.mpr rfl)⟩
    · exact .inr ⟨hsilent, hmem⟩

end Lines

section Texts

variable {pieces before behind : List (List Char)} {line : List Char} {s t : Settings}
  {error : SettingsError}

/-- Reads lines into settings, with the number of the first one. -/
def readLines (s : Settings) (number : Nat) (pieces : List (List Char)) :
    Except SettingsError Settings :=
  (Text.numbered number pieces).foldlM (fun s line => s.setLine line.1 line.2) s

theorem parse_eq (text : String) : parse text = readLines {} 1 (Text.lines text.toList) := by
  rw [parse, Text.numberedLines_eq]
  rfl

theorem isComment_of_not_silent (h : ¬ Text.Silent line) :
    Text.isComment (Text.trim line) = false := by
  rw [Bool.eq_false_iff, ne_eq, Text.isComment_trim_iff]
  exact h

theorem readLines_cons_none (h : Says line none) (s : Settings) (number : Nat) :
    s.readLines number (line :: pieces) = s.readLines (number + 1) pieces := by
  cases h with
  | nothing h =>
      rw [readLines, Text.numbered_cons_of_comment (Text.isComment_trim_iff.mpr h), readLines]

theorem readLines_cons (h : ¬ Text.Silent line) (s : Settings) (number : Nat) :
    s.readLines number (line :: pieces) =
      s.setLine number (Text.trim line) >>= fun t => t.readLines (number + 1) pieces := by
  rw [readLines, Text.numbered_cons (isComment_of_not_silent h), List.foldlM_cons]
  rfl

theorem readLines_of_stops {number : Nat} (h : Stops s number line error) :
    s.readLines number (line :: pieces) = .error error := by
  cases h with
  | malformed h hsign => rw [readLines_cons h, setLine_of_not_mem hsign, error_bind]
  | refused h hrun =>
      rw [readLines_cons h.not_silent, setLine_of_says h, set_of_run hrun, Except.map, error_bind]

theorem readLines_append (h : Reads s before t) (number : Nat) (pieces : List (List Char)) :
    s.readLines number (before ++ pieces) = t.readLines (before.length + number) pieces := by
  obtain ⟨items, hitems, hsets⟩ := h
  induction hitems generalizing s number with
  | nil =>
      cases hsets
      rw [List.nil_append, List.length_nil, Nat.zero_add]
  | @cons line item before items hline _ ih =>
      rw [List.cons_append, List.length_cons, Nat.add_assoc, Nat.add_comm 1]
      cases item with
      | none =>
          rw [List.reduceOption_cons_of_none] at hsets
          rw [readLines_cons_none hline, ih _ hsets]
      | some entry =>
          rw [List.reduceOption_cons_of_some] at hsets
          cases hsets with
          | cons hrun hrest =>
              rw [readLines_cons hline.not_silent, setLine_of_says hline, set_of_run hrun,
                Except.map, ok_bind, ih _ hrest]

theorem reads_nil (s : Settings) : Reads s [] s :=
  ⟨[], .nil, .nil s⟩

theorem Reads.silent (h : Says line none) (hreads : Reads s pieces t) :
    Reads s (line :: pieces) t := by
  obtain ⟨items, hitems, hsets⟩ := hreads
  refine ⟨none :: items, .cons h hitems, ?_⟩
  rwa [List.reduceOption_cons_of_none]

theorem Reads.property {key value : String} {u : Settings} (h : Says line (some (key, value)))
    (hrun : (Request.property key value).run s = (.ok (), t)) (hreads : Reads t pieces u) :
    Reads s (line :: pieces) u := by
  obtain ⟨items, hitems, hsets⟩ := hreads
  refine ⟨some (key, value) :: items, .cons h hitems, ?_⟩
  rw [List.reduceOption_cons_of_some]
  exact .cons hrun hsets

theorem reads_or_stops (s : Settings) (number : Nat) (pieces : List (List Char)) :
    (∃ t, Reads s pieces t) ∨ ∃ before line behind t error, pieces = before ++ line :: behind ∧
      Reads s before t ∧
      Stops t (before.length + number) line error := by
  induction pieces generalizing s number with
  | nil => exact .inl ⟨s, reads_nil s⟩
  | cons line pieces ih =>
      -- what is read of the first line goes before all that is read of the others
      have hgoesOn {t : Settings}
          (hline : ∀ {pieces u}, Reads t pieces u → Reads s (line :: pieces) u) :
          (∃ u, Reads s (line :: pieces) u) ∨
          ∃ before stop behind u error, line :: pieces = before ++ stop :: behind ∧
            Reads s before u ∧
            Stops u (before.length + number) stop error := by
        rcases ih t (number + 1) with
          ⟨u, hreads⟩ | ⟨before, stop, behind, u, error, rfl, hreads, hstops⟩
        · exact .inl ⟨u, hline hreads⟩
        · refine .inr ⟨line :: before, stop, behind, u, error, rfl, hline hreads, ?_⟩
          rwa [List.length_cons, Nat.add_assoc, Nat.add_comm 1]
      rcases says_or_not_mem line with ⟨item, hline⟩ | ⟨hsilent, hsign⟩
      · cases item with
        | none => exact hgoesOn (.silent hline)
        | some entry =>
            rcases asks_or_fails (.property entry.1 entry.2) s with
              ⟨change, -, hrun⟩ | ⟨-, error, hrun⟩
            · exact hgoesOn (.property hline hrun)
            · exact .inr ⟨[], line, pieces, s, error, rfl, reads_nil s, .refused hline hrun⟩
      · exact .inr ⟨[], line, pieces, s, _, rfl, reads_nil s, .malformed hsilent hsign⟩

theorem parse_of_reads {text : String} (h : Reads {} (Text.lines text.toList) s) :
    parse text = .ok s := by
  have hread := readLines_append h 1 []
  rw [List.append_nil] at hread
  rw [parse_eq, hread]
  rfl

theorem parse_of_stops {text : String} (htext : Text.lines text.toList = before ++ line :: behind)
    (h : Reads {} before s) (hstops : Stops s (before.length + 1) line error) :
    parse text = .error error := by
  rw [parse_eq, htext, readLines_append h, readLines_of_stops hstops]

theorem parse_eq_ok_iff {text : String} :
    parse text = .ok s ↔ Reads {} (Text.lines text.toList) s := by
  constructor
  · intro h
    rcases reads_or_stops {} 1 (Text.lines text.toList) with
      ⟨t, hreads⟩ | ⟨_, _, _, _, _, hlines, hreads, hstops⟩
    · obtain rfl := Except.ok.inj (h.symm.trans (parse_of_reads hreads))
      exact hreads
    · rw [parse_of_stops hlines hreads hstops] at h
      cases h
  · exact parse_of_reads

theorem parse_eq_error_iff {text : String} : parse text = .error error ↔
    ∃ before line behind s, Text.lines text.toList = before ++ line :: behind ∧
      Reads {} before s ∧
      Stops s (before.length + 1) line error := by
  constructor
  · intro h
    rcases reads_or_stops {} 1 (Text.lines text.toList) with
      ⟨t, hreads⟩ | ⟨before, line, behind, t, other, hlines, hreads, hstops⟩
    · rw [parse_of_reads hreads] at h
      cases h
    · obtain rfl := Except.error.inj (h.symm.trans (parse_of_stops hlines hreads hstops))
      exact ⟨before, line, behind, t, hlines, hreads, hstops⟩
  · rintro ⟨before, line, behind, t, hlines, hreads, hstops⟩
    exact parse_of_stops hlines hreads hstops

end Texts

/-- A request that fails changes nothing, and one that succeeds makes the change that it asks for.
After a sequence of requests the settings hold what was asked for last and else what they held at
the start, and the registers stand in the order in which they were last set, behind those of the
start. Reading a text sets the properties of its lines in their order, and fails at the first line
that has no equals sign or whose property is refused. -/
theorem updates_are_atomic_and_last_wins :
    (∀ (request : Request) (s t : Settings) (error : SettingsError),
      request.run s = (.error error, t) → t = s) ∧
    (∀ (request : Request) (s : Settings),
      (∃ change, request.Asks change ∧ request.run s = (.ok (), change.apply s)) ∨
      ((∀ change, ¬ request.Asks change) ∧ ∃ error, request.run s = (.error error, s))) ∧
    (∀ (start : Settings) (requests : List Request),
      let final := start.after requests
      (∀ change, change.HoldsIn final ↔
        Last requests change ∨ (change.HoldsIn start ∧ Untouched requests change.property)) ∧
      ((start.initRegisters.map Prod.fst).Nodup → (final.initRegisters.map Prod.fst).Nodup) ∧
      ∃ seeds, IsSeeding requests seeds ∧
        final.initRegisters = start.initRegisters.filter (·.1 ∉ seeds.map Prod.fst) ++ seeds) ∧
    ∀ text : String,
      let lines := Text.lines text.toList
      Text.IsLines text.toList lines ∧
      (∀ s, parse text = .ok s ↔ Reads {} lines s) ∧
      (∀ s, parse text = .ok s → (s.initRegisters.map Prod.fst).Nodup) ∧
      ∀ error, parse text = .error error ↔
        ∃ before line behind s, lines = before ++ line :: behind ∧ Reads {} before s ∧
          Stops s (before.length + 1) line error := by
  refine ⟨?_, ?_, ?_, ?_⟩
  · intro request s t error h
    rcases asks_or_fails request s with ⟨change, -, hrun⟩ | ⟨-, other, hrun⟩
    · cases h.symm.trans hrun
    · cases h.symm.trans hrun
      rfl
  · exact asks_or_fails
  · intro start requests final
    exact ⟨holdsIn_after_iff start requests, fun h => nodup_after h requests,
      exists_isSeeding start requests⟩
  · intro text lines
    refine ⟨Text.isLines_iff.mpr rfl, fun s => parse_eq_ok_iff, ?_, fun error =>
      parse_eq_error_iff⟩
    intro s h
    obtain ⟨items, -, hsets⟩ := parse_eq_ok_iff.mp h
    rw [hsets.eq_after]
    exact nodup_after (by simp) _

/-- The stack pointer is set again under another key, after a count that is refused; and a text
whose second line is refused and whose third line has no equals sign. -/
theorem updates_are_atomic_and_last_wins_of_reseeding :
    let refused : Request := .property "disas.symsim.nb-visits-per-address" "-1"
    let requests : List Request :=
      [.property "disas.symsim.x86_32.init-esp" "0x7fff0000", .initRegister "ebp" 16, refused,
        .property "disas.symsim.init-register.esp" "4096"]
    let final := Settings.after {} requests
    (∃ error, refused.run final = (.error error, final)) ∧
    final.initRegisters = [("ebp", 16), ("esp", 4096)] ∧
    (final.initRegisters.map Prod.fst).Nodup ∧
    Last requests (.register "esp" 4096) ∧ ¬ Last requests (.register "esp" 0x7fff0000) ∧
    ∃ before line behind s,
      Text.lines " # a note\ndisas.symsim.debug.show-states = maybe\noops".toList =
        before ++ line :: behind ∧ Reads {} before s ∧
      Stops s (before.length + 1) line
        (.invalidValue "disas.symsim.debug.show-states" "maybe") := by
  intro refused requests final
  obtain ⟨hatomic, hasks, hafter, htext⟩ := updates_are_atomic_and_last_wins
  obtain ⟨hholds, hnodup, -⟩ := hafter {} requests
  have hrefused : (refused.run final).1 =
      .error (.invalidValue "disas.symsim.nb-visits-per-address" "-1") := by
    decide +kernel
  have hfinal : final.initRegisters = [("ebp", 16), ("esp", 4096)] := by decide +kernel
  refine ⟨⟨_, Prod.ext hrefused (hatomic refused final _ _ (Prod.ext hrefused rfl))⟩, hfinal,
    hnodup (by simp), ?_, ?_, ((htext _).2.2.2 _).mp (by decide +kernel)⟩
  · have hesp := (hholds (.register "esp" 4096)).mp (by simp [Change.HoldsIn, final, hfinal])
    simpa [Change.HoldsIn] using hesp
  · intro hlast
    have hesp := (hholds (.register "esp" 0x7fff0000)).mpr (.inl hlast)
    simp [Change.HoldsIn, final, hfinal] at hesp

end Settings

end FlowRecovery
