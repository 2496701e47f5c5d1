import Mathlib
import FlowRecovery.Proofs.Image.SymbolFile

namespace FlowRecovery

namespace SymbolTable

variable {table : SymbolTable} {a b : UInt64} {n m : String}

/-- Addresses have the names that have them. -/
def Inverse (table : SymbolTable) : Prop :=
  ∀ a n, table.name? a = some n ↔ table.address? n = some a

section Insertion

/-- The names of addresses without the address that has a name. -/
def evicted (table : SymbolTable) (n : String) : Std.ExtTreeMap UInt64 String :=
  (table.byName[n]?).elim table.byAddress table.byAddress.erase

theorem insert_eq (table : SymbolTable) (a : UInt64) (n : String) : table.insert a n =
    { byAddress := (table.evicted n).insert a n
      byName := ((table.evicted n)[a]?).elim (table.byName.insert n a) fun old =>
        if old = n then table.byName.insert n a else (table.byName.insert n a).erase old } := by
  rw [insert, evicted]
  cases table.byName[n]? with
  | none => cases hold : table.byAddress[a]? <;> simp [hold]
  | some last => cases hold : (table.byAddress.erase last)[a]? <;> simp [hold]

theorem getElem?_evicted (table : SymbolTable) (n : String) (b : UInt64) :
    (table.evicted n)[b]? = if table.address? n = some b then none else table.name? b := by
  rw [evicted, address?, name?]
  cases table.byName[n]? with
  | none => rfl
  | some last =>
      simp only [Option.elim_some, Std.ExtTreeMap.getElem?_erase,
        Std.LawfulEqCmp.compare_eq_iff_eq, Option.some_inj]

theorem name?_insert (table : SymbolTable) (a : UInt64) (n : String) (b : UInt64) :
    (table.insert a n).name? b =
    if a = b then some n else if table.address? n = some b then none else table.name? b := by
  rw [name?, insert_eq]
  simp only [Std.ExtTreeMap.getElem?_insert, Std.LawfulEqCmp.compare_eq_iff_eq, getElem?_evicted]

theorem address?_insert (h : table.Inverse) (a : UInt64) (n m : String) :
    (table.insert a n).address? m =
    if n = m then some a else if table.name? a = some m then none else table.address? m := by
  have hinsert : (table.byName.insert n a)[m]? = if n = m then some a else table.address? m := by
    simp only [Std.ExtTreeMap.getElem?_insert, Std.LawfulEqCmp.compare_eq_iff_eq]
    rfl
  rw [address?, insert_eq, getElem?_evicted, if_congr (h a n).symm rfl rfl]
  cases hname : table.name? a with
  | none => simpa using hinsert
  | some old =>
      by_cases hold : old = n
      · -- the address had the inserted name already
        subst hold
        rw [if_pos rfl, Option.elim_none, hinsert]
        by_cases hm : old = m <;> simp [hm]
      · rw [if_neg (by simpa using hold), Option.elim_some, if_neg hold]
        simp only [Std.ExtTreeMap.getElem?_erase, Std.LawfulEqCmp.compare_eq_iff_eq, hinsert,
          Option.some_inj]
        by_cases hm : n = m
        · subst hm
          simp [hold]
        · simp [hm]

/-- A partner that is replaced in one of two inverse maps: a pair is the new one, or it was there
before and shares neither side with the new one. -/
theorem replaced_eq_some_iff {α β : Type} [DecidableEq α] [DecidableEq β] {forth : α → Option β}
    {back : β → Option α} (h : ∀ x y, forth x = some y ↔ back y = some x) {x x' : α} {y y' : β} :
    (if x = x' then some y else if back y = some x' then none else forth x') = some y' ↔
      (x = x' ∧ y = y') ∨ (x ≠ x' ∧ y ≠ y' ∧ forth x' = some y') := by
  by_cases hx : x = x'
  · simp [hx]
  · rw [if_neg hx, Option.ite_none_left_eq_some, ← h x' y]
    constructor
    · rintro ⟨hne, hy'⟩
      refine .inr ⟨hx, ?_, hy'⟩
      rintro rfl
      exact hne hy'
    · rintro (⟨heq, -⟩ | ⟨-, hne, hy'⟩)
      · exact absurd heq hx
      · refine ⟨fun hy => hne ?_, hy'⟩
        exact Option.some.inj (hy.symm.trans hy')

theorem name?_insert_eq_some_iff (h : table.Inverse) : (table.insert a n).name? b = some m ↔
    (a = b ∧ n = m) ∨ (a ≠ b ∧ n ≠ m ∧ table.name? b = some m) := by
  rw [name?_insert]
  exact replaced_eq_some_iff h

theorem address?_insert_eq_some_iff (h : table.Inverse) : (table.insert a n).address? m = some b ↔
    (n = m ∧ a = b) ∨ (n ≠ m ∧ a ≠ b ∧ table.address? m = some b) := by
  rw [address?_insert h]
  exact replaced_eq_some_iff fun m b => (h b m).symm

theorem inverse_empty : Inverse {} := by
  intro a n
  simp [name?, address?]

theorem Inverse.insert (h : table.Inverse) (a : UInt64) (n : String) :
    (table.insert a n).Inverse := by
  intro b m
  rw [name?_insert_eq_some_iff h, address?_insert_eq_some_iff h, h b m, and_comm, and_left_comm]

end Insertion

section Histories

variable {history entries : List (UInt64 × String)} {entry : UInt64 × String}

/-- An entry was inserted, and after its last insertion neither its address nor its name with
another partner. -/
def Standing (history : List (UInt64 × String)) (a : UInt64) (n : String) : Prop :=
  ∃ before after, history = before ++ (a, n) :: after ∧ (a, n) ∉ after ∧
    ∀ entry ∈ after, (entry.1 = a → entry.2 = n) ∧ (entry.2 = n → entry.1 = a)

theorem not_standing_nil : ¬ Standing [] a n := by
  rintro ⟨before, after, h, -⟩
  simp at h

theorem standing_concat : Standing (history ++ [entry]) a n ↔
    (entry.1 = a ∧ entry.2 = n) ∨ (entry.1 ≠ a ∧ entry.2 ≠ n ∧ Standing history a n) := by
  constructor
  · rintro ⟨before, after, heq, hlast, hpartners⟩
    rcases List.eq_nil_or_concat after with rfl | ⟨after, last, rfl⟩
    · obtain ⟨-, hentry⟩ := List.append_inj' heq rfl
      obtain rfl := List.singleton_inj.mp hentry
      exact .inl ⟨rfl, rfl⟩
    · rw [List.concat_eq_append] at heq hlast hpartners
      rw [← List.cons_append, ← List.append_assoc] at heq
      obtain ⟨rfl, hentry⟩ := List.append_inj' heq rfl
      obtain rfl := List.singleton_inj.mp hentry
      obtain ⟨hafter, hother⟩ := List.forall_mem_append.mp hpartners
      obtain ⟨haddress, hname⟩ := hother entry (List.mem_singleton_self entry)
      have hne (ha : entry.1 = a) (hn : entry.2 = n) : False :=
        hlast (List.mem_append_right after (List.mem_singleton.mpr (Prod.ext ha.symm hn.symm)))
      refine .inr ⟨fun ha => hne ha (haddress ha), fun hn => hne (hname hn) hn, before, after,
        rfl, ?_, hafter⟩
      exact fun hmem => hlast (List.mem_append_left [entry] hmem)
  · rintro (⟨rfl, rfl⟩ | ⟨ha, hn, before, after, rfl, hlast, hpartners⟩)
    · exact ⟨history, [], rfl, by simp, by simp⟩
    · refine ⟨before, after ++ [entry], by simp, ?_, List.forall_mem_append.mpr ⟨hpartners, ?_⟩⟩
      · rw [List.mem_append, List.mem_singleton]
        rintro (hmem | rfl)
        · exact hlast hmem
        · exact ha rfl
      · intro other hother
        obtain rfl := List.mem_singleton.mp hother
        exact ⟨fun h => absurd h ha, fun h => absurd h hn⟩

/-- What a table holds is what stands in the history of its insertions. -/
structure Tracks (history : List (UInt64 × String)) (table : SymbolTable) : Prop where
  inverse : table.Inverse
  standing : ∀ a n, table.name? a = some n ↔ Standing history a n

theorem tracks_empty : Tracks [] {} where
  inverse := inverse_empty
  standing a n := by simp [name?, not_standing_nil]

theorem Tracks.insert (h : Tracks history table) (entry : UInt64 × String) :
    Tracks (history ++ [entry]) (table.insert entry.1 entry.2) where
  inverse := h.inverse.insert entry.1 entry.2
  standing a n := by rw [name?_insert_eq_some_iff h.inverse, standing_concat, h.standing]

theorem Tracks.insertAll (h : Tracks history table) (entries : List (UInt64 × String)) :
    Tracks (history ++ entries) (table.insertAll entries) := by
  induction entries generalizing history table with
  | nil =>
      rw [List.append_nil]
      exact h
  | cons entry entries ih =>
      rw [List.append_cons]
      exact ih (h.insert entry)

end Histories

section Nearest

theorem mem_toList_iff : (a, n) ∈ table.toList ↔ table.name? a = some n :=
  Std.ExtTreeMap.mem_toList_iff_getElem?_eq_some

theorem pairwise_toList (table : SymbolTable) : table.toList.Pairwise (·.1 < ·.1) := by
  refine Std.ExtTreeMap.ordered_keys_toList.imp fun {first second} h => ?_
  exact compareOfLessAndEq_eq_lt.mp h

/-- An entry is the nearest one to an address from below: of the entries at or below the address,
it has the greatest address. -/
structure IsNearest (table : SymbolTable) (x a : UInt64) (n : String) : Prop where
  present : table.name? a = some n
  le : a ≤ x
  greatest : ∀ b m, table.name? b = some m → b ≤ x → b ≤ a

theorem containing?_eq_none_iff {x : UInt64} :
    table.containing? x = none ↔ ∀ a n, table.name? a = some n → ¬ a ≤ x := by
  rw [containing?, List.find?_eq_none]
  simp only [List.mem_reverse, Prod.forall, decide_eq_true_eq]
  exact forall₂_congr fun a n => imp_congr_left mem_toList_iff

theorem isNearest_of_containing? {x : UInt64} (h : table.containing? x = some (a, n)) :
    table.IsNearest x a n := by
  rw [containing?, List.find?_eq_some_iff_append] at h
  obtain ⟨hle, above, below, hlist, habove⟩ := h
  simp only [Bool.not_eq_true', decide_eq_true_eq, decide_eq_false_iff_not] at hle habove
  have hentries : table.toList = below.reverse ++ (a, n) :: above.reverse := by
    rw [← List.reverse_reverse table.toList, hlist]
    simp
  have hsorted := pairwise_toList table
  rw [hentries, List.pairwise_append] at hsorted
  refine ⟨?_, hle, fun b m hb hbx => ?_⟩
  · rw [← mem_toList_iff, hentries]
    simp
  · rw [← mem_toList_iff, hentries, List.mem_append, List.mem_cons, Prod.mk.injEq] at hb
    rcases hb with hbelow | ⟨rfl, -⟩ | hbehind
    · have hlt : (b, m).1 < (a, n).1 := hsorted.2.2 _ hbelow _ List.mem_cons_self
      exact UInt64.le_of_lt hlt
    · exact UInt64.le_refl b
    · exact absurd hbx (habove _ (List.mem_reverse.mp hbehind))

theorem containing?_eq_some_iff {x : UInt64} :
    table.containing? x = some (a, n) ↔ table.IsNearest x a n := by
  constructor
  · exact isNearest_of_containing?
  · intro h
    cases hfound : table.containing? x with
    | none => exact absurd h.le (containing?_eq_none_iff.mp hfound a n h.present)
    | some entry =>
        have hentry : table.IsNearest x entry.1 entry.2 := isNearest_of_containing? hfound
        have ha : entry.1 = a :=
          UInt64.le_antisymm (h.greatest _ _ hentry.present hentry.le)
            (hentry.greatest _ _ h.present h.le)
        have hn := h.present
        rw [← ha, hentry.present] at hn
        rw [← ha, ← Option.some.inj hn]

end Nearest

/-- The insertions that made a table to start from: none for the empty one, and those of its text
for one that was read. -/
inductive Starts : SymbolTable → List (UInt64 × String) → Prop
  | empty : Starts {} []
  | parsed {text : String} {table : SymbolTable} {entries : List (UInt64 × String)}
      (hparse : parse text = .ok table)
      (hlists : Lists text entries) : Starts table entries

theorem Starts.tracks {entries : List (UInt64 × String)} (h : Starts table entries) :
    Tracks entries table := by
  cases h with
  | empty => exact tracks_empty
  | parsed hparse hlists =>
      obtain rfl := Except.ok.inj (hparse.symm.trans (parse_of_lists hlists))
      exact tracks_empty.insertAll entries

theorem exists_starts_of_parse {text : String} (h : parse text = .ok table) :
    ∃ entries, Starts table entries := by
  rcases lists_or_first (Text.isLines_iff.mpr rfl) with
    ⟨entries, hlists⟩ | ⟨before, line, behind, -, -, -, herror⟩
  · exact ⟨entries, .parsed h hlists⟩
  · rw [h] at herror
    cases herror

/-- From the empty table or one that was read on, the two directions of a table stay inverse to
each other under insertions. It holds the entries that were inserted last with their address and
with their name, and the entry found for an address is the nearest one from below. -/
theorem insertions_keep_inverse {start : SymbolTable}
    (hstart : start = {} ∨ ∃ text, parse text = .ok start) :
    (∃ first, Starts start first) ∧ ∀ first, Starts start first → ∀ later,
      let table := start.insertAll later
      (∀ a n, table.name? a = some n ↔ table.address? n = some a) ∧
      (∀ a n, table.name? a = some n ↔ Standing (first ++ later) a n) ∧
      ∀ x, (∀ a n, table.containing? x = some (a, n) ↔ table.IsNearest x a n) ∧
        (table.containing? x = none ↔ ∀ a n, table.name? a = some n → ¬ a ≤ x) := by
  constructor
  · rcases hstart with rfl | ⟨text, hparse⟩
    · exact ⟨[], .empty⟩
    · exact exists_starts_of_parse hparse
  · intro first hfirst later table
    have htracks : Tracks (first ++ later) table := hfirst.tracks.insertAll later
    exact ⟨htracks.inverse, htracks.standing, fun x =>
      ⟨fun a n => containing?_eq_some_iff, containing?_eq_none_iff⟩⟩

/-- An insertion over a table that was read, which takes the address of one entry and the name of
another. -/
theorem insertions_keep_inverse_of_double_eviction :
    let text := "0x10 main\n0x20 helper"
    let entries : List (UInt64 × String) := [(0x10, "main"), (0x20, "helper")]
    ∃ start, parse text = .ok start ∧ Starts start entries ∧
      let table := start.insertAll [(0x10, "helper")]
      (table.name? 0x10 = some "helper" ∧ table.address? "helper" = some 0x10) ∧
      ¬ Standing (entries ++ [(0x10, "helper")]) 0x10 "main" ∧
      table.IsNearest 0x2f 0x10 "helper" := by
  intro text entries
  have hmain : Says "0x10 main".toList (some (0x10, "main")) :=
    says_entry_iff.mpr ⟨"0x10".toList, "main".toList, by decide +kernel, by decide +kernel, rfl⟩
  have hhelper : Says "0x20 helper".toList (some (0x20, "helper")) :=
    says_entry_iff.mpr ⟨"0x20".toList, "helper".toList, by decide +kernel, by decide +kernel, rfl⟩
  have hlists : Lists text entries :=
    ⟨_, _, Text.isLines_iff.mpr (by decide +kernel), .cons hmain (.cons hhelper .nil), rfl⟩
  have hparse := parse_of_lists hlists
  have hstarts : Starts (insertAll {} entries) entries := .parsed hparse hlists
  obtain ⟨hinverse, hstanding, hnearest⟩ :=
    (insertions_keep_inverse (.inr ⟨text, hparse⟩)).2 entries hstarts [(0x10, "helper")]
  have hname : ((insertAll {} entries).insertAll [(0x10, "helper")]).name? 0x10 =
      some "helper" := by decide +kernel
  refine ⟨_, hparse, hstarts, ⟨hname, (hinverse _ _).mp hname⟩, ?_,
    ((hnearest _).1 _ _).mp (by decide +kernel)⟩
  rw [← hstanding, hname]
  decide

end SymbolTable

end FlowRecovery
