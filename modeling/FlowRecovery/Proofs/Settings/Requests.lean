import Mathlib
import FlowRecovery.Proofs.Settings.Update

namespace FlowRecovery

namespace Settings

/-- What settings are asked for: to set a property, or the initial value of a register. -/
inductive Request where
  | property (key value : String)
  | initRegister (name : String) (value : UInt64)

namespace Request

def perform : Request → Update Unit
  | property key value => update key value
  | initRegister name value => modify (·.setInitRegister name value)

/-- The answer to a request, and the settings after it. -/
def run (request : Request) (s : Settings) : Except SettingsError Unit × Settings :=
  request.perform.run s

/-- The changes that a request asks for. -/
def Asks : Request → Change → Prop
  | property key value, change => Names key change.property ∧ change.Denoted value
  | initRegister name value, change => change = .register name value

end Request

/-- The settings after some requests, whether they failed or not. -/
def after (s : Settings) (requests : List Request) : Settings :=
  requests.foldl (fun s request => (request.run s).2) s

section Requests

variable {request : Request} {change other : Change}

theorem run_of_asks (h : request.Asks change) (s : Settings) :
    request.run s = (.ok (), change.apply s) := by
  cases request with
  | property key value => exact update_of_denoted h.1 h.2 s
  | initRegister name value =>
      obtain rfl : change = .register name value := h
      rfl

theorem run_of_not_asks (h : ∀ change, ¬ request.Asks change) (s : Settings) :
    ∃ error, request.run s = (.error error, s) := by
  cases request with
  | property key value =>
      by_cases hkey : ∃ p, Names key p
      · obtain ⟨p, hkey⟩ := hkey
        refine ⟨_, update_of_not_denoted hkey ?_ s⟩
        rintro change rfl hvalue
        exact h change ⟨hkey, hvalue⟩
      · exact ⟨_, update_of_unknown (not_exists.mp hkey) value s⟩
  | initRegister name value => exact absurd rfl (h (.register name value))

/-- A request makes the change that it asks for, or it fails and changes nothing. -/
theorem asks_or_fails (request : Request) (s : Settings) :
    (∃ change, request.Asks change ∧ request.run s = (.ok (), change.apply s)) ∨
    ((∀ change, ¬ request.Asks change) ∧ ∃ error, request.run s = (.error error, s)) := by
  by_cases hasks : ∃ change, request.Asks change
  · obtain ⟨change, hasks⟩ := hasks
    exact .inl ⟨change, hasks, run_of_asks hasks s⟩
  · exact .inr ⟨not_exists.mp hasks, run_of_not_asks (not_exists.mp hasks) s⟩

theorem Change.Denoted.unique {value : String} (h : change.Denoted value)
    (h' : other.Denoted value) (hproperty : change.property = other.property) :
    change = other := by
  have hnumber {n m : UInt64} (hn : Text.Denotes value.toList n.toNat)
      (hm : Text.Denotes value.toList m.toNat) :
      n = m :=
    Except.ok.inj ((@number_eq_ok_iff "" value n).mpr hn ▸ (@number_eq_ok_iff "" value m).mpr hm)
  have hcount {n m : Nat} (hn : Counts value.toList n) (hm : Counts value.toList m) : n = m :=
    Except.ok.inj ((@count_eq_ok_iff "" value n).mpr hn ▸ (@count_eq_ok_iff "" value m).mpr hm)
  have hflag {a b : Bool} (ha : Flags value a) (hb : Flags value b) : a = b :=
    Except.ok.inj ((@flag_eq_ok_iff "" value a).mpr ha ▸ (@flag_eq_ok_iff "" value b).mpr hb)
  cases change with
  | register name n =>
      cases other with
      | register name' m =>
          cases hproperty
          rw [hnumber h h']
      | _ => cases hproperty
  | maxVisits n =>
      cases other with
      | maxVisits m => rw [hcount h h']
      | _ => cases hproperty
  | showStates a =>
      cases other with
      | showStates b => rw [hflag h h']
      | _ => cases hproperty
  | jumpThreshold n =>
      cases other with
      | jumpThreshold m => rw [hcount h h']
      | _ => cases hproperty
  | mapToMemory a =>
      cases other with
      | mapToMemory b => rw [hflag h h']
      | _ => cases hproperty

theorem asks_unique (h : request.Asks change) (h' : request.Asks other) : change = other := by
  cases request with
  | property key value =>
      apply h.2.unique h'.2
      exact Option.some.inj ((property?_of_names h.1).symm.trans (property?_of_names h'.1))
  | initRegister name value => exact Eq.trans h (Eq.symm h')

end Requests

section Histories

variable {requests : List Request} {request : Request} {change c : Change} {p : Property}

/-- No request asks for a change of the property. -/
def Untouched (requests : List Request) (p : Property) : Prop :=
  ∀ request ∈ requests, ∀ change, request.Asks change → change.property ≠ p

/-- The last request for a change of the property asks for this change. -/
def Last (requests : List Request) (change : Change) : Prop :=
  ∃ before request behind, requests = before ++ request :: behind ∧ request.Asks change ∧
    Untouched behind change.property

theorem untouched_concat :
    Untouched (requests ++ [request]) p ↔ Untouched requests p ∧ Untouched [request] p :=
  List.forall_mem_append

theorem untouched_singleton :
    Untouched [request] p ↔ ∀ change, request.Asks change → change.property ≠ p :=
  List.forall_mem_singleton

theorem untouched_singleton_of_asks (h : request.Asks change) :
    Untouched [request] p ↔ change.property ≠ p := by
  rw [untouched_singleton]
  constructor
  · intro huntouched
    exact huntouched change h
  · rintro hne c hc
    rwa [asks_unique hc h]

theorem last_concat : Last (requests ++ [request]) c ↔
    request.Asks c ∨ (Last requests c ∧ Untouched [request] c.property) := by
  constructor
  · rintro ⟨before, asked, behind, heq, hasks, hbehind⟩
    rcases List.eq_nil_or_concat behind with rfl | ⟨behind, last, rfl⟩
    · obtain ⟨-, hrequest⟩ := List.append_inj' heq rfl
      obtain rfl := List.singleton_inj.mp hrequest
      exact .inl hasks
    · rw [List.concat_eq_append] at heq hbehind
      rw [← List.cons_append, ← List.append_assoc] at heq
      obtain ⟨rfl, hrequest⟩ := List.append_inj' heq rfl
      obtain rfl := List.singleton_inj.mp hrequest
      obtain ⟨hbehind, hlast⟩ := untouched_concat.mp hbehind
      exact .inr ⟨⟨before, asked, behind, rfl, hasks, hbehind⟩, hlast⟩
  · rintro (hasks | ⟨⟨before, asked, behind, rfl, hasks, hbehind⟩, hlast⟩)
    · exact ⟨requests, request, [], rfl, hasks, by simp [Untouched]⟩
    · exact ⟨before, asked, behind ++ [request], by simp, hasks,
        untouched_concat.mpr ⟨hbehind, hlast⟩⟩

theorem mem_setInitRegister_iff {s : Settings} {name name' : String} {value value' : UInt64} :
    (name', value') ∈ (s.setInitRegister name value).initRegisters ↔
      (name = name' ∧ value = value') ∨ (name ≠ name' ∧ (name', value') ∈ s.initRegisters) := by
  simp only [setInitRegister, List.mem_append, List.mem_filter, List.mem_singleton, Prod.mk.injEq,
    decide_eq_true_eq]
  constructor
  · rintro (⟨hmem, hne⟩ | ⟨rfl, rfl⟩)
    · exact .inr ⟨Ne.symm hne, hmem⟩
    · exact .inl ⟨rfl, rfl⟩
  · rintro (⟨rfl, rfl⟩ | ⟨hne, hmem⟩)
    · exact .inr ⟨rfl, rfl⟩
    · exact .inl ⟨hmem, Ne.symm hne⟩

theorem holdsIn_apply (s : Settings) : c.HoldsIn (change.apply s) ↔
    change = c ∨ (change.property ≠ c.property ∧ c.HoldsIn s) := by
  cases change with
  | register name value =>
      cases c with
      | register name' value' =>
          simpa [Change.property, Change.HoldsIn, Change.apply] using mem_setInitRegister_iff
      | _ => simp [Change.HoldsIn, Change.apply, Change.property, setInitRegister]
  | _ => cases c <;> simp [Change.HoldsIn, Change.apply, Change.property]

theorem after_concat (s : Settings) (requests : List Request) (request : Request) :
    s.after (requests ++ [request]) = (request.run (s.after requests)).2 := by
  rw [after, List.foldl_append]
  rfl

/-- After some requests the settings hold what was asked for last, and of the rest what they held
before. -/
theorem holdsIn_after_iff (start : Settings) (requests : List Request) (c : Change) :
    c.HoldsIn (start.after requests) ↔
      Last requests c ∨ (c.HoldsIn start ∧ Untouched requests c.property) := by
  induction requests using List.reverseRecOn with
  | nil => simp [after, Last, Untouched]
  | append_singleton requests request ih =>
      rw [after_concat, last_concat, untouched_concat]
      by_cases hasks : ∃ change, request.Asks change
      · obtain ⟨change, hasks⟩ := hasks
        have hiff : request.Asks c ↔ change = c := by
          constructor
          · intro h
            exact asks_unique hasks h
          · rintro rfl
            exact hasks
        rw [run_of_asks hasks, holdsIn_apply, ih, untouched_singleton_of_asks hasks, hiff,
          or_assoc, ← and_assoc, ← or_and_right, and_comm]
      · have hnone : ∀ change, ¬ request.Asks change := not_exists.mp hasks
        obtain ⟨error, hrun⟩ := run_of_not_asks hnone (start.after requests)
        have huntouched : Untouched [request] c.property :=
          untouched_singleton.mpr fun change hasks => absurd hasks (hnone change)
        rw [hrun, ih]
        simp [hnone c, huntouched]

/-- The last setting of the first register, to its value, is before that of the second one. -/
def SetBefore (requests : List Request) (first second : String × UInt64) : Prop :=
  ∃ before request between later behind, requests = before ++ request ::
    (between ++ later :: behind) ∧
    request.Asks (.register first.1 first.2) ∧
    Untouched (between ++ later :: behind) (.register first.1) ∧
    later.Asks (.register second.1 second.2) ∧ Untouched behind (.register second.1)

/-- The registers that requests set, each once and with its last value, in the order in which they
were set last. -/
structure IsSeeding (requests : List Request) (seeds : List (String × UInt64)) : Prop where
  nodup : (seeds.map Prod.fst).Nodup
  last : ∀ name value, (name, value) ∈ seeds ↔ Last requests (.register name value)
  ordered : seeds.Pairwise (SetBefore requests)

theorem SetBefore.concat {first second : String × UInt64} (h : SetBefore requests first second)
    (hfirst : Untouched [request] (.register first.1))
    (hsecond : Untouched [request] (.register second.1)) :
    SetBefore (requests ++ [request]) first second := by
  obtain ⟨before, asked, between, later, behind, rfl, hasked, hbetween, hlater, hbehind⟩ := h
  refine ⟨before, asked, between, later, behind ++ [request], by simp, hasked, ?_, hlater,
    untouched_concat.mpr ⟨hbehind, hsecond⟩⟩
  rw [← List.cons_append, ← List.append_assoc]
  exact untouched_concat.mpr ⟨hbetween, hfirst⟩

theorem setBefore_of_last {first second : String × UInt64}
    (h : Last requests (.register first.1 first.2))
    (hfirst : Untouched [request] (.register first.1))
    (hrequest : request.Asks (.register second.1 second.2)) :
    SetBefore (requests ++ [request]) first second := by
  obtain ⟨before, asked, behind, rfl, hasked, hbehind⟩ := h
  exact ⟨before, asked, behind, request, [], by simp, hasked,
    untouched_concat.mpr ⟨hbehind, hfirst⟩, hrequest, by simp [Untouched]⟩

variable {seeds : List (String × UInt64)}

theorem IsSeeding.concat_register {name : String} {value : UInt64} (h : IsSeeding requests seeds)
    (hasks : request.Asks (.register name value)) :
    IsSeeding (requests ++ [request]) (seeds.filter (·.1 ≠ name) ++ [(name, value)]) := by
  have huntouched {name' : String} : Untouched [request] (.register name') ↔ name' ≠ name := by
    rw [untouched_singleton_of_asks hasks]
    simp [Change.property, eq_comm]
  have hfilter {seed : String × UInt64} : seed ∈ seeds.filter (·.1 ≠ name) ↔
      seed ∈ seeds ∧ seed.1 ≠ name := by
    simp
  refine ⟨?_, ?_, ?_⟩
  · rw [List.map_append, List.nodup_append]
    refine ⟨h.nodup.sublist (List.filter_sublist.map Prod.fst), by simp, ?_⟩
    intro first hfirst second hsecond
    obtain ⟨seed, hseed, rfl⟩ := List.mem_map.mp hfirst
    obtain rfl := List.mem_singleton.mp hsecond
    exact (hfilter.mp hseed).2
  · intro name' value'
    have hiff : request.Asks (.register name' value') ↔ (name', value') = (name, value) := by
      constructor
      · intro h
        cases asks_unique hasks h
        rfl
      · rintro ⟨⟩
        exact hasks
    rw [last_concat, List.mem_append, List.mem_singleton, hfilter, h.last, ← hiff,
      Change.property, huntouched, or_comm]
  · rw [List.pairwise_append]
    refine ⟨?_, List.pairwise_singleton _ _, ?_⟩
    · refine (h.ordered.filter _).imp_of_mem ?_
      intro first second hfirst hsecond hbefore
      exact hbefore.concat (huntouched.mpr (hfilter.mp hfirst).2)
        (huntouched.mpr (hfilter.mp hsecond).2)
    · intro first hfirst second hsecond
      obtain rfl := List.mem_singleton.mp hsecond
      obtain ⟨hmem, hne⟩ := hfilter.mp hfirst
      exact setBefore_of_last ((h.last _ _).mp hmem) (huntouched.mpr hne) hasks

theorem IsSeeding.concat_other (h : IsSeeding requests seeds)
    (hasks : ∀ name value, ¬ request.Asks (.register name value)) :
    IsSeeding (requests ++ [request]) seeds := by
  have huntouched (name : String) : Untouched [request] (.register name) := by
    rw [untouched_singleton]
    intro change hchange
    cases change with
    | register name' value => exact absurd hchange (hasks name' value)
    | _ => simp [Change.property]
  refine ⟨h.nodup, ?_, ?_⟩
  · intro name value
    rw [h.last, last_concat]
    simp [hasks name value, Change.property, huntouched]
  · exact h.ordered.imp fun hbefore => hbefore.concat (huntouched _) (huntouched _)

theorem initRegisters_run (hasks : ∀ name value, ¬ request.Asks (.register name value))
    (s : Settings) :
    (request.run s).2.initRegisters = s.initRegisters := by
  by_cases hchange : ∃ change, request.Asks change
  · obtain ⟨change, hchange⟩ := hchange
    rw [run_of_asks hchange]
    cases change with
    | register name value => exact absurd hchange (hasks name value)
    | _ => rfl
  · obtain ⟨error, hrun⟩ := run_of_not_asks (not_exists.mp hchange) s
    rw [hrun]

theorem mem_names_concat {name other : String} {value : UInt64} :
    other ∈ (seeds.filter (·.1 ≠ name) ++ [(name, value)]).map Prod.fst ↔
      other = name ∨ other ∈ seeds.map Prod.fst := by
  rw [List.map_append, List.mem_append, or_comm]
  constructor
  · rintro (hmem | hmem)
    · exact .inl (List.mem_singleton.mp hmem)
    · obtain ⟨seed, hseed, rfl⟩ := List.mem_map.mp hmem
      exact .inr (List.mem_map_of_mem (List.mem_of_mem_filter hseed))
  · intro h
    by_cases hname : other = name
    · exact .inl (List.mem_singleton.mpr hname)
    · obtain ⟨seed, hseed, rfl⟩ := List.mem_map.mp (h.resolve_left hname)
      exact .inr (List.mem_map_of_mem (List.mem_filter.mpr ⟨hseed, decide_eq_true hname⟩))

theorem exists_isSeeding (start : Settings) (requests : List Request) :
    ∃ seeds, IsSeeding requests seeds ∧
    (start.after requests).initRegisters =
      start.initRegisters.filter (·.1 ∉ seeds.map Prod.fst) ++ seeds := by
  induction requests using List.reverseRecOn with
  | nil =>
      refine ⟨[], ⟨by simp, by simp [Last], by simp⟩, by simp [after]⟩
  | append_singleton requests request ih =>
      obtain ⟨seeds, hseeds, hregisters⟩ := ih
      rw [after_concat]
      by_cases hasks : ∃ name value, request.Asks (.register name value)
      · obtain ⟨name, value, hasks⟩ := hasks
        have hrun : (request.run (start.after requests)).2.initRegisters =
            (start.after requests).initRegisters.filter (·.1 ≠ name) ++ [(name, value)] := by
          rw [run_of_asks hasks]
          rfl
        refine ⟨_, hseeds.concat_register hasks, ?_⟩
        rw [hrun, hregisters, List.filter_append, List.append_assoc, List.filter_filter]
        congr 1
        apply List.filter_congr
        intro seed _
        simp only [mem_names_concat, not_or, Bool.decide_and]
      · simp only [not_exists] at hasks
        refine ⟨seeds, hseeds.concat_other hasks, ?_⟩
        rw [initRegisters_run hasks, hregisters]

theorem nodup_names_append {registers : List (String × UInt64)}
    (hregisters : (registers.map Prod.fst).Nodup) (hseeds : (seeds.map Prod.fst).Nodup) :
    ((registers.filter (·.1 ∉ seeds.map Prod.fst) ++ seeds).map Prod.fst).Nodup := by
  rw [List.map_append, List.nodup_append]
  refine ⟨hregisters.sublist (List.filter_sublist.map Prod.fst), hseeds, ?_⟩
  rintro name hkept _ hseed rfl
  obtain ⟨register, hregister, rfl⟩ := List.mem_map.mp hkept
  exact absurd hseed (by simpa using (List.mem_filter.mp hregister).2)

theorem nodup_after {start : Settings} (h : (start.initRegisters.map Prod.fst).Nodup)
    (requests : List Request) :
    ((start.after requests).initRegisters.map Prod.fst).Nodup := by
  obtain ⟨seeds, hseeds, hafter⟩ := exists_isSeeding start requests
  rw [hafter]
  exact nodup_names_append h hseeds.nodup

end Histories

end Settings

end FlowRecovery
