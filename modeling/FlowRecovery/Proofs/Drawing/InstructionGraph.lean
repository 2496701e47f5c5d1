import Mathlib
import FlowRecovery.Proofs.Drawing.Lines
import FlowRecovery.Proofs.Image.SymbolTable
import FlowRecovery.Proofs.Microcode.Successors

namespace FlowRecovery.Drawing

variable {α β : Type} {used uses uses' : List Location} {l : Location} {numbering : Numbering}

/-- The number of a place: how many others are used before it. -/
def place (uses : List Location) (l : Location) : Nat :=
  uses.eraseDups.idxOf l

/-- A numbering after some uses. -/
structure Numbered (used : List Location) (numbering : Numbering) : Prop where
  size : numbering.size = used.eraseDups.length
  lookup : ∀ l, numbering[l]? = if l ∈ used then some (place used l) else none

theorem numbered_nil : Numbered [] ∅ :=
  ⟨rfl, fun l => by simp⟩

theorem place_append (hl : l ∈ used) (later : List Location) :
    place (used ++ later) l = place used l := by
  rw [place, List.eraseDups_append, List.idxOf_append_of_mem (List.mem_eraseDups.mpr hl), place]

theorem eraseDups_concat_of_mem (hl : l ∈ used) : (used ++ [l]).eraseDups = used.eraseDups := by
  simp [List.eraseDups_append, List.removeAll, hl]

theorem eraseDups_concat_of_not_mem (hl : l ∉ used) :
    (used ++ [l]).eraseDups = used.eraseDups ++ [l] := by
  simp [List.eraseDups_append, List.removeAll, hl, List.eraseDups_cons]

theorem Numbered.again (h : Numbered used numbering) (hl : l ∈ used) :
    Numbered (used ++ [l]) numbering := by
  refine ⟨h.size.trans (by rw [eraseDups_concat_of_mem hl]), fun n => ?_⟩
  have hmem : n ∈ used ++ [l] ↔ n ∈ used := by
    simp only [List.mem_append, List.mem_singleton, or_iff_left_iff_imp]
    rintro rfl
    exact hl
  simp only [h.lookup, hmem, place, eraseDups_concat_of_mem hl]

theorem place_concat_self (hl : l ∉ used) : place (used ++ [l]) l = used.eraseDups.length := by
  rw [place, eraseDups_concat_of_not_mem hl, List.idxOf_append,
    if_neg (by rwa [List.mem_eraseDups])]
  simp

theorem Numbered.first (h : Numbered used numbering) (hl : l ∉ used) :
    Numbered (used ++ [l]) (numbering.insert l numbering.size) := by
  constructor
  · rw [Std.ExtTreeMap.size_insert, if_neg, h.size, eraseDups_concat_of_not_mem hl,
      List.length_append]
    · rfl
    · rw [Std.ExtTreeMap.contains_eq_isSome_getElem?, h.lookup, if_neg hl]
      simp
  · intro n
    simp only [Std.ExtTreeMap.getElem?_insert, Std.LawfulEqCmp.compare_eq_iff_eq]
    by_cases hn : l = n
    · subst hn
      simp [place_concat_self hl, h.size]
    · by_cases hused : n ∈ used
      · simp [hn, h.lookup, hused, place_append hused]
      · simp [hn, h.lookup, hused, Ne.symm hn]

/-- A computation uses some places, and gives a value for the numbers that they have from then
on. -/
def Allots (p : StateM Numbering α) (uses : List Location) (value : (Location → Nat) → α) :
    Prop :=
  ∀ used numbering, Numbered used numbering → ∃ numbering', Numbered (used ++ uses) numbering' ∧
    ∀ later, p.run numbering = (value (place (used ++ uses ++ later)), numbering')

theorem run_number_of_some {n : Nat} (h : numbering[l]? = some n) :
    (number l).run numbering = (n, numbering) := by
  simp only [number, StateT.run_bind, StateT.run_get, pure_bind, h]
  rfl

theorem run_number_of_none (h : numbering[l]? = none) :
    (number l).run numbering = (numbering.size, numbering.insert l numbering.size) := by
  simp only [number, StateT.run_bind, StateT.run_get, pure_bind, h]
  rfl

theorem allots_number (l : Location) : Allots (number l) [l] fun n => n l := by
  intro used numbering h
  have hplace (later : List Location) : place (used ++ [l] ++ later) l = place (used ++ [l]) l :=
    place_append (List.mem_append_right used (List.mem_singleton_self l)) later
  by_cases hl : l ∈ used
  · refine ⟨numbering, h.again hl, fun later => ?_⟩
    simp only [hplace, place_append hl]
    exact run_number_of_some (by rw [h.lookup, if_pos hl])
  · refine ⟨numbering.insert l numbering.size, h.first hl, fun later => ?_⟩
    simp only [hplace, place_concat_self hl, ← h.size]
    exact run_number_of_none (by rw [h.lookup, if_neg hl])

theorem allots_pure (a : α) : Allots (pure a) [] fun _ => a := by
  intro used numbering h
  exact ⟨numbering, by rwa [List.append_nil], fun _ => rfl⟩

theorem Allots.bind {p : StateM Numbering α} {q : α → StateM Numbering β}
    {value : (Location → Nat) → α} {value' : α → (Location → Nat) → β} (hp : Allots p uses value)
    (hq : ∀ a, Allots (q a) uses' (value' a)) :
    Allots (p >>= q) (uses ++ uses') fun n => value' (value n) n := by
  intro used numbering h
  obtain ⟨middle, hmiddle, hfirst⟩ := hp used numbering h
  -- the numbers do not change later, so the value of the first part is the one for the numbers at
  -- the end
  obtain ⟨last, hlast, hsecond⟩ := hq (value (place (used ++ uses ++ uses'))) _ _ hmiddle
  rw [← List.append_assoc]
  refine ⟨last, hlast, fun later => ?_⟩
  have hvalue : value (place (used ++ uses ++ uses')) =
      value (place (used ++ uses ++ uses' ++ later)) := by
    rw [List.append_assoc (used ++ uses)]
    exact congrArg Prod.fst ((hfirst uses').symm.trans (hfirst (uses' ++ later)))
  simp only [StateT.run_bind, hfirst uses', ← hvalue]
  exact hsecond later

theorem Allots.map {p : StateM Numbering α} {value : (Location → Nat) → α}
    (h : Allots p uses value) (g : α → β) :
    Allots (do return g (← p)) uses fun n => g (value n) := by
  simpa using h.bind fun a => allots_pure (g a)

theorem Allots.mapM {f : α → StateM Numbering β} {used : α → List Location}
    {value : α → (Location → Nat) → β} (h : ∀ a, Allots (f a) (used a) (value a)) (as : List α) :
    Allots (as.mapM f) (as.flatMap used) fun n => as.map fun a => value a n := by
  induction as with
  | nil => exact allots_pure []
  | cons a as ih =>
      rw [List.mapM_cons, List.flatMap_cons]
      exact (h a).bind fun b => ih.map (b :: ·)

theorem Allots.run {p : StateM Numbering α} {value : (Location → Nat) → α}
    (h : Allots p uses value) :
    (p.run ∅).1 = value (place uses) := by
  obtain ⟨numbering, -, hrun⟩ := h [] ∅ numbered_nil
  simpa using congrArg Prod.fst (hrun [])

end FlowRecovery.Drawing

namespace FlowRecovery.Microcode

open Drawing

/-- An instruction has a node at its boundary. -/
def IsInstruction (mc : Microcode) (l : Location) : Prop :=
  l.isBoundary = true ∧ mc.contains l = true

/-- An instruction is shown: it has a node, or it has none and an instruction leads to it. -/
def Shown (mc : Microcode) (l : Location) : Prop :=
  mc.IsInstruction l ∨
    (mc.contains l = false ∧ ∃ source, mc.IsInstruction source ∧ l ∈ mc.successors source)

/-- Edges in the order of their sources, and of their targets where they leave the same source. -/
def Precedes (e f : Location × Location) : Prop :=
  compare e.1 f.1 = .lt ∨ (e.1 = f.1 ∧ compare e.2 f.2 = .lt)

/-- The lines of a text draw the instructions of a graph, with a number for each of them. -/
structure DrawnBy (mc : Microcode) (lines : List (List Char)) (number : Location → Nat) :
    Prop where
  distinct : ∀ l l', mc.Shown l → mc.Shown l' → number l = number l' → l = l'
  declared : ∀ l, mc.Shown l → ∃ line,
    lines.filter (fun line => Declares line (number l)) = [line] ∧
    Heads line (number l) l.instruction
  no_other : ∀ line ∈ lines, ∀ k, Declares line k → ∃ l, mc.Shown l ∧ number l = k
  edges : ∃ pairs : List (Location × Location), pairs.Pairwise Precedes ∧
    (∀ source target, (source, target) ∈ pairs ↔
      mc.IsInstruction source ∧ target ∈ mc.successors source) ∧
    lines.filter (fun line => IsGrey line) = pairs.map fun pair =>
      connection (identifier 'b' (number pair.1)) (identifier 'b' (number pair.2))
        "color=grey]".toList
  used : ∀ line ∈ lines, ∀ source target, Joins line source target →
    ∀ k, source = identifier 'b' k ∨ target = identifier 'b' k → ∃ other ∈ lines, Declares other k

/-- None of the texts that are shown has a line break. -/
structure Unbroken (mc : Microcode) (symbols : SymbolTable) (title : String) : Prop where
  title : '\n' ∉ title.toList
  names : ∀ a name, symbols.name? a = some name → '\n' ∉ name.toList
  annotations : ∀ l node text, mc.node? l = some node → node.annotation = some text →
    '\n' ∉ text.toList
  targets : ∀ jump ∈ mc.unresolvedJumps, '\n' ∉ jump.2.render.toList

section Places

variable {mc : Microcode} {l source target : Location}

theorem mem_instructions : l ∈ mc.instructions ↔ mc.IsInstruction l := by
  rw [instructions, List.mem_filter, Std.ExtTreeMap.mem_keys, ← Std.ExtTreeMap.contains_iff_mem,
    and_comm]
  rfl

theorem pairwise_instructions (mc : Microcode) :
    mc.instructions.Pairwise fun l l' => compare l l' = .lt :=
  List.Pairwise.filter _ Std.ExtTreeMap.ordered_keys

theorem mem_instructionEdges :
    (source, target) ∈ mc.instructionEdges ↔
      mc.IsInstruction source ∧ target ∈ mc.successors source := by
  simp only [instructionEdges, List.mem_flatMap, List.mem_map, Prod.mk.injEq,
    Std.ExtTreeSet.mem_toList, mem_instructions]
  constructor
  · rintro ⟨l, hl, t, ht, rfl, rfl⟩
    exact ⟨hl, ht⟩
  · rintro ⟨hsource, htarget⟩
    exact ⟨source, hsource, target, htarget, rfl, rfl⟩

theorem pairwise_instructionEdges (mc : Microcode) : mc.instructionEdges.Pairwise Precedes := by
  rw [instructionEdges, List.pairwise_flatMap]
  constructor
  · intro source _
    rw [List.pairwise_map]
    exact Std.ExtTreeSet.ordered_toList.imp fun h => .inr ⟨rfl, h⟩
  · refine (pairwise_instructions mc).imp fun {l l'} hlt e he f hf => ?_
    obtain ⟨t, -, rfl⟩ := List.mem_map.mp he
    obtain ⟨t', -, rfl⟩ := List.mem_map.mp hf
    exact .inl hlt

theorem mem_missingInstructions : l ∈ mc.missingInstructions ↔
    mc.contains l = false ∧ ∃ source, mc.IsInstruction source ∧ l ∈ mc.successors source := by
  simp only [missingInstructions, Std.ExtTreeSet.mem_toList, Std.ExtTreeSet.mem_ofList,
    List.contains_iff_mem, List.mem_filter, List.mem_map, Prod.exists, mem_instructionEdges,
    Bool.not_eq_true', exists_eq_right]
  exact and_comm

/-- The instructions with a box, in the order of their lines. -/
def shown (mc : Microcode) : List Location :=
  mc.instructions ++ mc.missingInstructions

theorem mem_shown : l ∈ mc.shown ↔ mc.Shown l := by
  rw [shown, List.mem_append, mem_instructions, mem_missingInstructions, Shown]

theorem nodup_shown (mc : Microcode) : mc.shown.Nodup := by
  have hne {l l' : Location} (hlt : compare l l' = .lt) : l ≠ l' := by
    rintro rfl
    simp at hlt
  refine List.nodup_append.mpr
    ⟨(pairwise_instructions mc).imp hne, Std.ExtTreeSet.ordered_toList.imp hne, ?_⟩
  rintro l hl l' hl' rfl
  have hnode := (mem_instructions.mp hl).2
  rw [(mem_missingInstructions.mp hl').1] at hnode
  cases hnode

/-- The remarks: unresolved jumps, each with the boundary of its instruction. -/
def remarks (mc : Microcode) : List (Location × Expr) :=
  mc.unresolvedJumps.map fun jump => (.boundary jump.1.instruction, jump.2)

/-- The places that the shapes refer to, in their order. -/
def places (mc : Microcode) : List Location :=
  mc.shown ++ mc.instructionEdges.flatMap (fun pair => [pair.1, pair.2]) ++
    mc.remarks.map Prod.fst

def number (mc : Microcode) : Location → Nat :=
  place mc.places

theorem number_inj {l' : Location} (hl : mc.Shown l) : mc.number l = mc.number l' ↔ l = l' := by
  refine List.idxOf_inj ?_
  rw [List.mem_eraseDups, places, List.append_assoc, List.mem_append, mem_shown]
  exact .inl hl

end Places

section Lines

variable {mc : Microcode} {symbols : SymbolTable} {title : String} {l : Location}

def nodeLine (mc : Microcode) (symbols : SymbolTable) (l : Location) : List Char :=
  if mc.contains l then
    boxLine (mc.number l) (mc.instructionLabel symbols l)
      (mc.instructionFill symbols l ++ mc.entryStyle l)
  else
    boxLine (mc.number l) (mc.missingLabel l) ", style=dashed"

def edgeLines (mc : Microcode) : List (List Char) :=
  mc.instructionEdges.map fun pair => edgeLine (mc.number pair.1) (mc.number pair.2) "color=grey"

/-- The lines of the remarks, each followed by its tie. -/
def noteLines (mc : Microcode) : List (List Char) :=
  mc.remarks.flatMap fun remark =>
    [remarkLine (mc.number remark.1) (escape remark.2.render), tieLine (mc.number remark.1)]

def graphLines (mc : Microcode) (symbols : SymbolTable) : List (List Char) :=
  mc.shown.map (mc.nodeLine symbols) ++ mc.edgeLines ++ mc.noteLines

theorem not_mem_hexDigits (n : Nat) : '\n' ∉ (Text.hexDigits n).toList := by
  simp [Text.hexDigits, not_mem_toDigits]

theorem not_mem_lineEnd : '\n' ∉ lineEnd.toList := by
  decide

theorem not_mem_instructionLabel (h : mc.Unbroken symbols title) (l : Location) :
    '\n' ∉ (mc.instructionLabel symbols l).toList := by
  unfold instructionLabel
  simp only [String.toList_append, List.mem_append, not_or]
  refine ⟨⟨⟨⟨⟨by decide, not_mem_hexDigits _⟩, ?_⟩, by decide⟩, not_mem_lineEnd⟩, ?_⟩
  · split
    case h_1 name hname => simp [not_mem_escape (h.names _ _ hname)]
    case h_2 => simp
  · split
    case h_1 text htext =>
      obtain ⟨node, hnode, htext⟩ := Option.bind_eq_some_iff.mp htext
      simp [not_mem_escape (h.annotations l node text hnode htext), not_mem_lineEnd]
    case h_2 => simp

theorem not_mem_missingLabel (mc : Microcode) (l : Location) :
    '\n' ∉ (mc.missingLabel l).toList := by
  unfold missingLabel
  simp only [String.toList_append, List.mem_append, not_or]
  refine ⟨⟨⟨⟨⟨by decide, not_mem_hexDigits _⟩, by decide⟩, not_mem_lineEnd⟩, ?_⟩, not_mem_lineEnd⟩
  split <;> decide

theorem entryStyle_cases (mc : Microcode) (l : Location) :
    mc.entryStyle l = ", color=red, peripheries=2" ∨ mc.entryStyle l = "" := by
  rw [entryStyle]
  exact ite_eq_or_eq _ _ _

theorem instructionFill_cases (mc : Microcode) (symbols : SymbolTable) (l : Location) :
    (∃ name, mc.instructionFill symbols l = filled name) ∨
      mc.instructionFill symbols l = ", style=filled, fillcolor=\"#dddddd\"" ∨
      mc.instructionFill symbols l = "" := by
  unfold instructionFill
  split
  case h_1 name _ => exact .inl ⟨name, rfl⟩
  case h_2 => exact .inr (ite_eq_or_eq _ _ _)

theorem not_mem_instructionStyle (mc : Microcode) (symbols : SymbolTable) (l : Location) :
    '\n' ∉ (mc.instructionFill symbols l ++ mc.entryStyle l).toList := by
  rw [String.toList_append, List.mem_append, not_or]
  constructor
  · rcases mc.instructionFill_cases symbols l with ⟨name, hfill⟩ | hfill | hfill <;> rw [hfill]
    · exact not_mem_filled name
    all_goals decide
  · rcases mc.entryStyle_cases l with hentry | hentry <;> rw [hentry] <;> decide

theorem getLast?_instructionStyle (mc : Microcode) (symbols : SymbolTable) (l : Location) :
    (mc.instructionFill symbols l ++ mc.entryStyle l).toList.getLast? ≠ some 'y' := by
  rw [String.toList_append, List.getLast?_append]
  rcases mc.entryStyle_cases l with hentry | hentry <;> rw [hentry]
  · simp
  · rcases mc.instructionFill_cases symbols l with ⟨name, hfill⟩ | hfill | hfill <;> rw [hfill]
    · simp [getLast?_filled]
    all_goals decide

theorem shapes_instructionGraph : (mc.instructionGraph symbols title).shapes =
    mc.instructions.map (fun l => .box (mc.number l) (mc.instructionLabel symbols l)
      (mc.instructionFill symbols l ++ mc.entryStyle l)) ++
    mc.missingInstructions.map
      (fun l => .box (mc.number l) (mc.missingLabel l) ", style=dashed") ++
    mc.instructionEdges.map
      (fun pair => .edge (mc.number pair.1) (mc.number pair.2) "color=grey") ++
    mc.remarks.map fun remark => .note (mc.number remark.1) (escape remark.2.render) := by
  have hboxes := Allots.mapM (fun l => (allots_number l).map fun n =>
    Shape.box n (mc.instructionLabel symbols l) (mc.instructionFill symbols l ++ mc.entryStyle l))
      mc.instructions
  have hmissing := Allots.mapM (fun l => (allots_number l).map fun n =>
    Shape.box n (mc.missingLabel l) ", style=dashed") mc.missingInstructions
  have hedges := Allots.mapM
      (fun pair : Location × Location => (allots_number pair.1).bind fun source =>
    (allots_number pair.2).map fun target =>
      Shape.edge source target "color=grey") mc.instructionEdges
  have hnotes := Allots.mapM (fun jump : Location × Expr =>
    (allots_number (.boundary jump.1.instruction)).map fun n =>
      Shape.note n (escape jump.2.render)) mc.unresolvedJumps
  have hshapes : Allots (mc.instructionShapes symbols) _ _ :=
    hboxes.bind fun boxes => hmissing.bind fun missing => hedges.bind fun edges =>
      hnotes.map fun notes => boxes ++ missing ++ edges ++ notes
  refine hshapes.run.trans ?_
  simp [number, places, shown, remarks, Function.comp_def, ← List.map_eq_flatMap]

theorem written_graphLines (h : mc.Unbroken symbols title) :
    Written (String.join ((mc.instructionGraph symbols title).shapes.map renderShape))
      (mc.graphLines symbols) := by
  simp only [shapes_instructionGraph, List.map_append, List.map_map, String.join_append,
    graphLines, shown]
  refine ((Written.append ?_ ?_).append ?_).append ?_
  · refine Written.join_map fun l hl => ?_
    rw [nodeLine, if_pos (mem_instructions.mp hl).2]
    exact written_box (not_mem_instructionLabel h l) (mc.not_mem_instructionStyle symbols l)
  · refine Written.join_map fun l hl => ?_
    rw [nodeLine, if_neg (by simp [(mem_missingInstructions.mp hl).1])]
    exact written_box (mc.not_mem_missingLabel l) (by decide)
  · exact Written.join_map fun pair _ => written_edge (by decide)
  · refine Written.join fun remark hremark => ?_
    obtain ⟨jump, hjump, rfl⟩ := List.mem_map.mp hremark
    exact written_note (not_mem_escape (h.targets jump hjump))

theorem not_mem_of_mem_legend (h : mc.Unbroken symbols title) :
    ∀ name ∈ (mc.instructionGraph symbols title).legend, '\n' ∉ name.toList := by
  intro name hname
  unfold instructionGraph at hname
  simp only [Std.ExtTreeSet.mem_toList, Std.ExtTreeSet.mem_ofList, List.contains_iff_mem,
    List.mem_filterMap, Option.map_eq_some_iff] at hname
  obtain ⟨l, -, entry, hentry, rfl⟩ := hname
  exact h.names entry.1 entry.2 (SymbolTable.isNearest_of_containing? hentry).present

theorem written_instructionGraph (h : mc.Unbroken symbols title) :
    Written (mc.instructionGraph symbols title).render
      (headerLines ("Control flow graph for " ++ escape title) ++ mc.graphLines symbols ++
        legendLines (mc.instructionGraph symbols title).legend ++ ["\x7d".toList]) := by
  refine written_render ?_ (written_graphLines h) (not_mem_of_mem_legend h)
  unfold instructionGraph
  simp [not_mem_escape h.title]

theorem inert_title :
    Inert ("label=<".toList ++ ("Control flow graph for " ++ escape title).toList ++
      "<br/><br/>>".toList) := by
  refine inert_of_start (by simp) (by simp) ?_
  exact not_isGrey_of_suffix (d := '>') (c := '>') (by decide)
    (List.suffix_append_of_suffix (by decide))

end Lines

section Drawing

variable {mc : Microcode} {symbols : SymbolTable} {title : String} {l : Location}
  {line : List Char}

theorem exists_nodeLine (mc : Microcode) (symbols : SymbolTable) (l : Location) : ∃ label style,
    mc.nodeLine symbols l = boxLine (mc.number l) label style ∧
    style.toList.getLast? ≠ some 'y' := by
  rw [nodeLine]
  split
  · exact ⟨_, _, rfl, mc.getLast?_instructionStyle symbols l⟩
  · exact ⟨_, _, rfl, by decide⟩

theorem heads_boxLine {number : Nat} {address : UInt64} {label style : String}
    (behind : List Char) (hbehind : behind ∈ ["</b>".toList, " &lt;".toList])
    (hlabel : "<b>".toList ++ (Text.hexDigits address.toNat).toList ++ behind <+: label.toList) :
    Heads (boxLine number label style) number address := by
  obtain ⟨rest, hrest⟩ := hlabel
  refine ⟨behind, hbehind, rest ++ ">, shape=box".toList ++ style.toList ++ [']'], ?_⟩
  unfold boxLine boxAttributes
  rw [← hrest]
  simp [declaration]

theorem heads_nodeLine (mc : Microcode) (symbols : SymbolTable) (l : Location) :
    Heads (mc.nodeLine symbols l) (mc.number l) l.instruction := by
  rw [nodeLine]
  split
  · cases hname : symbols.name? l.instruction with
    | none =>
        refine heads_boxLine "</b>".toList (by simp) ?_
        unfold instructionLabel
        simp [hname]
    | some name =>
        refine heads_boxLine " &lt;".toList (by simp) ?_
        unfold instructionLabel
        simp [hname]
  · refine heads_boxLine "</b>".toList (by simp) ?_
    unfold missingLabel
    simp

theorem declares_nodeLine_iff {k : Nat} :
    Declares (mc.nodeLine symbols l) k ↔ mc.number l = k := by
  obtain ⟨label, style, heq, -⟩ := mc.exists_nodeLine symbols l
  rw [heq, declares_boxLine_iff]

theorem not_joins_nodeLine (source target : List Char) :
    ¬ Joins (mc.nodeLine symbols l) source target := by
  obtain ⟨label, style, heq, -⟩ := mc.exists_nodeLine symbols l
  rw [heq]
  exact not_joins_boxLine source target

theorem not_isGrey_nodeLine : ¬ IsGrey (mc.nodeLine symbols l) := by
  obtain ⟨label, style, heq, hstyle⟩ := mc.exists_nodeLine symbols l
  rw [heq]
  exact not_isGrey_box hstyle

theorem Shown.of_edge {source target : Location} (h : (source, target) ∈ mc.instructionEdges) :
    mc.Shown source ∧ mc.Shown target := by
  obtain ⟨hsource, htarget⟩ := mem_instructionEdges.mp h
  refine ⟨.inl hsource, ?_⟩
  -- a successor is a boundary, so one that has a node is an instruction
  have hboundary : target.isBoundary = true := (exits_iff_path.mp (mem_successors.mp htarget)).1
  by_cases hnode : mc.contains target = true
  · exact .inl ⟨hboundary, hnode⟩
  · exact .inr ⟨by simpa using hnode, source, hsource, htarget⟩

theorem exists_of_mem_edgeLines (h : line ∈ mc.edgeLines) : ∃ source target,
    (source, target) ∈ mc.instructionEdges ∧
    line = edgeLine (mc.number source) (mc.number target) "color=grey" := by
  obtain ⟨pair, hpair, rfl⟩ := List.mem_map.mp h
  exact ⟨pair.1, pair.2, hpair, rfl⟩

theorem inert_or_tie_of_mem_noteLines (h : line ∈ mc.noteLines) :
    Inert line ∨ ∃ remark ∈ mc.remarks, line = tieLine (mc.number remark.1) := by
  simp only [noteLines, List.mem_flatMap, List.mem_cons, List.not_mem_nil, or_false] at h
  rcases h with ⟨remark, hremark, rfl | rfl⟩
  · exact .inl inert_remarkLine
  · exact .inr ⟨remark, hremark, rfl⟩

theorem nodeLine_mem_graphLines (hl : mc.Shown l) :
    mc.nodeLine symbols l ∈ mc.graphLines symbols := by
  have hnode := List.mem_map_of_mem (f := mc.nodeLine symbols) (mem_shown.mpr hl)
  exact List.mem_append_left _ (List.mem_append_left _ hnode)

theorem filter_declares_nodeLines (hl : mc.Shown l) :
    (mc.shown.map (mc.nodeLine symbols)).filter (fun line => Declares line (mc.number l)) =
      [mc.nodeLine symbols l] := by
  -- numbers tell shown instructions apart, so the lines that are kept are those of `l`, which is
  -- listed once
  have hself : ∀ other ∈ mc.shown,
      ((fun line => decide (Declares line (mc.number l))) ∘ mc.nodeLine symbols) other =
        decide (other = l) := by
    intro other hother
    simp only [Function.comp_apply, declares_nodeLine_iff, number_inj (mem_shown.mp hother)]
  rw [List.filter_map, List.filter_congr hself, List.filter_eq,
    List.count_eq_one_of_mem mc.nodup_shown (mem_shown.mpr hl)]
  rfl

theorem not_declares_of_mem_edgeLines (h : line ∈ mc.edgeLines) (k : Nat) :
    ¬ Declares line k := by
  obtain ⟨source, target, -, rfl⟩ := exists_of_mem_edgeLines h
  exact not_declares_edgeLine k

theorem not_declares_of_mem_noteLines (h : line ∈ mc.noteLines) (k : Nat) :
    ¬ Declares line k := by
  rcases inert_or_tie_of_mem_noteLines h with hinert | ⟨remark, -, rfl⟩
  · exact hinert.not_declares k
  · exact not_declares_tieLine k

theorem not_isGrey_of_mem_noteLines (h : line ∈ mc.noteLines) : ¬ IsGrey line := by
  rcases inert_or_tie_of_mem_noteLines h with hinert | ⟨remark, -, rfl⟩
  · exact hinert.not_isGrey
  · exact not_isGrey_tieLine

theorem filter_declares_graphLines (hl : mc.Shown l) :
    (mc.graphLines symbols).filter (fun line => Declares line (mc.number l)) =
      [mc.nodeLine symbols l] := by
  have hedges : mc.edgeLines.filter (fun line => Declares line (mc.number l)) = [] :=
    List.filter_eq_nil_iff.mpr fun line hline => by
      simpa using not_declares_of_mem_edgeLines hline _
  have hnotes : mc.noteLines.filter (fun line => Declares line (mc.number l)) = [] :=
    List.filter_eq_nil_iff.mpr fun line hline => by
      simpa using not_declares_of_mem_noteLines hline _
  rw [graphLines, List.filter_append, List.filter_append, filter_declares_nodeLines hl,
    hedges, hnotes]
  rfl

theorem filter_isGrey_graphLines :
    (mc.graphLines symbols).filter (fun line => IsGrey line) = mc.edgeLines := by
  have hnodes : (mc.shown.map (mc.nodeLine symbols)).filter (fun line => IsGrey line) = [] := by
    refine List.filter_eq_nil_iff.mpr fun line hline => ?_
    obtain ⟨l, -, rfl⟩ := List.mem_map.mp hline
    simpa using not_isGrey_nodeLine
  have hedges : mc.edgeLines.filter (fun line => IsGrey line) = mc.edgeLines := by
    refine List.filter_eq_self.mpr fun line hline => ?_
    obtain ⟨source, target, -, rfl⟩ := exists_of_mem_edgeLines hline
    simpa using isGrey_edgeLine
  have hnotes : mc.noteLines.filter (fun line => IsGrey line) = [] :=
    List.filter_eq_nil_iff.mpr fun line hline => by simpa using not_isGrey_of_mem_noteLines hline
  rw [graphLines, List.filter_append, List.filter_append, hnodes, hedges, hnotes, List.nil_append,
    List.append_nil]

theorem shown_of_declares (h : line ∈ mc.graphLines symbols) {k : Nat} (hk : Declares line k) :
    ∃ l, mc.Shown l ∧ mc.number l = k := by
  rw [graphLines, List.mem_append, List.mem_append] at h
  rcases h with (h | h) | h
  · obtain ⟨l, hl, rfl⟩ := List.mem_map.mp h
    exact ⟨l, mem_shown.mp hl, declares_nodeLine_iff.mp hk⟩
  · exact absurd hk (not_declares_of_mem_edgeLines h k)
  · exact absurd hk (not_declares_of_mem_noteLines h k)

theorem shown_of_joins (hremarks : ∀ remark ∈ mc.remarks, mc.Shown remark.1)
    (h : line ∈ mc.graphLines symbols) {source target : List Char}
    (hjoins : Joins line source target) {k : Nat}
    (hk : source = identifier 'b' k ∨ target = identifier 'b' k) :
    ∃ l, mc.Shown l ∧ mc.number l = k := by
  rw [graphLines, List.mem_append, List.mem_append] at h
  rcases h with (h | h) | h
  · obtain ⟨l, -, rfl⟩ := List.mem_map.mp h
    exact absurd hjoins (not_joins_nodeLine source target)
  · obtain ⟨first, second, hedge, rfl⟩ := exists_of_mem_edgeLines h
    obtain ⟨rfl, rfl⟩ := eq_of_joins_edgeLine hjoins
    obtain ⟨hfirst, hsecond⟩ := Shown.of_edge hedge
    rcases hk with hk | hk
    · exact ⟨first, hfirst, identifier_inj.mp hk⟩
    · exact ⟨second, hsecond, identifier_inj.mp hk⟩
  · rcases inert_or_tie_of_mem_noteLines h with hinert | ⟨remark, hremark, rfl⟩
    · exact absurd hjoins (hinert.not_joins source target)
    · obtain ⟨rfl, rfl⟩ := eq_of_joins_tieLine hjoins
      rcases hk with hk | hk
      · exact ⟨remark.1, hremarks remark hremark, identifier_inj.mp hk⟩
      · -- the other end of a tie is the remark, whose name has another mark
        exact absurd (List.cons.inj hk).1 (by decide)

theorem drawnBy_of_inert {before behind : List (List Char)}
    (hbefore : ∀ line ∈ before, Inert line) (hbehind : ∀ line ∈ behind, Inert line)
    (hremarks : ∀ remark ∈ mc.remarks, mc.Shown remark.1) :
    mc.DrawnBy (before ++ mc.graphLines symbols ++ behind) mc.number := by
  have hfilter (p : List Char → Bool) (hp : ∀ line, Inert line → ¬ p line = true) :
      (before ++ mc.graphLines symbols ++ behind).filter p =
          (mc.graphLines symbols).filter p := by
    have hfirst : before.filter p = [] := List.filter_eq_nil_iff.mpr fun line hline =>
      hp line (hbefore line hline)
    have hlast : behind.filter p = [] := List.filter_eq_nil_iff.mpr fun line hline =>
      hp line (hbehind line hline)
    rw [List.filter_append, List.filter_append, hfirst, hlast, List.nil_append, List.append_nil]
  have hcases {line : List Char} (h : line ∈ before ++ mc.graphLines symbols ++ behind) :
      Inert line ∨ line ∈ mc.graphLines symbols := by
    rw [List.mem_append, List.mem_append] at h
    rcases h with (h | h) | h
    · exact .inl (hbefore line h)
    · exact .inr h
    · exact .inl (hbehind line h)
  constructor
  case distinct => exact fun l l' hl _ h => (number_inj hl).mp h
  case declared =>
    intro l hl
    refine ⟨mc.nodeLine symbols l, ?_, mc.heads_nodeLine symbols l⟩
    rw [hfilter _ fun line hinert => by simpa using hinert.not_declares _,
      filter_declares_graphLines hl]
  case no_other =>
    intro line hline k hk
    rcases hcases hline with hinert | hline
    · exact absurd hk (hinert.not_declares k)
    · exact shown_of_declares hline hk
  case edges =>
    refine ⟨mc.instructionEdges, mc.pairwise_instructionEdges, fun source target =>
      mem_instructionEdges, ?_⟩
    rw [hfilter _ fun line hinert => by simpa using hinert.not_isGrey, filter_isGrey_graphLines]
    rfl
  case used =>
    intro line hline source target hjoins k hk
    rcases hcases hline with hinert | hline
    · exact absurd hjoins (hinert.not_joins source target)
    · obtain ⟨l, hl, rfl⟩ := shown_of_joins hremarks hline hjoins hk
      refine ⟨mc.nodeLine symbols l, ?_, declares_nodeLine_iff.mpr rfl⟩
      exact List.mem_append_left _ (List.mem_append_right _ (nodeLine_mem_graphLines hl))

end Drawing

/-- The instruction graph is drawn as it is: where every unresolved jump belongs to an instruction
with a node, each instruction that is shown has its own number and is declared by exactly one
line, under its address; no other box is declared; the grey lines are the edges between
instructions, each once and in order; and every box that a line connects is declared. -/
theorem instructionGraph_drawnBy (mc : Microcode) (symbols : SymbolTable) (title : String)
    (hsites : ∀ jump ∈ mc.unresolvedJumps, mc.contains (.boundary jump.1.instruction) = true)
    (hunbroken : mc.Unbroken symbols title) :
    ∃ number,
      mc.DrawnBy (Text.lines (mc.instructionGraph symbols title).render.toList) number := by
  have hremarks : ∀ remark ∈ mc.remarks, mc.Shown remark.1 := by
    intro remark hremark
    obtain ⟨jump, hjump, rfl⟩ := List.mem_map.mp hremark
    exact .inl ⟨rfl, hsites jump hjump⟩
  refine ⟨mc.number, ?_⟩
  rw [(written_instructionGraph hunbroken).lines_eq, List.append_assoc, List.append_assoc]
  refine drawnBy_of_inert (inert_headerLines inert_title) ?_ hremarks
  intro line hline
  simp only [List.mem_append, List.mem_cons, List.not_mem_nil, or_false] at hline
  rcases hline with hline | rfl | rfl
  · exact inert_legendLines line hline
  · exact inert_of_start (by decide) (by decide) (by decide)
  · exact inert_of_start (by decide) (by decide) (by decide)

/-- A branch to an instruction without a node, which it reaches through an internal step, beside
an unresolved jump. -/
theorem instructionGraph_drawnBy_of_missing_target :
    let arrow (source target : Location) : Arrow := ⟨source, .static target, .var "x" 1, .skip⟩
    let branch : Node := {
      arrows := [arrow (.boundary 0x10) ⟨0x10, 1⟩, arrow (.boundary 0x10) (.boundary 0x20)]
      annotation := some "jcc <somewhere>" }
    let inner : Node := { arrows := [arrow ⟨0x10, 1⟩ (.boundary 0x9000)] }
    let mc : Microcode := {
      nodes := (((∅ : Std.ExtTreeMap Location Node).insert (.boundary 0x10) branch).insert
        ⟨0x10, 1⟩ inner).insert (.boundary 0x20) {}
      unresolved := (∅ : Std.ExtTreeMap Location Unresolved).insert (.boundary 0x20)
        (.dynamicJump (.var "t" 32))
      entrypoint := some (.boundary 0x10) }
    let symbols := SymbolTable.insert {} 0x10 "main"
    mc.unresolvedJumps.map Prod.fst = [.boundary 0x20] ∧ mc.Unbroken symbols "test" ∧
      mc.Shown (.boundary 0x9000) ∧
      ∃ number, mc.DrawnBy (Text.lines (mc.instructionGraph symbols "test").render.toList)
        number := by
  intro arrow branch inner mc symbols
  have hsites : ∀ jump ∈ mc.unresolvedJumps, mc.contains (.boundary jump.1.instruction) =
      true := by decide +kernel
  have hunbroken : mc.Unbroken symbols "test" := by
    constructor
    case title => decide
    case names =>
      intro a name hname
      have hentries : ∀ entry ∈ symbols.byAddress.toList, '\n' ∉ entry.2.toList := by
        decide +kernel
      exact hentries (a, name) (Std.ExtTreeMap.mem_toList_iff_getElem?_eq_some.mpr hname)
    case annotations =>
      intro l node text hnode htext
      have hnodes : ∀ entry ∈ mc.nodes.toList, ∀ text ∈ Node.annotation entry.2, '\n' ∉
          text.toList := by decide +kernel
      exact hnodes (l, node) (Std.ExtTreeMap.mem_toList_iff_getElem?_eq_some.mpr hnode) text htext
    case targets => decide +kernel
  have hbranch : mc.nodes[Location.boundary 0x10]? = some branch := by decide +kernel
  have hinner : mc.nodes[Location.mk 0x10 1]? = some inner := by decide +kernel
  have hexits : Exits mc.nodes (.boundary 0x10) (.boundary 0x9000) :=
    .through hbranch (by decide +kernel) (by decide)
      (.here hinner (by decide +kernel) (by decide))
  have hshown : mc.Shown (.boundary 0x9000) :=
    .inr ⟨by decide +kernel, .boundary 0x10, ⟨by decide, by decide +kernel⟩,
      mem_successors.mpr hexits⟩
  exact ⟨by decide +kernel, hunbroken, hshown, instructionGraph_drawnBy mc symbols "test"
    hsites hunbroken⟩

end FlowRecovery.Microcode
