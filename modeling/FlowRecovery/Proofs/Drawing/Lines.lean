import Mathlib
import FlowRecovery.Drawing
import FlowRecovery.Proofs.Text.Numeral

/-!
The lines of a drawing. A written drawing is a list of lines, each ended by a line break, as long
as no label has a break of its own. A line is told by its beginning: a name and an opening bracket
declare, a name and an arrow connect. Names have no blanks, so a line is read in one way only, and
boxes with different numbers have different names.
-/

namespace FlowRecovery.Drawing

/-- A text consists of lines, each of which is ended by a line break. -/
structure Written (text : String) (lines : List (List Char)) : Prop where
  joined : text.toList = lines.flatMap (· ++ ['\n'])
  whole : ∀ line ∈ lines, '\n' ∉ line

namespace Written

variable {text rest : String} {lines later : List (List Char)}

theorem empty : Written "" [] where
  joined := rfl
  whole := by simp

theorem line {line : List Char} (htext : text.toList = line ++ ['\n']) (hwhole : '\n' ∉ line) :
    Written text [line] where
  joined := by simpa using htext
  whole := by simpa using hwhole

theorem append (h : Written text lines) (hrest : Written rest later) :
    Written (text ++ rest) (lines ++ later) where
  joined := by rw [String.toList_append, h.joined, hrest.joined, List.flatMap_append]
  whole := by
    intro line hline
    rcases List.mem_append.mp hline with hline | hline
    · exact h.whole line hline
    · exact hrest.whole line hline

theorem join {α : Type} {parts : List α} {write : α → String} {split : α → List (List Char)}
    (h : ∀ part ∈ parts, Written (write part) (split part)) :
    Written (String.join (parts.map write)) (parts.flatMap split) := by
  induction parts with
  | nil => exact empty
  | cons part parts ih =>
      rw [List.map_cons, String.join_cons, List.flatMap_cons]
      exact (h part List.mem_cons_self).append
        (ih fun other hother => h other (List.mem_cons_of_mem part hother))

theorem join_map {α : Type} {parts : List α} {write : α → String} {line : α → List Char}
    (h : ∀ part ∈ parts, Written (write part) [line part]) :
    Written (String.join (parts.map write)) (parts.map line) := by
  rw [List.map_eq_flatMap (f := line)]
  exact join h

theorem lines_eq (h : Written text lines) : Text.lines text.toList = lines ++ [[]] := by
  rw [Text.lines_eq_splitOn, h.joined]
  have hwhole := h.whole
  clear h
  induction lines with
  | nil => rfl
  | cons line lines ih =>
      have hrest : ∀ other ∈ lines, '\n' ∉ other := fun other hother =>
        hwhole other (List.mem_cons_of_mem line hother)
      rw [List.flatMap_cons, List.append_assoc, List.singleton_append,
        List.splitOn_append_cons_self_of_not_mem (hwhole line List.mem_cons_self), ih hrest,
        List.cons_append]

end Written

/-- The name of a numbered place, with a mark for the kind of place. -/
def identifier (mark : Char) (number : Nat) : List Char :=
  mark :: Nat.toDigits 10 number

/-- The line that gives a name its attributes. -/
def declaration (name attributes : List Char) : List Char :=
  name ++ " [".toList ++ attributes

/-- The line of an arrow from one name to another. -/
def connection (source target attributes : List Char) : List Char :=
  source ++ " -> ".toList ++ declaration target attributes

/-- A line declares the box of a number. -/
def Declares (line : List Char) (number : Nat) : Prop :=
  declaration (identifier 'b' number) [] <+: line

/-- A line declares the box of a number under the heading of an address, which may have a name
beside it. -/
def Heads (line : List Char) (number : Nat) (address : UInt64) : Prop :=
  ∃ behind ∈ ["</b>".toList, " &lt;".toList],
    declaration (identifier 'b' number)
      ("label=<<b>".toList ++ (Text.hexDigits address.toNat).toList ++ behind) <+: line

/-- A line connects two names. -/
structure Joins (line source target : List Char) : Prop where
  solid_source : ' ' ∉ source
  solid_target : ' ' ∉ target
  starts : connection source target [] <+: line

/-- A line has the colour grey as its only attribute. -/
def IsGrey (line : List Char) : Prop :=
  " [color=grey]".toList <:+ line

instance (number : Nat) : DecidablePred fun line => Declares line number :=
  fun line => inferInstanceAs (Decidable (_ <+: line))

instance : DecidablePred IsGrey :=
  fun line => inferInstanceAs (Decidable (_ <:+ line))

section Names

variable {mark c : Char} {base n m : Nat}

theorem isBlank_of_mem_toDigits (hbase : 1 < base) (hle : base ≤ 16)
    (h : c ∈ Nat.toDigits base n) :
    Text.isBlank c = false := by
  obtain ⟨d, hd⟩ := (Text.spells_toDigits hbase n).isDigit c h
  exact (hd.plain hle).1

theorem not_mem_identifier (hmark : mark ≠ c) (hc : Text.isBlank c = true) :
    c ∉ identifier mark n := by
  intro hmem
  rcases List.mem_cons.mp hmem with rfl | hmem
  · exact hmark rfl
  · rw [isBlank_of_mem_toDigits (by decide) (by decide) hmem] at hc
    cases hc

theorem identifier_inj : identifier mark n = identifier mark m ↔ n = m := by
  constructor
  · intro h
    have hdigits : Nat.toDigits 10 n = Nat.toDigits 10 m := (List.cons.inj h).2
    have hn : Text.Spells 10 (Nat.toDigits 10 n) n := Text.spells_toDigits (by decide) n
    have hm : Text.Spells 10 (Nat.toDigits 10 m) m := Text.spells_toDigits (by decide) m
    rw [← hdigits] at hm
    exact hn.unique (by decide) hm
  · rintro rfl
    rfl

end Names

section Reading

variable {name source target attributes line : List Char} {k : Nat}

theorem declares_iff :
    Declares line k ↔ ∃ attributes, line = declaration (identifier 'b' k) attributes := by
  constructor
  · rintro ⟨attributes, rfl⟩
    exact ⟨attributes, by simp [declaration]⟩
  · rintro ⟨attributes, rfl⟩
    exact ⟨attributes, by simp [declaration]⟩

theorem joins_iff : Joins line source target ↔
    ' ' ∉ source ∧ ' ' ∉ target ∧ ∃ attributes, line = connection source target attributes := by
  constructor
  · rintro ⟨hsource, htarget, attributes, rfl⟩
    exact ⟨hsource, htarget, attributes, by simp [connection, declaration]⟩
  · rintro ⟨hsource, htarget, attributes, rfl⟩
    exact ⟨hsource, htarget, attributes, by simp [connection, declaration]⟩

theorem blank_split {first second before behind : List Char} (hfirst : ' ' ∉ first)
    (hsecond : ' ' ∉ second) (h : first ++ ' ' :: before = second ++ ' ' :: behind) :
    first = second ∧ before = behind := by
  have hsplit := congrArg (List.splitOn ' ') h
  rw [List.splitOn_append_cons_self_of_not_mem hfirst,
    List.splitOn_append_cons_self_of_not_mem hsecond] at hsplit
  obtain rfl : first = second := (List.cons.inj hsplit).1
  exact ⟨rfl, (List.cons.inj (List.append_cancel_left h)).2⟩

theorem declaration_eq (name attributes : List Char) :
    declaration name attributes = name ++ ' ' :: '[' :: attributes := by
  simp [declaration]

theorem connection_eq (source target attributes : List Char) :
    connection source target attributes = source ++ ' ' :: '-' :: '>' :: ' ' :: declaration target
      attributes := by
  simp [connection]

theorem declares_declaration_iff (hname : ' ' ∉ name) :
    Declares (declaration name attributes) k ↔ name = identifier 'b' k := by
  rw [declares_iff]
  constructor
  · rintro ⟨others, h⟩
    rw [declaration_eq, declaration_eq] at h
    exact (blank_split hname (not_mem_identifier (by decide) (by decide)) h).1
  · rintro rfl
    exact ⟨attributes, rfl⟩

theorem not_declares_connection (hsource : ' ' ∉ source) :
    ¬ Declares (connection source target attributes) k := by
  rw [declares_iff]
  rintro ⟨others, h⟩
  rw [connection_eq, declaration_eq (identifier 'b' k)] at h
  obtain ⟨-, h⟩ := blank_split hsource (not_mem_identifier (by decide) (by decide)) h
  exact absurd (List.cons.inj h).1 (by decide)

theorem eq_of_joins_connection {source' target' : List Char} (hsource : ' ' ∉ source)
    (htarget : ' ' ∉ target) (h : Joins (connection source target attributes) source' target') :
    source' = source ∧ target' = target := by
  obtain ⟨hsource', htarget', others, heq⟩ := joins_iff.mp h
  rw [connection_eq, connection_eq] at heq
  -- the first blank ends the source, and the blank behind the arrow's own ends the target
  obtain ⟨hsources, hbehind⟩ := blank_split hsource hsource' heq
  simp only [List.cons.injEq, true_and, declaration_eq] at hbehind
  exact ⟨hsources.symm, (blank_split htarget htarget' hbehind).1.symm⟩

theorem Joins.after_blank (h : Joins line source target) :
    (line.dropWhile (· != ' ')).take 2 = [' ', '-'] := by
  obtain ⟨hsource, -, others, rfl⟩ := joins_iff.mp h
  have hsolid : ∀ c ∈ source, (c != ' ') = true := by
    intro c hc
    exact bne_iff_ne.mpr fun heq => hsource (heq ▸ hc)
  rw [connection_eq, List.dropWhile_append_of_pos hsolid]
  rfl

theorem not_joins_declaration (hname : ' ' ∉ name) :
    ¬ Joins (declaration name attributes) source target := by
  intro h
  obtain ⟨hsource, -, others, h⟩ := joins_iff.mp h
  rw [declaration_eq, connection_eq] at h
  obtain ⟨-, h⟩ := blank_split hname hsource h
  exact absurd (List.cons.inj h).1 (by decide)

theorem IsGrey.before_bracket (h : IsGrey line) : line.dropLast.getLast? = some 'y' := by
  obtain ⟨start, rfl⟩ := h
  simp

theorem not_isGrey_of_suffix {c d : Char} (hd : d ≠ 'y') (h : [d, c] <:+ line) :
    ¬ IsGrey line := by
  intro hgrey
  obtain ⟨start, rfl⟩ := h
  have hlast := hgrey.before_bracket
  rw [List.dropLast_append_of_ne_nil (by simp)] at hlast
  exact hd (by simpa using hlast)

end Reading

/-- A line that declares no box, connects no names and is not grey. -/
structure Inert (line : List Char) : Prop where
  not_declares : ∀ k, ¬ Declares line k
  not_joins : ∀ source target, ¬ Joins line source target
  not_isGrey : ¬ IsGrey line

theorem inert_of_start {line : List Char} (hfirst : line.head? ≠ some 'b')
    (hblank : (line.dropWhile (· != ' ')).take 2 ≠ [' ', '-']) (hgrey : ¬ IsGrey line) :
    Inert line where
  not_declares := by
    intro k h
    obtain ⟨attributes, rfl⟩ := declares_iff.mp h
    exact hfirst rfl
  not_joins _ _ h := hblank h.after_blank
  not_isGrey := hgrey

section Lines

def boxAttributes (label style : String) : List Char :=
  "label=<".toList ++ label.toList ++ ">, shape=box".toList ++ style.toList ++ [']']

def boxLine (number : Nat) (label style : String) : List Char :=
  declaration (identifier 'b' number) (boxAttributes label style)

def edgeLine (source target : Nat) (style : String) : List Char :=
  connection (identifier 'b' source) (identifier 'b' target) (style.toList ++ [']'])

def remarkLine (number : Nat) (text : String) : List Char :=
  declaration (identifier 'u' number)
    ("label=<".toList ++ text.toList ++ ">, shape=plaintext]".toList)

/-- The line that ties a remark to its box. -/
def tieLine (number : Nat) : List Char :=
  connection (identifier 'b' number) (identifier 'u' number) "style=dashed, color=red]".toList

def symbolLine (index : Nat) (name : String) : List Char :=
  declaration (identifier 's' index) (boxAttributes (escape name) (filled name))

def legendLines (names : List String) : List (List Char) :=
  if names = [] then [] else
    ["subgraph cluster_symbols \x7b".toList, "label=\"Symbols\"".toList] ++
      names.zipIdx.map (fun entry => symbolLine entry.2 entry.1) ++ ["\x7d".toList]

def headerLines (title : String) : List (List Char) :=
  ["digraph Flow \x7b".toList, "label=<".toList ++ title.toList ++ "<br/><br/>>".toList,
    "labelloc=\"t\"".toList, "graph [fontname=\"Source Code Pro\"]".toList,
    "node [fontname=\"Source Code Pro\"]".toList,
    "edge [fontname=\"Source Code Pro\"]".toList]

variable {number source target : Nat} {label style text title name : String}

theorem written_box (hlabel : '\n' ∉ label.toList) (hstyle : '\n' ∉ style.toList) :
    Written (renderShape (.box number label style)) [boxLine number label style] := by
  apply Written.line
  · unfold boxLine boxAttributes
    simp [renderShape, declaration, identifier, toString]
  · have hname : '\n' ∉ identifier 'b' number := not_mem_identifier (by decide) (by decide)
    unfold boxLine boxAttributes
    simp [declaration, hname, hlabel, hstyle]

theorem written_edge (hstyle : '\n' ∉ style.toList) :
    Written (renderShape (.edge source target style)) [edgeLine source target style] := by
  apply Written.line
  · simp [renderShape, edgeLine, connection, declaration, identifier, toString]
  · have hname (k : Nat) : '\n' ∉ identifier 'b' k := not_mem_identifier (by decide) (by decide)
    simp [edgeLine, connection, declaration, hname, hstyle]

theorem written_note (htext : '\n' ∉ text.toList) :
    Written (renderShape (.note number text)) [remarkLine number text, tieLine number] where
  joined := by simp [renderShape, remarkLine, tieLine, connection, declaration,
    identifier, toString]
  whole := by
    have hbox : '\n' ∉ identifier 'b' number := not_mem_identifier (by decide) (by decide)
    have hremark : '\n' ∉ identifier 'u' number := not_mem_identifier (by decide) (by decide)
    simp [remarkLine, tieLine, connection, declaration, hbox, hremark, htext]

theorem eq_of_mem_escapedChar {c : Char} : '\n' ∈ escapedChar c → c = '\n' := by
  fun_cases escapedChar c <;> simp [eq_comm]

theorem not_mem_escape (h : '\n' ∉ text.toList) : '\n' ∉ (escape text).toList := by
  rw [escape, String.toList_ofList, List.mem_flatMap]
  rintro ⟨c, hc, hmem⟩
  obtain rfl := eq_of_mem_escapedChar hmem
  exact h hc

theorem not_mem_toDigits (n : Nat) : '\n' ∉ Nat.toDigits 16 n := by
  intro h
  exact absurd (isBlank_of_mem_toDigits (by decide) (by decide) h) (by decide)

theorem not_mem_hexPadded (count n : Nat) : '\n' ∉ (Text.hexPadded count n).toList := by
  simp [Text.hexPadded, not_mem_toDigits, List.mem_replicate]

theorem not_mem_filled (name : String) : '\n' ∉ (filled name).toList := by
  -- not by its equation, which is slow to make for a definition that opens with a long text
  unfold filled
  simp only [String.toList_append, List.mem_append, not_or]
  exact ⟨⟨by decide, not_mem_hexPadded _ _⟩, by decide⟩

theorem written_symbol (hname : '\n' ∉ name.toList) (index : Nat) :
    Written (s!"s{index} [label=<" ++ escape name ++ ">, shape=box" ++ filled name ++ "]\n")
      [symbolLine index name] := by
  apply Written.line
  · unfold symbolLine boxAttributes
    simp [declaration, identifier, toString]
  · have hsymbol : '\n' ∉ identifier 's' index := not_mem_identifier (by decide) (by decide)
    unfold symbolLine boxAttributes
    simp [declaration, hsymbol, not_mem_escape hname, not_mem_filled]

theorem written_legend {names : List String} (hnames : ∀ name ∈ names, '\n' ∉ name.toList) :
    Written (renderLegend names) (legendLines names) := by
  cases names with
  | nil => exact .empty
  | cons first names =>
      rw [renderLegend, legendLines, if_neg (List.cons_ne_nil first names)]
      · have hopen : Written "subgraph cluster_symbols \x7b\nlabel=\"Symbols\"\n"
            ["subgraph cluster_symbols \x7b".toList, "label=\"Symbols\"".toList] :=
              ⟨by decide, by decide⟩
        have hentries := Written.join_map fun entry (hentry : entry ∈ (first :: names).zipIdx) =>
          written_symbol (hnames entry.1 (List.fst_mem_of_mem_zipIdx hentry)) entry.2
        exact (hopen.append hentries).append (.line rfl (by decide))
      · simp

theorem written_header (htitle : '\n' ∉ title.toList) :
    Written ("digraph Flow \x7b\n" ++ "label=<" ++ title ++ "<br/><br/>>\n" ++
      "labelloc=\"t\"\n" ++ "graph [fontname=\"Source Code Pro\"]\n" ++
        "node [fontname=\"Source Code Pro\"]\n" ++
      "edge [fontname=\"Source Code Pro\"]\n") (headerLines title) where
  joined := by simp [headerLines]
  whole := by simp [headerLines, htitle]

theorem written_render {d : Drawing} {lines : List (List Char)} (htitle : '\n' ∉ d.title.toList)
    (hshapes : Written (String.join (d.shapes.map renderShape)) lines)
    (hlegend : ∀ name ∈ d.legend, '\n' ∉ name.toList) :
    Written d.render (headerLines d.title ++ lines ++ legendLines d.legend ++ ["\x7d".toList]) :=
  (((written_header htitle).append hshapes).append (written_legend hlegend)).append
    (.line rfl (by decide))

theorem declares_boxLine_iff {k : Nat} :
    Declares (boxLine number label style) k ↔ number = k := by
  rw [boxLine, declares_declaration_iff (not_mem_identifier (by decide) (by decide)),
    identifier_inj]

theorem not_joins_boxLine (first second : List Char) :
    ¬ Joins (boxLine number label style) first second :=
  not_joins_declaration (not_mem_identifier (by decide) (by decide))

theorem not_isGrey_box {identifier : List Char} (hstyle : style.toList.getLast? ≠ some 'y') :
    ¬ IsGrey (declaration identifier (boxAttributes label style)) := by
  intro h
  have hlast := h.before_bracket
  unfold boxAttributes at hlast
  rw [declaration, ← List.append_assoc, List.dropLast_concat, ← List.append_assoc,
    ← List.append_assoc, List.getLast?_append, List.getLast?_append] at hlast
  rcases Option.or_eq_some_iff.mp hlast with hlast | ⟨-, hlast⟩
  · exact hstyle hlast
  · exact absurd hlast (by simp)

theorem getLast?_filled (name : String) : (filled name).toList.getLast? = some '"' := by
  unfold filled
  simp only [String.toList_append, List.getLast?_append]
  rfl

theorem not_declares_edgeLine (k : Nat) : ¬ Declares (edgeLine source target style) k :=
  not_declares_connection (not_mem_identifier (by decide) (by decide))

theorem eq_of_joins_edgeLine {first second : List Char}
    (h : Joins (edgeLine source target style) first second) :
    first = identifier 'b' source ∧ second = identifier 'b' target :=
  eq_of_joins_connection (not_mem_identifier (by decide) (by decide))
    (not_mem_identifier (by decide) (by decide)) h

theorem isGrey_edgeLine : IsGrey (edgeLine source target "color=grey") :=
  ⟨identifier 'b' source ++ " -> ".toList ++ identifier 'b' target,
    by simp [edgeLine, connection, declaration]⟩

theorem not_declares_tieLine (k : Nat) : ¬ Declares (tieLine number) k :=
  not_declares_connection (not_mem_identifier (by decide) (by decide))

theorem eq_of_joins_tieLine {first second : List Char} (h : Joins (tieLine number) first second) :
    first = identifier 'b' number ∧ second = identifier 'u' number :=
  eq_of_joins_connection (not_mem_identifier (by decide) (by decide))
    (not_mem_identifier (by decide) (by decide)) h

theorem not_isGrey_tieLine : ¬ IsGrey (tieLine number) :=
  not_isGrey_of_suffix (d := 'd') (c := ']') (by decide)
    (List.suffix_append_of_suffix (List.suffix_append_of_suffix (by decide)))

theorem inert_declaration {mark : Char} {attributes : List Char} (hmark : mark ≠ 'b')
    (hblank : mark ≠ ' ') (hgrey : ¬ IsGrey (declaration (identifier mark number) attributes)) :
    Inert (declaration (identifier mark number) attributes) where
  not_declares := by
    intro k h
    have hname := (declares_declaration_iff (not_mem_identifier hblank (by decide))).mp h
    exact hmark (List.cons.inj hname).1
  not_joins _ _ := not_joins_declaration (not_mem_identifier hblank (by decide))
  not_isGrey := hgrey

theorem inert_remarkLine : Inert (remarkLine number text) :=
  inert_declaration (by decide) (by decide)
    (not_isGrey_of_suffix (d := 't') (c := ']') (by decide)
      (List.suffix_append_of_suffix (List.suffix_append_of_suffix (by decide))))

theorem inert_symbolLine : Inert (symbolLine number name) :=
  inert_declaration (by decide) (by decide) (not_isGrey_box (by simp [getLast?_filled]))

theorem inert_legendLines {names : List String} : ∀ line ∈ legendLines names, Inert line := by
  intro line hline
  rw [legendLines] at hline
  split at hline
  case isTrue => cases hline
  case isFalse =>
    simp only [List.cons_append, List.nil_append, List.mem_cons, List.mem_append, List.mem_map,
      List.not_mem_nil, or_false] at hline
    rcases hline with rfl | rfl | ⟨entry, -, rfl⟩ | rfl
    · exact inert_of_start (by decide) (by decide) (by decide)
    · exact inert_of_start (by decide) (by decide) (by decide)
    · exact inert_symbolLine
    · exact inert_of_start (by decide) (by decide) (by decide)

theorem inert_headerLines
    (htitle : Inert ("label=<".toList ++ title.toList ++ "<br/><br/>>".toList)) :
    ∀ line ∈ headerLines title, Inert line := by
  intro line hline
  simp only [headerLines, List.mem_cons, List.not_mem_nil, or_false] at hline
  rcases hline with rfl | rfl | rfl | rfl | rfl | rfl
  case inr.inl => exact htitle
  all_goals exact inert_of_start (by decide) (by decide) (by decide)

end Lines

end FlowRecovery.Drawing
