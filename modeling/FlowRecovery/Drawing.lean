import FlowRecovery.Image
import FlowRecovery.Microcode.Graph

namespace FlowRecovery

/-- One part of a drawing. Boxes and edges refer to places by their numbers. -/
inductive Shape where
  | box (number : Nat) (label style : String)
  | edge (source target : Nat) (style : String)
  /-- A remark beside a box, and the edge that ties it to the box. -/
  | note (number : Nat) (text : String)
deriving DecidableEq

/-- A titled list of shapes, with a legend of symbol names. -/
structure Drawing where
  title : String
  shapes : List Shape
  legend : List String := []
deriving DecidableEq

namespace Drawing

def lineEnd : String :=
  "<br align=\"left\"/>"

def escapedChar : Char → List Char
  | '&' => "&amp;".toList
  | '<' => "&lt;".toList
  | '>' => "&gt;".toList
  | c => [c]

def escape (text : String) : String :=
  String.ofList (text.toList.flatMap escapedChar)

/-- The light colour of a symbol: a hash of its name with the upper half of each channel set. -/
def color (name : String) : UInt64 :=
  let mix (hash : UInt64) (byte : UInt8) : UInt64 := 0x3141596 * byte.toUInt64 + 8 * hash
  let hash := name.toUTF8.toList.foldl mix 0
  (hash &&& 0xffffff) ||| 0x808080

/-- The style of a box filled with the colour of a symbol. -/
def filled (name : String) : String :=
  ", style=filled, fillcolor=\"#" ++ Text.hexPadded 6 (color name).toNat ++ "\""

def renderShape : Shape → String
  | .box number label style => s!"b{number} [label=<" ++ label ++ ">, shape=box" ++ style ++ "]\n"
  | .edge source target style => s!"b{source} -> b{target} [" ++ style ++ "]\n"
  | .note number text =>
    s!"u{number} [label=<" ++ text ++ ">, shape=plaintext]\n" ++
      s!"b{number} -> u{number} [style=dashed, color=red]\n"

/-- The lines of a legend, or nothing if it has no entries. -/
def renderLegend : List String → String
  | [] => ""
  | names =>
    let entries := names.zipIdx.map fun (name, index) =>
      s!"s{index} [label=<" ++ escape name ++ ">, shape=box" ++ filled name ++ "]\n"
    "subgraph cluster_symbols \x7b\nlabel=\"Symbols\"\n" ++ String.join entries ++ "\x7d\n"

def render (d : Drawing) : String :=
  "digraph Flow \x7b\n" ++
  "label=<" ++ d.title ++ "<br/><br/>>\n" ++
  "labelloc=\"t\"\n" ++
  "graph [fontname=\"Source Code Pro\"]\n" ++
  "node [fontname=\"Source Code Pro\"]\n" ++
  "edge [fontname=\"Source Code Pro\"]\n" ++
  String.join (d.shapes.map renderShape) ++
  renderLegend d.legend ++
  "\x7d\n"

/-- The numbers of places that were used so far. -/
abbrev Numbering := Std.ExtTreeMap Location Nat

/-- The number of a place. A place has the next free number from its first use on. -/
def number (l : Location) : StateM Numbering Nat := do
  let numbering ← get
  match numbering[l]? with
  | some n => return n
  | none =>
    set (numbering.insert l numbering.size)
    return numbering.size

end Drawing

namespace Microcode

open Drawing (number)

/-- The instruction boundaries that have a node, in order. -/
def instructions (mc : Microcode) : List Location :=
  mc.nodes.keys.filter Location.isBoundary

def instructionEdges (mc : Microcode) : List (Location × Location) :=
  mc.instructions.flatMap fun source =>
    (mc.successors source).toList.map fun target => (source, target)

/-- The successors of instructions that have no node, in order. -/
def missingInstructions (mc : Microcode) : List Location :=
  let targets := mc.instructionEdges.map Prod.snd
  (Std.ExtTreeSet.ofList (targets.filter fun t => !mc.contains t)).toList

/-- The style of the box of the entrypoint; other boxes have none. -/
def entryStyle (mc : Microcode) (l : Location) : String :=
  if mc.entrypoint = some l then ", color=red, peripheries=2" else ""

def instructionLabel (mc : Microcode) (symbols : SymbolTable) (l : Location) : String :=
  let name := match symbols.name? l.instruction with
    | some name => " &lt;" ++ Drawing.escape name ++ "&gt;"
    | none => ""
  let annotation := match (mc.node? l).bind Node.annotation with
    | some text => Drawing.escape text ++ Drawing.lineEnd
    | none => ""
  "<b>" ++ Text.hexDigits l.instruction.toNat ++ name ++ "</b>" ++ Drawing.lineEnd ++ annotation

/-- The fill of the box of an instruction: the colour of its symbol, or grey where the program
ends. -/
def instructionFill (mc : Microcode) (symbols : SymbolTable) (l : Location) : String :=
  match symbols.containing? l.instruction with
  | some (_, name) => Drawing.filled name
  | none => if (mc.successors l).isEmpty then ", style=filled, fillcolor=\"#dddddd\"" else ""

/-- The label of an instruction that has no node: address and reason. -/
def missingLabel (mc : Microcode) (l : Location) : String :=
  let reason := match mc.unresolved[l]? with
    | some .outOfBounds => "out of bounds"
    | some (.dynamicJump _) => "unresolved"
    | some .unexplored | none => "unexplored"
  "<b>" ++ Text.hexDigits l.instruction.toNat ++ "</b>" ++ Drawing.lineEnd ++ reason ++
    Drawing.lineEnd

/-- The shapes of the instruction graph, in their order: instructions, targets without a node,
edges, and remarks on unresolved jumps. -/
def instructionShapes (mc : Microcode) (symbols : SymbolTable) :
    StateM Drawing.Numbering (List Shape) := do
  let boxes ← mc.instructions.mapM fun l => do
    return .box (← number l) (mc.instructionLabel symbols l)
      (mc.instructionFill symbols l ++ mc.entryStyle l)
  let missing ← mc.missingInstructions.mapM fun l => do
    return .box (← number l) (mc.missingLabel l) ", style=dashed"
  let edges ← mc.instructionEdges.mapM fun (source, target) => do
    return .edge (← number source) (← number target) "color=grey"
  let notes ← mc.unresolvedJumps.mapM fun (l, target) => do
    return .note (← number (.boundary l.instruction)) (Drawing.escape target.render)
  return boxes ++ missing ++ edges ++ notes

/-- The drawing of instructions and the control flow between them. -/
def instructionGraph (mc : Microcode) (symbols : SymbolTable) (title : String) : Drawing :=
  let used := mc.instructions.filterMap fun l => (symbols.containing? l.instruction).map Prod.snd
  { title := "Control flow graph for " ++ Drawing.escape title
    shapes := ((mc.instructionShapes symbols).run ∅).1
    legend := (Std.ExtTreeSet.ofList used).toList }

def stepLabel (l : Location) (n : Node) : String :=
  let annotation := match n.annotation with
    | some text => Drawing.lineEnd ++ Drawing.escape text
    | none => ""
  "<b>" ++ l.render ++ "</b>" ++ annotation

def arrowLabel (a : Arrow) : String :=
  let guard :=
    if a.guard.isTrue then "" else "if " ++ Drawing.escape a.guard.render ++ Drawing.lineEnd
  let statement := match a.statement with
    | .skip => ""
    | .assign .. => Drawing.escape a.statement.render ++ Drawing.lineEnd
  guard ++ statement

/-- The edges of an arrow of a node, each with its target and style. An arrow to a computed
address has an edge to each location it was found to lead to. -/
def arrowEdges (n : Node) (a : Arrow) : List (Location × String) :=
  match a.target with
  | .static target => [(target, "label=<" ++ arrowLabel a ++ ">")]
  | .dynamic address =>
    let label := arrowLabel a ++ "goto " ++ Drawing.escape address.render
    n.resolved.toList.map fun target => (target, "label=<" ++ label ++ ">, style=dashed")

/-- The shapes of the step graph, in their order: nodes, then the edges of each of them. -/
def stepShapes (mc : Microcode) : StateM Drawing.Numbering (List Shape) := do
  let boxes ← mc.nodes.toList.mapM fun (l, n) => do
    return .box (← number l) (stepLabel l n) (mc.entryStyle l)
  let edges ← mc.nodes.toList.mapM fun (l, n) => do
    let source ← number l
    (n.arrows.flatMap (arrowEdges n)).mapM fun (target, style) => do
      return .edge source (← number target) style
  return boxes ++ edges.flatten

/-- The drawing of all micro steps with guards and statements on the edges. -/
def stepGraph (mc : Microcode) (title : String) : Drawing :=
  { title := "Microcode of " ++ Drawing.escape title
    shapes := (mc.stepShapes.run ∅).1 }

end Microcode

end FlowRecovery
