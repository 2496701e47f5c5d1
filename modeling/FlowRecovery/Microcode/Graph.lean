import Std.Data.ExtTreeMap
import Std.Data.ExtTreeSet
import FlowRecovery.Expr.Basic
import FlowRecovery.Microcode.Location

/-!
Microcode graphs. A node is a micro step with the arrows that leave it; an arrow is taken when its
guard holds, runs its statement and leads to a fixed location or to a computed instruction
address. Addresses that stay without a node are recorded with a reason.
-/

namespace FlowRecovery

/-- What happens when an arrow is taken. -/
inductive Statement where
  | skip
  /-- Stores a value in a register or a memory cell. -/
  | assign (place value : Expr)
deriving DecidableEq

/-- Where an arrow leads. -/
inductive Target where
  | static (location : Location)
  /-- The instruction whose address an expression evaluates to. -/
  | dynamic (address : Expr)
deriving DecidableEq

/-- A guarded edge. -/
structure Arrow where
  source : Location
  target : Target
  guard : Expr
  statement : Statement
deriving DecidableEq

/-- A micro step with its outgoing arrows. -/
structure Node where
  arrows : List Arrow := []
  /-- The text of the instruction, on its boundary. -/
  annotation : Option String := none
  /-- The locations that computed targets of this step were found to lead to. -/
  resolved : Std.ExtTreeSet Location := ∅
deriving DecidableEq

/-- Why an address has no node, or a jump no complete set of targets. -/
inductive Unresolved where
  /-- The address lies outside of the image. -/
  | outOfBounds
  /-- The jump at this address may have further targets. -/
  | dynamicJump (target : Expr)
  /-- The exploration stopped before it got to the address. -/
  | unexplored
deriving DecidableEq

/-- A partially discovered program. -/
structure Microcode where
  nodes : Std.ExtTreeMap Location Node := ∅
  unresolved : Std.ExtTreeMap Location Unresolved := ∅
  entrypoint : Option Location := none
deriving DecidableEq

def Statement.render : Statement → String
  | skip => "skip"
  | assign place value => place.render ++ " := " ++ value.render

/-- The text of a target; a computed one has an asterisk. -/
def Target.render : Target → String
  | static location => location.render
  | dynamic address => "*" ++ address.render

namespace Arrow

/-- The fixed location an arrow leads to. -/
def staticTarget? (a : Arrow) : Option Location :=
  match a.target with
  | .static location => some location
  | .dynamic _ => none

/-- The text of an arrow, without a guard that is true and without a statement that does
nothing. -/
def render (a : Arrow) : String :=
  let guard := if a.guard.isTrue then "" else " if " ++ a.guard.render
  let statement := if a.statement = .skip then "" else " do " ++ a.statement.render
  a.source.render ++ " -> " ++ a.target.render ++ guard ++ statement

end Arrow

/-- The known locations a node leads to: fixed targets in the order of the arrows, then resolved
ones. -/
def Node.targets (n : Node) : List Location :=
  n.arrows.filterMap Arrow.staticTarget? ++ n.resolved.toList

namespace Microcode

/-- Changes the node at a location, starting from an empty one if there is none. -/
def modifyNode (mc : Microcode) (l : Location) (f : Node → Node) : Microcode :=
  { mc with nodes := mc.nodes.insert l (f (mc.nodes.getD l {})) }

/-- Makes sure that there is a node at a location. -/
def addNode (mc : Microcode) (l : Location) : Microcode :=
  mc.modifyNode l id

/-- Adds an arrow without a statement. One with the same target only gets the new guard. -/
def withSkip (arrow : Arrow) : List Arrow → List Arrow
  | [] => [arrow]
  | a :: rest =>
    if a.target = arrow.target ∧ a.statement = .skip then { a with guard := arrow.guard } :: rest
    else a :: withSkip arrow rest

/-- Adds a guarded arrow without a statement, or changes the guard of the one that is there. -/
def addSkip (mc : Microcode) (source target : Location) (guard : Expr) : Checked Microcode := do
  require (guard.width = 1) .guardWidth
  let arrow := { source, target := .static target, guard, statement := .skip }
  return mc.modifyNode source fun n => { n with arrows := withSkip arrow n.arrows }

/-- Adds an unconditional arrow without a statement. -/
def addFallthrough (mc : Microcode) (source target : Location) : Checked Microcode :=
  mc.addSkip source target (.bool true)

/-- Whether an expression names something that can be assigned to. -/
def isPlace : Expr → Bool
  | .reg _ | .mem _ _ _ => true
  | _ => false

/-- Adds an assignment that leads to a location, or to the next step if none is given. The
location it leads to is returned as well. -/
def addAssignment (mc : Microcode) (source : Location) (place value : Expr)
    (target : Option Location) :
    Checked (Location × Microcode) := do
  require (isPlace place) (.assignedPlace place.render)
  require (place.width = value.width) (.assignedWidths value.render place.render)
  let next ← source.advance 1
  let target := target.getD next
  let arrow :=
    { source, target := .static target, guard := .bool true, statement := .assign place value }
  return (target, mc.modifyNode source fun n => { n with arrows := n.arrows ++ [arrow] })

/-- Adds an arrow to a computed address that is taken under a guard. -/
def addGuardedJump (mc : Microcode) (source : Location) (address guard : Expr) :
    Checked Microcode := do
  require (guard.width = 1) .guardWidth
  let arrow := { source, target := .dynamic address, guard, statement := .skip }
  return mc.modifyNode source fun n => { n with arrows := n.arrows ++ [arrow] }

/-- Adds an unconditional arrow to a computed address. -/
def addJump (mc : Microcode) (source : Location) (address : Expr) : Checked Microcode :=
  mc.addGuardedJump source address (.bool true)

def annotate (mc : Microcode) (l : Location) (text : String) : Microcode :=
  mc.modifyNode l fun n => { n with annotation := some text }

/-- Records that a computed target of one location led to another. -/
def addResolved (mc : Microcode) (source target : Location) : Microcode :=
  mc.modifyNode source fun n => { n with resolved := n.resolved.insert target }

/-- Records why an address stays without a node. -/
def markUnresolved (mc : Microcode) (l : Location) (reason : Unresolved) : Microcode :=
  { mc with unresolved := mc.unresolved.insert l reason }

def node? (mc : Microcode) (l : Location) : Option Node :=
  mc.nodes[l]?

def contains (mc : Microcode) (l : Location) : Bool :=
  mc.nodes.contains l

/-- The jumps whose targets are not all known, with the text of their target. -/
def unresolvedJumps (mc : Microcode) : List (Location × Expr) :=
  mc.unresolved.toList.filterMap fun (l, reason) => match reason with
    | .dynamicJump target => some (l, target)
    | _ => none

/-- The locations that arrows lead to, without a node and without a record. -/
def danglingTargets (mc : Microcode) : Std.ExtTreeSet Location :=
  let targets := mc.nodes.toList.flatMap fun (_, n) => n.targets
  .ofList (targets.filter fun t => !mc.contains t && !mc.unresolved.contains t)

/-- What a search for boundaries has found, and the internal steps it has seen. -/
structure Search where
  found : Std.ExtTreeSet Location := ∅
  seen : Std.ExtTreeSet Location := ∅

/-- Adds a boundary to what was found. -/
def Search.find (s : Search) (l : Location) : Search :=
  { s with found := s.found.insert l }

/-- Adds an internal step to what was seen. -/
def Search.enter (s : Search) (l : Location) : Search :=
  { s with seen := s.seen.insert l }

theorem Search.mem_enter {s : Search} {l n : Location} :
    n ∈ (s.enter l).seen ↔ l = n ∨ n ∈ s.seen := by
  simp [enter]

/-- The number of nodes that were not seen. -/
def unseen (mc : Microcode) (seen : Std.ExtTreeSet Location) : Nat :=
  mc.nodes.keys.countP (· ∉ seen)

theorem unseen_mono (mc : Microcode) {seen seen' : Std.ExtTreeSet Location}
    (h : ∀ l ∈ seen, l ∈ seen') : mc.unseen seen' ≤ mc.unseen seen :=
  List.countP_mono_left fun l _ hl =>
    decide_eq_true fun hmem => of_decide_eq_true hl (h l hmem)

theorem unseen_enter_lt (mc : Microcode) {s : Search} {l : Location} {node : Node}
    (hnode : mc.nodes[l]? = some node) (hnew : l ∉ s.seen) :
    mc.unseen (s.enter l).seen < mc.unseen s.seen := by
  have hmem : l ∈ mc.nodes.keys := by
    rw [Std.ExtTreeMap.mem_keys, Std.ExtTreeMap.mem_iff_isSome_getElem?, hnode]
    rfl
  have hsplit : mc.unseen (s.enter l).seen =
      ((mc.nodes.keys.filter (· ∉ s.seen)).filter (· ∉ (s.enter l).seen)).length := by
    rw [List.filter_filter, unseen, List.countP_eq_length_filter]
    congr 1
    refine List.filter_congr fun n _ => ?_
    by_cases hn : n ∈ s.seen
    · simp [hn, Search.mem_enter]
    · simp [hn]
  rw [hsplit, unseen, List.countP_eq_length_filter, List.length_filter_lt_length_iff_exists]
  exact ⟨l, List.mem_filter.mpr ⟨hmem, decide_eq_true hnew⟩, by simp [Search.mem_enter]⟩

/-- Goes through the targets of a node. A boundary is found; an internal step is entered when it
is seen for the first time, and then its own targets come before the others. What was seen stays
seen, so every node is entered once at most. -/
def collectSuccessors (mc : Microcode) (targets : List Location) (s : Search) :
    { s' : Search // ∀ l ∈ s.seen, l ∈ s'.seen } :=
  match targets with
  | [] => ⟨s, fun _ h => h⟩
  | t :: rest =>
    if t.isBoundary then collectSuccessors mc rest (s.find t)
    else if _ : t ∈ s.seen then collectSuccessors mc rest s
    else
      have hentered : ∀ l ∈ s.seen, l ∈ (s.enter t).seen := fun _ h =>
        Search.mem_enter.mpr (.inr h)
      match _ : mc.nodes[t]? with
      | none =>
        let last := collectSuccessors mc rest (s.enter t)
        ⟨last.1, fun l h => last.2 l (hentered l h)⟩
      | some node =>
        let inner := collectSuccessors mc node.targets (s.enter t)
        let last := collectSuccessors mc rest inner.1
        ⟨last.1, fun l h => last.2 l (inner.2 l (hentered l h))⟩
termination_by (mc.unseen s.seen, targets.length)
decreasing_by
  · exact Prod.Lex.right _ (Nat.lt_succ_self _)
  · exact Prod.Lex.right _ (Nat.lt_succ_self _)
  · exact Prod.Lex.right' _ (mc.unseen_mono hentered) (Nat.lt_succ_self _)
  · exact Prod.Lex.left _ _ (mc.unseen_enter_lt ‹_› ‹_›)
  · exact Prod.Lex.right' _ (mc.unseen_mono fun l h => inner.2 l (hentered l h))
      (Nat.lt_succ_self _)

/-- The instruction boundaries a location leads to through the internal steps of its
instruction. -/
def successors (mc : Microcode) (l : Location) : Std.ExtTreeSet Location :=
  match mc.nodes[l]? with
  | none => ∅
  | some node => (mc.collectSuccessors node.targets {}).1.found

/-- The instructions of a graph with their arrows. -/
def render (mc : Microcode) : String :=
  let nodes := mc.nodes.toList.map fun (l, n) =>
    let annotation := match n.annotation with
      | some text => "    " ++ l.render ++ ": " ++ text ++ "\n"
      | none => ""
    annotation ++ String.join (n.arrows.map fun a => "        " ++ a.render ++ "\n")
  "Microcode [" ++ (if nodes.isEmpty then "" else "\n") ++ String.join nodes ++ "]"

end Microcode

end FlowRecovery
