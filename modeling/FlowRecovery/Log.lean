import FlowRecovery.Architecture
import FlowRecovery.Decoder
import FlowRecovery.Simulation.State
import FlowRecovery.Solver

namespace FlowRecovery

/-- How much an event matters, and how much of a log is shown. -/
inductive Level where
  | error
  | warn
  | info
  | debug
  | trace
deriving DecidableEq

namespace Level

def name : Level → String
  | error => "ERROR"
  | warn => "WARN"
  | info => "INFO"
  | debug => "DEBUG"
  | trace => "TRACE"

/-- The place of a level, the most severe first. -/
def rank : Level → Nat
  | error => 0
  | warn => 1
  | info => 2
  | debug => 3
  | trace => 4

end Level

/-- Counters that describe how an exploration went. -/
structure Statistics where
  /-- States whose arrows were followed. -/
  expanded : Nat := 0
  /-- States dropped because an equal state was seen before. -/
  duplicates : Nat := 0
  /-- States dropped because their instruction reached the visit limit. -/
  throttled : Nat := 0
  /-- States at addresses outside of the image. -/
  undefinedTargets : Nat := 0
  /-- States abandoned because a value they needed was undefined. -/
  undefinedValues : Nat := 0
  /-- Expanded states without a feasible successor. -/
  deadStates : Nat := 0
  /-- Jumps whose targets are not all known. -/
  unresolvedJumps : Nat := 0
deriving DecidableEq

/-- Something worth a line in a log. -/
inductive Event where
  | ignoredRegister (name : String)
  | decoding (address : UInt64)
  | infeasible (arrow : Arrow)
  | solverFailed (solver : String) (formula : Expr) (error : SolverError)
  | unresolvedJump (source : Location) (target : Expr)
  | furtherTargets (source : Location) (target : Expr) (found : Nat)
  | duplicate (pc : Location)
  | undefinedTarget (address : UInt64)
  | pruning (address : UInt64) (visits : Nat)
  | expanding (pc : Location)
  | expandingState (state : State)
  | abandoned (pc : Location) (error : UndefinedValue)
  | dead (pc : Location)
  | aborted (error : DecodeError)
  | noSolver (error : SolverError)
  | wrongDecoder (image decoder : Processor)
  | initialValue (register : String) (value : UInt64)
  | visitLimit (visits : Nat)
  | exploring (entrypoint : UInt64) (solver : String)
  | recovered (nodes : Nat) (statistics : Statistics)
  | summary (statistics : Statistics)

namespace Event

def level : Event → Level
  | aborted _ | noSolver _ | wrongDecoder _ _ => .error
  | ignoredRegister _ | solverFailed _ _ _ | unresolvedJump _ _ | furtherTargets _ _ _
  | undefinedTarget _ | pruning _ _ | abandoned _ _ => .warn
  | initialValue _ _ | visitLimit _ | exploring _ _ | recovered _ _ | summary _ => .info
  | decoding _ | infeasible _ | duplicate _ | expanding _ | expandingState _ | dead _ => .debug

/-- The part of the program that an event comes from. -/
def component : Event → String
  | ignoredRegister _ | decoding _ | infeasible _ | solverFailed _ _ _ | unresolvedJump _ _
  | furtherTargets _ _ _ => "microsym::sym::simulator"
  | summary _ => "microsym"
  | _ => "microsym::recovery"

def message : Event → String
  | ignoredRegister name => "ignoring unknown register " ++ name ++ " in initial state"
  | decoding address => "decoding instruction at " ++ Text.hex address.toNat
  | infeasible arrow => "infeasible arrow " ++ arrow.render
  | solverFailed solver formula error =>
    solver ++ " solver failed on " ++ formula.render ++ ": " ++ error.message
  | unresolvedJump source target =>
    "unresolved dynamic jump at " ++ source.render ++ " to " ++ target.render
  | furtherTargets source target found =>
    "dynamic jump at " ++ source.render ++ " to " ++ target.render ++
      s!" has more than {found} targets"
  | duplicate pc => "dropping duplicate state at " ++ pc.render
  | undefinedTarget address => "undefined jump target " ++ Text.hex address.toNat
  | pruning address visits =>
    "instruction at " ++ Text.hex address.toNat ++
      s!" reached {visits} visits, pruning further states"
  | expanding pc => "expanding state at " ++ pc.render
  | expandingState state => "expanding " ++ state.render
  | abandoned pc error => "abandoning state at " ++ pc.render ++ ": " ++ error.message
  | dead pc => "no feasible successor at " ++ pc.render
  | aborted error => "aborting recovery: " ++ error.message
  | noSolver error => "cannot start recovery: " ++ error.message
  | wrongDecoder image decoder =>
    "cannot decode " ++ image.render ++ " code with a " ++ decoder.render ++ " decoder"
  | initialValue register value =>
    "initial value of " ++ register ++ " is " ++ Text.hex value.toNat
  | visitLimit visits => s!"expanding each instruction at most {visits} times"
  | exploring entrypoint solver =>
    "exploring from " ++ Text.hex entrypoint.toNat ++ " using the " ++ solver ++ " solver"
  | recovered nodes statistics =>
    s!"recovered {nodes} nodes from {statistics.expanded} states, " ++
      s!"{statistics.unresolvedJumps} unresolved jumps"
  | summary statistics =>
    s!"{statistics.expanded} states expanded, {statistics.duplicates} duplicates, " ++
      s!"{statistics.throttled} throttled, {statistics.undefinedValues} abandoned, " ++
      s!"{statistics.undefinedTargets} undefined targets"

/-- Whether an event belongs to the part of a log that is shown up to a level. -/
def isShown (e : Event) (verbosity : Level) : Bool :=
  e.level.rank ≤ verbosity.rank

end Event

end FlowRecovery
