import FlowRecovery.Simulation.Simulator

/-!
The exploration of a program: a worklist of symbolic states that are expanded one after the other,
the latest first. A state that was seen before is dropped, and so is every further state at an
instruction that was visited as often as the settings allow.
-/

namespace FlowRecovery

/-- What an exploration works with. -/
structure Explorer where
  decoder : Decoder
  solver : Solver
  image : Memory
  settings : Settings

def Explorer.simulator (e : Explorer) : Simulator :=
  { decoder := e.decoder, solver := e.solver, image := e.image, policy := e.settings.jumps }

/-- What an exploration has seen so far. -/
structure Exploration where
  discovery : Discovery := {}
  /-- The states that wait, the next one first. -/
  todo : List State := []
  /-- The states that are done with. -/
  visited : List (Location × SymbolicMemory) := []
  /-- How often the instructions were visited; only counted under a limit. -/
  visits : Std.ExtTreeMap UInt64 Nat := ∅
  statistics : Statistics := {}

abbrev ExploreM := StateT Exploration Checked

/-- A recovered program with the statistics of its exploration. -/
structure Recovery where
  program : Microcode
  statistics : Statistics

namespace Exploration

def program (x : Exploration) : Microcode :=
  x.discovery.program

def push (x : Exploration) (s : State) : Exploration :=
  { x with todo := s :: x.todo }

/-- Ends an exploration. Targets that were not reached are recorded as unexplored. -/
def finish (x : Exploration) : Recovery :=
  let program := x.program.danglingTargets.toList.foldl
    (fun mc target => mc.markUnresolved target .unexplored) x.program
  { program
    statistics := { x.statistics with unresolvedJumps := program.unresolvedJumps.length } }

end Exploration

namespace Explorer

def simulate {α : Type} (action : SimM α) : ExploreM α := do
  let x ← get
  let (result, discovery) := action.run.run x.discovery
  set { x with discovery }
  result

/-- The state at an entrypoint with the initial register values of the settings. -/
def start (e : Explorer) (entrypoint : UInt64) : ExploreM (Except UndefinedValue State) :=
  simulate (e.simulator.init entrypoint e.settings.initRegisters).run

def report (event : Event) : ExploreM Unit :=
  simulate (Simulator.report event)

def count (f : Statistics → Statistics) : ExploreM Unit :=
  modify fun x => { x with statistics := f x.statistics }

def markVisited (s : State) : ExploreM Unit :=
  modify fun x => { x with visited := s.point :: x.visited }

/-- Whether the instruction of a state is neither known nor in the image. -/
def isOutside (e : Explorer) (x : Exploration) (s : State) : Bool :=
  !x.program.contains (.boundary s.pc.instruction) && !e.image.isDefined s.pc.instruction

/-- Counts a visit of the instruction at whose boundary a state is, if visits are limited. Yields
whether the state may be expanded. -/
def visit (e : Explorer) (s : State) : ExploreM Bool := do
  let limit := e.settings.maxVisits
  if limit = 0 ∨ !s.pc.isBoundary then return true
  let visits := (← get).visits.getD s.pc.instruction 0
  modify fun x => { x with visits := x.visits.insert s.pc.instruction (visits + 1) }
  if visits = limit then report (.pruning s.pc.instruction limit)
  return visits < limit

/-- Follows the arrows that leave the location of a state and puts the successors on the worklist.
A state whose arrows need an undefined value has no successors. -/
def follow (e : Explorer) (s : State) : ExploreM (Except DecodeError Unit) := do
  report (if e.settings.showStates then .expandingState s else .expanding s.pc)
  count fun c => { c with expanded := c.expanded + 1 }
  match ← simulate (e.simulator.arrows s).run with
  | .error error => return .error error
  | .ok arrows =>
    match ← simulate (e.simulator.stepAll s arrows).run with
    | .error error =>
      report (.abandoned s.pc error)
      count fun c => { c with undefinedValues := c.undefinedValues + 1 }
      markVisited s
    | .ok successors =>
      if successors.isEmpty then
        report (.dead s.pc)
        count fun c => { c with deadStates := c.deadStates + 1 }
      markVisited s
      modify fun x => { x with todo := successors.reverse ++ x.todo }
    return .ok ()

/-- Deals with one state of the worklist. -/
def expand (e : Explorer) (s : State) : ExploreM (Except DecodeError Unit) := do
  let x ← get
  if s.point ∈ x.visited then
    report (.duplicate s.pc)
    count fun c => { c with duplicates := c.duplicates + 1 }
    return .ok ()
  else if e.isOutside x s then
    report (.undefinedTarget s.pc.instruction)
    simulate (Simulator.modifyProgram fun mc =>
      mc.markUnresolved (.boundary s.pc.instruction) .outOfBounds)
    count fun c => { c with undefinedTargets := c.undefinedTargets + 1 }
    return .ok ()
  else if ← e.visit s then
    e.follow s
  else
    count fun c => { c with throttled := c.throttled + 1 }
    markVisited s
    return .ok ()

/-- Explores until the worklist is empty, which has to happen within a number of steps. An
instruction that cannot be decoded ends the exploration, and the states that wait or are done with
are dropped. -/
def run (e : Explorer) : (steps : Nat) → ExploreM (Except DecodeError Unit)
  | 0 => do
    unless (← get).todo.isEmpty do throw .outOfSteps
    return .ok ()
  | steps + 1 => do
    match (← get).todo with
    | [] => return .ok ()
    | s :: rest =>
      modify fun x => { x with todo := rest }
      match ← e.expand s with
      | .ok () => run e steps
      | .error error =>
        report (.aborted error)
        modify fun x => { x with todo := [], visited := [] }
        return .error error

end Explorer

end FlowRecovery
