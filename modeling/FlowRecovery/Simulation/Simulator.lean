import FlowRecovery.Log
import FlowRecovery.Settings

/-!
The simulator moves symbolic states along the arrows of a microcode graph. The graph is discovered
on the way: an instruction is decoded when a state gets to it for the first time.
-/

namespace FlowRecovery

/-- What a simulation works with. -/
structure Simulator where
  decoder : Decoder
  solver : Solver
  image : Memory
  policy : JumpPolicy

/-- What a simulation has found out so far. -/
structure Discovery where
  program : Microcode := {}
  /-- How often the arrows of a state were asked for. -/
  queries : Nat := 0
  log : Array Event := #[]

/-- A computation that adds to a discovery. What it found stays when a contract is broken. -/
abbrev SimM := ExceptT Fault (StateM Discovery)

namespace Simulator

def report (event : Event) : SimM Unit :=
  modify fun d => { d with log := d.log.push event }

def modifyProgram (f : Microcode → Microcode) : SimM Unit :=
  modify fun d => { d with program := f d.program }

/-- Gives registers of the decoder's architecture their initial values, one after the other; names
that it does not have are skipped. -/
def seed (sim : Simulator) :
    SymbolicMemory → List (String × UInt64) → ExceptT UndefinedValue SimM SymbolicMemory
  | memory, [] => return memory
  | memory, (name, value) :: rest => do
    match sim.decoder.arch.register? name with
    | some r => seed sim (← memory.writeRegister r (← Expr.constant r.size value.toNat)) rest
    | none =>
      report (.ignoredRegister name)
      seed sim memory rest

/-- The initial state at an entrypoint with some registers set. -/
def init (sim : Simulator) (entrypoint : UInt64) (registers : List (String × UInt64)) :
    ExceptT UndefinedValue SimM State := do
  let memory ← sim.seed (.ofImage sim.image sim.decoder.arch.byteOrder) registers
  return { pc := .boundary entrypoint, memory, pathCondition := .bool true }

/-- Decodes the instruction at an address into the program. -/
def decode (sim : Simulator) (address : UInt64) : ExceptT DecodeError SimM Unit := do
  report (.decoding address)
  let d ← get
  let (result, program) ← (sim.decoder.decode sim.image address).run.run d.program
  set { d with program }
  match result with
  | .ok _ => return ()
  | .error error => throw error

/-- The arrows that leave the location of a state. Its instruction is decoded first if it is not
in the program yet. -/
def arrows (sim : Simulator) (s : State) : ExceptT DecodeError SimM (List Arrow) := do
  modify fun d => { d with queries := d.queries + 1 }
  if !(← get).program.contains (.boundary s.pc.instruction) then sim.decode s.pc.instruction
  return match (← get).program.node? s.pc with
    | some node => node.arrows
    | none => []

/-- Whether a formula may hold. A constant decides itself, and a solver that fails excludes
nothing. -/
def isFeasible (sim : Simulator) (formula : Expr) : SimM Bool := do
  match formula.bool? with
  | some value => return value
  | none => match ← (sim.solver.check formula).split with
    | .ok answer => return answer.isFeasible
    | .error error =>
      report (.solverFailed sim.solver.name formula error)
      return true

/-- A path condition strengthened by a guard, unless the two cannot hold together. -/
def restrict (sim : Simulator) (condition guard : Expr) : SimM (Option Expr) := do
  match guard.bool? with
  | some true => return some condition
  | some false => return none
  | none =>
    let restricted ← (← Expr.mkBinary .and condition guard).simplify
    return if ← sim.isFeasible restricted then some restricted else none

/-- The path conditions of the two sides of a branch, each missing if that side cannot be
taken. -/
def split (sim : Simulator) (s : State) (condition : Expr) :
    SimM (Option Expr × Option Expr) := do
  let taken ← sim.restrict s.pathCondition condition
  let other ← sim.restrict s.pathCondition condition.not
  return (taken, other)

/-- A possible successor of a jump: its location and the condition under which it is taken. -/
abbrev Successor := Location × Expr

/-- Tries addresses in turn as values of a jump target, until the threshold is reached or the
addresses get too large for the target. Yields the feasible ones, and the condition under which
the jump leads elsewhere. -/
def tryAddresses (sim : Simulator) (target condition : Expr) :
    (addresses : List UInt64) → (found : List Successor) → (remaining : Expr) →
      SimM (List Successor × Expr)
  | [], found, remaining => return (found, remaining)
  | address :: rest, found, remaining => do
    if sim.policy.threshold ≤ found.length then return (found, remaining)
    if (← Word.ones target.width).value < address.toNat then return (found, remaining)
    let candidate ← Expr.constant target.width address.toNat
    let restricted ← (← Expr.mkBinary .and condition
        (← Expr.mkBinary .eq target candidate)).simplify
    if ← sim.isFeasible restricted then
      let remaining ← Expr.mkBinary .and remaining (← Expr.mkBinary .ne target candidate)
      tryAddresses sim target condition rest (found ++ [(.boundary address, restricted)])
        remaining
    else tryAddresses sim target condition rest found remaining

/-- The successors of a jump to an evaluated target. A constant target is the only one. Otherwise
the defined addresses of the image are tried if the policy says so, and the jump is recorded as
unresolved if it may lead elsewhere. -/
def resolve (sim : Simulator) (source : Location) (target condition : Expr) :
    SimM (List Successor) := do
  match target.const? with
  | some value =>
    let location := Location.boundary (UInt64.ofNat value.value)
    modifyProgram fun mc => mc.addResolved source location
    return [(location, condition)]
  | none =>
    if !sim.policy.mapToMemory || sim.policy.threshold == 0 then
      report (.unresolvedJump source target)
      modifyProgram fun mc => mc.markUnresolved source (.dynamicJump target)
      return []
    let (found, remaining) ←
      sim.tryAddresses target condition sim.image.definedAddresses.toList [] condition
    if ← sim.isFeasible (← remaining.simplify) then
      report (.furtherTargets source target found.length)
      modifyProgram fun mc => mc.markUnresolved source (.dynamicJump target)
    modifyProgram fun mc =>
      found.foldl (fun mc (location, _) => mc.addResolved source location) mc
    return found

/-- The successors of a state along an arrow: none if its guard cannot hold, one for a fixed
target, and any number for a computed one. Computed targets are evaluated before the statement
runs. -/
def step (sim : Simulator) (s : State) (a : Arrow) :
    ExceptT UndefinedValue SimM (List State) := do
  let guard ← s.memory.eval a.guard
  let some condition ← sim.restrict s.pathCondition guard
    | report (.infeasible a)
      return []
  let targets ← match a.target with
    | .static location => pure [(location, condition)]
    | .dynamic address => do
      let target ← s.memory.eval address
      sim.resolve a.source target condition
  let memory ← s.memory.exec a.statement
  return targets.map fun (pc, pathCondition) => { pc, memory, pathCondition }

/-- The successors of a state along some arrows, in order. -/
def stepAll (sim : Simulator) (s : State) : List Arrow → ExceptT UndefinedValue SimM (List State)
  | [] => return []
  | a :: rest => do
    let first ← sim.step s a
    return first ++ (← stepAll sim s rest)

end Simulator

end FlowRecovery
