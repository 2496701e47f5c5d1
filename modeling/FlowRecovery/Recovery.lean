import FlowRecovery.Exploration
import FlowRecovery.Image

namespace FlowRecovery

/-- Why a recovery failed. -/
inductive RecoveryError where
  | solver (error : SolverError)
  | settings (error : SettingsError)
  | initialState (error : UndefinedValue)
  | decode (error : DecodeError)
deriving DecidableEq

def RecoveryError.message : RecoveryError → String
  | solver error => "failed to set up the solver: " ++ error.message
  | settings error => error.message
  | initialState error => "failed to build the initial state: " ++ error.message
  | decode error => error.message

/-- A recovery that is under way and may fail. -/
abbrev RecoverM := ExceptT RecoveryError ExploreM

namespace Recovery

/-- The explorer of an image, provided that there is a solver, that the decoder is made for the
image and that the settings are valid. -/
def explorer (image : Image) (decoder : Decoder) (solver : Except SolverError Solver)
    (settings : Settings) : RecoverM Explorer := do
  match solver with
  | .error error =>
    Explorer.report (.noSolver error)
    throw (.solver error)
  | .ok solver =>
    let processor := image.arch.processor
    let expected := decoder.arch.processor
    if processor ≠ expected then
      Explorer.report (.wrongDecoder processor expected)
      throw (.settings (.architectureMismatch processor expected))
    if let .error error := settings.validate decoder.arch then throw (.settings error)
    return { decoder, solver, image := image.memory, settings }

def announce (e : Explorer) (entrypoint : UInt64) : ExploreM Unit := do
  for (name, value) in e.settings.initRegisters do
    Explorer.report (.initialValue name value)
  if 0 < e.settings.maxVisits then Explorer.report (.visitLimit e.settings.maxVisits)
  Explorer.report (.exploring entrypoint e.solver.name)

/-- Puts the state at the entrypoint on the worklist. -/
def launch (e : Explorer) (entrypoint : UInt64) : RecoverM Unit := do
  announce e entrypoint
  match ← e.start entrypoint with
  | .error error => throw (.initialState error)
  | .ok start => modify fun x => x.push start

/-- Recovers the program of an image within a number of steps. -/
def explore (steps : Nat) (image : Image) (decoder : Decoder) (solver : Except SolverError Solver)
    (settings : Settings) : RecoverM Recovery := do
  let e ← explorer image decoder solver settings
  launch e image.entrypoint
  match ← e.run steps with
  | .error error => throw (.decode error)
  | .ok () =>
    let recovery := (← get).finish
    let program := { recovery.program with entrypoint := some (.boundary image.entrypoint) }
    Explorer.report (.recovered program.nodes.size recovery.statistics)
    return { recovery with program }

end Recovery

/-- Recovers the program of an image within a number of steps, and tells what happened. -/
def recover (steps : Nat) (image : Image) (decoder : Decoder) (solver : Except SolverError Solver)
    (settings : Settings) : Checked (Except RecoveryError Recovery × List Event) := do
  let (result, x) ← (Recovery.explore steps image decoder solver settings).run.run {}
  return (result, x.discovery.log.toList)

end FlowRecovery
