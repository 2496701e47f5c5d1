import FlowRecovery.CommandLine.Files
import FlowRecovery.CommandLine.Options
import FlowRecovery.Drawing
import FlowRecovery.Recovery
import FlowRecovery.X86.Decoder

namespace FlowRecovery.CommandLine

/-- An error message with the causes behind it, the nearest first. -/
structure Complaint where
  message : String
  causes : List String := []
deriving DecidableEq

/-- The text of a complaint. Several causes are numbered. -/
def Complaint.render (c : Complaint) : String :=
  let causes := match c.causes with
    | [] => ""
    | [cause] => "\nCaused by:\n    " ++ cause ++ "\n"
    | causes => "\nCaused by:\n" ++ String.join (causes.zipIdx.map fun (cause, index) =>
        s!"    {index}: " ++ cause ++ "\n")
  "Error: " ++ c.message ++ "\n" ++ causes

/-- What a call leaves behind. -/
structure Outcome where
  code : Nat
  stdout : String := ""
  stderr : String := ""
  /-- The path and the text of the file that is written. -/
  written : Option (String × String) := none
deriving DecidableEq

def inContext {ε α : Type} (context : String) (causes : ε → List String) :
    Except ε α → Except Complaint α :=
  Except.mapError fun error => ⟨context, causes error⟩

def settingsComplaint {α : Type} : Except SettingsError α → Except Complaint α :=
  Except.mapError fun error => ⟨error.message, []⟩

def readText (files : Files) (path : String) : Except Complaint String :=
  inContext ("failed to read " ++ path) (fun error => [error.message]) (files.readText path)

def define (settings : Settings) (definition : String) : Except Complaint Settings := do
  let some (key, value) := Text.splitOnce? '=' definition.toList
    | .error ⟨"expected `key=value` instead of " ++ Text.quoted definition.toList, []⟩
  settingsComplaint (settings.set (String.ofList (Text.trim key))
    (String.ofList (Text.trim value)))

/-- The settings: those of the settings file, then the definitions, then the options of their
own. -/
def configure (files : Files) (o : Options) : Except Complaint Settings := do
  let settings ← match o.config with
    | some path => do
      let text ← readText files path
      inContext ("invalid configuration in " ++ path) (fun error => [error.message])
        (Settings.parse text)
    | none => pure {}
  let settings ← o.defines.foldlM define settings
  let settings ← match o.initEsp with
    | some value =>
        settings.setInitRegister "esp" <$> settingsComplaint (Settings.number "init-esp" value)
    | none => pure settings
  return { settings with
    maxVisits := o.maxVisits.getD settings.maxVisits
    jumps := {
      threshold := o.jumpThreshold.getD settings.jumps.threshold
      mapToMemory := o.mapJumps || settings.jumps.mapToMemory }
    showStates := o.showStates || settings.showStates }

def loadCauses : LoadError → List String
  | .unreadable reason => [LoadError.message (.unreadable reason), reason]
  | error => [error.message]

def load (files : Files) (o : Options) : Except Complaint Image := do
  let base ← settingsComplaint (Settings.number "base" o.base)
  let entry ← settingsComplaint (o.entry.mapM (Settings.number "entry"))
  let symbols ← match o.symbols with
    | some path => do
      let text ← readText files path
      inContext ("invalid symbol file " ++ path) loadCauses (SymbolTable.parse text)
    | none => pure {}
  inContext ("failed to load " ++ o.input) loadCauses do
    let bytes ← (files.read o.input).mapError fun error => .unreadable error.message
    Image.ofFlat base entry .x86 symbols bytes

/-- A line of the log; further lines of its message are indented. -/
def logLine (e : Event) : String :=
  let level := e.level.name.toList ++ List.replicate (5 - e.level.name.length) ' '
  let message := e.message.toList.flatMap fun c => if c = '\n' then "\n    ".toList else [c]
  "[" ++ String.ofList level ++ " " ++ e.component ++ "] " ++ String.ofList message ++ "\n"

def logText (o : Options) (log : List Event) : String :=
  String.join ((log.filter (·.isShown o.verbosity)).map logLine)

def draw (o : Options) (image : Image) (r : Recovery) : String :=
  let title := (Path.parse o.input).fileName
  let drawing := if o.microcode then r.program.stepGraph title
    else r.program.instructionGraph image.symbols title
  drawing.render

def failed (log : String) (c : Complaint) : Outcome :=
  { code := 1, stderr := log ++ c.render }

/-- Hands a drawing out, to a file if one is named. -/
def deliver (files : Files) (o : Options) (log text : String) : Outcome :=
  match o.output with
  | none => { code := 0, stdout := text, stderr := log }
  | some path => match files.create path with
    | .ok () => { code := 0, stderr := log, written := some (path, text) }
    | .error error => failed log ⟨"failed to create " ++ path, [error.message]⟩

/-- Recovers the program of an image within a number of steps and draws it. -/
def recoverAndDraw (decoder : Decoder) (steps : Nat) (files : Files) (o : Options)
    (settings : Settings) (image : Image) : Checked Outcome := do
  let (result, log) ← recover steps image decoder (.ok .enumerating) settings
  match result with
  | .error error =>
    return failed (logText o log) ⟨"control flow recovery failed: " ++ error.message, []⟩
  | .ok r => return deliver files o (logText o (log ++ [.summary r.statistics])) (draw o image r)

/-- What a call with some arguments does, within a number of steps. -/
def run (decoder : Decoder) (steps : Nat) (arguments : List String) (files : Files) :
    Checked Outcome :=
  match Options.parse arguments with
  | none => return { code := 2, stderr := "error: invalid arguments\n" }
  | some o =>
    match (do return (← configure files o, ← load files o) :
        Except Complaint (Settings × Image)) with
    | .error c => return failed "" c
    | .ok (settings, image) => match o.solver with
      | .external =>
          return failed ""
            ⟨"this build does not include the z3 solver, rebuild with `--features z3`", []⟩
      | .simplify => recoverAndDraw decoder steps files o settings image

end FlowRecovery.CommandLine
