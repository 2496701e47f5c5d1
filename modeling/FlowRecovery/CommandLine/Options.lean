import FlowRecovery.Log
import FlowRecovery.Text.Blank

namespace FlowRecovery.CommandLine

/-- The options. -/
inductive Key where
  | verbose | base | entry | arch | solver | config | define | symbols | initEsp | maxVisits
  | jumpThreshold | mapJumps | showStates | microcode | output
deriving DecidableEq

namespace Key

def all : List Key :=
  [verbose, base, entry, arch, solver, config, define, symbols, initEsp, maxVisits, jumpThreshold,
    mapJumps, showStates, microcode, output]

def long? : Key → Option String
  | verbose => some "verbose"
  | base => some "base"
  | entry => some "entry"
  | arch => some "arch"
  | solver => some "solver"
  | config => some "config"
  | define => none
  | symbols => some "symbols"
  | initEsp => some "init-esp"
  | maxVisits => some "max-visits"
  | jumpThreshold => some "dynamic-jump-threshold"
  | mapJumps => some "map-dynamic-jump-to-memory"
  | showStates => some "show-states"
  | microcode => some "microcode"
  | output => some "output"

def short? : Key → Option Char
  | verbose => some 'v'
  | base => some 'b'
  | entry => some 'e'
  | solver => some 's'
  | config => some 'c'
  | define => some 'D'
  | microcode => some 'm'
  | output => some 'o'
  | _ => none

/-- Whether an option goes without a value. -/
def isFlag : Key → Bool
  | mapJumps | showStates | microcode => true
  | _ => false

def ofLong? (name : List Char) : Option Key :=
  all.find? fun key => key.long? = some (String.ofList name)

def ofShort? (letter : Char) : Option Key :=
  all.find? fun key => key.short? = some letter

end Key

/-- An argument: an option, whose value is empty for a flag, or an input file. -/
inductive Argument where
  | option (key : Key) (value : String)
  | input (path : String)
deriving DecidableEq

/-- What one argument says: options with their values, and an option whose value is the next
argument. -/
abbrev Group := List Argument × Option Key

/-- The option of an argument that starts with two dashes. -/
def longGroup? (text : List Char) : Option Group :=
  match Text.splitOnce? '=' text with
  | some (name, value) => do
    let key ← Key.ofLong? name
    if key.isFlag then none else some ([.option key (String.ofList value)], none)
  | none => do
    let key ← Key.ofLong? text
    some (if key.isFlag then ([.option key ""], none) else ([], some key))

/-- The options of an argument that starts with one dash: letters of flags, and a letter with its
value. -/
def shortGroup? : List Char → Option Group
  | [] => some ([], none)
  | letter :: rest => do
    let key ← Key.ofShort? letter
    if key.isFlag then
      let (arguments, awaiting) ← shortGroup? rest
      return (.option key "" :: arguments, awaiting)
    else match rest with
      | [] => return ([], some key)
      | '=' :: value | value => return ([.option key (String.ofList value)], none)

/-- What an argument says. A single dash is an input file. -/
def group? (argument : String) : Option Group :=
  match argument.toList with
  | '-' :: '-' :: text => longGroup? text
  | '-' :: letter :: rest => shortGroup? (letter :: rest)
  | _ => some ([.input argument], none)

/-- Whether an argument cannot be the value of the option before it. -/
def looksLikeOption (argument : String) : Bool :=
  match argument.toList with
  | '-' :: _ :: _ => true
  | _ => false

/-- Tells arguments apart. All arguments behind two dashes are input files. -/
def scan : List String → Option (List Argument)
  | [] => some []
  | argument :: rest =>
    if argument = "--" then some (rest.map .input)
    else match group? argument, rest with
      | none, _ | some (_, some _), [] => none
      | some (arguments, none), rest => do return arguments ++ (← scan rest)
      | some (arguments, some key), value :: rest =>
        if looksLikeOption value then none
        else do return arguments ++ .option key value :: (← scan rest)

/-- The solvers that can be chosen. -/
inductive SolverChoice where
  | simplify
  /-- A solver of its own, which has to be built in. -/
  | external
deriving DecidableEq

/-- The options of a run. Addresses are kept as they were written. -/
structure Options where
  input : String
  verbosity : Level
  base : String
  entry : Option String
  solver : SolverChoice
  config : Option String
  defines : List String
  symbols : Option String
  initEsp : Option String
  maxVisits : Option Nat
  jumpThreshold : Option Nat
  mapJumps : Bool
  showStates : Bool
  microcode : Bool
  output : Option String
deriving DecidableEq

namespace Options

def inputs (arguments : List Argument) : List String :=
  arguments.filterMap fun
    | .input path => some path
    | .option _ _ => none

def values (arguments : List Argument) (key : Key) : List String :=
  arguments.filterMap fun
    | .option k value => if k = key then some value else none
    | .input _ => none

/-- The value of an option that may be missing; fails if it was given twice, or with a value that
is not allowed. -/
def value? {α : Type} (arguments : List Argument) (key : Key) (read : String → Option α) :
    Option (Option α) :=
  match values arguments key with
  | [] => some none
  | [value] => (read value).map some
  | _ => none

/-- Whether a flag was given; fails if it was given twice. -/
def flag? (arguments : List Argument) (key : Key) : Option Bool := do
  return (← value? arguments key some).isSome

def level? : String → Option Level
  | "trace" => some .trace
  | "debug" => some .debug
  | "info" => some .info
  | "warn" => some .warn
  | "error" => some .error
  | _ => none

def solver? : String → Option SolverChoice
  | "simplify" => some .simplify
  | "z3" => some .external
  | _ => none

def path? (text : String) : Option String :=
  if text.isEmpty then none else some text

def count? (text : String) : Option Nat :=
  (Text.word? 10 text.toList).map UInt64.toNat

def parse (arguments : List String) : Option Options := do
  let arguments ← scan arguments
  let [input] := inputs arguments | none
  let _ ← value? arguments .arch fun name => if name = "x86-32" then some name else none
  return {
    input := ← path? input
    verbosity := (← value? arguments .verbose level?).getD .warn
    base := (← value? arguments .base some).getD "0x0"
    entry := ← value? arguments .entry some
    solver := (← value? arguments .solver solver?).getD .simplify
    config := ← value? arguments .config path?
    defines := values arguments .define
    symbols := ← value? arguments .symbols path?
    initEsp := ← value? arguments .initEsp some
    maxVisits := ← value? arguments .maxVisits count?
    jumpThreshold := ← value? arguments .jumpThreshold count?
    mapJumps := ← flag? arguments .mapJumps
    showStates := ← flag? arguments .showStates
    microcode := ← flag? arguments .microcode
    output := ← value? arguments .output path? }

end Options

end FlowRecovery.CommandLine
