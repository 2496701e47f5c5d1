import FlowRecovery.Architecture
import FlowRecovery.Text.Quoted

namespace FlowRecovery

/-- How computed jumps to a target that is no constant are resolved. -/
structure JumpPolicy where
  /-- The most targets one jump may have. -/
  threshold : Nat := 16
  /-- Whether the defined addresses of the image are tried as targets at all. -/
  mapToMemory : Bool := false
deriving DecidableEq

/-- The settings of a recovery run. -/
structure Settings where
  /-- The registers that start with a value, in the order in which they were set. -/
  initRegisters : List (String × UInt64) := []
  /-- How often one instruction may be expanded, or zero for no limit. -/
  maxVisits : Nat := 0
  jumps : JumpPolicy := {}
  /-- Whether every expanded state is logged. -/
  showStates : Bool := false
deriving DecidableEq

/-- What is wrong with a setting. -/
inductive SettingsError where
  | unknownKey (key : String)
  | invalidValue (key value : String)
  | malformedLine (number : Nat)
  | unknownRegister (name : String)
  | architectureMismatch (image decoder : Processor)
deriving DecidableEq

def SettingsError.message : SettingsError → String
  | unknownKey key => "unknown property " ++ key
  | invalidValue key value =>
    "invalid value " ++ Text.quoted value.toList ++ " for property " ++ key
  | malformedLine number => "line " ++ toString number ++ " is not of the form `key = value`"
  | unknownRegister name => "unknown register " ++ name
  | architectureMismatch image decoder =>
    "image is built for " ++ image.render ++ " but the decoder handles " ++ decoder.render

namespace Settings

/-- The value of a property as a 64-bit number, decimal or hexadecimal. -/
def number (key value : String) : Except SettingsError UInt64 :=
  match Text.number? value.toList with
  | some n => .ok n
  | none => .error (.invalidValue key value)

def count (key value : String) : Except SettingsError Nat :=
  match Text.word? 10 value.toList with
  | some n => .ok n.toNat
  | none => .error (.invalidValue key value)

/-- The value of a property as a truth value. -/
def flag (key value : String) : Except SettingsError Bool :=
  if value ∈ ["true", "yes", "on", "1"] then .ok true
  else if value ∈ ["false", "no", "off", "0"] then .ok false
  else .error (.invalidValue key value)

/-- Gives a register its initial value, in place of an earlier one. -/
def setInitRegister (s : Settings) (name : String) (value : UInt64) : Settings :=
  { s with initRegisters := s.initRegisters.filter (·.1 ≠ name) ++ [(name, value)] }

def keyStart : List Char :=
  "disas.symsim.".toList

/-- What the keys of initial register values go on with. -/
def registerStart : List Char :=
  "init-register.".toList

/-- What a property sets. -/
inductive Property where
  /-- The initial value of a register. -/
  | register (name : String)
  | maxVisits
  | showStates
  | jumpThreshold
  | mapToMemory
deriving DecidableEq

/-- The property with a key. The stack pointer has a key of its own beside the one of its name. -/
def property? (key : String) : Option Property := do
  let name ← Text.after? keyStart key.toList
  match String.ofList name with
  | "x86_32.init-esp" => some (.register "esp")
  | "nb-visits-per-address" => some .maxVisits
  | "debug.show-states" => some .showStates
  | "dynamic-jump-threshold" => some .jumpThreshold
  | "map-dynamic-jump-to-memory" => some .mapToMemory
  | _ => match Text.after? registerStart name with
    | none | some [] => none
    | some register => some (.register (String.ofList register))

/-- A change of the settings that may fail. What was changed before it failed stays changed. -/
abbrev Update := ExceptT SettingsError (StateM Settings)

/-- Changes the settings by a value that is read before. -/
def changeBy {α : Type} (value : Except SettingsError α) (change : Settings → α → Settings) :
    Update Unit := do
  let a ← value
  modify (change · a)

/-- Changes the property with a key to a value. -/
def update (key value : String) : Update Unit := do
  let some property := property? key | throw (.unknownKey key)
  match property with
  | .register name => changeBy (number key value) (·.setInitRegister name ·)
  | .maxVisits => changeBy (count key value) ({ · with maxVisits := · })
  | .showStates => changeBy (flag key value) ({ · with showStates := · })
  | .jumpThreshold =>
      changeBy (count key value) fun s n => { s with jumps := { s.jumps with threshold := n } }
  | .mapToMemory =>
      changeBy (flag key value) fun s b => { s with jumps := { s.jumps with mapToMemory := b } }

def set (s : Settings) (key value : String) : Except SettingsError Settings :=
  let (result, changed) := (update key value).run s
  result.map fun _ => changed

/-- Sets the property of one line of a settings text. -/
def setLine (s : Settings) (number : Nat) (line : List Char) : Except SettingsError Settings := do
  let some (key, value) := Text.splitOnce? '=' line | .error (.malformedLine number)
  s.set (String.ofList (Text.trim key)) (String.ofList (Text.trim value))

/-- The settings of a text with a line `key = value` for each property. Blank lines and lines that
start with a number sign are skipped. -/
def parse (text : String) : Except SettingsError Settings :=
  (Text.numberedLines text.toList).foldlM (fun s (number, line) => s.setLine number line) {}

/-- Whether all registers with an initial value exist. -/
def validate (s : Settings) (arch : Architecture) : Except SettingsError Unit :=
  match s.initRegisters.find? fun r => (arch.register? r.1).isNone with
  | some (name, _) => .error (.unknownRegister name)
  | none => .ok ()

end Settings

end FlowRecovery
