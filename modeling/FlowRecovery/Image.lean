import FlowRecovery.Architecture
import FlowRecovery.Memory.Basic
import FlowRecovery.Text.Blank

namespace FlowRecovery

/-- The failures of loading an image. -/
inductive LoadError where
  | unreadable (reason : String)
  | empty
  | entryOutsideImage (address : UInt64)
  | symbol (line : Nat)
deriving DecidableEq

def LoadError.message : LoadError → String
  | unreadable reason => "failed to read input: " ++ reason
  | empty => "the input is empty"
  | entryOutsideImage address =>
    "entrypoint " ++ Text.hex address.toNat ++ " lies outside of the image"
  | symbol line =>
    "line " ++ toString line ++ " of the symbol table is not of the form `address name`"

/-- Names of addresses; each address has at most one name and each name one address. -/
structure SymbolTable where
  byAddress : Std.ExtTreeMap UInt64 String := ∅
  byName : Std.ExtTreeMap String UInt64 := ∅
deriving DecidableEq

namespace SymbolTable

/-- Names an address. Earlier entries of the address and of the name go. -/
def insert (table : SymbolTable) (address : UInt64) (name : String) : SymbolTable :=
  let byAddress := match table.byName[name]? with
    | some old => table.byAddress.erase old
    | none => table.byAddress
  let byName := table.byName.insert name address
  let byName := match byAddress[address]? with
    | some old => if old = name then byName else byName.erase old
    | none => byName
  { byAddress := byAddress.insert address name, byName }

def name? (table : SymbolTable) (address : UInt64) : Option String :=
  table.byAddress[address]?

def address? (table : SymbolTable) (name : String) : Option UInt64 :=
  table.byName[name]?

/-- The entries in the order of their addresses. -/
def toList (table : SymbolTable) : List (UInt64 × String) :=
  table.byAddress.toList

/-- The closest entry at or below an address. -/
def containing? (table : SymbolTable) (address : UInt64) : Option (UInt64 × String) :=
  table.toList.reverse.find? (·.1 ≤ address)

/-- Inserts the entry of one line of a symbol file. -/
def insertLine (table : SymbolTable) (number : Nat) (line : List Char) :
    Except LoadError SymbolTable :=
  match Text.words line with
  | [address, name] => match Text.number? address with
    | some address => .ok (table.insert address (String.ofList name))
    | none => .error (.symbol number)
  | _ => .error (.symbol number)

/-- The table of a symbol file with a line `address name` for each entry. Blank lines and lines
that start with a number sign are skipped. -/
def parse (text : String) : Except LoadError SymbolTable :=
  (Text.numberedLines text.toList).foldlM
    (fun table (number, line) => table.insertLine number line) {}

end SymbolTable

/-- What a recovery run starts from. -/
structure Image where
  memory : Memory
  entrypoint : UInt64
  arch : Architecture
  symbols : SymbolTable

/-- The image of a flat binary mapped at a base address. The entrypoint is the base address unless
another one is given. -/
def Image.ofFlat (base : UInt64) (entry : Option UInt64) (arch : Architecture)
    (symbols : SymbolTable) (bytes : List UInt8) : Except LoadError Image := do
  if bytes.isEmpty then .error .empty
  let memory := Memory.empty.writeBytes base bytes
  let entrypoint := entry.getD base
  if !memory.isDefined entrypoint then .error (.entryOutsideImage entrypoint)
  return { memory, entrypoint, arch, symbols }

end FlowRecovery
