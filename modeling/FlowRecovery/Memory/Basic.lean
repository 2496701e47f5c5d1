import Std.Data.ExtTreeMap
import Std.Data.ExtTreeSet
import FlowRecovery.Memory.Undefined

/-!
Layered memory. A memory is a stack of layers of bytes and registers; a read takes the topmost
layer that holds the byte or register, and a write goes to the top layer. Addresses wrap around at
`2 ^ 64`.
-/

namespace FlowRecovery

/-- One layer of bytes and physical registers. -/
structure Layer where
  registers : Std.ExtTreeMap String Word := ∅
  bytes : Std.ExtTreeMap UInt64 UInt8 := ∅
  /-- The smallest and the largest address written in this layer or below it. -/
  span : Option (UInt64 × UInt64) := none
deriving DecidableEq

/-- A byte-addressable memory with a register bank. -/
structure Memory where
  top : Layer
  below : List Layer
deriving DecidableEq

/-- The address of the byte number `k`, from the least significant on, of a value of `count`
bytes. -/
def ByteOrder.place (order : ByteOrder) (start : UInt64) (count k : Nat) : UInt64 :=
  match order with
  | little => start + UInt64.ofNat k
  | big => start + UInt64.ofNat (count - 1 - k)

namespace Memory

def empty : Memory :=
  ⟨{}, []⟩

def overlay (m : Memory) : Memory :=
  ⟨{ span := m.top.span }, m.top :: m.below⟩

def base? (m : Memory) : Option Memory :=
  match m.below with
  | [] => none
  | layer :: below => some ⟨layer, below⟩

def layers (m : Memory) : List Layer :=
  m.top :: m.below

/-- The smallest and the largest address ever written. -/
def addressRange (m : Memory) : Option (UInt64 × UInt64) :=
  m.top.span

def byte? (m : Memory) (address : UInt64) : Option UInt8 :=
  m.layers.findSome? fun layer => layer.bytes[address]?

def physical? (m : Memory) (name : String) : Option Word :=
  m.layers.findSome? fun layer => layer.registers[name]?

def isDefined (m : Memory) (address : UInt64) : Bool :=
  (m.byte? address).isSome

def isRegisterDefined (m : Memory) (name : String) : Bool :=
  (m.physical? name).isSome

/-- The contract that a memory access covers whole bytes; yields their number. -/
def byteCount (width : Nat) : Checked Nat := do
  require (0 < width ∧ width % 8 = 0) (.accessWidth width)
  return width / 8

/-- Appends the lowest `count` bytes of a value, the most significant first, to the bytes read so
far. -/
def readFrom (m : Memory) (place : Nat → UInt64) :
    (count value : Nat) → Attempt UndefinedValue Nat
  | 0, value => return value
  | k + 1, value => do
    let some byte := m.byte? (place k) | .fail (.address (place k))
    readFrom m place k (256 * value + byte.toNat)

/-- Reads a value of some width at an address. The first undefined byte, from the most significant
on, is reported. -/
def read (m : Memory) (address : UInt64) (width : Nat) (order : ByteOrder) :
    Attempt UndefinedValue Word := do
  let count ← byteCount width
  let value ← m.readFrom (order.place address count) count 0
  Word.ofNat width value

def writeByte (m : Memory) (address : UInt64) (byte : UInt8) : Memory :=
  let span := match m.top.span with
    | some (least, greatest) => (min least address, max greatest address)
    | none => (address, address)
  { m with top := { m.top with bytes := m.top.bytes.insert address byte, span := some span } }

def writeBytes (m : Memory) : (address : UInt64) → List UInt8 → Memory
  | _, [] => m
  | address, byte :: rest => (m.writeByte address byte).writeBytes (address + 1) rest

/-- Writes a value of whole bytes at an address. -/
def write (m : Memory) (address : UInt64) (value : Word) (order : ByteOrder) :
    Checked Memory := do
  let count ← byteCount value.width
  return (List.range count).foldl
    (fun m k => m.writeByte (order.place address count k) (UInt8.ofNat (value.value >>> (8 * k))))
    m

def readRegister (m : Memory) (r : Register) : Attempt UndefinedValue Word := do
  let some whole := m.physical? r.base | .fail (.register r.name)
  whole.extract r.offset r.size

/-- A physical value with the bits of a window replaced. -/
def spliceWindow (r : Register) (old value : Word) : Checked Word := do
  let window ← Word.ones r.size
  require (r.offset < 64) .overflow
  Word.ofNat r.baseSize <|
    (old.value ^^^ (old.value &&& (window.value <<< r.offset))) ||| (value.value <<< r.offset)

/-- A memory with another value of a physical register. -/
def setPhysical (m : Memory) (name : String) (x : Word) : Memory :=
  { m with top := { m.top with registers := m.top.registers.insert name x } }

/-- The value of the physical register behind a register that is written. A window is merged into
the old value, which has to be defined. -/
def merge (m : Memory) (r : Register) (value : Word) : Attempt UndefinedValue Word := do
  require (value.width = r.size) (.registerWidth r.name)
  if r.isPhysical then return value
  let some old := m.physical? r.base | .fail (.register r.base)
  spliceWindow r old value

def putRegister (r : Register) (value : Word) : Edit Memory Unit :=
  .update (·.merge r value) (·.setPhysical r.base)

/-- A memory after a register or a window of it was written. -/
def writeRegister (m : Memory) (r : Register) (value : Word) : Attempt UndefinedValue Memory :=
  (putRegister r value).onto m

theorem writeRegister_eq (m : Memory) (r : Register) (value : Word) :
    m.writeRegister r value = (m.merge r value).map (m.setPhysical r.base) :=
  Edit.onto_update _ _ m

def definedAddresses (m : Memory) : Std.ExtTreeSet UInt64 :=
  m.layers.foldr
    (fun layer found => layer.bytes.foldl (fun found address _ => found.insert address) found)
    ∅

end Memory

end FlowRecovery
