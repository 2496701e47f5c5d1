import FlowRecovery.Expr.Simplify
import FlowRecovery.Memory.Basic

namespace FlowRecovery

/-- Memory and registers that hold expressions. -/
structure SymbolicMemory where
  registers : Std.ExtTreeMap String Expr := ∅
  cells : Std.ExtTreeMap UInt64 Expr := ∅
  order : ByteOrder
  image : Memory
deriving DecidableEq

namespace SymbolicMemory

/-- The memory that holds nothing but an image. -/
def ofImage (image : Memory) (order : ByteOrder) : SymbolicMemory :=
  { order, image }

def isDefined (m : SymbolicMemory) (address : UInt64) : Bool :=
  m.cells.contains address || m.image.isDefined address

def readByte (m : SymbolicMemory) (address : UInt64) : Attempt UndefinedValue Expr :=
  match m.cells[address]? with
  | some cell => return cell
  | none => match m.image.byte? address with
    | some byte => Expr.constant 8 byte.toNat
    | none => .fail (.address address)

/-- Appends the lowest `count` bytes of a value, the most significant first, to the bytes read so
far. -/
def readFrom (m : SymbolicMemory) (place : Nat → UInt64) :
    (count : Nat) → (high : Expr) → Attempt UndefinedValue Expr
  | 0, high => return high
  | k + 1, high => do
    let byte ← m.readByte (place k)
    readFrom m place k (← Expr.mkBinary .concat high byte)

/-- Reads a value of some width at an address. -/
def read (m : SymbolicMemory) (address : UInt64) (width : Nat) : Attempt UndefinedValue Expr := do
  let count ← Memory.byteCount width
  let place := m.order.place address count
  let high ← m.readByte (place (count - 1))
  (← m.readFrom place (count - 1) high).simplify

/-- Writes a value of whole bytes at an address. -/
def write (m : SymbolicMemory) (address : UInt64) (value : Expr) : Checked SymbolicMemory := do
  require (value.width % 8 = 0) (.storeWidth value.width)
  let count := value.width / 8
  (List.range count).foldlM
    (fun m k => do
      let byte ← (← Expr.mkUnary (.extract (8 * k) 8) value).simplify
      return { m with cells := m.cells.insert (m.order.place address count k) byte })
    m

/-- The value of the physical register behind a register. -/
def physical? (m : SymbolicMemory) (r : Register) : Checked (Option Expr) :=
  match m.registers[r.base]? with
  | some value => return some value
  | none => do
    match ← (m.image.readRegister r.whole).split with
    | .ok value => return some (.const value)
    | .error _ => return none

def readRegister (m : SymbolicMemory) (r : Register) : Attempt UndefinedValue Expr := do
  let some whole ← m.physical? r | .fail (.register r.name)
  if r.isPhysical then return whole
  (← Expr.mkUnary (.extract r.offset r.size) whole).simplify

/-- A physical value with the bits of a window replaced. -/
def spliceWindow (r : Register) (old value : Expr) : Checked Expr := do
  let upper ← addWidths r.offset r.size
  let spliced ← if upper < r.baseSize then
      Expr.mkBinary .concat (← Expr.mkUnary (.extract upper (r.baseSize - upper)) old) value
    else pure value
  let spliced ← if 0 < r.offset then
      Expr.mkBinary .concat spliced (← Expr.mkUnary (.extract 0 r.offset) old)
    else pure spliced
  spliced.simplify

/-- A memory with another value of a physical register. -/
def setPhysical (m : SymbolicMemory) (name : String) (value : Expr) : SymbolicMemory :=
  { m with registers := m.registers.insert name value }

/-- The value of the physical register behind a register that is written. A window is spliced into
the old value, which has to be defined. -/
def merge (m : SymbolicMemory) (r : Register) (value : Expr) : Attempt UndefinedValue Expr := do
  require (value.width = r.size) (.registerWidth r.name)
  if r.isPhysical then return value
  let some old ← m.physical? r | .fail (.register r.base)
  spliceWindow r old value

def putRegister (r : Register) (value : Expr) : Edit SymbolicMemory Unit :=
  .update (·.merge r value) (·.setPhysical r.base)

/-- A memory after a register or a window of it was written. -/
def writeRegister (m : SymbolicMemory) (r : Register) (value : Expr) :
    Attempt UndefinedValue SymbolicMemory :=
  (putRegister r value).onto m

theorem writeRegister_eq (m : SymbolicMemory) (r : Register) (value : Expr) :
    m.writeRegister r value = (m.merge r value).map (m.setPhysical r.base) :=
  Edit.onto_update _ _ m

def render (m : SymbolicMemory) : String :=
  let registers := m.registers.toList.map fun (name, value) =>
    "    %" ++ name ++ " = " ++ value.render ++ "\n"
  let cells := m.cells.toList.map fun (address, value) =>
    "    [" ++ Text.hex address.toNat ++ "] = " ++ value.render ++ "\n"
  String.join registers ++ String.join cells

end SymbolicMemory

end FlowRecovery
