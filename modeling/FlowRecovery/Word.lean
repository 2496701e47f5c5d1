import FlowRecovery.Fault
import FlowRecovery.Text.Numeral

/-!
Machine integers. A `Word` is an unsigned value below `2 ^ width`; every operation that computes a
new value reduces it to the width. Widths from 1 to 64 are valid, and an operation that needs a
valid width checks it.
-/

namespace FlowRecovery

/-- The order in which the bytes of a value are laid out in memory. -/
inductive ByteOrder where
  | little
  | big
deriving DecidableEq

def ByteOrder.render : ByteOrder → String
  | little => "little"
  | big => "big"

/-- An unsigned integer of a fixed width in bits. -/
structure Word where
  width : Nat
  value : Nat
deriving DecidableEq

namespace Word

def ValidWidth (width : Nat) : Prop :=
  1 ≤ width ∧ width ≤ 64

instance (width : Nat) : Decidable (ValidWidth width) :=
  inferInstanceAs (Decidable (1 ≤ width ∧ width ≤ 64))

/-- The number of values of a width: two to its power. -/
def modulus (width : Nat) : Nat :=
  1 <<< width

/-- The integer of a width that is congruent to a number. -/
def ofNat (width value : Nat) : Checked Word := do
  require (ValidWidth width) (.invalidWidth width)
  return ⟨width, value % modulus width⟩

/-- The integer of a width that is congruent to a signed number. -/
def ofInt (width : Nat) (value : Int) : Checked Word := do
  require (ValidWidth width) (.invalidWidth width)
  return ⟨width, (value % modulus width).toNat⟩

def ofBool (value : Bool) : Word :=
  ⟨1, value.toNat⟩

def zero (width : Nat) : Word :=
  ⟨width, 0⟩

/-- The integer whose bits are all set. -/
def ones (width : Nat) : Checked Word := do
  require (ValidWidth width) (.invalidWidth width)
  return ⟨width, modulus width - 1⟩

def isTrue (a : Word) : Bool :=
  a.value != 0

def isOnes (a : Word) : Checked Bool := do
  return a = (← ones a.width)

/-- The value read as two's complement. -/
def signed (a : Word) : Checked Int := do
  require (ValidWidth a.width) .overflow
  return if 2 * a.value < modulus a.width then a.value else (a.value : Int) - modulus a.width

/-- The contract of operations on two integers of one width. -/
def sameWidth (operation : String) (a b : Word) : Checked Unit :=
  require (a.width = b.width) (.integerWidths operation)

def add (a b : Word) : Checked Word := do
  sameWidth "add" a b
  ofNat a.width (a.value + b.value)

def sub (a b : Word) : Checked Word := do
  sameWidth "sub" a b
  ofInt a.width (a.value - b.value)

def mul (a b : Word) : Checked Word := do
  sameWidth "mul" a b
  ofNat a.width (a.value * b.value)

/-- Unsigned division; division by zero yields all ones. -/
def udiv (a b : Word) : Checked Word := do
  sameWidth "udiv" a b
  if b.value = 0 then ones a.width else ofNat a.width (a.value / b.value)

/-- Unsigned remainder; the remainder by zero is the dividend. -/
def urem (a b : Word) : Checked Word := do
  sameWidth "urem" a b
  if b.value = 0 then return a else ofNat a.width (a.value % b.value)

def and (a b : Word) : Checked Word := do
  sameWidth "bitand" a b
  ofNat a.width (a.value &&& b.value)

def or (a b : Word) : Checked Word := do
  sameWidth "bitor" a b
  ofNat a.width (a.value ||| b.value)

def xor (a b : Word) : Checked Word := do
  sameWidth "bitxor" a b
  ofNat a.width (a.value ^^^ b.value)

def not (a : Word) : Checked Word :=
  ofInt a.width (-1 - a.value)

def neg (a : Word) : Checked Word :=
  ofInt a.width (-a.value)

/-- Left shift; shifting by the width or more yields zero. -/
def shl (a b : Word) : Checked Word := do
  if a.width ≤ b.value then return zero a.width
  require (b.value < 64) .overflow
  ofNat a.width (a.value <<< b.value)

/-- Logical right shift; shifting by the width or more yields zero. -/
def shr (a b : Word) : Checked Word := do
  if a.width ≤ b.value then return zero a.width
  require (b.value < 64) .overflow
  ofNat a.width (a.value >>> b.value)

/-- Arithmetic right shift; shifting by the width or more replicates the sign. -/
def sar (a b : Word) : Checked Word := do
  let value ← a.signed
  ofInt a.width (value >>> min b.value (a.width - 1))

def eq (a b : Word) : Checked Word := do
  sameWidth "eq" a b
  return ofBool (a.value == b.value)

def ne (a b : Word) : Checked Word := do
  sameWidth "ne" a b
  return ofBool (a.value != b.value)

def ult (a b : Word) : Checked Word := do
  sameWidth "lt" a b
  return ofBool (a.value < b.value)

/-- The reflexive unsigned order as a truth value. -/
def ule (a b : Word) : Checked Word := do
  sameWidth "le" a b
  return ofBool (a.value ≤ b.value)

def slt (a b : Word) : Checked Word := do
  sameWidth "lt" a b
  return ofBool ((← a.signed) < (← b.signed))

/-- The reflexive signed order as a truth value. -/
def sle (a b : Word) : Checked Word := do
  sameWidth "le" a b
  return ofBool ((← a.signed) ≤ (← b.signed))

/-- The bits from an offset on, as many as the size says. -/
def extract (a : Word) (offset size : Nat) : Checked Word := do
  require ((← addWidths offset size) ≤ a.width) .extractRange
  require (offset < 64) .overflow
  ofNat size (a.value >>> offset)

def zeroExtend (a : Word) (width : Nat) : Checked Word := do
  require (a.width ≤ width) .zeroExtension
  return ⟨width, a.value⟩

/-- The same two's complement value at a larger width. -/
def signExtend (a : Word) (width : Nat) : Checked Word := do
  require (a.width ≤ width) .signExtension
  ofInt width (← a.signed)

/-- The bits of one integer above the bits of another. -/
def concat (high low : Word) : Checked Word := do
  let width ← addWidths high.width low.width
  require (width ≤ 64) .concatWidth
  require (low.width < 64) .overflow
  ofNat width ((high.value <<< low.width) + low.value)

/-- The order first by width, then by value. -/
instance : Ord Word where
  compare a b := (compare a.width b.width).then (compare a.value b.value)

/-- The value in hexadecimal and the width, as in `0xff:8`. -/
def render (a : Word) : String :=
  Text.hex a.value ++ ":" ++ toString a.width

end Word

end FlowRecovery
