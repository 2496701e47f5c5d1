namespace FlowRecovery.Text

/-- The lower case hexadecimal digits of a number, without leading zeros. -/
def hexDigits (n : Nat) : String :=
  String.ofList (Nat.toDigits 16 n)

/-- A number in hexadecimal with its `0x` mark. -/
def hex (n : Nat) : String :=
  "0x" ++ hexDigits n

/-- The hexadecimal digits of a number, filled up with zeros to a least count. -/
def hexPadded (count n : Nat) : String :=
  let digits := Nat.toDigits 16 n
  String.ofList (List.replicate (count - digits.length) '0' ++ digits)

/-- The value of a digit in some base up to sixteen. -/
def digitValue? (base : Nat) (c : Char) : Option Nat :=
  let value :=
    if '0' ≤ c ∧ c ≤ '9' then some (c.toNat - '0'.toNat)
    else if 'a' ≤ c ∧ c ≤ 'f' then some (c.toNat - 'a'.toNat + 10)
    else if 'A' ≤ c ∧ c ≤ 'F' then some (c.toNat - 'A'.toNat + 10)
    else none
  value.filter (· < base)

/-- The number a string of digits denotes, read on from a given value. -/
def digitsFrom? (base : Nat) (value : Nat) : List Char → Option Nat
  | [] => some value
  | c :: rest => do digitsFrom? base (value * base + (← digitValue? base c)) rest

/-- Reads one or more digits after an optional plus sign. -/
def unsigned? (base : Nat) (text : List Char) : Option Nat :=
  let digits := match text with
    | '+' :: rest => rest
    | _ => text
  if digits.isEmpty then none else digitsFrom? base 0 digits

def word? (base : Nat) (text : List Char) : Option UInt64 := do
  let value ← unsigned? base text
  if value < 0x10000000000000000 then some (UInt64.ofNat value) else none

/-- Reads a 64-bit number, hexadecimal after `0x` or `0X` and decimal otherwise. -/
def number? : List Char → Option UInt64
  | '0' :: 'x' :: digits => word? 16 digits
  | '0' :: 'X' :: digits => word? 16 digits
  | text => word? 10 text

end FlowRecovery.Text
