import FlowRecovery.Register

namespace FlowRecovery.X86

/-- The sizes of operands. -/
inductive Size where
  | byte
  | word
  | dword
deriving DecidableEq

def Size.bytes : Size → Nat
  | byte => 1
  | word => 2
  | dword => 4

def Size.bits (s : Size) : Nat :=
  8 * s.bytes

def lowBits (n : Nat) : Fin 8 :=
  Fin.ofNat 8 n

/-- A general register, or the part of one, by its size and its number in the encoding. -/
structure Gpr where
  size : Size
  number : Fin 8
deriving DecidableEq

namespace Gpr

/-- The register a bit pattern stands for; only the lowest three bits count. -/
def ofBits (size : Size) (bits : Nat) : Gpr :=
  ⟨size, lowBits bits⟩

/-- The names of the 32-bit registers in the order of the encoding. -/
def wholeNames : Vector String 8 :=
  #v["eax", "ecx", "edx", "ebx", "esp", "ebp", "esi", "edi"]

/-- The names of the 16-bit registers in the order of the encoding. -/
def halfNames : Vector String 8 :=
  #v["ax", "cx", "dx", "bx", "sp", "bp", "si", "di"]

/-- The names of the 8-bit registers in the order of the encoding: four low bytes, then four high
ones. -/
def byteNames : Vector String 8 :=
  #v["al", "cl", "dl", "bl", "ah", "ch", "dh", "bh"]

def name (r : Gpr) : String :=
  match r.size with
  | .byte => byteNames[r.number]
  | .word => halfNames[r.number]
  | .dword => wholeNames[r.number]

def register (r : Gpr) : Register :=
  match r.size with
  | .byte => ⟨r.name, wholeNames[r.number.val % 4], 8 * (r.number.val / 4), 8, 32⟩
  | .word => ⟨r.name, wholeNames[r.number], 0, 16, 32⟩
  | .dword => .physical r.name 32

def all : List Gpr :=
  [Size.byte, Size.word, Size.dword].flatMap fun size =>
    (List.finRange 8).map fun number => ⟨size, number⟩

def al : Gpr := ⟨.byte, 0⟩
def ecx : Gpr := ⟨.dword, 1⟩
def esp : Gpr := ⟨.dword, 4⟩
def esi : Gpr := ⟨.dword, 6⟩
def edi : Gpr := ⟨.dword, 7⟩

end Gpr

/-- The status flags. -/
inductive Flag where
  | carry | parity | adjust | zero | sign | trap | interrupt | direction | overflow
deriving DecidableEq

namespace Flag

def name : Flag → String
  | carry => "cf" | parity => "pf" | adjust => "af" | zero => "zf" | sign => "sf"
  | trap => "tf" | interrupt => "if" | direction => "df" | overflow => "of"

def register (f : Flag) : Register :=
  .physical f.name 1

def all : List Flag :=
  [carry, parity, adjust, zero, sign, trap, interrupt, direction, overflow]

end Flag

def instructionPointer : Register :=
  .physical "eip" 32

def registers : List Register :=
  Gpr.all.map Gpr.register ++ [instructionPointer] ++ Flag.all.map Flag.register

end FlowRecovery.X86
