import Std.Data.ExtTreeMap
import FlowRecovery.Register
import FlowRecovery.Word
import FlowRecovery.X86.Register

namespace FlowRecovery

/-- The processor families. -/
inductive Processor where
  | x86
  | arm
deriving DecidableEq

def Processor.render : Processor → String
  | x86 => "x86-32"
  | arm => "arm"

/-- What is known of a target processor. -/
structure Architecture where
  processor : Processor
  byteOrder : ByteOrder
  wordSize : Nat
  addressSize : Nat
  /-- The name of the instruction pointer. -/
  programCounter : String
  registers : Std.ExtTreeMap String Register
deriving DecidableEq

namespace Architecture

/-- Adds a register to the table, in place of one of the same name. -/
def insert (arch : Architecture) (r : Register) : Architecture :=
  { arch with registers := arch.registers.insert r.name r }

def register? (arch : Architecture) (name : String) : Option Register :=
  arch.registers[name]?

def allRegisters (arch : Architecture) : List Register :=
  arch.registers.toList.map (·.2)

def physicalRegisters (arch : Architecture) : List Register :=
  arch.allRegisters.filter fun r => r.isPhysical && r.name == r.base

/-- An architecture of 32-bit words with a given register table. -/
def ofRegisters (processor : Processor) (byteOrder : ByteOrder) (programCounter : String)
    (registers : List Register) : Architecture :=
  registers.foldl insert
    { processor, byteOrder, wordSize := 32, addressSize := 32, programCounter, registers := ∅ }

/-- The 32-bit x86 processors: general registers, instruction pointer and status flags. -/
def x86 : Architecture :=
  ofRegisters .x86 .little X86.instructionPointer.name X86.registers

/-- The 32-bit ARM processors: sixteen core registers, three of them with an alias, and the
condition flags. -/
def arm (byteOrder : ByteOrder) : Architecture :=
  ofRegisters .arm byteOrder "r15" <|
    (List.range 16).map (fun i => .physical ("r" ++ toString i) 32) ++
    [⟨"sp", "r13", 0, 32, 32⟩, ⟨"lr", "r14", 0, 32, 32⟩, ⟨"pc", "r15", 0, 32, 32⟩] ++
    ["z", "n", "c", "v"].map fun flag => .physical flag 1

end Architecture

end FlowRecovery
