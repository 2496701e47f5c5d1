import FlowRecovery.X86.Lowering

namespace FlowRecovery.X86

/-- The greatest number of bytes of an instruction. -/
def maxLength : Nat :=
  15

/-- The address some bytes after another one, in 32 bits. -/
def following (address : UInt64) (length : Nat) : UInt64 :=
  (address + UInt64.ofNat length) % 0x100000000

/-- Lowers the instruction at an address into the graph. -/
def decode (memory : Memory) (address : UInt64) : GraphM UInt64 := do
  match Instruction.decode (memory.fetch address maxLength) address with
  | .error error => throw error
  | .ok i =>
    let next := following address i.bytes.length
    let start := Location.boundary address
    let (result, emission) ← (Lowering.lower i (.boundary next)).run.run ⟨← get, start⟩
    set emission.graph
    match result with
    | .error error => throw error
    | .ok () =>
      modify fun mc => mc.annotate start i.render
      return next

/-- The address of the instruction after the one at an address. It takes only the length of an
instruction, and that is found by a given function of the bytes in memory. -/
def nextAddress (lengthOf : List UInt8 → Option Nat) (memory : Memory) (address : UInt64) :
    Except DecodeError UInt64 :=
  let bytes := memory.fetch address maxLength
  match lengthOf bytes with
  | some length => .ok (following address length)
  | none =>
    if bytes.length < maxLength then .error (.truncated address)
    else .error (.malformed address bytes)

/-- The decoder of 32-bit x86 code, with a way to find the lengths of instructions. -/
def decoder (lengthOf : List UInt8 → Option Nat) : Decoder where
  arch := .x86
  decode := decode
  nextAddress := nextAddress lengthOf

end FlowRecovery.X86
