import FlowRecovery.Memory.Basic

namespace FlowRecovery.Memory

/-- A blank and a byte as two hexadecimal digits. -/
def renderByte (byte : UInt8) : String :=
  " " ++ Text.hexPadded 2 byte.toNat

/-- Some bytes from an address on, sixteen a line, with question marks for undefined ones. -/
def dump (m : Memory) (start : UInt64) (count : Nat) : String :=
  String.join <| (List.range ((count + 15) / 16)).map fun line =>
    let first := start + UInt64.ofNat (16 * line)
    let bytes := (List.range (min 16 (count - 16 * line))).map fun i =>
      match m.byte? (first + UInt64.ofNat i) with
      | some byte => renderByte byte
      | none => " ??"
    "0x" ++ Text.hexPadded 8 first.toNat ++ ":" ++ String.join bytes ++ "\n"

/-- Bytes in ascending order of their addresses, grouped into runs without gaps. -/
def runs : List (UInt64 × UInt8) → List (UInt64 × List UInt8)
  | [] => []
  | (address, byte) :: rest => match runs rest with
    | (next, bytes) :: later =>
      if next.toNat = address.toNat + 1 then (address, byte :: bytes) :: later
      else (address, [byte]) :: (next, bytes) :: later
    | [] => [(address, [byte])]

/-- The registers and bytes of the top layer. -/
def render (m : Memory) : String :=
  let registers := m.top.registers.toList.map fun (name, value) =>
    "    %" ++ name ++ " = " ++ value.render ++ "\n"
  let bytes := (runs m.top.bytes.toList).map fun (start, bytes) =>
    "    " ++ Text.hex start.toNat ++ ":" ++ String.join (bytes.map renderByte) ++ "\n"
  let base := if m.below.isEmpty then "" else "    (with base)\n"
  "Memory [\n" ++ String.join registers ++ String.join bytes ++ base ++ "]"

end FlowRecovery.Memory
