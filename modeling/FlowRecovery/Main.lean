import FlowRecovery.CommandLine.Run

namespace FlowRecovery

def FileError.ofSystem : IO.Error → FileError
  | .noFileOrDirectory .. => .notFound
  | .inappropriateType _ 20 _ => .notDirectory
  | .inappropriateType .. => .isDirectory
  | .invalidArgument _ 36 _ => .nameTooLong
  | .permissionDenied _ code details => .other s!"{details} (os error {code})"
  | error => .other (toString error)

namespace CommandLine

def readFile (path : String) : IO (Except FileError (List UInt8)) := do
  try
    let handle ← IO.FS.Handle.mk path .read
    return .ok (← handle.readBinToEnd).toList
  catch error =>
    return .error (FileError.ofSystem error)

def inputFiles (arguments : List String) : IO Files := do
  let paths := match Options.parse arguments with
    | some o => [o.input] ++ o.config.toList ++ o.symbols.toList
    | none => []
  let contents ← paths.mapM fun path => return (path, ← readFile path)
  return {
    read := fun path => (contents.lookup path).getD (.error .notFound)
    create := fun _ => .ok () }

/-- The decoder of the command line. It finds the lengths of the instructions that it can
parse. -/
def decoder : Decoder :=
  X86.decoder fun bytes => (X86.Instruction.decode bytes 0).toOption.map (·.bytes.length)

/-- More steps than any run takes. -/
def stepLimit : Nat :=
  0x4000000000000000

end CommandLine

end FlowRecovery

open FlowRecovery FlowRecovery.CommandLine

def main (arguments : List String) : IO UInt32 := do
  let stdout ← IO.getStdout
  let stderr ← IO.getStderr
  match run decoder stepLimit arguments (← inputFiles arguments) with
  | .error fault =>
    stderr.putStrLn (fault.message.getD "arithmetic overflow")
    return 101
  | .ok outcome =>
    stdout.putStr outcome.stdout
    stderr.putStr outcome.stderr
    match outcome.written with
    | none => return UInt32.ofNat outcome.code
    | some (path, text) =>
      try
        IO.FS.writeFile path text
        return UInt32.ofNat outcome.code
      catch error =>
        let cause := (FileError.ofSystem error).message
        stderr.putStr (Complaint.render ⟨"failed to create " ++ path, [cause]⟩)
        return 1
