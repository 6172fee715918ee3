import Datapath.CommandLine

/-!
# Datapath.Main

The program: reads the file that the arguments name, if any, and writes what the
command leaves behind.
-/

namespace Datapath.CommandLine

/-- The number of the system error for reading a directory. -/
def directoryCode : UInt32 := 21

/-- The reason behind a system error. -/
def FileError.ofSystem : IO.Error → FileError
  | .inappropriateType _ code _ =>
    if code = directoryCode then isDirectory else notDirectory
  | .invalidArgument .. => nameTooLong
  | .permissionDenied .. => denied
  | _ => missing

/-- The content of a file, or why it cannot be read. -/
def readContent (path : String) : IO (Except FileError String) := do
  try
    return .ok (← IO.FS.readFile path)
  catch e =>
    return .error (.ofSystem e)

end Datapath.CommandLine

open Datapath.CommandLine in
/-- Runs the command that the arguments give. -/
def main (args : List String) : IO UInt32 := do
  let content ← match namedFile? args with
    | some path => readContent path
    | none => pure (.error .missing)
  let outcome := run (fun _ => content) args
  IO.print outcome.output
  IO.eprint outcome.errors
  return outcome.exitStatus.toUInt32
