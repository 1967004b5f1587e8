import Intcode.CommandLine.Execution
import Intcode.Log.Timestamp

/-!
# The program

Reads the arguments, the variables and the program file they name, and writes the response.
-/

namespace Intcode.CommandLine

/-- The variables that have a say in a response. -/
def consulted : List String :=
  ["TERM", "NO_COLOR", "CLICOLOR", "CLICOLOR_FORCE", "CI"] ++
    [Argument.logLevel, .stepLimit].filterMap Argument.environmentName?

def readEnvironment : IO Environment := do
  let found ← consulted.filterMapM fun name => do
    return (← IO.getEnv name).map fun value => (name, value)
  return fun name => found.lookup name

/-- Why the system did not give the bytes of a file. -/
def readFailure : IO.Error → ReadFailure
  | .noFileOrDirectory .. => .missing
  | .inappropriateType _ 21 _ => .isDirectory
  | .inappropriateType .. => .other "Not a directory (os error 20)"
  | .permissionDenied .. => .other "Permission denied (os error 13)"
  | e => .other (toString e)

def readFile (path : String) : IO (Except ReadFailure ByteArray) := do
  try return .ok (← IO.FS.readBinFile path)
  catch e => return .error (readFailure e)

/-- The files of which a command line needs to know: none if it asks for no command. -/
def readFiles (env : Environment) (arguments : List String) : IO Files := do
  match parse env arguments with
  | .error _ => return fun _ => .error .missing
  | .ok invocation =>
    let content ← readFile invocation.command.file
    return fun _ => content

/-- The time of day in universal time. -/
def readClock : IO String := do
  let now ← Std.Time.Timestamp.now
  return timestamp (.ofWallTime (now.toWallTime .zero))

/-- More instructions than any machine could execute. -/
def ampleFuel : Nat := 1 <<< 62

end Intcode.CommandLine

open Intcode.CommandLine

def main (arguments : List String) : IO UInt32 := do
  let env ← readEnvironment
  let files ← readFiles env arguments
  let terminals : Terminals :=
    { output := ← (← IO.getStdout).isTty, error := ← (← IO.getStderr).isTty }
  match respond ampleFuel env terminals files arguments with
  | none => return 1
  | some response =>
    IO.eprint (response.errorOutput (← readClock))
    IO.print response.output
    return response.exitCode
