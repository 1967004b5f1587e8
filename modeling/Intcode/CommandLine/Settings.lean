import Intcode.CommandLine.Argument
import Intcode.CommandLine.Value
import Intcode.Log

/-!
# Settings

What the arguments of one scope say, as their values are accepted one by one. An argument that has
one value cannot be given twice in a scope.
-/

namespace Intcode.CommandLine

/-- What is wrong with the arguments. -/
inductive UsageError where
  | invalidValue (value : String) (argument : Argument) (reason : String)
  | missingValue (argument : Argument)
  | unneededValue (value : String) (argument : Argument)
  | repeated (argument : Argument)
  | unexpected (text : String)
  | unknownCommand (text : String)
  | missingArguments (arguments : List Argument)
  | missingCommand
deriving DecidableEq, Repr

namespace UsageError

open Text (Style Styled)

/-- The cause in words. -/
def reason : UsageError → Styled
  | invalidValue value argument reason =>
    ["invalid value '", Style.invalid.span value, "' for '", Style.literal.span argument.render,
      s!"': {reason}"]
  | missingValue argument =>
    ["a value is required for '", Style.invalid.span argument.render,
      "' but none was supplied"]
  | unneededValue value argument =>
    ["unexpected value '", Style.invalid.span value, "' for '",
      Style.literal.span argument.render, "' found; no more were expected"]
  | repeated argument =>
    ["the argument '", Style.invalid.span argument.render, "' cannot be used multiple times"]
  | unexpected text => ["unexpected argument '", Style.invalid.span text, "' found"]
  | unknownCommand text => ["unrecognized subcommand '", Style.invalid.span text, "'"]
  | missingArguments arguments =>
    "the following required arguments were not provided:" ::
      arguments.flatMap fun argument => ["\n  ", Style.valid.span argument.render]
  | missingCommand =>
    ["'", Style.invalid.span programName, "' requires a subcommand but one was not provided"]

/-- The notice of an error, which ends with the way to the help. -/
def message (e : UsageError) : Styled :=
  List.flatten [[Style.alarm.span "error:", " "], e.reason,
    ["\n\nFor more information, try '", Style.literal.span "--help", "'.\n"]]

end UsageError

structure Settings where
  level : Option Level := none
  limit : Option Nat := none
  noTimestamp : Bool := false
  file : Option String := none
  inputs : List Word := []
  patches : List Patch := []
  dump : Bool := false
  wiring : Option Wiring := none
  amplifiers : Option Nat := none
  phases : Option WordRange := none
  concurrent : Bool := false
  target : Option Word := none
  max : Option Word := none
deriving DecidableEq, Repr

namespace Settings

/-- A value that was read, or the reason why it was not. -/
def valid {ε : Type u} {α : Type v} (a : Argument) (value : String) (reason : ε → String)
    (read : Except ε α) : Except UsageError α :=
  read.mapError fun e => .invalidValue value a (reason e)

def readLevel (value : String) : Except UsageError Level :=
  valid .logLevel value Text.UnknownName.message (Level.parse value)

def readLimit (value : String) : Except UsageError Nat :=
  (valid .stepLimit value Text.IntegerError.message (Text.readUnsigned value.toList)).map
    UInt64.toNat

/-- Whether an argument that has one value, or is a flag, has been given. -/
def has (s : Settings) : Argument → Bool
  | .logLevel => s.level.isSome
  | .stepLimit => s.limit.isSome
  | .noTimestamp => s.noTimestamp
  | .file => s.file.isSome
  | .dump => s.dump
  | .mode => s.wiring.isSome
  | .amplifiers => s.amplifiers.isSome
  | .phases => s.phases.isSome
  | .concurrent => s.concurrent
  | .target => s.target.isSome
  | .max => s.max.isSome
  | .input | .patch | .help | .version => false

/-- Reads the value of an argument. -/
def read (s : Settings) (a : Argument) (value : String) : Except UsageError Settings :=
  let word := valid a value Text.IntegerError.message (Text.readWord value.toList)
  let unsigned := valid a value Text.IntegerError.message (Text.readUnsigned value.toList)
  match a with
  | .logLevel => (readLevel value).map fun level => { s with level := some level }
  | .stepLimit => (readLimit value).map fun limit => { s with limit := some limit }
  | .file => if value.isEmpty then .error (.missingValue a) else .ok { s with file := some value }
  | .input => word.map fun input => { s with inputs := s.inputs ++ [input] }
  | .patch =>
    (valid a value PatchError.message (parsePatch value)).map fun patch =>
      { s with patches := s.patches ++ [patch] }
  | .mode =>
    (valid a value Text.UnknownName.message (Wiring.parse value)).map fun wiring =>
      { s with wiring := some wiring }
  | .amplifiers => unsigned.map fun count => { s with amplifiers := some count.toNat }
  | .phases =>
    (valid a value RangeError.message (parseRange value)).map fun range =>
      { s with phases := some range }
  | .target => word.map fun target => { s with target := some target }
  | .max => word.map fun max => { s with max := some max }
  | .dump | .concurrent | .noTimestamp | .help | .version => .error (.unneededValue value a)

/-- Takes in the value of an argument. -/
def accept (s : Settings) (a : Argument) (value : String) : Except UsageError Settings :=
  if s.has a then .error (.repeated a) else s.read a value

/-- Takes in an option that has no value. -/
def raise (s : Settings) (a : Argument) : Except UsageError Settings :=
  if s.has a then .error (.repeated a)
  else
    match a with
    | .dump => .ok { s with dump := true }
    | .concurrent => .ok { s with concurrent := true }
    | .noTimestamp => .ok { s with noTimestamp := true }
    | _ => .error (.missingValue a)

/-- The log level in the environment. -/
def environmentLevel (env : Environment) : Except UsageError (Option Level) :=
  match Argument.logLevel.environmentName?.bind env with
  | none => .ok none
  | some value => (readLevel value).map some

/-- The step limit in the environment. -/
def environmentLimit (env : Environment) : Except UsageError (Option Nat) :=
  match Argument.stepLimit.environmentName?.bind env with
  | none => .ok none
  | some value => (readLimit value).map some

/-- Checks the values in the environment that the settings leave room for. -/
def checkEnvironment (s : Settings) (env : Environment) : Except UsageError Unit := do
  if s.level.isNone then
    let _ ← environmentLevel env
  if s.limit.isNone then
    let _ ← environmentLimit env

end Settings

end Intcode.CommandLine
