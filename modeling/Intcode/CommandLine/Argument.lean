import Intcode.NounVerb
import Intcode.Pipeline.Phases
import Intcode.Text.Styled

/-!
# The arguments of the command line

There are three commands on program files, each with options of its own, and three options that
can stand before or after the command. A fourth command gives help on the others. An option is
written with two dashes and its name; some also have a single letter.
-/

namespace Intcode.CommandLine

def programName : String := "intcode"

def version : String := "0.1.0"

def description : String := "Run Intcode programs and amplifier pipelines"

/-- Where an argument stands: before the command, or after one of the commands. -/
inductive Scope where
  | top
  | run
  | amplify
  | nounVerb
  | help
deriving DecidableEq, Repr

namespace Scope

def commands : List Scope :=
  [run, amplify, nounVerb, help]

/-- The word that starts the scope. -/
def name : Scope → String
  | top => programName
  | run => "run"
  | amplify => "amplify"
  | nounVerb => "noun-verb"
  | help => "help"

def about : Scope → String
  | top => description
  | run => "Run a program to completion and print every output"
  | amplify => "Find the phase assignment that maximizes an amplifier pipeline's signal"
  | nounVerb => "Find the noun and verb that make a program leave a target in cell 0"
  | help => "Print this message or the help of the given subcommand(s)"

def ofName? (name : String) : Option Scope :=
  commands.find? fun scope => scope.name == name

end Scope

inductive Argument where
  | file
  | input
  | patch
  | dump
  | mode
  | amplifiers
  | phases
  | concurrent
  | target
  | max
  | logLevel
  | stepLimit
  | noTimestamp
  | help
  | version
deriving DecidableEq, Repr

/-- The variables of the environment, as far as they are set. -/
abbrev Environment := String → Option String

namespace Argument

/-- The name of an option. The program file has none. -/
def long? : Argument → Option String
  | file => none
  | input => some "input"
  | patch => some "patch"
  | dump => some "dump"
  | mode => some "mode"
  | amplifiers => some "amplifiers"
  | phases => some "phases"
  | concurrent => some "concurrent"
  | target => some "target"
  | max => some "max"
  | logLevel => some "log-level"
  | stepLimit => some "step-limit"
  | noTimestamp => some "no-timestamp"
  | help => some "help"
  | version => some "version"

def short? : Argument → Option Char
  | input => some 'i'
  | help => some 'h'
  | version => some 'V'
  | _ => none

/-- What stands for the value of an argument that takes one. -/
def placeholder? : Argument → Option String
  | file => some "FILE"
  | input => some "INPUT"
  | patch => some "ADDR=VALUE"
  | mode => some "MODE"
  | amplifiers => some "AMPLIFIERS"
  | phases => some "LO..=HI"
  | target => some "TARGET"
  | max => some "MAX"
  | logLevel => some "LOG_LEVEL"
  | stepLimit => some "STEP_LIMIT"
  | dump | concurrent | noTimestamp | help | version => none

def takesValue (a : Argument) : Bool :=
  a.placeholder?.isSome

/-- Whether the value may start with a dash when it is an argument by itself. -/
def takesDashes : Argument → Bool
  | input | phases | target => true
  | _ => false

/-- The variable that holds the value of an option that is not given. -/
def environmentName? : Argument → Option String
  | logLevel => some "INTCODE_LOG"
  | stepLimit => some "INTCODE_STEP_LIMIT"
  | _ => none

/-- The value of an option that is given nowhere. -/
def default? : Argument → Option String
  | logLevel => some "info"
  | mode => some Wiring.linear.name
  | amplifiers => some (toString Pipeline.defaultStages)
  | max => some NounVerb.defaultRange.hi.render
  | _ => none

def about : Argument → String
  | file => "Program file"
  | input => "Value queued as input, in order"
  | patch => "Overwrite a cell before running"
  | dump => "Print the final memory after the program halts"
  | mode => "Pipeline wiring: linear or feedback"
  | amplifiers => "Number of amplifiers"
  | phases => "Phase values to permute (defaults depend on the mode)"
  | concurrent => "Run every amplifier in its own task (feedback mode only)"
  | target => "Value cell 0 must hold after the program halts"
  | max => "Largest noun and verb to try"
  | logLevel => "Most verbose log level written to stderr"
  | stepLimit => "Maximum number of instructions any single machine may execute"
  | noTimestamp => "Omit timestamps from log lines"
  | help => "Print help"
  | version => "Print version"

/-- How the help shows an argument. -/
def styled (a : Argument) : Text.Styled :=
  let name := a.long?.map fun name => Text.Style.literal.span s!"--{name}"
  let value := a.placeholder?.map fun value => s!"<{value}>"
  match name, value with
  | none, none => []
  | none, some value => [value]
  | some name, none => [name]
  | some name, some value => [name, " ", value]

/-- How messages name an argument. -/
def render (a : Argument) : String :=
  a.styled.text

end Argument

namespace Scope

/-- The options of a scope, in the order that the help shows them in. -/
def options : Scope → List Argument
  | top => [.logLevel, .stepLimit, .noTimestamp, .help, .version]
  | run => [.input, .logLevel, .patch, .stepLimit, .dump, .noTimestamp, .help]
  | amplify =>
    [.logLevel, .mode, .amplifiers, .stepLimit, .noTimestamp, .phases, .concurrent, .help]
  | nounVerb => [.logLevel, .target, .max, .stepLimit, .noTimestamp, .help]
  | help => []

/-- What has to be given in a scope. -/
def required : Scope → List Argument
  | top | help => []
  | run | amplify => [.file]
  | nounVerb => [.target, .file]

def ofLong? (scope : Scope) (name : String) : Option Argument :=
  scope.options.find? fun a => a.long? == some name

def ofShort? (scope : Scope) (letter : Char) : Option Argument :=
  scope.options.find? fun a => a.short? == some letter

end Scope

end Intcode.CommandLine
