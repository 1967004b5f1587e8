import Intcode.CommandLine.Settings

/-!
# Reading the command line

Arguments are read from left to right, first those before the command and then its own. The value
of an option can be attached to it or be the argument that follows. One that follows is checked
only when the next option, the program file or the end is reached, and an argument that means
nothing is reported before it. The settings after the command are completed before those in front
of it, and what is missing in the settings of either is looked up in the environment.
-/

namespace Intcode.CommandLine

inductive Command where
  | run (file : String) (inputs : List Word) (patches : List Patch) (dump : Bool)
  | amplify (file : String) (wiring : Wiring) (stages : Nat) (phases : Option WordRange)
      (concurrent : Bool)
  | nounVerb (file : String) (target max : Word)
deriving DecidableEq, Repr

/-- The program file that a command reads. -/
def Command.file : Command → String
  | run file .. | amplify file .. | nounVerb file .. => file

structure Invocation where
  level : Level
  limit : Option Nat
  timestamps : Bool
  command : Command
deriving DecidableEq, Repr

/-- Why no command is to be executed. -/
inductive Refusal where
  | usage (cause : UsageError)
  /-- Help was asked for. -/
  | help (scope : Scope)
  /-- There is nothing to go by, so help is due. -/
  | nothingGiven
  | version
deriving DecidableEq, Repr

/-- How far the arguments of a scope have been read. -/
structure Reading where
  settings : Settings := {}
  /-- An argument still to be accepted, with its value as soon as that has been read. -/
  pending : Option (Argument × Option String) := none
  /-- Whether a double dash has ended the options. -/
  optionsEnded : Bool := false
deriving DecidableEq, Repr

namespace Reading

/-- Accepts the pending argument. -/
def settle (r : Reading) : Except UsageError Reading :=
  match r.pending with
  | none => .ok r
  | some (a, none) => .error (.missingValue a)
  | some (a, some value) =>
    (r.settings.accept a value).map fun settings => { r with settings, pending := none }

/-- The option whose value comes next. -/
def awaiting? (r : Reading) : Option Argument :=
  match r.pending with
  | some (a, none) => some a
  | _ => none

/-- Takes an option, with the value that is attached to it if there is one. -/
def option (scope : Scope) (r : Reading) (a : Argument) (attached : Option String) :
    Except Refusal Reading :=
  if a.takesValue then
    match attached with
    | none => (r.settle.mapError .usage).map fun r => { r with pending := some (a, none) }
    | some value =>
      match r.settle with
      | .error e => .error (.usage e)
      | .ok r =>
        ((r.settings.accept a value).mapError .usage).map fun settings => { r with settings }
  else
    match attached with
    | some value => .error (.usage (.unneededValue value a))
    | none =>
      match r.settle with
      | .error e => .error (.usage e)
      | .ok r =>
        match a with
        | .help => .error (.help scope)
        | .version => .error .version
        | _ => ((r.settings.raise a).mapError .usage).map fun settings => { r with settings }

/-- Takes an argument that starts with two dashes, of which `body` is the rest. -/
def long (scope : Scope) (r : Reading) (body : List Char) : Except Refusal Reading :=
  let (name, attached) :=
    match Text.cut? ['='] body with
    | none => (String.ofList body, none)
    | some (name, value) => (String.ofList name, some (String.ofList value))
  match scope.ofLong? name with
  | none => .error (.usage (.unexpected s!"--{name}"))
  | some a => r.option scope a attached

/-- Takes an argument that starts with one dash and a letter. -/
def short (scope : Scope) (r : Reading) (letter : Char) (rest : List Char) :
    Except Refusal Reading :=
  match scope.ofShort? letter with
  | none => .error (.usage (.unexpected s!"-{letter}"))
  | some a =>
    if a.takesValue then
      match rest with
      | [] => r.option scope a none
      | '=' :: value => r.option scope a (some (String.ofList value))
      | value => r.option scope a (some (String.ofList value))
    else r.option scope a none

/-- Takes an argument that is no option: the program file, if there is none yet. -/
def positional (scope : Scope) (r : Reading) (text : String) : Except Refusal Reading :=
  match scope with
  | .top =>
    if r.optionsEnded && (Scope.ofName? text).isSome then .error (.usage (.unexpected text))
    else .error (.usage (.unknownCommand text))
  | _ =>
    match r.pending, r.settings.file with
    | some (.file, _), _ | _, some _ => .error (.usage (.unexpected text))
    | _, _ =>
      (r.settle.mapError .usage).map fun r => { r with pending := some (.file, some text) }

/-- Takes the next argument. -/
def take (scope : Scope) (r : Reading) (text : String) : Except Refusal Reading :=
  if r.optionsEnded then r.positional scope text
  else
    match r.awaiting? with
    | some a =>
      if a.takesDashes then .ok { r with pending := some (a, some text) }
      else
        match text.toList with
        | ['-', '-'] => .ok { r with optionsEnded := true }
        | '-' :: '-' :: body => r.long scope body
        | '-' :: letter :: rest => r.short scope letter rest
        | _ => .ok { r with pending := some (a, some text) }
    | none =>
      match text.toList with
      | ['-', '-'] => .ok { r with optionsEnded := true }
      | '-' :: '-' :: body => r.long scope body
      | '-' :: letter :: rest => r.short scope letter rest
      | _ => r.positional scope text

/-- The command that the next argument starts, where a command can start. -/
def command? (r : Reading) (text : String) : Option Scope :=
  if r.optionsEnded || r.awaiting?.isSome then none else Scope.ofName? text

end Reading

/-- The arguments before the command, and the command with the arguments after it. -/
def readTop : List String → Reading → Except Refusal (Reading × Option (Scope × List String))
  | [], r => .ok (r, none)
  | text :: rest, r =>
    match r.command? text with
    | some scope => .ok (r, some (scope, rest))
    | none =>
      match r.take .top text with
      | .error e => .error e
      | .ok r => readTop rest r

/-- The arguments after a command. -/
def readScope (scope : Scope) : List String → Reading → Except Refusal Reading
  | [], r => .ok r
  | text :: rest, r =>
    match r.take scope text with
    | .error e => .error e
    | .ok r => readScope scope rest r

/-- The settings of a scope when all its arguments have been read. -/
def complete (env : Environment) (r : Reading) : Except UsageError Settings :=
  match r.settle with
  | .error e => .error e
  | .ok r => (r.settings.checkEnvironment env).map fun () => r.settings

/-- The help that the command `help` asks for: on all commands, or on the one it names. -/
def helpOn : List String → Refusal
  | [] => .help .top
  | name :: rest =>
    match Scope.ofName? name, rest with
    | none, _ => .usage (.unknownCommand name)
    | some scope, [] => .help scope
    | some _, extra :: _ => .usage (.unknownCommand extra)

/-- The command that the settings after it describe, or what they lack. -/
def commandOf (scope : Scope) (s : Settings) : Except UsageError Command :=
  let lacking := Except.error (.missingArguments (scope.required.filter fun a => !s.has a))
  match scope, s.file, s.target with
  | .run, some file, _ => .ok (.run file s.inputs s.patches s.dump)
  | .amplify, some file, _ =>
    .ok (.amplify file (s.wiring.getD .linear) (s.amplifiers.getD Pipeline.defaultStages)
      s.phases s.concurrent)
  | .nounVerb, some file, some target =>
    .ok (.nounVerb file target (s.max.getD NounVerb.defaultRange.hi))
  | _, _, _ => lacking

/-- The refusal of a command line without a command. -/
def withoutCommand (env : Environment) (s : Settings) : Refusal :=
  let given := s.level.isSome || s.limit.isSome || s.noTimestamp
  let set := [Argument.logLevel, .stepLimit].any fun a => (a.environmentName?.bind env).isSome
  if given || set then .usage .missingCommand else .nothingGiven

/-- Reads a command line. Options after the command go before those in front of it, and both
before the environment. -/
def parse (env : Environment) (arguments : List String) : Except Refusal Invocation := do
  let (top, command) ← readTop arguments {}
  match command with
  | none =>
    let s ← (complete env top).mapError .usage
    throw (withoutCommand env s)
  | some (.help, rest) => throw (helpOn rest)
  | some (scope, rest) =>
    let r ← readScope scope rest {}
    let own ← (complete env r).mapError .usage
    let command ← (commandOf scope own).mapError .usage
    let shared ← (complete env top).mapError .usage
    let level := (own.level.or shared.level).or (Settings.environmentLevel env).toOption.join
    let limit := (own.limit.or shared.limit).or (Settings.environmentLimit env).toOption.join
    return ⟨level.getD .info, limit, !(own.noTimestamp || shared.noTimestamp), command⟩

end Intcode.CommandLine
