import Intcode.CommandLine.Argument

/-!
# The help texts

What the command line accepts, for all commands together or for one of them.
-/

namespace Intcode.CommandLine

open Text (Style Styled)

/-- Fills a text up with blanks to a width. -/
def padTo (width : Nat) (text : String) : String :=
  text ++ "".pushn ' ' (width - text.length)

namespace Argument

/-- The letter and the name of an option, or its place in the command line. -/
def heading (a : Argument) : Styled :=
  match a, a.short? with
  | .file, _ => "  " :: a.styled
  | _, some letter => "  " :: Style.literal.span s!"-{letter}" :: ", " :: a.styled
  | _, none => "      " :: a.styled

/-- Where the value of an option comes from when it is not given. -/
def sources (a : Argument) (env : Environment) : List String :=
  let setting := a.environmentName?.map fun name =>
    let value := (env name).getD ""
    s!"[env: {name}={value}]"
  let preset := a.default?.map fun value => s!"[default: {value}]"
  setting.toList ++ preset.toList

end Argument

/-- Lines of two columns, the second of them aligned. A text of several lines goes on below its
start. -/
def columns (rows : List (Styled × String)) : Styled :=
  let width := (rows.map fun row => row.1.text.length).foldl max 0 + 2
  rows.flatMap fun (label, text) =>
    let gap := "".pushn ' ' (width - label.text.length)
    let lines := ("\n" ++ "".pushn ' ' width).intercalate (text.splitOn "\n")
    List.flatten [["\n"], label, [gap, lines]]

def optionRows (env : Environment) (arguments : List Argument) : List (Styled × String) :=
  arguments.map fun a => (a.heading, " ".intercalate (a.about :: a.sources env))

/-- What can follow the name of a command. -/
def operands : Scope → Styled
  | .top => [" [OPTIONS] <COMMAND>"]
  | .help => [" [COMMAND]..."]
  | scope => " [OPTIONS]" :: scope.required.flatMap fun a => " " :: a.styled

def usageLine (scope : Scope) : Styled :=
  let name :=
    match scope with
    | .top => programName
    | scope => s!"{programName} {scope.name}"
  Style.heading.span "Usage:" :: " " :: Style.literal.span name :: operands scope

/-- The parts that follow the usage line: what each is called, and its rows. -/
def sections (env : Environment) (scope : Scope) : List (String × List (Styled × String)) :=
  let options := ("Options:", optionRows env scope.options)
  match scope with
  | .top =>
    let row (scope : Scope) : Styled × String :=
      (["  ", Style.literal.span scope.name], scope.about)
    [("Commands:", Scope.commands.map row), options]
  | .help => [("Arguments:", [(["  [COMMAND]..."], "Print help for the subcommand(s)")])]
  | _ => [("Arguments:", [(Argument.file.heading, Argument.file.about)]), options]

def sectionText (name : String) (rows : List (Styled × String)) : Styled :=
  "\n\n" :: Style.heading.span name :: columns rows

/-- The help on a command, or on all of them. -/
def helpText (env : Environment) (scope : Scope) : Styled :=
  let parts := (sections env scope).flatMap fun (name, rows) => sectionText name rows
  List.flatten [[scope.about, "\n\n"], usageLine scope, parts, ["\n"]]

end Intcode.CommandLine
