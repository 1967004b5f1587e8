import Intcode.CommandLine.Help
import Intcode.CommandLine.Reading
import Intcode.Pipeline.Search

/-!
# Executing the commands

A command answers with an exit code, the text for standard output and a journal. A failed command
prints nothing; its journal ends with the causes of the failure, from the outermost in.
-/

namespace Intcode.CommandLine

/-- What a command leaves behind. -/
structure Report where
  exitCode : UInt32
  output : String
  journal : Journal

namespace Report

def success (j : Journal) (output : String) : Report :=
  ⟨0, output, j⟩

def failure (j : Journal) (causes : List String) : Report :=
  ⟨1, "", j.note .error (": ".intercalate causes)⟩

end Report

/-- Every line with its end. -/
def unlines (lines : List String) : String :=
  String.join (lines.map fun line => line ++ "\n")

/-- What the journal says of a suspension. -/
def describe (s : Machine.Suspension) : String :=
  match s.outcome with
  | .output value => s!"machine output {value.render} at pc {s.pc}"
  | .awaitingInput => s!"machine awaiting input at pc {s.pc}"
  | .halted => s!"machine halted at pc {s.pc} after {s.steps} steps"

def noteSuspension (j : Journal) (s : Machine.Suspension) : Journal :=
  if j.admits .trace then j.note .trace (describe s) else j

def noteCourse (j : Journal) (course : Machine.Course) : Journal :=
  course.suspensions.foldl noteSuspension j

/-- What the journal calls a run of a pipeline. -/
def driveName : Drive → String
  | .linear => "linear pipeline"
  | .feedback => "feedback pipeline"
  | .concurrent => "concurrent feedback pipeline"

/-- Notes a visit. Of the stages of a ring it also notes when they halt. -/
def noteVisit (drive : Drive) (j : Journal) (visit : Visit) : Journal :=
  let j := noteSuspension j visit.suspension
  match drive, visit.suspension.outcome with
  | .concurrent, .halted =>
    j.note .debug s!"stage {visit.stage} halted after {visit.suspension.steps} steps"
  | _, _ => j

def noteTrial (drive : Drive) (j : Journal) (phases : List Word) (trial : Trial) : Journal :=
  let j := trial.visits.foldl (noteVisit drive) j
  match trial.result with
  | .error _ => j
  | .ok signal =>
    j.note .debug s!"{driveName drive} {renderPhases phases} -> {signal.render}"

def noteLoaded (j : Journal) (file : String) (p : Program) : Journal :=
  j.note .debug s!"loaded {p.size} words from {file}"

def noteProfile (j : Journal) (profile : Profile) : Journal :=
  profile.entries.foldl
    (fun j (opcode, count) => j.note .debug s!"  {padTo 5 opcode.mnemonic} {count}") j

/-- The memory that a run ended with, as the text of a program. -/
def dumpLines (dump : Bool) (m : Machine) : List String :=
  if dump then [(Program.ofMemory m.memory).render] else []

/-- Runs a program until it halts and prints its outputs. -/
def runProgram (fuel : Nat) (files : Files) (limit : Option Nat) (j : Journal) (file : String)
    (inputs : List Word) (patches : List Patch) (dump : Bool) : Option Report :=
  match Program.load files file with
  | .error e => some (.failure j [s!"failed to load {file}", e.message])
  | .ok p =>
    let j := noteLoaded j file p
    match p.patched patches with
    | .error e => some (.failure j ["failed to apply patches", e.message])
    | .ok p =>
      match ((Machine.load p limit).feedAll inputs).follow fuel with
      | none => none
      | some course =>
        let j := noteCourse j course
        match course.result with
        | .error e => some (.failure j [s!"{file} failed", e.message])
        | .ok outputs =>
          let j := j.note .info s!"halted after {course.machine.steps} steps"
          some (.success (noteProfile j course.machine.profile)
            (unlines (outputs.map Word.render ++ dumpLines dump course.machine)))

/-- Searches for the best phases of a pipeline and prints the signal they give. -/
def amplify (fuel : Nat) (files : Files) (limit : Option Nat) (j : Journal) (file : String)
    (wiring : Wiring) (stages : Nat) (phases : Option WordRange) (concurrent : Bool) :
    Option Report :=
  if concurrent && wiring != .feedback then
    some (.failure j ["--concurrent requires --mode feedback"])
  else
    match Program.load files file with
    | .error e => some (.failure j [s!"failed to load {file}", e.message])
    | .ok program =>
      let j := noteLoaded j file program
      let drive := if concurrent then .concurrent else Drive.ofWiring wiring
      let candidates := phases.getD (wiring.defaultPhases stages)
      let pipeline : Pipeline := { program, stages, limit }
      match pipeline.searchObserved (noteTrial drive) j fuel drive candidates with
      | none => none
      | some (.error e, j) =>
        some (.failure j ("phase search failed" :: e.message :: e.causes))
      | some (.ok best, j) =>
        let j := j.note .info (s!"best {wiring.name} signal {best.signal.render} from phases " ++
          s!"{renderPhases best.phases} after {best.trials} trials")
        let phases := ",".intercalate (best.phases.map Word.render)
        some (.success j (unlines [s!"{best.signal.render} (phases {phases})"]))

/-- Searches for the noun and verb that leave a target and prints their answer. -/
def findNounVerb (fuel : Nat) (files : Files) (limit : Option Nat) (j : Journal) (file : String)
    (target max : Word) : Option Report :=
  match Program.load files file with
  | .error e => some (.failure j [s!"failed to load {file}", e.message])
  | .ok p =>
    let range : WordRange := ⟨0, max⟩
    match NounVerb.searchObserved noteCourse (noteLoaded j file p) fuel p target range limit with
    | none => none
    | some (.error e, j) => some (.failure j ["noun/verb search failed", e.message])
    | some (.ok none, j) =>
      some (.failure j [s!"no noun and verb in {range.render} produce {target.render}"])
    | some (.ok (some pair), j) =>
      let found := s!"noun {pair.noun.render} verb {pair.verb.render}"
      let j := j.note .debug s!"{found} produce {target.render}"
      some (.success (j.note .info found) (unlines [pair.answer.render]))

/-- Executes a command. There is no report if the fuel does not last. -/
def execute (fuel : Nat) (files : Files) (invocation : Invocation) : Option Report :=
  let limit := invocation.limit
  let j : Journal := { threshold := invocation.level }
  match invocation.command with
  | .run file inputs patches dump => runProgram fuel files limit j file inputs patches dump
  | .amplify file wiring stages phases concurrent =>
    amplify fuel files limit j file wiring stages phases concurrent
  | .nounVerb file target max => findNounVerb fuel files limit j file target max

/-- Log entries have colours on terminals that say what they are, unless they say they are dumb
or colours are not wanted. -/
def coloured (env : Environment) : Bool :=
  match env "TERM" with
  | none => false
  | some terminal => terminal != "dumb" && (env "NO_COLOR").isNone

/-- Which of the standard streams end at a terminal. -/
structure Terminals where
  output : Bool := false
  error : Bool := false
deriving DecidableEq, Repr

/-- Whether help and notices show their styles on a stream: as the environment wishes, and else on
a terminal that is able to. -/
def showsStyles (env : Environment) (terminal : Bool) : Bool :=
  let filled name := (env name).any fun value => !value.isEmpty
  if filled "NO_COLOR" then false
  else if filled "CLICOLOR_FORCE" then true
  else if env "CLICOLOR" == some "0" then false
  else
    let able := (env "TERM").any fun name => name != "dumb"
    terminal && (able || (env "CLICOLOR").isSome || (env "CI").isSome)

/-- The answer to a command line. -/
structure Response where
  exitCode : UInt32
  output : String := ""
  /-- Text for standard error that is not logged. -/
  notice : String := ""
  entries : List Entry := []
  timestamps : Bool := false
  coloured : Bool := false

namespace Response

/-- The text for standard error, when the time is as given. -/
def errorOutput (r : Response) (time : String) : String :=
  let time := if r.timestamps then some time else none
  r.notice ++ String.join (r.entries.map fun e => e.render r.coloured time)

end Response

/-- Answers a command line that asks for no command. -/
def refuse (env : Environment) (terminals : Terminals) (refusal : Refusal) : Response :=
  let output (text : Text.Styled) := text.write (showsStyles env terminals.output)
  let notice (text : Text.Styled) := text.write (showsStyles env terminals.error)
  match refusal with
  | .usage cause => { exitCode := 2, notice := notice cause.message }
  | .help scope => { exitCode := 0, output := output (helpText env scope) }
  | .nothingGiven => { exitCode := 2, notice := notice (helpText env .top) }
  | .version => { exitCode := 0, output := unlines [s!"{programName} {version}"] }

/-- Reads a command line and executes its command. -/
def respond (fuel : Nat) (env : Environment) (terminals : Terminals) (files : Files)
    (arguments : List String) : Option Response :=
  match parse env arguments with
  | .error refusal => some (refuse env terminals refusal)
  | .ok invocation =>
    (execute fuel files invocation).map fun report => {
      exitCode := report.exitCode
      output := report.output
      entries := report.journal.entries
      timestamps := invocation.timestamps
      coloured := coloured env }

end Intcode.CommandLine
