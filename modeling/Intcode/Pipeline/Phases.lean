import Intcode.Machine
import Intcode.Pipeline.Error
import Intcode.Text.Name

/-!
# Pipelines and their phases

A pipeline runs one program on several machines, its stages, each set up with a phase of its own.
Phases have to be as many as the stages, pairwise different and inside the range the pipeline
allows; the values to try in a search have to fill a range of that size.
-/

namespace Intcode

/-- How the stages are joined. -/
inductive Wiring where
  /-- Every stage feeds the one after it, once. -/
  | linear
  /-- The last stage also feeds the first, until it halts. -/
  | feedback
deriving DecidableEq, Repr

namespace Wiring

def name : Wiring → String
  | linear => "linear"
  | feedback => "feedback"

def parse (text : String) : Except Text.UnknownName Wiring :=
  match Text.nameOf text with
  | "linear" => .ok linear
  | "feedback" => .ok feedback
  | name => .error ⟨"pipeline mode", name, "linear or feedback"⟩

/-- The phases in common use for a number of stages, which is taken as a word. -/
def defaultPhases (wiring : Wiring) (stages : Nat) : WordRange :=
  let count := Int64.ofNat stages
  match wiring with
  | linear => ⟨0, count - 1⟩
  | feedback => ⟨count, 2 * count - 1⟩

end Wiring

/-- The number of stages that pipelines usually have. -/
def Pipeline.defaultStages : Nat := 5

structure Pipeline where
  program : Program
  stages : Nat
  /-- The limit on the instructions of each machine. -/
  limit : Option Nat := none
  /-- The phases allowed; all of them if there is no range. -/
  allowed : Option WordRange := none
deriving DecidableEq, Repr

namespace Pipeline

/-- Checks phases in order, after those seen before. -/
def checkPhasesFrom (p : Pipeline) : List Word → List Word → Except Misconfiguration Unit
  | _, [] => .ok ()
  | seen, phase :: phases =>
    if seen.contains phase then .error (.phaseRepeated phase)
    else
      match p.allowed with
      | none => checkPhasesFrom p (phase :: seen) phases
      | some range =>
        if range.contains phase then checkPhasesFrom p (phase :: seen) phases
        else .error (.phaseOutside phase range)

/-- Checks that phases can be given to the stages. -/
def checkPhases (p : Pipeline) (phases : List Word) : Except Misconfiguration Unit :=
  if p.stages = 0 then .error .noStages
  else if phases.length ≠ p.stages then .error (.phaseCount p.stages phases.length)
  else p.checkPhasesFrom [] phases

/-- Checks that the values of a range can be given to the stages in any order. -/
def checkCandidates (p : Pipeline) (candidates : WordRange) : Except Misconfiguration Unit :=
  if p.stages = 0 then .error .noStages
  else if candidates.size ≠ p.stages then .error (.candidateCount candidates p.stages)
  else
    match p.allowed with
    | none => .ok ()
    | some range =>
      if range.contains candidates.lo && range.contains candidates.hi then .ok ()
      else .error (.candidatesOutside candidates range)

/-- A fresh machine for a stage. -/
def machine (p : Pipeline) : Machine :=
  Machine.load p.program p.limit

/-- A fresh machine that has been fed its phase. -/
def primed (p : Pipeline) (phase : Word) : Machine :=
  p.machine.feed phase

end Pipeline

/-- One run of the machine of a stage to a suspension. -/
structure Visit where
  stage : Nat
  /-- The signal fed just before the run. -/
  fed : Option Word
  suspension : Machine.Suspension
deriving DecidableEq, Repr

/-- A run of a pipeline that came to an end, with its visits in order. -/
structure Trial where
  visits : List Visit
  result : Except PipelineError Word

end Intcode
