import Intcode.Fault
import Intcode.WordRange

/-!
# What can go wrong in a pipeline

Either the pipeline cannot be set up as asked for, or a stage fails, or a trial of a search does.
-/

namespace Intcode

/-- Why phases do not fit a pipeline. -/
inductive Misconfiguration where
  | noStages
  | phaseCount (stages phases : Nat)
  | phaseRepeated (phase : Word)
  | phaseOutside (phase : Word) (allowed : WordRange)
  | candidateCount (candidates : WordRange) (stages : Nat)
  | candidatesOutside (candidates allowed : WordRange)
  | noOrderings
  | other (text : String)
deriving DecidableEq, Repr

namespace Misconfiguration

def message : Misconfiguration → String
  | noStages => "a pipeline needs at least one machine"
  | phaseCount stages phases => s!"expected {stages} phases, got {phases}"
  | phaseRepeated phase => s!"phase {phase.render} is assigned more than once"
  | phaseOutside phase allowed => s!"phase {phase.render} is outside {allowed.render}"
  | candidateCount candidates stages =>
    s!"phase range {candidates.render} holds {candidates.size} values" ++
      s!" but the pipeline has {stages} machines"
  | candidatesOutside candidates allowed =>
    s!"phase range {candidates.render} is outside {allowed.render}"
  | noOrderings => "no phase permutations to try"
  | other text => text

end Misconfiguration

/-- Phases as messages show them. -/
def renderPhases (phases : List Word) : String :=
  "[" ++ ", ".intercalate (phases.map Word.render) ++ "]"

inductive PipelineError where
  | misconfigured (cause : Misconfiguration)
  /-- The machine of a stage failed. -/
  | machine (stage : Nat) (source : MachineError)
  /-- A stage halted without the output that was needed. -/
  | noOutput (stage : Nat)
  /-- A stage waits for an input that no other stage will send. -/
  | stalled (stage : Nat)
  /-- A stage waits for an input and the stage before it has finished. -/
  | inputClosed (stage : Nat)
  /-- A stage was ended from outside. -/
  | taskFailed (stage : Nat) (reason : String)
  /-- A trial of a search failed. -/
  | trialFailed (phases : List Word) (source : PipelineError)
deriving DecidableEq, Repr

namespace PipelineError

def message : PipelineError → String
  | misconfigured cause => s!"configuration error: {cause.message}"
  | machine stage source => s!"stage {stage}: {source.message}"
  | noOutput stage => s!"stage {stage} halted without producing output"
  | stalled stage => s!"stage {stage} is waiting for input that will never arrive"
  | inputClosed stage => s!"stage {stage} input channel closed"
  | taskFailed stage reason => s!"stage {stage} task failed: {reason}"
  | trialFailed phases source =>
    s!"trial with phases {renderPhases phases} failed: {message source}"

/-- The messages of the errors behind this one, the nearest first. -/
def causes : PipelineError → List String
  | machine _ source => [source.message]
  | trialFailed _ source => source.message :: causes source
  | _ => []

end PipelineError

end Intcode
