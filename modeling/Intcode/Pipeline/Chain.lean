import Intcode.Pipeline.Phases

/-!
# Linear pipelines

Every stage is fed its phase and the signal of the stage before, zero for the first, and runs to
its first suspension. That has to be an output, which is the next signal.
-/

namespace Intcode

namespace Pipeline

/-- Goes on from a stage with a signal and the phases that are left. -/
def chainFrom (fuel : Nat) (p : Pipeline) :
    Nat → Word → List Word → List Visit → Option Trial
  | _, signal, [], visits => some ⟨visits.reverse, .ok signal⟩
  | stage, signal, phase :: phases, visits =>
    match ((p.primed phase).feed signal).run fuel with
    | none => none
    | some (.error e, _) => some ⟨visits.reverse, .error (.machine stage e)⟩
    | some (.ok outcome, m) =>
      let visits := ⟨stage, some signal, m.suspension outcome⟩ :: visits
      match outcome with
      | .output value => chainFrom fuel p (stage + 1) value phases visits
      | .halted => some ⟨visits.reverse, .error (.noOutput stage)⟩
      | .awaitingInput => some ⟨visits.reverse, .error (.stalled stage)⟩

/-- Runs the stages once, in order. -/
def runLinear (fuel : Nat) (p : Pipeline) (phases : List Word) : Option Trial :=
  match p.checkPhases phases with
  | .error e => some ⟨[], .error (.misconfigured e)⟩
  | .ok () => p.chainFrom fuel 0 0 phases []

end Pipeline

end Intcode
