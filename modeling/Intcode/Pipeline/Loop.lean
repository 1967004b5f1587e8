import Intcode.Pipeline.Phases

/-!
# Feedback pipelines

The stages are visited in turn, again and again. A signal goes from each stage to the next one
visited, and from the last stage to the first, until the last stage halts; its last output is the
result. A stage that has halted is passed over and takes the signal with it.
-/

namespace Intcode

/-- The loop between two visits. -/
structure Loop where
  machines : List Machine
  /-- The stage to visit next. -/
  stage : Nat := 0
  /-- The signal on its way to that stage. -/
  signal : Option Word := some 0
  /-- The latest output of the last stage. -/
  result : Option Word := none
  /-- The visits so far, the latest first. -/
  visits : List Visit := []

namespace Loop

/-- The index of the last stage. -/
def last (l : Loop) : Nat :=
  l.machines.length - 1

/-- Turns to the next stage, with the signal that it gets. -/
def turn (l : Loop) (signal : Option Word) : Loop :=
  { l with stage := (l.stage + 1) % l.machines.length, signal }

def trial (l : Loop) (result : Except PipelineError Word) : Trial :=
  ⟨l.visits.reverse, result⟩

/-- The end of the loop when the last stage has halted. -/
def finish (l : Loop) : Trial :=
  match l.result with
  | none => l.trial (.error (.noOutput l.last))
  | some value => l.trial (.ok value)

/-- What a visit leads to. -/
inductive Progress where
  | going (loop : Loop)
  | ended (trial : Trial)

/-- Takes up what a stage did in its visit: the loop has its machine already. -/
def settle (l : Loop) : Outcome → Progress
  | .output value =>
    if l.stage = l.last then .going ({ l with result := some value }.turn (some value))
    else .going (l.turn (some value))
  | .halted => if l.stage = l.last then .ended l.finish else .going (l.turn none)
  | .awaitingInput => .ended (l.trial (.error (.stalled l.stage)))

/-- Visits the next stage. -/
def visit (fuel : Nat) (l : Loop) : Option Progress :=
  match l.machines[l.stage]? with
  | none => some (.ended l.finish)
  | some m =>
    if m.isHalted then some (.going (l.turn none))
    else
      match (m.feedAll l.signal.toList).run fuel with
      | none => none
      | some (.error e, _) => some (.ended (l.trial (.error (.machine l.stage e))))
      | some (.ok outcome, m) =>
        some ({ l with
          machines := l.machines.set l.stage m
          visits := ⟨l.stage, l.signal, m.suspension outcome⟩ :: l.visits }.settle outcome)

/-- Makes up to so many visits. -/
def runFor (fuel : Nat) : Nat → Loop → Option Trial
  | 0, _ => none
  | visits + 1, l =>
    match l.visit fuel with
    | none => none
    | some (.ended trial) => some trial
    | some (.going l) => runFor fuel visits l

end Loop

namespace Pipeline

/-- The loop before its first visit. -/
def loop (p : Pipeline) (phases : List Word) : Loop :=
  { machines := phases.map p.primed }

/-- Runs the stages in a loop until the last one halts. -/
def runFeedback (fuel : Nat) (p : Pipeline) (phases : List Word) : Option Trial :=
  match p.checkPhases phases with
  | .error e => some ⟨[], .error (.misconfigured e)⟩
  | .ok () => (p.loop phases).runFor fuel fuel

end Pipeline

end Intcode
