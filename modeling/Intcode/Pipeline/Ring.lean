import Intcode.Pipeline.Phases

/-!
# Concurrent feedback pipelines

The stages run on their own, joined in a ring by queues: each one takes its inputs from its inbox
and sends its outputs to the inbox of the next, the last stage to the first. Every inbox starts
with the phase of its stage, and the first also holds the signal zero. A stage that needs an input
waits while its inbox is empty, and fails if the stage before it has finished by then. What is sent
to a finished stage is lost.

`advance` is one move of one stage, and the moves can come in any order. `runFor` picks one: each
move is made by the first stage that can.
-/

namespace Intcode

/-- The way a stage finished: with its last output, if it had one, or with an error. -/
abbrev StageResult := Except PipelineError (Option Word)

/-- What a stage is about to do. -/
inductive Activity where
  | run
  | receive
  | finished (result : StageResult)

structure Stage where
  machine : Machine
  inbox : List Word
  activity : Activity := .run
  /-- The outputs so far, the latest first. -/
  outputs : List Word := []

namespace Stage

def result? (s : Stage) : Option StageResult :=
  match s.activity with
  | .finished result => some result
  | _ => none

def isFinished (s : Stage) : Bool :=
  s.result?.isSome

/-- The inbox of a finished stage takes nothing. -/
def deliver (value : Word) (s : Stage) : Stage :=
  if s.isFinished then s else { s with inbox := s.inbox ++ [value] }

/-- A stage that finishes drops what its inbox still holds. -/
def finish (s : Stage) (result : StageResult) : Stage :=
  { s with activity := .finished result, inbox := [] }

end Stage

structure Ring where
  stages : List Stage

namespace Ring

def size (r : Ring) : Nat :=
  r.stages.length

/-- The index of the stage that a stage sends to. -/
def after (r : Ring) (i : Nat) : Nat :=
  (i + 1) % r.size

/-- The index of the stage that a stage receives from. -/
def before (r : Ring) (i : Nat) : Nat :=
  (i + (r.size - 1)) % r.size

/-- Whether nothing more can arrive at a stage than what its inbox holds. -/
def closed (r : Ring) (i : Nat) : Bool :=
  match r.stages[r.before i]? with
  | none => true
  | some s => s.isFinished

def put (r : Ring) (i : Nat) (s : Stage) : Ring :=
  ⟨r.stages.set i s⟩

def send (r : Ring) (i : Nat) (value : Word) : Ring :=
  ⟨r.stages.modify (r.after i) (Stage.deliver value)⟩

/-- A move of a stage: the ring after it, and the suspension that ended its run if it ran. -/
structure Move where
  ring : Ring
  suspension : Option Machine.Suspension := none

/-- The move of a stage after its machine has suspended. -/
def settle (r : Ring) (i : Nat) (s : Stage) : Outcome → Ring
  | .output value => (r.put i { s with outputs := value :: s.outputs }).send i value
  | .awaitingInput => r.put i { s with activity := .receive }
  | .halted => r.put i (s.finish (.ok s.outputs.head?))

/-- The next move of a stage. There is none if it has finished, if it has to wait, or if its
machine runs for longer than the fuel lasts. -/
def advance (fuel : Nat) (r : Ring) (i : Nat) : Option Move :=
  match r.stages[i]? with
  | none => none
  | some s =>
    match s.activity with
    | .finished _ => none
    | .run =>
      match s.machine.run fuel with
      | none => none
      | some (.error e, machine) =>
        some ⟨r.put i ({ s with machine }.finish (.error (.machine i e))), none⟩
      | some (.ok outcome, machine) =>
        some ⟨r.settle i { s with machine } outcome, some (machine.suspension outcome)⟩
    | .receive =>
      match s.inbox with
      | value :: inbox =>
        some ⟨r.put i { s with machine := s.machine.feed value, inbox, activity := .run }, none⟩
      | [] =>
        if r.closed i then some ⟨r.put i (s.finish (.error (.inputClosed i))), none⟩ else none

/-- One move of some stage leads from a ring to another. -/
def Step (i : Nat) (r s : Ring) : Prop :=
  ∃ fuel move, r.advance fuel i = some move ∧ move.ring = s

/-- Moves of the stages listed, in that order, lead from a ring to another. -/
inductive Steps : List Nat → Ring → Ring → Prop where
  | done (r : Ring) : Steps [] r r
  | move {i : Nat} {order : List Nat} {r s t : Ring} :
      Step i r s → Steps order s t → Steps (i :: order) r t

/-- A stage that has to wait for an input. -/
def Blocked (r : Ring) (i : Nat) : Prop :=
  ∃ s, r.stages[i]? = some s ∧ s.activity = .receive ∧ s.inbox = [] ∧ r.closed i = false

/-- The results of the stages, if all have finished. -/
def results? (r : Ring) : Option (List StageResult) :=
  r.stages.mapM Stage.result?

/-- The result of a ring from the results of its stages, from a stage on: `closed` is the first
stage before that failed for lack of input, and `signal` the last output of the stage before. -/
def collectFrom : Nat → Option Nat → Option Word → List StageResult → Except PipelineError Word
  | stage, none, none, [] => .error (.noOutput (stage - 1))
  | _, none, some signal, [] => .ok signal
  | _, some stage, _, [] => .error (.inputClosed stage)
  | stage, closed, signal, .error (.inputClosed _) :: results =>
    collectFrom (stage + 1) (closed.or (some stage)) signal results
  | _, _, _, .error e :: _ => .error e
  | stage, closed, _, .ok last :: results => collectFrom (stage + 1) closed last results

/-- The first failure counts, one for lack of input only if there is no other; without a failure
the last output of the last stage. -/
def collect (results : List StageResult) : Except PipelineError Word :=
  collectFrom 0 none none results

/-- The first stage that can move, and its move. -/
def firstMove (fuel : Nat) (r : Ring) : Option (Nat × Move) :=
  (List.range r.size).findSome? fun i => (r.advance fuel i).map fun move => (i, move)

/-- Makes up to so many moves, each of the first stage that can, until all stages have finished. -/
def runFor (fuel : Nat) : Nat → Ring → List Visit → Option (List Visit × List StageResult)
  | 0, _, _ => none
  | moves + 1, r, visits =>
    match r.results? with
    | some results => some (visits.reverse, results)
    | none =>
      match r.firstMove fuel with
      | none => none
      | some (_, ⟨r, none⟩) => runFor fuel moves r visits
      | some (i, ⟨r, some suspension⟩) =>
        runFor fuel moves r (⟨i, none, suspension⟩ :: visits)

end Ring

namespace Pipeline

/-- The ring before its first move. -/
def ring (p : Pipeline) (phases : List Word) : Ring :=
  let stages := phases.map fun phase => { machine := p.machine, inbox := [phase] : Stage }
  ⟨stages.modify 0 (Stage.deliver 0)⟩

/-- Runs the stages concurrently until all have finished. -/
def runConcurrent (fuel : Nat) (p : Pipeline) (phases : List Word) : Option Trial :=
  match p.checkPhases phases with
  | .error e => some ⟨[], .error (.misconfigured e)⟩
  | .ok () =>
    ((p.ring phases).runFor fuel fuel []).map fun (visits, results) =>
      ⟨visits, Ring.collect results⟩

end Pipeline

end Intcode
