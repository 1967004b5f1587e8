import Intcode.Orderings
import Intcode.Pipeline.Chain
import Intcode.Pipeline.Loop
import Intcode.Pipeline.Ring

/-!
# Phase searches

A search tries every ordering of a range of phases, in lexicographic order and each on fresh
machines, and keeps the strongest signal. Of equal signals the first is kept, and the first trial
that fails ends the search.
-/

namespace Intcode

/-- How the stages of a pipeline are driven. -/
inductive Drive where
  | linear
  | feedback
  | concurrent
deriving DecidableEq, Repr

namespace Drive

def ofWiring : Wiring → Drive
  | .linear => linear
  | .feedback => feedback

def wiring : Drive → Wiring
  | linear => .linear
  | feedback | concurrent => .feedback

end Drive

/-- Runs a pipeline with given phases. -/
def Pipeline.run (fuel : Nat) (p : Pipeline) (drive : Drive) (phases : List Word) :
    Option Trial :=
  match drive with
  | .linear => p.runLinear fuel phases
  | .feedback => p.runFeedback fuel phases
  | .concurrent => p.runConcurrent fuel phases

/-- The result of a search. -/
structure PhaseSearch where
  signal : Word
  phases : List Word
  trials : Nat
deriving DecidableEq, Repr

/-- The best of the trials so far. -/
structure Best where
  top : Option (Word × List Word) := none
  trials : Nat := 0
deriving DecidableEq, Repr

namespace Best

/-- Takes in a trial, which replaces the best one only if its signal is stronger. -/
def record (b : Best) (signal : Word) (phases : List Word) : Best :=
  match b.top with
  | none => ⟨some (signal, phases), b.trials + 1⟩
  | some (top, _) =>
    if top < signal then ⟨some (signal, phases), b.trials + 1⟩
    else { b with trials := b.trials + 1 }

def finish (b : Best) : Except PipelineError PhaseSearch :=
  match b.top with
  | none => .error (.misconfigured .noOrderings)
  | some (signal, phases) => .ok ⟨signal, phases, b.trials⟩

end Best

namespace Pipeline

/-- Makes up to so many trials, one for each ordering to come. Every trial that ends is also shown
to an observer, whose state is carried along and has no influence. -/
def searchFrom {σ : Type u} (observe : σ → List Word → Trial → σ)
    (trial : List Word → Option Trial) :
    Nat → Orderings Word → Best → σ → Option (Except PipelineError PhaseSearch × σ)
  | 0, _, _, _ => none
  | more + 1, orderings, best, seen =>
    match orderings.next? with
    | none => some (best.finish, seen)
    | some (phases, orderings) =>
      match trial phases with
      | none => none
      | some t =>
        let seen := observe seen phases t
        match t.result with
        | .error e => some (.error (.trialFailed phases e), seen)
        | .ok signal => searchFrom observe trial more orderings (best.record signal phases) seen

/-- Searches with an observer of the trials. -/
def searchObserved {σ : Type u} (observe : σ → List Word → Trial → σ) (seen : σ) (fuel : Nat)
    (p : Pipeline) (drive : Drive) (candidates : WordRange) :
    Option (Except PipelineError PhaseSearch × σ) :=
  match p.checkCandidates candidates with
  | .error e => some (.error (.misconfigured e), seen)
  | .ok () =>
    searchFrom observe (p.run fuel drive) fuel (Orderings.ofList candidates.values) {} seen

/-- The phases with the strongest signal. -/
def search (fuel : Nat) (p : Pipeline) (drive : Drive) (candidates : WordRange) :
    Option (Except PipelineError PhaseSearch) :=
  (p.searchObserved (fun _ _ _ => ()) () fuel drive candidates).map Prod.fst

end Pipeline

end Intcode
