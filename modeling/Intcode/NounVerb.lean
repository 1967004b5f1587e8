import Intcode.Machine
import Intcode.WordRange

/-!
# Nouns and verbs

Some programs take two parameters from cells 1 and 2, the noun and the verb, and leave an answer
in cell 0 when they halt. They are run without input. A search goes through all pairs over a
range, nouns in the outer and verbs in the inner loop, for the first pair with a given answer.
-/

namespace Intcode

structure NounVerb where
  noun : Word
  verb : Word
deriving DecidableEq, Repr

namespace NounVerb

def nounAddress : Word := 1

def verbAddress : Word := 2

/-- The values tried for nouns and verbs when no range is given. -/
def defaultRange : WordRange := ⟨0, 99⟩

def answer (pair : NounVerb) : Word :=
  100 * pair.noun + pair.verb

/-- A fresh machine with the noun and the verb in place. -/
def prepare (pair : NounVerb) (p : Program) (limit : Option Nat) :
    Except MachineError Machine :=
  match (Machine.load p limit).poke nounAddress pair.noun with
  | .error e => .error e
  | .ok m => m.poke verbAddress pair.verb

/-- What a machine that was run until it halted leaves in cell 0. -/
def answerOf (course : Machine.Course) : Except MachineError Word :=
  match course.ending with
  | .error e => .error e
  | .ok () => course.machine.peek 0

/-- The value of cell 0 after the program has halted. -/
def run (fuel : Nat) (pair : NounVerb) (p : Program) (limit : Option Nat := none) :
    Option (Except MachineError Word) :=
  match pair.prepare p limit with
  | .error e => some (.error e)
  | .ok m => (m.follow fuel).map answerOf

/-- Runs with one pair, which is found if it leaves the target. A run that ends is also shown to
an observer, whose state is carried along and has no influence. -/
def attempt {σ : Type u} (observe : σ → Machine.Course → σ) (fuel : Nat) (p : Program)
    (limit : Option Nat) (target : Word) (pair : NounVerb) (seen : σ) :
    Option (Except MachineError (Option NounVerb) × σ) :=
  match pair.prepare p limit with
  | .error e => some (.error e, seen)
  | .ok m =>
    match m.follow fuel with
    | none => none
    | some course =>
      match answerOf course with
      | .error e => some (.error e, observe seen course)
      | .ok value =>
        some (.ok (if value = target then some pair else none), observe seen course)

/-- Searches with an observer of the runs. -/
def searchObserved {σ : Type u} (observe : σ → Machine.Course → σ) (seen : σ) (fuel : Nat)
    (p : Program) (target : Word) (range : WordRange) (limit : Option Nat) :
    Option (Except MachineError (Option NounVerb) × σ) :=
  range.search
    (fun noun => range.search fun verb => attempt observe fuel p limit target ⟨noun, verb⟩) seen

/-- The first pair that leaves the target in cell 0, unless a run before it fails. -/
def search (fuel : Nat) (p : Program) (target : Word) (range : WordRange)
    (limit : Option Nat := none) : Option (Except MachineError (Option NounVerb)) :=
  (searchObserved (fun _ _ => ()) () fuel p target range limit).map Prod.fst

end NounVerb

end Intcode
