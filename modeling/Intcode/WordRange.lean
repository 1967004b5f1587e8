import Intcode.Word

/-!
# Ranges of words

All words from one end to the other, both included. A range whose upper end is the lower one is
empty.
-/

namespace Intcode

structure WordRange where
  lo : Word
  hi : Word
deriving DecidableEq, Repr

namespace WordRange

def contains (r : WordRange) (w : Word) : Bool :=
  r.lo ≤ w && w ≤ r.hi

/-- The number of words in the range. -/
def size (r : WordRange) : Nat :=
  (r.hi.toInt - r.lo.toInt + 1).toNat

/-- As many words as asked for, in ascending order from the first. -/
def ascending : Nat → Word → List Word
  | 0, _ => []
  | count + 1, w => w :: ascending count (w + 1)

/-- The words of the range in ascending order. -/
def values (r : WordRange) : List Word :=
  ascending r.size r.lo

def render (r : WordRange) : String :=
  s!"{r.lo.render}..={r.hi.render}"

/-- Tries so many words in ascending order until one gives an answer, fails or does not return.
What the trials carry along is passed from each to the next. -/
def searchFrom {ε : Type u} {α : Type v} {σ : Type w}
    (f : Word → σ → Option (Except ε (Option α) × σ)) :
    Nat → Word → σ → Option (Except ε (Option α) × σ)
  | 0, _, seen => some (.ok none, seen)
  | count + 1, w, seen =>
    match f w seen with
    | some (.ok none, seen) => searchFrom f count (w + 1) seen
    | found => found

/-- The first answer over the range, in ascending order. -/
def search {ε : Type u} {α : Type v} {σ : Type w} (r : WordRange)
    (f : Word → σ → Option (Except ε (Option α) × σ)) (seen : σ) :
    Option (Except ε (Option α) × σ) :=
  searchFrom f r.size r.lo seen

end WordRange

end Intcode
