/-!
# Orderings in lexicographic order

The orderings of a list of values, each different one once, from the sorted one to the one sorted
backwards. The next ordering is computed from the current one alone and in its place: the longest
descending end of it is sought, the value before is exchanged with the smallest greater one of this
end, and what has come behind is turned round.
-/

namespace Intcode

namespace Orderings

/-- What an index does that leaves the values. -/
inductive Stray where
  | beyond (index : Nat)
  | belowZero
deriving DecidableEq, Repr

section Values

variable {α : Type u}

def read (v : List α) (index : Nat) : Except Stray α :=
  match v[index]? with
  | none => .error (.beyond index)
  | some x => .ok x

/-- Exchanges the values at two indices. -/
def swap (v : List α) (i j : Nat) : Except Stray (List α) :=
  match read v i, read v j with
  | .error e, _ => .error e
  | _, .error e => .error e
  | .ok x, .ok y => .ok ((v.set i y).set j x)

/-- Turns round the values from an index on. -/
def reverseFrom (v : List α) (index : Nat) : Except Stray (List α) :=
  if index ≤ v.length then .ok (v.take index ++ (v.drop index).reverse)
  else .error (.beyond index)

/-- Goes down from an index for as long as the test holds there. -/
def descend (test : Nat → Except Stray Bool) (index : Nat) : Except Stray Nat :=
  match test index with
  | .error e => .error e
  | .ok false => .ok index
  | .ok true =>
    match index with
    | 0 => .error .belowZero
    | index + 1 => descend test index

end Values

variable {α : Type u} [LT α] [DecidableLT α]

/-- Whether the value at one index is not less than the one at another. -/
def notLess (v : List α) (i j : Nat) : Except Stray Bool :=
  match read v i, read v j with
  | .error e, _ => .error e
  | _, .error e => .error e
  | .ok x, .ok y => .ok (¬ x < y)

/-- Whether there is a value before an index and the one at the index is not greater. -/
def fallsTo (v : List α) : Nat → Except Stray Bool
  | 0 => .ok false
  | index + 1 => notLess v index (index + 1)

/-- Moves on to the next ordering, if there is one. The last ordering, which descends, is left as it
is. -/
def advance (v : List α) : Except Stray (Bool × List α) :=
  if v.length < 2 then .ok (false, v)
  else
    match descend (fallsTo v) (v.length - 1) with
    | .error e => .error e
    | .ok 0 => .ok (false, v)
    | .ok (pivot + 1) =>
      match descend (notLess v pivot) (v.length - 1) with
      | .error e => .error e
      | .ok least =>
        match swap v pivot least with
        | .error e => .error e
        | .ok swapped =>
          match reverseFrom swapped (pivot + 1) with
          | .error e => .error e
          | .ok next => .ok (true, next)

/-- The next ordering, or `none` after the last one. No index strays on the way to it. -/
def successor? (v : List α) : Option (List α) :=
  match advance v with
  | .ok (true, next) => some next
  | _ => none

def sort (values : List α) : List α :=
  values.mergeSort fun x y => ¬ y < x

end Orderings

/-- A position in the sequence of the orderings of some values. -/
structure Orderings (α : Type u) where
  /-- The first ordering, which is sorted. -/
  first : List α
  /-- The ordering that comes next, `none` after the last. -/
  upcoming : Option (List α)
deriving Repr

namespace Orderings

variable {α : Type u} [LT α] [DecidableLT α]

def ofList (values : List α) : Orderings α :=
  ⟨sort values, some (sort values)⟩

/-- Goes back to the first ordering. -/
def restart (o : Orderings α) : Orderings α :=
  { o with upcoming := some o.first }

/-- The next ordering and the position after it. -/
def next? (o : Orderings α) : Option (List α × Orderings α) :=
  match o.upcoming with
  | none => none
  | some current => some (current, { o with upcoming := successor? current })

/-- Takes up to so many orderings, after those taken before, which come newest first. -/
def takeFrom : Nat → List (List α) → Orderings α → List (List α) × Orderings α
  | 0, taken, o => (taken.reverse, o)
  | count + 1, taken, o =>
    match o.next? with
    | none => (taken.reverse, o)
    | some (current, o) => takeFrom count (current :: taken) o

/-- Takes up to so many orderings. -/
def take (o : Orderings α) (count : Nat) : List (List α) × Orderings α :=
  takeFrom count [] o

/-- Passes over up to so many orderings. -/
def drop : Nat → Orderings α → Orderings α
  | 0, o => o
  | count + 1, o =>
    match o.next? with
    | none => o
    | some (_, o) => drop count o

/-- Counts up to so many orderings after those counted before. -/
def countFrom : Nat → Nat → Orderings α → Nat
  | 0, counted, _ => counted
  | bound + 1, counted, o =>
    match o.next? with
    | none => counted
    | some (_, o) => countFrom bound (counted + 1) o

def factorial : Nat → Nat
  | 0 => 1
  | n + 1 => (n + 1) * factorial n

/-- The number of orderings that are still to come. There are never more than the factorial of the
number of values. -/
def count (o : Orderings α) : Nat :=
  o.countFrom (factorial o.first.length) 0

/-- All orderings that are still to come. -/
def toList (o : Orderings α) : List (List α) :=
  (o.take (factorial o.first.length)).1

example : (ofList [3, 1, 2, 1]).count = 12 := by cbv
example : (ofList [2, 0, 1]).toList =
    [[0, 1, 2], [0, 2, 1], [1, 0, 2], [1, 2, 0], [2, 0, 1], [2, 1, 0]] := by cbv

end Orderings

end Intcode
