/-!
# Cutting texts

At every occurrence of a character, or at the first occurrence of a separator.
-/

namespace Intcode.Text

/-- Puts a character in front of pieces: a separator starts a new piece, any other character
belongs to the first. -/
def consPiece (separator c : Char) : List (List Char) → List (List Char)
  | [] => if c = separator then [[], []] else [[c]]
  | piece :: more => if c = separator then [] :: piece :: more else (c :: piece) :: more

/-- The pieces between the occurrences of a character: one more than there are occurrences. -/
def pieces (separator : Char) (s : List Char) : List (List Char) :=
  s.foldr (consPiece separator) [[]]

/-- What stands before and after the first occurrence of a separator, if there is one. -/
def cut? (separator : List Char) : List Char → Option (List Char × List Char)
  | [] => if separator.isEmpty then some ([], []) else none
  | c :: rest =>
    if separator.isPrefixOf (c :: rest) then some ([], (c :: rest).drop separator.length)
    else
      match cut? separator rest with
      | none => none
      | some (before, after) => some (c :: before, after)

theorem length_pieces (separator : Char) (s : List Char) :
    (pieces separator s).length = s.count separator + 1 := by
  unfold pieces
  induction s with
  | nil => rfl
  | cons c rest ih =>
    rw [List.foldr_cons]
    cases tail : rest.foldr (consPiece separator) [[]] with
    | nil => simp [tail] at ih
    | cons piece more =>
      by_cases same : c = separator
      · simp [consPiece, same, ← ih, tail]
      · simp [consPiece, same, ← ih, tail]

example : cut? ['.', '.', '='] "1...=2..=3".toList = some ("1.".toList, "2..=3".toList) := by decide

end Intcode.Text
