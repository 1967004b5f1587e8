import Intcode.Text.CodePoints

/-!
# White space

The characters with the property White_Space, and trimming them off both ends of a text.
-/

namespace Intcode.Text

def blankRanges : List (Nat × Nat) :=
  [(0x9, 0xd), (0x20, 0x20), (0x85, 0x85), (0xa0, 0xa0), (0x1680, 0x1680), (0x2000, 0x200a),
    (0x2028, 0x2029), (0x202f, 0x202f), (0x205f, 0x205f), (0x3000, 0x3000)]

def isBlank (c : Char) : Bool :=
  inRanges blankRanges c.toNat

def trimStart (s : List Char) : List Char :=
  s.dropWhile isBlank

def trimEnd (s : List Char) : List Char :=
  (s.reverse.dropWhile isBlank).reverse

/-- The text without the white space at its ends. -/
def trim (s : List Char) : List Char :=
  trimEnd (trimStart s)

theorem isBlank_iff {c : Char} :
    isBlank c ↔ ∃ range ∈ blankRanges, range.1 ≤ c.toNat ∧ c.toNat ≤ range.2 := by
  have ascends : ascending blankRanges := by decide
  simp only [isBlank, inRanges_eq_any _ ascends, List.any_eq_true, Bool.and_eq_true,
    decide_eq_true_eq]

theorem isBlank_of_isWhitespace {c : Char} (h : c.isWhitespace) : isBlank c := by
  simp [Char.isWhitespace] at h
  rcases h with ((h | h) | h) | h <;> subst h <;> decide

example : (blankRanges.map fun range => range.2 + 1 - range.1).sum = 25 := by decide
example : isBlank '\u180e' = false ∧ isBlank '\u200b' = false ∧ isBlank '\u3000' := by decide

end Intcode.Text
