/-!
# Sets of code points

A set is a list of ranges in ascending order, each with both ends.
-/

namespace Intcode.Text

/-- Whether a code point lies in one of the ranges. The search ends at the first range above. -/
def inRanges : List (Nat × Nat) → Nat → Bool
  | [], _ => false
  | (lo, hi) :: ranges, n => if n < lo then false else n ≤ hi || inRanges ranges n

/-- Whether every range runs upwards and ends below the next one. -/
def ascending : List (Nat × Nat) → Bool
  | [] => true
  | [range] => range.1 ≤ range.2
  | range :: above :: ranges =>
    range.1 ≤ range.2 && range.2 < above.1 && ascending (above :: ranges)

theorem any_eq_false_of_lt (n : Nat) : ∀ (ranges : List (Nat × Nat)) (range : Nat × Nat),
    ascending (range :: ranges) → n < range.1 →
      (range :: ranges).any (fun range => range.1 ≤ n && n ≤ range.2) = false
  | [], range, _, below => by simp; omega
  | above :: ranges, range, h, below => by
    simp only [ascending, Bool.and_eq_true, decide_eq_true_eq] at h
    have later := any_eq_false_of_lt n ranges above h.2 (by omega)
    rw [List.any_cons, later]
    simp; omega

/-- In ascending ranges the search finds what any of them holds. -/
theorem inRanges_eq_any (n : Nat) : ∀ {ranges : List (Nat × Nat)}, ascending ranges →
    inRanges ranges n = ranges.any fun range => range.1 ≤ n && n ≤ range.2
  | [], _ => rfl
  | range :: ranges, h => by
    unfold inRanges
    split
    · next below => exact (any_eq_false_of_lt n ranges range h below).symm
    · next reached =>
      have rest : ascending ranges = true := by
        cases ranges with
        | nil => rfl
        | cons above ranges =>
          simp only [ascending, Bool.and_eq_true] at h
          exact h.2
      rw [inRanges_eq_any n rest, List.any_cons]
      simp [Nat.le_of_not_lt reached]

end Intcode.Text
