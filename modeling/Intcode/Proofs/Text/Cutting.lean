import Intcode.Text.Split
import Mathlib.Data.List.Infix

/-!
# Cutting at a separator

A text that has a separator in it is cut where the separator first occurs. Where that is does not
depend on what follows, so a text is cut as it was put together if the separator cannot begin inside
its first part. A second occurrence is left in the second part.
-/

namespace Intcode.Text

/-- The separator occurs in the text, and these parts are before and after its first occurrence. -/
structure CutsAt (separator s before after : List Char) : Prop where
  split : s = before ++ separator ++ after
  first : ∀ earlier later, s = earlier ++ separator ++ later → before.length ≤ earlier.length

/-- The separator occurs twice in the text. -/
def OccursTwice (separator s : List Char) : Prop :=
  ∃ before between after, s = before ++ separator ++ between ++ separator ++ after

variable {separator s before after : List Char} {c : Char}

theorem cutsAt_nil_iff : CutsAt separator [] before after ↔
    separator = [] ∧ before = [] ∧ after = [] := by
  constructor
  · rintro ⟨split, -⟩
    simpa [and_assoc, and_comm, and_left_comm] using split
  · rintro ⟨rfl, rfl, rfl⟩
    exact ⟨rfl, fun _ _ _ => Nat.zero_le _⟩

/-- A text that starts with the separator is cut there. -/
theorem cutsAt_append_iff {rest : List Char} : CutsAt separator (separator ++ rest) before after ↔
    before = [] ∧ after = rest := by
  constructor
  · rintro ⟨split, first⟩
    obtain rfl : before = [] :=
      List.length_eq_zero_iff.mp (Nat.le_zero.mp (first [] rest rfl))
    exact ⟨rfl, (List.append_cancel_left split).symm⟩
  · rintro ⟨rfl, rfl⟩
    exact ⟨rfl, fun _ _ _ => Nat.zero_le _⟩

/-- A text that does not is cut where the rest of it is. -/
theorem cutsAt_cons_iff {rest : List Char} (elsewhere : ¬ separator <+: c :: rest) :
    CutsAt separator (c :: rest) before after ↔
      ∃ front, before = c :: front ∧ CutsAt separator rest front after := by
  constructor
  · rintro ⟨split, first⟩
    cases before with
    | nil => exact absurd ⟨after, split.symm⟩ elsewhere
    | cons head front =>
      obtain ⟨rfl, rest_split⟩ := List.cons_eq_cons.mp split
      refine ⟨front, rfl, rest_split, fun earlier later other => ?_⟩
      exact Nat.le_of_succ_le_succ (first (c :: earlier) later (congrArg (c :: ·) other))
  · rintro ⟨front, rfl, split, first⟩
    refine ⟨congrArg (c :: ·) split, fun earlier later other => ?_⟩
    cases earlier with
    | nil => exact absurd ⟨later, other.symm⟩ elsewhere
    | cons head earlier =>
      obtain ⟨rfl, rest_other⟩ := List.cons_eq_cons.mp other
      exact Nat.succ_le_succ (first earlier later rest_other)

theorem cut?_eq_some_iff :
    cut? separator s = some (before, after) ↔ CutsAt separator s before after := by
  induction s generalizing before with
  | nil =>
    rw [cutsAt_nil_iff, cut?]
    cases separator with
    | nil =>
      constructor
      · intro cut
        cases cut
        exact ⟨rfl, rfl, rfl⟩
      · rintro ⟨-, rfl, rfl⟩
        rfl
    | cons c separator => simp
  | cons c rest ih =>
    rw [cut?]
    by_cases starts : separator <+: c :: rest
    · obtain ⟨behind, whole⟩ := starts
      rw [← whole, cutsAt_append_iff, List.isPrefixOf_iff_prefix.mpr ⟨behind, rfl⟩, if_pos rfl,
        List.drop_left]
      simp [eq_comm]
    · rw [cutsAt_cons_iff starts, if_neg (by rwa [List.isPrefixOf_iff_prefix])]
      cases cut : cut? separator rest with
      | none => simp [← ih, cut]
      | some parts => simp [← ih, cut, Prod.ext_iff, eq_comm]

/-- If the separator cannot begin in the first part, that part is what is cut off. -/
theorem CutsAt.of_not_mem {rest : List Char} (absent : c ∉ before) (after : List Char) :
    CutsAt (c :: rest) (before ++ (c :: rest) ++ after) before after := by
  refine ⟨rfl, fun earlier later other => ?_⟩
  apply Nat.le_of_not_lt
  intro short
  -- an earlier separator would begin in the first part
  have here : (before ++ (c :: rest) ++ after)[earlier.length]? = some c := by
    rw [other]
    simp
  rw [List.append_assoc, List.getElem?_append_left short] at here
  exact absent (List.mem_of_getElem? here)

/-- Only the first occurrence is cut away: another one is left behind. -/
theorem CutsAt.mem_of_occursTwice (cuts : CutsAt separator s before after)
    (twice : OccursTwice separator s) (inside : c ∈ separator) : c ∈ after := by
  obtain ⟨split, first⟩ := cuts
  obtain ⟨earlier, between, later, whole⟩ := twice
  have front : before.length ≤ earlier.length :=
    first earlier (between ++ separator ++ later) (by simp [whole])
  have tail : separator ++ later <:+ after := by
    refine List.suffix_of_suffix_length_le
      ⟨earlier ++ separator ++ between, by simp [whole]⟩ ⟨_, split.symm⟩ ?_
    have same := congrArg List.length (split.symm.trans whole)
    simp only [List.length_append] at same ⊢
    omega
  exact tail.subset (List.mem_append_left later inside)

end Intcode.Text
