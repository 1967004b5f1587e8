import Intcode.Orderings

/-!
# The successor of an ordering

Of all rearrangements of some values, the ascending one comes first in lexicographic order and the
descending one last. Any other is followed by the smallest of those that are greater: the value
before the longest descending end gives way to the smallest greater one of this end, and the rest
follows in ascending order.
-/

namespace Intcode

namespace Orderings

/-- A rearrangement starts as the list itself does, or with one of the values behind. -/
theorem front_of_perm {α : Type u} {x : α} {values q : List α} (perm : q.Perm (x :: values)) :
    (∃ rest, q = x :: rest ∧ rest.Perm values) ∨ ∃ y rest, q = y :: rest ∧ y ≠ x ∧ y ∈ values := by
  cases q with
  | nil => exact absurd perm.symm.eq_nil (List.cons_ne_nil _ _)
  | cons y rest =>
    by_cases same : y = x
    · subst same
      exact Or.inl ⟨rest, rfl, List.Perm.cons_inv perm⟩
    · have found := perm.subset List.mem_cons_self
      exact Or.inr ⟨y, rest, rfl, same, (List.mem_cons.mp found).resolve_left same⟩

theorem perm_exchanged {α : Type u} {x y : α} {descending lower greater : List α}
    (split : descending.reverse = lower ++ y :: greater) :
    (y :: (lower ++ x :: greater)).Perm (x :: descending) := by
  have swapped : (y :: (lower ++ x :: greater)).Perm (x :: (lower ++ y :: greater)) :=
    (List.perm_middle.cons y).trans ((List.Perm.swap x y _).trans (List.perm_middle.symm.cons x))
  refine swapped.trans (List.Perm.cons x ?_)
  rw [← split]
  exact descending.reverse_perm

section Order

variable {α : Type u} [LT α] [LE α] [Std.IsLinearOrder α] [Std.LawfulOrderLT α]

theorem le_of_perm_ascending {values : List α} (ascending : values.Pairwise (· ≤ ·))
    {q : List α} (perm : q.Perm values) : values ≤ q := by
  induction values generalizing q with
  | nil =>
    rw [perm.eq_nil]
    exact List.le_refl _
  | cons x values ih =>
    obtain ⟨least, rest⟩ := List.pairwise_cons.mp ascending
    rcases front_of_perm perm with ⟨q, rfl, left⟩ | ⟨y, q, rfl, other, inside⟩
    · exact List.cons_le_cons_iff.mpr (Or.inr ⟨rfl, ih rest left⟩)
    · have less := Std.lt_of_le_of_ne (least y inside) (Ne.symm other)
      exact List.cons_le_cons_iff.mpr (Or.inl less)

theorem le_of_perm_descending {values : List α} (descending : values.Pairwise (fun x y => y ≤ x))
    {q : List α} (perm : q.Perm values) : q ≤ values := by
  induction values generalizing q with
  | nil =>
    rw [perm.eq_nil]
    exact List.le_refl _
  | cons x values ih =>
    obtain ⟨greatest, rest⟩ := List.pairwise_cons.mp descending
    rcases front_of_perm perm with ⟨q, rfl, left⟩ | ⟨y, q, rfl, other, inside⟩
    · exact List.cons_le_cons_iff.mpr (Or.inr ⟨rfl, ih rest left⟩)
    · have less := Std.lt_of_le_of_ne (greatest y inside) other
      exact List.cons_le_cons_iff.mpr (Or.inl less)

/-- The smallest of the greater rearrangements. -/
structure Follows (v w : List α) : Prop where
  perm : w.Perm v
  greater : v < w
  least : ∀ q : List α, q.Perm v → v < q → w ≤ q

/-- What comes after an ordering: nothing only if it descends. -/
inductive Successor (v : List α) : Option (List α) → Prop where
  | last (descending : v.Pairwise fun x y => y ≤ x) : Successor v none
  | next {w : List α} (follows : Follows v w) : Successor v (some w)

theorem Follows.cons (x : α) {v w : List α} (follows : Follows v w) :
    Follows (x :: v) (x :: w) where
  perm := follows.perm.cons x
  greater := List.cons_lt_cons_iff.mpr (Or.inr ⟨rfl, follows.greater⟩)
  least q perm exceeds := by
    rcases front_of_perm perm with ⟨q, rfl, left⟩ | ⟨y, q, rfl, other, -⟩
    · have further : v < q := by
        simpa [List.cons_lt_cons_iff, Std.lt_irrefl] using exceeds
      exact List.cons_le_cons_iff.mpr (Or.inr ⟨rfl, follows.least q left further⟩)
    · have less : x < y := by
        simpa [List.cons_lt_cons_iff, Ne.symm other] using exceeds
      exact List.cons_le_cons_iff.mpr (Or.inl less)

theorem Follows.not_descending {v w : List α} (follows : Follows v w) :
    ¬ v.Pairwise fun x y => y ≤ x := by
  intro descending
  exact List.not_lt.mpr (le_of_perm_descending descending follows.perm) follows.greater

theorem Follows.append (before : List α) {v w : List α} (follows : Follows v w) :
    Follows (before ++ v) (before ++ w) := by
  induction before with
  | nil => exact follows
  | cons x before ih => exact ih.cons x

theorem ascending_exchanged {x y : α} {lower greater : List α}
    (ascends : (lower ++ y :: greater).Pairwise (· ≤ ·)) (below : ∀ z ∈ lower, z ≤ x)
    (above : x < y) : (lower ++ x :: greater).Pairwise (· ≤ ·) := by
  obtain ⟨lower_ascends, rest_ascends, apart⟩ := List.pairwise_append.mp ascends
  obtain ⟨least, greater_ascends⟩ := List.pairwise_cons.mp rest_ascends
  refine List.pairwise_append.mpr ⟨lower_ascends, List.pairwise_cons.mpr ⟨?_, greater_ascends⟩, ?_⟩
  · intro z inside
    exact Std.le_trans (Std.le_of_lt above) (least z inside)
  · intro low inside z found
    rcases List.mem_cons.mp found with rfl | found
    · exact below low inside
    · exact apart low inside z (List.mem_cons_of_mem y found)

/-- The values of a descending list are split at the first, from its end, that is greater than
`x`. To put that one in front of the others in ascending order is the least way to exceed `x`. -/
theorem follows_of_split {x y : α} {descending lower greater : List α}
    (descends : descending.Pairwise fun x y => y ≤ x)
    (split : descending.reverse = lower ++ y :: greater) (below : ∀ z ∈ lower, z ≤ x)
    (above : x < y) : Follows (x :: descending) (y :: (lower ++ x :: greater)) := by
  have ascends : (lower ++ y :: greater).Pairwise (· ≤ ·) := by
    rw [← split, List.pairwise_reverse]
    exact descends
  refine ⟨perm_exchanged split, List.cons_lt_cons_iff.mpr (Or.inl above), ?_⟩
  intro q perm exceeds
  rcases front_of_perm (perm.trans (perm_exchanged split).symm) with
    ⟨q, rfl, rearranged⟩ | ⟨z, q, rfl, other, inside⟩
  · have least := le_of_perm_ascending (ascending_exchanged ascends below above) rearranged
    exact List.cons_le_cons_iff.mpr (Or.inr ⟨rfl, least⟩)
  · -- what starts with `x` or with a value below it does not exceed the list
    have larger : x < z := by
      rcases List.cons_lt_cons_iff.mp exceeds with larger | ⟨rfl, further⟩
      · exact larger
      · have bound := le_of_perm_descending descends (List.Perm.cons_inv perm)
        exact absurd further (List.not_lt.mpr bound)
    refine List.cons_le_cons_iff.mpr (Or.inl (Std.lt_of_le_of_ne ?_ (Ne.symm other)))
    rcases List.mem_append.mp inside with low | high
    · exact absurd larger (Std.not_lt.mpr (below z low))
    · rcases List.mem_cons.mp high with rfl | high
      · exact absurd larger Std.lt_irrefl
      · obtain ⟨-, rest, -⟩ := List.pairwise_append.mp ascends
        exact List.rel_of_pairwise_cons rest high

end Order

theorem sort_perm {α : Type u} [LT α] [DecidableLT α] (values : List α) :
    (sort values).Perm values :=
  List.mergeSort_perm _ _

section Sorted

variable {α : Type u} [LT α] [DecidableLT α] [LE α] [Std.IsLinearOrder α] [Std.LawfulOrderLT α]

theorem sort_ascending (values : List α) : (sort values).Pairwise (· ≤ ·) := by
  rw [sort]
  refine (List.pairwise_mergeSort ?_ ?_ values).imp ?_
  · intro x y z first second
    simp only [decide_eq_true_eq, Std.not_lt] at first second ⊢
    exact Std.le_trans first second
  · intro x y
    simp only [Bool.or_eq_true, decide_eq_true_eq, Std.not_lt]
    exact Std.le_total
  · intro x y le
    exact Std.not_lt.mp (of_decide_eq_true le)

theorem sort_of_ascending {values : List α} (ascending : values.Pairwise (· ≤ ·)) :
    sort values = values :=
  List.mergeSort_of_pairwise (ascending.imp fun le => decide_eq_true (Std.not_lt.mpr le))

end Sorted

end Orderings

end Intcode
