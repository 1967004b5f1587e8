import Intcode.Orderings

/-!
# Rearrangements

All rearrangements of some values, by their first values. There are as many as the factorial of the
number of values, and no two are equal if no value is repeated.
-/

namespace Intcode

namespace Orderings

variable {α : Type u} [DecidableEq α]

/-- The rearrangements of so many values. -/
def rearrangements : Nat → List α → List (List α)
  | 0, _ => [[]]
  | n + 1, values => values.flatMap fun x => (rearrangements n (values.erase x)).map (x :: ·)

theorem length_erase {n : Nat} {x : α} {values : List α} (count : values.length = n + 1)
    (inside : x ∈ values) : (values.erase x).length = n := by
  rw [List.length_erase_of_mem inside, count, Nat.add_sub_cancel]

theorem mem_rearrangements {n : Nat} {values : List α} (count : values.length = n) (q : List α) :
    q ∈ rearrangements n values ↔ q.Perm values := by
  induction n generalizing values q with
  | zero =>
    rw [List.length_eq_zero_iff.mp count, rearrangements, List.mem_singleton, List.perm_nil]
  | succ n ih =>
    simp only [rearrangements, List.mem_flatMap, List.mem_map]
    constructor
    · rintro ⟨x, inside, rest, found, rfl⟩
      have left := (ih (length_erase count inside) rest).mp found
      exact List.cons_perm_iff_perm_erase.mpr ⟨inside, left⟩
    · intro perm
      cases q with
      | nil =>
        rw [← perm.length_eq] at count
        cases count
      | cons x rest =>
        obtain ⟨inside, left⟩ := List.cons_perm_iff_perm_erase.mp perm
        exact ⟨x, inside, rest, (ih (length_erase count inside) rest).mpr left, rfl⟩

theorem nodup_rearrangements (n : Nat) {values : List α} (distinct : values.Nodup) :
    (rearrangements n values).Nodup := by
  induction n generalizing values with
  | zero => exact List.nodup_cons.mpr ⟨List.not_mem_nil, List.nodup_nil⟩
  | succ n ih =>
    rw [rearrangements, List.nodup_iff_pairwise_ne, List.pairwise_flatMap]
    constructor
    · intro x _
      rw [List.pairwise_map]
      refine (List.nodup_iff_pairwise_ne.mp (ih (distinct.erase x))).imp fun other same => ?_
      exact other (List.tail_eq_of_cons_eq same)
    · refine (List.nodup_iff_pairwise_ne.mp distinct).imp fun other v inside w found same => ?_
      obtain ⟨_, _, rfl⟩ := List.mem_map.mp inside
      obtain ⟨_, _, rfl⟩ := List.mem_map.mp found
      exact other (List.head_eq_of_cons_eq same)

theorem length_rearrangements {n : Nat} {values : List α} (count : values.length = n) :
    (rearrangements n values).length = factorial n := by
  induction n generalizing values with
  | zero => rfl
  | succ n ih =>
    have each : values.map (fun x => ((rearrangements n (values.erase x)).map (x :: ·)).length) =
        values.map fun _ => factorial n := by
      refine List.map_congr_left fun x inside => ?_
      rw [List.length_map, ih (length_erase count inside)]
    rw [rearrangements, List.length_flatMap, each, List.map_const', List.sum_replicate_nat, count,
      factorial]

end Orderings

end Intcode
