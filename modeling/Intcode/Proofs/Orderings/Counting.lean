import Mathlib.Algebra.BigOperators.Group.Finset.Basic
import Mathlib.Algebra.Order.BigOperators.Group.Finset
import Mathlib.Data.Nat.Choose.Multinomial
import Intcode.Proofs.Orderings.Rearrangements

/-!
# How many orderings there are

Among the rearrangements by first values, one and the same ordering occurs once for every way to
exchange equal values with each other. So the number of different orderings is the multinomial
coefficient of the multiplicities, and the factorial of the number of values if none is repeated.
-/

namespace Intcode

namespace Orderings

variable {α : Type u} [DecidableEq α]

theorem factorial_eq (n : Nat) : factorial n = n.factorial := by
  induction n with
  | zero => rfl
  | succ n ih => rw [factorial, ih, Nat.factorial_succ]

theorem count_map_cons (x y : α) (rest : List α) (L : List (List α)) :
    (L.map (y :: ·)).count (x :: rest) = if y = x then L.count rest else 0 := by
  by_cases same : y = x
  · subst same
    rw [if_pos rfl]
    exact List.count_map_of_injective L (y :: ·) (List.cons_injective) rest
  · rw [if_neg same, List.count_eq_zero]
    intro inside
    obtain ⟨w, -, equal⟩ := List.mem_map.mp inside
    exact same (List.head_eq_of_cons_eq equal)

theorem sum_map_ite_eq (x : α) (each : Nat) (values : List α) :
    (values.map fun y => if y = x then each else 0).sum = values.count x * each := by
  induction values with
  | nil => simp
  | cons y values ih =>
    rw [List.map_cons, List.sum_cons, ih, List.count_cons]
    by_cases same : y = x
    · simp [same, Nat.add_mul, Nat.add_comm]
    · simp [same]

/-- The ways to exchange equal values, when a first one has been picked from its equals. -/
theorem prod_factorial_count_erase {s : Finset α} {x : α} {values : List α} (inside : x ∈ values)
    (covered : x ∈ s) :
    values.count x * ∏ z ∈ s, ((values.erase x).count z).factorial =
      ∏ z ∈ s, (values.count z).factorial := by
  have others : ∏ z ∈ s.erase x, ((values.erase x).count z).factorial =
      ∏ z ∈ s.erase x, (values.count z).factorial := by
    refine Finset.prod_congr rfl ?_
    intro z other
    rw [List.count_erase_of_ne (Finset.ne_of_mem_erase other)]
  rw [← Finset.mul_prod_erase s _ covered, ← Finset.mul_prod_erase s _ covered, others,
    List.count_erase_self, ← Nat.mul_assoc,
    Nat.mul_factorial_pred (Nat.pos_iff_ne_zero.mp (List.count_pos_iff.mpr inside))]

theorem count_rearrangements {n : Nat} {s : Finset α} {values q : List α}
    (length : values.length = n) (covered : ∀ x ∈ values, x ∈ s) (perm : q.Perm values) :
    (rearrangements n values).count q = ∏ x ∈ s, (values.count x).factorial := by
  induction n generalizing values q with
  | zero =>
    have none : values = [] := List.length_eq_zero_iff.mp length
    subst none
    simp [rearrangements, perm.eq_nil]
  | succ n ih =>
    cases q with
    | nil =>
      rw [← perm.length_eq] at length
      cases length
    | cons x rest =>
      obtain ⟨inside, left⟩ := List.cons_perm_iff_perm_erase.mp perm
      have each : ∀ y ∈ values,
          ((rearrangements n (values.erase y)).map (y :: ·)).count (x :: rest) =
            if y = x then ∏ z ∈ s, ((values.erase x).count z).factorial else 0 := by
        intro y _
        rw [count_map_cons]
        by_cases same : y = x
        · subst same
          rw [if_pos rfl, if_pos rfl]
          refine ih (length_erase length inside) ?_ left
          intro z member
          exact covered z (List.mem_of_mem_erase member)
        · rw [if_neg same, if_neg same]
      calc (rearrangements (n + 1) values).count (x :: rest)
          = (values.map fun y =>
              ((rearrangements n (values.erase y)).map (y :: ·)).count (x :: rest)).sum := by
            rw [rearrangements, List.count_flatMap]
            rfl
        _ = (values.map fun y =>
              if y = x then ∏ z ∈ s, ((values.erase x).count z).factorial else 0).sum := by
            rw [List.map_congr_left each]
        _ = values.count x * ∏ z ∈ s, ((values.erase x).count z).factorial :=
            sum_map_ite_eq x _ values
        _ = ∏ z ∈ s, (values.count z).factorial :=
            prod_factorial_count_erase inside (covered x inside)

variable {values : List α} {L : List (List α)}

/-- Listed once each, the orderings account for all rearrangements by first values. -/
theorem length_mul_prod_factorial (once : L.Nodup) (complete : ∀ q, q ∈ L ↔ q.Perm values) :
    L.length * ∏ x ∈ values.toFinset, (values.count x).factorial = values.length.factorial := by
  have same : L.Perm (rearrangements values.length values).dedup := by
    rw [List.perm_ext_iff_of_nodup once (List.nodup_dedup _)]
    intro q
    rw [complete, List.mem_dedup, mem_rearrangements rfl]
  have each : ∀ q ∈ L, (rearrangements values.length values).count q =
      ∏ x ∈ values.toFinset, (values.count x).factorial := by
    intro q member
    exact count_rearrangements rfl (fun x inside => List.mem_toFinset.mpr inside)
      ((complete q).mp member)
  calc L.length * ∏ x ∈ values.toFinset, (values.count x).factorial
      = (L.map fun _ => ∏ x ∈ values.toFinset, (values.count x).factorial).sum := by simp
    _ = (L.map fun q => (rearrangements values.length values).count q).sum := by
        rw [List.map_congr_left each]
    _ = ((rearrangements values.length values).dedup.map fun q =>
          (rearrangements values.length values).count q).sum := (same.map _).sum_eq
    _ = (rearrangements values.length values).length := by
        -- the lemma counts by decidable equality, not by comparing value by value
        have plain : (List.instBEq : BEq (List α)) = instBEqOfDecidableEq :=
          lawful_beq_subsingleton _ _
        rw [plain]
        exact List.sum_map_count_dedup_eq_length _
    _ = values.length.factorial := by rw [length_rearrangements rfl, factorial_eq]

theorem length_eq_multinomial (once : L.Nodup) (complete : ∀ q, q ∈ L ↔ q.Perm values) :
    L.length = Nat.multinomial values.toFinset (fun x => values.count x) := by
  have spec := Nat.multinomial_spec values.toFinset fun x => values.count x
  rw [List.sum_toFinset_count_eq_length, ← length_mul_prod_factorial once complete,
    Nat.mul_comm L.length] at spec
  have positive : 0 < ∏ x ∈ values.toFinset, (values.count x).factorial :=
    Finset.prod_pos fun x _ => Nat.factorial_pos _
  exact (Nat.eq_of_mul_eq_mul_left positive spec).symm

/-- There are never more orderings than the factorial. -/
theorem length_le_factorial (once : L.Nodup) (complete : ∀ q, q ∈ L ↔ q.Perm values) :
    L.length ≤ factorial values.length := by
  rw [factorial_eq, ← length_mul_prod_factorial once complete]
  exact Nat.le_mul_of_pos_right _ (Finset.prod_pos fun x _ => Nat.factorial_pos _)

end Orderings

end Intcode
