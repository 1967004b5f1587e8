import Intcode.Proofs.Orderings.Advance
import Intcode.Proofs.Orderings.Rearrangements

/-!
# The orderings listed

From an ordering on, a position yields every rearrangement that is not smaller, each once and in
ascending order, and then ends. From the sorted one these are all rearrangements: as many as the
factorial of the number of values, if no value is repeated.
-/

namespace Intcode

namespace Orderings

/-- The position gives these orderings, one after the other, and no more. -/
inductive Yields {α : Type u} [LT α] [DecidableLT α] : Orderings α → List (List α) → Prop where
  | done {o : Orderings α} (ended : o.next? = none) : Yields o []
  | next {o later : Orderings α} {v : List α} {L : List (List α)}
      (gives : o.next? = some (v, later)) (rest : Yields later L) : Yields o (v :: L)

/-- All rearrangements of some values in ascending order. -/
structure Lists {α : Type u} [LT α] (values : List α) (L : List (List α)) : Prop where
  ascending : L.Pairwise (· < ·)
  complete : ∀ q, q ∈ L ↔ q.Perm values

/-- All of them from an ordering on. -/
structure ListsFrom {α : Type u} [LT α] (v : List α) (L : List (List α)) : Prop where
  ascending : L.Pairwise (· < ·)
  complete : ∀ q, q ∈ L ↔ q.Perm v ∧ v ≤ q

variable {α : Type u} [LT α] [LE α] [Std.IsLinearOrder α] [Std.LawfulOrderLT α]

theorem listsFrom_last {v : List α} (descending : v.Pairwise fun x y => y ≤ x) :
    ListsFrom v [v] where
  ascending := List.pairwise_singleton _ v
  complete q := by
    rw [List.mem_singleton]
    constructor
    · rintro rfl
      exact ⟨List.Perm.refl q, List.le_refl q⟩
    · rintro ⟨perm, above⟩
      exact List.le_antisymm (le_of_perm_descending descending perm) above

theorem Follows.listsFrom {v w : List α} (follows : Follows v w) {L : List (List α)}
    (rest : ListsFrom w L) : ListsFrom v (v :: L) where
  ascending := by
    refine List.pairwise_cons.mpr ⟨fun q inside => ?_, rest.ascending⟩
    obtain ⟨-, above⟩ := (rest.complete q).mp inside
    exact Std.lt_of_lt_of_le follows.greater above
  complete q := by
    rw [List.mem_cons, rest.complete]
    constructor
    · rintro (rfl | ⟨perm, above⟩)
      · exact ⟨List.Perm.refl q, List.le_refl q⟩
      · exact ⟨perm.trans follows.perm,
          List.le_of_lt (Std.lt_of_lt_of_le follows.greater above)⟩
    · rintro ⟨perm, above⟩
      by_cases same : q = v
      · exact Or.inl same
      · have greater : v < q := Std.lt_of_le_of_ne above (Ne.symm same)
        exact Or.inr ⟨perm.trans follows.perm.symm, follows.least q perm greater⟩

omit [Std.IsLinearOrder α] in
/-- Every value being different, so is every ordering. -/
theorem Lists.length {values : List α} {L : List (List α)} (lists : Lists values L)
    (distinct : values.Nodup) : L.length = factorial values.length := by
  classical
  have once : L.Nodup := lists.ascending.imp fun less same => by
    rw [same] at less
    exact List.lt_irrefl _ less
  have same : L.Perm (rearrangements values.length values) := by
    rw [List.perm_ext_iff_of_nodup once (nodup_rearrangements _ distinct)]
    intro q
    rw [lists.complete, mem_rearrangements rfl]
  rw [same.length_eq, length_rearrangements rfl]

variable [DecidableLT α]

/-- The orderings to come are listed by induction on a pool that holds all greater ones. -/
theorem yields_from (first : List α) (pool : List (List α)) (v : List α)
    (holds : ∀ q : List α, q.Perm v → v < q → q ∈ pool) :
    ∃ L, Yields ⟨first, some v⟩ L ∧ ListsFrom v L := by
  classical
  induction size : pool.length using Nat.strongRecOn generalizing pool v with
  | ind n ih =>
    have gives : (⟨first, some v⟩ : Orderings α).next? = some (v, ⟨first, successor? v⟩) := rfl
    have follows := successor_successor? v
    generalize successor? v = after at gives follows
    cases follows with
    | last descending => exact ⟨[v], .next gives (.done rfl), listsFrom_last descending⟩
    | @next w follows =>
      have inside : w ∈ pool := holds w follows.perm follows.greater
      have fewer : (pool.filter fun q => decide (w < q)).length < n := by
        rw [← size, List.length_filter_lt_length_iff_exists]
        exact ⟨w, inside, by simp [List.lt_irrefl]⟩
      have still : ∀ q : List α, q.Perm w → w < q → q ∈ pool.filter fun q => decide (w < q) := by
        intro q perm above
        have found := holds q (perm.trans follows.perm) (Std.lt_trans follows.greater above)
        exact List.mem_filter.mpr ⟨found, decide_eq_true above⟩
      obtain ⟨L, yields, lists⟩ := ih _ fewer _ w still rfl
      exact ⟨v :: L, .next gives yields, follows.listsFrom lists⟩

/-- A fresh position yields all orderings. -/
theorem yields_ofList (values : List α) : ∃ L, Yields (ofList values) L ∧ Lists values L := by
  classical
  obtain ⟨L, yields, lists⟩ := yields_from (sort values)
    (rearrangements (sort values).length (sort values)) (sort values)
    (fun q perm _ => (mem_rearrangements rfl q).mpr perm)
  refine ⟨L, yields, lists.ascending, fun q => ?_⟩
  rw [lists.complete]
  constructor
  · rintro ⟨perm, -⟩
    exact perm.trans (sort_perm values)
  · intro perm
    have rearranged := perm.trans (sort_perm values).symm
    exact ⟨rearranged, le_of_perm_ascending (sort_ascending values) rearranged⟩

end Orderings

end Intcode
