import Intcode.Proofs.Orderings.Counting
import Intcode.Proofs.Orderings.Listing
import Intcode.Word

/-!
# Positions as cursors

A position among the orderings is used by asking for the next one and by going back to the first. In
whatever order this is done, the answers are those of a cursor into the list of all rearrangements,
which has come to its end once there is nothing behind it and stays there until it is set back.
-/

namespace Intcode

namespace Orderings

/-- What is done with a position. -/
inductive Use where
  | next
  | restart
deriving DecidableEq, Repr

section Answers

variable {α : Type u} [LT α] [DecidableLT α]

/-- Uses a position time and again. Only `next` is answered, at the end by `none`. -/
def useAll : List Use → Orderings α → List (Option (List α)) × Orderings α
  | [], o => ([], o)
  | .restart :: uses, o => useAll uses o.restart
  | .next :: uses, o =>
    match o.next? with
    | none => (none :: (useAll uses o).1, (useAll uses o).2)
    | some (current, o) => (some current :: (useAll uses o).1, (useAll uses o).2)

/-- What a cursor into a list answers, from an index on. -/
def cursor (L : List (List α)) : List Use → Nat → List (Option (List α))
  | [], _ => []
  | .restart :: uses, _ => cursor L uses 0
  | .next :: uses, index => L[index]? :: cursor L uses (index + 1)

variable {o later : Orderings α} {v : List α} {L : List (List α)} {values : List α}

theorem first_of_next? (gives : o.next? = some (v, later)) : later.first = o.first := by
  unfold next? at gives
  split at gives <;> cases gives
  rfl

theorem restart_eq_ofList (same : o.first = sort values) : o.restart = ofList values := by
  simp only [restart, ofList, same]

/-- A position that is as far as a cursor answers as the cursor does. -/
theorem Yields.useAll {index : Nat} (whole : Yields (ofList values) L)
    (rest : Yields o (L.drop index)) (same : o.first = sort values) (uses : List Use) :
    (Orderings.useAll uses o).1 = cursor L uses index ∧
      (Orderings.useAll uses o).2.first = sort values := by
  induction uses generalizing o index with
  | nil => exact ⟨rfl, same⟩
  | cons use uses ih =>
    cases use with
    | restart =>
      simp only [Orderings.useAll, cursor]
      rw [restart_eq_ofList same]
      exact ih whole rfl
    | next =>
      simp only [Orderings.useAll, cursor]
      generalize left : L.drop index = remaining at rest
      cases rest with
      | done ended =>
        have beyond : L.length ≤ index := List.drop_eq_nil_iff.mp left
        have still : Yields o (L.drop (index + 1)) := by
          rw [List.drop_eq_nil_of_le (by omega)]
          exact .done ended
        obtain ⟨answers, first⟩ := ih still same
        simp only [ended, answers, first, List.getElem?_eq_none beyond, and_self]
      | @next _ later v M gives onward =>
        have here : L[index]? = some v := by
          rw [← List.head?_drop, left, List.head?_cons]
        have behind : Yields later (L.drop (index + 1)) := by
          rw [← List.tail_drop, left]
          exact onward
        obtain ⟨answers, first⟩ := ih behind ((first_of_next? gives).trans same)
        simp only [gives, answers, first, here, and_self]

theorem Yields.takeFrom {count : Nat} (yields : Yields o L) (enough : L.length ≤ count)
    (taken : List (List α)) : (Orderings.takeFrom count taken o).1 = taken.reverse ++ L := by
  induction yields generalizing count taken with
  | done ended =>
    cases count with
    | zero => simp [Orderings.takeFrom]
    | succ count => simp [Orderings.takeFrom, ended]
  | @next o later v L gives rest ih =>
    rw [List.length_cons] at enough
    obtain ⟨count, rfl⟩ : ∃ k, count = k + 1 := ⟨count - 1, by omega⟩
    simp only [Orderings.takeFrom, gives]
    rw [ih (by omega)]
    simp

theorem Yields.countFrom {bound : Nat} (yields : Yields o L) (enough : L.length ≤ bound)
    (counted : Nat) : Orderings.countFrom bound counted o = counted + L.length := by
  induction yields generalizing bound counted with
  | done ended =>
    cases bound with
    | zero => simp [Orderings.countFrom]
    | succ bound => simp [Orderings.countFrom, ended]
  | @next o later v L gives rest ih =>
    rw [List.length_cons] at enough ⊢
    obtain ⟨bound, rfl⟩ : ∃ k, bound = k + 1 := ⟨bound - 1, by omega⟩
    simp only [Orderings.countFrom, gives]
    rw [ih (by omega)]
    omega

theorem Yields.head? (yields : Yields (ofList values) L) : L.head? = some (sort values) := by
  cases yields with
  | done ended => cases ended
  | next gives =>
    cases gives
    rfl

end Answers

section Order

variable {α : Type u} [LT α] {L : List (List α)}

theorem nodup_of_ascending [Std.Irrefl fun x y : α => x < y] (ascending : L.Pairwise (· < ·)) :
    L.Nodup := by
  refine ascending.imp ?_
  intro v w less same
  rw [same] at less
  exact List.lt_irrefl _ less

/-- In an ascending list the greatest member comes last. -/
theorem getLast?_of_ascending (ascending : L.Pairwise (· < ·)) {w : List α} (inside : w ∈ L)
    (greatest : ∀ q ∈ L, q ≤ w) : L.getLast? = some w := by
  obtain ⟨before, last, rfl⟩ : ∃ before last, L = before ++ [last] := by
    rcases L.eq_nil_or_concat with rfl | ⟨before, last, rfl⟩
    · cases inside
    · exact ⟨before, last, List.concat_eq_append⟩
  rw [List.getLast?_append, List.getLast?_singleton]
  rcases List.mem_append.mp inside with early | late
  · obtain ⟨-, -, apart⟩ := List.pairwise_append.mp ascending
    have less : w < last := apart w early last List.mem_cons_self
    exact absurd less (List.not_lt.mpr (greatest last (by simp)))
  · rw [List.mem_singleton.mp late]
    rfl

end Order

variable {α : Type u} [LT α] [LE α] [Std.IsLinearOrder α] [Std.LawfulOrderLT α] [DecidableLT α]

theorem Lists.getLast? {values : List α} {L : List (List α)} (lists : Lists values L) :
    L.getLast? = some (sort values).reverse := by
  have perm : (sort values).reverse.Perm values :=
    (List.reverse_perm _).trans (sort_perm values)
  have descending : (sort values).reverse.Pairwise fun x y => y ≤ x :=
    List.pairwise_reverse.mpr (sort_ascending values)
  refine getLast?_of_ascending lists.ascending ((lists.complete _).mpr perm) ?_
  intro q member
  exact le_of_perm_descending descending (((lists.complete q).mp member).trans perm.symm)

/-- All rearrangements come once each and in ascending order, as many as the multiplicities allow,
and whatever is done with the position, it answers from this list. -/
theorem enumerates_rearrangements [DecidableEq α] (values : List α) :
    ∃ L : List (List α),
      (∀ q, q ∈ L ↔ q.Perm values) ∧ L.Nodup ∧ L.Pairwise (· < ·) ∧
      (sort values).Pairwise (· ≤ ·) ∧ L.head? = some (sort values) ∧
      L.getLast? = some (sort values).reverse ∧ (values = [] → L = [[]]) ∧
      L.length = Nat.multinomial values.toFinset (fun x => values.count x) ∧
      (values.Nodup → L.length = values.length.factorial) ∧
      (ofList values).toList = L ∧ (ofList values).count = L.length ∧
      ∀ uses, (useAll uses (ofList values)).1 = cursor L uses 0 ∧
        (useAll uses (ofList values)).2.restart = ofList values := by
  obtain ⟨L, yields, lists⟩ := yields_ofList values
  have once := nodup_of_ascending lists.ascending
  have sorted : (ofList values).first.length = values.length := (sort_perm values).length_eq
  have enough : L.length ≤ factorial (ofList values).first.length := by
    rw [sorted]
    exact length_le_factorial once lists.complete
  refine ⟨L, lists.complete, once, lists.ascending, sort_ascending values, yields.head?,
    lists.getLast?, ?_, length_eq_multinomial once lists.complete, ?_, ?_, ?_, ?_⟩
  · rintro rfl
    have alone : L.Perm [[]] := by
      rw [List.perm_ext_iff_of_nodup once (List.nodup_singleton _)]
      intro q
      rw [lists.complete, List.perm_nil, List.mem_singleton]
    exact List.perm_singleton.mp alone
  · intro distinct
    rw [lists.length distinct, factorial_eq]
  · exact yields.takeFrom enough []
  · rw [count, yields.countFrom enough 0, Nat.zero_add]
  · intro uses
    have start : Yields (ofList values) (L.drop 0) := yields
    obtain ⟨answers, first⟩ := yields.useAll start rfl uses
    exact ⟨answers, restart_eq_ofList first⟩

theorem enumerates_rearrangements_repeated :
    ∃ L : List (List Word), (∀ q, q ∈ L ↔ q.Perm [3, 1, 2, 1]) ∧ L.length = 12 ∧
      L.head? = some [1, 1, 2, 3] ∧ L.getLast? = some [3, 2, 1, 1] ∧
      ∀ uses, (useAll uses (ofList [3, 1, 2, 1])).1 = cursor L uses 0 := by
  obtain ⟨L, complete, -, -, -, head, last, -, length, -, -, -, answers⟩ :=
    enumerates_rearrangements ([3, 1, 2, 1] : List Word)
  have perm : (sort ([3, 1, 2, 1] : List Word)).Perm [1, 1, 2, 3] :=
    (sort_perm _).trans (by decide)
  have sorted : sort ([3, 1, 2, 1] : List Word) = [1, 1, 2, 3] :=
    perm.eq_of_pairwise (fun _ _ _ _ => Std.le_antisymm) (sort_ascending _) (by decide)
  rw [sorted] at head last
  refine ⟨L, complete, ?_, head, last, fun uses => (answers uses).1⟩
  rw [length]
  decide +kernel

end Orderings

end Intcode
