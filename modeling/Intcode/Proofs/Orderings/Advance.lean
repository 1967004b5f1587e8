import Intcode.Proofs.Orderings.Successor
import Intcode.Word

/-!
# The step to the next ordering

A step goes down from the last index twice. The first walk passes over the longest descending end
and stops at its beginning, at zero at the latest. The second passes over the values of this end
that are not greater than the one before it, the pivot. The first value of the end is greater, so
that this walk stops before it would come to the pivot. The two values found are exchanged; the end
descends as before and is turned round.
-/

namespace Intcode

namespace Orderings

section Walks

variable {test : Nat → Except Stray Bool} {n m bar : Nat}

/-- The walk down from `n` comes to an index. -/
inductive Visits (test : Nat → Except Stray Bool) (n : Nat) : Nat → Prop where
  | start : Visits test n n
  | down {m : Nat} (visits : Visits test n (m + 1)) (holds : test (m + 1) = .ok true) :
    Visits test n m

theorem Visits.le (visits : Visits test n m) : m ≤ n := by
  induction visits with
  | start => exact Nat.le_refl n
  | down visits holds ih => exact Nat.le_of_succ_le ih

theorem Visits.lt_size {size : Nat} (visits : Visits test (size - 1) m) (some : 0 < size) :
    m < size :=
  Nat.lt_of_le_of_lt visits.le (Nat.sub_one_lt_of_lt some)

theorem Visits.succ_lt_size {size : Nat} (visits : Visits test (size - 1) (m + 1)) :
    m + 1 < size :=
  Nat.add_lt_of_lt_sub visits.le

/-- No walk goes past an index where the test fails. -/
theorem Visits.bar_le (visits : Visits test n m) (fails : test bar = .ok false) (le : bar ≤ n) :
    bar ≤ m := by
  induction visits with
  | start => exact le
  | @down m visits holds ih =>
    have other : bar ≠ m + 1 := by
      rintro rfl
      rw [holds] at fails
      cases fails
    omega

theorem Visits.descend_eq (visits : Visits test n m) : descend test n = descend test m := by
  induction visits with
  | start => rfl
  | down visits holds ih => rw [ih, descend, holds]

/-- A walk ends at an index that it comes to and where the test fails. -/
theorem Visits.ends (visits : Visits test n m) (fails : test m = .ok false) :
    descend test n = .ok m := by
  rw [visits.descend_eq]
  unfold descend
  rw [fails]

/-- If the test fails at some index and answers everywhere above it, the walk ends. -/
theorem exists_end (fails : test bar = .ok false) (le : bar ≤ n)
    (answers : ∀ m, bar ≤ m → m ≤ n → ∃ b, test m = .ok b) :
    ∃ k, Visits test n k ∧ test k = .ok false := by
  have onward : ∀ m, Visits test n m → ∃ k, Visits test n k ∧ test k = .ok false := by
    intro m visits
    induction m with
    | zero =>
      have low := visits.bar_le fails le
      exact ⟨0, visits, Nat.le_zero.mp low ▸ fails⟩
    | succ m ih =>
      obtain ⟨b, answer⟩ := answers (m + 1) (visits.bar_le fails le) visits.le
      cases b with
      | false => exact ⟨m + 1, visits, answer⟩
      | true => exact ih (visits.down answer)
  exact onward n .start

end Walks

section Places

variable {α : Type u} {v before between behind : List α} {x y : α} {i j : Nat}

theorem read_of_lt (inside : i < v.length) : read v i = .ok v[i] := by
  rw [read, List.getElem?_eq_getElem inside]

/-- The values at two indices, and what is before, between and behind them. -/
theorem exists_split (less : i < j) (inside : j < v.length) :
    ∃ before x between y behind, v = before ++ x :: (between ++ y :: behind) ∧
      before.length = i ∧ before.length + 1 + between.length = j := by
  refine ⟨v.take i, v[i], (v.drop (i + 1)).take (j - (i + 1)), v[j], v.drop (j + 1), ?_, ?_, ?_⟩
  · have second : v.drop (i + 1) =
        (v.drop (i + 1)).take (j - (i + 1)) ++ v[j] :: v.drop (j + 1) := by
      rw [← List.drop_eq_getElem_cons inside]
      have moved : v.drop j = (v.drop (i + 1)).drop (j - (i + 1)) := by
        rw [List.drop_drop, Nat.add_sub_cancel' less]
      rw [moved, List.take_append_drop]
    rw [← second, ← List.drop_eq_getElem_cons (Nat.lt_trans less inside), List.take_append_drop]
  · rw [List.length_take]
    omega
  · simp only [List.length_take, List.length_drop]
    omega

theorem swap_split :
    swap (before ++ x :: (between ++ y :: behind)) before.length
        (before.length + 1 + between.length) =
      .ok (before ++ y :: (between ++ x :: behind)) := by
  have first : read (before ++ x :: (between ++ y :: behind)) before.length = .ok x := by
    simp [read]
  have second : read (before ++ x :: (between ++ y :: behind))
      (before.length + 1 + between.length) = .ok y := by
    simp [read, Nat.add_assoc, Nat.add_comm 1]
  rw [swap, first, second]
  simp [Nat.add_assoc, Nat.add_comm 1]

theorem reverseFrom_split :
    reverseFrom (before ++ x :: behind) (before.length + 1) =
      .ok (before ++ x :: behind.reverse) := by
  have inside : before.length + 1 ≤ (before ++ x :: behind).length := by simp
  rw [reverseFrom, if_pos inside, List.take_length_add_append, List.drop_length_add_append]
  simp

theorem pairwise_of_short {R : α → α → Prop} (short : v.length ≤ 1) : v.Pairwise R := by
  match v, short with
  | [], _ => exact List.Pairwise.nil
  | [x], _ => exact List.pairwise_singleton R x

end Places

section Comparisons

variable {α : Type u} [LT α] [DecidableLT α] {v : List α} {i j pivot : Nat}

theorem notLess_of_lt (left : i < v.length) (right : j < v.length) :
    notLess v i j = .ok (¬ v[i] < v[j]) := by
  rw [notLess, read_of_lt left, read_of_lt right]

theorem fallsTo_answers (inside : i < v.length) : ∃ b, fallsTo v i = .ok b := by
  cases i with
  | zero => exact ⟨false, rfl⟩
  | succ i => exact ⟨_, notLess_of_lt (Nat.lt_of_succ_lt inside) inside⟩

/-- The first walk ends, at zero if nowhere above. -/
theorem exists_start (v : List α) :
    ∃ start, Visits (fallsTo v) (v.length - 1) start ∧ fallsTo v start = .ok false := by
  cases v with
  | nil => exact ⟨0, .start, rfl⟩
  | cons x rest =>
    have floor : fallsTo (x :: rest) 0 = .ok false := rfl
    refine exists_end floor (Nat.zero_le _) fun m _ le => fallsTo_answers ?_
    exact Nat.lt_succ_of_le le

/-- The second walk ends, behind the pivot. -/
theorem exists_least (inside : pivot + 1 < v.length)
    (rises : fallsTo v (pivot + 1) = .ok false) :
    ∃ least, Visits (notLess v pivot) (v.length - 1) least ∧
      notLess v pivot least = .ok false := by
  refine exists_end rises (Nat.le_sub_one_of_lt inside) fun m _ le => ?_
  exact ⟨_, notLess_of_lt (Nat.lt_of_succ_lt inside) (by omega)⟩

end Comparisons

section Order

variable {α : Type u} [LT α] [LE α] [Std.IsLinearOrder α] [Std.LawfulOrderLT α]
variable {v : List α} {i j pivot least : Nat}

/-- To exchange the pivot with the last value above it keeps the end descending, and the end turned
round is as small as can be. -/
theorem follows_exchanged {x y : α} {between behind : List α} (before : List α)
    (descends : (between ++ y :: behind).Pairwise fun x y => y ≤ x) (below : ∀ z ∈ behind, z ≤ x)
    (above : x < y) :
    Follows (before ++ x :: (between ++ y :: behind))
      (before ++ y :: (between ++ x :: behind).reverse) := by
  have turned : (between ++ x :: behind).reverse = behind.reverse ++ x :: between.reverse := by
    simp
  have split : (between ++ y :: behind).reverse = behind.reverse ++ y :: between.reverse := by
    simp
  rw [turned]
  exact (follows_of_split descends split
    (fun z inside => below z (List.mem_reverse.mp inside)) above).append before

/-- From where the two walks end, the rest of a step gives the next ordering. -/
theorem exists_exchanged (less : pivot < least) (inside : least < v.length)
    (descends : (v.drop (pivot + 1)).Pairwise fun x y => y ≤ x)
    (below : ∀ z ∈ v.drop (least + 1), z ≤ v[pivot]) (above : v[pivot] < v[least]) :
    ∃ swapped w, swap v pivot least = .ok swapped ∧
      reverseFrom swapped (pivot + 1) = .ok w ∧ Follows v w := by
  obtain ⟨before, x, between, y, behind, rfl, rfl, rfl⟩ := exists_split less inside
  refine ⟨_, _, swap_split, reverseFrom_split, follows_exchanged before ?_ ?_ ?_⟩
  · simpa using descends
  · simpa [Nat.add_assoc, Nat.add_comm 1] using below
  · simpa [Nat.add_assoc, Nat.add_comm 1] using above

variable [DecidableLT α]

theorem notLess_iff (left : i < v.length) (right : j < v.length) :
    notLess v i j = .ok true ↔ v[j] ≤ v[i] := by
  simp [notLess_of_lt left right, Std.not_lt]

omit [LE α] [Std.IsLinearOrder α] [Std.LawfulOrderLT α] in
theorem not_notLess_iff (left : i < v.length) (right : j < v.length) :
    notLess v i j = .ok false ↔ v[i] < v[j] := by
  simp [notLess_of_lt left right]

/-- What the first walk has come past descends. -/
theorem descending_of_visits (visits : Visits (fallsTo v) (v.length - 1) i) :
    (v.drop i).Pairwise fun x y => y ≤ x := by
  induction visits with
  | start =>
    refine pairwise_of_short ?_
    rw [List.length_drop]
    omega
  | @down i visits falls ih =>
    have inside : i + 1 < v.length := visits.succ_lt_size
    have le := (notLess_iff (Nat.lt_of_succ_lt inside) inside).mp falls
    rw [List.drop_eq_getElem_cons (Nat.lt_of_succ_lt inside)]
    refine List.pairwise_cons.mpr ⟨fun z behind => ?_, ih⟩
    rw [List.drop_eq_getElem_cons inside] at ih behind
    rcases List.mem_cons.mp behind with rfl | behind
    · exact le
    · exact Std.le_trans (List.rel_of_pairwise_cons ih behind) le

/-- What the second walk has come past is not greater than the pivot. -/
theorem le_pivot_of_visits (inside : pivot < v.length)
    (visits : Visits (notLess v pivot) (v.length - 1) j) : ∀ z ∈ v.drop (j + 1), z ≤ v[pivot] := by
  induction visits with
  | start =>
    rw [List.drop_eq_nil_of_le (by omega)]
    exact fun z none => absurd none List.not_mem_nil
  | @down j visits holds ih =>
    have here : j + 1 < v.length := visits.succ_lt_size
    rw [List.drop_eq_getElem_cons here]
    intro z behind
    rcases List.mem_cons.mp behind with rfl | behind
    · exact (notLess_iff inside here).mp holds
    · exact ih z behind

/-- What a step comes to: it leaves the last ordering and replaces any other by the next. -/
inductive Advances (v : List α) : Bool × List α → Prop where
  | last (descending : v.Pairwise fun x y => y ≤ x) : Advances v (false, v)
  | next {w : List α} (follows : Follows v w) : Advances v (true, w)

/-- A step always succeeds. -/
theorem exists_advance (v : List α) : ∃ result, advance v = .ok result ∧ Advances v result := by
  by_cases short : v.length < 2
  · refine ⟨(false, v), ?_, .last (pairwise_of_short (Nat.le_of_lt_succ short))⟩
    rw [advance, if_pos short]
  · obtain ⟨start, visits, stops⟩ := exists_start v
    have first := visits.ends stops
    have descends := descending_of_visits visits
    cases start with
    | zero =>
      refine ⟨(false, v), ?_, .last descends⟩
      rw [advance, if_neg short, first]
    | succ pivot =>
      -- where the first walk stops, the test of the second fails as well: this is its bar
      have inside : pivot + 1 < v.length := visits.succ_lt_size
      obtain ⟨least, walks, found⟩ := exists_least inside stops
      have second := walks.ends found
      have least_inside : least < v.length := walks.lt_size (Nat.zero_lt_of_lt inside)
      have less : pivot < least := walks.bar_le stops (Nat.le_sub_one_of_lt inside)
      have below := le_pivot_of_visits (Nat.lt_of_succ_lt inside) walks
      have above := (not_notLess_iff (Nat.lt_of_succ_lt inside) least_inside).mp found
      obtain ⟨swapped, w, third, fourth, follows⟩ :=
        exists_exchanged less least_inside descends below above
      refine ⟨(true, w), ?_, .next follows⟩
      rw [advance, if_neg short, first]
      simp only [second, third, fourth]

/-- An ordering is followed by the smallest greater one, and only the descending one by none. -/
theorem successor_successor? (v : List α) : Successor v (successor? v) := by
  obtain ⟨result, advanced, advances⟩ := exists_advance v
  rw [successor?, advanced]
  cases advances with
  | last descending => exact .last descending
  | next follows => exact .next follows

/-- A step leaves a descending ordering as it is and takes any other to the smallest greater
rearrangement. Both walks end and come to indices of values only, the second to none that is not
behind the pivot. -/
theorem advance_finds_successor (v : List α) :
    (v.length < 2 ∨ (v.Pairwise fun x y => y ≤ x) → advance v = .ok (false, v)) ∧
    (¬ (v.Pairwise fun x y => y ≤ x) →
      ∃ w, advance v = .ok (true, w) ∧
        w.Perm v ∧ v < w ∧ ∀ q : List α, q.Perm v → v < q → w ≤ q) ∧
    (2 ≤ v.length →
      ∃ start, descend (fallsTo v) (v.length - 1) = .ok start ∧
        (∀ i, Visits (fallsTo v) (v.length - 1) i → start ≤ i ∧ i < v.length) ∧
        ∀ pivot, start = pivot + 1 →
          ∃ least, descend (notLess v pivot) (v.length - 1) = .ok least ∧
            ∀ j, Visits (notLess v pivot) (v.length - 1) j → pivot < j ∧ j < v.length) := by
  obtain ⟨result, advanced, advances⟩ := exists_advance v
  refine ⟨?_, ?_, ?_⟩
  · intro last
    have descending : v.Pairwise fun x y => y ≤ x :=
      last.elim (fun short => pairwise_of_short (Nat.le_of_lt_succ short)) id
    cases advances with
    | last => exact advanced
    | next follows => exact absurd descending follows.not_descending
  · intro other
    cases advances with
    | last descending => exact absurd descending other
    | @next w follows => exact ⟨w, advanced, follows.perm, follows.greater, follows.least⟩
  · intro long
    have some : 0 < v.length := Nat.zero_lt_of_lt long
    obtain ⟨start, visits, stops⟩ := exists_start v
    refine ⟨start, visits.ends stops, fun i comes => ?_, ?_⟩
    · exact ⟨comes.bar_le stops visits.le, comes.lt_size some⟩
    · rintro pivot rfl
      obtain ⟨least, walks, found⟩ := exists_least visits.succ_lt_size stops
      refine ⟨least, walks.ends found, fun j comes => ?_⟩
      exact ⟨comes.bar_le stops visits.le, comes.lt_size some⟩

theorem advance_finds_successor_repeated :
    ¬ (([1, 3, 3, 2] : List Word).Pairwise fun x y => y ≤ x) ∧
      advance ([1, 3, 3, 2] : List Word) = .ok (true, [2, 1, 3, 3]) ∧
      (∀ q : List Word, q.Perm [1, 3, 3, 2] → [1, 3, 3, 2] < q → [2, 1, 3, 3] ≤ q) ∧
      advance ([3, 3, 2, 1] : List Word) = .ok (false, [3, 3, 2, 1]) := by
  obtain ⟨-, onward, -⟩ := advance_finds_successor ([1, 3, 3, 2] : List Word)
  obtain ⟨still, -, -⟩ := advance_finds_successor ([3, 3, 2, 1] : List Word)
  have rises : ¬ (([1, 3, 3, 2] : List Word).Pairwise fun x y => y ≤ x) := by decide
  have computed : advance ([1, 3, 3, 2] : List Word) = .ok (true, [2, 1, 3, 3]) := by rfl
  obtain ⟨w, advanced, -, -, smallest⟩ := onward rises
  rw [computed] at advanced
  cases advanced
  exact ⟨rises, computed, smallest, still (Or.inr (by decide))⟩

end Order

end Orderings

end Intcode
