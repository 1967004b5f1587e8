import Intcode.Proofs.Ring.Moves

/-!
# Steps commute

A stage has at most one next step, and steps of two stages can be made in either order with the
same outcome: a signal is put behind what the receiving inbox holds, and a stage that finds its
inbox empty fails only once nothing more can arrive. Hence any two orders of steps can be carried
on to the same ring, after equally many steps in all.
-/

namespace Intcode

theorem Stage.accept_comm {first second : Option Word} (one : first = none ∨ second = none)
    (s : Stage) : (s.accept first).accept second = (s.accept second).accept first := by
  rcases one with rfl | rfl <;> rfl

namespace Ring

theorem advance_mono {fuel more : Nat} (enough : fuel ≤ more) {r : Ring} {i : Nat} {move : Move}
    (h : r.advance fuel i = some move) : r.advance more i = some move := by
  rw [advance] at h ⊢
  split at h
  · cases h
  · split at h
    · cases h
    · split at h
      · cases h
      · next ran => simp only [Machine.run_mono enough ran, h]
      · next ran => simp only [Machine.run_mono enough ran, h]
    · exact h

theorem Step.unique {i : Nat} {r s t : Ring} (one : Step i r s) (two : Step i r t) : s = t := by
  obtain ⟨fuel, move, h, rfl⟩ := one
  obtain ⟨more, move', h', rfl⟩ := two
  have same := (advance_mono (Nat.le_max_left fuel more) h).symm.trans
    (advance_mono (Nat.le_max_right fuel more) h')
  rw [Option.some.inj same]

theorem closed_eq {r : Ring} {i : Nat} {s : Stage} (here : r.stages[r.before i]? = some s) :
    r.closed i = s.isFinished := by
  simp only [closed, here]

theorem arrival_apart {r : Ring} {i j : Nat} (hi : i < r.size) (hj : j < r.size) (apart : i ≠ j)
    (x y : Option Word) (k : Nat) : r.arrival i x k = none ∨ r.arrival j y k = none := by
  unfold arrival
  by_cases next : k = r.after i
  · right
    rw [if_neg]
    intro other
    exact apart (after_injective hi hj (next.symm.trans other))
  · left
    rw [if_neg next]

theorem arrival_moved (r : Ring) (i j : Nat) (s : Stage) (x y : Option Word) :
    (r.moved i s x).arrival j y = r.arrival j y := by
  unfold arrival after
  rw [size_moved]

theorem moved_comm {r : Ring} {i j : Nat} (hi : i < r.size) (hj : j < r.size) (apart : i ≠ j)
    (a b : Stage) (x y : Option Word) :
    (r.moved i a x).moved j (b.accept (r.arrival i x j)) y =
      (r.moved j b y).moved i (a.accept (r.arrival j y i)) x := by
  apply eq_of_getElem?
  intro k
  have one := arrival_apart hi hj apart x y k
  by_cases first : k = i
  · subst first
    rw [getElem?_moved_of_ne apart, getElem?_moved_self hi, getElem?_moved_self (by simpa using hi),
      arrival_moved, arrival_moved]
    exact congrArg some (Stage.accept_comm one a)
  · by_cases second : k = j
    · subst second
      rw [getElem?_moved_self (by simpa using hj), getElem?_moved_of_ne first,
        getElem?_moved_self hj, arrival_moved, arrival_moved]
      exact congrArg some (Stage.accept_comm one b)
    · rw [getElem?_moved_of_ne second, getElem?_moved_of_ne first, getElem?_moved_of_ne first,
        getElem?_moved_of_ne second, arrival_moved, arrival_moved]
      cases r.stages[k]? with
      | none => rfl
      | some s => exact congrArg some (Stage.accept_comm one s)

/-- A stage can still do what it could before another one moved. -/
theorem acts_moved {r : Ring} {i j : Nat} {a a' b b' : Stage} {x y : Option Word}
    (ha : r.stages[i]? = some a) (actsA : a.Acts i (r.closed i) a' x)
    (hb : r.stages[j]? = some b) (actsB : b.Acts j (r.closed j) b' y) :
    (b.accept (r.arrival i x j)).Acts j ((r.moved i a' x).closed j)
      (b'.accept (r.arrival i x j)) y := by
  have hj := lt_size_of_getElem? hb
  by_cases up : r.before j = i
  · have unclosed : r.closed j = false := by
      rw [closed_eq (by rw [up]; exact ha)]
      exact actsA.unfinished
    rw [unclosed] at actsB
    exact actsB.accept _ _
  · have silent : r.arrival i x j = none := by
      rw [arrival, if_neg]
      intro next
      exact up (by rw [next, before_after (lt_size_of_getElem? ha)])
    have same : (r.moved i a' x).closed j = r.closed j := by
      have kept : (r.moved i a' x).before j = r.before j := by simp [before]
      simp only [closed, kept, getElem?_moved_of_ne up]
      cases r.stages[r.before j]? with
      | none => rfl
      | some s => simp
    rw [silent, same]
    exact actsB

theorem Step.comm {i j : Nat} {r s t : Ring} (apart : i ≠ j) (one : Step i r s)
    (two : Step j r t) : ∃ u, Step j s u ∧ Step i t u := by
  obtain ⟨a, a', x, ha, actsA, rfl⟩ := step_iff.mp one
  obtain ⟨b, b', y, hb, actsB, rfl⟩ := step_iff.mp two
  have hi := lt_size_of_getElem? ha
  have hj := lt_size_of_getElem? hb
  refine ⟨(r.moved i a' x).moved j (b'.accept (r.arrival i x j)) y, ?_, ?_⟩
  · refine step_iff.mpr ⟨_, _, y, ?_, acts_moved ha actsA hb actsB, rfl⟩
    rw [getElem?_moved_of_ne apart.symm, hb]
    rfl
  · refine step_iff.mpr ⟨_, _, x, ?_, acts_moved hb actsB ha actsA,
      moved_comm hi hj apart a' b' x y⟩
    rw [getElem?_moved_of_ne apart, ha]
    rfl

/-- A step of one stage beside an order of steps is either the first of that stage in it, and the
others lead on, or it can still be made at the end. -/
theorem Steps.strip {i : Nat} {order : List Nat} {r s t : Ring} (step : Step i r s)
    (steps : Steps order r t) :
    (∃ rest, rest.length + 1 = order.length ∧ Steps rest s t) ∨
      ∃ u, Step i t u ∧ Steps order s u := by
  induction steps generalizing s with
  | done r => exact Or.inr ⟨s, step, .done s⟩
  | @move j order r middle t first rest ih =>
    by_cases same : i = j
    · subst same
      cases step.unique first
      exact Or.inl ⟨order, rfl, rest⟩
    · obtain ⟨u, onward, late⟩ := step.comm same first
      rcases ih late with ⟨left, shorter, joined⟩ | ⟨last, final, joined⟩
      · exact Or.inl ⟨j :: left, by simp [shorter], .move onward joined⟩
      · exact Or.inr ⟨last, final, .move onward joined⟩

/-- Two orders of steps from one ring lead on to a common ring. -/
theorem Steps.join {order other : List Nat} {r s t : Ring} (one : Steps order r s)
    (two : Steps other r t) :
    ∃ u more rest, Steps more s u ∧ Steps rest t u ∧
      order.length + more.length = other.length + rest.length := by
  induction one generalizing other t with
  | done r => exact ⟨t, other, [], two, .done t, by simp⟩
  | @move i order r middle s step _ ih =>
    rcases two.strip step with ⟨left, shorter, joined⟩ | ⟨last, final, joined⟩
    · obtain ⟨u, more, rest, hs, ht, count⟩ := ih joined
      exact ⟨u, more, rest, hs, ht, by simp only [List.length_cons]; omega⟩
    · obtain ⟨u, more, rest, hs, ht, count⟩ := ih joined
      exact ⟨u, more, i :: rest, hs, .move final ht, by simp only [List.length_cons]; omega⟩

/-- A ring in which no stage can move is met by every order of steps that goes on. -/
theorem Steps.reaches {order other : List Nat} {r s t : Ring} (one : Steps order r t)
    (still : ∀ i u, ¬ Step i t u) (two : Steps other r s) :
    ∃ rest, Steps rest s t ∧ other.length + rest.length = order.length := by
  obtain ⟨u, more, rest, ht, hs, count⟩ := one.join two
  cases ht with
  | done => exact ⟨rest, hs, by simpa using count.symm⟩
  | move step _ => exact absurd step (still _ _)

/-- Any step made first leaves one step less to make. -/
theorem Steps.shortens {i : Nat} {order : List Nat} {r s t : Ring} (steps : Steps order r t)
    (still : ∀ i u, ¬ Step i t u) (made : Step i r s) :
    ∃ rest, Steps rest s t ∧ rest.length + 1 = order.length := by
  obtain ⟨rest, joined, count⟩ := steps.reaches still (.single made)
  exact ⟨rest, joined, by simpa [Nat.add_comm] using count⟩

end Ring

end Intcode
