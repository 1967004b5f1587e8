import Mathlib.Algebra.GroupWithZero.Nat
import Intcode.Proofs.Machine.Termination
import Intcode.Proofs.Ring.Following
import Intcode.Proofs.Ring.Schedules

/-!
# Termination of rings

With a limit on its machines a ring makes only so many moves, in any order. An output spends a step
and puts a signal into an inbox, a signal is received once, and a machine that starves waits until
it has received one. So what the stages may still do goes down with every move: each step left is
worth an output with the move that receives it, and each signal queued is worth its reception with
the starvation after it.
-/

namespace Intcode

namespace Activity

/-- The moves that a stage can make from here without a step or a signal. -/
def moves : Activity → Nat
  | run => 2
  | receive => 1
  | finished _ => 0

end Activity

namespace Stage

/-- An upper bound on the moves that a stage may still bring about. -/
def potential (bound : Nat) (s : Stage) : Nat :=
  3 * (bound - s.machine.steps) + 2 * s.inbox.length + s.activity.moves

variable {i bound : Nat} {closed : Bool} {s after : Stage} {sent : Option Word}

theorem Acts.limit (acts : s.Acts i closed after sent) :
    after.machine.budget.limit = s.machine.budget.limit := by
  cases acts with
  | output running runs | starve running runs | halt running runs | fail running runs =>
    exact runs.limit
  | receive | close => rfl

/-- Every action uses up some of the potential, even counting what the receiver gains. -/
theorem Acts.potential_lt (acts : s.Acts i closed after sent)
    (limited : s.machine.budget.limit = some bound) :
    after.potential bound + 2 * sent.toList.length < s.potential bound := by
  cases acts with
  | output running runs =>
    obtain ⟨spent, within⟩ := runs.steps_lt limited (by simp)
    simp only [potential, running, Option.toList_some, List.length_singleton]
    omega
  | starve running runs =>
    have spent := runs.steps_le
    simp only [potential, running, Activity.moves, Option.toList_none, List.length_nil]
    omega
  | halt running runs | fail running runs =>
    have spent := runs.steps_le
    simp only [potential, running, finish, Activity.moves, Option.toList_none, List.length_nil]
    omega
  | @receive value rest parked queue =>
    have same : (s.machine.feed value).steps = s.machine.steps := rfl
    simp only [potential, parked, queue, same, Activity.moves, Option.toList_none,
      List.length_nil, List.length_cons]
    omega
  | close parked =>
    simp only [potential, parked, finish, Activity.moves, Option.toList_none, List.length_nil]
    omega

theorem potential_deliver (bound : Nat) (value : Word) (s : Stage) :
    (s.deliver value).potential bound ≤ s.potential bound + 2 := by
  rw [deliver]
  split
  · exact Nat.le_add_right _ 2
  · simp only [potential, List.length_append, List.length_singleton]
    omega

end Stage

namespace Ring

/-- The potential of all stages. -/
def potential (bound : Nat) (r : Ring) : Nat :=
  (r.stages.map (Stage.potential bound)).sum

/-- The machines of all stages are under the limit. -/
def Limited (bound : Nat) (r : Ring) : Prop :=
  ∀ (k : Nat) (s : Stage), r.stages[k]? = some s → s.machine.budget.limit = some bound

variable {i bound : Nat} {r t : Ring} {s : Stage} {order : List Nat}

theorem potential_put (bound : Nat) (here : r.stages[i]? = some s) (after : Stage) :
    (r.put i after).potential bound + s.potential bound =
      r.potential bound + after.potential bound := by
  obtain ⟨stages⟩ := r
  simp only [put, potential] at here ⊢
  induction stages generalizing i with
  | nil => cases here
  | cons head stages ih =>
    cases i with
    | zero =>
      cases here
      simp only [List.set_cons_zero, List.map_cons, List.sum_cons]
      omega
    | succ i =>
      have rest := ih here
      simp only [List.set_cons_succ, List.map_cons, List.sum_cons]
      omega

/-- A signal is worth two moves to the stage that it is sent to. -/
theorem potential_modify (bound : Nat) (stages : List Stage) (k : Nat) (value : Word) :
    ((stages.modify k (Stage.deliver value)).map (Stage.potential bound)).sum ≤
      (stages.map (Stage.potential bound)).sum + 2 := by
  induction stages generalizing k with
  | nil => simp
  | cons head stages ih =>
    cases k with
    | zero =>
      have gain := head.potential_deliver bound value
      simp only [List.modify_zero_cons, List.map_cons, List.sum_cons]
      omega
    | succ k =>
      have rest := ih k
      simp only [List.modify_succ_cons, List.map_cons, List.sum_cons]
      omega

theorem potential_moved (bound : Nat) (here : r.stages[i]? = some s) (after : Stage)
    (sent : Option Word) :
    (r.moved i after sent).potential bound + s.potential bound ≤
      r.potential bound + (after.potential bound + 2 * sent.toList.length) := by
  have change := potential_put bound here after
  cases sent with
  | none =>
    rw [moved, change]
    omega
  | some value =>
    have gain : ((r.put i after).send i value).potential bound ≤
        (r.put i after).potential bound + 2 := potential_modify bound _ _ value
    simp only [moved, Option.toList_some, List.length_singleton]
    omega

theorem Steps.limited (steps : Steps order r t) (limited : r.Limited bound) :
    t.Limited bound := by
  intro k s there
  obtain ⟨old, here⟩ : ∃ old, r.stages[k]? = some old := by
    have inside : k < r.size := by
      rw [← steps.size]
      exact lt_size_of_getElem? there
    exact ⟨_, List.getElem?_eq_getElem inside⟩
  obtain ⟨after, left, same⟩ := steps.relates
    (fun _ s after => after.machine.budget.limit = s.machine.budget.limit)
    (fun _ _ => rfl) (fun _ _ _ _ ab bc => bc.trans ab) (fun _ _ _ _ _ acts => acts.limit)
    (fun _ s arriving => by rw [Stage.machine_accept]) here
  cases there.symm.trans left
  exact same.trans (limited k old here)

theorem Step.potential_lt (step : Step i r t) (limited : r.Limited bound) :
    t.potential bound < r.potential bound := by
  obtain ⟨s, after, sent, here, acts, rfl⟩ := step_iff.mp step
  have used := acts.potential_lt (limited i s here)
  have change := potential_moved bound here after sent
  omega

/-- There are no more steps, in any order, than the potential of the ring. -/
theorem Steps.length_le (steps : Steps order r t) (limited : r.Limited bound) :
    order.length + t.potential bound ≤ r.potential bound := by
  induction steps with
  | done r => simp
  | @move i order r mid t step rest ih =>
    have used := step.potential_lt limited
    have later := ih ((Steps.single step).limited limited)
    rw [List.length_cons]
    omega

end Ring

namespace Pipeline

variable {p : Pipeline} {phases : List Word} {bound : Nat}

theorem ring_limited (limited : p.limit = some bound) : (p.ring phases).Limited bound := by
  intro k s here
  obtain ⟨phase, there, rfl⟩ := getElem?_ring here
  exact limited

theorem potential_ring (p : Pipeline) (phases : List Word) (bound : Nat) :
    (p.ring phases).potential bound ≤ phases.length * (3 * bound + 4) + 2 := by
  refine Nat.le_trans (Ring.potential_modify bound _ _ 0) ?_
  have each : ∀ phase : Word,
      ({ machine := p.machine, inbox := [phase] } : Stage).potential bound = 3 * bound + 4 :=
    fun phase => rfl
  simp [List.map_map, Function.comp_def, each]

/-- With a limit every order of steps of the stages comes to an end. -/
theorem ring_terminates (limited : p.limit = some bound) (phases : List Word) :
    (∀ order r, Ring.Steps order (p.ring phases) r →
      order.length ≤ phases.length * (3 * bound + 4) + 2) ∧
    ∀ path : Nat → Ring, path 0 = p.ring phases →
      ¬ ∀ n, ∃ i, Ring.Step i (path n) (path (n + 1)) := by
  have most : ∀ order r, Ring.Steps order (p.ring phases) r →
      order.length ≤ phases.length * (3 * bound + 4) + 2 := by
    intro order r steps
    have used := steps.length_le (ring_limited limited)
    have start := potential_ring p phases bound
    omega
  refine ⟨most, fun path start goes => ?_⟩
  obtain ⟨order, count, steps⟩ :=
    Ring.exists_steps_of_path goes (phases.length * (3 * bound + 4) + 3)
  rw [start] at steps
  have short := most order _ steps
  omega

end Pipeline

end Intcode
