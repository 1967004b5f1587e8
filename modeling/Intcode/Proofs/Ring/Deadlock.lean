import Intcode.Proofs.Ring.Following
import Intcode.Proofs.Ring.Schedules

/-!
# Rings that are stuck

In a stuck ring some stages have not finished and all of these wait for an input. A stage waits
only while the stage before it has not finished either, so that all the way round the ring no stage
has. Once a stage finishes, therefore, the end of its outputs goes round, and the ring is never
stuck again. A loop that ends other than by stalling leaves a stage finished, so the ring that
follows it is not stuck in any order of steps.
-/

namespace Intcode

namespace Ring

def Unfinished (r : Ring) (i : Nat) : Prop :=
  ∃ s, r.stages[i]? = some s ∧ s.isFinished = false

/-- Not all stages have finished, and those that have not wait for an input, all of them. -/
def Stuck (r : Ring) : Prop :=
  (∃ i, r.Unfinished i) ∧ ∀ i, r.Unfinished i → r.Blocked i

theorem Unfinished.lt_size {r : Ring} {i : Nat} (unfinished : r.Unfinished i) : i < r.size := by
  obtain ⟨s, here, _⟩ := unfinished
  exact lt_size_of_getElem? here

theorem Blocked.unfinished {r : Ring} {i : Nat} (blocked : r.Blocked i) : r.Unfinished i := by
  obtain ⟨s, here, parked, _⟩ := blocked
  exact ⟨s, here, Stage.isFinished_of_activity_eq_receive parked⟩

/-- A stage that has to wait may still be sent a signal. -/
theorem Blocked.unfinished_before {r : Ring} {i : Nat} (blocked : r.Blocked i) :
    r.Unfinished (r.before i) := by
  obtain ⟨_, _, _, _, unclosed⟩ := blocked
  rw [closed] at unclosed
  split at unclosed
  · cases unclosed
  · next s here => exact ⟨s, here, unclosed⟩

theorem Blocked.not_step {r t : Ring} {i : Nat} (blocked : r.Blocked i) : ¬ Step i r t := by
  intro step
  obtain ⟨s, here, parked, empty, unclosed⟩ := blocked
  obtain ⟨s', after, sent, there, acts, _⟩ := step_iff.mp step
  cases here.symm.trans there
  cases acts with
  | output running | starve running | halt running | fail running =>
    rw [parked] at running
    cases running
  | receive _ queue =>
    rw [empty] at queue
    cases queue
  | close _ _ shut =>
    rw [unclosed] at shut
    cases shut

theorem Stuck.not_step {r : Ring} (stuck : r.Stuck) (i : Nat) (t : Ring) : ¬ Step i r t := by
  intro step
  obtain ⟨s, _, _, here, acts, _⟩ := step_iff.mp step
  exact (stuck.2 i ⟨s, here, acts.unfinished⟩).not_step step

/-- From a stage that has not finished the stages before it have not either, down to the first. -/
theorem Stuck.unfinished_of_le {r : Ring} (stuck : r.Stuck) {i k : Nat}
    (unfinished : r.Unfinished i) (le : k ≤ i) : r.Unfinished k := by
  induction i with
  | zero =>
    cases Nat.le_zero.mp le
    exact unfinished
  | succ i ih =>
    rcases Nat.lt_or_eq_of_le le with lower | rfl
    · have upstream := (stuck.2 (i + 1) unfinished).unfinished_before
      rw [before_eq unfinished.lt_size, if_neg (Nat.succ_ne_zero i), Nat.add_sub_cancel] at upstream
      exact ih upstream (Nat.le_of_lt_succ lower)
    · exact unfinished

/-- Going on from the first stage to the last one, no stage has finished. -/
theorem Stuck.unfinished {r : Ring} (stuck : r.Stuck) {k : Nat} (inside : k < r.size) :
    r.Unfinished k := by
  obtain ⟨i, somewhere⟩ := stuck.1
  have first := stuck.unfinished_of_le somewhere (Nat.zero_le i)
  have last := (stuck.2 0 first).unfinished_before
  rw [before_eq first.lt_size, if_pos rfl] at last
  exact stuck.unfinished_of_le last (Nat.le_sub_one_of_lt inside)

theorem stuck_iff {r : Ring} : r.Stuck ↔ 0 < r.size ∧ ∀ i < r.size, r.Blocked i := by
  constructor
  · intro stuck
    obtain ⟨i, somewhere⟩ := stuck.1
    exact ⟨Nat.zero_lt_of_lt somewhere.lt_size, fun k inside => stuck.2 k (stuck.unfinished inside)⟩
  · rintro ⟨some_stages, blocked⟩
    exact ⟨⟨0, (blocked 0 some_stages).unfinished⟩,
      fun i unfinished => blocked i unfinished.lt_size⟩

theorem Stuck.waits {r : Ring} (stuck : r.Stuck) {i : Nat} {s : Stage}
    (here : r.stages[i]? = some s) : s.activity = .receive ∧ s.inbox = [] := by
  obtain ⟨s', there, parked, empty, _⟩ := (stuck_iff.mp stuck).2 i (lt_size_of_getElem? here)
  cases here.symm.trans there
  exact ⟨parked, empty⟩

/-- A ring with a finished stage is on the way to no stuck one. -/
theorem Steps.not_stuck {order : List Nat} {r t : Ring} (steps : Steps order r t) {i : Nat}
    {s : Stage} (here : r.stages[i]? = some s) (finished : s.isFinished = true) : ¬ t.Stuck := by
  intro stuck
  have parked := (stuck.waits (steps.finished here finished)).1
  rw [Stage.isFinished_of_activity_eq_receive parked] at finished
  cases finished

/-- Where a loop ended without stalling, a stage has finished. -/
theorem Matches.exists_finished {r : Ring} {t : Trial} (same : r.Matches t)
    (unstalled : ∀ i, t.result ≠ .error (.stalled i)) :
    ∃ (i : Nat) (s : Stage), r.stages[i]? = some s ∧ s.isFinished = true := by
  have answers := same.answers
  generalize t.result = result at answers unstalled
  cases answers with
  | signal halts | silent halts =>
    obtain ⟨s, here, finished⟩ := same.halted _ halts
    exact ⟨_, s, here, Stage.isFinished_iff.mpr ⟨_, finished⟩⟩
  | failed here finished => exact ⟨_, _, here, Stage.isFinished_iff.mpr ⟨_, finished⟩⟩
  | @stalled k => exact absurd rfl (unstalled k)

/-- Makes the moves of the stages listed, if they can be made. -/
def play (fuel : Nat) : List Nat → Ring → Option Ring
  | [], r => some r
  | i :: order, r =>
    match r.advance fuel i with
    | none => none
    | some move => play fuel order move.ring

theorem steps_of_play {fuel : Nat} {order : List Nat} {r t : Ring}
    (h : r.play fuel order = some t) : Steps order r t := by
  induction order generalizing r with
  | nil =>
    cases h
    exact .done t
  | cons i order ih =>
    simp only [play] at h
    split at h
    · cases h
    · next move advanced => exact .move ⟨fuel, move, advanced, rfl⟩ (ih h)

/-- Whether every stage waits for an input. -/
def isStuck (r : Ring) : Bool :=
  0 < r.size && (List.range r.size).all fun i =>
    match r.stages[i]? with
    | some ⟨_, [], .receive, _⟩ => !r.closed i
    | _ => false

theorem stuck_of_isStuck {r : Ring} (h : r.isStuck = true) : r.Stuck := by
  simp only [isStuck, Bool.and_eq_true, decide_eq_true_eq, List.all_eq_true, List.mem_range] at h
  obtain ⟨some_stages, waiting⟩ := h
  refine stuck_iff.mpr ⟨some_stages, fun i inside => ?_⟩
  have waits := waiting i inside
  split at waits
  · next here => exact ⟨_, here, rfl, rfl, by simpa using waits⟩
  · cases waits

end Ring

namespace Pipeline

/-- If the ring is stuck, no stage has finished, every one is waiting and every inbox is empty; so
it never gets stuck once a stage has finished. If the loop ends other than by stalling, the ring
gets stuck in no order of steps. -/
theorem stuck_untouched {p : Pipeline} {phases : List Word} {order : List Nat} {r : Ring}
    (steps : Ring.Steps order (p.ring phases) r) :
    (r.Stuck → ∀ s ∈ r.stages, s.isFinished = false ∧ s.activity = .receive ∧ s.inbox = []) ∧
    ((∃ s ∈ r.stages, s.isFinished = true) → ∀ more t, Ring.Steps more r t → ¬ t.Stuck) ∧
    ∀ fuel trial, p.runFeedback fuel phases = some trial →
      (∃ value, trial.result = .ok value) ∨ (∃ i, trial.result = .error (.noOutput i)) ∨
        (∃ i e, trial.result = .error (.machine i e)) → ¬ r.Stuck := by
  refine ⟨?_, ?_, ?_⟩
  · intro stuck s member
    obtain ⟨i, here⟩ := List.mem_iff_getElem?.mp member
    obtain ⟨parked, empty⟩ := stuck.waits here
    exact ⟨Stage.isFinished_of_activity_eq_receive parked, parked, empty⟩
  · rintro ⟨s, member, finished⟩ more t later
    obtain ⟨i, here⟩ := List.mem_iff_getElem?.mp member
    exact later.not_stuck here finished
  · intro fuel trial ran ending stuck
    have valid : p.checkPhases phases = .ok () := by
      cases checked : p.checkPhases phases with
      | ok => rfl
      | error e =>
        simp only [runFeedback, checked] at ran
        cases ran
        rcases ending with ⟨_, h⟩ | ⟨_, h⟩ | ⟨_, _, h⟩ <;> cases h
    obtain ⟨early, u, made, same⟩ := exists_matches valid ran
    obtain ⟨i, s, here, finished⟩ := same.exists_finished fun i stalled => by
      rw [stalled] at ending
      rcases ending with ⟨_, h⟩ | ⟨_, h⟩ | ⟨_, _, h⟩ <;> cases h
    obtain ⟨rest, later, _⟩ := steps.reaches stuck.not_step made
    exact later.not_stuck here finished stuck

/-- Two stages that need three inputs each, of which they get no more than two. -/
def thirsty : Pipeline :=
  { program := ⟨#[3, 30, 3, 30, 3, 30, 4, 30, 99]⟩, stages := 2 }

theorem stuck_untouched_thirsty_relay :
    (∃ order r, Ring.Steps order (thirsty.ring [0, 1]) r ∧ r.Stuck ∧
      ∀ s ∈ r.stages, s.isFinished = false ∧ s.activity = .receive ∧ s.inbox = []) ∧
    ∀ order r, Ring.Steps order (relay.ring [0, 1]) r → ¬ r.Stuck := by
  constructor
  · have stuck : ((thirsty.ring [0, 1]).play 30 [0, 0, 0, 0, 0, 1, 1, 1]).map Ring.isStuck =
        some true := by
      decide +kernel
    obtain ⟨r, played, stopped⟩ := Option.map_eq_some_iff.mp stuck
    have steps := Ring.steps_of_play played
    exact ⟨_, r, steps, Ring.stuck_of_isStuck stopped,
      (stuck_untouched steps).1 (Ring.stuck_of_isStuck stopped)⟩
  · intro order r steps
    obtain ⟨trial, ran, signal⟩ := Option.map_eq_some_iff.mp relay_signal
    exact (stuck_untouched steps).2.2 30 trial ran (Or.inl ⟨0, signal⟩)

end Pipeline

end Intcode
