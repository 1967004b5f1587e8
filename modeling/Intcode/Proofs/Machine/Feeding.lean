import Intcode.Proofs.Machine.Runs

/-!
# Feeding early or late

A machine looks at its queue only when it takes an input. What is queued behind the inputs a run
takes is therefore carried along unchanged, and a run that starves goes on, once fed, exactly as if
the input had been there from the start: the payment for the input instruction was taken back and
the machine is still at that instruction.
-/

namespace Intcode

namespace Machine

theorem feed_eq_feedAll (m : Machine) (value : Word) : m.feed value = m.feedAll [value] :=
  rfl

@[simp] theorem feedAll_nil (m : Machine) : m.feedAll [] = m := by
  simp [feedAll]

@[simp] theorem feedAll_feedAll (m : Machine) (values more : List Word) :
    (m.feedAll values).feedAll more = m.feedAll (values ++ more) := by
  simp [feedAll]

@[simp] theorem isHalted_feedAll (m : Machine) (values : List Word) :
    (m.feedAll values).isHalted = m.isHalted :=
  rfl

theorem apply_feedAll {m after : Machine} {opcode : Opcode} {effect : Effect}
    {result : Except MachineError (Option Outcome)} (h : m.apply opcode effect = (result, after))
    (served : result ≠ .ok (some .awaitingInput)) (values : List Word) :
    (m.feedAll values).apply opcode effect = (result, after.feedAll values) := by
  cases effect with
  | write address value =>
    simp only [apply, feedAll] at h ⊢
    split at h <;> cases h <;> rfl
  | jump target =>
    simp only [apply, feedAll] at h ⊢
    split at h <;> cases h <;> rfl
  | proceed => cases h; rfl
  | rebase base => cases h; rfl
  | input address =>
    rcases queue : m.pending with _ | ⟨value, pending⟩
    · simp only [apply, queue] at h
      cases h
      exact absurd rfl served
    · simp only [apply, feedAll, queue, List.cons_append] at h ⊢
      split at h <;> cases h <;> rfl
  | output value => cases h; rfl
  | halt => cases h; rfl

theorem execute_feedAll {m after : Machine} {result : Except MachineError (Option Outcome)}
    (h : m.execute = (result, after)) (served : result ≠ .ok (some .awaitingInput))
    (values : List Word) : (m.feedAll values).execute = (result, after.feedAll values) := by
  rcases charged : m.budget.charge with fault | paid
  · rw [execute_unpaid charged] at h
    rw [execute_unpaid (m := m.feedAll values) charged]
    cases h
    rfl
  · rcases next : m.next with fault | ⟨instr, effect⟩
    · rw [execute_faulty charged next] at h
      rw [execute_faulty (m := m.feedAll values) charged next]
      cases h
      rfl
    · rw [execute_effect charged next] at h
      rw [execute_effect (m := m.feedAll values) charged next]
      exact apply_feedAll h served values

/-- Starving leaves no trace but the status. -/
theorem execute_awaitingInput {m after : Machine}
    (h : m.execute = (.ok (some .awaitingInput), after)) :
    m.pending = [] ∧ after = { m with status := .awaitingInput } := by
  cases executes h with
  | applied charged next applies =>
    cases applies with
    | starved queue => exact ⟨queue, by simp only [Budget.refund_charge charged]⟩

theorem runFrom_feedAll {fuel : Nat} {m after : Machine} {result : Except MachineError Outcome}
    (h : runFrom fuel m = some (result, after)) (served : result ≠ .ok .awaitingInput)
    (values : List Word) :
    runFrom fuel (m.feedAll values) = some (result, after.feedAll values) := by
  induction fuel generalizing m with
  | zero => cases h
  | succ fuel ih =>
    rcases executed : m.execute with ⟨e | _ | outcome, left⟩
    · simp only [runFrom, executed] at h
      simp only [runFrom, execute_feedAll executed (by simp)]
      cases h
      rfl
    · simp only [runFrom, executed] at h
      simp only [runFrom, execute_feedAll executed (by simp)]
      exact ih h
    · simp only [runFrom, executed] at h
      cases h
      simp only [runFrom, execute_feedAll executed (by simpa using served)]

/-- A run that starves has got to a machine which differs only in its status from the one left. To
go on from there with more inputs is to have had them all along. -/
theorem runFrom_awaitingInput {fuel : Nat} {m after : Machine}
    (h : runFrom fuel m = some (.ok .awaitingInput, after)) :
    after.pending = [] ∧
      ∃ spent, ∀ values more, runFrom (spent + more) (m.feedAll values) =
        runFrom more ({ after with status := m.status }.feedAll values) := by
  induction fuel generalizing m with
  | zero => cases h
  | succ fuel ih =>
    rcases executed : m.execute with ⟨e | _ | outcome, left⟩
    · simp only [runFrom, executed] at h
      cases h
    · simp only [runFrom, executed] at h
      obtain ⟨empty, spent, onward⟩ := ih h
      refine ⟨empty, spent + 1, fun values more => ?_⟩
      have kept : left.status = m.status := execute_status executed
      rw [← kept, ← onward, Nat.add_right_comm]
      simp only [runFrom, execute_feedAll executed (by simp)]
    · simp only [runFrom, executed] at h
      cases h
      obtain ⟨empty, rfl⟩ := execute_awaitingInput executed
      exact ⟨empty, 0, fun values more => by rw [Nat.zero_add]⟩

/-- A run that ends would also have ended with fewer inputs, if only by starving. -/
theorem runFrom_of_feedAll {fuel : Nat} {m : Machine} {values : List Word}
    {out : Except MachineError Outcome × Machine} (h : runFrom fuel (m.feedAll values) = some out) :
    ∃ result after, runFrom fuel m = some (result, after) := by
  induction fuel generalizing m with
  | zero => cases h
  | succ fuel ih =>
    rcases executed : m.execute with ⟨e | _ | outcome, left⟩
    · exact ⟨.error e, left, by simp only [runFrom, executed]⟩
    · simp only [runFrom, execute_feedAll executed (by simp)] at h
      simp only [runFrom, executed]
      exact ih h
    · exact ⟨.ok outcome, left, by simp only [runFrom, executed]⟩

/-- Inputs that a run does not need are only added to what it leaves queued. -/
theorem Runs.feedAll {m after : Machine} {result : Except MachineError Outcome}
    (runs : m.Runs result after) (served : result ≠ .ok .awaitingInput) (values : List Word) :
    (m.feedAll values).Runs result (after.feedAll values) := by
  obtain ⟨fuel, h⟩ := runs
  refine ⟨fuel, ?_⟩
  cases halted : m.isHalted with
  | true =>
    rw [run_of_isHalted halted] at h
    rw [run_of_isHalted (m := m.feedAll values) halted]
    cases h
    rfl
  | false =>
    rw [run_eq_runFrom halted] at h
    rw [run_eq_runFrom (m := m.feedAll values) halted]
    exact runFrom_feedAll h served values

theorem Runs.starved {m after : Machine} (runs : m.Runs (.ok .awaitingInput) after) :
    after.pending = [] := by
  have live := runs.live
  obtain ⟨fuel, h⟩ := runs
  rw [run_eq_runFrom live] at h
  exact (runFrom_awaitingInput h).1

/-- Feeding a starved machine and running it on is the same as having fed it before the run. -/
theorem Runs.feedAll_iff {m after : Machine} (runs : m.Runs (.ok .awaitingInput) after)
    (values : List Word) (result : Except MachineError Outcome) (last : Machine) :
    (m.feedAll values).Runs result last ↔ (after.feedAll values).Runs result last := by
  have live := runs.live
  have parked : after.isHalted = false := by simp [isHalted, runs.status, statusAfter]
  obtain ⟨fuel, h⟩ := runs
  rw [run_eq_runFrom live] at h
  obtain ⟨_, spent, onward⟩ := runFrom_awaitingInput h
  have early : ∀ more, (m.feedAll values).run (spent + more) =
      (after.feedAll values).run more := by
    intro more
    rw [run_eq_runFrom (m := m.feedAll values) live,
      run_eq_runFrom (m := after.feedAll values) parked]
    exact onward values more
  constructor
  · rintro ⟨more, ends⟩
    exact ⟨more, by rw [← early]; exact run_mono (by omega) ends⟩
  · rintro ⟨more, ends⟩
    exact ⟨spent + more, by rw [early]; exact ends⟩

theorem Runs.of_feedAll {m last : Machine} {values : List Word}
    {result : Except MachineError Outcome} (runs : (m.feedAll values).Runs result last) :
    ∃ early after, m.Runs early after := by
  obtain ⟨fuel, h⟩ := runs
  cases halted : m.isHalted with
  | true => exact ⟨_, _, 0, run_of_isHalted halted 0⟩
  | false =>
    rw [run_eq_runFrom (m := m.feedAll values) halted] at h
    obtain ⟨early, after, ends⟩ := runFrom_of_feedAll (m := { m with status := .running }) h
    exact ⟨early, after, fuel, by rw [run_eq_runFrom halted]; exact ends⟩

end Machine

end Intcode
