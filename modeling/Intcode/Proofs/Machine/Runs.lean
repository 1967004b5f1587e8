import Intcode.Machine

/-!
# Runs that come to an end

An instruction that cannot be paid for or has no effect fails; any other makes the change its
effect asks for. Fuel only decides whether a run of such instructions is followed to its end.
`Runs` leaves it out: a run that ends has one result and leaves one machine, whatever fuel it was
given. Only starving and halting change the status of a machine that executes.
-/

namespace Intcode

/-- Results can be compared. -/
instance decidableEqExcept {ε : Type u} {α : Type v} [DecidableEq ε] [DecidableEq α] :
    DecidableEq (Except ε α)
  | .error e, .error e' => decidable_of_iff (e = e') ⟨congrArg _, Except.error.inj⟩
  | .ok a, .ok b => decidable_of_iff (a = b) ⟨congrArg _, Except.ok.inj⟩
  | .error _, .ok _ => isFalse nofun
  | .ok _, .error _ => isFalse nofun

/-- The memory after storing a value where it is admitted, or as it was. -/
inductive Memory.Updates (m : Memory) : Memory → Prop where
  | same : Updates m m
  | write {index : Nat} {value : Word} (admitted : m.admits index = true) :
      Updates m (m.write index value)

theorem Memory.Updates.size_le {m after : Memory} (updates : m.Updates after) :
    m.size ≤ after.size := by
  cases updates with
  | same => exact Nat.le_refl _
  | write admitted =>
    rw [size_write admitted]
    omega

/-- A memory that can be allocated stays so. -/
theorem Memory.Updates.size_le_capacity {m after : Memory} (updates : m.Updates after)
    (small : m.size ≤ capacity) : after.size ≤ capacity := by
  cases updates with
  | same => exact small
  | write admitted =>
    rw [size_write admitted]
    rw [admits_iff] at admitted
    omega

namespace Machine

/-- What comes of one instruction. -/
abbrev Result := Except MachineError (Option Outcome)

variable {m after : Machine} {opcode : Opcode} {effect : Effect} {result : Result}

theorem execute_unpaid {fault : Fault} (unpaid : m.budget.charge = .error fault) :
    m.execute = (.error (m.failure fault), m) := by
  simp only [execute, unpaid]

theorem execute_faulty {paid : Budget} {fault : Fault} (charged : m.budget.charge = .ok paid)
    (faulty : m.next = .error fault) :
    m.execute = (.error (m.failure fault), { m with budget := paid }) := by
  simp only [execute, charged, faulty]

theorem execute_effect {paid : Budget} {instr : Instruction} (charged : m.budget.charge = .ok paid)
    (next : m.next = .ok (instr, effect)) :
    m.execute = { m with budget := paid }.apply instr.opcode effect := by
  simp only [execute, charged, next]

/-! ## What can come of an instruction -/

/-- All that can come of an effect. An input fails or succeeds with the first value of the queue. -/
inductive Applies (m : Machine) (opcode : Opcode) : Effect → Result → Machine → Prop where
  | moved {effect : Effect} {memory : Memory} {registers : Registers}
      (other : ∀ address, effect ≠ .input address) :
      Applies m opcode effect (.ok none)
        { m with memory, registers, profile := m.profile.record opcode }
  | emitted {value : Word} :
      Applies m opcode (.output value) (.ok (some (.output value))) (m.advance opcode)
  | halted :
      Applies m opcode .halt (.ok (some .halted))
        { m with status := .halted, profile := m.profile.record opcode }
  | failed {effect : Effect} {cause : MemoryError} (other : ∀ address, effect ≠ .input address) :
      Applies m opcode effect (.error (m.failure (.memory cause))) m
  | starved {address : Word} (queue : m.pending = []) :
      Applies m opcode (.input address) (.ok (some .awaitingInput))
        { m with status := .awaitingInput, budget := m.budget.refund }
  | stored {address value : Word} {pending : List Word} {index : Nat}
      (queue : m.pending = value :: pending) (target : m.memory.target address = .ok index) :
      Applies m opcode (.input address) (.ok none)
        ({ m with memory := m.memory.write index value, pending }.advance opcode)
  | dropped {address value : Word} {pending : List Word} {cause : MemoryError}
      (queue : m.pending = value :: pending) (target : m.memory.target address = .error cause) :
      Applies m opcode (.input address) (.error (m.failure (.memory cause))) { m with pending }

theorem applies (h : m.apply opcode effect = (result, after)) :
    m.Applies opcode effect result after := by
  cases effect with
  | write address value =>
    simp only [apply] at h
    split at h <;> cases h
    · exact .failed (by simp)
    · exact .moved (by simp)
  | jump target =>
    simp only [apply] at h
    split at h <;> cases h
    · exact .failed (by simp)
    · exact .moved (by simp)
  | proceed | rebase =>
    cases h
    exact .moved (by simp)
  | input address =>
    simp only [apply] at h
    split at h
    · next queue =>
      cases h
      exact .starved queue
    · next value pending queue =>
      split at h <;> cases h
      · next target => exact .dropped queue target
      · next target => exact .stored queue target
  | output value =>
    cases h
    exact .emitted
  | halt =>
    cases h
    exact .halted

theorem apply_updates (m : Machine) (opcode : Opcode) (effect : Effect) :
    m.memory.Updates (m.apply opcode effect).2.memory := by
  cases effect with
  | write address value =>
    simp only [apply]
    split
    · exact .same
    · next found => exact .write (Memory.admits_of_target found)
  | jump target =>
    simp only [apply]
    split <;> exact .same
  | input address =>
    simp only [apply]
    split
    · exact .same
    · split
      · exact .same
      · next found => exact .write (Memory.admits_of_target found)
  | proceed | rebase | output | halt => exact .same

/-- All that can come of an instruction. -/
inductive Executes (m : Machine) : Result → Machine → Prop where
  | unpaid {fault : Fault} (unpaid : m.budget.charge = .error fault) :
      Executes m (.error (m.failure fault)) m
  | faulty {paid : Budget} {fault : Fault} (charged : m.budget.charge = .ok paid)
      (faulty : m.next = .error fault) :
      Executes m (.error (m.failure fault)) { m with budget := paid }
  | applied {paid : Budget} {instr : Instruction} {effect : Effect} {result : Result}
      {after : Machine} (charged : m.budget.charge = .ok paid) (next : m.next = .ok (instr, effect))
      (applies : { m with budget := paid }.Applies instr.opcode effect result after) :
      Executes m result after

theorem executes (h : m.execute = (result, after)) : m.Executes result after := by
  rcases charged : m.budget.charge with fault | paid
  · rw [execute_unpaid charged] at h
    cases h
    exact .unpaid charged
  · rcases next : m.next with fault | ⟨instr, effect⟩
    · rw [execute_faulty charged next] at h
      cases h
      exact .faulty charged next
    · rw [execute_effect charged next] at h
      exact .applied charged next (Machine.applies h)

/-- An instruction stores one value at most, in a cell that the memory admits. -/
theorem execute_updates (m : Machine) : m.memory.Updates m.execute.2.memory := by
  rcases charged : m.budget.charge with fault | paid
  · rw [execute_unpaid charged]
    exact .same
  · rcases next : m.next with fault | ⟨instr, effect⟩
    · rw [execute_faulty charged next]
      exact .same
    · rw [execute_effect charged next]
      exact apply_updates { m with budget := paid } instr.opcode effect

/-- The status of a machine after an instruction, by what came of it. -/
def statusAfter (before : Status) : Result → Status
  | .ok (some .awaitingInput) => .awaitingInput
  | .ok (some .halted) => .halted
  | _ => before

theorem execute_status (h : m.execute = (result, after)) :
    after.status = statusAfter m.status result := by
  cases executes h with
  | unpaid | faulty => rfl
  | applied charged next applies => cases applies <;> rfl

theorem runFrom_status {fuel : Nat} {m after : Machine} {result : Except MachineError Outcome}
    (h : runFrom fuel m = some (result, after)) :
    after.status = statusAfter m.status (result.map some) := by
  induction fuel generalizing m with
  | zero => cases h
  | succ fuel ih =>
    rcases executed : m.execute with ⟨e | _ | outcome, left⟩
    · simp only [runFrom, executed] at h
      cases h
      exact execute_status executed
    · simp only [runFrom, executed] at h
      rw [ih h, execute_status executed]
      rfl
    · simp only [runFrom, executed] at h
      cases h
      exact execute_status executed

@[simp] theorem outcome_suspension (m : Machine) (outcome : Outcome) :
    (m.suspension outcome).outcome = outcome := by
  cases outcome <;> rfl

/-- The output that ended a run. -/
def emitted : Except MachineError Outcome → Option Word
  | .ok (.output value) => some value
  | _ => none

/-- The machine runs to a suspension or an error and is left as it then is. -/
def Runs (m : Machine) (result : Except MachineError Outcome) (after : Machine) : Prop :=
  ∃ fuel, m.run fuel = some (result, after)

theorem runFrom_mono {fuel more : Nat} (enough : fuel ≤ more) {m : Machine}
    {out : Except MachineError Outcome × Machine} (h : runFrom fuel m = some out) :
    runFrom more m = some out := by
  induction fuel generalizing more m with
  | zero => cases h
  | succ fuel ih =>
    obtain ⟨more, rfl⟩ : ∃ rest, more = rest + 1 := ⟨more - 1, by omega⟩
    rcases executed : m.execute with ⟨_ | _ | outcome, after⟩
    · simpa only [runFrom, executed] using h
    · simp only [runFrom, executed] at h ⊢
      exact ih (by omega) h
    · simpa only [runFrom, executed] using h

theorem run_mono {fuel more : Nat} (enough : fuel ≤ more) {m : Machine}
    {out : Except MachineError Outcome × Machine} (h : m.run fuel = some out) :
    m.run more = some out := by
  rw [run] at h ⊢
  split at h
  · exact h
  · exact runFrom_mono enough h

theorem Runs.unique {m : Machine} {result other : Except MachineError Outcome}
    {after left : Machine} (one : m.Runs result after) (two : m.Runs other left) :
    result = other ∧ after = left := by
  obtain ⟨fuel, h⟩ := one
  obtain ⟨more, h'⟩ := two
  have same := (run_mono (Nat.le_max_left fuel more) h).symm.trans
    (run_mono (Nat.le_max_right fuel more) h')
  simpa only [Option.some.injEq, Prod.mk.injEq] using same

theorem run_eq_runFrom {m : Machine} (live : m.isHalted = false) (fuel : Nat) :
    m.run fuel = runFrom fuel { m with status := .running } := by
  simp [run, resume, live]

/-- A machine that halted before only says so. -/
theorem run_of_isHalted {m : Machine} (halted : m.isHalted = true) (fuel : Nat) :
    m.run fuel = some (.error (m.failure .halted), m) := by
  simp [run, resume, halted]

theorem Runs.live {m after : Machine} {outcome : Outcome} (runs : m.Runs (.ok outcome) after) :
    m.isHalted = false := by
  obtain ⟨fuel, h⟩ := runs
  cases halted : m.isHalted with
  | true =>
    rw [run_of_isHalted halted] at h
    cases h
  | false => rfl

theorem Runs.status_of_live {m after : Machine} {result : Except MachineError Outcome}
    (runs : m.Runs result after) (live : m.isHalted = false) :
    after.status = statusAfter .running (result.map some) := by
  obtain ⟨fuel, h⟩ := runs
  rw [run_eq_runFrom live] at h
  exact runFrom_status h

theorem Runs.status {m after : Machine} {outcome : Outcome} (runs : m.Runs (.ok outcome) after) :
    after.status = statusAfter .running (.ok (some outcome)) :=
  runs.status_of_live runs.live

/-- A machine that had not halted has done so after a run only if the run came to the halt. -/
theorem Runs.isHalted_iff {m after : Machine} {result : Except MachineError Outcome}
    (runs : m.Runs result after) (live : m.isHalted = false) :
    after.isHalted = true ↔ result = .ok .halted := by
  rw [isHalted, runs.status_of_live live]
  rcases result with e | _ | _ | _ <;> simp [Except.map, statusAfter]

end Machine

end Intcode
