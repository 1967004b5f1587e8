import Mathlib.Data.List.Basic
import Intcode.Proofs.Machine.Calls

/-!
# Where the inputs go

An input instruction takes the next input off the queue and stores it. It takes it off first: where
it cannot be stored, the instruction fails and the input is gone. Nothing else takes inputs, and all
are taken in the order in which they were fed, so what was fed is what was taken and what is still
queued. The profile counts what was stored.
-/

namespace Intcode

namespace Machine

/-- What the next instruction stores if it is an input, read back from the memory. -/
def stored? (m : Machine) : Option Word :=
  match m.next, m.execute with
  | .ok (_, .input address), (.ok none, after) => (after.memory.get address).toOption
  | _, _ => none

/-- The next input, if the next instruction takes it without a place to store it. -/
def dropped? (m : Machine) : Option Word :=
  match m.budget.charge, m.next with
  | .ok _, .ok (_, .input address) =>
    match m.memory.target address with
    | .error _ => m.pending.head?
    | .ok _ => none
  | _, _ => none

/-- The input that the next instruction takes off the queue. -/
def taken? (m : Machine) : Option Word :=
  m.stored?.or m.dropped?

variable {m s after : Machine} {goesOn : Result → Prop} {call : Call}
  {earlier starts : List Machine} {answer : Answer}

/-! ## One instruction -/

theorem evaluate_input_iff {instr : Instruction} {ops : Operands} {base : Word} {effect : Effect}
    (h : Effect.evaluate instr ops base = .ok effect) :
    instr.opcode = .input ↔ ∃ address, effect = .input address := by
  cases opcode : instr.opcode with
  | input | output | lessThan | equals | halt =>
    simp only [Effect.evaluate, opcode] at h
    cases h
    simp
  | jumpIfTrue | jumpIfFalse =>
    simp only [Effect.evaluate, Effect.branch, opcode] at h
    split at h <;> cases h <;> simp
  | add | mul | adjustBase =>
    simp only [Effect.evaluate, Effect.store, opcode] at h
    split at h <;> cases h
    simp

theorem next_input_iff {instr : Instruction} {effect : Effect} (next : m.next = .ok (instr, effect)) :
    instr.opcode = .input ↔ ∃ address, effect = .input address := by
  unfold Machine.next at next
  repeat' split at next
  all_goals cases next
  next evaluated => exact evaluate_input_iff evaluated

theorem get_write_of_target {memory : Memory} {address : Word} {index : Nat}
    (target : memory.target address = .ok index) (value : Word) :
    (memory.write index value).get address = .ok value := by
  have admitted := Memory.admits_of_target target
  unfold Memory.target at target
  split at target
  · cases target
  · next found =>
    split at target <;> cases target
    simp only [Memory.get, found, Memory.cell_write admitted, if_true]

theorem none_taken {instr : Instruction} {effect : Effect} (next : m.next = .ok (instr, effect))
    (other : ∀ address, effect ≠ .input address) : m.stored? = none ∧ m.dropped? = none := by
  unfold stored? dropped?
  rw [next]
  cases effect with
  | input address => exact absurd rfl (other address)
  | write | jump | proceed | rebase | output | halt =>
    exact ⟨rfl, by cases m.budget.charge <;> rfl⟩

/-- What an instruction takes is the front of the queue, and what it stores is counted. -/
theorem execute_inputs {result : Result} (executed : m.execute = (result, after)) :
    m.pending = m.taken?.toList ++ after.pending ∧
      after.profile.count .input = m.profile.count .input + m.stored?.toList.length := by
  cases executes executed with
  | unpaid unpaid =>
    cases next : m.next <;> simp [taken?, dropped?, stored?, unpaid, next, executed]
  | faulty charged next => simp [taken?, dropped?, stored?, charged, next]
  | @applied paid instr effect _ _ charged next applies =>
    have opcode := next_input_iff next
    -- any other effect leaves the queue and the count of inputs alone
    have passed : (∀ address, effect ≠ .input address) →
        m.pending = m.taken?.toList ++ m.pending ∧ m.stored? = none ∧
          (m.profile.record instr.opcode).count .input = m.profile.count .input := by
      intro other
      obtain ⟨stored, dropped⟩ := none_taken next other
      have apart : Opcode.input ≠ instr.opcode := fun same => by
        obtain ⟨address, rfl⟩ := opcode.mp same.symm
        exact other address rfl
      refine ⟨by rw [taken?, stored, dropped]; rfl, stored, ?_⟩
      rw [Profile.count_record, if_neg apart, Nat.add_zero]
    cases applies with
    | moved other =>
      obtain ⟨queue, none, count⟩ := passed other
      rw [none]
      exact ⟨queue, count⟩
    | emitted | halted =>
      obtain ⟨queue, none, count⟩ := passed (by simp)
      rw [none]
      exact ⟨queue, count⟩
    | failed other =>
      obtain ⟨queue, none, -⟩ := passed other
      rw [none]
      exact ⟨queue, rfl⟩
    | @starved address queue =>
      replace queue : m.pending = [] := queue
      cases target : m.memory.target address <;>
        simp [taken?, dropped?, stored?, charged, next, executed, queue, target]
    | @stored address value pending index queue target =>
      replace queue : m.pending = value :: pending := queue
      replace target : m.memory.target address = .ok index := target
      have counts : instr.opcode = .input := opcode.mpr ⟨address, rfl⟩
      simp [taken?, dropped?, stored?, charged, next, executed, queue, target, counts, advance,
        Profile.count_record, get_write_of_target target value, Except.toOption]
    | @dropped address value pending cause queue target =>
      replace queue : m.pending = value :: pending := queue
      replace target : m.memory.target address = .error cause := target
      simp [taken?, dropped?, stored?, charged, next, executed, queue, target]

/-- An input is only dropped by an instruction that fails with a memory fault. -/
theorem error_of_dropped {value : Word} (dropped : m.dropped? = some value) :
    ∃ cause, m.execute.1 = .error (m.failure (.memory cause)) := by
  unfold dropped? at dropped
  split at dropped
  · next paid instr address charged next =>
    cases target : m.memory.target address with
    | error e =>
      rw [target] at dropped
      obtain ⟨pending, queue⟩ := List.head?_eq_some_iff.mp dropped
      refine ⟨e, ?_⟩
      rw [execute_effect charged next]
      simp only [apply, queue, target]
      rfl
    | ok index =>
      rw [target] at dropped
      cases dropped
  · cases dropped

theorem ok_of_stored {value : Word} (stored : m.stored? = some value) :
    m.execute.1 = .ok none := by
  unfold stored? at stored
  split at stored
  · next executed => rw [executed]
  · cases stored

theorem not_stored_and_dropped (m : Machine) : m.stored? = none ∨ m.dropped? = none := by
  cases stored : m.stored? with
  | none => exact .inl rfl
  | some value =>
    cases dropped : m.dropped? with
    | none => exact .inr rfl
    | some other =>
      obtain ⟨cause, failed⟩ := error_of_dropped dropped
      cases (ok_of_stored stored).symm.trans failed

/-! ## Calls -/

theorem Reaches.inputs (reaches : Reaches goesOn m earlier s) :
    m.pending = earlier.filterMap taken? ++ s.pending ∧
      s.profile.count .input = m.profile.count .input + (earlier.filterMap stored?).length := by
  induction reaches with
  | here m => exact ⟨rfl, rfl⟩
  | @next m s earlier goes rest ih =>
    obtain ⟨queue, count⟩ := execute_inputs (Prod.eta m.execute).symm
    obtain ⟨later, total⟩ := ih
    constructor
    · rw [queue, later, List.filterMap_cons]
      cases m.taken? <;> rfl
    · rw [total, count, List.filterMap_cons]
      cases m.stored? with
      | none => rfl
      | some value =>
        simp only [Option.toList_some, List.length_cons, List.length_nil]
        omega

theorem Performs.inputs (performs : m.Performs call starts answer after) :
    m.pending ++ call.fed = starts.filterMap taken? ++ after.pending ∧
      after.profile.count .input =
        m.profile.count .input + (starts.filterMap stored?).length := by
  cases performs with
  | passive inert performed =>
    obtain ⟨memory, rfl⟩ := perform_inert inert performed
    exact ⟨rfl, rfl⟩
  | refused halted returns =>
    rw [fed_of_drives returns.drives, List.append_nil]
    exact ⟨rfl, rfl⟩
  | @driven s after earlier result answer starts stops returns =>
    rw [fed_of_drives starts.drives, List.append_nil]
    have whole := (starts.reaches.mono fun _ _ => trivial).snoc.inputs
    rw [stops] at whole
    exact whole

theorem History.inputs {calls : List Call} {answers : List Answer} {last : Machine}
    (history : m.History calls starts answers last) :
    m.pending ++ calls.flatMap Call.fed = starts.filterMap taken? ++ last.pending ∧
      last.profile.count .input =
        m.profile.count .input + (starts.filterMap stored?).length := by
  induction history with
  | done m => exact ⟨List.append_nil _, rfl⟩
  | @call m mid last call calls starts more answer answers performs rest ih =>
    obtain ⟨queue, count⟩ := performs.inputs
    obtain ⟨later, total⟩ := ih
    constructor
    · rw [List.flatMap_cons, ← List.append_assoc, queue, List.append_assoc, later,
        List.filterMap_append, List.append_assoc]
    · rw [total, count, List.filterMap_append, List.length_append, Nat.add_assoc]

theorem length_taken (starts : List Machine) :
    (starts.filterMap taken?).length =
      (starts.filterMap stored?).length + (starts.filterMap dropped?).length := by
  induction starts with
  | nil => rfl
  | cons t starts ih =>
    have only := not_stored_and_dropped t
    simp only [List.filterMap_cons, taken?]
    cases stored : t.stored? with
    | none =>
      cases t.dropped? with
      | none => exact ih
      | some value =>
        simp only [Option.none_or, List.length_cons, ih]
        omega
    | some value =>
      have none : t.dropped? = none := only.resolve_left (by simp [stored])
      simp only [none, Option.some_or, List.length_cons, ih]
      omega

theorem taken_of_no_dropped (kept : starts.filterMap dropped? = []) :
    starts.filterMap taken? = starts.filterMap stored? := by
  refine List.filterMap_congr fun t inside => ?_
  rw [taken?, List.filterMap_eq_nil_iff.mp kept t inside, Option.or_none]

/-- Inputs are taken in the order in which they were fed, none twice, and counted if they are
stored. One is lost exactly if it has been taken without a place to store it, and then its call
fails. -/
theorem inputs_taken_or_pending {calls : List Call} {answers : List Answer} {last : Machine}
    (history : m.History calls starts answers last) :
    m.pending ++ calls.flatMap Call.fed = starts.filterMap taken? ++ last.pending ∧
    last.profile.count .input = m.profile.count .input + (starts.filterMap stored?).length ∧
    m.pending.length + (calls.flatMap Call.fed).length + m.profile.count .input =
      last.profile.count .input + last.pending.length + (starts.filterMap dropped?).length ∧
    (m.pending ++ calls.flatMap Call.fed = starts.filterMap stored? ++ last.pending ↔
      starts.filterMap dropped? = []) ∧
    ∀ t ∈ starts, ∀ value, t.dropped? = some value →
      ∃ answer ∈ answers, ∃ cause, answer.error? = some (t.failure (.memory cause)) := by
  obtain ⟨queue, count⟩ := history.inputs
  have lengths := congrArg List.length queue
  rw [List.length_append, List.length_append, length_taken] at lengths
  refine ⟨queue, count, by omega, ⟨fun whole => ?_, fun kept => ?_⟩,
    fun t inside value dropped => ?_⟩
  · have same := congrArg List.length (queue.symm.trans whole)
    rw [List.length_append, List.length_append, length_taken] at same
    exact List.length_eq_zero_iff.mp (by omega)
  · rw [queue, taken_of_no_dropped kept]
  · obtain ⟨cause, failed⟩ := error_of_dropped dropped
    obtain ⟨answer, member, found⟩ := history.fails inside failed
    exact ⟨answer, member, cause, found⟩

/-- Has a place for its first input and none for the second. -/
def cramped : Machine :=
  load ⟨#[3, 0, 3, 1152921504606846975, 99]⟩

theorem cramped_history :
    ∃ starts last, cramped.History [.feedAll [5, 6, 7], .run] starts
      [.done, .ran (.error ⟨.memory (.outOfMemory 1152921504606846975), 2⟩)] last ∧
      last.pending = [7] ∧ last.profile.count .input = 1 := by
  have performed : (performAll 2 [.feedAll [5, 6, 7], .run] cramped).map
      (fun out => (out.1, out.2.pending, out.2.profile.count .input)) =
      some ([.done, .ran (.error ⟨.memory (.outOfMemory 1152921504606846975), 2⟩)], [7], 1) := by
    decide +kernel
  obtain ⟨⟨answers, last⟩, performed, same⟩ := Option.map_eq_some_iff.mp performed
  obtain ⟨rfl, queue, count⟩ : answers = _ ∧ last.pending = [7] ∧
      last.profile.count .input = 1 := by simpa using same
  obtain ⟨starts, history⟩ := history_of_performAll performed
  exact ⟨starts, last, history, queue, count⟩

theorem inputs_taken_or_pending_cramped :
    ∃ starts answers last, cramped.History [.feedAll [5, 6, 7], .run] starts answers last ∧
      starts.filterMap taken? = [5, 6] ∧ (starts.filterMap stored?).length = 1 ∧
      last.pending = [7] := by
  obtain ⟨starts, last, history, queue, count⟩ := cramped_history
  obtain ⟨whole, stored, -⟩ := inputs_taken_or_pending history
  rw [queue] at whole
  have taken : [5, 6] ++ [7] = starts.filterMap taken? ++ [7] := whole
  rw [count] at stored
  have none : cramped.profile.count .input = 0 := by decide
  exact ⟨starts, _, last, history, (List.append_cancel_right taken).symm, by omega, queue⟩

/-- The second input is neither stored nor pending. -/
theorem inputs_are_lost :
    ¬ ∀ (m : Machine) (calls : List Call) (starts : List Machine) (answers : List Answer)
      (last : Machine), m.History calls starts answers last →
      m.pending ++ calls.flatMap Call.fed = starts.filterMap stored? ++ last.pending := by
  intro kept
  obtain ⟨starts, last, history, queue, count⟩ := cramped_history
  have whole := congrArg List.length (kept _ _ _ _ _ history)
  have stored := history.inputs.2
  have none : cramped.profile.count .input = 0 := by decide
  rw [List.length_append, queue] at whole
  have three : (cramped.pending ++ [Call.feedAll [5, 6, 7], .run].flatMap Call.fed).length = 3 := rfl
  simp only [List.length_append, List.length_cons, List.length_nil] at whole three
  omega

end Machine

end Intcode
