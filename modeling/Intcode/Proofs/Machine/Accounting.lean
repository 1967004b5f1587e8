import Intcode.Proofs.Machine.Lifecycle

/-!
# Step accounting

A machine pays for an instruction before it starts it and counts it in its profile after it is done.
The two differ by the instructions that fail in between: they stay paid for and are never counted.
Each of them fails its call, so the difference is the number of those calls. An instruction that
waits for an input is neither paid for nor counted, however often it is tried.
-/

namespace Intcode

namespace Machine

/-- The instruction at the program counter is done when it is executed, and so counts. -/
def counts (m : Machine) : Bool :=
  match m.execute.1 with
  | .ok (some .awaitingInput) | .error _ => false
  | .ok _ => true

/-- The instruction at the program counter is paid for and then fails. -/
def wastes (m : Machine) : Bool :=
  match m.execute.1 with
  | .ok _ => false
  | .error e => e.fault.isOfInstruction

/-- A call that drove the machine has failed at an instruction that was paid for. -/
def Answer.isWasted (answer : Answer) : Bool :=
  answer.isOfDrive && answer.error?.any fun e => e.fault.isOfInstruction

variable {m s after last : Machine} {goesOn : Result → Prop} {call : Call} {calls : List Call}
  {earlier starts : List Machine} {answer : Answer} {answers : List Answer}

/-! ## One instruction -/

theorem execute_total (m : Machine) :
    m.execute.2.profile.total = m.profile.total + if m.counts then 1 else 0 := by
  rw [counts]
  rcases executed : m.execute with ⟨result, after⟩
  cases executes executed with
  | unpaid | faulty => simp
  | applied charged next applies =>
    cases applies with
    | moved | emitted | halted | stored => simp [advance, Profile.total_record]
    | failed | starved | dropped => simp

/-- Failing otherwise than for want of steps, an instruction has been paid for. -/
theorem isOfInstruction_of_affords (covered : m.Affords m.budget.limit) {e : MachineError}
    (failed : m.execute = (.error e, after)) : e.fault.isOfInstruction = true := by
  cases executes failed with
  | unpaid unpaid => cases unpaid.symm.trans (charge_of_affords covered)
  | faulty charged faulty => exact next_error faulty
  | applied charged next applies => cases applies <;> rfl

theorem execute_spends (m : Machine) :
    m.execute.2.steps =
      m.steps + (if m.counts then 1 else 0) + if m.wastes then 1 else 0 := by
  rw [counts, wastes]
  rcases spent_or_affords m with ⟨bound, limited, spent⟩ | covered
  · simp [execute_spent limited spent, Fault.isOfInstruction]
  · rcases executed : m.execute with ⟨e | _ | value | _ | _, after⟩
    case ok.some.awaitingInput =>
      obtain ⟨-, rfl⟩ := execute_awaitingInput executed
      simp [steps]
    case error =>
      have paid := execute_budget covered executed (by simp)
      simp [steps, paid, isOfInstruction_of_affords covered executed]
    all_goals
      have paid := execute_budget covered executed (by simp)
      simp [steps, paid]

/-! ## Calls -/

theorem Reaches.accounts (reaches : Reaches goesOn m earlier s) :
    s.profile.total = m.profile.total + earlier.countP counts ∧
      s.steps = m.steps + earlier.countP counts + earlier.countP wastes := by
  induction reaches with
  | here m => simp
  | @next m s earlier goes rest ih =>
    obtain ⟨total, paid⟩ := ih
    have first := execute_total m
    have spends := execute_spends m
    simp only [List.countP_cons] at *
    constructor
    · omega
    · omega

/-- The answer of a call tells whether its last instruction was wasted. -/
theorem Call.Returns.isWasted {outputs : List Word}
    (returns : call.Returns outputs s.execute.1 after answer) : answer.isWasted = s.wastes := by
  rw [wastes]
  generalize s.execute.1 = result at returns
  cases returns with
  | step => cases result <;> rfl
  | @run _ _ _ ending ends =>
    subst ends
    cases ending <;> rfl
  | runToHalt ends => cases ends <;> rfl

theorem Performs.accounts (performs : m.Performs call starts answer after) :
    after.profile.total = m.profile.total + starts.countP counts ∧
      after.steps = m.steps + starts.countP counts + starts.countP wastes ∧
      starts.countP wastes = if answer.isWasted then 1 else 0 := by
  have kind := performs.isOfDrive
  cases performs with
  | passive inert performed =>
    obtain ⟨memory, rfl⟩ := perform_inert inert performed
    simp [Answer.isWasted, kind, inert, steps, feedAll]
  | refused halted returns =>
    have failed := returns.error?_eq
    simp [Answer.isWasted, failed, failure, Fault.isOfInstruction]
  | @driven s after earlier result answer begins stops returns =>
    have same : s.execute.1 = result := by rw [stops]
    have left : s.execute.2 = after := by rw [stops]
    -- the instructions before the last one succeed, so that none of them is wasted
    have none : earlier.countP wastes = 0 := by
      refine List.countP_eq_zero.mpr fun t inside => ?_
      obtain ⟨outcome, fine⟩ := Call.ok_of_goesOn (begins.reaches.goes t inside)
      simp [wastes, fine]
    have last := Call.Returns.isWasted (same ▸ returns)
    have whole := (begins.reaches.mono fun _ _ => trivial).snoc.accounts
    rw [left] at whole
    refine ⟨whole.1, whole.2, ?_⟩
    rw [List.countP_append, none, last]
    simp [List.countP_cons]

theorem History.accounts (history : m.History calls starts answers last) :
    last.profile.total = m.profile.total + starts.countP counts ∧
      last.steps = m.steps + starts.countP counts + starts.countP wastes ∧
      starts.countP wastes = answers.countP Answer.isWasted := by
  induction history with
  | done m => simp
  | call performs rest ih =>
    obtain ⟨total, paid, failed⟩ := performs.accounts
    obtain ⟨later, spent, wasted⟩ := ih
    simp only [List.countP_append, List.countP_cons] at *
    refine ⟨?_, ?_, ?_⟩
    · omega
    · omega
    · omega

/-- What a machine has paid for is what it has done and what its calls have failed at. Waiting for
an input costs nothing. -/
theorem steps_accounted (p : Program) (limit : Option Nat)
    (history : (load p limit).History calls starts answers last) :
    last.steps = last.profile.total + answers.countP Answer.isWasted ∧
    (∀ bound ∈ limit, (∀ t ∈ starts, t.steps ≤ bound) ∧ last.steps ≤ bound) ∧
    ((∀ answer ∈ answers, answer.isWasted = false) → last.steps = last.profile.total) ∧
    last.profile.total = starts.countP counts ∧
    last.steps = starts.countP counts + starts.countP wastes ∧
    ∀ t ∈ starts, t.execute.1 = .ok (some .awaitingInput) →
      t.counts = false ∧ t.wastes = false ∧ t.execute.2.steps = t.steps ∧
        t.execute.2.profile = t.profile := by
  obtain ⟨total, paid, wasted⟩ := history.accounts
  have fresh : (load p limit).profile.total = 0 ∧ (load p limit).steps = 0 := ⟨rfl, rfl⟩
  have balance : last.steps = last.profile.total + answers.countP Answer.isWasted := by omega
  refine ⟨balance, ?_, ?_, by omega, by omega, ?_⟩
  · intro bound limited
    obtain ⟨each, final⟩ := (preserved_steps_le bound).history (m := load p limit)
      ⟨limited, Nat.zero_le bound⟩ history
    exact ⟨fun t inside => (each t inside).2, final.2⟩
  · intro clean
    have none : answers.countP Answer.isWasted = 0 :=
      List.countP_eq_zero.mpr fun answer member => by simp [clean answer member]
    omega
  · intro t inside waits
    obtain ⟨-, left⟩ := execute_awaitingInput (Prod.ext waits rfl : t.execute = (_, t.execute.2))
    refine ⟨by simp [counts, waits], by simp [wastes, waits], ?_, ?_⟩
    · rw [left]
      rfl
    · rw [left]

/-- Takes an input and then fails to add one to the greatest word. -/
def exceeding : Program :=
  ⟨#[3, 9, 1101, 9223372036854775807, 1, 0, 99]⟩

/-- Waits twice, takes its input, fails twice at the sum and then has spent its limit. -/
theorem steps_accounted_exceeding :
    ∃ starts answers last,
      (load exceeding (some 3)).History [.run, .step, .feed 5, .runToHalt, .run, .step] starts
        answers last ∧
      last.profile.total = 1 ∧ answers.countP Answer.isWasted = 2 ∧ last.steps = 3 ∧
      last.steps ≤ 3 := by
  have performed : (performAll 3 [.run, .step, .feed 5, .runToHalt, .run, .step]
      (load exceeding (some 3))).map
        (fun out => (out.2.profile.total, out.1.countP Answer.isWasted)) = some (1, 2) := by
    decide +kernel
  obtain ⟨⟨answers, last⟩, performed, same⟩ := Option.map_eq_some_iff.mp performed
  obtain ⟨total, wasted⟩ : last.profile.total = 1 ∧ answers.countP Answer.isWasted = 2 := by
    simpa using same
  obtain ⟨starts, history⟩ := history_of_performAll performed
  obtain ⟨balance, within, -⟩ := steps_accounted exceeding (some 3) history
  exact ⟨starts, answers, last, history, total, wasted, by omega, (within 3 rfl).2⟩

end Machine

end Intcode
