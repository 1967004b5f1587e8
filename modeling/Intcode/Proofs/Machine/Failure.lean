import Intcode.Proofs.Machine.Calls
import Intcode.Proofs.Machine.Feeding

/-!
# Failing instructions

An instruction that fails may have been paid for and may have taken an input, but the memory, the
registers and the profile are as before, and the error names its own place. A call that fails ends
with such an instruction or, in a run to the halt, with one that waits for an input. So it leaves
the program where the last instruction that succeeded has got it.
-/

namespace Intcode

namespace Machine

variable {m s after : Machine} {e : MachineError}

/-- The program is where it was. -/
structure Keeps (m after : Machine) : Prop where
  memory : after.memory = m.memory
  registers : after.registers = m.registers
  profile : after.profile = m.profile

/-- Failing costs a payment or an input at most. -/
theorem execute_error (h : m.execute = (.error e, after)) :
    e.pc = m.pc ∧ ∃ budget pending, after = { m with budget, pending } := by
  cases executes h with
  | unpaid => exact ⟨rfl, m.budget, m.pending, rfl⟩
  | @faulty paid => exact ⟨rfl, paid, m.pending, rfl⟩
  | @applied paid instr effect _ _ charged next applies =>
    cases applies with
    | failed => exact ⟨rfl, paid, m.pending, rfl⟩
    | @dropped address value pending => exact ⟨rfl, paid, pending, rfl⟩

theorem keeps_of_error (h : m.execute = (.error e, after)) : m.Keeps after ∧ e.pc = m.pc := by
  obtain ⟨place, budget, pending, rfl⟩ := execute_error h
  exact ⟨⟨rfl, rfl, rfl⟩, place⟩

theorem keeps_of_awaitingInput (h : m.execute = (.ok (some .awaitingInput), after)) :
    m.Keeps after := by
  obtain ⟨-, rfl⟩ := execute_awaitingInput h
  exact ⟨rfl, rfl, rfl⟩

theorem step_error (failed : m.step = (.error e, after)) : m.Keeps after ∧ e.pc = m.pc := by
  cases halted : m.isHalted with
  | true =>
    rw [step_of_isHalted halted] at failed
    cases failed
    exact ⟨⟨rfl, rfl, rfl⟩, rfl⟩
  | false =>
    rw [step_of_live halted] at failed
    obtain ⟨⟨memory, registers, profile⟩, place⟩ := keeps_of_error failed
    exact ⟨⟨memory, registers, profile⟩, place⟩

/-! ## Calls that fail -/

/-- The machine that the last of some instructions left, or else the one from before them. -/
def afterAll (m : Machine) (executed : List Machine) : Machine :=
  match executed.getLast? with
  | none => m
  | some t => t.execute.2

theorem Reaches.eq_afterAll {goesOn : Result → Prop} {executed : List Machine}
    (reaches : Reaches goesOn m executed s) : s = m.afterAll executed := by
  induction reaches with
  | here m => rfl
  | @next m s executed goes rest ih =>
    rw [ih, afterAll, afterAll, List.getLast?_cons]
    cases executed.getLast? <;> rfl

/-- A call executes the instructions started in these machines, one after the other and all with
success, and no more: the machine had halted before it, or the next instruction fails or, in a run
to the halt, waits for an input. -/
structure StopsAfter (m : Machine) (call : Call) (executed : List Machine) (e : MachineError)
    (after : Machine) : Prop where
  succeeded : ∀ t ∈ executed, ∃ outcome, t.execute.1 = .ok outcome
  stopped : (m.isHalted = true ∧ executed = [] ∧ after = m ∧ e.fault = .halted) ∨
    ∃ s, m.Starts call executed s ∧ (s.execute = (.error e, after) ∨
      call = .runToHalt ∧ s.execute = (.ok (some .awaitingInput), after) ∧
        e.fault = .inputExhausted)

/-- A call fails with its last instruction or because that waits for an input. -/
theorem Call.Returns.error {call : Call} {outputs : List Word} {result : Result} {answer : Answer}
    (returns : call.Returns outputs result after answer) (failed : answer.error? = some e) :
    result = .error e ∨ call = .runToHalt ∧ result = .ok (some .awaitingInput) ∧
      e = after.failure .inputExhausted := by
  cases returns with
  | step =>
    cases result with
    | error e => exact .inl (congrArg _ (Option.some.inj failed))
    | ok outcome => cases failed
  | @run _ _ _ ending ends =>
    cases ending with
    | error e =>
      cases failed
      exact .inl ends.symm
    | ok outcome => cases failed
  | runToHalt ends =>
    cases ends with
    | failed => exact .inl (congrArg _ (Option.some.inj failed))
    | starved => exact .inr ⟨rfl, rfl, (Option.some.inj failed).symm⟩
    | halted => cases failed

theorem Starts.keeps {call : Call} {executed : List Machine} (starts : m.Starts call executed s)
    (kept : s.Keeps after) : (m.afterAll executed).Keeps after ∧ (m.afterAll executed).pc = s.pc := by
  have reached := starts.reaches.eq_afterAll
  cases executed with
  | nil =>
    subst reached
    exact ⟨⟨kept.memory, kept.registers, kept.profile⟩, rfl⟩
  | cons t executed =>
    have same : m.afterAll (t :: executed) = s := by
      rw [reached, afterAll, afterAll, List.getLast?_cons]
    rw [same]
    exact ⟨kept, rfl⟩

theorem Performs.error {call : Call} {starts : List Machine} {answer : Answer}
    (drives : call.drives = true) (performs : m.Performs call starts answer after)
    (failed : answer.error? = some e) :
    ∃ executed, m.StopsAfter call executed e after ∧
      (m.afterAll executed).Keeps after ∧ e.pc = (m.afterAll executed).pc := by
  cases performs with
  | passive inert => cases inert.symm.trans drives
  | refused halted returns =>
    rcases returns.error failed with same | ⟨-, same, -⟩
    · cases same
      exact ⟨[], ⟨by simp, .inl ⟨halted, rfl, rfl, rfl⟩⟩, ⟨rfl, rfl, rfl⟩, rfl⟩
    · cases same
  | @driven s after executed result answer starts stops returns =>
    have succeeded : ∀ t ∈ executed, ∃ outcome, t.execute.1 = .ok outcome :=
      fun t inside => Call.ok_of_goesOn (starts.reaches.goes t inside)
    -- waiting for an input is a success of the instruction and a failure of the call
    rcases returns.error failed with rfl | ⟨follows, rfl, rfl⟩
    · obtain ⟨kept, place⟩ := keeps_of_error stops
      obtain ⟨keeps, there⟩ := starts.keeps kept
      exact ⟨executed, ⟨succeeded, .inr ⟨s, starts, .inl stops⟩⟩, keeps, place.trans there.symm⟩
    · have kept := keeps_of_awaitingInput stops
      obtain ⟨keeps, there⟩ := starts.keeps kept
      have place : after.pc = s.pc := congrArg Registers.pc kept.registers
      exact ⟨executed, ⟨succeeded, .inr ⟨s, starts, .inr ⟨follows, stops, rfl⟩⟩⟩, keeps,
        place.trans there.symm⟩

/-- A failing instruction has no effect on the program. -/
theorem failures_keep_program (m : Machine) :
    (∀ e after, m.step = (.error e, after) → m.Keeps after ∧ e.pc = m.pc) ∧
    (∀ fuel e after, m.run fuel = some (.error e, after) →
      ∃ executed, m.StopsAfter .run executed e after ∧
        (m.afterAll executed).Keeps after ∧ e.pc = (m.afterAll executed).pc) ∧
    ∀ fuel e after, m.runToHalt fuel = some (.error e, after) →
      ∃ executed, m.StopsAfter .runToHalt executed e after ∧
        (m.afterAll executed).Keeps after ∧ e.pc = (m.afterAll executed).pc := by
  refine ⟨fun e after failed => step_error failed, fun fuel e after ran => ?_,
    fun fuel e after ran => ?_⟩
  · obtain ⟨starts, performs⟩ := performs_iff_perform.mpr
      ⟨fuel, show m.perform fuel .run = some (.ran (.error e), after) by rw [perform, ran]; rfl⟩
    exact performs.error rfl rfl
  · obtain ⟨starts, performs⟩ := performs_iff_perform.mpr
      ⟨fuel, show m.perform fuel .runToHalt = some (.followed (.error e), after) by
        rw [perform, ran]; rfl⟩
    exact performs.error rfl rfl

/-- Stores a sum, then cannot add one to the greatest word. -/
def overflowing : Machine :=
  load ⟨#[1101, 2, 3, 0, 1101, 9223372036854775807, 1, 0, 99]⟩

/-- Puts out 7, then waits. -/
def waiting : Machine :=
  load ⟨#[104, 7, 3, 0, 99]⟩

theorem failures_keep_program_overflowing :
    (∃ e after, overflowing.step.2.step = (.error e, after) ∧
      overflowing.step.2.Keeps after ∧ e.pc = 4) ∧
    (∃ e after, overflowing.run 2 = some (.error e, after) ∧
      ∃ executed, overflowing.StopsAfter .run executed e after ∧
        (overflowing.afterAll executed).Keeps after) ∧
    ∃ e after, waiting.runToHalt 2 = some (.error e, after) ∧
      ∃ executed, waiting.StopsAfter .runToHalt executed e after ∧
        (waiting.afterAll executed).Keeps after := by
  have stepped : overflowing.step.2.step.1 = .error ⟨.arithmeticOverflow 1101, 4⟩ := by
    decide +kernel
  have ran : (overflowing.run 2).map Prod.fst =
      some (.error ⟨.arithmeticOverflow 1101, 4⟩) := by decide +kernel
  have followed : (waiting.runToHalt 2).map Prod.fst = some (.error ⟨.inputExhausted, 2⟩) := by
    decide +kernel
  have whole : overflowing.step.2.step =
      (.error ⟨.arithmeticOverflow 1101, 4⟩, overflowing.step.2.step.2) := Prod.ext stepped rfl
  obtain ⟨⟨_, after⟩, ran, rfl⟩ := Option.map_eq_some_iff.mp ran
  obtain ⟨⟨_, last⟩, followed, rfl⟩ := Option.map_eq_some_iff.mp followed
  obtain ⟨executed, stops, keeps, -⟩ := (failures_keep_program overflowing).2.1 2 _ after ran
  obtain ⟨before, halts, same, -⟩ := (failures_keep_program waiting).2.2 2 _ last followed
  exact ⟨⟨_, _, whole, ((failures_keep_program _).1 _ _ whole).1, rfl⟩,
    ⟨_, after, ran, executed, stops, keeps⟩, ⟨_, last, followed, before, halts, same⟩⟩

end Machine

end Intcode
