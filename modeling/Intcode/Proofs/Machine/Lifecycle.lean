import Intcode.Proofs.Machine.Faults
import Intcode.Proofs.Machine.Limits

/-!
# The life of a machine

A machine is ready until a call drives it for the first time. After that it waits for an input if
the latest such call ended in this way, has halted if a halt instruction was executed, and else is
running. Feeding it and changing its memory leave this alone. A machine that has halted stays where
it is: it executes nothing any more, and every call that would drive it fails.
-/

namespace Intcode

/-- The opcode of the instructions that suspend a machine in this way. -/
def Outcome.opcode : Outcome → Opcode
  | .output _ => .output
  | .awaitingInput => .input
  | .halted => .halt

/-- The opcode of an effect that no other opcode has. -/
def Effect.opcode? : Effect → Option Opcode
  | .input _ => some .input
  | .output _ => some .output
  | .halt => some .halt
  | _ => none

theorem Effect.opcode_of_evaluate {instr : Instruction} {ops : Operands} {base : Word}
    {effect : Effect} (h : evaluate instr ops base = .ok effect) {opcode : Opcode}
    (only : effect.opcode? = some opcode) : instr.opcode = opcode := by
  cases has : instr.opcode with
  | input | output | halt =>
    simp only [evaluate, has] at h
    cases h
    exact Option.some.inj only
  | lessThan | equals =>
    simp only [evaluate, has] at h
    cases h
    cases only
  | jumpIfTrue | jumpIfFalse =>
    simp only [evaluate, branch, has] at h
    split at h <;> cases h <;> cases only
  | add | mul | adjustBase =>
    simp only [evaluate, store, has] at h
    split at h <;> cases h
    cases only

namespace Machine

/-- The opcode of the instruction at the program counter, if the word there is one. -/
def opcode? (m : Machine) : Option Opcode :=
  match m.memory.get m.pc.toInt64 with
  | .error _ => none
  | .ok word => (Instruction.decode word).toOption.map Instruction.opcode

/-- A halt instruction is started here and does not fail. -/
def ExecutesHalt (m : Machine) : Prop :=
  m.opcode? = some .halt ∧ ∃ outcome, m.execute.1 = .ok outcome

/-- Answers of calls that drive a machine. -/
def Answer.isOfDrive : Answer → Bool
  | stepped _ | ran _ | followed _ => true
  | _ => false

/-- The call ended because the machine waits for an input. -/
inductive Answer.Waits : Answer → Prop where
  | stepped : Waits (.stepped (.ok (some .awaitingInput)))
  | ran : Waits (.ran (.ok .awaitingInput))
  | followed (pc : UInt64) : Waits (.followed (.error ⟨.inputExhausted, pc⟩))

/-- The answer of the latest call that drove the machine. -/
def latest (answers : List Answer) : Option Answer :=
  (answers.filter Answer.isOfDrive).getLast?

variable {m s after last : Machine} {call : Call} {calls : List Call} {starts : List Machine}
  {answer : Answer} {answers : List Answer}

/-! ## One instruction -/

theorem opcode_of_next {instr : Instruction} {effect : Effect}
    (next : m.next = .ok (instr, effect)) :
    m.opcode? = some instr.opcode ∧
      ∀ opcode, effect.opcode? = some opcode → instr.opcode = opcode := by
  unfold Machine.next at next
  split at next
  · cases next
  · next word fetched =>
    split at next
    · cases next
    · next decoded =>
      split at next
      · cases next
      · split at next <;> cases next
        next evaluated =>
          constructor
          · simp [opcode?, fetched, decoded, Except.toOption]
          · intro opcode only
            exact Effect.opcode_of_evaluate evaluated only

theorem opcode_of_suspends {outcome : Outcome} (h : m.execute = (.ok (some outcome), after)) :
    m.opcode? = some outcome.opcode := by
  cases executes h with
  | applied charged next applies =>
    obtain ⟨here, only⟩ := opcode_of_next next
    rw [here]
    cases applies with
    | emitted | halted | starved => exact congrArg some (only _ rfl)

theorem executesHalt_iff : m.ExecutesHalt ↔ m.execute.1 = .ok (some .halted) := by
  constructor
  · rintro ⟨halt, outcome, fine⟩
    cases executes (Prod.ext fine rfl : m.execute = (.ok outcome, m.execute.2)) with
    | @applied paid instr effect _ _ charged next =>
      have opcode : instr.opcode = .halt :=
        Option.some.inj ((opcode_of_next next).1.symm.trans halt)
      have stops : effect = .halt := by
        unfold Machine.next at next
        repeat' split at next
        all_goals cases next
        next evaluated =>
          simp only [Effect.evaluate, opcode] at evaluated
          cases evaluated
          rfl
      rw [execute_effect charged next, stops]
      rfl
  · intro halted
    have stops : m.execute = (.ok (some .halted), m.execute.2) := Prod.ext halted rfl
    exact ⟨opcode_of_suspends stops, _, halted⟩

/-! ## One call -/

theorem Performs.isOfDrive (performs : m.Performs call starts answer after) :
    answer.isOfDrive = call.drives := by
  cases performs with
  | passive inert performed =>
    rw [inert]
    cases call with
    | feed | feedAll | peek =>
      cases performed
      rfl
    | poke address value =>
      simp only [perform] at performed
      split at performed <;> cases performed <;> rfl
    | step | run | runToHalt => cases inert
  | refused _ returns | driven _ _ returns => cases returns <;> rfl

/-- A call waits if its last instruction does. -/
theorem Call.Returns.waits_iff {outputs : List Word} {result : Result}
    (returns : call.Returns outputs result after answer)
    (instruction : ∀ e, result = .error e → e.fault ≠ .inputExhausted) :
    answer.Waits ↔ result = .ok (some .awaitingInput) := by
  cases returns with
  | step =>
    constructor
    · rintro ⟨⟩
      rfl
    · rintro rfl
      exact .stepped
  | @run _ _ _ ending ends =>
    subst ends
    constructor
    · rintro ⟨⟩
      rfl
    · intro waits
      cases ending with
      | error e => cases waits
      | ok outcome =>
        cases waits
        exact .ran
  | runToHalt ends =>
    cases ends with
    | @failed e =>
      constructor
      · rintro ⟨⟩
        exact absurd rfl (instruction _ rfl)
      · rintro ⟨⟩
    | starved => exact ⟨fun _ => rfl, fun _ => .followed _⟩
    | halted =>
      constructor
      · rintro ⟨⟩
      · rintro ⟨⟩

/-- The instructions of a call before its last one do not halt. -/
theorem Starts.eq_of_executesHalt {earlier : List Machine} (begins : m.Starts call earlier s)
    {t : Machine} (inside : t ∈ earlier ++ [s]) (halts : t.ExecutesHalt) : t = s := by
  rcases List.mem_append.mp inside with before | here
  · have goes := begins.onward.goes t before
    rw [executesHalt_iff.mp halts] at goes
    rcases goes with plain | ⟨value, puts⟩
    · cases plain
    · cases puts
  · exact List.mem_singleton.mp here

theorem Starts.executesHalt_iff {earlier : List Machine} (begins : m.Starts call earlier s) :
    (∃ t ∈ earlier ++ [s], t.ExecutesHalt) ↔ s.ExecutesHalt := by
  constructor
  · rintro ⟨t, inside, halts⟩
    exact begins.eq_of_executesHalt inside halts ▸ halts
  · intro halts
    exact ⟨s, by simp, halts⟩

/-- What a call that drives leaves the machine as. -/
structure Drives (m : Machine) (starts : List Machine) (answer : Answer) (after : Machine) :
    Prop where
  begun : after.status ≠ .ready
  waits : after.status = .awaitingInput ↔ answer.Waits
  halted : after.status = .halted ↔ m.status = .halted ∨ ∃ t ∈ starts, t.ExecutesHalt

theorem halted_of_isHalted (halted : m.isHalted = true) : m.status = .halted := by
  simpa [isHalted] using halted

theorem Performs.drives (performs : m.Performs call starts answer after)
    (drives : call.drives = true) : m.Drives starts answer after := by
  cases performs with
  | passive inert => cases drives.symm.trans inert
  | refused halted returns =>
    have status := halted_of_isHalted halted
    have failed : ¬ answer.Waits := by
      rw [returns.waits_iff (by rintro e ⟨⟩; simp [failure])]
      simp
    exact ⟨by simp [status], by simp [status, failed], by simp [status]⟩
  | @driven s _ earlier result _ begins stops returns =>
    have running : s.status = .running := (begins.onward.running rfl).2
    have status : after.status = statusAfter .running result := by
      rw [execute_status stops, running]
    have live : m.status ≠ .halted := by
      intro halted
      have refused := begins.live
      simp [isHalted, halted] at refused
    have waits := returns.waits_iff fun e failed exhausted => by
      subst failed
      have internal := fault_of_execute stops
      rw [exhausted] at internal
      cases internal
    refine ⟨?_, ?_, ?_⟩
    · rw [status]
      rcases result with e | _ | _ | _ | _ <;> simp [statusAfter]
    · rw [status, waits]
      rcases result with e | _ | _ | _ | _ <;> simp [statusAfter]
    · rw [status, begins.executesHalt_iff, executesHalt_iff, stops]
      rcases result with e | _ | _ | _ | _ <;> simp [statusAfter, live]

/-- A call that does not drive leaves the status alone. -/
theorem Performs.idle (performs : m.Performs call starts answer after)
    (inert : call.drives = false) : starts = [] ∧ after.status = m.status := by
  cases performs with
  | passive _ performed =>
    obtain ⟨memory, rfl⟩ := perform_inert inert performed
    exact ⟨rfl, rfl⟩
  | refused _ returns => cases inert.symm.trans returns.drives
  | driven starts => cases inert.symm.trans starts.drives

/-- When a call returns because the machine waits, nothing is queued and the machine is still at the
input instruction. -/
theorem Performs.waiting (performs : m.Performs call starts answer after) (waits : answer.Waits) :
    after.pending = [] ∧ after.opcode? = some .input := by
  have drives : call.drives = true := by
    rw [← performs.isOfDrive]
    cases waits <;> rfl
  cases performs with
  | passive inert => cases drives.symm.trans inert
  | refused halted returns =>
    rw [returns.waits_iff (by rintro e ⟨⟩; simp [failure])] at waits
    cases waits
  | driven begins stops returns =>
    rw [returns.waits_iff] at waits
    · subst waits
      have input := opcode_of_suspends stops
      obtain ⟨empty, rfl⟩ := execute_awaitingInput stops
      exact ⟨empty, input⟩
    · rintro e rfl exhausted
      have internal := fault_of_execute stops
      rw [exhausted] at internal
      cases internal

/-! ## Histories -/

theorem History.ready_iff (history : m.History calls starts answers last) :
    last.status = .ready ↔ m.status = .ready ∧ ∀ call ∈ calls, call.drives = false := by
  induction history with
  | done m => simp
  | @call m mid last call calls starts more answer answers performs rest ih =>
    rw [ih, List.forall_mem_cons]
    cases drives : call.drives with
    | true => simp [(performs.drives drives).begun]
    | false => simp [(performs.idle drives).2]

theorem History.halted_iff (history : m.History calls starts answers last) :
    last.status = .halted ↔ m.status = .halted ∨ ∃ t ∈ starts, t.ExecutesHalt := by
  induction history with
  | done m => simp
  | @call m mid last call calls starts more answer answers performs rest ih =>
    simp only [ih, List.mem_append, or_and_right, exists_or]
    cases drives : call.drives with
    | true => rw [(performs.drives drives).halted, or_assoc]
    | false =>
      obtain ⟨rfl, same⟩ := performs.idle drives
      simp [same]

/-- Only the latest call that drives the machine counts. -/
theorem History.waits_iff (history : m.History calls starts answers last) :
    last.status = .awaitingInput ↔
      ((latest answers).elim (m.status = .awaitingInput) Answer.Waits) := by
  induction history with
  | done m => simp [latest]
  | @call m mid last call calls starts more answer answers performs rest ih =>
    have kind := performs.isOfDrive
    cases drives : call.drives with
    | true =>
      have first : latest (answer :: answers) = some ((latest answers).getD answer) := by
        simp [latest, kind, drives, List.getLast?_cons]
      rw [ih, first, Option.elim_some]
      cases latest answers with
      | none => exact (performs.drives drives).waits
      | some later => rfl
    | false =>
      have first : latest (answer :: answers) = latest answers := by
        simp [latest, kind, drives]
      rw [ih, first, (performs.idle drives).2]

/-! ## After the halt -/

/-- A machine that has halted is left at the same instruction, with the same counts. -/
structure Rests (m after : Machine) : Prop where
  status : after.status = .halted
  registers : after.registers = m.registers
  budget : after.budget = m.budget
  profile : after.profile = m.profile

theorem Performs.rests (performs : m.Performs call starts answer after)
    (halted : m.isHalted = true) : starts = [] ∧ m.Rests after := by
  have status := halted_of_isHalted halted
  cases performs with
  | passive inert performed =>
    obtain ⟨memory, rfl⟩ := perform_inert inert performed
    exact ⟨rfl, status, rfl, rfl, rfl⟩
  | refused => exact ⟨rfl, status, rfl, rfl, rfl⟩
  | driven starts => cases halted.symm.trans starts.live

theorem History.rests (history : m.History calls starts answers last)
    (halted : m.isHalted = true) : starts = [] ∧ m.Rests last := by
  induction history with
  | done m => exact ⟨rfl, halted_of_isHalted halted, rfl, rfl, rfl⟩
  | call performs rest ih =>
    obtain ⟨rfl, first⟩ := performs.rests halted
    obtain ⟨rfl, later⟩ := ih (by simp [isHalted, first.status])
    exact ⟨rfl, later.status, later.registers.trans first.registers,
      later.budget.trans first.budget, later.profile.trans first.profile⟩

/-- The machine is left at its halt instruction. -/
theorem History.pc_of_halt (history : m.History calls starts answers last) {t : Machine}
    (inside : t ∈ starts) (halts : t.ExecutesHalt) : last.isHalted = true ∧ last.pc = t.pc := by
  induction history with
  | done m => cases inside
  | @call m mid last call calls starts more answer answers performs rest ih =>
    rcases List.mem_append.mp inside with now | later
    · have stops := executesHalt_iff.mp halts
      have left : mid = t.execute.2 := by
        cases performs with
        | passive | refused => cases now
        | driven begins ends => rw [begins.eq_of_executesHalt now halts, ends]
      have executed : t.execute = (.ok (some .halted), mid) := Prod.ext stops left.symm
      have status : mid.status = .halted := execute_status executed
      obtain ⟨-, resting⟩ := rest.rests (by simp [isHalted, status])
      refine ⟨by simp [isHalted, resting.status], ?_⟩
      have place : last.pc = mid.pc := congrArg Registers.pc resting.registers
      exact place.trans (execute_halted executed).2
    · exact ih later

/-- A halted machine refuses to be driven. -/
theorem exists_refused (halted : m.isHalted = true) (drives : call.drives = true) :
    ∃ answer, m.Performs call [] answer m ∧ answer.error? = some (m.failure .halted) := by
  obtain ⟨answer, returns⟩ := Call.exists_returns drives (call.not_goesOn_error _) [] m
  exact ⟨answer, .refused halted returns, returns.error?_eq⟩

/-- What was done with a machine decides its status, and once it has halted nothing changes that. -/
theorem status_tells_life (fresh : m.status = .ready)
    (history : m.History calls starts answers last) :
    (last.status = .ready ↔ ∀ call ∈ calls, call.drives = false) ∧
    (last.status = .awaitingInput ↔ ∃ answer, latest answers = some answer ∧ answer.Waits) ∧
    (last.status = .halted ↔ ∃ t ∈ starts, t.ExecutesHalt) ∧
    (last.status = .running ↔ (∃ call ∈ calls, call.drives = true) ∧
      (∀ answer, latest answers = some answer → ¬ answer.Waits) ∧
      ∀ t ∈ starts, ¬ t.ExecutesHalt) ∧
    (∀ call more answer after, last.Performs call more answer after → answer.Waits →
      after.pending = [] ∧ after.opcode? = some .input) ∧
    ∀ t ∈ starts, t.ExecutesHalt → ∀ later more others final,
      last.History later more others final →
        final.status = .halted ∧ final.pc = t.pc ∧ final.base = last.base ∧
        final.steps = last.steps ∧ final.profile = last.profile ∧
        ∀ call, call.drives = true → ∃ answer, final.Performs call [] answer final ∧
          answer.error? = some ⟨.halted, t.pc⟩ := by
  have ready : last.status = .ready ↔ ∀ call ∈ calls, call.drives = false := by
    simpa [fresh] using history.ready_iff
  have waiting : last.status = .awaitingInput ↔
      ∃ answer, latest answers = some answer ∧ answer.Waits := by
    rw [history.waits_iff, fresh]
    cases latest answers <;> simp
  have halted : last.status = .halted ↔ ∃ t ∈ starts, t.ExecutesHalt := by
    simpa [fresh] using history.halted_iff
  refine ⟨ready, waiting, halted, ?_, ?_, ?_⟩
  · have undriven : (∃ call ∈ calls, call.drives = true) ↔ last.status ≠ .ready := by
      rw [ne_eq, ready]
      simp
    have unwaiting : (∀ answer, latest answers = some answer → ¬ answer.Waits) ↔
        last.status ≠ .awaitingInput := by
      rw [ne_eq, waiting]
      simp
    have unhalted : (∀ t ∈ starts, ¬ t.ExecutesHalt) ↔ last.status ≠ .halted := by
      rw [ne_eq, halted]
      simp
    rw [undriven, unwaiting, unhalted]
    cases last.status <;> simp
  · intro call more answer after performs waits
    exact performs.waiting waits
  · intro t inside halts later more others final onward
    obtain ⟨stopped, place⟩ := history.pc_of_halt inside halts
    obtain ⟨-, resting⟩ := onward.rests stopped
    have there : final.pc = t.pc := (congrArg Registers.pc resting.registers).trans place
    refine ⟨resting.status, there, congrArg Registers.base resting.registers,
      congrArg Budget.used resting.budget, resting.profile, ?_⟩
    intro call drives
    rw [← there]
    exact exists_refused (by simp [isHalted, resting.status]) drives

/-- Takes an input and halts. -/
def taking : Machine :=
  load ⟨#[3, 0, 99]⟩

theorem status_tells_life_taking :
    (∃ starts answers last, taking.History [.run] starts answers last ∧
      last.status = .awaitingInput ∧ ∃ answer, latest answers = some answer ∧ answer.Waits) ∧
    ∃ starts answers last,
      taking.History [.run, .feed 5, .runToHalt, .poke 2 1] starts answers last ∧
      (∃ t ∈ starts, t.ExecutesHalt) ∧
      ∃ answer, last.Performs .run [] answer last ∧ answer.error? = some ⟨.halted, 2⟩ := by
  have waited : (performAll 3 [.run] taking).map (fun out => out.2.status) =
      some .awaitingInput := by decide +kernel
  have halted : (performAll 3 [.run, .feed 5, .runToHalt, .poke 2 1] taking).map
      (fun out => (out.2.status, out.2.pc)) = some (.halted, 2) := by decide +kernel
  obtain ⟨⟨answers, last⟩, performed, waits⟩ := Option.map_eq_some_iff.mp waited
  obtain ⟨starts, history⟩ := history_of_performAll performed
  have latest := (status_tells_life rfl history).2.1.mp waits
  obtain ⟨⟨others, final⟩, performed, same⟩ := Option.map_eq_some_iff.mp halted
  obtain ⟨stopped, place⟩ : final.status = .halted ∧ final.pc = 2 := by simpa using same
  obtain ⟨more, onward⟩ := history_of_performAll performed
  obtain ⟨-, -, halts, -, -, stays⟩ := status_tells_life rfl onward
  obtain ⟨t, inside, executed⟩ := halts.mp stopped
  obtain ⟨-, there, -, -, -, refuses⟩ := stays t inside executed [] [] [] final (.done final)
  rw [place] at there
  rw [← there] at refuses
  exact ⟨⟨starts, answers, last, history, waits, latest⟩, more, others, final, onward,
    ⟨t, inside, executed⟩, refuses .run rfl⟩

end Machine

end Intcode
