import Intcode.Proofs.Machine.Runs

/-!
# Faults of instructions

An instruction can fail because it is not paid for, because its word means nothing, or because of
its operands, its result or the memory. That a machine has halted, or has no input left, is said by
the calls that drive it; no instruction fails in this way.
-/

namespace Intcode

namespace Fault

/-- The faults that a call finds in the state of a machine, before or after its instructions. -/
def isOfCall : Fault → Bool
  | .halted | .inputExhausted => true
  | _ => false

/-- The faults that a word has by itself, whatever the machine. -/
def isOfWord : Fault → Bool
  | .unknownOpcode .. | .invalidMode .. => true
  | _ => false

/-- The faults that an instruction meets once it has been paid for. -/
def isOfInstruction : Fault → Bool
  | .stepLimitExceeded _ | .halted | .inputExhausted => false
  | _ => true

theorem isOfInstruction_of_isOfWord {fault : Fault} (ofWord : fault.isOfWord = true) :
    fault.isOfInstruction = true := by
  cases fault <;> first | rfl | cases ofWord

theorem not_isOfCall_of_isOfInstruction {fault : Fault} (met : fault.isOfInstruction = true) :
    fault.isOfCall = false := by
  cases fault <;> first | rfl | cases met

end Fault

variable {fault : Fault}

namespace Instruction

theorem decodeModes_error {word digits : Word} {count : Nat}
    (failed : decodeModes word count digits = .error fault) : fault.isOfWord = true := by
  induction count generalizing digits with
  | zero => cases failed
  | succ count ih =>
    rw [decodeModes] at failed
    split at failed
    · cases failed
      rfl
    · split at failed
      · next inner =>
        cases failed
        exact ih inner
      · cases failed

theorem decode_error {word : Word} (failed : decode word = .error fault) :
    fault.isOfWord = true := by
  rw [decode] at failed
  split at failed
  · cases failed
    rfl
  · split at failed
    · next inner =>
      cases failed
      exact decodeModes_error inner
    · cases failed

end Instruction

namespace Operand

variable {o : Operand} {base word : Word}

theorem natural_error {address : Word} (failed : natural address = .error fault) :
    fault.isOfInstruction = true := by
  rw [natural] at failed
  split at failed
  · cases failed
    rfl
  · cases failed

theorem address_error (failed : o.address base word = .error fault) :
    fault.isOfInstruction = true := by
  rw [address] at failed
  split at failed
  · exact natural_error failed
  · cases failed
    rfl
  · split at failed
    · cases failed
      rfl
    · exact natural_error failed

theorem value_error {memory : Memory} (failed : o.value memory base word = .error fault) :
    fault.isOfInstruction = true := by
  rw [value.eq_def] at failed
  split at failed
  · cases failed
  · split at failed
    · next inner =>
      cases failed
      exact address_error inner
    · next address _ =>
      cases found : memory.get address with
      | error cause =>
        rw [found] at failed
        cases failed
        rfl
      | ok value =>
        rw [found] at failed
        cases failed

end Operand

theorem Operands.resolveFrom_error {instr : Instruction} {memory : Memory} {regs : Registers}
    {params : List Param} {index : Nat} {ops : Operands}
    (failed : resolveFrom instr memory regs params index ops = .error fault) :
    fault.isOfInstruction = true := by
  induction params generalizing index ops with
  | nil => cases failed
  | cons param params ih =>
    rw [resolveFrom] at failed
    split at failed
    · cases failed
      rfl
    · cases param with
      | read =>
        simp only at failed
        split at failed
        · next inner =>
          cases failed
          exact Operand.value_error inner
        · exact ih failed
      | write =>
        simp only at failed
        split at failed
        · next inner =>
          cases failed
          exact Operand.address_error inner
        · exact ih failed

theorem Effect.evaluate_error {instr : Instruction} {ops : Operands} {base : Word}
    (failed : evaluate instr ops base = .error fault) :
    fault = .arithmeticOverflow instr.word := by
  cases opcode : instr.opcode with
  | input | output | lessThan | equals | halt | jumpIfTrue | jumpIfFalse =>
    simp only [evaluate, opcode] at failed
    cases failed
  | add | mul | adjustBase =>
    simp only [evaluate, store, opcode] at failed
    split at failed
    · cases failed
      rfl
    · cases failed

theorem Budget.charge_error {b : Budget} (failed : b.charge = .error fault) :
    ∃ limit, fault = .stepLimitExceeded limit := by
  rw [charge] at failed
  split at failed
  · cases failed
  · next limit _ =>
    split at failed
    · cases failed
      exact ⟨limit, rfl⟩
    · cases failed

namespace Machine

variable {m after : Machine}

theorem next_error (failed : m.next = .error fault) : fault.isOfInstruction = true := by
  rw [next] at failed
  split at failed
  · cases failed
    rfl
  · split at failed
    · next inner =>
      cases failed
      exact Fault.isOfInstruction_of_isOfWord (Instruction.decode_error inner)
    · split at failed
      · next inner =>
        cases failed
        exact Operands.resolveFrom_error inner
      · split at failed
        · next inner =>
          cases failed
          rw [Effect.evaluate_error inner]
          rfl
        · cases failed

/-- No instruction fails with a fault of a call. -/
theorem fault_of_execute {e : MachineError} (failed : m.execute = (.error e, after)) :
    e.fault.isOfCall = false := by
  cases executes failed with
  | unpaid unpaid =>
    obtain ⟨limit, rfl⟩ := Budget.charge_error unpaid
    rfl
  | faulty charged faulty => exact Fault.not_isOfCall_of_isOfInstruction (next_error faulty)
  | applied charged next applies => cases applies <;> rfl

end Machine

end Intcode
