import Intcode.Proofs.Machine.Attempts
import Intcode.Proofs.Machine.Faults

/-!
# Machines with like memories

Two memories agree outside some cells if all others have the same values and both admit the same
stores; how long they are does not matter. An effect makes the same change to machines that differ
in such memories only, so they stay alike, and an instruction that resolves to the same on both does
the same to both. The words that faults name are left open here.
-/

namespace Intcode

theorem mapError_ok {ε δ : Type u} {α : Type v} (f : ε → δ) (a : α) :
    (Except.ok a : Except ε α).mapError f = .ok a :=
  rfl

theorem mapError_id {ε : Type u} {α : Type v} (x : Except ε α) : x.mapError id = x := by
  cases x <;> rfl

namespace Memory

/-- The cells that are not set apart have the same values, and the same stores succeed. -/
structure AgreesOutside (apart : Nat → Prop) (m n : Memory) : Prop where
  cells : ∀ i, ¬ apart i → n.cell i = m.cell i
  admits : ∀ i, n.admits i = m.admits i

variable {apart : Nat → Prop} {m n : Memory} {address value : Word} {index : Nat}

theorem AgreesOutside.trans {o : Memory} (one : m.AgreesOutside apart n)
    (two : n.AgreesOutside apart o) : m.AgreesOutside apart o :=
  ⟨fun i outside => (two.cells i outside).trans (one.cells i outside),
    fun i => (two.admits i).trans (one.admits i)⟩

/-- A store that succeeds does not change which stores do. -/
theorem admits_write (admitted : m.admits index = true) (value : Word) (i : Nat) :
    (m.write index value).admits i = m.admits i := by
  rw [Bool.eq_iff_iff, admits_iff, admits_iff, size_write admitted]
  rw [admits_iff] at admitted
  omega

theorem agreesOutside_write (inside : apart index) (admitted : m.admits index = true)
    (value : Word) : m.AgreesOutside apart (m.write index value) := by
  refine ⟨fun i outside => ?_, admits_write admitted value⟩
  have different : i ≠ index := by
    rintro rfl
    exact outside inside
  rw [cell_write admitted, if_neg different]

theorem agreesOutside_of_set (stores : m.set address value = .ok n)
    (inside : apart address.toInt.toNat) : m.AgreesOutside apart n := by
  by_cases negative : address.toInt < 0
  · simp only [set, target, indexOf_of_negative negative] at stores
    cases stores
  · cases found : m.target address with
    | error e =>
      simp only [set, found] at stores
      cases stores
    | ok index =>
      simp only [set, found] at stores
      cases stores
      have admitted := admits_of_target found
      rw [m.target_of_nonneg (Int.not_lt.mp negative)] at found
      split at found <;> cases found
      exact agreesOutside_write inside admitted value

namespace AgreesOutside

theorem write (agrees : m.AgreesOutside apart n) (admitted : m.admits index = true)
    (value : Word) : (m.write index value).AgreesOutside apart (n.write index value) := by
  have also : n.admits index = true := by rw [agrees.admits, admitted]
  refine ⟨fun i outside => ?_, fun i => ?_⟩
  · rw [cell_write admitted, cell_write also, agrees.cells i outside]
  · rw [admits_write admitted, admits_write also, agrees.admits]

/-- Reads outside the cells set apart give the same. -/
theorem get (agrees : m.AgreesOutside apart n)
    (outside : 0 ≤ address.toInt → ¬ apart address.toInt.toNat) :
    n.get address = m.get address := by
  by_cases negative : address.toInt < 0
  · rw [get_of_negative n negative, get_of_negative m negative]
  · have nonneg : 0 ≤ address.toInt := Int.not_lt.mp negative
    rw [get_of_nonneg n nonneg, get_of_nonneg m nonneg, agrees.cells _ (outside nonneg)]

theorem target (agrees : m.AgreesOutside apart n) (address : Word) :
    n.target address = m.target address := by
  simp only [Memory.target, agrees.admits]

end AgreesOutside

end Memory

/-! ## Resolving parameters -/

/-- What a parameter resolves to: the value of a read one, the address of a write one. -/
def Operand.resolve (o : Operand) (memory : Memory) (base word : Word) :
    Param → Except Fault Word
  | .read => o.value memory base word
  | .write => o.address base word

namespace Operands

/-- What the parameter at an index resolves to. -/
def resolveParam (instr : Instruction) (memory : Memory) (regs : Registers) (param : Param)
    (index : Nat) : Except Fault Word :=
  match memory.get (regs.paramAddress index.toUInt64).toInt64 with
  | .error e => .error (.memory e)
  | .ok raw => Operand.resolve ⟨instr.mode index, raw⟩ memory regs.base instr.word param

/-- The operands with one more parameter resolved. -/
def put (ops : Operands) : Param → Word → Operands
  | .read, value => { ops with values := ops.values ++ [value] }
  | .write, dest => { ops with dest }

variable {instr other : Instruction} {memory behind : Memory} {regs : Registers}
  {params : List Param} {i : Nat}

theorem resolveFrom_cons (param : Param) (params : List Param) (i : Nat) (ops : Operands) :
    resolveFrom instr memory regs (param :: params) i ops =
      match resolveParam instr memory regs param i with
      | .error e => .error e
      | .ok word => resolveFrom instr memory regs params (i + 1) (ops.put param word) := by
  rw [resolveFrom, resolveParam]
  cases memory.get (regs.paramAddress i.toUInt64).toInt64 with
  | error e => rfl
  | ok raw => cases param <;> rfl

/-- Parameters that resolve to the same one by one do so together. -/
theorem resolveFrom_congr (naming : Fault → Fault)
    (alike : ∀ k param, params[k]? = some param →
      resolveParam other behind regs param (i + k) =
        (resolveParam instr memory regs param (i + k)).mapError naming) (ops : Operands) :
    resolveFrom other behind regs params i ops =
      (resolveFrom instr memory regs params i ops).mapError naming := by
  induction params generalizing i ops with
  | nil => rfl
  | cons param params ih =>
    have here := alike 0 param rfl
    rw [Nat.add_zero] at here
    rw [resolveFrom_cons, resolveFrom_cons, here]
    cases resolveParam instr memory regs param i with
    | error e => rfl
    | ok word =>
      refine ih (fun k param found => ?_) _
      rw [Nat.add_assoc, Nat.add_comm 1 k]
      exact alike (k + 1) param found

theorem resolve_congr (naming : Fault → Fault) (same : other.opcode = instr.opcode)
    (alike : ∀ k param, instr.opcode.params[k]? = some param →
      resolveParam other behind regs param k =
        (resolveParam instr memory regs param k).mapError naming) :
    resolve other behind regs = (resolve instr memory regs).mapError naming := by
  rw [resolve, resolve, same]
  refine resolveFrom_congr naming (fun k param found => ?_) {}
  rw [Nat.zero_add]
  exact alike k param found

end Operands

/-! ## Executing -/

/-- The faults that name the word of an instruction. -/
def Fault.carriesWord : Fault → Bool
  | .unknownOpcode .. | .invalidMode .. | .immediateDestination _ | .arithmeticOverflow _ => true
  | _ => false

/-- The error with another fault. -/
def MachineError.renamed (naming : Fault → Fault) (e : MachineError) : MachineError :=
  { e with fault := naming e.fault }

namespace Machine

/-- What the instruction at the program counter asks for. -/
def plan (m : Machine) : Except Fault (Opcode × Effect) :=
  m.next.map fun (instr, effect) => (instr.opcode, effect)

/-- The machines differ in their memories at most, and these agree outside the cells set apart. -/
inductive AgreesOutside (apart : Nat → Prop) (m : Machine) : Machine → Prop where
  | intro {memory : Memory} (agrees : m.memory.AgreesOutside apart memory) :
      AgreesOutside apart m { m with memory }

variable {apart : Nat → Prop} {m n : Machine} {naming : Fault → Fault}

theorem execute_eq_plan (m : Machine) :
    m.execute =
      match m.budget.charge with
      | .error fault => (.error (m.failure fault), m)
      | .ok budget =>
        match m.plan with
        | .error fault => (.error (m.failure fault), { m with budget })
        | .ok (opcode, effect) => { m with budget }.apply opcode effect := by
  rw [execute, plan]
  cases m.budget.charge with
  | error fault => rfl
  | ok budget => cases m.next <;> rfl

section

variable (kept : ∀ fault : Fault, fault.carriesWord = false → naming fault = fault)
include kept

theorem renamed_failure {fault : Fault} (wordless : fault.carriesWord = false) (m : Machine) :
    (m.failure fault).renamed naming = m.failure fault := by
  rw [MachineError.renamed, failure, kept fault wordless]

/-- What an effect fails with is the memory's doing, so no word is named. -/
theorem mapError_apply (m : Machine) (opcode : Opcode) (effect : Effect) :
    (m.apply opcode effect).1.mapError (MachineError.renamed naming) =
      (m.apply opcode effect).1 := by
  rcases applied : m.apply opcode effect with ⟨result, after⟩
  cases applies applied with
  | failed | dropped => exact congrArg Except.error (renamed_failure kept rfl m)
  | moved | emitted | halted | starved | stored => rfl

end

namespace AgreesOutside

theorem memory (agrees : m.AgreesOutside apart n) : m.memory.AgreesOutside apart n.memory := by
  obtain ⟨memory⟩ := agrees
  exact memory

/-- An effect does the same to both machines. -/
theorem apply (agrees : m.AgreesOutside apart n) (opcode : Opcode) (effect : Effect) :
    (n.apply opcode effect).1 = (m.apply opcode effect).1 ∧
      (m.apply opcode effect).2.AgreesOutside apart (n.apply opcode effect).2 := by
  obtain ⟨memory⟩ := agrees
  cases effect with
  | write address value =>
    simp only [Machine.apply, memory.target]
    cases found : m.memory.target address with
    | error e => exact ⟨rfl, .intro memory⟩
    | ok index => exact ⟨rfl, .intro (memory.write (Memory.admits_of_target found) value)⟩
  | jump target =>
    simp only [Machine.apply]
    cases Memory.indexOf target with
    | error e => exact ⟨rfl, .intro memory⟩
    | ok index => exact ⟨rfl, .intro memory⟩
  | input address =>
    simp only [Machine.apply, memory.target]
    cases m.pending with
    | nil => exact ⟨rfl, .intro memory⟩
    | cons value pending =>
      cases found : m.memory.target address with
      | error e => exact ⟨rfl, .intro memory⟩
      | ok index => exact ⟨rfl, .intro (memory.write (Memory.admits_of_target found) value)⟩
  | proceed | rebase | output | halt => exact ⟨rfl, .intro memory⟩

/-- So does an instruction, if it asks both for the same. Its faults may name other words. -/
theorem execute (agrees : m.AgreesOutside apart n)
    (kept : ∀ fault, fault.carriesWord = false → naming fault = fault)
    (plans : n.plan = m.plan.mapError naming) :
    n.execute.1 = m.execute.1.mapError (MachineError.renamed naming) ∧
      m.execute.2.AgreesOutside apart n.execute.2 := by
  obtain @⟨behind, memory⟩ := agrees
  rw [execute_eq_plan, execute_eq_plan, plans]
  rcases charged : m.budget.charge with fault | budget
  · obtain ⟨limit, rfl⟩ := Budget.charge_error charged
    exact ⟨congrArg Except.error (renamed_failure kept rfl m).symm, .intro memory⟩
  · cases m.plan with
    | error fault => exact ⟨rfl, .intro memory⟩
    | ok asked =>
      obtain ⟨opcode, effect⟩ := asked
      have alike : AgreesOutside apart { m with budget } { m with memory := behind, budget } :=
        .intro memory
      obtain ⟨result, after⟩ := alike.apply opcode effect
      exact ⟨result.trans (mapError_apply kept _ _ _).symm, after⟩

end AgreesOutside

end Machine

end Intcode
