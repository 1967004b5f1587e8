import Intcode.Proofs.Ideal.Execution
import Intcode.Proofs.Machine.Faults
import Intcode.Proofs.Machine.Failure

/-!
# The program counter

A jump can set the program counter to any address, but zero selects no opcode, and beyond the store
all cells are zero. So a machine only ever executes inside its store, and what it adds to the program
counter there is too little to leave the range of addresses. The cells of an instruction can always
be read, and a negative address can only come from the program itself.
-/

namespace Intcode

namespace Operand

/-- The number that an operand denotes as an address, whether or not it is one. -/
def denoted? (o : Operand) (base : Word) : Option Int :=
  match o.mode with
  | .position => some o.raw.toInt
  | .immediate => none
  | .relative => some (base.toInt + o.raw.toInt)

variable {o : Operand} {base word a : Word} {memory : Memory} {cause : MemoryError}

theorem natural_cases (a : Word) :
    (natural a = .ok a ∧ 0 ≤ a.toInt) ∨
      (natural a = .error (.memory (.negativeAddress a)) ∧ a.toInt < 0) := by
  by_cases negative : a < 0
  · exact Or.inr ⟨if_pos negative, Word.lt_zero_iff.mp negative⟩
  · exact Or.inl ⟨if_neg negative, Int.not_lt.mp (mt Word.lt_zero_iff.mpr negative)⟩

/-- An operand that stands for an address denotes a number; a negative one is refused by name. -/
inductive Addresses (o : Operand) (base word : Word) : Except Fault Word → Prop where
  | ok {a : Word} (denotes : o.denoted? base = some a.toInt) (nonneg : 0 ≤ a.toInt) :
      Addresses o base word (.ok a)
  | negative {a : Word} (denotes : o.denoted? base = some a.toInt) (negative : a.toInt < 0) :
      Addresses o base word (.error (.memory (.negativeAddress a)))
  | immediate : Addresses o base word (.error (.immediateDestination word))
  | overflow : Addresses o base word (.error (.arithmeticOverflow word))

theorem addresses (o : Operand) (base word : Word) : o.Addresses base word (o.address base word) := by
  have pick : ∀ a : Word, o.denoted? base = some a.toInt → o.Addresses base word (natural a) := by
    intro a denotes
    rcases natural_cases a with ⟨found, nonneg⟩ | ⟨found, negative⟩
    · exact found ▸ .ok denotes nonneg
    · exact found ▸ .negative denotes negative
  unfold address
  split
  · next mode => exact pick o.raw (by simp only [denoted?, mode])
  · exact .immediate
  · next mode =>
    split
    · exact .overflow
    · next a sum =>
      have exact := (Word.add?_eq_some_iff base o.raw a).mp sum
      exact pick a (by simp only [denoted?, mode, exact])

theorem address_nonneg (found : o.address base word = .ok a) : 0 ≤ a.toInt := by
  have cases := o.addresses base word
  rw [found] at cases
  cases cases with
  | ok denotes nonneg => exact nonneg

/-- An address can only be refused for being negative. -/
theorem address_refused (failed : o.address base word = .error (.memory cause)) :
    ∃ a : Word, cause = .negativeAddress a ∧ o.denoted? base = some a.toInt ∧ a.toInt < 0 := by
  have cases := o.addresses base word
  rw [failed] at cases
  cases cases with
  | negative denotes negative => exact ⟨_, rfl, denotes, negative⟩

theorem value_refused (failed : o.value memory base word = .error (.memory cause)) :
    ∃ a : Word, cause = .negativeAddress a ∧ o.denoted? base = some a.toInt ∧ a.toInt < 0 := by
  by_cases immediate : o.mode = .immediate
  · simp only [value, immediate] at failed
    cases failed
  · rcases found : o.address base word with fault | a
    · rw [value_of_unaddressed immediate found] at failed
      cases failed
      exact address_refused found
    · rw [value_of_addressed immediate found, memory.get_of_nonneg (address_nonneg found)] at failed
      cases failed

end Operand

namespace Operands

variable {instr : Instruction} {memory : Memory} {regs : Registers} {params : List Param}
  {i : Nat} {ops after : Operands} {cause : MemoryError}

/-- The parameter cell at an index as an operand. -/
def operandAt (instr : Instruction) (memory : Memory) (regs : Registers) (i : Nat) : Operand :=
  ⟨instr.mode i, memory.cell (regs.pc.toNat + 1 + i)⟩

/-- The cells of these parameters can be read. -/
def Readable (memory : Memory) (regs : Registers) (i count : Nat) : Prop :=
  ∀ k, i ≤ k → k < i + count →
    memory.get (regs.paramAddress k.toUInt64).toInt64 = .ok (memory.cell (regs.pc.toNat + 1 + k))

theorem Readable.tail (readable : Readable memory regs i (params.length + 1)) :
    Readable memory regs (i + 1) params.length := by
  intro k above below
  exact readable k (by omega) (by omega)

theorem resolveFrom_dest_nonneg (resolved : resolveFrom instr memory regs params i ops = .ok after)
    (nonneg : 0 ≤ ops.dest.toInt) : 0 ≤ after.dest.toInt := by
  induction params generalizing i ops with
  | nil =>
    cases resolved
    exact nonneg
  | cons param params ih =>
    simp only [resolveFrom] at resolved
    split at resolved
    · cases resolved
    · cases param with
      | read =>
        simp only at resolved
        split at resolved
        · cases resolved
        · exact ih resolved nonneg
      | write =>
        simp only at resolved
        split at resolved
        · cases resolved
        · next found => exact ih resolved (Operand.address_nonneg found)

/-- Resolving only meets a memory fault at an operand that denotes a negative address. -/
theorem resolveFrom_refused (readable : Readable memory regs i params.length)
    (failed : resolveFrom instr memory regs params i ops = .error (.memory cause)) :
    ∃ k, k < i + params.length ∧ ∃ a : Word, cause = .negativeAddress a ∧ a.toInt < 0 ∧
      (operandAt instr memory regs k).denoted? regs.base = some a.toInt := by
  induction params generalizing i ops with
  | nil => cases failed
  | cons param params ih =>
    rw [List.length_cons] at readable ⊢
    have here : ∀ a : Word, cause = .negativeAddress a →
        (operandAt instr memory regs i).denoted? regs.base = some a.toInt → a.toInt < 0 →
        ∃ k, k < i + (params.length + 1) ∧ ∃ a : Word, cause = .negativeAddress a ∧ a.toInt < 0 ∧
          (operandAt instr memory regs k).denoted? regs.base = some a.toInt := by
      intro a named denotes negative
      exact ⟨i, by omega, a, named, negative, denotes⟩
    have later : ∀ {ops}, resolveFrom instr memory regs params (i + 1) ops = .error (.memory cause) →
        ∃ k, k < i + (params.length + 1) ∧ ∃ a : Word, cause = .negativeAddress a ∧ a.toInt < 0 ∧
          (operandAt instr memory regs k).denoted? regs.base = some a.toInt := by
      intro ops failed
      obtain ⟨k, inside, refused⟩ := ih readable.tail failed
      exact ⟨k, by omega, refused⟩
    simp only [resolveFrom, readable i (Nat.le_refl i) (by omega)] at failed
    cases param with
    | read =>
      simp only at failed
      split at failed
      · next refused =>
        cases failed
        obtain ⟨a, named, denotes, negative⟩ := Operand.value_refused refused
        exact here a named denotes negative
      · exact later failed
    | write =>
      simp only at failed
      split at failed
      · next refused =>
        cases failed
        obtain ⟨a, named, denotes, negative⟩ := Operand.address_refused refused
        exact here a named denotes negative
      · exact later failed

end Operands

/-- An effect that stores does so at the destination of its instruction. -/
theorem Effect.dest_of_evaluate {instr : Instruction} {ops : Operands} {base : Word}
    {effect : Effect} (evaluated : evaluate instr ops base = .ok effect) :
    (∀ address value, effect = .write address value → address = ops.dest) ∧
      ∀ address, effect = .input address → address = ops.dest := by
  cases opcode : instr.opcode with
  | input | output | lessThan | equals | halt =>
    simp only [evaluate, opcode] at evaluated
    cases evaluated
    simp
  | jumpIfTrue | jumpIfFalse =>
    simp only [evaluate, branch, opcode] at evaluated
    split at evaluated <;> cases evaluated <;> simp
  | add | mul | adjustBase =>
    simp only [evaluate, store, opcode] at evaluated
    split at evaluated <;> cases evaluated
    simp

/-- Zero selects no opcode, so that a word which does is stored. -/
theorem Memory.lt_size_of_decode {m : Memory} {index : Nat} {instr : Instruction}
    (decoded : Instruction.decode (m.cell index) = .ok instr) : index < m.size := by
  by_cases beyond : m.size ≤ index
  · rw [Memory.cell_of_size_le beyond] at decoded
    have zero : Instruction.decode 0 = .error (.unknownOpcode 0 0) := by decide
    cases zero.symm.trans decoded
  · omega

theorem Memory.indexOf_refused {address : Word} {cause : MemoryError}
    (refused : indexOf address = .error cause) :
    cause = .negativeAddress address ∧ address.toInt < 0 := by
  unfold indexOf at refused
  split at refused
  · next negative =>
    cases refused
    exact ⟨rfl, Word.lt_zero_iff.mp negative⟩
  · cases refused

theorem Memory.get_refused {m : Memory} {address : Word} {cause : MemoryError}
    (refused : m.get address = .error cause) :
    cause = .negativeAddress address ∧ address.toInt < 0 := by
  unfold get at refused
  split at refused
  · next inner =>
    cases refused
    exact indexOf_refused inner
  · cases refused

theorem Memory.target_refused {m : Memory} {address a : Word}
    (refused : m.target address = .error (.negativeAddress a)) : address = a ∧ a.toInt < 0 := by
  unfold target at refused
  split at refused
  · next inner =>
    cases refused
    obtain ⟨named, negative⟩ := indexOf_refused inner
    cases named
    exact ⟨rfl, negative⟩
  · split at refused <;> cases refused

namespace Machine

/-- The program counter is an address, and the memory has been allocated. -/
structure Grounded (m : Machine) : Prop where
  low : m.pc.toNat < 2 ^ 63
  small : m.memory.size ≤ Memory.capacity

/-- All cells of the instruction at the program counter can be addressed and read. -/
structure InReach (m : Machine) : Prop where
  pc_le : m.pc.toNat ≤ 2 ^ 63 - 1
  signed : m.pc.toInt64.toInt = m.pc.toNat
  fetched : m.memory.get m.pc.toInt64 = .ok (m.memory.cell m.pc.toNat)
  stored : ∀ instr, Instruction.decode (m.memory.cell m.pc.toNat) = .ok instr →
    m.pc.toNat < m.memory.size ∧
    (m.pc + instr.width.toUInt64).toNat = m.pc.toNat + instr.width ∧
    ∀ i < instr.opcode.arity,
      (m.registers.paramAddress i.toUInt64).toNat = m.pc.toNat + 1 + i ∧
      (m.registers.paramAddress i.toUInt64).toInt64.toInt = m.pc.toNat + 1 + i ∧
      m.memory.get (m.registers.paramAddress i.toUInt64).toInt64 =
        .ok (m.memory.cell (m.pc.toNat + 1 + i))

/-- The address comes from the program: an operand of the current instruction denotes it, or the
instruction is a jump that goes there. -/
inductive Names (m : Machine) (a : Word) : Prop where
  | operand {instr : Instruction} {i : Nat}
      (decoded : Instruction.decode (m.memory.cell m.pc.toNat) = .ok instr)
      (inside : i < instr.opcode.arity)
      (denotes : (Operands.operandAt instr m.memory m.registers i).denoted? m.base = some a.toInt)
  | jump {instr : Instruction} (next : m.next = .ok (instr, .jump a))

variable {m s after last : Machine} {call : Call} {calls : List Call} {starts : List Machine}
  {answer : Answer} {answers : List Answer} {instr : Instruction} {effect : Effect}
  {cause : MemoryError}

/-! ## One instruction -/

namespace Grounded

theorem fetch (grounded : m.Grounded) :
    m.memory.get m.pc.toInt64 = .ok (m.memory.cell m.pc.toNat) := by
  have low := grounded.low
  exact m.memory.get_toInt64 (by omega)

/-- An instruction is inside the store, and so are no further than three cells its parameters. -/
theorem near (grounded : m.Grounded)
    (decoded : Instruction.decode (m.memory.cell m.pc.toNat) = .ok instr) :
    m.pc.toNat < 2 ^ 60 - 1 := by
  have inside := Memory.lt_size_of_decode decoded
  have small := grounded.small
  have capacity : Memory.capacity = 2 ^ 60 - 1 := rfl
  omega

theorem toNat_paramAddress (grounded : m.Grounded)
    (decoded : Instruction.decode (m.memory.cell m.pc.toNat) = .ok instr) {i : Nat}
    (inside : i < instr.opcode.arity) :
    (m.registers.paramAddress i.toUInt64).toNat = m.pc.toNat + 1 + i ∧ m.pc.toNat + 1 + i < 2 ^ 63 := by
  have near := grounded.near decoded
  have arity := instr.opcode.arity_le
  rw [Opcode.maxParams] at arity
  constructor
  · exact m.registers.toNat_paramAddress (by rw [pc] at near; omega)
  · omega

theorem readable (grounded : m.Grounded)
    (decoded : Instruction.decode (m.memory.cell m.pc.toNat) = .ok instr) :
    Operands.Readable m.memory m.registers 0 instr.opcode.params.length := by
  intro k _ inside
  obtain ⟨exact, low⟩ := grounded.toNat_paramAddress decoded (i := k) (by
    rw [Nat.zero_add] at inside
    exact inside)
  rw [m.memory.get_toInt64 (by omega), exact]
  rfl

theorem inReach (grounded : m.Grounded) : m.InReach := by
  have low := grounded.low
  refine ⟨by omega, Word.toInt_of_toNat_lt low, grounded.fetch, ?_⟩
  intro instr decoded
  have near := grounded.near decoded
  have width : instr.width ≤ 4 := instr.opcode.width_le
  refine ⟨Memory.lt_size_of_decode decoded, ?_, ?_⟩
  · exact m.registers.toNat_pc_advance (by rw [pc] at near; omega)
  · intro i inside
    obtain ⟨exact, below⟩ := grounded.toNat_paramAddress decoded inside
    refine ⟨exact, ?_, ?_⟩
    · rw [Word.toInt_of_toNat_lt (by omega), exact]
      omega
    · rw [m.memory.get_toInt64 (by omega), exact]

/-- What the next instruction is decoded from, and where its effect stores. -/
theorem next_ok (grounded : m.Grounded) (next : m.next = .ok (instr, effect)) :
    Instruction.decode (m.memory.cell m.pc.toNat) = .ok instr ∧
      (∀ address value, effect = .write address value → 0 ≤ address.toInt) ∧
      ∀ address, effect = .input address → 0 ≤ address.toInt := by
  simp only [Machine.next, grounded.fetch] at next
  split at next
  · cases next
  · next decoded =>
    split at next
    · cases next
    · next ops resolved =>
      split at next
      · cases next
      · next evaluated =>
        cases next
        have nonneg : 0 ≤ ops.dest.toInt := Operands.resolveFrom_dest_nonneg resolved (by decide)
        obtain ⟨writes, takes⟩ := Effect.dest_of_evaluate evaluated
        refine ⟨decoded, ?_, ?_⟩
        · intro address value stores
          rw [writes address value stores]
          exact nonneg
        · intro address stores
          rw [takes address stores]
          exact nonneg

theorem next_refused (grounded : m.Grounded) (failed : m.next = .error (.memory cause)) :
    ∃ a : Word, cause = .negativeAddress a ∧ a.toInt < 0 ∧ m.Names a := by
  simp only [Machine.next, grounded.fetch] at failed
  split at failed
  · next refused =>
    cases failed
    cases Instruction.decode_error refused
  · next instr decoded =>
    split at failed
    · next refused =>
      cases failed
      obtain ⟨k, inside, a, named, negative, denotes⟩ :=
        Operands.resolveFrom_refused (grounded.readable decoded) refused
      rw [Nat.zero_add] at inside
      exact ⟨a, named, negative, .operand decoded inside denotes⟩
    · split at failed
      · next refused =>
        cases failed
        cases Effect.evaluate_error refused
      · cases failed

theorem advance (grounded : m.Grounded) (near : m.pc.toNat < 2 ^ 60 - 1) (opcode : Opcode) :
    (m.advance opcode).Grounded := by
  have width := opcode.width_le
  refine ⟨?_, grounded.small⟩
  have moved : (m.advance opcode).pc.toNat = m.pc.toNat + opcode.width :=
    m.registers.toNat_pc_advance (by rw [pc] at near; omega)
  omega

theorem updated (grounded : m.Grounded) {memory : Memory} (updates : m.memory.Updates memory)
    (pending : List Word) : Grounded { m with memory, pending } :=
  ⟨grounded.low, updates.size_le_capacity grounded.small⟩

/-- Changing memory by an instruction inside the store leads on to an address. -/
theorem apply (grounded : m.Grounded) (near : m.pc.toNat < 2 ^ 60 - 1) (opcode : Opcode)
    (effect : Effect) : (m.apply opcode effect).2.Grounded := by
  cases effect with
  | write address value =>
    simp only [Machine.apply]
    split
    · exact grounded
    · next index found =>
      have updates : m.memory.Updates (m.memory.write index value) :=
        .write (Memory.admits_of_target found)
      have stored := grounded.updated updates m.pending
      exact stored.advance near opcode
  | jump target =>
    simp only [Machine.apply, Memory.indexOf]
    split
    · exact grounded
    · next index found =>
      refine ⟨?_, grounded.small⟩
      have high := target.toInt_lt
      split at found <;> cases found
      simp only [pc, Nat.toUInt64, UInt64.toNat_ofNat', ← Int64.toNat_toInt]
      omega
  | input address =>
    simp only [Machine.apply]
    split
    · exact ⟨grounded.low, grounded.small⟩
    · next value pending queue =>
      split
      · exact ⟨grounded.low, grounded.small⟩
      · next index found =>
        have updates : m.memory.Updates (m.memory.write index value) :=
          .write (Memory.admits_of_target found)
        have stored := grounded.updated updates pending
        exact stored.advance near opcode
  | rebase base =>
    have rebased : Grounded { m with registers := { m.registers with base } } :=
      ⟨grounded.low, grounded.small⟩
    exact rebased.advance near opcode
  | proceed | output => exact grounded.advance near opcode
  | halt => exact ⟨grounded.low, grounded.small⟩

theorem execute (grounded : m.Grounded) : m.execute.2.Grounded := by
  rcases charged : m.budget.charge with fault | paid
  · rw [execute_unpaid charged]
    exact grounded
  · rcases next : m.next with fault | ⟨instr, effect⟩
    · rw [execute_faulty charged next]
      exact ⟨grounded.low, grounded.small⟩
    · rw [execute_effect charged next]
      obtain ⟨decoded, -⟩ := grounded.next_ok next
      exact apply (m := { m with budget := paid }) ⟨grounded.low, grounded.small⟩
        (grounded.near decoded) instr.opcode effect

/-- A negative address that an instruction fails with comes from the program. -/
theorem names_of_execute (grounded : m.Grounded) {a : Word} {pc : UInt64}
    (failed : m.execute.1 = .error ⟨.memory (.negativeAddress a), pc⟩) :
    a.toInt < 0 ∧ m.Names a ∧ m.pc = pc := by
  rcases charged : m.budget.charge with fault | paid
  · rw [execute_unpaid charged] at failed
    cases failed
    obtain ⟨limit, unpaid⟩ := Budget.charge_error charged
    cases unpaid
  · rcases next : m.next with fault | ⟨instr, effect⟩
    · rw [execute_faulty charged next] at failed
      cases failed
      obtain ⟨b, named, negative, names⟩ := grounded.next_refused next
      cases named
      exact ⟨negative, names, rfl⟩
    · rw [execute_effect charged next] at failed
      obtain ⟨-, writes, takes⟩ := grounded.next_ok next
      cases effect with
      | write address value =>
        simp only [Machine.apply] at failed
        split at failed
        · next refused =>
          cases failed
          obtain ⟨rfl, negative⟩ := Memory.target_refused refused
          exact absurd (writes address value rfl) (Int.not_le.mpr negative)
        · cases failed
      | jump target =>
        simp only [Machine.apply] at failed
        split at failed
        · next refused =>
          cases failed
          obtain ⟨named, negative⟩ := Memory.indexOf_refused refused
          cases named
          exact ⟨negative, .jump next, rfl⟩
        · cases failed
      | input address =>
        simp only [Machine.apply] at failed
        split at failed
        · cases failed
        · split at failed
          · next refused =>
            cases failed
            obtain ⟨rfl, negative⟩ := Memory.target_refused refused
            exact absurd (takes address rfl) (Int.not_le.mpr negative)
          · cases failed
      | proceed | rebase | output | halt => cases failed

end Grounded

/-! ## Calls -/

theorem maintained_grounded : Maintained Grounded where
  feeds _ _ grounded := ⟨grounded.low, grounded.small⟩
  stores m _ _ admitted grounded := grounded.updated (.write admitted) m.pending
  resumes _ grounded := ⟨grounded.low, grounded.small⟩
  executes _ grounded := grounded.execute

theorem grounded_load {p : Program} (small : p.size < 2 ^ 60) (limit : Option Nat) :
    (load p limit).Grounded := by
  have capacity : Memory.capacity = 2 ^ 60 - 1 := rfl
  have size : (load p limit).memory.size = p.size := rfl
  exact ⟨Nat.two_pow_pos 63, by omega⟩

/-- A call fails with a negative address that it was given or that the program names. -/
theorem Performs.names (performs : m.Performs call starts answer after) (grounded : m.Grounded)
    {a : Word} {pc : UInt64}
    (failed : answer.error? = some ⟨.memory (.negativeAddress a), pc⟩) :
    a.toInt < 0 ∧ (call = .peek a ∨ (∃ value, call = .poke a value) ∨
      ∃ t ∈ starts, t.pc = pc ∧ t.Names a) := by
  obtain ⟨every, -⟩ := maintained_grounded.performs grounded performs
  cases performs with
  | passive inert performed =>
    cases call with
    | feed | feedAll =>
      cases performed
      cases failed
    | peek address =>
      cases performed
      simp only [peek] at failed
      split at failed
      · next refused =>
        cases failed
        obtain ⟨named, negative⟩ := Memory.get_refused refused
        cases named
        exact ⟨negative, Or.inl rfl⟩
      · cases failed
    | poke address value =>
      simp only [perform, poke] at performed
      split at performed
      · next refused =>
        cases performed
        split at refused
        · next inner =>
          cases refused
          cases failed
          obtain ⟨rfl, negative⟩ := Memory.target_refused inner
          exact ⟨negative, Or.inr (Or.inl ⟨value, rfl⟩)⟩
        · cases refused
      · cases performed
        cases failed
    | step | run | runToHalt => cases inert
  | refused halted returns =>
    cases returns.error?_eq.symm.trans failed
  | @driven s after earlier result answer begins stops returns =>
    have inside : s ∈ earlier ++ [s] := by simp
    rcases returns.error failed with rfl | ⟨-, -, same⟩
    · obtain ⟨negative, names, place⟩ := (every s inside).names_of_execute (congrArg Prod.fst stops)
      exact ⟨negative, Or.inr (Or.inr ⟨s, inside, place, names⟩)⟩
    · cases same

/-- A program that fits into memory never carries the program counter out of the addresses. -/
theorem pc_never_wraps (p : Program) (small : p.size < 2 ^ 60) (limit : Option Nat)
    (history : (load p limit).History calls starts answers last) :
    (∀ t ∈ last :: starts, t.InReach) ∧
    ∀ call more answer after, last.Performs call more answer after →
      ∀ (a : Word) pc, answer.error? = some ⟨.memory (.negativeAddress a), pc⟩ →
        a.toInt < 0 ∧ (call = .peek a ∨ (∃ value, call = .poke a value) ∨
          ∃ t ∈ more, t.pc = pc ∧ t.Names a) := by
  obtain ⟨every, final⟩ := maintained_grounded.history (grounded_load small limit) history
  constructor
  · exact List.forall_mem_cons.mpr ⟨final.inReach, fun t inside => (every t inside).inReach⟩
  · intro call more answer after performs a pc failed
    exact performs.names final failed

/-- Puts out what is three cells below zero. -/
def sinking : Program :=
  ⟨#[109, -5, 204, 2]⟩

/-- The program fails at its operand; with other cells it goes to the greatest address there is. -/
theorem pc_never_wraps_sinking :
    (∃ starts answers last more answer after, (load sinking).History [.step] starts answers last ∧
      last.Performs .run more answer after ∧
      answer.error? = some ⟨.memory (.negativeAddress (-3)), 2⟩ ∧
      ∃ t ∈ more, t.pc = 2 ∧ t.Names (-3)) ∧
    ∃ starts answers last, (load sinking).History
        [.poke 0 1106, .poke 1 0, .poke 2 9223372036854775807, .step] starts answers last ∧
      last.pc.toNat = 2 ^ 63 - 1 ∧ last.InReach := by
  have stepped : (performAll 1 [.step] (load sinking)).map
      (fun out => (out.2.perform 1 .run).map fun out => out.1) =
        some (some (.ran (.error ⟨.memory (.negativeAddress (-3)), 2⟩))) := by decide +kernel
  have leapt : (performAll 1 [.poke 0 1106, .poke 1 0, .poke 2 9223372036854775807, .step]
      (load sinking)).map (fun out => out.2.pc.toNat) = some (2 ^ 63 - 1) := by decide +kernel
  obtain ⟨⟨answers, last⟩, performed, ran⟩ := Option.map_eq_some_iff.mp stepped
  obtain ⟨⟨answer, after⟩, ran, rfl⟩ := Option.map_eq_some_iff.mp ran
  obtain ⟨starts, history⟩ := history_of_performAll performed
  obtain ⟨more, performs⟩ := performs_iff_perform.mpr ⟨1, ran⟩
  obtain ⟨-, sources⟩ := pc_never_wraps sinking (by decide) none history
  obtain ⟨-, given | ⟨value, given⟩ | names⟩ :=
    sources .run more _ after performs (-3) 2 rfl
  · cases given
  · cases given
  · obtain ⟨⟨others, left⟩, performed, far⟩ := Option.map_eq_some_iff.mp leapt
    obtain ⟨begun, onward⟩ := history_of_performAll performed
    obtain ⟨reach, -⟩ := pc_never_wraps sinking (by decide) none onward
    constructor
    · exact ⟨starts, answers, last, more, _, after, history, performs, rfl, names⟩
    · exact ⟨begun, others, left, onward, far, reach left List.mem_cons_self⟩

end Machine

end Intcode
