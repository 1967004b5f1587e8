import Intcode.Proofs.Instruction.Encoding
import Intcode.Proofs.Machine.Counter
import Intcode.Proofs.Machine.Likeness
import Intcode.Proofs.Memory.Accesses

/-!
# Addressing modes

A parameter in position mode can be written in relative mode, with its offset from the relative
base, and a read one in immediate mode, with the value at its address. The instruction then does the
same, as long as none of its read parameters looks at one of the two cells that were rewritten. Only
the word that a fault names is the new one.
-/

namespace Intcode

/-- The fault with another word in the place of the one that it names, if any. -/
def Fault.naming (word : Word) : Fault → Fault
  | .unknownOpcode selector _ => .unknownOpcode selector word
  | .invalidMode digit _ => .invalidMode digit word
  | .immediateDestination _ => .immediateDestination word
  | .arithmeticOverflow _ => .arithmeticOverflow word
  | fault => fault

theorem Fault.naming_of_not_carriesWord (word : Word) (fault : Fault)
    (wordless : fault.carriesWord = false) : fault.naming word = fault := by
  cases fault <;> first | rfl | cases wordless

/-! ## The word -/

namespace Instruction

variable {instr : Instruction} {word : Word} {modes : List Mode} {mode : Mode} {i : Nat}

/-- The digit of position mode is zero, so that of another mode is added in its place. -/
theorem encodeModes_set (position : modes[i]? = some .position) (mode : Mode) :
    encodeModes (modes.set i mode) = encodeModes modes + 10 ^ i * mode.digit.toInt := by
  induction modes generalizing i with
  | nil => cases position
  | cons first modes ih =>
    cases i with
    | zero =>
      cases position
      have zero : Mode.position.digit.toInt = 0 := rfl
      rw [List.set_cons_zero, encodeModes, encodeModes, zero, Int.pow_zero]
      omega
    | succ i =>
      rw [List.set_cons_succ, encodeModes, encodeModes, ih position, Int.pow_succ,
        Int.mul_comm (10 ^ i) 10, Int.mul_assoc]
      omega

/-- Changing one mode in a word changes that mode of the instruction. -/
theorem decode_set (decoded : decode instr.word = .ok instr)
    (position : instr.modes[i]? = some .position)
    (value : word.toInt = instr.word.toInt + 10 ^ (i + 2) * mode.digit.toInt) :
    decode word = .ok { instr with word, modes := instr.modes.set i mode } := by
  obtain ⟨-, length, rest, encoded⟩ := decode_eq_ok_iff.mp decoded
  refine decode_eq_ok_iff.mpr ⟨rfl, by rw [List.length_set, length], rest, ?_⟩
  simp only [encode, encodeModes_set position]
  rw [value, encoded, encode, ten_pow_add_two i, Int.mul_assoc]
  omega

theorem mode_set_self (inside : i < instr.modes.length) (word : Word) (mode : Mode) :
    ({ instr with word, modes := instr.modes.set i mode } : Instruction).mode i = mode := by
  simp [Instruction.mode, inside]

theorem mode_set_ne {j : Nat} (different : j ≠ i) (word : Word) (mode : Mode) :
    ({ instr with word, modes := instr.modes.set i mode } : Instruction).mode j =
      instr.mode j := by
  simp [Instruction.mode, List.getElem?_set_ne different.symm]

end Instruction

/-! ## One operand -/

namespace Operand

variable {o : Operand} {base word other a : Word} {memory behind : Memory}

theorem natural_naming (other a : Word) :
    (natural a).mapError (Fault.naming other) = natural a := by
  unfold natural
  split <;> rfl

/-- The word does not matter to the address. -/
theorem address_naming (o : Operand) (base word other : Word) :
    o.address base other = (o.address base word).mapError (Fault.naming other) := by
  unfold address
  split
  · rw [natural_naming]
  · rfl
  · split
    · rfl
    · rw [natural_naming]

/-- Operands with the same address have the same value if the memories agree there. -/
theorem value_naming {p : Operand} (mediate : o.mode ≠ .immediate) (also : p.mode ≠ .immediate)
    (addresses : p.address base other = (o.address base word).mapError (Fault.naming other))
    (get : ∀ a, o.address base word = .ok a → behind.get a = memory.get a) :
    p.value behind base other = (o.value memory base word).mapError (Fault.naming other) := by
  cases found : o.address base word with
  | error fault =>
    rw [found] at addresses
    rw [value_of_unaddressed mediate found, value_of_unaddressed also addresses]
    rfl
  | ok a =>
    rw [found] at addresses
    rw [value_of_addressed mediate found, value_of_addressed also addresses, get a found]
    cases memory.get a <;> rfl

theorem resolve_naming {param : Param}
    (get : param = .read → ∀ a, o.address base word = .ok a → behind.get a = memory.get a) :
    o.resolve behind base other param =
      (o.resolve memory base word param).mapError (Fault.naming other) := by
  cases param with
  | write => exact o.address_naming base word other
  | read =>
    by_cases immediate : o.mode = .immediate
    · simp only [resolve, value, immediate]
      rfl
    · exact value_naming immediate immediate (o.address_naming base word other) (get rfl)

/-- In relative mode, the offset from the base stands for the address. -/
theorem address_relative {raw : Word} (offset : raw.toInt = a.toInt - base.toInt) :
    address ⟨.relative, raw⟩ base word = address ⟨.position, a⟩ base word := by
  have sum : Word.add? base raw = some a := (Word.add?_eq_some_iff base raw a).mpr (by omega)
  simp only [address, sum]

end Operand

/-- The word does not matter to what an effect is. -/
theorem Effect.evaluate_naming (instr : Instruction) (ops : Operands) (base word : Word)
    (modes : List Mode) :
    evaluate { instr with word, modes } ops base =
      (evaluate instr ops base).mapError (Fault.naming word) := by
  cases opcode : instr.opcode with
  | add | mul | adjustBase =>
    simp only [evaluate, opcode, store]
    split <;> rfl
  | input | output | jumpIfTrue | jumpIfFalse | lessThan | equals | halt =>
    simp only [evaluate, opcode]
    rfl

theorem Memory.nonneg_of_get {m : Memory} {address value : Word}
    (read : m.get address = .ok value) : 0 ≤ address.toInt := by
  apply Int.not_lt.mp
  intro negative
  cases (m.get_of_negative negative).symm.trans read

namespace Machine

/-- What a parameter cell holds in another mode, in the place of an address in position mode. -/
inductive StandsFor (m : Machine) (address : Word) : Param → Mode → Word → Prop where
  | offset {param : Param} {raw : Word} (difference : raw.toInt = address.toInt - m.base.toInt) :
      StandsFor m address param .relative raw
  | value {raw : Word} (read : m.memory.get address = .ok raw) :
      StandsFor m address .read .immediate raw

theorem StandsFor.resolve {m : Machine} {address word other raw : Word} {param : Param}
    {mode : Mode} {behind : Memory} (stands : m.StandsFor address param mode raw)
    (get : param = .read → ∀ a, Operand.address ⟨.position, address⟩ m.base word = .ok a →
      behind.get a = m.memory.get a) :
    Operand.resolve ⟨mode, raw⟩ behind m.base other param =
      (Operand.resolve ⟨.position, address⟩ m.memory m.base word param).mapError
        (Fault.naming other) := by
  cases stands with
  | offset difference =>
    have addresses := Operand.address_naming ⟨.position, address⟩ m.base word other
    rw [← Operand.address_relative difference] at addresses
    cases param with
    | write => exact addresses
    | read => exact Operand.value_naming (by simp) (by simp) addresses (get rfl)
  | value read =>
    have natural : ¬ address < 0 := by
      rw [Word.lt_zero_iff]
      exact Int.not_lt.mpr (Memory.nonneg_of_get read)
    simp only [Operand.resolve, Operand.value, Operand.address, Operand.natural, natural, if_false,
      read]
    rfl

/-- The current instruction has a parameter in position mode, which is written in another mode: its
digit in the word of the instruction and its cell are changed, and nothing else. -/
structure Recoding (m : Machine) where
  instr : Instruction
  index : Nat
  param : Param
  /-- The address in the parameter cell. -/
  address : Word
  mode : Mode
  /-- The new word of the instruction. -/
  word : Word
  /-- The new parameter cell. -/
  raw : Word
  /-- The memory after both changes. -/
  memory : Memory
  fetched : m.memory.get m.pc.toInt64 = .ok instr.word
  decoded : Instruction.decode instr.word = .ok instr
  here : instr.opcode.params[index]? = some param
  position : instr.mode index = .position
  read : m.memory.get (m.registers.paramAddress index.toUInt64).toInt64 = .ok address
  digit : word.toInt = instr.word.toInt + 10 ^ (index + 2) * mode.digit.toInt
  stands : m.StandsFor address param mode raw
  stored : (m.memory.set m.pc.toInt64 word).bind
    (·.set (m.registers.paramAddress index.toUInt64).toInt64 raw) = .ok memory

namespace Recoding

variable {m : Machine} (r : m.Recoding) {j : Nat} {param : Param} {raw a : Word}

/-- The instruction with the parameter in its new mode. -/
def rewritten : Instruction :=
  { r.instr with word := r.word, modes := r.instr.modes.set r.index r.mode }

/-- The cells that are changed. -/
def Touches (k : Nat) : Prop :=
  k = m.pc.toNat ∨ k = m.pc.toNat + 1 + r.index

/-- No read parameter stands for the value of a cell that is changed. In its new mode, the parameter
that is rewritten has the same address or none. -/
def ReadsElsewhere : Prop :=
  ∀ j, r.instr.opcode.params[j]? = some .read → ∀ k : Nat, r.Touches k →
    (Operands.operandAt r.instr m.memory m.registers j).denoted? m.base ≠ some (k : Int)

/-- The machine with the memory in which the parameter is rewritten. -/
def recoded : Machine :=
  { m with memory := r.memory }

/-! ## The rewritten cells -/

theorem toInt_pc (r : m.Recoding) : m.pc.toInt64.toInt = m.pc.toNat :=
  Word.toInt_of_nonneg (Memory.nonneg_of_get r.fetched)

theorem toNat_paramAddress (found : r.instr.opcode.params[j]? = some param) :
    (m.registers.paramAddress j.toUInt64).toNat = m.pc.toNat + 1 + j := by
  have low := m.pc.toInt64.toInt_lt
  have signed := r.toInt_pc
  have inside : j < r.instr.opcode.arity := (List.getElem?_eq_some_iff.mp found).1
  have arity := r.instr.opcode.arity_le
  rw [Opcode.maxParams] at arity
  refine m.registers.toNat_paramAddress ?_
  change m.pc.toNat + 1 + j < 1 <<< 64
  omega

theorem toInt_paramAddress (found : r.instr.opcode.params[j]? = some param)
    (read : m.memory.get (m.registers.paramAddress j.toUInt64).toInt64 = .ok raw) :
    (m.registers.paramAddress j.toUInt64).toInt64.toInt = m.pc.toNat + 1 + j := by
  rw [Word.toInt_of_nonneg (Memory.nonneg_of_get read), r.toNat_paramAddress found]
  omega

theorem stores : ∃ between, m.memory.set m.pc.toInt64 r.word = .ok between ∧
    between.set (m.registers.paramAddress r.index.toUInt64).toInt64 r.raw = .ok r.memory := by
  have stored := r.stored
  cases first : m.memory.set m.pc.toInt64 r.word with
  | error e =>
    rw [first] at stored
    cases stored
  | ok between =>
    rw [first] at stored
    exact ⟨between, rfl, stored⟩

theorem agrees : m.memory.AgreesOutside r.Touches r.memory := by
  obtain ⟨between, first, second⟩ := r.stores
  have pc := r.toInt_pc
  have cell := r.toInt_paramAddress r.here r.read
  exact (Memory.agreesOutside_of_set first (Or.inl (by omega))).trans
    (Memory.agreesOutside_of_set second (Or.inr (by omega)))

theorem get_pc : r.memory.get m.pc.toInt64 = .ok r.word := by
  obtain ⟨between, first, second⟩ := r.stores
  have pc := r.toInt_pc
  have cell := r.toInt_paramAddress r.here r.read
  have different : m.pc.toInt64 ≠ (m.registers.paramAddress r.index.toUInt64).toInt64 := by
    intro same
    rw [same] at pc
    omega
  rw [(Memory.stored_of_set second).reads, if_neg different, (Memory.stored_of_set first).reads,
    if_pos rfl]

theorem get_param :
    r.memory.get (m.registers.paramAddress r.index.toUInt64).toInt64 = .ok r.raw := by
  obtain ⟨between, -, second⟩ := r.stores
  rw [(Memory.stored_of_set second).reads, if_pos rfl]

theorem position_inside : r.instr.modes[r.index]? = some .position := by
  obtain ⟨-, length, -⟩ := Instruction.decode_eq_ok_iff.mp r.decoded
  have inside : r.index < r.instr.opcode.arity := (List.getElem?_eq_some_iff.mp r.here).1
  have position := r.position
  rw [Instruction.mode, List.getD_eq_getElem?_getD, List.getElem?_eq_getElem (by omega)] at position
  rw [List.getElem?_eq_getElem (by omega)]
  exact congrArg some position

theorem decode_word : Instruction.decode r.word = .ok r.rewritten :=
  Instruction.decode_set r.decoded r.position_inside r.digit

/-! ## The rewritten instruction -/

variable {r}

/-- The value of a read parameter is in a cell that both memories have. -/
theorem ReadsElsewhere.get (elsewhere : r.ReadsElsewhere)
    (found : r.instr.opcode.params[j]? = some .read)
    (read : m.memory.get (m.registers.paramAddress j.toUInt64).toInt64 = .ok raw)
    (addressed : Operand.address ⟨r.instr.mode j, raw⟩ m.base r.instr.word = .ok a) :
    r.memory.get a = m.memory.get a := by
  refine r.agrees.get fun nonneg touched => elsewhere j found _ touched ?_
  have cell := r.toInt_paramAddress found read
  have stored := m.memory.get_of_nonneg (Memory.nonneg_of_get read)
  rw [read, cell] at stored
  have same : Operands.operandAt r.instr m.memory m.registers j = ⟨r.instr.mode j, raw⟩ := by
    cases stored
    rfl
  have addresses := Operand.addresses ⟨r.instr.mode j, raw⟩ m.base r.instr.word
  rw [addressed] at addresses
  cases addresses with
  | ok denotes => rw [same, denotes, Int.toNat_of_nonneg nonneg]

theorem ReadsElsewhere.resolveParam (elsewhere : r.ReadsElsewhere)
    (found : r.instr.opcode.params[j]? = some param) :
    Operands.resolveParam r.rewritten r.memory m.registers param j =
      (Operands.resolveParam r.instr m.memory m.registers param j).mapError
        (Fault.naming r.word) := by
  by_cases same : j = r.index
  · -- the rewritten parameter has another cell, which stands for the same
    subst same
    cases r.here.symm.trans found
    have inside := (List.getElem?_eq_some_iff.mp r.position_inside).1
    simp only [Operands.resolveParam, r.get_param, r.read, r.position, rewritten,
      Instruction.mode_set_self inside]
    refine r.stands.resolve fun reads a addressed => ?_
    rw [reads] at found
    refine elsewhere.get found r.read ?_
    rw [r.position]
    exact addressed
  · -- any other one has its cell and its mode as before
    have cell : r.memory.get (m.registers.paramAddress j.toUInt64).toInt64 =
        m.memory.get (m.registers.paramAddress j.toUInt64).toInt64 := by
      refine r.agrees.get fun nonneg touched => ?_
      rw [Word.toInt_of_nonneg nonneg, r.toNat_paramAddress found, Int.toNat_natCast] at touched
      unfold Touches at touched
      omega
    simp only [Operands.resolveParam, cell, rewritten, Instruction.mode_set_ne same]
    cases read : m.memory.get (m.registers.paramAddress j.toUInt64).toInt64 with
    | error e => rfl
    | ok raw =>
      refine Operand.resolve_naming fun reads a addressed => ?_
      subst reads
      exact elsewhere.get found read addressed

theorem ReadsElsewhere.resolve (elsewhere : r.ReadsElsewhere) :
    Operands.resolve r.rewritten r.memory m.registers =
      (Operands.resolve r.instr m.memory m.registers).mapError (Fault.naming r.word) :=
  Operands.resolve_congr _ rfl fun _ _ found => elsewhere.resolveParam found

theorem ReadsElsewhere.plan (elsewhere : r.ReadsElsewhere) :
    r.recoded.plan = m.plan.mapError (Fault.naming r.word) := by
  have pc : r.recoded.pc = m.pc := rfl
  have base : r.recoded.base = m.base := rfl
  have memory : r.recoded.memory = r.memory := rfl
  have registers : r.recoded.registers = m.registers := rfl
  simp only [Machine.plan, next, pc, base, memory, registers, r.get_pc, r.decode_word, r.fetched,
    r.decoded, elsewhere.resolve]
  cases Operands.resolve r.instr m.memory m.registers with
  | error fault => rfl
  | ok ops =>
    have evaluated : Effect.evaluate r.rewritten ops m.base =
        (Effect.evaluate r.instr ops m.base).mapError (Fault.naming r.word) :=
      Effect.evaluate_naming r.instr ops m.base r.word _
    simp only [mapError_ok, evaluated]
    cases Effect.evaluate r.instr ops m.base <;> rfl

theorem ReadsElsewhere.step (elsewhere : r.ReadsElsewhere) :
    r.recoded.step.1 = m.step.1.mapError (MachineError.renamed (Fault.naming r.word)) ∧
      m.step.2.AgreesOutside r.Touches r.recoded.step.2 := by
  have kept := Fault.naming_of_not_carriesWord r.word
  have same : r.recoded.isHalted = m.isHalted := rfl
  cases halted : m.isHalted with
  | true =>
    rw [step_of_isHalted halted, step_of_isHalted (same.trans halted)]
    exact ⟨congrArg Except.error (renamed_failure kept rfl m).symm, .intro r.agrees⟩
  | false =>
    rw [step_of_live halted, step_of_live (same.trans halted)]
    have alike : m.resumed.AgreesOutside r.Touches r.recoded.resumed := .intro r.agrees
    exact alike.execute kept elsewhere.plan

end Recoding

/-- Position, relative and immediate mode are only ways to write a parameter. Unless a read
parameter looks at one of the rewritten cells, the instruction has the same operands, the same
effect and the same outcome, up to the word that a fault names, and leaves machines that differ in
these two cells at most. -/
theorem addressing_modes_agree {m : Machine} (r : m.Recoding) (elsewhere : r.ReadsElsewhere) :
    Instruction.decode r.word = .ok r.rewritten ∧
    r.recoded.memory.get m.pc.toInt64 = .ok r.word ∧
    Operands.resolve r.rewritten r.memory m.registers =
      (Operands.resolve r.instr m.memory m.registers).mapError (Fault.naming r.word) ∧
    (∀ ops, Effect.evaluate r.rewritten ops m.base =
      (Effect.evaluate r.instr ops m.base).mapError (Fault.naming r.word)) ∧
    r.recoded.step.1 = m.step.1.mapError (MachineError.renamed (Fault.naming r.word)) ∧
    r.recoded.step.2 = { m.step.2 with memory := r.recoded.step.2.memory } ∧
    ∀ k, ¬ r.Touches k → r.recoded.step.2.memory.cell k = m.step.2.memory.cell k := by
  obtain ⟨outcome, after⟩ := elsewhere.step
  refine ⟨r.decode_word, r.get_pc, elsewhere.resolve,
    fun ops => Effect.evaluate_naming r.instr ops m.base r.word _, outcome, ?_,
    after.memory.cells⟩
  generalize r.recoded.step.2 = left at after
  obtain ⟨-⟩ := after
  rfl

/-- Compares two cells and stores the result in the place of the instruction. -/
def comparing : Machine :=
  { memory := ⟨#[7, 5, 6, 0, 99, 30, 32]⟩, registers := { base := 9223372036854775807 } }

def comparison : Instruction :=
  ⟨.lessThan, 7, [.position, .position, .position]⟩

/-- The destination is written relative to the greatest base there is. -/
def comparingRelative : comparing.Recoding where
  instr := comparison
  index := 2
  param := .write
  address := 0
  mode := .relative
  word := 20007
  raw := -9223372036854775807
  memory := ⟨#[20007, 5, 6, -9223372036854775807, 99, 30, 32]⟩
  fetched := rfl
  decoded := rfl
  here := rfl
  position := rfl
  read := rfl
  digit := by decide
  stands := .offset (by decide)
  stored := rfl

/-- The second value to compare is written in its place. -/
def comparingImmediate : comparing.Recoding where
  instr := comparison
  index := 1
  param := .read
  address := 6
  mode := .immediate
  word := 1007
  raw := 32
  memory := ⟨#[1007, 5, 32, 0, 99, 30, 32]⟩
  fetched := rfl
  decoded := rfl
  here := rfl
  position := rfl
  read := rfl
  digit := by decide
  stands := .value rfl
  stored := rfl

theorem comparing_readsElsewhere {r : comparing.Recoding} (instr : r.instr = comparison)
    (index : r.index < 3) : r.ReadsElsewhere := by
  intro j found k touched
  have near : k ≤ 3 := by
    have start : comparing.pc.toNat = 0 := rfl
    unfold Recoding.Touches at touched
    omega
  have values : (Operands.operandAt comparison comparing.memory comparing.registers 0).denoted?
      comparing.base = some 5 ∧
      (Operands.operandAt comparison comparing.memory comparing.registers 1).denoted?
        comparing.base = some 6 := by decide
  rw [instr] at found ⊢
  rcases j with _ | _ | _ | j
  · rw [values.1, ne_eq, Option.some.injEq]
    omega
  · rw [values.2, ne_eq, Option.some.injEq]
    omega
  · cases found
  · cases found

theorem addressing_modes_agree_comparing :
    comparingRelative.ReadsElsewhere ∧ comparingImmediate.ReadsElsewhere ∧
    Instruction.decode 20007 = .ok comparingRelative.rewritten ∧
    Instruction.decode 1007 = .ok comparingImmediate.rewritten ∧
    Operands.resolve comparingRelative.rewritten comparingRelative.memory comparing.registers =
      .ok ⟨[30, 32], 0⟩ ∧
    Operands.resolve comparingImmediate.rewritten comparingImmediate.memory comparing.registers =
      .ok ⟨[30, 32], 0⟩ ∧
    comparingRelative.recoded.step.1 = .ok none ∧ comparingRelative.recoded.step.2.pc = 4 ∧
    comparingImmediate.recoded.step.1 = .ok none ∧ comparingImmediate.recoded.step.2.pc = 4 := by
  have relative : comparingRelative.ReadsElsewhere := comparing_readsElsewhere rfl (by decide)
  have immediate : comparingImmediate.ReadsElsewhere := comparing_readsElsewhere rfl (by decide)
  obtain ⟨decoded, -, operands, -, outcome, after, -⟩ :=
    addressing_modes_agree comparingRelative relative
  obtain ⟨decoded', -, operands', -, outcome', after', -⟩ :=
    addressing_modes_agree comparingImmediate immediate
  refine ⟨relative, immediate, decoded, decoded', operands.trans (by decide +kernel),
    operands'.trans (by decide +kernel), outcome.trans (by decide +kernel), ?_,
    outcome'.trans (by decide +kernel), ?_⟩
  · rw [after]
    rfl
  · rw [after']
    rfl

end Machine

end Intcode
