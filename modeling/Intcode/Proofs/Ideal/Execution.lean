import Intcode.Proofs.Ideal.Effects
import Intcode.Proofs.Machine.Runs

/-!
# Execution on the ideal machine

A machine without a limit on its instructions tracks the ideal machine as long as its memory can
hold what the program stores: from matching states, one instruction leads to matching states, or it
meets the first of the faults of the ideal machine.
-/

namespace Intcode

def Outcome.event : Outcome → Ideal.Event
  | .output value => .output value.toInt
  | .awaitingInput => .awaitingInput
  | .halted => .halted

theorem Budget.charge_of_unlimited {b : Budget} (unlimited : b.limit = none) :
    ∃ paid, b.charge = .ok paid ∧ paid.limit = none := by
  refine ⟨{ b with used := b.used + 1 }, ?_, unlimited⟩
  simp only [charge, unlimited]

/-- What the memory can hold decides whether it admits a cell. -/
theorem Memory.target_of_small {m : Memory} (small : m.size ≤ capacity) {address : Word}
    (nonneg : 0 ≤ address.toInt) :
    m.target address =
      if address.toInt < capacity then .ok address.toInt.toNat
      else .error (.outOfMemory address) := by
  simp only [m.target_of_nonneg nonneg, admits_iff]
  have same : (address.toInt.toNat < m.size ∨ address.toInt.toNat < capacity) ↔
      address.toInt < capacity := by omega
  by_cases inside : address.toInt < capacity
  · rw [if_pos inside, if_pos (same.mpr inside)]
  · rw [if_neg inside, if_neg (mt same.mp inside)]

namespace Ideal

/-- The machine is where the ideal one is; its program had so many words. -/
structure Tracks (programSize : Nat) (m : Machine) (r : Ideal) : Prop where
  mirrors : r.Mirrors m.memory m.registers
  pending : m.pending.map Int64.toInt = r.pending
  halted : m.isHalted = r.halted
  low : r.pc < 2 ^ 63
  extent : m.memory.size = r.extent programSize
  small : m.memory.size ≤ Memory.capacity
  unlimited : m.budget.limit = none

/-- Fails at an instruction with the first of some faults; without a fault, makes the step of the
ideal machine. -/
inductive Answers (programSize : Nat) (pc : UInt64) : List Fault → Option Event × Ideal →
    Except MachineError (Option Outcome) × Machine → Prop where
  | ok {outcome : Option Outcome} {event : Option Event} {m : Machine} {r : Ideal}
      (same : outcome.map Outcome.event = event) (tracks : r.Tracks programSize m) :
      Answers programSize pc [] (event, r) (.ok outcome, m)
  | error {fault : Fault} {later : List Fault} {ideal : Option Event × Ideal} {m : Machine} :
      Answers programSize pc (fault :: later) ideal (.error ⟨fault, pc⟩, m)

namespace Tracks

variable {programSize : Nat} {m : Machine} {r : Ideal}

/-- The instruction word is fetched without fail. -/
theorem fetch (tracks : r.Tracks programSize m) :
    ∃ word, m.memory.get m.pc.toInt64 = .ok word ∧ word.toInt = r.word := by
  have pc := tracks.mirrors.pc
  have low := tracks.low
  have reached : m.pc.toNat < 0x8000000000000000 := by
    rw [Machine.pc]
    omega
  refine ⟨_, m.memory.get_toInt64 reached, ?_⟩
  rw [tracks.mirrors.cells, Machine.pc, pc]
  rfl

/-- Beyond the store every word is zero, which selects no opcode. -/
theorem inside (tracks : r.Tracks programSize m) {opcode : Opcode}
    (selected : r.opcode? = some opcode) : r.pc < Memory.capacity := by
  have small := tracks.small
  by_cases beyond : m.memory.size ≤ r.pc
  · have zero : r.word = 0 := by
      rw [word, ← tracks.mirrors.cells, Memory.cell_of_size_le beyond]
      rfl
    rw [opcode?, zero] at selected
    cases selected
  · omega

theorem advance (tracks : r.Tracks programSize m) (inside : r.pc < Memory.capacity)
    (opcode : Opcode) : (r.advance opcode.width).Tracks programSize (m.advance opcode) := by
  have capacity : Memory.capacity = 2 ^ 60 - 1 := rfl
  have width := opcode.width_le
  have pc := tracks.mirrors.pc
  refine { tracks with mirrors := ⟨tracks.mirrors.cells, ?_, tracks.mirrors.base⟩, low := ?_ }
  · rw [Machine.advance, Registers.toNat_pc_advance _ (by omega), pc_advance, pc]
  · rw [pc_advance]
    omega

theorem store (tracks : r.Tracks programSize m) {i : Nat} {address : Word}
    (dest : address.toInt = r.address i) (admitted : address.toInt < Memory.capacity)
    (value : Word) :
    (r.store i value.toInt).Tracks programSize
      { m with memory := m.memory.write address.toInt.toNat value } := by
  have small := tracks.small
  have capacity : Memory.capacity = 2 ^ 60 - 1 := rfl
  have admits : m.memory.admits address.toInt.toNat = true := by
    rw [Memory.admits_iff]
    omega
  refine { tracks with
    mirrors := ⟨?_, tracks.mirrors.pc, tracks.mirrors.base⟩, extent := ?_, small := ?_ }
  · intro index
    rw [Memory.cell_write admits, apply_ite Int64.toInt, tracks.mirrors.cells, Ideal.store, dest]
  · rw [Memory.size_write admits, tracks.extent, extent_store, dest]
  · rw [Memory.size_write admits]
    omega

theorem rebase (tracks : r.Tracks programSize m) (base : Word) :
    Ideal.Tracks programSize { m with registers := { m.registers with base } }
      { r with base := base.toInt } :=
  { tracks with mirrors := ⟨tracks.mirrors.cells, tracks.mirrors.pc, rfl⟩ }

/-- The queue only matters to the input instruction. -/
theorem dequeue (tracks : r.Tracks programSize m) {value : Word} {pending : List Word}
    (queue : m.pending = value :: pending) :
    r.pending = value.toInt :: pending.map Int64.toInt ∧
      Ideal.Tracks programSize { m with pending }
        { r with pending := pending.map Int64.toInt } := by
  refine ⟨?_, { tracks with
    mirrors := ⟨tracks.mirrors.cells, tracks.mirrors.pc, tracks.mirrors.base⟩, pending := rfl }⟩
  rw [← tracks.pending, queue, List.map_cons]

end Tracks

variable {programSize : Nat} {m : Machine} {r : Ideal}

theorem apply_write_answers (tracks : r.Tracks programSize m) (inside : r.pc < Memory.capacity)
    {i : Nat} {address : Word} (dest : address.toInt = r.address i) (natural : 0 ≤ address.toInt)
    (value : Word) (opcode : Opcode) :
    Answers programSize m.pc
      (if address.toInt < Memory.capacity then [] else [.memory (.outOfMemory address)])
      (none, (r.store i value.toInt).advance opcode.width)
      (m.apply opcode (.write address value)) := by
  simp only [Machine.apply, Memory.target_of_small tracks.small natural]
  by_cases admitted : address.toInt < Memory.capacity
  · rw [if_pos admitted, if_pos admitted]
    exact .ok rfl ((tracks.store dest admitted value).advance inside opcode)
  · rw [if_neg admitted, if_neg admitted]
    exact .error

theorem apply_jump_answers (tracks : r.Tracks programSize m) (target : Word) (opcode : Opcode) :
    Answers programSize m.pc (negativeFaults target.toInt)
      (none, { r with pc := target.toInt.toNat }) (m.apply opcode (.jump target)) := by
  rw [negativeFaults, Int64.ofInt_toInt]
  by_cases negative : target.toInt < 0
  · simp only [if_pos negative, Machine.apply, Memory.indexOf_of_negative negative]
    exact .error
  · have high := target.toInt_lt
    simp only [if_neg negative, Machine.apply, Memory.indexOf_of_nonneg (Int.not_lt.mp negative)]
    refine .ok rfl { tracks with
      mirrors := ⟨tracks.mirrors.cells, ?_, tracks.mirrors.base⟩, low := ?_ }
    · simp only [Nat.toUInt64, UInt64.toNat_ofNat']
      omega
    · simp only
      omega

theorem apply_input (m : Machine) {value : Word} {pending : List Word}
    (queue : m.pending = value :: pending) (opcode : Opcode) (address : Word) :
    m.apply opcode (.input address) = { m with pending }.apply opcode (.write address value) := by
  simp only [Machine.apply, queue]
  cases m.memory.target address <;> rfl

/-- The machine finds the effect of its next instruction, or its first fault up to there. -/
theorem next_heeds (tracks : r.Tracks programSize m) {opcode : Opcode}
    (selected : r.opcode? = some opcode) :
    Heeds (fun next => next.1.opcode = opcode ∧ r.Means opcode next.2)
      (r.modeFaults opcode ++ (r.operandFaults opcode ++ r.overflowFaults opcode)) m.next := by
  obtain ⟨word, fetched, same⟩ := tracks.fetch
  have inside := tracks.inside selected
  have near : r.pc + Opcode.maxParams < 2 ^ 63 := by
    have capacity : Memory.capacity = 2 ^ 60 - 1 := rfl
    rw [Opcode.maxParams]
    omega
  simp only [Machine.next, fetched]
  refine (decode_heeds same selected).bind (fun fault failed => by simp only [failed]) ?_
  intro instr decoded decodes
  simp only [decoded]
  refine (resolve_heeds tracks.mirrors decodes near).bind
    (fun fault failed => by simp only [failed]) ?_
  intro ops resolved holds
  simp only [resolved]
  refine (evaluate_heeds decodes holds tracks.mirrors.base).map
    (fun fault failed => by simp only [Machine.base, failed]) ?_
  intro effect evaluated means
  exact ⟨(instr, effect), by simp only [Machine.base, evaluated], decodes.selected, means⟩

theorem next_of_unselected (tracks : r.Tracks programSize m) (unselected : r.opcode? = none) :
    m.next = .error (.unknownOpcode (Int64.ofInt (r.word.tmod 100)) r.named) := by
  obtain ⟨word, fetched, same⟩ := tracks.fetch
  simp only [Machine.next, fetched, decode_of_unselected same unselected]

/-- Without a value to store and without a jump, the effect cannot fail. -/
theorem faultless {opcode : Opcode} (unstored : r.destination? opcode = none)
    (stays : r.target? opcode = none) : r.storeFaults opcode ++ r.jumpFaults opcode = [] := by
  rw [storeFaults, jumpFaults, unstored, stays]
  rfl

theorem storeFaults_of_destination {opcode : Opcode} {address : Word}
    (stores : r.destination? opcode = some address.toInt) (stays : r.target? opcode = none) :
    r.storeFaults opcode ++ r.jumpFaults opcode =
      if address.toInt < Memory.capacity then [] else [.memory (.outOfMemory address)] := by
  rw [storeFaults, jumpFaults, stores, stays, List.append_nil]
  simp only [Int64.ofInt_toInt]

theorem apply_input_answers (tracks : r.Tracks programSize m) (live : r.halted = false)
    (inside : r.pc < Memory.capacity) {address : Word} (dest : address.toInt = r.address 0)
    (natural : 0 ≤ address.toInt) :
    Answers programSize m.pc (r.storeFaults .input ++ r.jumpFaults .input) (r.perform .input)
      (m.apply .input (.input address)) := by
  rcases queue : m.pending with _ | ⟨value, pending⟩
  · have starved : r.pending = [] := by
      rw [← tracks.pending, queue]
      rfl
    rw [faultless (by rw [destination?, if_pos starved]) rfl]
    simp only [Machine.apply, queue, perform, starved]
    have limit : m.budget.refund.limit = none := tracks.unlimited
    exact .ok rfl { tracks with
      mirrors := ⟨tracks.mirrors.cells, tracks.mirrors.pc, tracks.mirrors.base⟩
      pending := by rw [starved]; rfl
      halted := by rw [live]; rfl
      unlimited := limit }
  · obtain ⟨front, popped⟩ := tracks.dequeue queue
    have stores : r.destination? .input = some address.toInt := by
      rw [destination?, if_neg (by rw [front]; exact List.cons_ne_nil _ _), dest]
    rw [storeFaults_of_destination stores rfl, apply_input m queue]
    simp only [perform, front]
    exact apply_write_answers popped inside dest natural value .input

theorem apply_answers (tracks : r.Tracks programSize m) (live : r.halted = false)
    (inside : r.pc < Memory.capacity) {opcode : Opcode} {effect : Effect}
    (means : r.Means opcode effect) :
    Answers programSize m.pc (r.storeFaults opcode ++ r.jumpFaults opcode) (r.perform opcode)
      (m.apply opcode effect) := by
  cases means with
  | write stores stays dest natural steps =>
    rw [storeFaults_of_destination (by rw [stores, dest]) stays, steps]
    exact apply_write_answers tracks inside dest natural _ opcode
  | jump unstored goes steps =>
    rw [storeFaults, jumpFaults, unstored, goes, steps]
    exact apply_jump_answers tracks _ opcode
  | proceed unstored stays steps =>
    rw [faultless unstored stays, steps]
    exact .ok rfl (tracks.advance inside opcode)
  | rebase unstored stays steps =>
    rw [faultless unstored stays, steps]
    exact .ok rfl ((tracks.rebase _).advance inside opcode)
  | input selected dest natural =>
    subst selected
    exact apply_input_answers tracks live inside dest natural
  | output unstored stays steps =>
    rw [faultless unstored stays, steps]
    exact .ok rfl (tracks.advance inside opcode)
  | halt unstored stays steps =>
    rw [faultless unstored stays, steps]
    exact .ok rfl { tracks with
      mirrors := ⟨tracks.mirrors.cells, tracks.mirrors.pc, tracks.mirrors.base⟩
      halted := rfl }

/-- What a machine does after a computation that heeds some faults. -/
theorem answers_of_heeds {α : Type} {Fine : α → Prop} {faults later : List Fault}
    {x : Except Fault α} {pc : UInt64} {ideal : Option Event × Ideal}
    {done : Except MachineError (Option Outcome) × Machine} (heeds : Heeds Fine faults x)
    (failed : ∀ fault, x = .error fault → ∃ left, done = (.error ⟨fault, pc⟩, left))
    (onward : ∀ a, x = .ok a → Fine a → Answers programSize pc later ideal done) :
    Answers programSize pc (faults ++ later) ideal done := by
  cases heeds with
  | ok fine => exact onward _ rfl fine
  | error =>
    obtain ⟨left, rfl⟩ := failed _ rfl
    exact .error

theorem execute_answers (tracks : r.Tracks programSize m) (live : r.halted = false) :
    Answers programSize m.pc r.faults r.step m.execute := by
  obtain ⟨paid, charged, unlimited⟩ := Budget.charge_of_unlimited tracks.unlimited
  have paying : Ideal.Tracks programSize { m with budget := paid } r :=
    { tracks with unlimited := unlimited }
  rw [faults, step, live]
  cases selected : r.opcode? with
  | none =>
    rw [Machine.execute_faulty charged (next_of_unselected tracks selected)]
    exact .error
  | some opcode =>
    simp only [Bool.false_eq_true, if_false, List.append_assoc]
    rw [← List.append_assoc (r.operandFaults opcode), ← List.append_assoc (r.modeFaults opcode)]
    refine answers_of_heeds (next_heeds tracks selected) ?_ ?_
    · intro fault faulty
      exact ⟨_, Machine.execute_faulty charged faulty⟩
    · rintro ⟨instr, effect⟩ found ⟨same, means⟩
      rw [Machine.execute_effect charged found, same]
      exact apply_answers paying live (tracks.inside selected) means

/-- One step of the machine. -/
theorem step_answers (tracks : r.Tracks programSize m) :
    Answers programSize m.pc r.faults r.step m.step := by
  cases halted : r.halted with
  | true =>
    have finished : m.isHalted = true := by rw [tracks.halted, halted]
    rw [faults, halted, if_pos rfl, Machine.step, Machine.resume, if_pos finished]
    exact .error
  | false =>
    have live : ¬ m.isHalted = true := by rw [tracks.halted, halted]; decide
    have running : Ideal.Tracks programSize { m with status := .running } r :=
      { tracks with halted := halted.symm }
    simp only [Machine.step, Machine.resume, if_neg live]
    exact execute_answers running halted

end Ideal

end Intcode
