import Intcode.Budget
import Intcode.Effect
import Intcode.Profile
import Intcode.Program

/-!
# The machine

A machine has its own memory, registers and queue of inputs. It executes until it has to suspend:
for an input that is not there, after an output, or because it halted. A program may run forever,
so every loop takes fuel, one unit an instruction or a suspension, and answers `none` when it runs
out; more fuel never changes an answer.
-/

namespace Intcode

inductive Status where
  /-- Never run. -/
  | ready
  /-- In execution, or able to go on after an output or an error. -/
  | running
  /-- At an input instruction, with nothing queued. -/
  | awaitingInput
  /-- Halted, for good. -/
  | halted
deriving DecidableEq, Repr

/-- Why a machine suspended. -/
inductive Outcome where
  | output (value : Word)
  | awaitingInput
  | halted
deriving DecidableEq, Repr

structure Machine where
  memory : Memory
  registers : Registers := {}
  /-- The inputs fed and not yet taken, the next one first. -/
  pending : List Word := []
  status : Status := .ready
  budget : Budget := {}
  profile : Profile := {}
deriving DecidableEq, Repr

namespace Machine

/-- A fresh machine, with a limit on the instructions it may execute. -/
def load (program : Program) (limit : Option Nat := none) : Machine :=
  { memory := program.toMemory, budget := { limit } }

def ofMemory (memory : Memory) : Machine :=
  { memory }

def pc (m : Machine) : UInt64 :=
  m.registers.pc

def base (m : Machine) : Word :=
  m.registers.base

def isHalted (m : Machine) : Bool :=
  m.status == .halted

/-- The number of instructions paid for so far. -/
def steps (m : Machine) : Nat :=
  m.budget.used

def feed (m : Machine) (value : Word) : Machine :=
  { m with pending := m.pending ++ [value] }

def feedAll (m : Machine) (values : List Word) : Machine :=
  { m with pending := m.pending ++ values }

/-- A fault met at the current instruction. -/
def failure (m : Machine) (fault : Fault) : MachineError :=
  ⟨fault, m.pc⟩

/-- Moves on past an executed instruction, which counts in the profile. -/
def advance (m : Machine) (opcode : Opcode) : Machine :=
  { m with
    registers := m.registers.advance opcode.width.toUInt64
    profile := m.profile.record opcode }

/-- The instruction at the program counter and its effect. -/
def next (m : Machine) : Except Fault (Instruction × Effect) :=
  match m.memory.get m.pc.toInt64 with
  | .error e => .error (.memory e)
  | .ok word =>
    match Instruction.decode word with
    | .error e => .error e
    | .ok instr =>
      match Operands.resolve instr m.memory m.registers with
      | .error e => .error e
      | .ok ops =>
        match Effect.evaluate instr ops m.base with
        | .error e => .error e
        | .ok effect => .ok (instr, effect)

/-- Makes the change that an instruction with this opcode asks for. An input that is not there
takes the payment back; an input that cannot be stored has been taken all the same. -/
def apply (m : Machine) (opcode : Opcode) :
    Effect → Except MachineError (Option Outcome) × Machine
  | .write address value =>
    match m.memory.target address with
    | .error e => (.error (m.failure (.memory e)), m)
    | .ok index =>
      (.ok none, { m with memory := m.memory.write index value }.advance opcode)
  | .jump target =>
    match Memory.indexOf target with
    | .error e => (.error (m.failure (.memory e)), m)
    | .ok index =>
      (.ok none,
        { m with
          registers := { m.registers with pc := index.toUInt64 }
          profile := m.profile.record opcode })
  | .proceed => (.ok none, m.advance opcode)
  | .rebase base =>
    (.ok none, { m with registers := { m.registers with base } }.advance opcode)
  | .input address =>
    match m.pending with
    | [] =>
      (.ok (some .awaitingInput),
        { m with status := .awaitingInput, budget := m.budget.refund })
    | value :: pending =>
      match m.memory.target address with
      | .error e => (.error (m.failure (.memory e)), { m with pending })
      | .ok index =>
        (.ok none, { m with memory := m.memory.write index value, pending }.advance opcode)
  | .output value => (.ok (some (.output value)), m.advance opcode)
  | .halt =>
    (.ok (some .halted), { m with status := .halted, profile := m.profile.record opcode })

/-- Pays for the instruction at the program counter and executes it. -/
def execute (m : Machine) : Except MachineError (Option Outcome) × Machine :=
  match m.budget.charge with
  | .error fault => (.error (m.failure fault), m)
  | .ok budget =>
    match m.next with
    | .error fault => (.error (m.failure fault), { m with budget })
    | .ok (instr, effect) => { m with budget }.apply instr.opcode effect

/-- Makes the machine ready to execute, unless it has halted. -/
def resume (m : Machine) : Except MachineError Machine :=
  if m.isHalted then .error (m.failure .halted) else .ok { m with status := .running }

/-- Executes one instruction; the outcome is `none` if the machine simply moved on. -/
def step (m : Machine) : Except MachineError (Option Outcome) × Machine :=
  match m.resume with
  | .error e => (.error e, m)
  | .ok m => m.execute

/-- Executes until the machine suspends or fails. -/
def runFrom : Nat → Machine → Option (Except MachineError Outcome × Machine)
  | 0, _ => none
  | fuel + 1, m =>
    match m.execute with
    | (.error e, m) => some (.error e, m)
    | (.ok (some outcome), m) => some (.ok outcome, m)
    | (.ok none, m) => runFrom fuel m

/-- Runs the machine to its next suspension. -/
def run (fuel : Nat) (m : Machine) : Option (Except MachineError Outcome × Machine) :=
  match m.resume with
  | .error e => some (.error e, m)
  | .ok m => runFrom fuel m

/-- A suspension, with the instruction that brought it about and the steps taken until then. -/
structure Suspension where
  outcome : Outcome
  pc : UInt64
  steps : Nat
deriving DecidableEq, Repr

/-- The suspension that has just left a machine as it is now. An output has moved on already. -/
def suspension (m : Machine) (outcome : Outcome) : Suspension :=
  match outcome with
  | .output _ => ⟨outcome, m.pc - Opcode.output.width.toUInt64, m.steps⟩
  | _ => ⟨outcome, m.pc, m.steps⟩

/-- A machine that was run on until it halted or failed, with all suspensions on the way. -/
structure Course where
  suspensions : List Suspension
  ending : Except MachineError Unit
  machine : Machine

namespace Course

def outputs (c : Course) : List Word :=
  c.suspensions.filterMap fun s =>
    match s.outcome with
    | .output value => some value
    | _ => none

/-- Every output in order, unless the machine failed. -/
def result (c : Course) : Except MachineError (List Word) :=
  match c.ending with
  | .error e => .error e
  | .ok () => .ok c.outputs

end Course

/-- Goes on running after the suspensions before, which come newest first. -/
def followFrom (fuel : Nat) : Nat → List Suspension → Machine → Option Course
  | 0, _, _ => none
  | more + 1, before, m =>
    match m.run fuel with
    | none => none
    | some (.error e, m) => some ⟨before.reverse, .error e, m⟩
    | some (.ok outcome, m) =>
      let before := m.suspension outcome :: before
      match outcome with
      | .output _ => followFrom fuel more before m
      | .awaitingInput => some ⟨before.reverse, .error (m.failure .inputExhausted), m⟩
      | .halted => some ⟨before.reverse, .ok (), m⟩

/-- Runs on after every output. A machine that waits for input fails. -/
def follow (fuel : Nat) (m : Machine) : Option Course :=
  followFrom fuel fuel [] m

/-- Runs until the machine halts and collects every output. -/
def runToHalt (fuel : Nat) (m : Machine) : Option (Except MachineError (List Word) × Machine) :=
  (m.follow fuel).map fun course => (course.result, course.machine)

def peek (m : Machine) (address : Word) : Except MachineError Word :=
  match m.memory.get address with
  | .error e => .error (m.failure (.memory e))
  | .ok value => .ok value

def poke (m : Machine) (address value : Word) : Except MachineError Machine :=
  match m.memory.target address with
  | .error e => .error (m.failure (.memory e))
  | .ok index => .ok { m with memory := m.memory.write index value }

end Machine

namespace Program

/-- The outputs of a program that is given all its inputs at the start. -/
def outputs (fuel : Nat) (p : Program) (inputs : List Word) :
    Option (Except MachineError (List Word)) :=
  (((Machine.load p).feedAll inputs).runToHalt fuel).map Prod.fst

end Program

end Intcode
