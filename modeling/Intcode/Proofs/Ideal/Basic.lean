import Intcode.Machine
import Mathlib.Algebra.Group.Int.Defs
import Mathlib.Algebra.Group.Nat.Defs

/-!
# The ideal machine

The machine of the definition, free of the limits of words and of memory: its memory is a total
function from the naturals to the integers, and its arithmetic has no bounds. An instruction that
has no meaning for it, or that a machine of words cannot follow, meets faults. They are listed in
the order in which they count.
-/

namespace Intcode

structure Ideal where
  /-- Zero where nothing was stored. -/
  memory : Nat → Int
  pc : Nat := 0
  base : Int := 0
  pending : List Int := []
  halted : Bool := false
  /-- The addresses stored to so far, the latest first. -/
  written : List Nat := []

namespace Ideal

inductive Event where
  | output (value : Int)
  | awaitingInput
  | halted
deriving DecidableEq, Repr

def load (p : Program) : Ideal :=
  { memory := fun address => (p.words.getD address 0).toInt }

def feedAll (r : Ideal) (values : List Int) : Ideal :=
  { r with pending := r.pending ++ values }

/-- The cells in use: those of the program and all up to the largest address stored to. -/
def extent (r : Ideal) (programSize : Nat) : Nat :=
  match r.written.max? with
  | none => programSize
  | some largest => max programSize (1 + largest)

def word (r : Ideal) : Int :=
  r.memory r.pc

/-- The opcode that the two lowest digits of a word select. -/
def selected? : Int → Option Opcode
  | 1 => some .add
  | 2 => some .mul
  | 3 => some .input
  | 4 => some .output
  | 5 => some .jumpIfTrue
  | 6 => some .jumpIfFalse
  | 7 => some .lessThan
  | 8 => some .equals
  | 9 => some .adjustBase
  | 99 => some .halt
  | _ => none

/-- The mode that a digit stands for. -/
def moded? : Int → Option Mode
  | 0 => some .position
  | 1 => some .immediate
  | 2 => some .relative
  | _ => none

def opcode? (r : Ideal) : Option Opcode :=
  if r.word < 0 then none else selected? (r.word % 100)

/-- The digit that gives the mode of a parameter: the hundreds for the first one. -/
def digit (r : Ideal) (i : Nat) : Int :=
  r.word / 10 ^ (i + 2) % 10

def mode? (r : Ideal) (i : Nat) : Option Mode :=
  moded? (r.digit i)

/-- The cell of a parameter. -/
def raw (r : Ideal) (i : Nat) : Int :=
  r.memory (r.pc + 1 + i)

/-- The address that a parameter denotes in position or relative mode. -/
def address (r : Ideal) (i : Nat) : Int :=
  if r.mode? i = some .relative then r.base + r.raw i else r.raw i

def value (r : Ideal) (i : Nat) : Int :=
  if r.mode? i = some .immediate then r.raw i else r.memory (r.address i).toNat

/-- Stores at the address that a parameter denotes. -/
def store (r : Ideal) (i : Nat) (value : Int) : Ideal :=
  let target := (r.address i).toNat
  { r with
    memory := fun address => if address = target then value else r.memory address
    written := target :: r.written }

def advance (r : Ideal) (cells : Nat) : Ideal :=
  { r with pc := r.pc + cells }

/-- Goes on at the second parameter, or past the instruction. -/
def branch (r : Ideal) (taken : Bool) : Ideal :=
  if taken then { r with pc := (r.value 1).toNat } else r.advance 3

/-- Executes an instruction with this opcode at the program counter. -/
def perform (r : Ideal) : Opcode → Option Event × Ideal
  | .add => (none, (r.store 2 (r.value 0 + r.value 1)).advance 4)
  | .mul => (none, (r.store 2 (r.value 0 * r.value 1)).advance 4)
  | .input =>
    match r.pending with
    | [] => (some .awaitingInput, r)
    | value :: pending => (none, ({ r with pending }.store 0 value).advance 2)
  | .output => (some (.output (r.value 0)), r.advance 2)
  | .jumpIfTrue => (none, r.branch (r.value 0 ≠ 0))
  | .jumpIfFalse => (none, r.branch (r.value 0 = 0))
  | .lessThan => (none, (r.store 2 (if r.value 0 < r.value 1 then 1 else 0)).advance 4)
  | .equals => (none, (r.store 2 (if r.value 0 = r.value 1 then 1 else 0)).advance 4)
  | .adjustBase => (none, { r with base := r.base + r.value 0 }.advance 2)
  | .halt => (some .halted, { r with halted := true })

/-- Executes one instruction. This only has a meaning where the instruction meets no fault. -/
def step (r : Ideal) : Option Event × Ideal :=
  match r.opcode? with
  | none => (none, r)
  | some opcode => r.perform opcode

/-- The machine after so many steps, with the inputs that arrive before each step and those that
arrive before the next. -/
def stepped (r : Ideal) (arrivals : Nat → List Int) : Nat → Ideal
  | 0 => r.feedAll (arrivals 0)
  | n + 1 => (r.stepped arrivals n).step.2.feedAll (arrivals (n + 1))

/-- 64 bits hold the integer. -/
def Fits (n : Int) : Prop :=
  -2 ^ 63 ≤ n ∧ n < 2 ^ 63

instance (n : Int) : Decidable (Fits n) :=
  inferInstanceAs (Decidable (_ ∧ _))

/-- The instruction word as faults name it. -/
def named (r : Ideal) : Word :=
  Int64.ofInt r.word

/-- A digit that is no mode. -/
def digitFaults (r : Ideal) (i : Nat) : List Fault :=
  if r.mode? i = none then [.invalidMode (Int64.ofInt (r.digit i)) r.named] else []

def modeFaults (r : Ideal) (opcode : Opcode) : List Fault :=
  (List.range opcode.arity).flatMap r.digitFaults

def negativeFaults (address : Int) : List Fault :=
  if address < 0 then [.memory (.negativeAddress (Int64.ofInt address))] else []

/-- What keeps a parameter from denoting an address. -/
def addressFaults (r : Ideal) (i : Nat) : List Fault :=
  match r.mode? i with
  | some .immediate => [.immediateDestination r.named]
  | some .relative =>
    if Fits (r.address i) then negativeFaults (r.address i) else [.arithmeticOverflow r.named]
  | _ => negativeFaults (r.address i)

/-- An immediate value needs no address. -/
def paramFaults (r : Ideal) (i : Nat) : Param → List Fault
  | .read => if r.mode? i = some .immediate then [] else r.addressFaults i
  | .write => r.addressFaults i

def operandFaults (r : Ideal) (opcode : Opcode) : List Fault :=
  opcode.params.zipIdx.flatMap fun (param, i) => r.paramFaults i param

/-- The result of exact arithmetic that has to be a word. -/
def unbounded? (r : Ideal) : Opcode → Option Int
  | .add => some (r.value 0 + r.value 1)
  | .mul => some (r.value 0 * r.value 1)
  | .adjustBase => some (r.base + r.value 0)
  | _ => none

def overflowFaults (r : Ideal) (opcode : Opcode) : List Fault :=
  match r.unbounded? opcode with
  | none => []
  | some result => if Fits result then [] else [.arithmeticOverflow r.named]

/-- The address that a value has to be stored at. A starving input stores nothing. -/
def destination? (r : Ideal) : Opcode → Option Int
  | .add | .mul | .lessThan | .equals => some (r.address 2)
  | .input => if r.pending = [] then none else some (r.address 0)
  | _ => none

/-- A store needs the cell to be allocated. -/
def storeFaults (r : Ideal) (opcode : Opcode) : List Fault :=
  match r.destination? opcode with
  | none => []
  | some address =>
    if address < Memory.capacity then [] else [.memory (.outOfMemory (Int64.ofInt address))]

/-- The target of a jump that is taken. -/
def target? (r : Ideal) : Opcode → Option Int
  | .jumpIfTrue => if r.value 0 ≠ 0 then some (r.value 1) else none
  | .jumpIfFalse => if r.value 0 = 0 then some (r.value 1) else none
  | _ => none

def jumpFaults (r : Ideal) (opcode : Opcode) : List Fault :=
  match r.target? opcode with
  | none => []
  | some target => negativeFaults target

/-- The faults that the next instruction meets, in the order in which they count. -/
def faults (r : Ideal) : List Fault :=
  if r.halted then [.halted]
  else
    match r.opcode? with
    | none => [.unknownOpcode (Int64.ofInt (r.word.tmod 100)) r.named]
    | some opcode =>
      r.modeFaults opcode ++ r.operandFaults opcode ++ r.overflowFaults opcode ++
        r.storeFaults opcode ++ r.jumpFaults opcode

/-- The fault that decides the error. -/
def fault? (r : Ideal) : Option Fault :=
  r.faults.head?

@[simp] theorem pc_advance (r : Ideal) (cells : Nat) : (r.advance cells).pc = r.pc + cells :=
  rfl

theorem extent_store (r : Ideal) (i : Nat) (value : Int) (programSize : Nat) :
    (r.store i value).extent programSize =
      max (r.extent programSize) ((r.address i).toNat + 1) := by
  simp only [extent, store, List.max?_cons]
  cases r.written.max? with
  | none => simp [Nat.add_comm]
  | some largest => simp only [Option.elim_some]; omega

end Ideal

end Intcode
