import Intcode.Instruction
import Intcode.Registers

/-!
# Operands

What a parameter cell means depends on its mode. A read parameter resolves to a value and a write
parameter to an address:

* position: the cell is an address;
* immediate: the cell is itself the value, and no address;
* relative: the cell is an offset from the relative base.
-/

namespace Intcode

/-- A parameter cell together with the mode it is read in. -/
structure Operand where
  mode : Mode
  raw : Word
deriving DecidableEq, Repr

namespace Operand

def natural (address : Word) : Except Fault Word :=
  if address < 0 then .error (.memory (.negativeAddress address)) else .ok address

/-- The address an operand denotes; `word` is the instruction word that a fault names. -/
def address (o : Operand) (base word : Word) : Except Fault Word :=
  match o.mode with
  | .position => natural o.raw
  | .immediate => .error (.immediateDestination word)
  | .relative =>
    match Word.add? base o.raw with
    | none => .error (.arithmeticOverflow word)
    | some address => natural address

/-- The value an operand denotes. -/
def value (o : Operand) (memory : Memory) (base word : Word) : Except Fault Word :=
  match o.mode with
  | .immediate => .ok o.raw
  | _ =>
    match o.address base word with
    | .error e => .error e
    | .ok address => (memory.get address).mapError .memory

end Operand

/-- The parameters of one instruction, resolved: the values of its read parameters in order and
the address of its write parameter, zero if it has none. -/
structure Operands where
  values : List Word := []
  dest : Word := 0
deriving DecidableEq, Repr

namespace Operands

/-- The value of the read parameter at an index. -/
def value (ops : Operands) (index : Nat) : Word :=
  ops.values.getD index 0

/-- Resolves parameters from left to right, the first of them at `index`. -/
def resolveFrom (instr : Instruction) (memory : Memory) (regs : Registers) :
    List Param → Nat → Operands → Except Fault Operands
  | [], _, ops => .ok ops
  | param :: params, index, ops =>
    match memory.get (regs.paramAddress index.toUInt64).toInt64 with
    | .error e => .error (.memory e)
    | .ok raw =>
      let operand : Operand := ⟨instr.mode index, raw⟩
      match param with
      | .read =>
        match operand.value memory regs.base instr.word with
        | .error e => .error e
        | .ok value =>
          resolveFrom instr memory regs params (index + 1)
            { ops with values := ops.values ++ [value] }
      | .write =>
        match operand.address regs.base instr.word with
        | .error e => .error e
        | .ok dest => resolveFrom instr memory regs params (index + 1) { ops with dest }

/-- Resolves every parameter of an instruction. The first that fails decides the fault. -/
def resolve (instr : Instruction) (memory : Memory) (regs : Registers) :
    Except Fault Operands :=
  resolveFrom instr memory regs instr.opcode.params 0 {}

end Operands

end Intcode
