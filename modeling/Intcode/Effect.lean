import Intcode.Operand

/-!
# The meaning of the instructions

What an instruction does is a function of its operands and the relative base. The result is an
effect, a description of a change that the machine then makes; nothing is changed here.
-/

namespace Intcode

inductive Effect where
  /-- Store a value at an address, then move on. -/
  | write (address value : Word)
  /-- Go on at an absolute address. -/
  | jump (target : Word)
  /-- Move on. -/
  | proceed
  /-- Replace the relative base, then move on. -/
  | rebase (base : Word)
  /-- Store the next input at an address and move on, or suspend if there is none. -/
  | input (address : Word)
  /-- Emit a value, move on and suspend. -/
  | output (value : Word)
  /-- Stop for good. -/
  | halt
deriving DecidableEq, Repr

namespace Effect

/-- Stores the exact result of an operation, which is a fault if no word holds it. -/
def store (word dest : Word) (result : Option Word) : Except Fault Effect :=
  match result with
  | none => .error (.arithmeticOverflow word)
  | some value => .ok (.write dest value)

def branch (taken : Bool) (target : Word) : Effect :=
  if taken then .jump target else .proceed

/-- The effect of an instruction on its resolved operands. -/
def evaluate (instr : Instruction) (ops : Operands) (base : Word) : Except Fault Effect :=
  match instr.opcode with
  | .add => store instr.word ops.dest (Word.add? (ops.value 0) (ops.value 1))
  | .mul => store instr.word ops.dest (Word.mul? (ops.value 0) (ops.value 1))
  | .input => .ok (.input ops.dest)
  | .output => .ok (.output (ops.value 0))
  | .jumpIfTrue => .ok (branch (ops.value 0 != 0) (ops.value 1))
  | .jumpIfFalse => .ok (branch (ops.value 0 == 0) (ops.value 1))
  | .lessThan => .ok (.write ops.dest (Word.ofFlag (ops.value 0 < ops.value 1)))
  | .equals => .ok (.write ops.dest (Word.ofFlag (ops.value 0 == ops.value 1)))
  | .adjustBase =>
    match Word.add? base (ops.value 0) with
    | none => .error (.arithmeticOverflow instr.word)
    | some base => .ok (.rebase base)
  | .halt => .ok .halt

end Effect

end Intcode
