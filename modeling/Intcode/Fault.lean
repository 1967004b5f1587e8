import Intcode.Memory

/-!
# What can go wrong in a machine

A fault is a cause. The machine that meets one adds the program counter of the instruction it was
at, and its text always ends with that counter.
-/

namespace Intcode

inductive Fault where
  | unknownOpcode (selector word : Word)
  | invalidMode (digit word : Word)
  | immediateDestination (word : Word)
  | memory (cause : MemoryError)
  | arithmeticOverflow (word : Word)
  | stepLimitExceeded (limit : Nat)
  | halted
  | inputExhausted
deriving DecidableEq, Repr

namespace Fault

def message : Fault → String
  | unknownOpcode selector word =>
    s!"unknown opcode {selector.render} in word {word.render}"
  | invalidMode digit word =>
    s!"invalid addressing mode {digit.render} in word {word.render}"
  | immediateDestination word =>
    s!"immediate mode used for destination in word {word.render}"
  | memory cause => cause.message
  | arithmeticOverflow word => s!"arithmetic overflow in word {word.render}"
  | stepLimitExceeded limit => s!"step limit of {limit} instructions exceeded"
  | halted => "machine already halted"
  | inputExhausted => "input exhausted"

end Fault

structure MachineError where
  fault : Fault
  pc : UInt64
deriving DecidableEq, Repr

namespace MachineError

def message (e : MachineError) : String :=
  s!"{e.fault.message} at pc {e.pc}"

end MachineError

end Intcode
