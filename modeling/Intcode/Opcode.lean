import Intcode.Word

/-!
# Opcodes, parameters and addressing modes

The ten operations with the selector that names each in an instruction word, its mnemonic and its
parameters from left to right. A read parameter stands for a value, a write parameter for the
address that the result goes to.
-/

namespace Intcode

inductive Param where
  | read
  | write
deriving DecidableEq, Repr

inductive Opcode where
  | add
  | mul
  | input
  | output
  | jumpIfTrue
  | jumpIfFalse
  | lessThan
  | equals
  | adjustBase
  | halt
deriving DecidableEq, Repr

namespace Opcode

/-- Every opcode, in the order of the definition. -/
def all : List Opcode :=
  [add, mul, input, output, jumpIfTrue, jumpIfFalse, lessThan, equals, adjustBase, halt]

def selector : Opcode → Word
  | add => 1
  | mul => 2
  | input => 3
  | output => 4
  | jumpIfTrue => 5
  | jumpIfFalse => 6
  | lessThan => 7
  | equals => 8
  | adjustBase => 9
  | halt => 99

def ofSelector? (selector : Word) : Option Opcode :=
  all.find? fun opcode => opcode.selector == selector

def mnemonic : Opcode → String
  | add => "ADD"
  | mul => "MUL"
  | input => "IN"
  | output => "OUT"
  | jumpIfTrue => "JNZ"
  | jumpIfFalse => "JZ"
  | lessThan => "LT"
  | equals => "EQ"
  | adjustBase => "ARB"
  | halt => "HALT"

def params : Opcode → List Param
  | add | mul | lessThan | equals => [.read, .read, .write]
  | input => [.write]
  | output | adjustBase => [.read]
  | jumpIfTrue | jumpIfFalse => [.read, .read]
  | halt => []

/-- No opcode takes more parameters than this. -/
def maxParams : Nat := 3

def arity (opcode : Opcode) : Nat :=
  opcode.params.length

/-- The cells an instruction takes up: its word and one for each parameter. -/
def width (opcode : Opcode) : Nat :=
  1 + opcode.arity

theorem mem_all (opcode : Opcode) : opcode ∈ all := by
  cases opcode <;> decide

theorem ofSelector?_selector (opcode : Opcode) : ofSelector? opcode.selector = some opcode := by
  cases opcode <;> decide

theorem selector_of_ofSelector? {selector : Word} {opcode : Opcode}
    (h : ofSelector? selector = some opcode) : opcode.selector = selector := by
  simpa using List.find?_some h

theorem arity_le (opcode : Opcode) : opcode.arity ≤ maxParams := by
  cases opcode <;> decide

theorem width_le (opcode : Opcode) : opcode.width ≤ 4 := by
  cases opcode <;> decide

end Opcode

inductive Mode where
  | position
  | immediate
  | relative
deriving DecidableEq, Repr

namespace Mode

def all : List Mode :=
  [position, immediate, relative]

def digit : Mode → Word
  | position => 0
  | immediate => 1
  | relative => 2

def ofDigit? (digit : Word) : Option Mode :=
  all.find? fun mode => mode.digit == digit

def tag : Mode → Char
  | position => 'P'
  | immediate => 'I'
  | relative => 'R'

theorem ofDigit?_digit (mode : Mode) : ofDigit? mode.digit = some mode := by
  cases mode <;> decide

theorem digit_of_ofDigit? {digit : Word} {mode : Mode} (h : ofDigit? digit = some mode) :
    mode.digit = digit := by
  simpa using List.find?_some h

end Mode

end Intcode
