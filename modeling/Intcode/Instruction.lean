import Intcode.Fault
import Intcode.Opcode

/-!
# Instruction words

Written in decimal, the two lowest digits of a word select the opcode and the digits above them
give the modes of the parameters, the first parameter lowest. Digits above the last parameter's
mode have no meaning, and a negative word selects nothing.
-/

namespace Intcode

structure Instruction where
  opcode : Opcode
  /-- The word it was decoded from. -/
  word : Word
  /-- One mode for each parameter, left to right. -/
  modes : List Mode
deriving DecidableEq, Repr

namespace Instruction

def opcodeOf? (word : Word) : Option Opcode :=
  if word < 0 then none else Opcode.ofSelector? (word % 100)

/-- Reads as many modes as asked for from the digits, lowest first. -/
def decodeModes (word : Word) : Nat → Word → Except Fault (List Mode)
  | 0, _ => .ok []
  | count + 1, digits =>
    match Mode.ofDigit? (digits % 10) with
    | none => .error (.invalidMode (digits % 10) word)
    | some mode =>
      match decodeModes word count (digits / 10) with
      | .error e => .error e
      | .ok modes => .ok (mode :: modes)

def decode (word : Word) : Except Fault Instruction :=
  match opcodeOf? word with
  | none => .error (.unknownOpcode (word % 100) word)
  | some opcode =>
    match decodeModes word opcode.arity (word / 100) with
    | .error e => .error e
    | .ok modes => .ok ⟨opcode, word, modes⟩

/-- The mode of the parameter at an index; position where there is no such parameter. -/
def mode (instr : Instruction) (index : Nat) : Mode :=
  instr.modes.getD index .position

def width (instr : Instruction) : Nat :=
  instr.opcode.width

/-- The modes as a number, the first mode in the lowest digit. -/
def encodeModes : List Mode → Int
  | [] => 0
  | mode :: modes => mode.digit.toInt + 10 * encodeModes modes

/-- The number that `decode` reads an opcode and its modes from. -/
def encode (opcode : Opcode) (modes : List Mode) : Int :=
  opcode.selector.toInt + 100 * encodeModes modes

/-- The mnemonic, followed by the tags of the modes if there are parameters. -/
def render (instr : Instruction) : String :=
  match instr.modes with
  | [] => instr.opcode.mnemonic
  | modes => s!"{instr.opcode.mnemonic}[{String.ofList (modes.map Mode.tag)}]"

example : (decode 1002).map render = .ok "MUL[PIP]" := by cbv
example : decode (-99) = .error (.unknownOpcode (-99) (-99)) := by cbv
example : decode 301 = .error (.invalidMode 3 301) := by cbv

end Instruction

end Intcode
