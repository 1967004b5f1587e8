import Intcode.Memory
import Intcode.Text.Blank
import Intcode.Text.Integer
import Intcode.Text.Quoted
import Intcode.Text.Split

/-!
# Programs

A program is the initial memory of every machine that runs it. Its text is a line of words in
decimal, with commas between them and white space around any of them.
-/

namespace Intcode

inductive ProgramError where
  | empty
  | invalidWord (index : Nat) (token : String)
  | patchOutOfRange (address : UInt64)
  | unreadable (path reason : String)
deriving DecidableEq, Repr

namespace ProgramError

def message : ProgramError → String
  | empty => "program text is empty"
  | invalidWord index token => s!"invalid word {Text.quote token} at index {index}"
  | patchOutOfRange address => s!"cannot patch address {address}"
  | unreadable path reason => s!"failed to read {path}: {reason}"

end ProgramError

structure Program where
  words : Array Word
deriving DecidableEq, Repr

/-- A word to store at an address before a program runs. -/
structure Patch where
  address : UInt64
  value : Word
deriving DecidableEq, Repr

namespace Program

def size (p : Program) : Nat :=
  p.words.size

def isEmpty (p : Program) : Bool :=
  p.words.isEmpty

def toMemory (p : Program) : Memory :=
  ⟨p.words⟩

def ofMemory (m : Memory) : Program :=
  ⟨m.cells⟩

/-- Goes on reading words after those before; the number of those is the index of the next. -/
def readWords : List (List Char) → Array Word → Except ProgramError (Array Word)
  | [], words => .ok words
  | piece :: pieces, words =>
    let token := Text.trim piece
    match Text.readWord token with
    | .error _ => .error (.invalidWord words.size (String.ofList token))
    | .ok word => readWords pieces (words.push word)

/-- Reads program text. The first piece that is no word decides the error. -/
def parse (text : String) : Except ProgramError Program :=
  match Text.trim text.toList with
  | [] => .error .empty
  | c :: rest => (readWords (Text.pieces ',' (c :: rest)) #[]).map Program.mk

/-- The words in decimal with commas between them. -/
def render (p : Program) : String :=
  ",".intercalate (p.words.toList.map Word.render)

def patchMemory : List Patch → Memory → Except ProgramError Memory
  | [], m => .ok m
  | patch :: patches, m =>
    if m.admits patch.address.toNat then
      patchMemory patches (m.write patch.address.toNat patch.value)
    else .error (.patchOutOfRange patch.address)

/-- The program with every patch stored in order; patches past the end extend it with zeros. -/
def patched (p : Program) (patches : List Patch) : Except ProgramError Program :=
  (patchMemory patches p.toMemory).map ofMemory

end Program

/-- Why a file could not be read as text. -/
inductive ReadFailure where
  | missing
  | isDirectory
  | notText
  | other (reason : String)
deriving DecidableEq, Repr

namespace ReadFailure

def message : ReadFailure → String
  | missing => "No such file or directory (os error 2)"
  | isDirectory => "Is a directory (os error 21)"
  | notText => "stream did not contain valid UTF-8"
  | other reason => reason

end ReadFailure

/-- The bytes that reading each path gives. -/
abbrev Files := String → Except ReadFailure ByteArray

namespace Files

def readText (files : Files) (path : String) : Except ReadFailure String :=
  match files path with
  | .error e => .error e
  | .ok bytes =>
    match String.fromUTF8? bytes with
    | none => .error .notText
    | some text => .ok text

end Files

namespace Program

def load (files : Files) (path : String) : Except ProgramError Program :=
  match files.readText path with
  | .error e => .error (.unreadable path e.message)
  | .ok text => parse text

end Program

end Intcode
