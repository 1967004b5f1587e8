/-!
# Text without control characters

A terminal takes control characters and the sequences that an escape starts as commands. What is
left of a text without them is what a file can hold. A break (a tabulator or the end of a line or
page) stays even if it interrupts a sequence. Such a sequence is put off: the text after the break
stays too, until a control character resumes the sequence or a character outside ASCII drops it.
-/

namespace Intcode.Text

/-- What the characters since an escape have started. -/
inductive Sequence where
  /-- The escape alone. -/
  | escape
  /-- A command of which the last character is to come. -/
  | command
  /-- A command with parameters. -/
  | parameters
  /-- A string for a device, of which the head is to come. -/
  | device
  /-- The parameters in the head of such a string. -/
  | deviceParameters
  /-- The command in the head of such a string. -/
  | deviceCommand
  /-- A string. -/
  | string
  /-- A string that a bell ends. -/
  | bellString
deriving DecidableEq, Repr

def isBreak (c : Char) : Bool :=
  c == '\t' || c == '\n' || c == '\x0c' || c == '\r'

/-- Whether a character outside every sequence is text. -/
def isShown (c : Char) : Bool :=
  isBreak c || (' ' ≤ c && c != '\x7f')

/-- A string ends at the byte 9C, wherever it occurs. -/
def endsString (c : Char) : Bool :=
  (String.utf8EncodeChar c).contains 0x9c

namespace Sequence

/-- What one more character makes of a sequence: nothing if it is the last one. -/
def next? (s : Sequence) (c : Char) : Option Sequence :=
  match s with
  | escape =>
    match c with
    | '[' => some parameters
    | 'P' => some device
    | 'X' | '^' | '_' => some string
    | ']' => some bellString
    | _ =>
      if ' ' ≤ c && c ≤ '/' then some command
      else if '0' ≤ c && c ≤ '~' then none
      else some escape
  | command => if '0' ≤ c && c ≤ '~' then none else some command
  | parameters => if '@' ≤ c && c ≤ '~' then none else some parameters
  | device =>
    if ' ' ≤ c && c ≤ '/' then some deviceCommand
    else if '0' ≤ c && c ≤ '?' then some deviceParameters
    else if '@' ≤ c && c ≤ '~' then some string
    else some device
  | deviceParameters =>
    if ' ' ≤ c && c ≤ '/' then some deviceCommand
    else if '<' ≤ c && c ≤ '~' then some string
    else some deviceParameters
  | deviceCommand => if '0' ≤ c && c ≤ '~' then some string else some deviceCommand
  | string => if endsString c then none else some string
  | bellString => if c == '\x07' then none else some bellString

/-- Whether a break in the sequence stays in the text. -/
def admitsBreak : Sequence → Bool
  | escape | command | parameters => true
  | device | deviceParameters | deviceCommand | string | bellString => false

end Sequence

/-- Where a character of a text stands. -/
inductive Place where
  | text
  | inside (s : Sequence)
  /-- Behind a break that has put the sequence off. -/
  | behind (s : Sequence)
deriving DecidableEq, Repr

namespace Place

/-- The place after a character, and whether the character stays. -/
def step (p : Place) (c : Char) : Place × Bool :=
  if c == '\x1b' then (inside .escape, false)
  else if c == '\x18' || c == '\x1a' then (text, false)
  else
    match p with
    | text => (text, isShown c)
    | inside s =>
      if s.admitsBreak && isBreak c then (behind s, true)
      else
        match s.next? c with
        | none => (text, false)
        | some s => (inside s, false)
    | behind s =>
      if !isShown c then (inside s, false)
      else if c.toNat < 128 then (behind s, true)
      else (text, true)

/-- What stays of a text from a place on. -/
def keep : Place → List Char → List Char
  | _, [] => []
  | p, c :: s =>
    let (p, stays) := p.step c
    if stays then c :: keep p s else keep p s

end Place

/-- What stays of a text. -/
def withoutControls (text : String) : String :=
  String.ofList (Place.text.keep text.toList)

theorem step_of_shown {c : Char} (shown : isShown c) : Place.text.step c = (.text, true) := by
  have other : ∀ d, isShown d = false → (c == d) = false := by
    intro d hidden
    rw [beq_eq_false_iff_ne]
    rintro rfl
    rw [hidden] at shown
    cases shown
  simp [Place.step, other '\x1b' (by decide), other '\x18' (by decide), other '\x1a' (by decide),
    shown]

/-- Characters that are shown stay, and behind them the text goes on. -/
theorem keep_append_of_shown {s : List Char} (shown : ∀ c ∈ s, isShown c) (rest : List Char) :
    Place.text.keep (s ++ rest) = s ++ Place.text.keep rest := by
  induction s with
  | nil => rfl
  | cons c s ih =>
    have later := ih fun d member => shown d (List.mem_cons_of_mem c member)
    rw [List.cons_append, Place.keep, step_of_shown (shown c List.mem_cons_self)]
    simp [later]

example : withoutControls "a\x1b[31mb\x07\x1b[\nc\x7fd\x1b]t\x07e" = "ab\nce" := by cbv

end Intcode.Text
