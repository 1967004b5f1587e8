import Intcode.Text.Name

/-!
# Leveled logging

A journal keeps the entries at or above a level. An entry is written as a line with its level in
front, and on a terminal that shows colours it is set off by its level's.
-/

namespace Intcode

inductive Level where
  | trace
  | debug
  | info
  | warn
  | error
deriving DecidableEq, Repr

namespace Level

def all : List Level :=
  [trace, debug, info, warn, error]

def rank : Level → Nat
  | trace => 1
  | debug => 2
  | info => 3
  | warn => 4
  | error => 5

instance : LE Level where
  le a b := a.rank ≤ b.rank

instance : LT Level where
  lt a b := a.rank < b.rank

instance (a b : Level) : Decidable (a ≤ b) :=
  inferInstanceAs (Decidable (a.rank ≤ b.rank))

instance (a b : Level) : Decidable (a < b) :=
  inferInstanceAs (Decidable (a.rank < b.rank))

def name : Level → String
  | trace => "TRACE"
  | debug => "DEBUG"
  | info => "INFO"
  | warn => "WARN"
  | error => "ERROR"

def parse (text : String) : Except Text.UnknownName Level :=
  match Text.nameOf text with
  | "trace" => .ok trace
  | "debug" => .ok debug
  | "info" => .ok info
  | "warn" => .ok warn
  | "warning" => .ok warn
  | "error" => .ok error
  | name => .error ⟨"log level", name, "trace, debug, info, warn or error"⟩

/-- The terminal codes that set off an entry of a level. -/
def colour : Level → String
  | trace | debug => "\x1b[2m\x1b[36m"
  | info => ""
  | warn => "\x1b[1m\x1b[33m"
  | error => "\x1b[1m\x1b[31m"

end Level

/-- An entry of a journal. -/
structure Entry where
  level : Level
  text : String
deriving DecidableEq, Repr

namespace Entry

/-- The line of an entry, after a time if there is one. -/
def line (e : Entry) (time : Option String) : String :=
  let label := s!"[{e.level.name}] {e.text}\n"
  match time with
  | none => label
  | some time => s!"{time} {label}"

/-- What is written for an entry. -/
def render (e : Entry) (coloured : Bool) (time : Option String) : String :=
  if coloured then s!"\x1b[0m{e.level.colour}{e.line time}\x1b[0m" else e.line time

end Entry

structure Journal where
  /-- The least level that is kept. -/
  threshold : Level
  /-- The entries kept, the latest first. -/
  kept : List Entry := []
deriving DecidableEq, Repr

namespace Journal

def admits (j : Journal) (level : Level) : Bool :=
  j.threshold ≤ level

def note (j : Journal) (level : Level) (text : String) : Journal :=
  if j.admits level then { j with kept := ⟨level, text⟩ :: j.kept } else j

/-- The entries kept, in order. -/
def entries (j : Journal) : List Entry :=
  j.kept.reverse

end Journal

end Intcode
