import Intcode.Text.Blank

/-!
# Names of choices

A choice is named in any mixture of capital and small ASCII letters, with white space around it.
-/

namespace Intcode.Text

/-- A name in small ASCII letters and without white space at its ends. -/
def nameOf (text : String) : String :=
  String.ofList ((trim text.toList).map Char.toLower)

/-- A name that stands for none of the choices. -/
structure UnknownName where
  /-- What was to be chosen. -/
  kind : String
  name : String
  /-- The choices there are. -/
  expected : String
deriving DecidableEq, Repr

namespace UnknownName

def message (e : UnknownName) : String :=
  s!"unknown {e.kind} '{e.name}' (expected {e.expected})"

end UnknownName

end Intcode.Text
