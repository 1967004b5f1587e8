import Intcode.Program
import Intcode.WordRange

/-!
# Values of options

Patches are written `ADDR=VALUE` and ranges `LO..=HI`. They are cut at the first separator, and
white space around the numbers is ignored.
-/

namespace Intcode.CommandLine

inductive PatchError where
  | noSeparator (text : String)
  | address (text : String) (cause : Text.IntegerError)
  | value (text : String) (cause : Text.IntegerError)
deriving DecidableEq, Repr

namespace PatchError

def message : PatchError → String
  | noSeparator text => s!"expected ADDR=VALUE, got '{text}'"
  | address text cause => s!"invalid address '{text}': {cause.message}"
  | value text cause => s!"invalid value '{text}': {cause.message}"

end PatchError

def parsePatch (text : String) : Except PatchError Patch :=
  match Text.cut? ['='] text.toList with
  | none => .error (.noSeparator text)
  | some (before, after) =>
    match Text.readUnsigned (Text.trim before) with
    | .error e => .error (.address (String.ofList before) e)
    | .ok address =>
      match Text.readWord (Text.trim after) with
      | .error e => .error (.value (String.ofList after) e)
      | .ok value => .ok ⟨address, value⟩

inductive RangeError where
  | noSeparator (text : String)
  | lower (text : String) (cause : Text.IntegerError)
  | upper (text : String) (cause : Text.IntegerError)
deriving DecidableEq, Repr

namespace RangeError

def message : RangeError → String
  | noSeparator text => s!"expected LO..=HI, got '{text}'"
  | lower text cause => s!"invalid lower bound '{text}': {cause.message}"
  | upper text cause => s!"invalid upper bound '{text}': {cause.message}"

end RangeError

def parseRange (text : String) : Except RangeError WordRange :=
  match Text.cut? ['.', '.', '='] text.toList with
  | none => .error (.noSeparator text)
  | some (before, after) =>
    match Text.readWord (Text.trim before) with
    | .error e => .error (.lower (String.ofList before) e)
    | .ok lo =>
      match Text.readWord (Text.trim after) with
      | .error e => .error (.upper (String.ofList after) e)
      | .ok hi => .ok ⟨lo, hi⟩

example : parsePatch " 2 = -7 " = .ok ⟨2, -7⟩ := by cbv
example : parseRange "-2..=2" = .ok ⟨-2, 2⟩ := by cbv

end Intcode.CommandLine
