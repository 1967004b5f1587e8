import Intcode.Word

/-!
# Reading integers

Decimal digits after at most one sign. Unsigned integers take no minus sign. Of several reasons
to refuse a text the leftmost one is reported, and at one character a wrong digit comes before a
value out of range.
-/

namespace Intcode.Text

inductive IntegerError where
  | empty
  | invalidDigit
  | tooLarge
  | tooSmall
deriving DecidableEq, Repr

namespace IntegerError

def message : IntegerError → String
  | empty => "cannot parse integer from empty string"
  | invalidDigit => "invalid digit found in string"
  | tooLarge => "number too large to fit in target type"
  | tooSmall => "number too small to fit in target type"

end IntegerError

/-- The value of an ASCII digit. -/
def digit? (c : Char) : Option Nat :=
  if '0' ≤ c ∧ c ≤ '9' then some (c.toNat - '0'.toNat) else none

/-- Goes on reading a number from the value of the digits before; `excess` is the error for a
value above `limit`. -/
def readDigits (limit : Nat) (excess : IntegerError) : List Char → Nat → Except IntegerError Nat
  | [], value => .ok value
  | c :: rest, value =>
    match digit? c with
    | none => .error .invalidDigit
    | some digit =>
      if limit < 10 * value + digit then .error excess
      else readDigits limit excess rest (10 * value + digit)

/-- Reads the digits after a sign, of which there has to be one. -/
def readMagnitude (limit : Nat) (excess : IntegerError) (digits : List Char) :
    Except IntegerError Nat :=
  if digits.isEmpty then .error .invalidDigit else readDigits limit excess digits 0

def readWord : List Char → Except IntegerError Word
  | [] => .error .empty
  | '-' :: digits => (readMagnitude (1 <<< 63) .tooSmall digits).map fun n => Int64.ofInt (-n)
  | '+' :: digits => (readMagnitude (1 <<< 63 - 1) .tooLarge digits).map Int64.ofNat
  | digits => (readMagnitude (1 <<< 63 - 1) .tooLarge digits).map Int64.ofNat

def readUnsigned : List Char → Except IntegerError UInt64
  | [] => .error .empty
  | '+' :: digits => (readMagnitude (1 <<< 64 - 1) .tooLarge digits).map UInt64.ofNat
  | digits => (readMagnitude (1 <<< 64 - 1) .tooLarge digits).map UInt64.ofNat

example : readWord "-9223372036854775808".toList = .ok Int64.minValue := by cbv
example : readWord "9223372036854775808x".toList = .error .tooLarge := by cbv
example : readWord "922337203685477580x8".toList = .error .invalidDigit := by cbv
example : readUnsigned "-1".toList = .error .invalidDigit := by cbv

end Intcode.Text
