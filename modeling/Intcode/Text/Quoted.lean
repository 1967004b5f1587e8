import Intcode.Text.Unprintable
import Intcode.Text.Extending

/-!
# Quoted text

A text between double quotes on one line, with every character visible. The quote and the
backslash get a backslash, four controls have a letter, and whatever has no glyph of its own is
written as its code point.
-/

namespace Intcode.Text

/-- How a character is written inside quotes. -/
def quoteChar (c : Char) : List Char :=
  match c with
  | '\x00' => ['\\', '0']
  | '\t' => ['\\', 't']
  | '\n' => ['\\', 'n']
  | '\r' => ['\\', 'r']
  | '"' => ['\\', '"']
  | '\\' => ['\\', '\\']
  | c =>
    if isUnprintable c || isExtending c then
      ['\\', 'u', '\x7b'] ++ Nat.toDigits 16 c.toNat ++ ['\x7d']
    else [c]

def quote (s : String) : String :=
  String.ofList (['"'] ++ s.toList.flatMap quoteChar ++ ['"'])

set_option maxRecDepth 4000 in
example : quote "\"\\\n\x1b\u0301" = "\"\\\"\\\\\\n\\u\x7b1b\x7d\\u\x7b301\x7d\"" := by cbv

end Intcode.Text
