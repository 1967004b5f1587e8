import Intcode.Text.Control

/-!
# Styled text

A text of which parts stand out. Where styles can be shown a part is set off by the codes of its
style; elsewhere the codes go, and with them every other control character of the text.
-/

namespace Intcode.Text

inductive Style where
  | heading
  /-- What is to be typed as it stands. -/
  | literal
  | alarm
  | valid
  | invalid
deriving DecidableEq, Repr

/-- A part of a text. -/
structure Span where
  text : String
  style : Option Style := none
deriving DecidableEq, Repr

instance : Coe String Span :=
  ⟨fun text => { text }⟩

namespace Style

/-- The code that starts the style. -/
def code : Style → String
  | heading => "\x1b[1m\x1b[4m"
  | literal => "\x1b[1m"
  | alarm => "\x1b[1m\x1b[31m"
  | valid => "\x1b[32m"
  | invalid => "\x1b[33m"

/-- A text in the style. -/
def span (style : Style) (text : String) : Span :=
  { text, style }

end Style

/-- The code that ends every style. -/
def endOfStyle : String :=
  "\x1b[0m"

namespace Span

/-- A part with the codes of its style. -/
def coded (s : Span) : String :=
  match s.style with
  | none => s.text
  | some style => style.code ++ s.text ++ endOfStyle

end Span

abbrev Styled := List Span

namespace Styled

/-- The text alone. -/
def text (s : Styled) : String :=
  String.join (s.map Span.text)

/-- The text as it is written where styles are shown, or where they are not. -/
def write (s : Styled) (shown : Bool) : String :=
  let coded := String.join (s.map Span.coded)
  if shown then coded else withoutControls coded

end Styled

/-- The codes of a style leave nothing behind, and behind them the text goes on. -/
theorem keep_code (style : Style) (rest : List Char) :
    Place.text.keep (style.code.toList ++ rest) = Place.text.keep rest := by
  cases style <;> rfl

theorem keep_endOfStyle (rest : List Char) :
    Place.text.keep (endOfStyle.toList ++ rest) = Place.text.keep rest :=
  rfl

theorem keep_coded {s : Span} (shown : ∀ c ∈ s.text.toList, isShown c) (rest : List Char) :
    Place.text.keep (s.coded.toList ++ rest) = s.text.toList ++ Place.text.keep rest := by
  rw [Span.coded]
  split
  · exact keep_append_of_shown shown rest
  · next style =>
    simp only [String.toList_append, List.append_assoc]
    rw [keep_code, keep_append_of_shown shown, keep_endOfStyle]

/-- Where styles are not shown their codes go without a trace: if no part has a control character of
its own, what is written is the text alone. -/
theorem Styled.write_of_shown {s : Styled}
    (shown : ∀ part ∈ s, ∀ c ∈ part.text.toList, isShown c) : s.write false = s.text := by
  have kept : Place.text.keep (s.flatMap fun part => part.coded.toList) =
      s.flatMap fun part => part.text.toList := by
    induction s with
    | nil => rfl
    | cons part s ih =>
      rw [List.flatMap_cons, List.flatMap_cons, keep_coded (shown part List.mem_cons_self),
        ih fun other member => shown other (List.mem_cons_of_mem part member)]
  rw [← String.toList_inj]
  simp [Styled.write, Styled.text, withoutControls, String.toList_join, List.flatMap_map, kept]

end Intcode.Text
