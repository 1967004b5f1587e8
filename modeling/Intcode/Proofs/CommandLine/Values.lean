import Intcode.CommandLine.Value
import Intcode.Proofs.Program.RoundTrip
import Intcode.Proofs.Text.Cutting

/-!
# The values of options

A patch or a range is read from exactly those texts that spell its two numbers before and after the
first separator, with white space around them, if any. The numbers have no separator in them, so a
text with a second one is no patch and no range, and what was written with one is read back.
-/

namespace Intcode

/-- The patch as it is written on the command line. -/
def Patch.render (patch : Patch) : String :=
  s!"{patch.address}={patch.value.render}"

/-- The text is the patch with white space around its numbers, if any. -/
def Patch.Written (patch : Patch) (text : String) : Prop :=
  ∃ before after, Text.Pads before (toString patch.address).toList ∧
    Text.Pads after (Word.render patch.value).toList ∧ text.toList = before ++ ['='] ++ after

/-- The text is the range with white space around its ends, if any. -/
def WordRange.Written (range : WordRange) (text : String) : Prop :=
  ∃ before after, Text.Pads before (Word.render range.lo).toList ∧
    Text.Pads after (Word.render range.hi).toList ∧
    text.toList = before ++ ['.', '.', '='] ++ after

theorem Patch.written_render (patch : Patch) : patch.Written patch.render := by
  refine ⟨_, _, Text.Pads.refl _, Text.Pads.refl _, ?_⟩
  have text : patch.render = toString patch.address ++ "=" ++ Word.render patch.value := rfl
  simp [text]

theorem WordRange.written_render (range : WordRange) : range.Written range.render := by
  refine ⟨_, _, Text.Pads.refl _, Text.Pads.refl _, ?_⟩
  have text : range.render = Word.render range.lo ++ "..=" ++ Word.render range.hi := rfl
  simp [text]

namespace CommandLine

variable {text : String} {piece : List Char} {address : UInt64} {w : Word} {c : Char}

/-! ## Numbers in white space -/

/-- The piece is the address in decimal with white space around it, if any. -/
def HoldsAddress (piece : List Char) (address : UInt64) : Prop :=
  ∃ token, Text.Trims piece token ∧ Text.SpellsUnsigned token address

theorem holdsAddress_iff :
    HoldsAddress piece address ↔ Text.readUnsigned (Text.trim piece) = .ok address := by
  simp only [HoldsAddress, Text.trims_iff, Text.readUnsigned_eq_ok_iff, exists_eq_left']

theorem holdsAddress_of_pads (pads : Text.Pads piece (toString address).toList) :
    HoldsAddress piece address := by
  have visible : ∀ c ∈ (toString address).toList, Text.isBlank c = false := fun c inside =>
    Text.isBlank_of_isDigit (Text.isDigit_of_mem_toString inside)
  refine ⟨_, ⟨pads, ?_, ?_⟩, Text.spellsUnsigned_toString address⟩
  · exact fun c front => visible c (List.mem_of_mem_head? front)
  · exact fun c back => visible c (List.mem_of_mem_getLast? back)

/-- No piece with some other visible character in it holds a word. -/
theorem not_holds_of_mem (inside : c ∈ piece) (visible : Text.isBlank c = false) (plus : c ≠ '+')
    (minus : c ≠ '-') (other : c.isDigit = false) (w : Word) : ¬ Program.Holds piece w := by
  rintro ⟨token, ⟨pads, -⟩, spells⟩
  rcases spells.isSign_or_isDigit ((pads.mem_iff visible).mp inside) with same | same | digit
  · exact plus same
  · exact minus same
  · cases other.symm.trans digit

/-- What is left after the first of two separators holds no word. -/
theorem not_holds_of_occursTwice {separator s before after : List Char}
    (cuts : Text.CutsAt separator s before after) (twice : Text.OccursTwice separator s)
    (inside : '=' ∈ separator) (w : Word) : ¬ Program.Holds after w :=
  not_holds_of_mem (cuts.mem_of_occursTwice twice inside) (by decide) (by decide) (by decide)
    (by decide) w

/-! ## Patches -/

theorem parsePatch_eq_ok_iff {patch : Patch} :
    parsePatch text = .ok patch ↔ ∃ before after, Text.CutsAt ['='] text.toList before after ∧
      HoldsAddress before patch.address ∧ Program.Holds after patch.value := by
  simp only [← Text.cut?_eq_some_iff, holdsAddress_iff, Program.holds_iff]
  obtain ⟨address, value⟩ := patch
  unfold parsePatch
  cases cut : Text.cut? ['='] text.toList with
  | none => simp
  | some parts =>
    obtain ⟨before, after⟩ := parts
    cases front : Text.readUnsigned (Text.trim before) with
    | error e => simp [front]
    | ok found =>
      cases back : Text.readWord (Text.trim after) with
      | error e => simp [front, back]
      | ok other => simp [front, back]

theorem parsePatch_of_written {patch : Patch} (written : patch.Written text) :
    parsePatch text = .ok patch := by
  obtain ⟨before, after, front, back, split⟩ := written
  have absent : '=' ∉ before := by
    rw [front.mem_iff (by decide)]
    intro inside
    cases Text.isDigit_of_mem_toString inside
  refine parsePatch_eq_ok_iff.mpr ⟨before, after, ?_, holdsAddress_of_pads front,
    Program.holds_of_pads_render back⟩
  rw [split]
  exact Text.CutsAt.of_not_mem absent after

theorem parsePatch_ne_ok (twice : Text.OccursTwice ['='] text.toList) (patch : Patch) :
    parsePatch text ≠ .ok patch := by
  intro parsed
  obtain ⟨before, after, cuts, -, held⟩ := parsePatch_eq_ok_iff.mp parsed
  exact not_holds_of_occursTwice cuts twice (by decide) _ held

/-! ## Ranges -/

theorem parseRange_eq_ok_iff {range : WordRange} :
    parseRange text = .ok range ↔
      ∃ before after, Text.CutsAt ['.', '.', '='] text.toList before after ∧
        Program.Holds before range.lo ∧ Program.Holds after range.hi := by
  simp only [← Text.cut?_eq_some_iff, Program.holds_iff]
  obtain ⟨lo, hi⟩ := range
  unfold parseRange
  cases cut : Text.cut? ['.', '.', '='] text.toList with
  | none => simp
  | some parts =>
    obtain ⟨before, after⟩ := parts
    cases front : Text.readWord (Text.trim before) with
    | error e => simp [front]
    | ok found =>
      cases back : Text.readWord (Text.trim after) with
      | error e => simp [front, back]
      | ok other => simp [front, back]

theorem parseRange_of_written {range : WordRange} (written : range.Written text) :
    parseRange text = .ok range := by
  obtain ⟨before, after, front, back, split⟩ := written
  have absent : '.' ∉ before := by
    rw [front.mem_iff (by decide)]
    exact Word.not_mem_render (by decide) (by decide) range.lo
  refine parseRange_eq_ok_iff.mpr ⟨before, after, ?_, Program.holds_of_pads_render front,
    Program.holds_of_pads_render back⟩
  rw [split]
  exact Text.CutsAt.of_not_mem absent after

theorem parseRange_ne_ok (twice : Text.OccursTwice ['.', '.', '='] text.toList)
    (range : WordRange) : parseRange text ≠ .ok range := by
  intro parsed
  obtain ⟨before, after, cuts, -, held⟩ := parseRange_eq_ok_iff.mp parsed
  exact not_holds_of_occursTwice cuts twice (by decide) _ held

/-- Patches and ranges are read from the texts that have their numbers around the first separator,
and from no others. What is written so is read back, whatever the numbers and the white space around
them, and a text with a second separator is refused. -/
theorem values_read_exactly (text : String) :
    (∀ patch, parsePatch text = .ok patch ↔
      ∃ before after, Text.CutsAt ['='] text.toList before after ∧
        HoldsAddress before patch.address ∧ Program.Holds after patch.value) ∧
    (∀ range, parseRange text = .ok range ↔
      ∃ before after, Text.CutsAt ['.', '.', '='] text.toList before after ∧
        Program.Holds before range.lo ∧ Program.Holds after range.hi) ∧
    (∀ patch : Patch, parsePatch patch.render = .ok patch ∧
      (patch.Written text → parsePatch text = .ok patch)) ∧
    (∀ range : WordRange, parseRange range.render = .ok range ∧
      (range.Written text → parseRange text = .ok range)) ∧
    (Text.OccursTwice ['='] text.toList → ∀ patch, parsePatch text ≠ .ok patch) ∧
    (Text.OccursTwice ['.', '.', '='] text.toList → ∀ range, parseRange text ≠ .ok range) :=
  ⟨fun _ => parsePatch_eq_ok_iff, fun _ => parseRange_eq_ok_iff,
    fun patch => ⟨parsePatch_of_written patch.written_render, parsePatch_of_written⟩,
    fun range => ⟨parseRange_of_written range.written_render, parseRange_of_written⟩,
    parsePatch_ne_ok, parseRange_ne_ok⟩

theorem values_read_exactly_extreme :
    parsePatch "\t18446744073709551615 =\u3000-9223372036854775808\n" =
      .ok ⟨18446744073709551615, -9223372036854775808⟩ ∧
    parseRange "9223372036854775807 ..= -9223372036854775808" =
      .ok ⟨9223372036854775807, -9223372036854775808⟩ ∧
    parseRange "-9223372036854775808..=-1" = .ok ⟨-9223372036854775808, -1⟩ ∧
    (∀ patch, parsePatch "1=2=3" ≠ .ok patch) ∧
    ∀ range, parseRange "1..=2..=3" ≠ .ok range := by
  obtain ⟨-, -, patches, -, -, -⟩ :=
    values_read_exactly "\t18446744073709551615 =\u3000-9223372036854775808\n"
  obtain ⟨-, -, -, ranges, -, -⟩ :=
    values_read_exactly "9223372036854775807 ..= -9223372036854775808"
  obtain ⟨-, -, -, -, twice, -⟩ := values_read_exactly "1=2=3"
  obtain ⟨-, -, -, -, -, again⟩ := values_read_exactly "1..=2..=3"
  refine ⟨(patches _).2 ⟨"\t18446744073709551615 ".toList,
      "\u3000-9223372036854775808\n".toList, ⟨['\t'], [' '], ?_, ?_, ?_⟩,
      ⟨['\u3000'], ['\n'], ?_, ?_, ?_⟩, ?_⟩,
    (ranges _).2 ⟨"9223372036854775807 ".toList, " -9223372036854775808".toList,
      ⟨[], [' '], ?_, ?_, ?_⟩, ⟨[' '], [], ?_, ?_, ?_⟩, ?_⟩,
    (ranges ⟨-9223372036854775808, -1⟩).1,
    twice ⟨['1'], ['2'], ['3'], ?_⟩, again ⟨['1'], ['2'], ['3'], ?_⟩⟩ <;> decide +kernel

end CommandLine

end Intcode
