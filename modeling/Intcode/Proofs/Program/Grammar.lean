import Intcode.Program
import Intcode.Proofs.Text.Decimal
import Intcode.Proofs.Text.Padding

/-!
# The grammar of program text

Program text consists of words in decimal with commas between them, and of white space around the
words and around the whole. Such text is read as the program of these words. All other text is
refused: if it is white space alone as empty, else for the first piece between commas that is no
word.
-/

namespace Intcode

namespace Program

/-- The piece is the word in decimal with white space around it, if any. -/
def Holds (piece : List Char) (w : Word) : Prop :=
  ∃ token, Text.Trims piece token ∧ Text.Spells token w

/-- The first piece that holds no word has this index and, without the white space around it, is
this token. -/
def FirstStray (pieces : List (List Char)) (index : Nat) (token : List Char) : Prop :=
  ∃ earlier piece later, pieces = earlier ++ piece :: later ∧ earlier.length = index ∧
    (∀ held ∈ earlier, ∃ w, Holds held w) ∧ Text.Trims piece token ∧ ∀ w, ¬ Text.Spells token w

variable {p : Program} {text : String} {body piece token s t : List Char} {w : Word}
variable {pieces : List (List Char)} {before words : Array Word}

/-! ## Pieces -/

theorem holds_iff : Holds piece w ↔ Text.readWord (Text.trim piece) = .ok w := by
  simp only [Holds, Text.trims_iff, Text.readWord_eq_ok_iff, exists_eq_left']

theorem not_holds_nil (w : Word) : ¬ Holds [] w := by
  rw [holds_iff]
  nofun

/-- More white space around a piece does not change the word in it. -/
theorem holds_iff_of_pads (pads : Text.Pads s t) : Holds s w ↔ Holds t w := by
  rw [holds_iff, holds_iff, Text.trim_eq_of_pads pads]

theorem readWords_eq_ok_iff :
    readWords pieces before = .ok words ↔
      ∃ later, List.Forall₂ Holds pieces later ∧ words = before ++ later.toArray := by
  induction pieces generalizing before with
  | nil => simp [readWords, eq_comm]
  | cons piece pieces ih =>
    simp only [readWords, List.forall₂_cons_left_iff]
    cases read : Text.readWord (Text.trim piece) with
    | error e =>
      constructor
      · nofun
      · rintro ⟨_, ⟨w, later, holds, -⟩, -⟩
        cases read.symm.trans (holds_iff.mp holds)
    | ok w =>
      simp only
      rw [ih]
      constructor
      · rintro ⟨later, others, rfl⟩
        exact ⟨w :: later, ⟨w, later, holds_iff.mpr read, others, rfl⟩, by simp⟩
      · rintro ⟨_, ⟨other, later, holds, others, rfl⟩, rfl⟩
        cases read.symm.trans (holds_iff.mp holds)
        exact ⟨later, others, by simp⟩

/-! ## The first stray piece -/

variable {index : Nat}

theorem not_firstStray_nil : ¬ FirstStray [] index token := by
  rintro ⟨earlier, piece, later, split, -⟩
  exact List.append_ne_nil_of_right_ne_nil earlier (List.cons_ne_nil piece later) split.symm

theorem firstStray_cons_of_stray (stray : ∀ w, ¬ Holds piece w) :
    FirstStray (piece :: pieces) index token ↔ index = 0 ∧ token = Text.trim piece := by
  constructor
  · rintro ⟨earlier, first, later, split, rfl, held, trims, -⟩
    cases earlier with
    | nil =>
      cases split
      exact ⟨rfl, (Text.trims_iff.mp trims).symm⟩
    | cons _ earlier =>
      cases split
      obtain ⟨w, holds⟩ := held piece List.mem_cons_self
      exact absurd holds (stray w)
  · rintro ⟨rfl, rfl⟩
    have trims := Text.trims_trim piece
    exact ⟨[], piece, pieces, rfl, rfl, nofun, trims, fun w spells => stray w ⟨_, trims, spells⟩⟩

theorem firstStray_cons_of_holds (holds : Holds piece w) :
    FirstStray (piece :: pieces) index token ↔
      ∃ i, index = i + 1 ∧ FirstStray pieces i token := by
  constructor
  · rintro ⟨earlier, first, later, split, rfl, held, trims, stray⟩
    cases earlier with
    | nil =>
      cases split
      rw [holds_iff, Text.trims_iff.mp trims, Text.readWord_eq_ok_iff] at holds
      exact absurd holds (stray w)
    | cons _ earlier =>
      cases split
      have held := (List.forall_mem_cons.mp held).2
      exact ⟨_, List.length_cons, earlier, first, later, rfl, rfl, held, trims, stray⟩
  · rintro ⟨_, rfl, earlier, first, later, rfl, rfl, held, stray⟩
    have held := List.forall_mem_cons.mpr ⟨⟨w, holds⟩, held⟩
    exact ⟨piece :: earlier, first, later, rfl, List.length_cons, held, stray⟩

/-- Reading fails at the first stray piece, after as many words as there are pieces before it. -/
theorem readWords_eq_error_iff {e : ProgramError} :
    readWords pieces before = .error e ↔
      ∃ index token, FirstStray pieces index token ∧
        e = .invalidWord (before.size + index) (String.ofList token) := by
  induction pieces generalizing before with
  | nil =>
    constructor
    · nofun
    · rintro ⟨index, token, stray, -⟩
      exact absurd stray not_firstStray_nil
  | cons piece pieces ih =>
    simp only [readWords]
    cases read : Text.readWord (Text.trim piece) with
    | error cause =>
      have stray : ∀ w, ¬ Holds piece w := fun w holds => by
        cases read.symm.trans (holds_iff.mp holds)
      simp only [firstStray_cons_of_stray stray]
      constructor
      · intro failed
        cases failed
        exact ⟨0, _, ⟨rfl, rfl⟩, rfl⟩
      · rintro ⟨_, _, ⟨rfl, rfl⟩, rfl⟩
        rfl
    | ok w =>
      simp only [ih, firstStray_cons_of_holds (holds_iff.mpr read), Array.size_push]
      constructor
      · rintro ⟨index, token, stray, rfl⟩
        exact ⟨index + 1, token, ⟨index, rfl, stray⟩, by rw [Nat.add_right_comm, Nat.add_assoc]⟩
      · rintro ⟨_, token, ⟨index, rfl, stray⟩, rfl⟩
        exact ⟨index, token, stray, by rw [Nat.add_right_comm, Nat.add_assoc]⟩

/-! ## The whole text -/

theorem blank_or_trims (s : List Char) :
    Text.Blank s ∨ ∃ body, Text.Trims s body ∧ body ≠ [] := by
  have trims := Text.trims_trim s
  by_cases none : Text.trim s = []
  · rw [none] at trims
    exact .inl (Text.blank_iff.mpr trims)
  · exact .inr ⟨_, trims, none⟩

theorem parse_of_blank (blank : Text.Blank text.toList) : parse text = .error .empty := by
  rw [parse, Text.trims_iff.mp (Text.blank_iff.mp blank)]

theorem parse_of_trims (trims : Text.Trims text.toList body) (visible : body ≠ []) :
    parse text = (readWords (body.splitOn ',') #[]).map Program.mk := by
  rw [parse, Text.trims_iff.mp trims, ← Text.pieces_eq_splitOn]
  cases body with
  | nil => exact absurd rfl visible
  | cons c rest => rfl

theorem parse_eq_ok_iff :
    parse text = .ok p ↔
      ∃ body, Text.Trims text.toList body ∧
        List.Forall₂ Holds (body.splitOn ',') p.words.toList := by
  rcases blank_or_trims text.toList with blank | ⟨body, trims, visible⟩
  · rw [parse_of_blank blank]
    constructor
    · nofun
    · rintro ⟨body, trims, held⟩
      cases (Text.blank_iff.mp blank).unique trims
      rcases List.forall₂_cons_left_iff.mp held with ⟨w, _, holds, -⟩
      exact absurd holds (not_holds_nil w)
  · have read : parse text = .ok p ↔ readWords (body.splitOn ',') #[] = .ok p.words := by
      rw [parse_of_trims trims visible]
      cases p
      cases readWords (body.splitOn ',') #[] <;> simp [Except.map]
    rw [read, readWords_eq_ok_iff]
    constructor
    · rintro ⟨later, held, words⟩
      rw [words, Array.empty_append]
      exact ⟨body, trims, held⟩
    · rintro ⟨other, again, held⟩
      cases trims.unique again
      exact ⟨_, held, by simp⟩

theorem parse_eq_error_iff {e : ProgramError} :
    parse text = .error e ↔
      (Text.Blank text.toList ∧ e = .empty) ∨
      ∃ body index token, Text.Trims text.toList body ∧ body ≠ [] ∧
        FirstStray (body.splitOn ',') index token ∧
        e = .invalidWord index (String.ofList token) := by
  rcases blank_or_trims text.toList with blank | ⟨body, trims, visible⟩
  · rw [parse_of_blank blank]
    constructor
    · intro failed
      cases failed
      exact .inl ⟨blank, rfl⟩
    · rintro (⟨-, rfl⟩ | ⟨body, _, _, trims, visible, -⟩)
      · rfl
      · exact absurd (trims.unique (Text.blank_iff.mp blank)) visible
  · have read : parse text = .error e ↔ readWords (body.splitOn ',') #[] = .error e := by
      rw [parse_of_trims trims visible]
      cases readWords (body.splitOn ',') #[] <;> simp [Except.map]
    rw [read, readWords_eq_error_iff]
    simp only [Array.size_empty, Nat.zero_add]
    constructor
    · rintro ⟨index, token, stray, rfl⟩
      exact .inr ⟨body, index, token, trims, visible, stray, rfl⟩
    · rintro (⟨blank, -⟩ | ⟨other, index, token, again, -, stray, rfl⟩)
      · exact absurd (trims.unique (Text.blank_iff.mp blank)) visible
      · cases trims.unique again
        exact ⟨index, token, stray, rfl⟩

/-- A program has one word more than its text has commas. -/
theorem size_of_parse (parsed : parse text = .ok p) : p.size = text.toList.count ',' + 1 := by
  obtain ⟨body, ⟨pads, -⟩, held⟩ := parse_eq_ok_iff.mp parsed
  have same : (text.toList.splitOn ',').length = (body.splitOn ',').length :=
    (pads.splitOn (by decide)).length_eq
  rw [size, ← Array.length_toList, ← held.length_eq, ← same, ← Text.pieces_eq_splitOn,
    Text.length_pieces]

/-- Program text is read as its words, white space as no program at all, and any other text is
refused for the first of its pieces that is no word. -/
theorem parse_accepts_grammar (text : String) :
    (parse text = .error .empty ↔ Text.Blank text.toList) ∧
    (∀ p, parse text = .ok p ↔
      ∃ body, Text.Trims text.toList body ∧
        List.Forall₂ Holds (body.splitOn ',') p.words.toList) ∧
    (∀ p, parse text = .ok p → p.size = text.toList.count ',' + 1) ∧
    (∀ index token, parse text = .error (.invalidWord index token) ↔
      ∃ body, Text.Trims text.toList body ∧ body ≠ [] ∧
        FirstStray (body.splitOn ',') index token.toList) ∧
    ((∃ p, parse text = .ok p) ∨ parse text = .error .empty ∨
      ∃ index token, parse text = .error (.invalidWord index token)) := by
  refine ⟨?_, fun p => parse_eq_ok_iff, fun p => size_of_parse, fun index token => ?_, ?_⟩
  · rw [parse_eq_error_iff]
    constructor
    · rintro (⟨blank, -⟩ | ⟨_, _, _, -, -, -, other⟩)
      · exact blank
      · cases other
    · exact fun blank => .inl ⟨blank, rfl⟩
  · rw [parse_eq_error_iff]
    constructor
    · rintro (⟨-, other⟩ | ⟨body, _, first, trims, visible, stray, same⟩)
      · cases other
      · cases same
        rw [String.toList_ofList]
        exact ⟨body, trims, visible, stray⟩
    · rintro ⟨body, trims, visible, stray⟩
      exact .inr ⟨body, index, token.toList, trims, visible, stray, by rw [String.ofList_toList]⟩
  · cases parsed : parse text with
    | ok p => exact .inl ⟨p, rfl⟩
    | error e =>
      rcases parse_eq_error_iff.mp parsed with ⟨-, rfl⟩ | ⟨_, index, token, -, -, -, rfl⟩
      · exact .inr (.inl rfl)
      · exact .inr (.inr ⟨index, _, rfl⟩)

example : parse " 1, +02 ,\n" = .error (.invalidWord 2 "") := by decide +kernel

end Program

end Intcode
