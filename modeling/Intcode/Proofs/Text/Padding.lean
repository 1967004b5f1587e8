import Intcode.Text.Blank
import Intcode.Text.Split
import Mathlib.Data.List.Forall2

/-!
# White space around texts

Trimming takes the white space off both ends of a text and leaves what neither starts nor ends with
any. Where a text is cut, white space around the whole only ends up around its pieces, since no
piece ends inside it.
-/

namespace Intcode.Text

/-- White space and nothing else. -/
def Blank (s : List Char) : Prop :=
  ∀ c ∈ s, isBlank c

instance (s : List Char) : Decidable (Blank s) :=
  List.decidableBAll _ s

/-- The first text is the second one with white space around it, if any. -/
def Pads (s t : List Char) : Prop :=
  ∃ before after, Blank before ∧ Blank after ∧ s = before ++ t ++ after

/-- The text neither starts nor ends with white space. -/
def Bare (t : List Char) : Prop :=
  (∀ c ∈ t.head?, isBlank c = false) ∧ ∀ c ∈ t.getLast?, isBlank c = false

/-- The second text is the first one without the white space around it. -/
def Trims (s t : List Char) : Prop :=
  Pads s t ∧ Bare t

variable {s t u before after : List Char} {c : Char}

theorem not_mem_of_blank (visible : isBlank c = false) (blank : Blank s) : c ∉ s := by
  intro member
  cases visible.symm.trans (blank c member)

theorem Pads.refl (t : List Char) : Pads t t :=
  ⟨[], [], nofun, nofun, by simp⟩

theorem Pads.mem_iff (visible : isBlank c = false) (pads : Pads s t) : c ∈ s ↔ c ∈ t := by
  obtain ⟨before, after, front, back, rfl⟩ := pads
  have start := not_mem_of_blank visible front
  have rest := not_mem_of_blank visible back
  simp [start, rest]

/-! ## Trimming -/

theorem trimStart_append (blank : Blank before) (s : List Char) :
    trimStart (before ++ s) = trimStart s :=
  List.dropWhile_append_of_pos blank

theorem trimStart_of_blank (blank : Blank s) : trimStart s = [] := by
  rw [← List.append_nil s, trimStart_append blank]
  rfl

theorem trimEnd_append (s : List Char) (blank : Blank after) :
    trimEnd (s ++ after) = trimEnd s := by
  have backwards : Blank after.reverse := fun c member => blank c (List.mem_reverse.mp member)
  rw [trimEnd, List.reverse_append, List.dropWhile_append_of_pos backwards, trimEnd]

theorem trim_eq_of_pads (pads : Pads s t) : trim s = trim t := by
  obtain ⟨before, after, front, back, rfl⟩ := pads
  rw [trim, List.append_assoc, trimStart_append front, trim]
  have whole : trimStart (t ++ after) =
      if (trimStart t).isEmpty then trimStart after else trimStart t ++ after :=
    List.dropWhile_append
  rw [whole]
  split
  · next empty => rw [trimStart_of_blank back, List.isEmpty_iff.mp empty]
  · exact trimEnd_append _ back

theorem dropWhile_isBlank (bare : ∀ c ∈ t.head?, isBlank c = false) : t.dropWhile isBlank = t := by
  cases t with
  | nil => rfl
  | cons c rest =>
    have visible := bare c rfl
    exact List.dropWhile_cons_of_neg (by simp [visible])

theorem trim_eq_self (bare : Bare t) : trim t = t := by
  rw [trim, trimStart, dropWhile_isBlank bare.1, trimEnd, dropWhile_isBlank, List.reverse_reverse]
  rw [List.head?_reverse]
  exact bare.2

theorem blank_takeWhile (s : List Char) : Blank (s.takeWhile isBlank) :=
  List.all_eq_true.mp List.all_takeWhile

theorem pads_trim (s : List Char) : Pads s (trim s) := by
  refine ⟨s.takeWhile isBlank, ((trimStart s).reverse.takeWhile isBlank).reverse,
    blank_takeWhile s, ?_, ?_⟩
  · intro c member
    exact blank_takeWhile _ c (List.mem_reverse.mp member)
  · rw [List.append_assoc, trim, trimEnd, ← List.reverse_append, List.takeWhile_append_dropWhile,
      List.reverse_reverse, trimStart, List.takeWhile_append_dropWhile]

theorem isBlank_head_dropWhile (s : List Char) :
    ∀ c ∈ (s.dropWhile isBlank).head?, isBlank c = false := by
  intro c front
  have first := List.head?_dropWhile_not isBlank s
  rw [front] at first
  simpa using first

theorem bare_trim (s : List Char) : Bare (trim s) := by
  constructor
  · intro c front
    refine isBlank_head_dropWhile s c ?_
    obtain ⟨rest, split⟩ : trimEnd (trimStart s) <+: trimStart s := by
      rw [trimEnd, ← List.reverse_suffix, List.reverse_reverse]
      exact List.dropWhile_suffix isBlank
    have front : (trimEnd (trimStart s)).head? = some c := front
    have whole : (trimStart s).head? = some c := by
      rw [← split, List.head?_append, front]
      rfl
    exact whole
  · intro c back
    rw [trim, trimEnd, List.getLast?_reverse] at back
    exact isBlank_head_dropWhile _ c back

/-- Trimming leaves the one text that it should. -/
theorem trims_iff : Trims s t ↔ trim s = t := by
  constructor
  · rintro ⟨pads, bare⟩
    rw [trim_eq_of_pads pads, trim_eq_self bare]
  · rintro rfl
    exact ⟨pads_trim s, bare_trim s⟩

theorem trims_trim (s : List Char) : Trims s (trim s) :=
  ⟨pads_trim s, bare_trim s⟩

theorem Trims.unique (one : Trims s t) (two : Trims s u) : t = u :=
  (trims_iff.mp one).symm.trans (trims_iff.mp two)

theorem blank_iff : Blank s ↔ Trims s [] := by
  rw [trims_iff]
  constructor
  · intro blank
    rw [trim, trimStart_of_blank blank]
    rfl
  · intro trimmed
    obtain ⟨before, after, front, back, whole⟩ := pads_trim s
    rw [trimmed, List.append_nil] at whole
    intro c member
    rw [whole] at member
    rcases List.mem_append.mp member with here | there
    · exact front c here
    · exact back c there

/-! ## Cutting -/

theorem pieces_eq_splitOn (separator : Char) (s : List Char) :
    pieces separator s = s.splitOn separator := by
  induction s with
  | nil =>
    rw [List.splitOn_nil]
    rfl
  | cons c rest ih =>
    have front : pieces separator (c :: rest) =
        consPiece separator c (pieces separator rest) := rfl
    rw [front, ih, List.splitOn_cons_eq_if_modifyHead]
    cases left : rest.splitOn separator with
    | nil => exact absurd left (List.splitOn_ne_nil separator rest)
    | cons piece more => by_cases same : c = separator <;> simp [consPiece, same]

variable {separator : Char}

/-- White space behind a text ends up behind its last piece. -/
theorem splitOn_append_blank (visible : isBlank separator = false) (blank : Blank after)
    (t : List Char) :
    List.Forall₂ (fun s t => ∃ after, Blank after ∧ s = t ++ after)
      ((t ++ after).splitOn separator) (t.splitOn separator) := by
  induction t with
  | nil =>
    rw [List.nil_append, List.splitOn_nil,
      List.splitOn_eq_singleton (not_mem_of_blank visible blank)]
    exact .cons ⟨after, blank, rfl⟩ .nil
  | cons c t ih =>
    rw [List.cons_append, List.splitOn_cons_eq_if_modifyHead, List.splitOn_cons_eq_if_modifyHead]
    generalize (t ++ after).splitOn separator = behind, t.splitOn separator = pieces at ih
    by_cases same : (c == separator) = true
    · rw [if_pos same, if_pos same]
      exact .cons ⟨[], nofun, rfl⟩ ih
    · rw [if_neg same, if_neg same]
      cases ih with
      | nil => exact .nil
      | cons first others =>
        obtain ⟨rest, back, rfl⟩ := first
        exact .cons ⟨rest, back, rfl⟩ others

/-- The pieces of a text in white space are those of the text in white space. -/
theorem Pads.splitOn (visible : isBlank separator = false) (pads : Pads s t) :
    List.Forall₂ Pads (s.splitOn separator) (t.splitOn separator) := by
  obtain ⟨before, after, front, back, rfl⟩ := pads
  rw [List.append_assoc]
  induction before with
  | nil =>
    refine (splitOn_append_blank visible back t).imp ?_
    rintro s t ⟨after, back, rfl⟩
    exact ⟨[], after, nofun, back, rfl⟩
  | cons c before ih =>
    obtain ⟨blank, front⟩ := List.forall_mem_cons.mp front
    have other : ¬(c == separator) = true := fun same => by
      rw [beq_iff_eq.mp same, visible] at blank
      cases blank
    replace ih := ih front
    rw [List.cons_append, List.splitOn_cons_eq_if_modifyHead, if_neg other]
    generalize (before ++ (t ++ after)).splitOn separator = behind, t.splitOn separator = pieces
      at ih
    cases ih with
    | nil => exact .nil
    | cons first others =>
      obtain ⟨before, after, start, back, rfl⟩ := first
      refine .cons ⟨c :: before, after, ?_, back, rfl⟩ others
      exact List.forall_mem_cons.mpr ⟨blank, start⟩

end Intcode.Text
