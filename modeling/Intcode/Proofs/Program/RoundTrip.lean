import Intcode.Proofs.Program.Grammar

/-!
# Programs and their texts

A program is written as its words in decimal with commas between them. White space can be put around
each word and around the whole: all these texts are read as the same program, the one without any
too. The empty program has no such text. But no text is read as an empty program either.
-/

namespace Intcode

namespace Program

/-- The text consists of the words of the program in decimal, with commas between them and white
space around each word and around the whole, if any. -/
def Written (p : Program) (text : String) : Prop :=
  ∃ pieces,
    List.Forall₂ (fun piece w => Text.Pads piece (Word.render w).toList) pieces p.words.toList ∧
      Text.Pads text.toList ([','].intercalate pieces)

variable {p q : Program} {text : String}

/-! ## The characters of a program -/

theorem mem_of_mem_intercalate {α : Type u} {separator : List α} {pieces : List (List α)} {x : α}
    (member : x ∈ separator.intercalate pieces) : x ∈ separator ∨ ∃ piece ∈ pieces, x ∈ piece := by
  induction pieces with
  | nil => cases member
  | cons piece pieces ih =>
    cases pieces with
    | nil =>
      rw [List.intercalate_singleton] at member
      exact .inr ⟨piece, List.mem_cons_self, member⟩
    | cons next pieces =>
      rw [List.intercalate_cons_cons, List.append_assoc, List.mem_append, List.mem_append] at member
      rcases member with here | between | later
      · exact .inr ⟨piece, List.mem_cons_self, here⟩
      · exact .inl between
      · rcases ih later with between | ⟨other, inside, there⟩
        · exact .inl between
        · exact .inr ⟨other, List.mem_cons_of_mem _ inside, there⟩

theorem toList_render (p : Program) :
    p.render.toList = [','].intercalate (p.words.toList.map fun w => (Word.render w).toList) := by
  rw [render, String.toList_intercalate, List.map_map]
  rfl

theorem isBlank_of_mem_render {c : Char} (member : c ∈ p.render.toList) :
    Text.isBlank c = false := by
  rw [toList_render] at member
  rcases mem_of_mem_intercalate member with comma | ⟨piece, inside, here⟩
  · cases List.mem_singleton.mp comma
    decide
  · obtain ⟨w, -, rfl⟩ := List.mem_map.mp inside
    exact Word.isBlank_of_mem_render here

/-! ## Reading what was written -/

theorem holds_of_pads_render {piece : List Char} {w : Word}
    (pads : Text.Pads piece (Word.render w).toList) : Holds piece w := by
  refine ⟨_, ⟨pads, ?_, ?_⟩, Word.spells_render w⟩
  · exact fun c front => Word.isBlank_of_mem_render (List.mem_of_mem_head? front)
  · exact fun c back => Word.isBlank_of_mem_render (List.mem_of_mem_getLast? back)

/-- White space around the pieces does not change the words in them. -/
theorem forall₂_holds_iff {padded pieces : List (List Char)} {words : List Word}
    (pads : List.Forall₂ Text.Pads padded pieces) :
    List.Forall₂ Holds padded words ↔ List.Forall₂ Holds pieces words := by
  induction pads generalizing words with
  | nil => exact Iff.rfl
  | cons first others ih =>
    simp only [List.forall₂_cons_left_iff, holds_iff_of_pads first, ih]

theorem written_render (p : Program) : p.Written p.render := by
  refine ⟨p.words.toList.map fun w => (Word.render w).toList, ?_, ?_⟩
  · rw [List.forall₂_map_left_iff, List.forall₂_same]
    exact fun w _ => Text.Pads.refl _
  · rw [toList_render]
    exact Text.Pads.refl _

/-- However a program with a word is written, it is read as that program. -/
theorem parse_of_written (nonempty : 0 < p.size) (written : p.Written text) :
    parse text = .ok p := by
  obtain ⟨pieces, padded, around⟩ := written
  have whole : ∀ piece ∈ pieces, ',' ∉ piece := by
    refine ((List.forall₂_and_left _ _).mp (padded.imp fun piece w pads => ⟨?_, pads⟩)).1
    rw [pads.mem_iff (by decide)]
    exact Word.not_mem_render (by decide) (by decide) w
  have inhabited : pieces ≠ [] := by
    intro none
    have length := padded.length_eq
    rw [none, List.length_nil] at length
    rw [size, ← Array.length_toList, ← length] at nonempty
    exact Nat.lt_irrefl 0 nonempty
  have cut : ([','].intercalate pieces).splitOn ',' = pieces :=
    List.splitOn_intercalate ',' whole inhabited
  refine parse_eq_ok_iff.mpr ⟨_, Text.trims_trim _, ?_⟩
  rw [← forall₂_holds_iff ((Text.pads_trim _).splitOn (by decide)),
    forall₂_holds_iff (around.splitOn (by decide)), cut]
  exact padded.imp fun _ _ => holds_of_pads_render

/-- The text of a program with a word is read as that program. -/
theorem parse_render (nonempty : 0 < p.size) : parse p.render = .ok p :=
  parse_of_written nonempty (written_render p)

/-- The text of any program determines it: that of the empty one is no other program's. -/
theorem getD_parse_render (p : Program) : (parse p.render).toOption.getD ⟨#[]⟩ = p := by
  rcases Nat.eq_zero_or_pos p.size with empty | nonempty
  · obtain rfl : p = ⟨#[]⟩ := congrArg Program.mk (Array.size_eq_zero_iff.mp empty)
    rfl
  · rw [parse_render nonempty]
    rfl

theorem render_injective : Function.Injective render := by
  intro p q same
  rw [← getD_parse_render p, same, getD_parse_render q]

theorem size_pos_of_parse (parsed : parse text = .ok p) : 0 < p.size := by
  rw [size_of_parse parsed]
  exact Nat.succ_pos _

/-- A program with a word is read from its text, also with white space in it, so what was read from
any text is read again from the text of the result, and different programs have different texts. -/
theorem parse_undoes_render (p : Program) :
    (0 < p.size → parse p.render = .ok p ∧ ∀ text, p.Written text → parse text = .ok p) ∧
    (∀ text, parse text = .ok p → parse p.render = .ok p) ∧
    ∀ q, p ≠ q → p.render ≠ q.render := by
  refine ⟨fun nonempty => ⟨parse_render nonempty, fun text => parse_of_written nonempty⟩, ?_, ?_⟩
  · intro text parsed
    exact parse_render (size_pos_of_parse parsed)
  · intro q different same
    exact different (render_injective same)

theorem parse_undoes_render_extreme :
    parse "-9223372036854775808,9223372036854775807" =
      .ok ⟨#[-9223372036854775808, 9223372036854775807]⟩ ∧
    parse "\n-9223372036854775808\t,\u3000 9223372036854775807 " =
      .ok ⟨#[-9223372036854775808, 9223372036854775807]⟩ := by
  obtain ⟨reads, -⟩ := parse_undoes_render ⟨#[-9223372036854775808, 9223372036854775807]⟩
  obtain ⟨plain, spaced⟩ := reads (by decide)
  refine ⟨plain, spaced _ ⟨["-9223372036854775808\t".toList,
    "\u3000 9223372036854775807".toList], ?_, ['\n'], [' '], ?_, ?_, ?_⟩⟩
  · refine .cons ⟨[], ['\t'], nofun, ?_, ?_⟩ (.cons ⟨['\u3000', ' '], [], ?_, nofun, ?_⟩ .nil) <;>
      decide +kernel
  all_goals decide +kernel

end Program

end Intcode
