import Intcode.Text.Blank
import Intcode.Text.Integer

/-!
# Decimal texts

A text spells a word if it consists of ASCII digits, at least one, after at most one sign, and this
is the value of the word. Such texts are read, as the words that they spell, and no others. A word
in decimal is one of them, from the least to the greatest.
-/

namespace Intcode

namespace Text

/-- The digits, at least one, have this value in decimal. -/
structure IsNumeral (digits : List Char) (n : Nat) : Prop where
  nonempty : digits ≠ []
  decimal : ∀ c ∈ digits, c.isDigit
  value : Nat.ofDigitChars 10 digits 0 = n

/-- The text is the word in decimal, with or without a plus sign or leading zeros. -/
inductive Spells : List Char → Word → Prop where
  | unsigned {digits : List Char} {n : Nat} {w : Word} (numeral : IsNumeral digits n)
      (value : w.toInt = n) : Spells digits w
  | plus {digits : List Char} {n : Nat} {w : Word} (numeral : IsNumeral digits n)
      (value : w.toInt = n) : Spells ('+' :: digits) w
  | minus {digits : List Char} {n : Nat} {w : Word} (numeral : IsNumeral digits n)
      (value : w.toInt = -n) : Spells ('-' :: digits) w

theorem digit?_eq (c : Char) :
    digit? c = if c.isDigit then some (c.toNat - '0'.toNat) else none := by
  have same : ('0' ≤ c ∧ c ≤ '9') ↔ c.isDigit = true := by
    simp [Char.isDigit, Char.le_def]
  simp only [digit?, same]

theorem le_ofDigitChars (digits : List Char) (value : Nat) :
    value ≤ Nat.ofDigitChars 10 digits value := by
  rw [Nat.ofDigitChars_eq_ofDigitChars_zero]
  have positive : 0 < 10 ^ digits.length := Nat.pow_pos (by decide)
  have grown : value ≤ 10 ^ digits.length * value := Nat.le_mul_of_pos_left value positive
  omega

variable {limit value n : Nat} {excess : IntegerError} {digits : List Char}

/-- Digits after those with this value are read if they keep within the limit. -/
theorem readDigits_eq_ok_iff (small : value ≤ limit) :
    readDigits limit excess digits value = .ok n ↔
      (∀ c ∈ digits, c.isDigit) ∧ Nat.ofDigitChars 10 digits value = n ∧ n ≤ limit := by
  induction digits generalizing value with
  | nil =>
    simp only [readDigits, Except.ok.injEq, Nat.ofDigitChars_nil, List.not_mem_nil]
    constructor
    · rintro rfl
      exact ⟨nofun, rfl, small⟩
    · exact fun h => h.2.1
  | cons c rest ih =>
    rw [readDigits, digit?_eq, List.forall_mem_cons, Nat.ofDigitChars_cons]
    cases digit : c.isDigit with
    | false => simp
    | true =>
      simp only [if_true, true_and]
      by_cases passed : limit < 10 * value + (c.toNat - '0'.toNat)
      · -- the value only grows, so the limit stays passed
        rw [if_pos passed]
        constructor
        · nofun
        · rintro ⟨-, total, within⟩
          have grown := le_ofDigitChars rest (10 * value + (c.toNat - '0'.toNat))
          omega
      · rw [if_neg passed]
        exact ih (Nat.not_lt.mp passed)

theorem readMagnitude_eq_ok_iff :
    readMagnitude limit excess digits = .ok n ↔ IsNumeral digits n ∧ n ≤ limit := by
  unfold readMagnitude
  cases digits with
  | nil =>
    rw [List.isEmpty_nil, if_pos rfl]
    exact ⟨nofun, fun ⟨numeral, _⟩ => absurd rfl numeral.nonempty⟩
  | cons c rest =>
    rw [List.isEmpty_cons, if_neg Bool.false_ne_true, readDigits_eq_ok_iff (Nat.zero_le limit)]
    constructor
    · rintro ⟨decimal, value, within⟩
      exact ⟨⟨List.cons_ne_nil c rest, decimal, value⟩, within⟩
    · rintro ⟨numeral, within⟩
      exact ⟨numeral.decimal, numeral.value, within⟩

theorem isNumeral_toDigits (n : Nat) : IsNumeral (Nat.toDigits 10 n) n where
  nonempty := Nat.toDigits_ne_nil
  decimal := fun _ member => Nat.isDigit_of_mem_toDigits (by decide) (by decide) member
  value := Nat.ofDigitChars_ten_toDigits

/-- What stands for a number starts with a digit, so with no sign. -/
theorem IsNumeral.isDigit {c : Char} {rest : List Char} (numeral : IsNumeral (c :: rest) n) :
    c.isDigit :=
  numeral.decimal c List.mem_cons_self

/-! ## Words -/

variable {s : List Char} {w : Word}

theorem map_readMagnitude_eq_ok_iff {α : Type} {f : Nat → α} {a : α} :
    (readMagnitude limit excess digits).map f = .ok a ↔
      ∃ n, IsNumeral digits n ∧ n ≤ limit ∧ f n = a := by
  constructor
  · intro read
    cases magnitude : readMagnitude limit excess digits with
    | error e =>
      rw [magnitude] at read
      cases read
    | ok n =>
      rw [magnitude] at read
      obtain ⟨numeral, within⟩ := readMagnitude_eq_ok_iff.mp magnitude
      exact ⟨n, numeral, within, Except.ok.inj read⟩
  · rintro ⟨n, numeral, within, rfl⟩
    rw [readMagnitude_eq_ok_iff.mpr ⟨numeral, within⟩]
    rfl

theorem ofNat_eq_iff : (n ≤ 1 <<< 63 - 1 ∧ Int64.ofNat n = w) ↔ w.toInt = n := by
  have high := w.toInt_lt
  have limit : 1 <<< 63 - 1 = 2 ^ 63 - 1 := rfl
  constructor
  · rintro ⟨within, rfl⟩
    exact Int64.toInt_ofNat_of_lt (by omega)
  · intro value
    refine ⟨by omega, ?_⟩
    rw [← Int64.ofInt_eq_ofNat, ← value, Int64.ofInt_toInt]

theorem ofInt_neg_eq_iff : (n ≤ 1 <<< 63 ∧ Int64.ofInt (-n) = w) ↔ w.toInt = -n := by
  have low := w.le_toInt
  have limit : 1 <<< 63 = 2 ^ 63 := rfl
  constructor
  · rintro ⟨within, rfl⟩
    exact Int64.toInt_ofInt_of_le (by omega) (by omega)
  · intro value
    refine ⟨by omega, ?_⟩
    rw [← value, Int64.ofInt_toInt]

theorem readNatural_eq_ok_iff :
    (readMagnitude (1 <<< 63 - 1) .tooLarge digits).map Int64.ofNat = .ok w ↔
      ∃ n : Nat, IsNumeral digits n ∧ w.toInt = n := by
  simp only [map_readMagnitude_eq_ok_iff, ofNat_eq_iff]

theorem readNegated_eq_ok_iff :
    ((readMagnitude (1 <<< 63) .tooSmall digits).map fun n : Nat => Int64.ofInt (-n)) = .ok w ↔
      ∃ n : Nat, IsNumeral digits n ∧ w.toInt = -n := by
  simp only [map_readMagnitude_eq_ok_iff, ofInt_neg_eq_iff]

theorem readWord_plus (digits : List Char) :
    readWord ('+' :: digits) =
      (readMagnitude (1 <<< 63 - 1) .tooLarge digits).map Int64.ofNat := by
  rw [readWord]

theorem readWord_minus (digits : List Char) :
    readWord ('-' :: digits) =
      (readMagnitude (1 <<< 63) .tooSmall digits).map fun n : Nat => Int64.ofInt (-n) := by
  rw [readWord]
  cases readMagnitude (1 <<< 63) .tooSmall digits <;> rfl

theorem readWord_unsigned {c : Char} (plus : c ≠ '+') (minus : c ≠ '-') (rest : List Char) :
    readWord (c :: rest) =
      (readMagnitude (1 <<< 63 - 1) .tooLarge (c :: rest)).map Int64.ofNat := by
  simp [readWord, minus, plus]

/-- A text is read as the word that it spells. -/
theorem readWord_eq_ok_iff : readWord s = .ok w ↔ Spells s w := by
  cases s with
  | nil =>
    constructor
    · nofun
    · rintro ⟨numeral, -⟩
      exact absurd rfl numeral.nonempty
  | cons c rest =>
    by_cases plus : c = '+'
    · subst plus
      rw [readWord_plus, readNatural_eq_ok_iff]
      constructor
      · rintro ⟨n, numeral, value⟩
        exact .plus numeral value
      · rintro (⟨numeral, -⟩ | ⟨numeral, value⟩)
        · exact absurd numeral.isDigit (by decide)
        · exact ⟨_, numeral, value⟩
    by_cases minus : c = '-'
    · subst minus
      rw [readWord_minus, readNegated_eq_ok_iff]
      constructor
      · rintro ⟨n, numeral, value⟩
        exact .minus numeral value
      · rintro (⟨numeral, -⟩ | - | ⟨numeral, value⟩)
        · exact absurd numeral.isDigit (by decide)
        · exact ⟨_, numeral, value⟩
    rw [readWord_unsigned plus minus, readNatural_eq_ok_iff]
    constructor
    · rintro ⟨n, numeral, value⟩
      exact .unsigned numeral value
    · intro spells
      cases spells with
      | unsigned numeral value => exact ⟨_, numeral, value⟩
      | plus => exact absurd rfl plus
      | minus => exact absurd rfl minus

/-- A word is spelled with digits and signs alone. -/
theorem Spells.isSign_or_isDigit {c : Char} (spells : Spells s w) (member : c ∈ s) :
    c = '+' ∨ c = '-' ∨ c.isDigit := by
  cases spells with
  | unsigned numeral => exact .inr (.inr (numeral.decimal c member))
  | plus numeral =>
    rcases List.mem_cons.mp member with sign | digit
    · exact .inl sign
    · exact .inr (.inr (numeral.decimal c digit))
  | minus numeral =>
    rcases List.mem_cons.mp member with sign | digit
    · exact .inr (.inl sign)
    · exact .inr (.inr (numeral.decimal c digit))

/-! ## Addresses -/

/-- The text is the address in decimal, with or without a plus sign or leading zeros. -/
inductive SpellsUnsigned : List Char → UInt64 → Prop where
  | unsigned {digits : List Char} {n : Nat} {a : UInt64} (numeral : IsNumeral digits n)
      (value : a.toNat = n) : SpellsUnsigned digits a
  | plus {digits : List Char} {n : Nat} {a : UInt64} (numeral : IsNumeral digits n)
      (value : a.toNat = n) : SpellsUnsigned ('+' :: digits) a

variable {a : UInt64}

theorem ofNat_unsigned_eq_iff : (n ≤ 1 <<< 64 - 1 ∧ UInt64.ofNat n = a) ↔ a.toNat = n := by
  have high := a.toNat_lt
  have limit : 1 <<< 64 - 1 = 2 ^ 64 - 1 := rfl
  have size : UInt64.size = 2 ^ 64 := rfl
  constructor
  · rintro ⟨within, rfl⟩
    exact UInt64.toNat_ofNat_of_lt' (by omega)
  · rintro rfl
    exact ⟨by omega, UInt64.ofNat_toNat⟩

theorem readAddress_eq_ok_iff :
    (readMagnitude (1 <<< 64 - 1) .tooLarge digits).map UInt64.ofNat = .ok a ↔
      ∃ n : Nat, IsNumeral digits n ∧ a.toNat = n := by
  simp only [map_readMagnitude_eq_ok_iff, ofNat_unsigned_eq_iff]

/-- A text is read as the address that it spells. -/
theorem readUnsigned_eq_ok_iff : readUnsigned s = .ok a ↔ SpellsUnsigned s a := by
  cases s with
  | nil =>
    constructor
    · nofun
    · rintro ⟨numeral, -⟩
      exact absurd rfl numeral.nonempty
  | cons c rest =>
    by_cases plus : c = '+'
    · subst plus
      rw [readUnsigned, readAddress_eq_ok_iff]
      constructor
      · rintro ⟨n, numeral, value⟩
        exact .plus numeral value
      · rintro (⟨numeral, -⟩ | ⟨numeral, value⟩)
        · exact absurd numeral.isDigit (by decide)
        · exact ⟨_, numeral, value⟩
    have unsigned : readUnsigned (c :: rest) =
        (readMagnitude (1 <<< 64 - 1) .tooLarge (c :: rest)).map UInt64.ofNat := by
      simp [readUnsigned, plus]
    rw [unsigned, readAddress_eq_ok_iff]
    constructor
    · rintro ⟨n, numeral, value⟩
      exact .unsigned numeral value
    · intro spells
      cases spells with
      | unsigned numeral value => exact ⟨_, numeral, value⟩
      | plus => exact absurd rfl plus

theorem toList_toString_address (a : UInt64) : (toString a).toList = Nat.toDigits 10 a.toNat := by
  have text : toString a = a.toNat.repr := rfl
  rw [text, Nat.repr_eq_ofList_toDigits, String.toList_ofList]

theorem spellsUnsigned_toString (a : UInt64) : SpellsUnsigned (toString a).toList a := by
  rw [toList_toString_address]
  exact .unsigned (isNumeral_toDigits _) rfl

theorem isDigit_of_mem_toString {c : Char} (member : c ∈ (toString a).toList) : c.isDigit := by
  rw [toList_toString_address] at member
  exact Nat.isDigit_of_mem_toDigits (by decide) (by decide) member

theorem isBlank_of_isDigit {c : Char} (digit : c.isDigit) : isBlank c = false := by
  rw [Char.isDigit_iff_toNat] at digit
  have zero : '0'.toNat = 48 := rfl
  have nine : '9'.toNat = 57 := rfl
  have apart : ∀ range ∈ blankRanges, range.2 < 48 ∨ 57 < range.1 := by decide
  rw [Bool.eq_false_iff, ne_eq, isBlank_iff]
  rintro ⟨range, member, low, high⟩
  have outside := apart range member
  omega

end Text

namespace Word

theorem toList_render (w : Word) :
    (render w).toList = if 0 ≤ w.toInt then Nat.toDigits 10 w.toInt.toNat
      else '-' :: Nat.toDigits 10 (-w.toInt).toNat := by
  have text : render w = w.toInt.repr := rfl
  rw [text, Int.repr_eq_if]
  by_cases natural : 0 ≤ w.toInt
  · rw [if_pos natural, if_pos natural, Nat.repr_eq_ofList_toDigits, String.toList_ofList]
  · rw [if_neg natural, if_neg natural, Nat.repr_eq_ofList_toDigits]
    simp

theorem eq_minus_or_isDigit_of_mem_render {w : Word} {c : Char} (member : c ∈ (render w).toList) :
    c = '-' ∨ c.isDigit := by
  rw [toList_render] at member
  split at member
  · exact .inr (Nat.isDigit_of_mem_toDigits (by decide) (by decide) member)
  · rcases List.mem_cons.mp member with sign | digit
    · exact .inl sign
    · exact .inr (Nat.isDigit_of_mem_toDigits (by decide) (by decide) digit)

theorem not_mem_render {c : Char} (sign : c ≠ '-') (other : c.isDigit = false) (w : Word) :
    c ∉ (render w).toList := by
  intro member
  rcases eq_minus_or_isDigit_of_mem_render member with minus | digit
  · exact sign minus
  · cases other.symm.trans digit

theorem isBlank_of_mem_render {w : Word} {c : Char} (member : c ∈ (render w).toList) :
    Text.isBlank c = false := by
  rcases eq_minus_or_isDigit_of_mem_render member with rfl | digit
  · decide
  · exact Text.isBlank_of_isDigit digit

theorem spells_render (w : Word) : Text.Spells (render w).toList w := by
  rw [toList_render]
  by_cases natural : 0 ≤ w.toInt
  · rw [if_pos natural]
    exact .unsigned (Text.isNumeral_toDigits _) (Int.toNat_of_nonneg natural).symm
  · rw [if_neg natural]
    exact .minus (Text.isNumeral_toDigits _) (by omega)

end Word

end Intcode
