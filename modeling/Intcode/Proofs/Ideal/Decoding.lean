import Intcode.Proofs.Ideal.Basic

/-!
# Decoding as the ideal machine does it

The digits of an instruction word are those of the integer it stands for. So the decoder selects
the opcode and the modes that the ideal machine finds, and fails with its first fault.
-/

namespace Intcode

/-- Fails with the first of some faults; without a fault it gives a value as described. -/
inductive Heeds {α : Type} (Fine : α → Prop) : List Fault → Except Fault α → Prop where
  | ok {a : α} (fine : Fine a) : Heeds Fine [] (.ok a)
  | error {fault : Fault} {later : List Fault} : Heeds Fine (fault :: later) (.error fault)

namespace Heeds

variable {α β : Type} {Fine : α → Prop} {Next : β → Prop} {faults later : List Fault}
  {x : Except Fault α} {y : Except Fault β}

theorem mono {Weak : α → Prop} (heeds : Heeds Fine faults x) (weaker : ∀ a, Fine a → Weak a) :
    Heeds Weak faults x := by
  cases heeds with
  | ok fine => exact .ok (weaker _ fine)
  | error => exact .error

/-- What goes on from a value but fails as the computation did heeds the faults of both. -/
theorem bind (heeds : Heeds Fine faults x) (failed : ∀ fault, x = .error fault → y = .error fault)
    (onward : ∀ a, x = .ok a → Fine a → Heeds Next later y) : Heeds Next (faults ++ later) y := by
  cases heeds with
  | ok fine => exact onward _ rfl fine
  | error =>
    rw [failed _ rfl]
    exact .error

/-- What makes something of a value meets no faults of its own. -/
theorem map (heeds : Heeds Fine faults x) (failed : ∀ fault, x = .error fault → y = .error fault)
    (onward : ∀ a, x = .ok a → Fine a → ∃ b, y = .ok b ∧ Next b) : Heeds Next faults y := by
  rw [← List.append_nil faults]
  refine heeds.bind failed fun a ran fine => ?_
  obtain ⟨b, rfl, holds⟩ := onward a ran fine
  exact .ok holds

end Heeds

namespace Ideal

theorem selected?_selector (opcode : Opcode) : selected? opcode.selector.toInt = some opcode := by
  cases opcode <;> decide

theorem selector_of_selected? {n : Int} {opcode : Opcode} (h : selected? n = some opcode) :
    opcode.selector.toInt = n := by
  unfold selected? at h
  split at h <;> cases h <;> rfl

theorem ofSelector?_eq (selector : Word) :
    Opcode.ofSelector? selector = selected? selector.toInt := by
  apply Option.ext
  intro opcode
  constructor
  · intro h
    rw [← Opcode.selector_of_ofSelector? h, selected?_selector]
  · intro h
    rw [← Int64.toInt_inj.mp (selector_of_selected? h), Opcode.ofSelector?_selector]

theorem ofDigit?_eq (digit : Word) : Mode.ofDigit? digit = moded? digit.toInt := by
  apply Option.ext
  intro mode
  constructor
  · intro h
    rw [← Mode.digit_of_ofDigit? h]
    cases mode <;> rfl
  · intro h
    have same : mode.digit.toInt = digit.toInt := by
      unfold moded? at h
      split at h <;> cases h <;> symm <;> assumption
    rw [← Int64.toInt_inj.mp same, Mode.ofDigit?_digit]

variable {r : Ideal} {word : Word}

theorem opcodeOf?_eq (same : word.toInt = r.word) : Instruction.opcodeOf? word = r.opcode? := by
  have negative : word < 0 ↔ r.word < 0 := by
    rw [← same, Word.lt_zero_iff]
  rw [Instruction.opcodeOf?, opcode?]
  by_cases below : r.word < 0
  · rw [if_pos below, if_pos (negative.mpr below)]
  · rw [if_neg below, if_neg (mt negative.mp below), ofSelector?_eq, ← same,
      Word.toInt_mod_of_nonneg (by omega)]
    rfl

theorem named_eq (same : word.toInt = r.word) : r.named = word := by
  rw [named, ← same, Int64.ofInt_toInt]

theorem digits_nonneg (nonneg : 0 ≤ r.word) (k : Nat) : 0 ≤ r.word / 10 ^ k :=
  Int.ediv_nonneg nonneg (Int.pow_nonneg (by decide))

theorem toInt_mod_ten {digits : Word} {i : Nat} (nonneg : 0 ≤ r.word)
    (left : digits.toInt = r.word / 10 ^ (i + 2)) : (digits % 10).toInt = r.digit i := by
  rw [Word.toInt_mod_of_nonneg (by rw [left]; exact digits_nonneg nonneg _), left]
  rfl

/-- The digits above the one of a parameter. -/
theorem toInt_div_ten {digits : Word} {i : Nat} (nonneg : 0 ≤ r.word)
    (left : digits.toInt = r.word / 10 ^ (i + 2)) :
    (digits / 10).toInt = r.word / 10 ^ (i + 1 + 2) := by
  have power : (10 : Int) ^ (i + 1 + 2) = 10 ^ (i + 2) * 10 := by
    rw [← Int.pow_succ, Nat.add_right_comm]
  rw [Word.toInt_div_of_nonneg (by rw [left]; exact digits_nonneg nonneg _) (by decide), left, power,
    ← Int.ediv_ediv_of_nonneg (Int.pow_nonneg (by decide))]
  rfl

/-- The modes of so many parameters, from one whose digit comes lowest. -/
theorem decodeModes_heeds (same : word.toInt = r.word) (nonneg : 0 ≤ r.word) (count : Nat)
    {i : Nat} {digits : Word} (left : digits.toInt = r.word / 10 ^ (i + 2)) :
    Heeds (fun modes => ∀ k < count, r.mode? (i + k) = some (modes.getD k .position))
      ((List.range' i count).flatMap r.digitFaults)
      (Instruction.decodeModes word count digits) := by
  induction count generalizing i digits with
  | zero => exact .ok (fun k inside => absurd inside (Nat.not_lt_zero k))
  | succ count ih =>
    have digit := toInt_mod_ten nonneg left
    rw [List.range'_succ, List.flatMap_cons, Instruction.decodeModes, ofDigit?_eq, digit,
      digitFaults, mode?]
    cases found : moded? (r.digit i) with
    | none =>
      rw [if_pos rfl, ← digit, Int64.ofInt_toInt, named_eq same]
      exact .error
    | some mode =>
      rw [if_neg (Option.some_ne_none mode)]
      refine (ih (toInt_div_ten nonneg left)).map (fun fault failed => by simp only [failed]) ?_
      intro modes decoded moded
      refine ⟨mode :: modes, by simp only [decoded], fun k inside => ?_⟩
      cases k with
      | zero => exact found
      | succ k =>
        rw [List.getD_cons_succ, ← moded k (by omega), Nat.add_right_comm]
        rfl

/-- The word holds the opcode and the modes that the ideal machine finds. -/
structure Decodes (r : Ideal) (opcode : Opcode) (instr : Instruction) : Prop where
  selected : instr.opcode = opcode
  named : instr.word = r.named
  moded : ∀ i < opcode.arity, r.mode? i = some (instr.mode i)

theorem decode_of_unselected (same : word.toInt = r.word) (unselected : r.opcode? = none) :
    Instruction.decode word = .error (.unknownOpcode (Int64.ofInt (r.word.tmod 100)) r.named) := by
  have selector : Int64.ofInt (r.word.tmod 100) = word % 100 := by
    have exact : (word % 100).toInt = r.word.tmod 100 := by
      rw [Int64.toInt_mod, same]
      rfl
    rw [← exact, Int64.ofInt_toInt]
  rw [Instruction.decode, opcodeOf?_eq same, unselected, named_eq same, selector]

theorem decode_heeds (same : word.toInt = r.word) {opcode : Opcode}
    (selected : r.opcode? = some opcode) :
    Heeds (r.Decodes opcode) (r.modeFaults opcode) (Instruction.decode word) := by
  have nonneg : 0 ≤ r.word := by
    rw [opcode?] at selected
    split at selected
    · cases selected
    · omega
  have hundreds : (word / 100).toInt = r.word / 10 ^ (0 + 2) := by
    rw [Word.toInt_div_of_nonneg (same ▸ nonneg) (by decide), same]
    rfl
  rw [Instruction.decode, opcodeOf?_eq same, selected, modeFaults, List.range_eq_range']
  refine (decodeModes_heeds same nonneg opcode.arity hundreds).map
    (fun fault failed => by simp only [failed]) ?_
  intro modes decoded moded
  refine ⟨⟨opcode, word, modes⟩, by simp only [decoded], rfl, (named_eq same).symm, ?_⟩
  intro i inside
  have here := moded i inside
  rw [Nat.zero_add] at here
  exact here

end Ideal

end Intcode
