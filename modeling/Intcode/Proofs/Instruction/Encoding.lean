import Mathlib.Algebra.Ring.Int.Defs
import Intcode.Proofs.Machine.Runs

/-!
# Words as encodings of instructions

A word that is no negative number is decoded to the instruction whose encoding its lowest digits
are, as many as the opcode has parameters and two for the opcode itself. Digits above those do not
count. A word that encodes nothing names no opcode, or has a digit that is no mode, of which the
lowest is reported.
-/

namespace Intcode

namespace Instruction

/-- The decimal digit at a place, with the units at place zero. -/
def digitAt (n : Int) (place : Nat) : Int :=
  n / 10 ^ place % 10

/-- The number is natural and its two lowest digits are those of the opcode. -/
def Selects (n : Int) (opcode : Opcode) : Prop :=
  0 ≤ n ∧ opcode.selector.toInt = n % 100

instance (n : Int) (opcode : Opcode) : Decidable (Selects n opcode) :=
  inferInstanceAs (Decidable (_ ∧ _))

/-- Why a word is refused. -/
inductive Refused (word : Word) : Fault → Prop where
  /-- It selects no opcode. What it selects instead has the sign of the word. -/
  | unselected {selector : Word} (none : ∀ opcode, ¬ Selects word.toInt opcode)
      (value : selector.toInt = word.toInt.tmod 100) : Refused word (.unknownOpcode selector word)
  /-- The digit of a parameter is no mode, and those of the parameters left of it are modes. -/
  | unmoded {opcode : Opcode} {i : Nat} {digit : Word} (selects : Selects word.toInt opcode)
      (inside : i < opcode.arity) (value : digit.toInt = digitAt word.toInt (i + 2))
      (exceeds : 2 < digit.toInt) (leftmost : ∀ j < i, digitAt word.toInt (j + 2) ≤ 2) :
      Refused word (.invalidMode digit word)

variable {word digits : Word} {opcode : Opcode} {mode : Mode} {modes : List Mode} {count : Nat}
variable {fault : Fault} {n : Int}

/-! ## Digits -/

theorem digitAt_zero (n : Int) : digitAt n 0 = n % 10 := by
  rw [digitAt, Int.pow_zero, Int.ediv_one]

theorem digitAt_succ (n : Int) (place : Nat) : digitAt n (place + 1) = digitAt (n / 10) place := by
  rw [digitAt, digitAt, Int.ediv_ediv_of_nonneg (by decide), Int.pow_succ, Int.mul_comm]

theorem toInt_digit (mode : Mode) : 0 ≤ mode.digit.toInt ∧ mode.digit.toInt ≤ 2 := by
  cases mode <;> decide

theorem ofDigit?_eq_some_iff {digit : Word} :
    Mode.ofDigit? digit = some mode ↔ mode.digit = digit := by
  constructor
  · exact Mode.digit_of_ofDigit?
  · rintro rfl
    exact Mode.ofDigit?_digit mode

/-- The digits that are no modes are the ones above two. -/
theorem ofDigit?_eq_none_iff {digit : Word} (natural : 0 ≤ digit.toInt) :
    Mode.ofDigit? digit = none ↔ 2 < digit.toInt := by
  simp only [Option.eq_none_iff_forall_ne_some, ne_eq, ofDigit?_eq_some_iff]
  constructor
  · intro none
    have exact : ∀ mode : Mode, mode.digit.toInt ≠ digit.toInt := fun mode same =>
      none mode (Int64.toInt_inj.mp same)
    have zero : (0 : Int) ≠ digit.toInt := exact .position
    have one : (1 : Int) ≠ digit.toInt := exact .immediate
    have two : (2 : Int) ≠ digit.toInt := exact .relative
    omega
  · rintro exceeds mode rfl
    have digit := toInt_digit mode
    omega

theorem selector_bounds (opcode : Opcode) :
    0 ≤ opcode.selector.toInt ∧ opcode.selector.toInt < 100 := by
  cases opcode <;> decide

theorem opcodeOf?_eq_some_iff : opcodeOf? word = some opcode ↔ Selects word.toInt opcode := by
  rw [opcodeOf?, Selects]
  by_cases negative : word < 0
  · rw [if_pos negative]
    rw [Word.lt_zero_iff] at negative
    exact ⟨nofun, fun ⟨natural, _⟩ => absurd natural (Int.not_le.mpr negative)⟩
  · rw [if_neg negative]
    rw [Word.lt_zero_iff, Int.not_lt] at negative
    have selector : (word % 100).toInt = word.toInt % 100 :=
      Word.toInt_mod_of_nonneg negative 100
    rw [← selector, Int64.toInt_inj]
    constructor
    · exact fun found => ⟨negative, Opcode.selector_of_ofSelector? found⟩
    · rintro ⟨-, same⟩
      rw [← same, Opcode.ofSelector?_selector]

/-! ## Modes -/

theorem encodeModes_nonneg (modes : List Mode) : 0 ≤ encodeModes modes := by
  induction modes with
  | nil => exact Int.le_refl 0
  | cons mode modes ih =>
    have digit := toInt_digit mode
    rw [encodeModes]
    omega

theorem encodeModes_lt (modes : List Mode) : encodeModes modes < 10 ^ modes.length := by
  induction modes with
  | nil => decide
  | cons mode modes ih =>
    have digit := toInt_digit mode
    rw [encodeModes, List.length_cons, Int.pow_succ]
    omega

/-- The lowest digit of a natural number and the others. -/
theorem toInt_digits (natural : 0 ≤ digits.toInt) :
    (digits % 10).toInt = digits.toInt % 10 ∧ (digits / 10).toInt = digits.toInt / 10 :=
  ⟨Word.toInt_mod_of_nonneg natural 10, Word.toInt_div_of_nonneg natural (by decide)⟩

/-- A digit that is no mode ends the decoding. -/
theorem decodeModes_succ_of_none (none : Mode.ofDigit? (digits % 10) = none) (count : Nat) :
    decodeModes word (count + 1) digits = .error (.invalidMode (digits % 10) word) := by
  rw [decodeModes, none]

theorem decodeModes_succ_of_some (first : Mode.ofDigit? (digits % 10) = some mode) (count : Nat) :
    decodeModes word (count + 1) digits =
      (decodeModes word count (digits / 10)).map (mode :: ·) := by
  rw [decodeModes, first]
  cases decodeModes word count (digits / 10) <;> rfl

/-- The modes are those that the lowest digits encode. -/
theorem decodeModes_eq_ok_iff (natural : 0 ≤ digits.toInt) :
    decodeModes word count digits = .ok modes ↔
      modes.length = count ∧
        ∃ rest : Nat, digits.toInt = encodeModes modes + 10 ^ count * rest := by
  induction count generalizing digits modes with
  | zero =>
    simp only [decodeModes, Except.ok.injEq, List.length_eq_zero_iff]
    constructor
    · rintro rfl
      refine ⟨rfl, digits.toInt.toNat, ?_⟩
      rw [encodeModes, Int.toNat_of_nonneg natural]
      omega
    · rintro ⟨rfl, -⟩
      rfl
  | succ count ih =>
    obtain ⟨low, high⟩ := toInt_digits natural
    have onward : ∀ modes, decodeModes word count (digits / 10) = .ok modes ↔
        modes.length = count ∧
          ∃ rest : Nat, digits.toInt / 10 = encodeModes modes + 10 ^ count * rest := by
      intro modes
      rw [ih (by omega), high]
    constructor
    · intro decoded
      cases found : Mode.ofDigit? (digits % 10) with
      | none => cases (decodeModes_succ_of_none found count).symm.trans decoded
      | some mode =>
        have digit := congrArg Int64.toInt (ofDigit?_eq_some_iff.mp found)
        rw [decodeModes_succ_of_some found] at decoded
        cases others : decodeModes word count (digits / 10) with
        | error e =>
          rw [others] at decoded
          cases decoded
        | ok modes =>
          rw [others] at decoded
          cases decoded
          obtain ⟨length, rest, value⟩ := (onward modes).mp others
          refine ⟨by rw [List.length_cons, length], rest, ?_⟩
          rw [encodeModes, Int.pow_succ, Int.mul_comm (10 ^ count), Int.mul_assoc]
          omega
    · rintro ⟨length, rest, value⟩
      cases modes with
      | nil => cases length
      | cons mode modes =>
        have digit := toInt_digit mode
        rw [encodeModes, Int.pow_succ, Int.mul_comm (10 ^ count), Int.mul_assoc] at value
        have first : mode.digit = digits % 10 := Int64.toInt_inj.mp (by omega)
        have others := (onward modes).mpr ⟨Nat.succ.inj length, rest, by omega⟩
        rw [decodeModes_succ_of_some (ofDigit?_eq_some_iff.mpr first), others]
        rfl

/-- Decoding fails at the lowest digit that is no mode. -/
theorem decodeModes_eq_error_iff (natural : 0 ≤ digits.toInt) :
    decodeModes word count digits = .error fault ↔
      ∃ i < count, ∃ digit : Word, digit.toInt = digitAt digits.toInt i ∧ 2 < digit.toInt ∧
        (∀ j < i, digitAt digits.toInt j ≤ 2) ∧ fault = .invalidMode digit word := by
  induction count generalizing digits with
  | zero =>
    constructor
    · nofun
    · rintro ⟨i, inside, -⟩
      exact absurd inside (Nat.not_lt_zero i)
  | succ count ih =>
    obtain ⟨low, high⟩ := toInt_digits natural
    have units := digitAt_zero digits.toInt
    cases found : Mode.ofDigit? (digits % 10) with
    | none =>
      have exceeds := (ofDigit?_eq_none_iff (by omega)).mp found
      rw [decodeModes_succ_of_none found]
      constructor
      · intro failed
        cases failed
        exact ⟨0, Nat.succ_pos count, digits % 10, low.trans units.symm, exceeds, nofun, rfl⟩
      · rintro ⟨i, -, digit, value, -, leftmost, rfl⟩
        cases i with
        | zero =>
          obtain rfl : digit = digits % 10 := Int64.toInt_inj.mp (by omega)
          rfl
        | succ i =>
          have first := leftmost 0 (Nat.succ_pos i)
          omega
    | some mode =>
      have first := toInt_digit mode
      rw [ofDigit?_eq_some_iff.mp found] at first
      have onward : decodeModes word (count + 1) digits = .error fault ↔
          decodeModes word count (digits / 10) = .error fault := by
        rw [decodeModes_succ_of_some found]
        cases decodeModes word count (digits / 10) <;> simp [Except.map]
      rw [onward, ih (by omega), high]
      constructor
      · rintro ⟨i, inside, digit, value, exceeds, leftmost, rfl⟩
        refine ⟨i + 1, by omega, digit, by rw [value, digitAt_succ], exceeds, fun j before => ?_, rfl⟩
        cases j with
        | zero => omega
        | succ j =>
          rw [digitAt_succ]
          exact leftmost j (by omega)
      · rintro ⟨i, inside, digit, value, exceeds, leftmost, rfl⟩
        cases i with
        | zero => omega
        | succ i =>
          rw [digitAt_succ] at value
          refine ⟨i, by omega, digit, value, exceeds, fun j before => ?_, rfl⟩
          rw [← digitAt_succ]
          exact leftmost (j + 1) (by omega)

/-! ## Instructions -/

theorem Selects.unique {other : Opcode} (one : Selects n opcode) (two : Selects n other) :
    opcode = other := by
  have same : opcode.selector = other.selector := Int64.toInt_inj.mp (one.2.trans two.2.symm)
  have found := Opcode.ofSelector?_selector opcode
  rw [same, Opcode.ofSelector?_selector] at found
  exact (Option.some.inj found).symm

theorem decode_of_not_selects (none : ∀ opcode, ¬ Selects word.toInt opcode) :
    decode word = .error (.unknownOpcode (word % 100) word) := by
  have unknown : opcodeOf? word = Option.none :=
    Option.eq_none_iff_forall_ne_some.mpr fun opcode => mt opcodeOf?_eq_some_iff.mp (none opcode)
  rw [decode, unknown]

theorem decode_of_selects (selects : Selects word.toInt opcode) :
    decode word =
      (decodeModes word opcode.arity (word / 100)).map fun modes => ⟨opcode, word, modes⟩ := by
  simp only [decode, opcodeOf?_eq_some_iff.mpr selects]
  cases decodeModes word opcode.arity (word / 100) <;> rfl

theorem toInt_hundreds (natural : 0 ≤ word.toInt) : (word / 100).toInt = word.toInt / 100 :=
  Word.toInt_div_of_nonneg natural (by decide)

theorem digitAt_hundreds (n : Int) (place : Nat) : digitAt (n / 100) place = digitAt n (place + 2) := by
  rw [digitAt_succ, digitAt_succ, Int.ediv_ediv_of_nonneg (by decide)]
  rfl

theorem ten_pow_add_two (n : Nat) : (10 : Int) ^ (n + 2) = 100 * 10 ^ n := by
  rw [Int.pow_succ, Int.pow_succ]
  omega

/-- The hundreds of an encoding are the modes and the digits above them. -/
theorem encode_add (opcode : Opcode) (modes : List Mode) (count : Nat) (rest : Int) :
    encode opcode modes + 10 ^ (count + 2) * rest =
      opcode.selector.toInt + 100 * (encodeModes modes + 10 ^ count * rest) := by
  rw [encode, ten_pow_add_two, Int.mul_assoc]
  omega

theorem decode_eq_ok_iff {instr : Instruction} :
    decode word = .ok instr ↔
      instr.word = word ∧ instr.modes.length = instr.opcode.arity ∧
        ∃ rest : Nat, word.toInt =
          encode instr.opcode instr.modes + 10 ^ (instr.opcode.arity + 2) * rest := by
  simp only [encode_add]
  constructor
  · intro decoded
    by_cases selected : ∃ opcode, Selects word.toInt opcode
    · obtain ⟨opcode, selects⟩ := selected
      have hundreds := toInt_hundreds selects.1
      rw [decode_of_selects selects] at decoded
      cases moded : decodeModes word opcode.arity (word / 100) with
      | error e =>
        rw [moded] at decoded
        cases decoded
      | ok modes =>
        rw [moded] at decoded
        cases decoded
        have natural := selects.1
        obtain ⟨length, rest, value⟩ := (decodeModes_eq_ok_iff (by omega)).mp moded
        have low := selects.2
        refine ⟨rfl, length, rest, ?_⟩
        dsimp only
        omega
    · cases (decode_of_not_selects (not_exists.mp selected)).symm.trans decoded
  · rintro ⟨rfl, length, rest, value⟩
    have selector := selector_bounds instr.opcode
    have modes := encodeModes_nonneg instr.modes
    have above : 0 ≤ (10 : Int) ^ instr.opcode.arity * rest :=
      Int.mul_nonneg (Int.pow_nonneg (by decide)) (Int.natCast_nonneg rest)
    have selects : Selects instr.word.toInt instr.opcode := ⟨by omega, by omega⟩
    have hundreds := toInt_hundreds selects.1
    rw [decode_of_selects selects, (decodeModes_eq_ok_iff (by omega)).mpr ⟨length, rest, by omega⟩]
    rfl

theorem decode_eq_error_iff : decode word = .error fault ↔ Refused word fault := by
  by_cases selected : ∃ opcode, Selects word.toInt opcode
  · obtain ⟨opcode, selects⟩ := selected
    have natural := selects.1
    have hundreds := toInt_hundreds selects.1
    have moded : decode word = .error fault ↔
        decodeModes word opcode.arity (word / 100) = .error fault := by
      rw [decode_of_selects selects]
      cases decodeModes word opcode.arity (word / 100) <;> simp [Except.map]
    simp only [moded, decodeModes_eq_error_iff (by omega : 0 ≤ (word / 100).toInt), hundreds,
      digitAt_hundreds]
    constructor
    · rintro ⟨i, inside, digit, value, exceeds, leftmost, rfl⟩
      exact .unmoded selects inside value exceeds leftmost
    · rintro (⟨none, -⟩ | ⟨again, inside, value, exceeds, leftmost⟩)
      · exact absurd selects (none opcode)
      · cases selects.unique again
        exact ⟨_, inside, _, value, exceeds, leftmost, rfl⟩
  · have none := not_exists.mp selected
    have selector : (word % 100).toInt = word.toInt.tmod 100 := Int64.toInt_mod word 100
    rw [decode_of_not_selects none]
    constructor
    · intro failed
      cases failed
      exact .unselected none selector
    · rintro (⟨-, value⟩ | ⟨selects, -⟩)
      · rw [Int64.toInt_inj.mp (value.trans selector.symm)]
      · exact absurd selects (none _)

/-- An encoding has as many digits as there are modes, and two for the opcode. -/
theorem encode_bounds (opcode : Opcode) (modes : List Mode) :
    0 ≤ encode opcode modes ∧ encode opcode modes < 10 ^ (modes.length + 2) := by
  have selector := selector_bounds opcode
  have nonneg := encodeModes_nonneg modes
  have below := encodeModes_lt modes
  rw [Int.pow_succ, Int.pow_succ, encode]
  omega

/-- Every opcode with modes for its parameters has an encoding among the words. -/
theorem toInt_encode (length : modes.length = opcode.arity) :
    (Int64.ofInt (encode opcode modes)).toInt = encode opcode modes := by
  obtain ⟨natural, below⟩ := encode_bounds opcode modes
  have few : modes.length + 2 ≤ 5 := by
    have most := opcode.arity_le
    rw [Opcode.maxParams] at most
    omega
  have small : (10 : Int) ^ (modes.length + 2) ≤ 10 ^ 5 := by
    exact_mod_cast Nat.pow_le_pow_right (by decide : 0 < 10) few
  exact Int64.toInt_ofInt_of_le (by omega) (by omega)

theorem decode_encode (length : modes.length = opcode.arity) :
    decode (Int64.ofInt (encode opcode modes)) =
      .ok ⟨opcode, Int64.ofInt (encode opcode modes), modes⟩ := by
  refine decode_eq_ok_iff.mpr ⟨rfl, length, 0, ?_⟩
  rw [toInt_encode length]
  simp

/-- Digits above those of the modes do not count. -/
theorem decode_eq_of_emod_eq {instr : Instruction} {other : Word} (decoded : decode word = .ok instr)
    (natural : 0 ≤ other.toInt)
    (same : other.toInt % 10 ^ (instr.opcode.arity + 2) =
      word.toInt % 10 ^ (instr.opcode.arity + 2)) :
    decode other = .ok { instr with word := other } := by
  obtain ⟨-, length, rest, value⟩ := decode_eq_ok_iff.mp decoded
  have encoded := encode_bounds instr.opcode instr.modes
  rw [length] at encoded
  rw [value, Int.add_mul_emod_self_left, Int.emod_eq_of_lt encoded.1 encoded.2] at same
  have above : 0 ≤ other.toInt / 10 ^ (instr.opcode.arity + 2) :=
    Int.ediv_nonneg natural (Int.pow_nonneg (by decide))
  refine decode_eq_ok_iff.mpr ⟨rfl, length,
    (other.toInt / 10 ^ (instr.opcode.arity + 2)).toNat, ?_⟩
  rw [Int.toNat_of_nonneg above, ← same, Int.emod_add_mul_ediv]

/-- The modes stand in the digits from a place on. -/
theorem sum_mapIdx_digit (modes : List Mode) (place : Nat) :
    (modes.mapIdx fun i mode => (10 : Int) ^ (i + place) * mode.digit.toInt).sum =
      10 ^ place * encodeModes modes := by
  induction modes generalizing place with
  | nil => simp [encodeModes]
  | cons mode modes ih =>
    have shifted := ih (place + 1)
    simp only [← Nat.add_assoc, Nat.add_right_comm _ place 1] at shifted
    rw [List.mapIdx_cons, List.sum_cons, shifted, encodeModes, Nat.zero_add, Int.pow_succ,
      Int.mul_add, Int.mul_assoc]

theorem encode_eq_sum (opcode : Opcode) (modes : List Mode) :
    encode opcode modes = opcode.selector.toInt +
      (modes.mapIdx fun i mode => (10 : Int) ^ (i + 2) * mode.digit.toInt).sum := by
  rw [sum_mapIdx_digit, encode]
  rfl

theorem mode_eq_position {instr : Instruction} (decoded : decode word = .ok instr) {i : Nat}
    (beyond : instr.opcode.arity ≤ i) : instr.mode i = .position := by
  obtain ⟨-, length, -⟩ := decode_eq_ok_iff.mp decoded
  rw [mode, List.getD_eq_getElem?_getD, List.getElem?_eq_none (by omega)]
  rfl

/-- A machine reports why it refuses a word with its program counter. -/
theorem execute_of_refused {m : Machine} {paid : Budget} (charged : m.budget.charge = .ok paid)
    (fetched : m.memory.get m.pc.toInt64 = .ok word) (refused : Refused word fault) :
    m.execute.1 = .error ⟨fault, m.pc⟩ := by
  have faulty : m.next = .error fault := by
    simp only [Machine.next, fetched, decode_eq_error_iff.mpr refused]
  rw [Machine.execute_faulty charged faulty]
  rfl

/-- A word is decoded exactly if its lowest digits encode an instruction, whatever digits stand above
them. Any other word is refused for its opcode, or else for the leftmost mode that is none. -/
theorem decode_inverts_encode (word : Word) :
    (∀ opcode modes, encode opcode modes = opcode.selector.toInt +
      (modes.mapIdx fun i mode => (10 : Int) ^ (i + 2) * mode.digit.toInt).sum) ∧
    (∀ instr, decode word = .ok instr ↔
      instr.word = word ∧ instr.modes.length = instr.opcode.arity ∧
        ∃ rest : Nat, word.toInt =
          encode instr.opcode instr.modes + 10 ^ (instr.opcode.arity + 2) * rest) ∧
    (∀ instr, decode word = .ok instr →
      ∀ i, instr.opcode.arity ≤ i → instr.mode i = .position) ∧
    (∀ fault, decode word = .error fault ↔ Refused word fault) ∧
    (∀ (m : Machine) paid fault, m.budget.charge = .ok paid →
      m.memory.get m.pc.toInt64 = .ok word → Refused word fault →
        m.execute.1 = .error ⟨fault, m.pc⟩) ∧
    (∀ opcode modes, modes.length = opcode.arity →
      decode (Int64.ofInt (encode opcode modes)) =
        .ok ⟨opcode, Int64.ofInt (encode opcode modes), modes⟩) ∧
    ∀ instr, decode word = .ok instr → ∀ other : Word, 0 ≤ other.toInt →
      other.toInt % 10 ^ (instr.opcode.arity + 2) = word.toInt % 10 ^ (instr.opcode.arity + 2) →
        decode other = .ok { instr with word := other } :=
  ⟨encode_eq_sum, fun _ => decode_eq_ok_iff, fun _ decoded _ => mode_eq_position decoded,
    fun _ => decode_eq_error_iff, fun _ _ _ => execute_of_refused, fun _ _ => decode_encode,
    fun _ decoded _ => decode_eq_of_emod_eq decoded⟩

theorem decode_inverts_encode_comparing :
    decode 90021107 = .ok ⟨.lessThan, 90021107, [.immediate, .immediate, .relative]⟩ ∧
      decode 90021307 = .error (.invalidMode 3 90021307) ∧
      decode (-21107) = .error (.unknownOpcode (-7) (-21107)) := by
  obtain ⟨-, reads, -⟩ := decode_inverts_encode 90021107
  obtain ⟨-, -, -, unmoded, -⟩ := decode_inverts_encode 90021307
  obtain ⟨-, -, -, unselected, -⟩ := decode_inverts_encode (-21107)
  refine ⟨(reads _).mpr ⟨rfl, rfl, 900, by decide⟩, (unmoded _).mpr ?_, (unselected _).mpr ?_⟩
  · have selects : Selects (90021307 : Word).toInt .lessThan := by decide +kernel
    exact .unmoded (i := 0) selects (by decide) (by decide) (by decide) nofun
  · refine .unselected (fun opcode selects => ?_) (by decide)
    exact absurd selects.1 (by decide)

end Instruction

end Intcode
