/-!
# Machine words

Cells, addresses, signals and phases are signed 64-bit words. Arithmetic on them is exact: a sum
or product outside the range is no word at all, never a wrapped one.
-/

namespace Intcode

abbrev Word := Int64

namespace Word

/-- The word with value `n`, when 64 bits hold it. -/
def ofInt? (n : Int) : Option Word :=
  if Int64.minValue.toInt ≤ n ∧ n ≤ Int64.maxValue.toInt then some (Int64.ofInt n) else none

def add? (a b : Word) : Option Word :=
  ofInt? (a.toInt + b.toInt)

def mul? (a b : Word) : Option Word :=
  ofInt? (a.toInt * b.toInt)

/-- The flag a comparison stores: one when it holds, else zero. -/
def ofFlag (holds : Bool) : Word :=
  if holds then 1 else 0

def render (w : Word) : String :=
  toString w.toInt

theorem ofInt?_eq_some_iff (n : Int) (w : Word) : ofInt? n = some w ↔ w.toInt = n := by
  rw [ofInt?]
  have low := w.le_toInt
  have high := w.toInt_le
  have least : Int64.minValue.toInt = -2 ^ 63 := by decide
  have greatest : Int64.maxValue.toInt = 2 ^ 63 - 1 := by decide
  constructor
  · intro h
    split at h
    · next range =>
      cases h
      exact Int64.toInt_ofInt_of_le (by omega) (by omega)
    · cases h
  · intro h
    subst h
    rw [if_pos ⟨by omega, by omega⟩, Int64.ofInt_toInt]

theorem add?_eq_some_iff (a b w : Word) : add? a b = some w ↔ w.toInt = a.toInt + b.toInt :=
  ofInt?_eq_some_iff _ w

theorem mul?_eq_some_iff (a b w : Word) : mul? a b = some w ↔ w.toInt = a.toInt * b.toInt :=
  ofInt?_eq_some_iff _ w

/-- Read as a word, an index below the sign bit is itself. -/
theorem toInt_of_toNat_lt {n : UInt64} (low : n.toNat < 0x8000000000000000) :
    n.toInt64.toInt = n.toNat := by
  have bits : n.toInt64.toBitVec = n.toBitVec := rfl
  have natural : 2 * n.toBitVec.toNat < UInt64.size := by
    rw [UInt64.toNat_toBitVec]
    exact Nat.mul_lt_mul_of_pos_left low Nat.two_pos
  rw [← Int64.toInt_toBitVec, bits, BitVec.toInt_eq_toNat_of_lt natural, UInt64.toNat_toBitVec]

/-- An index that is no negative number as a word is itself. -/
theorem toInt_of_nonneg {n : UInt64} (nonneg : 0 ≤ n.toInt64.toInt) :
    n.toInt64.toInt = n.toNat := by
  have bits : n.toInt64.toInt = n.toBitVec.toInt := rfl
  have value := BitVec.toInt_eq_toNat_cond n.toBitVec
  have high := n.toNat_lt
  rw [UInt64.toNat_toBitVec] at value
  split at value <;> omega

theorem lt_zero_iff {w : Word} : w < 0 ↔ w.toInt < 0 :=
  Int64.lt_iff_toInt_lt

/-- The remainder of a natural number is that of the integers. -/
theorem toInt_mod_of_nonneg {w : Word} (nonneg : 0 ≤ w.toInt) (n : Word) :
    (w % n).toInt = w.toInt % n.toInt := by
  rw [Int64.toInt_mod, Int.tmod_eq_emod_of_nonneg nonneg]

theorem toInt_div_of_nonneg {w n : Word} (nonneg : 0 ≤ w.toInt) (other : n ≠ -1) :
    (w / n).toInt = w.toInt / n.toInt := by
  rw [Int64.toInt_div_of_ne_right _ _ other, Int.tdiv_eq_ediv_of_nonneg nonneg]

end Word

end Intcode
