import Intcode.Pipeline.Phases
import Mathlib.Algebra.Group.Int.Defs

/-!
# Candidates

The words of a range are all those between its ends, each once, and as many as its size. Candidates
that are accepted have one for each stage.
-/

namespace Intcode

namespace WordRange

theorem toInt_add_one {w : Word} (below : w.toInt + 1 < 2 ^ 63) : (w + 1).toInt = w.toInt + 1 := by
  have low := w.le_toInt
  have exact : w + 1 = Int64.ofInt (w.toInt + 1) := by
    rw [Int64.ofInt_add, Int64.ofInt_toInt]
    rfl
  rw [exact, Int64.toInt_ofInt_of_le (by omega) (by omega)]

theorem length_ascending (count : Nat) (w : Word) : (ascending count w).length = count := by
  induction count generalizing w with
  | zero => rfl
  | succ count ih => rw [ascending, List.length_cons, ih]

theorem mem_ascending {count : Nat} {w : Word} (fits : w.toInt + count ≤ 2 ^ 63) (v : Word) :
    v ∈ ascending count w ↔ w.toInt ≤ v.toInt ∧ v.toInt < w.toInt + count := by
  induction count generalizing w with
  | zero =>
    simp only [ascending, List.not_mem_nil, false_iff]
    omega
  | succ count ih =>
    rw [ascending, List.mem_cons, ← Int64.toInt_inj]
    rcases Nat.eq_zero_or_pos count with rfl | more
    · simp only [ascending, List.not_mem_nil, or_false]
      omega
    · have next := toInt_add_one (w := w) (by omega)
      rw [ih (by omega), next]
      omega

theorem pairwise_ascending {count : Nat} {w : Word} (fits : w.toInt + count ≤ 2 ^ 63) :
    (ascending count w).Pairwise (· < ·) := by
  induction count generalizing w with
  | zero => exact .nil
  | succ count ih =>
    rw [ascending, List.pairwise_cons]
    rcases Nat.eq_zero_or_pos count with rfl | more
    · exact ⟨List.forall_mem_nil _, .nil⟩
    · have next := toInt_add_one (w := w) (by omega)
      have rest : (w + 1).toInt + count ≤ 2 ^ 63 := by omega
      refine ⟨fun v inside => ?_, ih rest⟩
      rw [mem_ascending rest] at inside
      rw [Int64.lt_iff_toInt_lt]
      omega

variable {r : WordRange}

theorem fits_size (nonempty : r.size ≠ 0) : r.lo.toInt + r.size ≤ 2 ^ 63 := by
  have high := r.hi.toInt_lt
  rw [size] at nonempty ⊢
  omega

theorem length_values (r : WordRange) : r.values.length = r.size :=
  length_ascending _ _

theorem pairwise_values (r : WordRange) : r.values.Pairwise (· < ·) := by
  by_cases empty : r.size = 0
  · rw [values, empty]
    exact .nil
  · exact pairwise_ascending (fits_size empty)

theorem nodup_values (r : WordRange) : r.values.Nodup :=
  r.pairwise_values.imp Int64.ne_of_lt

theorem mem_values (v : Word) : v ∈ r.values ↔ r.lo ≤ v ∧ v ≤ r.hi := by
  rw [Int64.le_iff_toInt_le, Int64.le_iff_toInt_le]
  by_cases empty : r.size = 0
  · rw [values, empty, ascending]
    rw [size] at empty
    simp only [List.not_mem_nil, false_iff]
    omega
  · rw [values, mem_ascending (fits_size empty)]
    rw [size] at empty ⊢
    omega

theorem contains_iff {w : Word} : r.contains w = true ↔ r.lo ≤ w ∧ w ≤ r.hi := by
  simp [contains]

end WordRange

theorem Pipeline.size_of_checkCandidates {p : Pipeline} {candidates : WordRange}
    (accepted : p.checkCandidates candidates = .ok ()) :
    0 < p.stages ∧ candidates.size = p.stages := by
  rw [checkCandidates] at accepted
  split at accepted
  · cases accepted
  · next some_stage =>
    split at accepted
    · cases accepted
    · next same => exact ⟨by omega, Decidable.not_not.mp same⟩

end Intcode
