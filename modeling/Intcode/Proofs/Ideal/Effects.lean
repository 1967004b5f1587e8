import Intcode.Proofs.Ideal.Operands

/-!
# Effects on the ideal machine

The effect of an instruction brings about what the ideal machine does with its opcode. Evaluating
an instruction that is decoded and whose operands are resolved can only fail for an exact result
that no word holds.
-/

namespace Intcode

namespace Word

theorem toInt_ofFlag_lt (a b : Word) :
    (ofFlag (a < b)).toInt = if a.toInt < b.toInt then 1 else 0 := by
  by_cases less : a.toInt < b.toInt
  · rw [if_pos less, ofFlag, if_pos (decide_eq_true (Int64.lt_iff_toInt_lt.mpr less))]
    rfl
  · rw [if_neg less, ofFlag, if_neg (by simpa [Int64.lt_iff_toInt_lt] using less)]
    rfl

theorem beq_eq_decide (a b : Word) : (a == b) = decide (a.toInt = b.toInt) := by
  rw [Bool.eq_iff_iff, beq_iff_eq, decide_eq_true_iff, Int64.toInt_inj]

theorem toInt_ofFlag_beq (a b : Word) :
    (ofFlag (a == b)).toInt = if a.toInt = b.toInt then 1 else 0 := by
  rw [beq_eq_decide, ofFlag]
  by_cases same : a.toInt = b.toInt
  · rw [if_pos same, if_pos (decide_eq_true same)]
    rfl
  · rw [if_neg same, if_neg (by simpa using same)]
    rfl

end Word

namespace Ideal

variable {r : Ideal}

/-- The effect brings about what the ideal machine does with the opcode. -/
inductive Means (r : Ideal) (opcode : Opcode) : Effect → Prop where
  | write {address value : Word} (stores : r.destination? opcode = some (r.address 2))
      (stays : r.target? opcode = none) (dest : address.toInt = r.address 2)
      (natural : 0 ≤ address.toInt)
      (steps : r.perform opcode = (none, (r.store 2 value.toInt).advance opcode.width)) :
      Means r opcode (.write address value)
  | jump {target : Word} (unstored : r.destination? opcode = none)
      (goes : r.target? opcode = some target.toInt)
      (steps : r.perform opcode = (none, { r with pc := target.toInt.toNat })) :
      Means r opcode (.jump target)
  | proceed (unstored : r.destination? opcode = none) (stays : r.target? opcode = none)
      (steps : r.perform opcode = (none, r.advance opcode.width)) : Means r opcode .proceed
  | rebase {base : Word} (unstored : r.destination? opcode = none)
      (stays : r.target? opcode = none)
      (steps : r.perform opcode = (none, { r with base := base.toInt }.advance opcode.width)) :
      Means r opcode (.rebase base)
  | input {address : Word} (selected : opcode = .input) (dest : address.toInt = r.address 0)
      (natural : 0 ≤ address.toInt) : Means r opcode (.input address)
  | output {value : Word} (unstored : r.destination? opcode = none)
      (stays : r.target? opcode = none)
      (steps : r.perform opcode = (some (.output value.toInt), r.advance opcode.width)) :
      Means r opcode (.output value)
  | halt (unstored : r.destination? opcode = none) (stays : r.target? opcode = none)
      (steps : r.perform opcode = (some .halted, { r with halted := true })) : Means r opcode .halt

theorem Holds.value {opcode : Opcode} {ops : Operands} (holds : r.Holds opcode ops) (i : Nat) :
    (ops.value i).toInt = (r.reads opcode.params 0).getD i 0 := by
  rw [← holds.values, Operands.value, List.getD_eq_getElem?_getD, List.getD_eq_getElem?_getD,
    List.getElem?_map]
  cases ops.values[i]? <;> rfl

/-- Arithmetic whose exact result is no word fails. -/
theorem store_heeds (n : Int) (word dest : Word) :
    Heeds (fun effect => ∃ value : Word, effect = .write dest value ∧ value.toInt = n)
      (if Fits n then [] else [.arithmeticOverflow word])
      (Effect.store word dest (Word.ofInt? n)) := by
  by_cases fits : Fits n
  · obtain ⟨value, exact, same⟩ := ofInt?_of_fits fits
    rw [if_pos fits, exact]
    exact .ok ⟨value, rfl, same⟩
  · rw [if_neg fits, ofInt?_of_not_fits fits]
    exact .error

theorem branch_means {opcode : Opcode} {target : Word} {taken : Bool}
    (width : opcode.width = 3) (unstored : r.destination? opcode = none)
    (same : target.toInt = r.value 1)
    (goes : r.target? opcode = if taken then some (r.value 1) else none)
    (steps : r.perform opcode = (none, r.branch taken)) :
    r.Means opcode (Effect.branch taken target) := by
  cases taken with
  | true => exact .jump unstored (by rw [goes, same]; rfl) (by rw [steps, branch, same]; rfl)
  | false => exact .proceed unstored goes (by rw [steps, branch, width]; rfl)

/-- Evaluating its opcode gives the effect of the instruction. -/
theorem evaluate_heeds {opcode : Opcode} {instr : Instruction} (decodes : r.Decodes opcode instr)
    {ops : Operands} (holds : r.Holds opcode ops) {base : Word} (based : base.toInt = r.base) :
    Heeds (r.Means opcode) (r.overflowFaults opcode) (Effect.evaluate instr ops base) := by
  have dest := holds.dest
  have natural := holds.natural
  have first := holds.value 0
  have second := holds.value 1
  rw [Effect.evaluate, decodes.selected, decodes.named]
  cases opcode with
  | add =>
    simp only [Word.add?, first, second]
    refine (store_heeds _ _ _).mono ?_
    rintro _ ⟨value, rfl, same⟩
    exact .write rfl rfl dest natural (by rw [same]; rfl)
  | mul =>
    simp only [Word.mul?, first, second]
    refine (store_heeds _ _ _).mono ?_
    rintro _ ⟨value, rfl, same⟩
    exact .write rfl rfl dest natural (by rw [same]; rfl)
  | input => exact .ok (.input rfl dest natural)
  | output => exact .ok (.output rfl rfl (by rw [first]; rfl))
  | jumpIfTrue =>
    have taken : (ops.value 0 != 0) = decide (r.value 0 ≠ 0) := by
      rw [bne, Word.beq_eq_decide, first, ← decide_not]
      rfl
    rw [taken]
    refine .ok (branch_means rfl rfl second ?_ rfl)
    simp only [target?, decide_eq_true_eq]
  | jumpIfFalse =>
    have taken : (ops.value 0 == 0) = decide (r.value 0 = 0) := by
      rw [Word.beq_eq_decide, first]
      rfl
    rw [taken]
    refine .ok (branch_means rfl rfl second ?_ rfl)
    simp only [target?, decide_eq_true_eq]
  | lessThan =>
    refine .ok (.write rfl rfl dest natural ?_)
    rw [Word.toInt_ofFlag_lt, first, second]
    rfl
  | equals =>
    refine .ok (.write rfl rfl dest natural ?_)
    rw [Word.toInt_ofFlag_beq, first, second]
    rfl
  | adjustBase =>
    have sum : Word.add? base (ops.value 0) = Word.ofInt? (r.base + r.value 0) := by
      rw [Word.add?, based, first]
      rfl
    simp only [sum, overflowFaults, unbounded?]
    by_cases fits : Fits (r.base + r.value 0)
    · obtain ⟨moved, exact, same⟩ := ofInt?_of_fits fits
      simp only [exact, if_pos fits]
      exact .ok (.rebase rfl rfl (by rw [same]; rfl))
    · simp only [ofInt?_of_not_fits fits, if_neg fits]
      exact .error
  | halt => exact .ok (.halt rfl rfl rfl)

end Ideal

end Intcode
