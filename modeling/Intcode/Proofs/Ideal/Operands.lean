import Intcode.Proofs.Ideal.Decoding

/-!
# Operands of the ideal machine

As long as the cells of an instruction lie within reach of the program counter, resolving its
parameters from left to right gives the values and the address that the ideal machine reads, and
fails with the first fault that it lists for them.
-/

namespace Intcode

namespace Operand

variable {o : Operand} {memory : Memory} {base word : Word}

theorem value_of_unaddressed (mediate : o.mode ≠ .immediate) {fault : Fault}
    (failed : o.address base word = .error fault) : o.value memory base word = .error fault := by
  cases mode : o.mode with
  | immediate => exact absurd mode mediate
  | position | relative => simp only [value, mode, failed]

theorem value_of_addressed (mediate : o.mode ≠ .immediate) {a : Word}
    (found : o.address base word = .ok a) :
    o.value memory base word = (memory.get a).mapError .memory := by
  cases mode : o.mode with
  | immediate => exact absurd mode mediate
  | position | relative => simp only [value, mode, found]

end Operand

namespace Ideal

theorem fits_iff {n : Int} : Fits n ↔ (Word.ofInt? n).isSome := by
  rw [Word.ofInt?, Fits]
  have least : Int64.minValue.toInt = -2 ^ 63 := by decide
  have greatest : Int64.maxValue.toInt = 2 ^ 63 - 1 := by decide
  split
  · next range => simp only [Option.isSome_some, iff_true]; omega
  · next range => simp only [Option.isSome_none, Bool.false_eq_true, iff_false]; omega

theorem ofInt?_of_fits {n : Int} (fits : Fits n) :
    ∃ w, Word.ofInt? n = some w ∧ w.toInt = n := by
  obtain ⟨w, exact⟩ := Option.isSome_iff_exists.mp (fits_iff.mp fits)
  exact ⟨w, exact, (Word.ofInt?_eq_some_iff n w).mp exact⟩

theorem ofInt?_of_not_fits {n : Int} (beyond : ¬ Fits n) : Word.ofInt? n = none := by
  rw [fits_iff] at beyond
  exact Option.not_isSome_iff_eq_none.mp beyond

/-- Memory and registers of a machine are those of the ideal one. -/
structure Mirrors (memory : Memory) (regs : Registers) (r : Ideal) : Prop where
  cells : ∀ index, (memory.cell index).toInt = r.memory index
  pc : regs.pc.toNat = r.pc
  base : regs.base.toInt = r.base

/-- The values that some parameters stand for, the first of them at an index. -/
def reads (r : Ideal) : List Param → Nat → List Int
  | [], _ => []
  | .read :: params, i => r.value i :: r.reads params (i + 1)
  | .write :: params, i => r.reads params (i + 1)

/-- The address that the last write parameter denotes. -/
def writesTo (r : Ideal) : List Param → Nat → Int → Int
  | [], _, address => address
  | .read :: params, i, address => r.writesTo params (i + 1) address
  | .write :: params, i, _ => r.writesTo params (i + 1) (r.address i)

variable {r : Ideal} {memory : Memory} {regs : Registers}

theorem natural_heeds (a : Word) :
    Heeds (fun address => address = a ∧ 0 ≤ a.toInt) (negativeFaults a.toInt)
      (Operand.natural a) := by
  rw [negativeFaults, Operand.natural, Int64.ofInt_toInt]
  by_cases negative : a.toInt < 0
  · rw [if_pos negative, if_pos (Word.lt_zero_iff.mpr negative)]
    exact .error
  · rw [if_neg negative, if_neg (mt Word.lt_zero_iff.mp negative)]
    exact .ok ⟨rfl, by omega⟩

/-- A parameter that has to denote an address. -/
theorem address_heeds (mirrors : r.Mirrors memory regs) {o : Operand} {i : Nat}
    (moded : r.mode? i = some o.mode) (raw : o.raw.toInt = r.raw i) :
    Heeds (fun address => address.toInt = r.address i ∧ 0 ≤ r.address i) (r.addressFaults i)
      (o.address regs.base r.named) := by
  rw [addressFaults, Operand.address, moded]
  cases mode : o.mode with
  | position =>
    have same : r.address i = o.raw.toInt := by
      rw [address, moded, mode, if_neg (by decide), raw]
    simp only [same]
    exact (natural_heeds o.raw).mono fun a fine => by rw [fine.1]; exact ⟨rfl, fine.2⟩
  | immediate => exact .error
  | relative =>
    have sum : r.address i = regs.base.toInt + o.raw.toInt := by
      rw [address, moded, mode, if_pos rfl, raw, mirrors.base]
    simp only [sum, Word.add?]
    by_cases fits : Fits (regs.base.toInt + o.raw.toInt)
    · obtain ⟨a, exact, same⟩ := ofInt?_of_fits fits
      rw [if_pos fits, exact, ← same]
      exact (natural_heeds a).mono fun a fine => by rw [fine.1]; exact ⟨rfl, fine.2⟩
    · rw [if_neg fits, ofInt?_of_not_fits fits]
      exact .error

/-- A parameter that has to denote a value, which it does without an address in immediate mode. -/
theorem value_heeds (mirrors : r.Mirrors memory regs) {o : Operand} {i : Nat}
    (moded : r.mode? i = some o.mode) (raw : o.raw.toInt = r.raw i) :
    Heeds (fun value => value.toInt = r.value i) (r.paramFaults i .read)
      (o.value memory regs.base r.named) := by
  have addressed := address_heeds mirrors moded raw
  rw [paramFaults, moded]
  by_cases immediate : o.mode = .immediate
  · rw [if_pos (by rw [immediate])]
    simp only [Operand.value, immediate]
    refine .ok ?_
    rw [value, moded, immediate, if_pos rfl, raw]
  · have unread : r.mode? i ≠ some .immediate := by
      rw [moded]
      simpa using immediate
    rw [if_neg (by simpa using immediate)]
    refine addressed.map (fun fault failed => Operand.value_of_unaddressed immediate failed) ?_
    intro a denoted ⟨same, natural⟩
    refine ⟨memory.cell a.toInt.toNat, ?_, ?_⟩
    · rw [Operand.value_of_addressed immediate denoted, memory.get_of_nonneg (same ▸ natural)]
      rfl
    · rw [mirrors.cells, same, value, if_neg unread]

/-- The cell of a parameter that the program counter can reach. -/
theorem get_paramAddress (mirrors : r.Mirrors memory regs) {i : Nat}
    (near : r.pc + 1 + i < 2 ^ 63) :
    memory.get (regs.paramAddress i.toUInt64).toInt64 = .ok (memory.cell (r.pc + 1 + i)) := by
  have pc := mirrors.pc
  have reached : (regs.paramAddress i.toUInt64).toNat = r.pc + 1 + i := by
    rw [Registers.toNat_paramAddress _ (by omega), pc]
  rw [memory.get_toInt64 (by omega), reached]

/-- What resolving some parameters makes of operands, the first of the parameters at an index. -/
structure Resolves (r : Ideal) (params : List Param) (i : Nat) (before after : Operands) :
    Prop where
  values : after.values.map Int64.toInt = before.values.map Int64.toInt ++ r.reads params i
  dest : after.dest.toInt = r.writesTo params i before.dest.toInt
  natural : 0 ≤ before.dest.toInt → 0 ≤ after.dest.toInt

theorem resolveFrom_heeds (mirrors : r.Mirrors memory regs) {instr : Instruction}
    (named : instr.word = r.named) (params : List Param) {i : Nat}
    (moded : ∀ k, i ≤ k → k < i + params.length → r.mode? k = some (instr.mode k))
    (near : r.pc + i + params.length < 2 ^ 63) (ops : Operands) :
    Heeds (r.Resolves params i ops)
      ((params.zipIdx i).flatMap fun (param, i) => r.paramFaults i param)
      (Operands.resolveFrom instr memory regs params i ops) := by
  induction params generalizing i ops with
  | nil => exact .ok ⟨by simp [reads], rfl, id⟩
  | cons param params ih =>
    rw [List.length_cons] at moded near
    have here : r.mode? i = some (instr.mode i) := moded i (Nat.le_refl i) (by omega)
    have raw : (memory.cell (r.pc + 1 + i)).toInt = r.raw i := mirrors.cells _
    have rest := ih (i := i + 1) (fun k above below => moded k (by omega) (by omega)) (by omega)
    rw [List.zipIdx_cons, List.flatMap_cons, Operands.resolveFrom,
      get_paramAddress mirrors (by omega), named]
    cases param with
    | read =>
      refine (value_heeds mirrors (o := ⟨instr.mode i, memory.cell (r.pc + 1 + i)⟩) here raw).bind
        (fun fault failed => by simp only [failed]) ?_
      intro value found same
      simp only [found]
      refine (rest { ops with values := ops.values ++ [value] }).mono fun after resolves =>
        ⟨?_, resolves.dest, resolves.natural⟩
      rw [resolves.values, reads, List.map_append, List.append_assoc]
      simp [same]
    | write =>
      refine (address_heeds mirrors (o := ⟨instr.mode i, memory.cell (r.pc + 1 + i)⟩) here raw).bind
        (fun fault failed => by simp only [failed]) ?_
      intro address found ⟨same, natural⟩
      simp only [found]
      refine (rest { ops with dest := address }).mono fun after resolves =>
        ⟨resolves.values, ?_, ?_⟩
      · rw [resolves.dest, writesTo, same]
      · exact fun _ => resolves.natural (same ▸ natural)

/-- The operands of the instruction that the ideal machine is at. -/
structure Holds (r : Ideal) (opcode : Opcode) (ops : Operands) : Prop where
  values : ops.values.map Int64.toInt = r.reads opcode.params 0
  dest : ops.dest.toInt = r.writesTo opcode.params 0 0
  natural : 0 ≤ ops.dest.toInt

theorem resolve_heeds (mirrors : r.Mirrors memory regs) {opcode : Opcode} {instr : Instruction}
    (decodes : r.Decodes opcode instr) (near : r.pc + Opcode.maxParams < 2 ^ 63) :
    Heeds (r.Holds opcode) (r.operandFaults opcode) (Operands.resolve instr memory regs) := by
  have arity := opcode.arity_le
  rw [Operands.resolve, decodes.selected]
  refine (resolveFrom_heeds mirrors decodes.named opcode.params (i := 0) ?_ ?_ {}).mono ?_
  · intro k _ inside
    exact decodes.moded k (by rw [Nat.zero_add] at inside; exact inside)
  · have length : opcode.params.length = opcode.arity := rfl
    omega
  · intro ops resolves
    refine ⟨?_, ?_, resolves.natural (by decide)⟩
    · rw [resolves.values]
      rfl
    · rw [resolves.dest]
      rfl

end Ideal

end Intcode
