import Intcode.Opcode

/-!
# Execution profiles

How often each opcode was executed.

Counts are natural numbers, as the payments of the budget are. Counters of 64 bits that stop at the
greatest value agree with them below `2 ^ 64`, and such counts are meant.
-/

namespace Intcode

/-- The place of an opcode in the order of the definition. -/
def Opcode.slot : Opcode → Fin 10
  | .add => 0
  | .mul => 1
  | .input => 2
  | .output => 3
  | .jumpIfTrue => 4
  | .jumpIfFalse => 5
  | .lessThan => 6
  | .equals => 7
  | .adjustBase => 8
  | .halt => 9

theorem Opcode.slot_injective {a b : Opcode} (h : a.slot = b.slot) : a = b := by
  revert h
  cases a <;> cases b <;> decide

structure Profile where
  counts : Vector Nat 10 := Vector.replicate 10 0
deriving DecidableEq, Repr

namespace Profile

def count (p : Profile) (opcode : Opcode) : Nat :=
  p.counts[opcode.slot]

/-- Counts one execution of an opcode. -/
def record (p : Profile) (opcode : Opcode) : Profile :=
  ⟨p.counts.set opcode.slot (p.count opcode + 1) opcode.slot.isLt⟩

def total (p : Profile) : Nat :=
  Opcode.all.foldl (fun sum opcode => sum + p.count opcode) 0

/-- The opcodes that were executed at all, in the order of the definition. -/
def entries (p : Profile) : List (Opcode × Nat) :=
  (Opcode.all.map fun opcode => (opcode, p.count opcode)).filter fun entry => 0 < entry.2

theorem count_record (p : Profile) (opcode other : Opcode) :
    (p.record opcode).count other = p.count other + if other = opcode then 1 else 0 := by
  unfold record count
  by_cases same : other = opcode
  · subst same
    simp
  · have apart : (opcode.slot : Nat) ≠ other.slot := fun h =>
      same (Opcode.slot_injective (Fin.ext h.symm))
    simp [same, apart]

theorem total_record (p : Profile) (opcode : Opcode) :
    (p.record opcode).total = p.total + 1 := by
  cases opcode <;> simp [total, Opcode.all, count_record] <;> omega

end Profile

end Intcode
