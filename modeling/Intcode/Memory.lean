import Intcode.Word

/-!
# The memory of a machine

A store of words addressed from zero that only ever grows. Reading beyond its end gives zero and
leaves it alone; storing beyond its end fills the gap with zeros. A store that would need more
cells than can be allocated fails and changes nothing.

What can be allocated is taken to depend on the size in bytes alone. A system may also refuse a
smaller request because it has no room left; this is assumed never to happen, and all statements
about stores are made for a system that grants every request up to the limit.
-/

namespace Intcode

inductive MemoryError where
  | negativeAddress (address : Word)
  | outOfMemory (address : Word)
deriving DecidableEq, Repr

namespace MemoryError

def message : MemoryError → String
  | negativeAddress address => s!"negative address {address.render}"
  | outOfMemory address => s!"cannot grow memory to address {address.render}"

end MemoryError

structure Memory where
  cells : Array Word := #[]
deriving DecidableEq, Repr

namespace Memory

/-- The most cells that can be allocated: their size in bytes, eight a cell, is below `2 ^ 63`. No
request up to it is refused, by assumption. -/
def capacity : Nat := 1 <<< 60 - 1

def size (m : Memory) : Nat :=
  m.cells.size

def isEmpty (m : Memory) : Bool :=
  m.cells.isEmpty

/-- The value at an index: zero where nothing is stored. -/
def cell (m : Memory) (index : Nat) : Word :=
  m.cells.getD index 0

/-- The cell at an index, only if it is stored. -/
def stored? (m : Memory) (index : Nat) : Option Word :=
  m.cells[index]?

def indexOf (address : Word) : Except MemoryError Nat :=
  if address < 0 then .error (.negativeAddress address) else .ok address.toNatClampNeg

def get (m : Memory) (address : Word) : Except MemoryError Word :=
  match indexOf address with
  | .error e => .error e
  | .ok index => .ok (m.cell index)

/-- How many cells growing to an index adds: the gap before it and the cell itself. The count stops
at the greatest size that there is. -/
def growth (m : Memory) (index : Nat) : Nat :=
  min (index - m.size + 1) (1 <<< 64 - 1)

/-- Adds zeros up to an index, the cell at the index included. -/
def grow (m : Memory) (index : Nat) : Memory :=
  ⟨m.cells ++ Array.replicate (m.growth index) 0⟩

/-- Whether the store has the cell at an index or can grow to it. Growing fails only at `capacity`:
that the system has no room left for fewer cells is assumed not to happen. -/
def admits (m : Memory) (index : Nat) : Bool :=
  index < m.size || m.size + m.growth index ≤ capacity

/-- Grows to an index unless the store has the cell already. -/
def reach (m : Memory) (index : Nat) : Memory :=
  if index < m.size then m else m.grow index

def write (m : Memory) (index : Nat) (value : Word) : Memory :=
  ⟨(m.reach index).cells.setIfInBounds index value⟩

/-- The index that a store at `address` writes to. -/
def target (m : Memory) (address : Word) : Except MemoryError Nat :=
  match indexOf address with
  | .error e => .error e
  | .ok index => if m.admits index then .ok index else .error (.outOfMemory address)

def set (m : Memory) (address value : Word) : Except MemoryError Memory :=
  match m.target address with
  | .error e => .error e
  | .ok index => .ok (m.write index value)

theorem indexOf_of_nonneg {address : Word} (nonneg : 0 ≤ address.toInt) :
    indexOf address = .ok address.toInt.toNat := by
  have natural : ¬ address < 0 := mt Word.lt_zero_iff.mp (by omega)
  rw [indexOf, if_neg natural, Int64.toNat_toInt]

theorem indexOf_of_negative {address : Word} (negative : address.toInt < 0) :
    indexOf address = .error (.negativeAddress address) := by
  rw [indexOf, if_pos (Word.lt_zero_iff.mpr negative)]

theorem get_of_nonneg (m : Memory) {address : Word} (nonneg : 0 ≤ address.toInt) :
    m.get address = .ok (m.cell address.toInt.toNat) := by
  simp only [get, indexOf_of_nonneg nonneg]

theorem get_of_negative (m : Memory) {address : Word} (negative : address.toInt < 0) :
    m.get address = .error (.negativeAddress address) := by
  simp only [get, indexOf_of_negative negative]

theorem get_toInt64 (m : Memory) {index : UInt64} (low : index.toNat < 0x8000000000000000) :
    m.get index.toInt64 = .ok (m.cell index.toNat) := by
  have exact := Word.toInt_of_toNat_lt low
  rw [m.get_of_nonneg (by omega), exact, Int.toNat_natCast]

theorem target_of_nonneg (m : Memory) {address : Word} (nonneg : 0 ≤ address.toInt) :
    m.target address =
      if m.admits address.toInt.toNat then .ok address.toInt.toNat
      else .error (.outOfMemory address) := by
  simp only [target, indexOf_of_nonneg nonneg]

theorem target_toInt64 (m : Memory) {index : UInt64} (low : index.toNat < 0x8000000000000000) :
    m.target index.toInt64 =
      if m.admits index.toNat then .ok index.toNat else .error (.outOfMemory index.toInt64) := by
  have exact := Word.toInt_of_toNat_lt low
  rw [m.target_of_nonneg (by omega), exact, Int.toNat_natCast]

theorem cell_eq_getD_stored? (m : Memory) (index : Nat) :
    m.cell index = (m.stored? index).getD 0 :=
  Array.getD_eq_getD_getElem? ..

theorem cell_of_size_le {m : Memory} {index : Nat} (beyond : m.size ≤ index) :
    m.cell index = 0 := by
  rw [cell_eq_getD_stored?, stored?, Array.getElem?_eq_none beyond]
  rfl

theorem admits_iff {m : Memory} {index : Nat} :
    m.admits index = true ↔ index < m.size ∨ index < capacity := by
  have bound : capacity = 2 ^ 60 - 1 := rfl
  simp only [admits, growth, Bool.or_eq_true, decide_eq_true_eq, bound]
  omega

theorem size_reach {m : Memory} {index : Nat} (admitted : m.admits index = true) :
    (m.reach index).size = max m.size (index + 1) := by
  have bound : capacity = 2 ^ 60 - 1 := rfl
  rw [admits_iff, bound] at admitted
  unfold reach
  split
  · omega
  · have grown : (m.grow index).size = m.size + m.growth index := by
      simp only [grow, size, Array.size_append, Array.size_replicate]
    rw [grown, growth]
    omega

/-- Zeros behind the stored cells cannot be told from cells that are not stored. -/
theorem cell_append_zeros (cells : Array Word) (count i : Nat) :
    (Memory.mk (cells ++ Array.replicate count 0)).cell i = (Memory.mk cells).cell i := by
  simp only [cell, Array.getD_eq_getD_getElem?, Array.getElem?_append]
  split
  · rfl
  · next beyond =>
    rw [Array.getElem?_eq_none (show cells.size ≤ i by omega), Array.getElem?_replicate]
    split <;> rfl

theorem cell_reach (m : Memory) (index i : Nat) : (m.reach index).cell i = m.cell i := by
  unfold reach
  split
  · rfl
  · exact cell_append_zeros m.cells (m.growth index) i

theorem size_write {m : Memory} {index : Nat} (admitted : m.admits index = true) (value : Word) :
    (m.write index value).size = max m.size (index + 1) := by
  rw [← size_reach admitted, write, size, Array.size_setIfInBounds, size]

theorem cell_write {m : Memory} {index : Nat} (admitted : m.admits index = true) (value : Word)
    (i : Nat) : (m.write index value).cell i = if i = index then value else m.cell i := by
  have reached : index < (m.reach index).cells.size := by
    rw [← size, size_reach admitted]
    omega
  by_cases same : i = index
  · subst same
    simp [write, cell, reached]
  · rw [if_neg same, ← m.cell_reach index i]
    simp only [write, cell, Array.getD_eq_getD_getElem?,
      Array.getElem?_setIfInBounds_ne (Ne.symm same)]

theorem admits_of_target {m : Memory} {address : Word} {index : Nat}
    (found : m.target address = .ok index) : m.admits index = true := by
  unfold target at found
  split at found
  · cases found
  · split at found
    · next admitted =>
      cases found
      exact admitted
    · cases found

end Memory

end Intcode
