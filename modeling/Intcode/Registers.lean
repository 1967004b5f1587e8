import Intcode.Word

/-!
# The register file

The program counter, an unsigned 64-bit index, and the base of relative addresses.
-/

namespace Intcode

structure Registers where
  pc : UInt64 := 0
  base : Word := 0
deriving DecidableEq, Repr

namespace Registers

/-- The address of the parameter at an index, counted from zero, of the current instruction. -/
def paramAddress (regs : Registers) (index : UInt64) : UInt64 :=
  regs.pc + 1 + index

/-- Moves the program counter on by a number of cells. -/
def advance (regs : Registers) (cells : UInt64) : Registers :=
  { regs with pc := regs.pc + cells }

theorem toNat_paramAddress (regs : Registers) {index : Nat}
    (near : regs.pc.toNat + 1 + index < 1 <<< 64) :
    (regs.paramAddress index.toUInt64).toNat = regs.pc.toNat + 1 + index := by
  simp only [paramAddress, UInt64.toNat_add, Nat.toUInt64, UInt64.toNat_ofNat', UInt64.toNat_one]
  omega

theorem toNat_pc_advance (regs : Registers) {cells : Nat}
    (near : regs.pc.toNat + cells < 1 <<< 64) :
    (regs.advance cells.toUInt64).pc.toNat = regs.pc.toNat + cells := by
  simp only [advance, UInt64.toNat_add, Nat.toUInt64, UInt64.toNat_ofNat']
  omega

end Registers

end Intcode
