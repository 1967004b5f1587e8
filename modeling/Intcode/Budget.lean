import Intcode.Fault

/-!
# The step budget

A machine pays for every instruction before it starts it. With a limit, the payment that would
exceed it fails and is not taken.

The number of payments is a natural number. A counter of 64 bits agrees with it for as long as it is
below `2 ^ 64`, and such runs are meant: what a machine does that has paid more often is left open.
-/

namespace Intcode

structure Budget where
  used : Nat := 0
  limit : Option Nat := none
deriving DecidableEq, Repr

namespace Budget

/-- Pays for one instruction. -/
def charge (b : Budget) : Except Fault Budget :=
  match b.limit with
  | none => .ok { b with used := b.used + 1 }
  | some limit =>
    if limit ≤ b.used then .error (.stepLimitExceeded limit)
    else .ok { b with used := b.used + 1 }

/-- Takes back the payment for an instruction that did not happen. -/
def refund (b : Budget) : Budget :=
  { b with used := b.used - 1 }

theorem refund_charge {b paid : Budget} (h : b.charge = .ok paid) : paid.refund = b := by
  rw [charge] at h
  split at h
  · cases h; rfl
  · split at h
    · cases h
    · cases h; rfl

end Budget

end Intcode
