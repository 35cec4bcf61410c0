/-
  McuFirmware.Lib.Word32

  32-bit subtraction on natural numbers.  C code uses its wrapping in two ways: to
  measure the time between two readings of a clock, and to ask with a single
  comparison whether a number lies in a range.
-/

import Mathlib.Algebra.Group.Nat.Defs

namespace McuFirmware.Lib

/-- The difference of two 32-bit words. -/
def sub32 (a b : Nat) : Nat := (a + (2 ^ 32 - b)) % 2 ^ 32

theorem sub32_eq {a b : Nat} (hle : b ≤ a) (ha : a < 2 ^ 32) : sub32 a b = a - b := by
  rw [sub32]
  omega

/-- The time between two readings of a clock that has wrapped any number of times. -/
theorem sub32_clock {base clock : Nat} (hle : base ≤ clock) (hlt : clock - base < 2 ^ 32) :
    sub32 (clock % 2 ^ 32) (base % 2 ^ 32) = clock - base := by
  rw [sub32]
  omega

/-- The test for a range with one comparison. -/
theorem sub32_lt_iff {x base size : Nat} (hx : x < 2 ^ 32) (hbase : base + size ≤ 2 ^ 32) :
    sub32 x base < size ↔ base ≤ x ∧ x < base + size := by
  rw [sub32]
  omega

end McuFirmware.Lib
