/-
  McuFirmware.Lib.Bytes

  Bytes and the numbers they spell.  A statement over the 256 values of a byte is
  reduced to bounded numbers, where it is decidable.  `leNat` and `leBytes` are
  the two directions of the little-endian order, `patch` is a number after some
  of its first bytes were overwritten.
-/

import Mathlib.Algebra.Group.Nat.Defs

namespace McuFirmware.Lib

/-- What holds of the 256 numbers holds of every byte. -/
theorem forall_uint8 {P : UInt8 → Prop} (h : ∀ n < 256, P (UInt8.ofNat n)) (b : UInt8) : P b := by
  have hb := h b.toNat b.toNat_lt
  rwa [UInt8.ofNat_toNat] at hb

/-- Masking a union. -/
theorem uint8_or_and (a b m : UInt8) : (a ||| b) &&& m = (a &&& m) ||| (b &&& m) := by
  rw [← UInt8.toBitVec_inj]
  exact BitVec.and_or_distrib_right

/-- Masking an intersection. -/
theorem uint8_and_and (a b m : UInt8) : (a &&& b) &&& m = (a &&& m) &&& b := by
  rw [UInt8.and_assoc, UInt8.and_comm b m, ← UInt8.and_assoc]

-- ============================================================================
-- Little-endian numbers
-- ============================================================================

/-- The bytes as a number, least significant first. -/
def leNat : List UInt8 → Nat
  | [] => 0
  | b :: bs => b.toNat + 256 * leNat bs

/-- The `w` low bytes of `n`, least significant first. -/
def leBytes : Nat → Nat → List UInt8
  | 0, _ => []
  | w + 1, n => UInt8.ofNat n :: leBytes w (n / 256)

/-- A number of `w` bytes that was `n`, after `bytes` were stored from its first
    byte on. -/
def patch (w n : Nat) (bytes : List UInt8) : Nat :=
  leNat (bytes.take w ++ (leBytes w n).drop bytes.length)

theorem leNat_leBytes (w n : Nat) : leNat (leBytes w n) = n % 256 ^ w := by
  induction w generalizing n with
  | zero => simp [leBytes, leNat, Nat.mod_one]
  | succ w ih =>
      have hbyte : (UInt8.ofNat n).toNat = n % 256 := UInt8.toNat_ofNat'
      rw [leBytes, leNat, ih, hbyte, Nat.pow_succ', Nat.mod_mul]

/-- Nothing stored, nothing changed. -/
theorem patch_nil {w n : Nat} (h : n < 256 ^ w) : patch w n [] = n := by
  rw [patch, List.take_nil, List.nil_append, List.length_nil, List.drop_zero, leNat_leBytes,
    Nat.mod_eq_of_lt h]

end McuFirmware.Lib
