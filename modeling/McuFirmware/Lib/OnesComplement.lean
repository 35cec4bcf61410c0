/-
  McuFirmware.Lib.OnesComplement

  16-bit ones' complement sums.

  Two accumulators are worth the same (`OcEq`) if they agree modulo 65535 and are
  zero together: folding the carries, swapping the two bytes of a word and adding
  keep this, and of two equal values below 65536 there is only one.  A byte string
  counts as the number it spells in base 256 (`leNat`), because 256 squared is 1
  modulo 65535; cutting the string anywhere is then plain arithmetic.
-/

import Mathlib.Data.List.Basic
import McuFirmware.Lib.Bytes

namespace McuFirmware.Lib

/-- Equal as ones' complement sums. -/
def OcEq (a b : Nat) : Prop := a % 65535 = b % 65535 ∧ (a = 0 ↔ b = 0)

/-- Carries out of the low 16 bits come back in at the bottom. -/
def fold16 (n : Nat) : Nat := n / 65536 + n % 65536

/-- The low two bytes exchanged. -/
def swap16 (n : Nat) : Nat := n % 256 * 256 + n / 256 % 256

namespace OcEq

variable {a b c d : Nat}

theorem refl (a : Nat) : OcEq a a := ⟨rfl, Iff.rfl⟩

theorem symm (h : OcEq a b) : OcEq b a := ⟨h.1.symm, h.2.symm⟩

theorem trans (h : OcEq a b) (h' : OcEq b c) : OcEq a c := ⟨h.1.trans h'.1, h.2.trans h'.2⟩

theorem add (h : OcEq a b) (h' : OcEq c d) : OcEq (a + c) (b + d) := by
  obtain ⟨hmod, hzero⟩ := h
  obtain ⟨hmod', hzero'⟩ := h'
  exact ⟨by omega, by omega⟩

theorem mul256 (h : OcEq a b) : OcEq (256 * a) (256 * b) := by
  obtain ⟨hmod, hzero⟩ := h
  exact ⟨by omega, by omega⟩

/-- Shifting by two bytes changes nothing. -/
theorem shift (a : Nat) : OcEq (256 * (256 * a)) a := ⟨by omega, by omega⟩

theorem fold (n : Nat) : OcEq (fold16 n) n := by
  rw [fold16]
  exact ⟨by omega, by omega⟩

theorem swap (h : a < 65536) : OcEq (swap16 a) (256 * a) := by
  have hhigh : a / 256 % 256 = a / 256 := Nat.mod_eq_of_lt (by omega)
  have hsplit : 256 * a = a % 256 * 256 + a / 256 + 65535 * (a / 256) := by omega
  rw [swap16, hhigh, hsplit]
  exact ⟨(Nat.add_mul_mod_self_left _ _ _).symm, by omega⟩

/-- A sum and its complement make 65535. -/
theorem complement (h : OcEq a b) (ha : a < 65536) : OcEq (b + (65535 - a)) 65535 := by
  have hadd := h.symm.add (refl (65535 - a))
  rwa [Nat.add_sub_cancel' (by omega : a ≤ 65535)] at hadd

/-- One representative below 65536. -/
theorem eq_of_lt (h : OcEq a b) (ha : a < 65536) (hb : b < 65536) : a = b := by
  obtain ⟨hmod, hzero⟩ := h
  omega

end OcEq

theorem fold16_lt {n : Nat} (h : n ≤ 131070) : fold16 n < 65536 := by
  rw [fold16]
  omega

/-- Two folds bring a 32-bit sum below 65536. -/
theorem fold16_fold16_lt {n : Nat} (h : n < 2 ^ 32) : fold16 (fold16 n) < 65536 := by
  rw [fold16, fold16]
  omega

theorem swap16_lt (n : Nat) : swap16 n < 65536 := by
  rw [swap16]
  omega

-- ============================================================================
-- Byte strings
-- ============================================================================

theorem leNat_append (xs ys : List UInt8) :
    leNat (xs ++ ys) = leNat xs + 256 ^ xs.length * leNat ys := by
  induction xs with
  | nil => simp [leNat]
  | cons b xs ih =>
      rw [List.cons_append, leNat, leNat, ih, List.length_cons, Nat.pow_succ, Nat.mul_add,
        Nat.mul_comm (256 ^ xs.length) 256, Nat.mul_assoc, Nat.add_assoc]

/-- What an offset of `n` bytes does to a sum: nothing, or a swap. -/
def shifted (n a : Nat) : Nat := if n % 2 = 0 then a else 256 * a

theorem OcEq.pow256 (n a : Nat) : OcEq (256 ^ n * a) (shifted n a) := by
  induction n with
  | zero =>
      rw [Nat.pow_zero, Nat.one_mul]
      exact OcEq.refl a
  | succ n ih =>
      have hstep : 256 ^ (n + 1) * a = 256 * (256 ^ n * a) := by
        rw [Nat.pow_succ, Nat.mul_comm (256 ^ n), Nat.mul_assoc]
      rw [hstep]
      refine ih.mul256.trans ?_
      simp only [shifted]
      by_cases heven : n % 2 = 0
      · rw [if_pos heven, if_neg (by omega)]
        exact OcEq.refl _
      · rw [if_neg heven, if_pos (by omega)]
        exact OcEq.shift a

theorem OcEq.shifted {a b : Nat} (n : Nat) (h : OcEq a b) :
    OcEq (shifted n a) (Lib.shifted n b) := by
  simp only [Lib.shifted]
  split
  · exact h
  · exact h.mul256

/-- The sum of a string cut in two. -/
theorem OcEq.leNat_append (xs ys : List UInt8) :
    OcEq (leNat (xs ++ ys)) (leNat xs + Lib.shifted xs.length (leNat ys)) := by
  rw [Lib.leNat_append]
  exact (OcEq.refl _).add (OcEq.pow256 _ _)

end McuFirmware.Lib
