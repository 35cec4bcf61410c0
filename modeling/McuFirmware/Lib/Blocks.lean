/-
  McuFirmware.Lib.Blocks

  A list cut into consecutive blocks of a fixed size: block `k` holds the
  elements from `size * k` on, the first `length / size` blocks are full, the
  next one holds the remaining `length % size` elements and is therefore
  always shorter than a full block.
-/

import Mathlib.Data.List.Basic

namespace McuFirmware.Lib

variable {α : Type _} {size : Nat}

/-- Block `k`, counted from zero. -/
def blockAt (size : Nat) (l : List α) (k : Nat) : List α :=
  (l.drop (size * k)).take size

theorem length_blockAt (l : List α) (k : Nat) :
    (blockAt size l k).length = min size (l.length - size * k) := by
  rw [blockAt, List.length_take, List.length_drop]

theorem length_blockAt_le (l : List α) (k : Nat) : (blockAt size l k).length ≤ size := by
  rw [length_blockAt]
  exact Nat.min_le_left _ _

/-- The blocks before the last one are full. -/
theorem length_blockAt_of_lt {l : List α} {k : Nat} (h : k < l.length / size) :
    (blockAt size l k).length = size := by
  have hfull : size * (k + 1) ≤ l.length :=
    Nat.le_trans (Nat.mul_le_mul_left size (Nat.succ_le_of_lt h)) (Nat.mul_div_le l.length size)
  rw [length_blockAt, Nat.min_eq_left]
  rw [Nat.mul_succ] at hfull
  omega

/-- The last block holds what is left over. -/
theorem length_blockAt_last (l : List α) (hsize : 0 < size) :
    (blockAt size l (l.length / size)).length = l.length % size := by
  have hdiv := Nat.div_add_mod l.length size
  have hlt := Nat.mod_lt l.length hsize
  rw [length_blockAt]
  omega

/-- Block `k` is short exactly from the last one on. -/
theorem length_blockAt_lt_iff (l : List α) (k : Nat) (hsize : 0 < size) :
    (blockAt size l k).length < size ↔ l.length / size ≤ k := by
  constructor
  · intro hshort
    by_contra hcon
    rw [length_blockAt_of_lt (Nat.lt_of_not_le hcon)] at hshort
    exact Nat.lt_irrefl size hshort
  · intro hk
    have hlt : l.length < size * (l.length / size + 1) := Nat.lt_mul_div_succ l.length hsize
    have hmul := Nat.mul_le_mul_left size hk
    rw [Nat.mul_succ] at hlt
    rw [length_blockAt]
    omega

/-- The first blocks are the front of the list. -/
theorem flatten_blockAt (l : List α) (k : Nat) :
    ((List.range k).map (blockAt size l)).flatten = l.take (size * k) := by
  induction k with
  | zero => simp
  | succ k ih =>
      rw [List.range_succ, List.map_append, List.flatten_append, ih, Nat.mul_succ, List.take_add]
      simp [blockAt]

/-- All blocks together are the list. -/
theorem flatten_blockAt_all (l : List α) (hsize : 0 < size) :
    ((List.range (l.length / size + 1)).map (blockAt size l)).flatten = l := by
  have hlt : l.length < size * (l.length / size + 1) := Nat.lt_mul_div_succ l.length hsize
  rw [flatten_blockAt, List.take_of_length_le (Nat.le_of_lt hlt)]

end McuFirmware.Lib
