/-
  McuFirmware.Lib.Memory

  A byte-addressed memory and the little-endian fields stored in it.

  `getLE` and `setLE` take the width of the field in bytes, so that 16- and
  32-bit fields share their lemmas: a field reads back what was stored, and a
  store changes no byte outside its field.
-/

import Mathlib.Logic.Function.Basic
import Mathlib.Algebra.Group.Nat.Defs

namespace McuFirmware.Lib

/-- The memory: a byte at every address. -/
abbrev Memory := Nat → UInt8

namespace Memory

/-- The field of `n` bytes at `a`, least significant byte first. -/
def getLE (m : Memory) (a : Nat) : (n : Nat) → Nat
  | 0 => 0
  | n + 1 => (m a).toNat + 256 * getLE m (a + 1) n

/-- Store the low `n` bytes of `v` at `a`. -/
def setLE (m : Memory) (a : Nat) : (n : Nat) → (v : Nat) → Memory
  | 0, _ => m
  | n + 1, v => setLE (Function.update m a (UInt8.ofNat v)) (a + 1) n (v / 256)

/-- The `n` bytes at `a` replaced by the first ones of `src`. -/
def blit (m : Memory) (a n : Nat) (src : Memory) : Memory :=
  fun x => if a ≤ x ∧ x < a + n then src (x - a) else m x

/-- The `n` bytes at `a`. -/
def slice (m : Memory) (a n : Nat) : List UInt8 := (List.range n).map fun i => m (a + i)

/-- A memory that begins with the given bytes. -/
def ofList (bs : List UInt8) : Memory := fun i => bs.getD i 0

/-- Two memories hold the same bytes in `[a, b)`. -/
def Agree (m m' : Memory) (a b : Nat) : Prop := ∀ x, a ≤ x → x < b → m' x = m x

variable {m m' : Memory} {a b n v : Nat}

theorem Agree.mono {a' b' : Nat} (h : Agree m m' a b) (ha : a ≤ a') (hb : b' ≤ b) :
    Agree m m' a' b' := by
  intro x hax hxb
  exact h x (Nat.le_trans ha hax) (Nat.lt_of_lt_of_le hxb hb)

theorem getLE_lt (m : Memory) (a n : Nat) : getLE m a n < 256 ^ n := by
  induction n generalizing a with
  | zero => simp [getLE]
  | succ n ih =>
      have hlow := (m a).toNat_lt
      have hhigh := ih (a + 1)
      rw [getLE, Nat.pow_succ]
      omega

/-- A field depends on its own bytes only. -/
theorem getLE_congr (h : Agree m m' a (a + n)) : getLE m' a n = getLE m a n := by
  induction n generalizing a with
  | zero => rfl
  | succ n ih =>
      have hrest : Agree m m' (a + 1) (a + 1 + n) := h.mono (by omega) (by omega)
      rw [getLE, getLE, h a (Nat.le_refl a) (by omega), ih hrest]

/-- The same bytes at another place are the same field. -/
theorem getLE_shift (h : ∀ i < n, m' (b + i) = m (a + i)) : getLE m' b n = getLE m a n := by
  induction n generalizing a b with
  | zero => rfl
  | succ n ih =>
      have hrest : ∀ i < n, m' (b + 1 + i) = m (a + 1 + i) := by
        intro i hi
        have heq := h (1 + i) (by omega)
        rwa [← Nat.add_assoc, ← Nat.add_assoc] at heq
      rw [getLE, getLE, ih hrest]
      have hfirst := h 0 (Nat.zero_lt_succ n)
      rw [Nat.add_zero, Nat.add_zero] at hfirst
      rw [hfirst]

/-- A store changes no other byte. -/
theorem setLE_apply_of_outside {x : Nat} (h : x < a ∨ a + n ≤ x) : setLE m a n v x = m x := by
  induction n generalizing m a v with
  | zero => rfl
  | succ n ih =>
      have hne : x ≠ a := by omega
      rw [setLE, ih (by omega), Function.update_of_ne hne]

/-- The bytes of a store. -/
theorem setLE_apply (x : Nat) : setLE m a n v x =
    if a ≤ x ∧ x < a + n then UInt8.ofNat (v / 256 ^ (x - a)) else m x := by
  induction n generalizing m a v with
  | zero => rw [if_neg (by omega), setLE]
  | succ n ih =>
      rw [setLE, ih]
      by_cases hx : x = a
      · rw [if_neg (by omega), if_pos (by omega), hx, Function.update_self, Nat.sub_self,
          Nat.pow_zero, Nat.div_one]
      · rw [Function.update_of_ne hx]
        by_cases hin : a + 1 ≤ x ∧ x < a + 1 + n
        · rw [if_pos hin, if_pos (by omega), Nat.div_div_eq_div_mul, ← Nat.pow_succ']
          congr 3
          omega
        · rw [if_neg hin, if_neg (by omega)]

theorem setLE_agree_below (h : b ≤ a) (c : Nat) : Agree m (setLE m a n v) c b := by
  intro x _ hx
  exact setLE_apply_of_outside (.inl (by omega))

theorem setLE_agree_above (h : a + n ≤ b) (c : Nat) : Agree m (setLE m a n v) b c := by
  intro x hx _
  exact setLE_apply_of_outside (.inr (by omega))

/-- A field reads back what was stored, cut to its width. -/
theorem getLE_setLE : getLE (setLE m a n v) a n = v % 256 ^ n := by
  induction n generalizing m a v with
  | zero => rw [getLE, Nat.pow_zero, Nat.mod_one]
  | succ n ih =>
      have hbyte : setLE m a (n + 1) v a = UInt8.ofNat v := by
        rw [setLE, setLE_apply_of_outside (.inl (Nat.lt_succ_self a)), Function.update_self]
      rw [getLE, hbyte, setLE, ih, UInt8.toNat_ofNat', Nat.pow_succ 256, Nat.mul_comm (256 ^ n),
        Nat.mod_mul]

theorem getLE_setLE_of_lt (hv : v < 256 ^ n) : getLE (setLE m a n v) a n = v := by
  rw [getLE_setLE, Nat.mod_eq_of_lt hv]

theorem length_slice (m : Memory) (a n : Nat) : (slice m a n).length = n := by
  rw [slice, List.length_map, List.length_range]

/-- A slice that shows the same bytes as a part of a list. -/
theorem slice_eq {bs : List UInt8} {p : Nat} (hlen : p + n ≤ bs.length)
    (h : ∀ i < n, m (a + i) = bs.getD (p + i) 0) : slice m a n = (bs.drop p).take n := by
  refine List.ext_getElem ?_ fun i hi hi' => ?_
  · rw [length_slice, List.length_take, List.length_drop]
    omega
  · rw [length_slice] at hi
    have hin : p + i < bs.length := by omega
    simp only [slice, List.getElem_map, List.getElem_range, List.getElem_take, List.getElem_drop]
    rw [h i hi, List.getD_eq_getElem?_getD, List.getElem?_eq_getElem hin, Option.getD_some]

theorem blit_apply_of_inside {src : Memory} {x : Nat} (ha : a ≤ x) (hx : x < a + n) :
    blit m a n src x = src (x - a) :=
  if_pos ⟨ha, hx⟩

theorem blit_apply_of_outside {src : Memory} {x : Nat} (h : x < a ∨ a + n ≤ x) :
    blit m a n src x = m x :=
  if_neg (by omega)

end Memory

end McuFirmware.Lib
