/-
  McuFirmware.Lib.CBuffer

  C arrays of a fixed size: a `CBuffer α n` always holds exactly `n` cells, so
  a store can never make it longer.  `memcpy` writes the part of the source
  that lies inside the array; whether the whole source fits is the caller's
  proof obligation `off + src.length ≤ n`, and the lemmas below say what the
  array holds when it does.
-/

import Mathlib.Data.List.Basic
import Mathlib.Data.List.GetD

namespace McuFirmware.Lib

/-- An array object of `n` cells. -/
structure CBuffer (α : Type _) (n : Nat) where
  cells : List α
  size_eq : cells.length = n
deriving DecidableEq

namespace CBuffer

variable {α : Type _} {n : Nat}

@[ext] theorem ext {b b' : CBuffer α n} (h : b.cells = b'.cells) : b = b' := by
  cases b
  cases b'
  cases h
  rfl

/-- The array filled with one value. -/
def fill (n : Nat) (a : α) : CBuffer α n :=
  ⟨List.replicate n a, List.length_replicate⟩

/-- `memcpy(&b[off], src, src.length)`, clipped to the array. -/
def memcpy (b : CBuffer α n) (off : Nat) (src : List α) : CBuffer α n where
  cells := (b.cells.take off ++ src ++ b.cells.drop (off + src.length)).take n
  size_eq := by
    have hb := b.size_eq
    simp only [List.length_take, List.length_append, List.length_drop]
    omega

/-- The first `k` cells, as `memcpy(dst, b, k)` reads them. -/
def firstCells (b : CBuffer α n) (k : Nat) : List α :=
  b.cells.take k

theorem memcpy_cells {b : CBuffer α n} {off : Nat} {src : List α}
    (h : off + src.length ≤ n) :
    (b.memcpy off src).cells =
      b.cells.take off ++ src ++ b.cells.drop (off + src.length) := by
  have hb := b.size_eq
  apply List.take_of_length_le
  simp only [List.length_append, List.length_take, List.length_drop]
  omega

/-- After an in-bounds copy the array starts with the untouched prefix
    followed by the source. -/
theorem firstCells_memcpy (b : CBuffer α n) (off : Nat) (src : List α)
    (h : off + src.length ≤ n) :
    (b.memcpy off src).firstCells (off + src.length) = b.firstCells off ++ src := by
  have hlen : (b.cells.take off).length = off := by
    rw [List.length_take, b.size_eq]
    omega
  rw [firstCells, firstCells, memcpy_cells h]
  apply List.take_left'
  rw [List.length_append, hlen]

/-- An array whose first cells are known is these and the rest. -/
theorem cells_eq_append {b : CBuffer α n} {l : List α} (h : b.firstCells l.length = l) :
    b.cells = l ++ b.cells.drop l.length := by
  conv_lhs => rw [← List.take_append_drop l.length b.cells]
  exact congrArg (· ++ _) h

/-- The cells behind a copy are those from before. -/
theorem drop_memcpy (b : CBuffer α n) (off : Nat) (src : List α) (h : off + src.length ≤ n) :
    (b.memcpy off src).cells.drop (off + src.length) = b.cells.drop (off + src.length) := by
  rw [memcpy_cells h]
  apply List.drop_left'
  rw [List.length_append, List.length_take, b.size_eq]
  omega

/-- A copy to the front of the array that fits is read back whole. -/
theorem firstCells_memcpy_zero {b : CBuffer α n} {src : List α} {k : Nat}
    (h : src.length ≤ n) (hk : k = src.length) :
    (b.memcpy 0 src).firstCells k = src := by
  subst hk
  have hread := firstCells_memcpy b 0 src (by omega)
  simpa [firstCells] using hread

/-- What the first cells are known to be, fewer of them are as well. -/
theorem take_cells {b : CBuffer α n} {l : List α} {m k : Nat} (h : b.firstCells m = l)
    (hk : k ≤ m) : b.cells.take k = l.take k := by
  rw [← h, firstCells, List.take_take, Nat.min_eq_left hk]

/-- The string a character array holds: its cells up to the first NUL. -/
def cString (b : CBuffer UInt8 n) : List UInt8 :=
  b.cells.takeWhile (· ≠ 0)

/-- A terminated string copied to the front of the array is read back. -/
theorem cString_memcpy {b : CBuffer UInt8 n} {s : List UInt8} (hs : 0 ∉ s) (h : s.length < n) :
    (b.memcpy 0 (s ++ [0])).cString = s := by
  have hfit : 0 + (s ++ [0]).length ≤ n := by
    rw [List.length_append, List.length_singleton]
    omega
  have hne : ∀ x ∈ s, decide (x ≠ 0) = true := by
    intro x hx
    rw [decide_eq_true_eq]
    exact fun hx0 => hs (hx0 ▸ hx)
  rw [cString, memcpy_cells hfit, List.take_zero, List.nil_append, List.append_assoc,
    List.takeWhile_append_of_pos hne]
  simp

section Cells

variable [Inhabited α]

/-- `b[i]`. -/
def cell (b : CBuffer α n) (i : Nat) : α := (b.cells[i]?).getD default

/-- `b[i] = a`. -/
def setCell (b : CBuffer α n) (i : Nat) (a : α) : CBuffer α n :=
  ⟨b.cells.set i a, by rw [List.length_set, b.size_eq]⟩

theorem cell_setCell (b : CBuffer α n) {i : Nat} (hi : i < n) (a : α) (j : Nat) :
    (b.setCell i a).cell j = if j = i then a else b.cell j := by
  have hlen := b.size_eq
  simp only [cell, setCell, List.getElem?_set]
  by_cases hj : i = j
  · rw [if_pos hj, if_pos (by omega), if_pos hj.symm]
    rfl
  · rw [if_neg hj, if_neg (fun h => hj h.symm)]

omit [Inhabited α] in
/-- A store directly behind the first `k` cells. -/
theorem firstCells_setCell (b : CBuffer α n) {k : Nat} (hk : k < n) (a : α) :
    (b.setCell k a).firstCells (k + 1) = b.firstCells k ++ [a] := by
  have hlen : k < (b.cells.set k a).length := by
    rw [List.length_set, b.size_eq]
    exact hk
  rw [firstCells, firstCells, setCell, List.take_succ_eq_append_getElem hlen,
    List.getElem_set_self, List.take_set_of_le (Nat.le_refl k)]

theorem cell_fill (n : Nat) (i : Nat) : (fill n (default : α)).cell i = default := by
  rw [cell, fill, List.getElem?_replicate]
  split <;> rfl

/-- A cell a copy to the front of the array stores. -/
theorem cell_memcpy_zero (b : CBuffer α n) {src : List α} (h : src.length ≤ n) {i : Nat}
    (hi : i < src.length) : (b.memcpy 0 src).cell i = src[i] := by
  rw [cell, memcpy_cells (by omega), List.take_zero, List.nil_append,
    List.getElem?_append_left hi, List.getElem?_eq_getElem hi, Option.getD_some]

/-- An array is known by its cells. -/
theorem ext_cell {b b' : CBuffer α n} (h : ∀ i < n, b.cell i = b'.cell i) : b = b' := by
  apply ext
  apply List.ext_getElem (by rw [b.size_eq, b'.size_eq])
  intro i hi hi'
  have hcell := h i (by rw [← b.size_eq]; exact hi)
  rw [cell, cell, List.getElem?_eq_getElem hi, List.getElem?_eq_getElem hi'] at hcell
  exact hcell

/-- A copy that fits changes the cells it covers and no others. -/
theorem cell_memcpy (b : CBuffer α n) {off : Nat} {src : List α} (h : off + src.length ≤ n)
    (i : Nat) : (b.memcpy off src).cell i =
      if off ≤ i ∧ i < off + src.length then src.getD (i - off) default else b.cell i := by
  have hoff : (b.cells.take off).length = off := by
    rw [List.length_take, b.size_eq]
    omega
  rw [cell, cell, memcpy_cells h, List.append_assoc, List.getElem?_append, hoff,
    List.getElem?_append, List.getElem?_drop, List.getElem?_take]
  by_cases hlt : i < off
  · rw [if_pos hlt, if_pos hlt, if_neg (by omega)]
  · rw [if_neg hlt]
    by_cases hin : i - off < src.length
    · rw [if_pos hin, if_pos (by omega), List.getD_eq_getElem?_getD]
    · rw [if_neg hin, if_neg (by omega)]
      congr 2
      omega

theorem memcpy_nil (b : CBuffer α n) {off : Nat} (h : off ≤ n) : b.memcpy off [] = b := by
  apply ext_cell
  intro i _
  rw [cell_memcpy b (by simpa using h), if_neg (by simp)]

theorem setCell_eq_memcpy (b : CBuffer α n) {i : Nat} (hi : i < n) (a : α) :
    b.setCell i a = b.memcpy i [a] := by
  apply ext_cell
  intro j _
  rw [cell_setCell b hi, cell_memcpy b (Nat.succ_le_of_lt hi), List.length_singleton]
  by_cases hj : j = i
  · subst hj
    simp
  · rw [if_neg hj, if_neg (by omega)]

/-- Two copies that meet, in either order, are one copy. -/
theorem memcpy_append (b : CBuffer α n) {off : Nat} {l r : List α}
    (h : off + (l ++ r).length ≤ n) :
    (b.memcpy off l).memcpy (off + l.length) r = b.memcpy off (l ++ r) ∧
      (b.memcpy (off + l.length) r).memcpy off l = b.memcpy off (l ++ r) := by
  rw [List.length_append] at h
  have hl : off + l.length ≤ n := by omega
  have hr : off + l.length + r.length ≤ n := by omega
  have hcell (i : Nat) : (b.memcpy off (l ++ r)).cell i =
      if off ≤ i ∧ i < off + l.length then l.getD (i - off) default
      else if off + l.length ≤ i ∧ i < off + l.length + r.length then
        r.getD (i - (off + l.length)) default
      else b.cell i := by
    rw [cell_memcpy b (by rw [List.length_append]; omega), List.length_append]
    by_cases hin : off ≤ i ∧ i < off + l.length
    · rw [if_pos (by omega), if_pos hin, List.getD_append _ _ _ _ (by omega)]
    · rw [if_neg hin]
      by_cases hin' : off + l.length ≤ i ∧ i < off + l.length + r.length
      · rw [if_pos (by omega), if_pos hin', List.getD_append_right _ _ _ _ (by omega),
          Nat.sub_sub]
      · rw [if_neg (by omega), if_neg hin']
  constructor
  · apply ext_cell
    intro i _
    rw [hcell, cell_memcpy _ hr, cell_memcpy b hl]
    by_cases hin' : off + l.length ≤ i ∧ i < off + l.length + r.length
    · rw [if_pos hin', if_neg (by omega), if_pos hin']
    · rw [if_neg hin', if_neg hin']
  · apply ext_cell
    intro i _
    rw [hcell, cell_memcpy _ hl, cell_memcpy b hr]

/-- `for (i = 0; i < k; i++) b[off + i] = a`, or `none` where it stores behind
    the array. -/
def storeCells (b : CBuffer α n) (a : α) : Nat → Nat → Option (CBuffer α n)
  | 0, _ => some b
  | k + 1, off => if off < n then storeCells (b.setCell off a) a k (off + 1) else none

theorem storeCells_inside {off k : Nat} (h : off + k ≤ n) (a : α) (b : CBuffer α n) :
    ∃ b', b.storeCells a k off = some b' ∧
      ∀ i, b'.cell i = if off ≤ i ∧ i < off + k then a else b.cell i := by
  induction k generalizing off b with
  | zero => exact ⟨b, rfl, fun i => (if_neg (by omega)).symm⟩
  | succ k ih =>
      have hrest : off + 1 + k ≤ n := by omega
      obtain ⟨b', hb', hcells⟩ := ih hrest (b.setCell off a)
      refine ⟨b', by rw [storeCells, if_pos (by omega), hb'], fun i => ?_⟩
      rw [hcells, cell_setCell b (by omega)]
      -- the cells above `off` are the later iterations', `off` is this one's
      by_cases hlater : off + 1 ≤ i ∧ i < off + 1 + k
      · rw [if_pos hlater, if_pos (by omega)]
      · rw [if_neg hlater]
        by_cases hthis : i = off
        · rw [if_pos hthis, if_pos (by omega)]
        · rw [if_neg hthis, if_neg (by omega)]

end Cells

end CBuffer

end McuFirmware.Lib
