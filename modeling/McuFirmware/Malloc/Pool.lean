/-
  McuFirmware.Malloc.Pool

  The memory manager of `MALLOC/malloc.c`.

  A bank is a pool of `memtblsize` cells of `memblksize` bytes and a map with
  one `u16` per cell.  Every function below works on one bank, the one `memx`
  selects; `none` stands for a store behind the map.  `Taken` and `Cleared` are
  what an allocation and a release do to the map; `myMemFree_cleared` shows it of
  the release, `Malloc.Fit` of the allocation.
-/

import McuFirmware.Lib.CBuffer
import McuFirmware.Lib.CellRuns

namespace McuFirmware.Malloc

open McuFirmware.Lib

/-- `membase`, `memtblsize`, `memblksize` and `memsize` of one bank. -/
structure Bank where
  membase : UInt32
  memtblsize : Nat
  memblksize : Nat
  memsize : Nat
  tblsize_pos : 0 < memtblsize
  tblsize_lt : memtblsize < 65536
  blksize_pos : 0 < memblksize
  size_eq : memsize = memtblsize * memblksize
  base_ne_null : membase ≠ 0
  pool_fits : membase.toNat + memsize ≤ 4294967296

/-- The part of `mallco_dev` that belongs to one bank, and its pool. -/
structure Pool (b : Bank) where
  memmap : CBuffer UInt16 b.memtblsize
  mem : CBuffer UInt8 b.memsize
  memrdy : Bool
deriving DecidableEq

section Functions

variable {b : Bank}

/-- `my_mem_init`. -/
def myMemInit (_ : Pool b) : Pool b := ⟨CBuffer.fill _ 0, CBuffer.fill _ 0, true⟩

/-- `my_mem_perused`: the share of the cells in use, in percent. -/
def myMemPerused (p : Pool b) : UInt8 :=
  let used := p.memmap.cells.countP (· ≠ 0)
  UInt8.ofNat (used * 100 / b.memtblsize)

/-- The number of cells for `size` bytes. -/
def Bank.nmemb (b : Bank) (size : UInt32) : Nat :=
  size.toNat / b.memblksize + if size.toNat % b.memblksize ≠ 0 then 1 else 0

/-- The search loop of `my_mem_malloc`, with the cells `0`, …, `left - 1` still to
    be visited from the top and `cmemb` free cells directly behind them. -/
def searchMap (memmap : CBuffer UInt16 b.memtblsize) (nmemb : Nat) : Nat → Nat → Option Nat
  | 0, _ => none
  | offset + 1, cmemb =>
      let cmemb := if memmap.cell offset = 0 then cmemb + 1 else 0
      if cmemb = nmemb then some offset else searchMap memmap nmemb offset cmemb

/-- The offset `my_mem_malloc` returns when it fails. -/
def noMem : UInt32 := 0xFFFFFFFF

/-- `my_mem_malloc`: the offset in the pool. -/
def myMemMalloc (p : Pool b) (size : UInt32) : Option (UInt32 × Pool b) :=
  let p := if p.memrdy then p else myMemInit p
  if size = 0 then some (noMem, p)
  else
    let nmemb := b.nmemb size
    match searchMap p.memmap nmemb b.memtblsize 0 with
    | none => some (noMem, p)
    | some offset =>
        (p.memmap.storeCells (UInt16.ofNat nmemb) nmemb offset).map fun memmap =>
          (UInt32.ofNat (offset * b.memblksize), { p with memmap := memmap })

/-- `my_mem_free`: the returned code. -/
def myMemFree (p : Pool b) (offset : UInt32) : Option (UInt8 × Pool b) :=
  if !p.memrdy then some (1, myMemInit p)
  else if offset.toNat < b.memsize then
    let index := offset.toNat / b.memblksize
    let nmemb := (p.memmap.cell index).toNat
    (p.memmap.storeCells 0 nmemb index).map fun memmap => (0, { p with memmap := memmap })
  else some (2, p)

/-- `myfree`. -/
def myfree (p : Pool b) (ptr : UInt32) : Option (Pool b) :=
  if ptr = 0 then some p else (myMemFree p (ptr - b.membase)).map (·.2)

/-- `mymalloc`: the pointer returned, `NULL` being 0. -/
def mymalloc (p : Pool b) (size : UInt32) : Option (UInt32 × Pool b) :=
  (myMemMalloc p size).map fun (offset, p) =>
    if offset = noMem then (0, p) else (b.membase + offset, p)

end Functions

-- ============================================================================
-- Sizes and offsets
-- ============================================================================

section Sizes

variable (b : Bank)

theorem Bank.nmemb_pos {size : UInt32} (h : size ≠ 0) : 0 < b.nmemb size := by
  have hsize : size.toNat ≠ 0 := fun hz => h (UInt32.toNat_inj.mp hz)
  have hdiv := Nat.div_add_mod size.toNat b.memblksize
  rw [Bank.nmemb]
  by_cases hrest : size.toNat % b.memblksize ≠ 0
  · rw [if_pos hrest]
    exact Nat.succ_pos _
  · rw [if_neg hrest]
    rcases Nat.eq_zero_or_pos (size.toNat / b.memblksize) with hquot | hquot
    · rw [hquot, Nat.mul_zero] at hdiv
      omega
    · omega

/-- The cells cover the bytes asked for. -/
theorem Bank.le_nmemb_mul (size : UInt32) : size.toNat ≤ b.nmemb size * b.memblksize := by
  have hdiv := Nat.div_add_mod size.toNat b.memblksize
  have hmod := Nat.mod_lt size.toNat b.blksize_pos
  rw [Bank.nmemb, Nat.add_mul, Nat.mul_comm (size.toNat / b.memblksize)]
  by_cases hrest : size.toNat % b.memblksize ≠ 0
  · rw [if_pos hrest]
    omega
  · rw [if_neg hrest]
    omega

/-- The last byte of cell `off` is inside the pool. -/
theorem Bank.offset_lt {off : Nat} (h : off < b.memtblsize) :
    off * b.memblksize + b.memblksize ≤ b.memsize := by
  rw [b.size_eq, ← Nat.succ_mul]
  exact Nat.mul_le_mul_right _ h

theorem Bank.base_pos : 0 < b.membase.toNat := by
  have hne := b.base_ne_null
  have htoNat : b.membase.toNat ≠ 0 := fun hz => hne (UInt32.toNat_inj.mp hz)
  omega

/-- The offset of a cell, as a `u32`. -/
theorem Bank.toNat_offset {off : Nat} (h : off < b.memtblsize) :
    (UInt32.ofNat (off * b.memblksize)).toNat = off * b.memblksize := by
  have hlt := b.offset_lt h
  have hfits := b.pool_fits
  have hbase := b.base_pos
  exact UInt32.toNat_ofNat_of_lt' (by simp only [UInt32.size]; omega)

theorem Bank.offset_ne_noMem {off : Nat} (h : off < b.memtblsize) :
    UInt32.ofNat (off * b.memblksize) ≠ noMem := by
  intro heq
  have htoNat := congrArg UInt32.toNat heq
  rw [b.toNat_offset h] at htoNat
  have hlt := b.offset_lt h
  have hfits := b.pool_fits
  have hbase := b.base_pos
  have hblk := b.blksize_pos
  have hno : noMem.toNat = 4294967295 := rfl
  omega

/-- The cleared map. -/
theorem cell_zeros (n i : Nat) : (CBuffer.fill n (0 : UInt16)).cell i = 0 := CBuffer.cell_fill n i

/-- A number of cells fits the `u16` of the map. -/
theorem Bank.toNat_count {n : Nat} (h : n ≤ b.memtblsize) : (UInt16.ofNat n).toNat = n := by
  have hlt := b.tblsize_lt
  exact UInt16.toNat_ofNat_of_lt' (by simp only [UInt16.size]; omega)

end Sizes

-- ============================================================================
-- What a call does to the map
-- ============================================================================

section Calls

variable {b : Bank} {p p' : Pool b} {size : UInt32} {off : Nat}

/-- `size` bytes are allocated at cell `off`: free cells, which the map now
    marks. -/
structure Taken (p : Pool b) (size : UInt32) (off : Nat) (p' : Pool b) : Prop where
  size_ne : size ≠ 0
  inside : off + b.nmemb size ≤ b.memtblsize
  free : ∀ i, (CellRun.mk off (b.nmemb size)).Contains i → p.memmap.cell i = 0
  marked : ∀ i, p'.memmap.cell i
    = if (CellRun.mk off (b.nmemb size)).Contains i then UInt16.ofNat (b.nmemb size)
      else p.memmap.cell i
  mem : p'.mem = p.mem
  ready : p'.memrdy = true

/-- The cells of `r`, and nothing else, are released. -/
structure Cleared (p : Pool b) (r : CellRun) (p' : Pool b) : Prop where
  cleared : ∀ i, p'.memmap.cell i = if r.Contains i then 0 else p.memmap.cell i
  mem : p'.mem = p.mem
  ready : p'.memrdy = p.memrdy

/-- **Release.**  Given the offset of a run whose first cell holds its length,
    `my_mem_free` clears that run. -/
theorem myMemFree_cleared (hready : p.memrdy = true) {r : CellRun} (hpos : 0 < r.count)
    (hin : r.first + r.count ≤ b.memtblsize) (hcell : (p.memmap.cell r.first).toNat = r.count) :
    ∃ p', myMemFree p (UInt32.ofNat (r.first * b.memblksize)) = some (0, p') ∧ Cleared p r p' := by
  have hfirst : r.first < b.memtblsize := by omega
  have hoffset := b.toNat_offset hfirst
  have hlt := b.offset_lt hfirst
  have hblk := b.blksize_pos
  obtain ⟨map, hmap, hcells⟩ := CBuffer.storeCells_inside hin 0 p.memmap
  refine ⟨{ p with memmap := map }, ?_, hcells, rfl, rfl⟩
  have hindex : r.first * b.memblksize / b.memblksize = r.first := Nat.mul_div_cancel _ hblk
  rw [myMemFree, if_neg (by rw [hready]; decide), hoffset, if_pos (by omega)]
  simp only [hindex, hcell, hmap, Option.map_some]

/-- An address outside the pool is not released. -/
theorem myMemFree_outside (hready : p.memrdy = true) {ptr : UInt32}
    (hout : ptr.toNat < b.membase.toNat ∨ b.membase.toNat + b.memsize ≤ ptr.toNat) :
    myMemFree p (ptr - b.membase) = some (2, p) := by
  have hfits := b.pool_fits
  have hlt := ptr.toNat_lt
  have hsub : ¬ (ptr - b.membase).toNat < b.memsize := by
    rw [UInt32.toNat_sub]
    omega
  rw [myMemFree, if_neg (by rw [hready]; decide), if_neg hsub]

end Calls

end McuFirmware.Malloc
