/-
  McuFirmware.Malloc.Fit

  Which cells `my_mem_malloc` takes.

  The search visits the map from the top and keeps a count of free cells only.
  `SearchInv` is what that count means: it is the length of the free run that
  starts where the search stands, too short yet, and nothing above it fits.
  From it `searchMap_greatest` follows: the search stops at the highest fit, and
  at the bottom only if there is none.
-/

import Mathlib.Order.Bounds.Basic
import McuFirmware.Malloc.Pool

namespace McuFirmware.Malloc

open McuFirmware.Lib

section Search

variable {b : Bank}

/-- The cells where a run of `n` free cells starts. -/
def fits (memmap : CBuffer UInt16 b.memtblsize) (n : Nat) : Set Nat :=
  { o | o + n ≤ b.memtblsize ∧ ∀ i, (CellRun.mk o n).Contains i → memmap.cell i = 0 }

/-- The state of the search for `n` cells: `cmemb` free cells lie directly behind
    the cells still to be visited, and no more; no fit is behind these. -/
structure SearchInv (memmap : CBuffer UInt16 b.memtblsize) (n left cmemb : Nat) : Prop where
  short : cmemb < n
  inside : left + cmemb ≤ b.memtblsize
  free : ∀ i, left ≤ i → i < left + cmemb → memmap.cell i = 0
  stop : left + cmemb < b.memtblsize → memmap.cell (left + cmemb) ≠ 0
  below : ∀ o ∈ fits memmap n, o < left

variable {memmap : CBuffer UInt16 b.memtblsize} {n left cmemb : Nat}

/-- A free run that is too short is not a fit. -/
theorem not_mem_fits (hshort : cmemb < n)
    (hstop : left + cmemb < b.memtblsize → memmap.cell (left + cmemb) ≠ 0) :
    left ∉ fits memmap n := by
  rintro ⟨hin, hfree⟩
  exact hstop (by omega) (hfree (left + cmemb) ⟨Nat.le_add_right _ _, Nat.add_lt_add_left hshort _⟩)

theorem searchInv_start (memmap : CBuffer UInt16 b.memtblsize) (hn : 0 < n) :
    SearchInv memmap n b.memtblsize 0 where
  short := hn
  inside := Nat.le_refl _
  free i hle hlt := absurd hlt (by omega)
  stop h := absurd h (by omega)
  below o ho := by
    have hin : o + n ≤ b.memtblsize := ho.1
    omega

/-- A free cell makes the run one longer. -/
theorem SearchInv.free_cell (h : SearchInv memmap n (left + 1) cmemb)
    (hcell : memmap.cell left = 0) :
    (∀ i, left ≤ i → i < left + (cmemb + 1) → memmap.cell i = 0) ∧
      (left + (cmemb + 1) < b.memtblsize → memmap.cell (left + (cmemb + 1)) ≠ 0) := by
  have hend : left + (cmemb + 1) = left + 1 + cmemb := by omega
  constructor
  · intro i hle hlt
    rcases Nat.eq_or_lt_of_le hle with rfl | hgt
    · exact hcell
    · exact h.free i hgt (by omega)
  · rw [hend]
    exact h.stop

/-- A visited cell that completes no run keeps the invariant. -/
theorem SearchInv.visit (h : SearchInv memmap n (left + 1) cmemb)
    (hne : (if memmap.cell left = 0 then cmemb + 1 else 0) ≠ n) :
    SearchInv memmap n left (if memmap.cell left = 0 then cmemb + 1 else 0) := by
  have hshort := h.short
  have hin := h.inside
  have hbelow (hleft : left ∉ fits memmap n) : ∀ o ∈ fits memmap n, o < left := by
    intro o ho
    have hlt := h.below o ho
    have hnot : o ≠ left := fun heq => hleft (heq ▸ ho)
    omega
  by_cases hcell : memmap.cell left = 0
  · rw [if_pos hcell] at hne ⊢
    obtain ⟨hfree, hstop⟩ := h.free_cell hcell
    have hshort' : cmemb + 1 < n := by omega
    exact ⟨hshort', by omega, hfree, hstop, hbelow (not_mem_fits hshort' hstop)⟩
  · rw [if_neg hcell] at hne ⊢
    have hpos : 0 < n := by omega
    have hstop : left + 0 < b.memtblsize → memmap.cell (left + 0) ≠ 0 := fun _ => hcell
    exact ⟨hpos, by omega, fun i hle hlt => absurd hlt (by omega), hstop,
      hbelow (not_mem_fits hpos hstop)⟩

/-- **The search finds the highest fit**, and fails only without one. -/
theorem searchMap_greatest (h : SearchInv memmap n left cmemb) :
    (searchMap memmap n left cmemb = none ∧ fits memmap n = ∅) ∨
      ∃ o, searchMap memmap n left cmemb = some o ∧ IsGreatest (fits memmap n) o := by
  induction left generalizing cmemb with
  | zero =>
      refine .inl ⟨rfl, Set.eq_empty_of_forall_notMem fun o ho => ?_⟩
      exact absurd (h.below o ho) (Nat.not_lt_zero o)
  | succ left ih =>
      by_cases hfound : (if memmap.cell left = 0 then cmemb + 1 else 0) = n
      · refine .inr ⟨left, by simp only [searchMap, if_pos hfound], ?_, ?_⟩
        · -- the count has reached `n`, so this cell was free
          have hpos := h.short
          have hin := h.inside
          by_cases hcell : memmap.cell left = 0
          · rw [if_pos hcell] at hfound
            subst hfound
            exact ⟨by omega, fun i hi => (h.free_cell hcell).1 i hi.1 hi.2⟩
          · rw [if_neg hcell] at hfound
            omega
        · intro o ho
          exact Nat.le_of_lt_succ (h.below o ho)
      · have hrest := ih (h.visit hfound)
        simpa only [searchMap, if_neg hfound] using hrest

end Search

section Malloc

variable {b : Bank} {p : Pool b}

/-- **Allocation.**  `my_mem_malloc` refuses, without a fit, and leaves the bank
    alone, or takes the highest fit. -/
theorem myMemMalloc_fit (hready : p.memrdy = true) (size : UInt32) :
    ((size = 0 ∨ fits p.memmap (b.nmemb size) = ∅) ∧ myMemMalloc p size = some (noMem, p)) ∨
      ∃ off p', IsGreatest (fits p.memmap (b.nmemb size)) off ∧
        myMemMalloc p size = some (UInt32.ofNat (off * b.memblksize), p') ∧
        Taken p size off p' := by
  simp only [myMemMalloc, if_pos hready]
  by_cases hzero : size = 0
  · exact .inl ⟨.inl hzero, if_pos hzero⟩
  rw [if_neg hzero]
  rcases searchMap_greatest (searchInv_start p.memmap (b.nmemb_pos hzero)) with
    ⟨hnone, hempty⟩ | ⟨off, hsome, hgreatest⟩
  · rw [hnone]
    exact .inl ⟨.inr hempty, rfl⟩
  · obtain ⟨hin, hfree⟩ := hgreatest.1
    obtain ⟨map, hmap, hcells⟩ :=
      CBuffer.storeCells_inside hin (UInt16.ofNat (b.nmemb size)) p.memmap
    refine .inr ⟨off, { p with memmap := map }, hgreatest, ?_, ?_⟩
    · simp only [hsome, hmap, Option.map_some]
    · exact ⟨hzero, hin, hfree, hcells, rfl, hready⟩

/-- Where the fit is does not matter to the users of the block. -/
theorem myMemMalloc_taken (hready : p.memrdy = true) (size : UInt32) :
    myMemMalloc p size = some (noMem, p) ∨
      ∃ off p', myMemMalloc p size = some (UInt32.ofNat (off * b.memblksize), p') ∧
        Taken p size off p' := by
  rcases myMemMalloc_fit hready size with ⟨-, hno⟩ | ⟨off, p', -, hyes, ht⟩
  · exact .inl hno
  · exact .inr ⟨off, p', hyes, ht⟩

end Malloc

end McuFirmware.Malloc
