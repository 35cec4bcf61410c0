/-
  McuFirmware.Malloc.Heap

  The map of the memory manager over whole histories of `mymalloc`, `myfree` and
  the stores of the users.

  The map has no headers: a release reads the length of a block from its first
  cell.  A `Heap` keeps, beside the bank, the blocks handed out and not yet
  released; `Represented` ties the two by `Marks`, and every property of the
  live blocks is read off it.
-/

import Mathlib.Logic.Function.Basic
import McuFirmware.Lib.Run
import McuFirmware.Malloc.Fit

namespace McuFirmware.Malloc

open McuFirmware.Lib

/-- A block as its user knows it: the pointer returned and the size asked for. -/
structure Block where
  ptr : UInt32
  size : UInt32
deriving DecidableEq

/-- The cells of a block. -/
def Block.run (b : Bank) (x : Block) : CellRun :=
  ⟨(x.ptr - b.membase).toNat / b.memblksize, b.nmemb x.size⟩

/-- A bank and its live blocks. -/
structure Heap (b : Bank) where
  pool : Pool b
  live : List Block
deriving DecidableEq

/-- What a user does: the two calls, and a store through a pointer. -/
inductive Op where
  | malloc (size : UInt32)
  | free (ptr : UInt32)
  | store (ptr : UInt32) (byte : UInt8)
deriving DecidableEq

section Heap

variable {b : Bank}

/-- One call; `none` where it stores behind the map, or the user outside the pool. -/
def Heap.step (h : Heap b) : Op → Option (Heap b)
  | .malloc size =>
      (mymalloc h.pool size).map fun (ptr, pool) =>
        ⟨pool, if ptr = 0 then h.live else ⟨ptr, size⟩ :: h.live⟩
  | .free ptr => (myfree h.pool ptr).map fun pool => ⟨pool, h.live.eraseP (·.ptr = ptr)⟩
  | .store ptr byte =>
      let k := (ptr - b.membase).toNat
      if k < b.memsize then
        some { h with pool := { h.pool with mem := h.pool.mem.setCell k byte } }
      else none

/-- The address is outside the pool. -/
def Bank.Outside (b : Bank) (ptr : UInt32) : Prop :=
  ptr.toNat < b.membase.toNat ∨ b.membase.toNat + b.memsize ≤ ptr.toNat

/-- `NULL`, the pointer of a live block, or an address outside the pool. -/
def Heap.MayFree (h : Heap b) (ptr : UInt32) : Prop :=
  ptr = 0 ∨ (∃ x ∈ h.live, x.ptr = ptr) ∨ b.Outside ptr

/-- A block lies on whole cells of the pool. -/
structure Placed (b : Bank) (x : Block) : Prop where
  size_ne : x.size ≠ 0
  ptr : x.ptr = b.membase + UInt32.ofNat ((x.run b).first * b.memblksize)
  inside : (x.run b).first + (x.run b).count ≤ b.memtblsize

/-- The map describes the live blocks. -/
structure Represented (h : Heap b) : Prop where
  ready : h.pool.memrdy = true
  placed : ∀ x ∈ h.live, Placed b x
  marks : Marks (fun i => (h.pool.memmap.cell i).toNat) (h.live.map (Block.run b))

/-- What the users of the bank rely on. -/
structure Sound (h : Heap b) : Prop where
  aligned : ∀ x ∈ h.live, x.ptr.toNat = b.membase.toNat + (x.run b).first * b.memblksize
  inside : ∀ x ∈ h.live, (x.run b).first + (x.run b).count ≤ b.memtblsize
  covers : ∀ x ∈ h.live, x.size.toNat ≤ (x.run b).count * b.memblksize
  disjoint : h.live.Pairwise fun x y => (x.run b).Apart (y.run b)
  marked : ∀ x ∈ h.live, ∀ i, (x.run b).Contains i →
    (h.pool.memmap.cell i).toNat = (x.run b).count
  free_iff : ∀ i < b.memtblsize,
    h.pool.memmap.cell i = 0 ↔ ∀ x ∈ h.live, ¬ (x.run b).Contains i

-- ============================================================================
-- Placed blocks
-- ============================================================================

section Placed

variable {x : Block}

theorem Placed.count_pos (h : Placed b x) : 0 < (x.run b).count := b.nmemb_pos h.size_ne

theorem Placed.first_lt (h : Placed b x) : (x.run b).first < b.memtblsize := by
  have hin := h.inside
  have hpos := h.count_pos
  omega

theorem Placed.toNat_ptr (h : Placed b x) :
    x.ptr.toNat = b.membase.toNat + (x.run b).first * b.memblksize := by
  have hlt := b.offset_lt h.first_lt
  have hfits := b.pool_fits
  have hblk := b.blksize_pos
  rw [h.ptr, UInt32.toNat_add, b.toNat_offset h.first_lt]
  omega

/-- The offset `myfree` computes. -/
theorem Placed.offset (h : Placed b x) :
    x.ptr - b.membase = UInt32.ofNat ((x.run b).first * b.memblksize) := by
  conv_lhs => rw [h.ptr]
  rw [UInt32.add_comm, UInt32.add_sub_cancel]

theorem Placed.not_outside (h : Placed b x) : ¬ b.Outside x.ptr := by
  have hptr := h.toNat_ptr
  have hlt := b.offset_lt h.first_lt
  have hblk := b.blksize_pos
  rintro (hbelow | habove)
  · omega
  · omega

theorem Placed.ptr_ne_null (h : Placed b x) : x.ptr ≠ 0 := by
  have hptr := h.toNat_ptr
  have hbase := b.base_pos
  intro hz
  rw [hz] at hptr
  have hzero : (0 : UInt32).toNat = 0 := rfl
  omega

/-- The block an allocation at cell `off` hands out. -/
theorem run_taken {p p' : Pool b} {size : UInt32} {off : Nat} (h : Taken p size off p') :
    (Block.mk (b.membase + UInt32.ofNat (off * b.memblksize)) size).run b
      = ⟨off, b.nmemb size⟩ := by
  have hpos := b.nmemb_pos h.size_ne
  have hin := h.inside
  have hoff : off < b.memtblsize := by omega
  have hindex : off * b.memblksize / b.memblksize = off := Nat.mul_div_cancel _ b.blksize_pos
  rw [Block.run, UInt32.add_comm, UInt32.add_sub_cancel, b.toNat_offset hoff, hindex]

end Placed

-- ============================================================================
-- One call
-- ============================================================================

section Calls

variable {p p' : Pool b} {l l' : List Block} {x : Block} {h h' : Heap b}

theorem Represented.perm (hr : Represented ⟨p, l⟩) (hperm : l.Perm l') :
    Represented (b := b) ⟨p, l'⟩ where
  ready := hr.ready
  placed x hx := hr.placed x (hperm.mem_iff.mpr hx)
  marks := hr.marks.perm (hperm.map _)

/-- The first cell of a live block holds its length. -/
theorem Represented.first_cell (hr : Represented h) (hx : x ∈ h.live) :
    (h.pool.memmap.cell (x.run b).first).toNat = (x.run b).count :=
  hr.marks.marked _ (List.mem_map_of_mem hx) _
    (CellRun.contains_first (hr.placed x hx).count_pos)

/-- `my_mem_free` of a live block clears its cells. -/
theorem Represented.free_block (hr : Represented h) (hx : x ∈ h.live) :
    ∃ p', myMemFree h.pool (x.ptr - b.membase) = some (0, p') ∧ Cleared h.pool (x.run b) p' := by
  have hplaced := hr.placed x hx
  rw [hplaced.offset]
  exact myMemFree_cleared hr.ready hplaced.count_pos hplaced.inside (hr.first_cell hx)

/-- Releasing a block leaves the others represented. -/
theorem Represented.cleared (hr : Represented ⟨p, x :: l⟩) (hc : Cleared p (x.run b) p') :
    Represented ⟨p', l⟩ where
  ready := hc.ready.trans hr.ready
  placed y hy := hr.placed y (List.mem_cons_of_mem x hy)
  marks := by
    apply hr.marks.remove
    intro i
    rw [hc.cleared]
    split <;> rfl

theorem Represented.free_head (hr : Represented ⟨p, x :: l⟩) :
    ∃ p', myfree p x.ptr = some p' ∧ Represented ⟨p', l⟩ := by
  obtain ⟨p', hfree, hc⟩ := hr.free_block List.mem_cons_self
  refine ⟨p', ?_, hr.cleared hc⟩
  rw [myfree, if_neg (hr.placed x List.mem_cons_self).ptr_ne_null, hfree, Option.map_some]

/-- A successful allocation adds its block. -/
theorem Represented.taken (hr : Represented h) {size : UInt32} {off : Nat}
    (ht : Taken h.pool size off p') :
    Represented ⟨p', ⟨b.membase + UInt32.ofNat (off * b.memblksize), size⟩ :: h.live⟩ where
  ready := ht.ready
  placed := by
    refine List.forall_mem_cons.mpr ⟨⟨ht.size_ne, ?_, ?_⟩, hr.placed⟩
    · rw [run_taken ht]
    · rw [run_taken ht]
      exact ht.inside
  marks := by
    have hin : b.nmemb size ≤ b.memtblsize := Nat.le_of_add_left_le ht.inside
    rw [List.map_cons, run_taken ht]
    refine hr.marks.add (b.nmemb_pos ht.size_ne) ?_ ?_
    · intro i hi
      rw [ht.free i hi]
      rfl
    · intro i
      rw [ht.marked]
      split
      · exact b.toNat_count hin
      · rfl

/-- **Step lemma, allocation.** -/
theorem represented_malloc (hr : Represented h) (size : UInt32) :
    ∃ h', h.step (.malloc size) = some h' ∧ Represented h' := by
  rcases myMemMalloc_taken hr.ready size with hno | ⟨off, p', hyes, ht⟩
  · refine ⟨h, ?_, hr⟩
    rw [Heap.step, mymalloc, hno]
    rfl
  · have hpos := b.nmemb_pos ht.size_ne
    have hin := ht.inside
    have hoff : off < b.memtblsize := by omega
    have hnew := hr.taken ht
    have hnull := (hnew.placed _ List.mem_cons_self).ptr_ne_null
    refine ⟨_, ?_, hnew⟩
    rw [Heap.step, mymalloc, hyes]
    simp only [Option.map_some, if_neg (b.offset_ne_noMem hoff), if_neg hnull]

/-- A pointer that belongs to no live block leaves the list of blocks alone. -/
theorem eraseP_of_not_live {ptr : UInt32} (h : ∀ x ∈ l, x.ptr ≠ ptr) :
    l.eraseP (·.ptr = ptr) = l := by
  apply List.eraseP_of_forall_not
  intro x hx
  simpa using h x hx

/-- **Step lemma, release.** -/
theorem represented_free (hr : Represented h) {ptr : UInt32} (hmay : h.MayFree ptr) :
    ∃ h', h.step (.free ptr) = some h' ∧ Represented h' := by
  rcases hmay with rfl | ⟨x, hx, rfl⟩ | hout
  · -- `NULL`
    refine ⟨h, ?_, hr⟩
    rw [Heap.step, eraseP_of_not_live (fun x hx => (hr.placed x hx).ptr_ne_null)]
    rfl
  · -- the block found by the pointer may be listed behind others
    obtain ⟨y, l₁, l₂, -, hy, hlive, herase⟩ :=
      List.exists_of_eraseP (p := fun z : Block => decide (z.ptr = x.ptr)) hx (decide_eq_true rfl)
    have hperm : h.live.Perm (y :: h.live.eraseP (·.ptr = x.ptr)) := by
      rw [herase, hlive]
      exact List.perm_middle
    obtain ⟨p', hfree, hrest⟩ := (hr.perm (p := h.pool) hperm).free_head
    rw [of_decide_eq_true hy] at hfree
    refine ⟨_, ?_, hrest⟩
    rw [Heap.step, hfree, Option.map_some]
  · -- an address outside the pool
    have hnone : ∀ x ∈ h.live, x.ptr ≠ ptr := by
      rintro x hx rfl
      exact (hr.placed x hx).not_outside hout
    refine ⟨h, ?_, hr⟩
    rw [Heap.step, eraseP_of_not_live hnone, myfree, myMemFree_outside hr.ready hout]
    split <;> rfl

theorem Bank.index_lt {ptr : UInt32} (h : ¬ b.Outside ptr) :
    (ptr - b.membase).toNat < b.memsize := by
  have hfits := b.pool_fits
  have hlt := ptr.toNat_lt
  rw [Bank.Outside, not_or] at h
  rw [UInt32.toNat_sub]
  omega

/-- **Step lemma, store.**  The map is not part of the pool. -/
theorem represented_store (hr : Represented h) {ptr : UInt32} (hmay : ¬ b.Outside ptr)
    (byte : UInt8) : ∃ h', h.step (.store ptr byte) = some h' ∧ Represented h' := by
  let mem := h.pool.mem.setCell (ptr - b.membase).toNat byte
  have hstored : Represented { h with pool := { h.pool with mem := mem } } :=
    ⟨hr.ready, hr.placed, hr.marks⟩
  exact ⟨_, if_pos (Bank.index_lt hmay), hstored⟩

end Calls

-- ============================================================================
-- What the map says about the blocks
-- ============================================================================

/-- `myfree` of each pointer in turn. -/
def freeAll (p : Pool b) (ptrs : List UInt32) : Option (Pool b) := ptrs.foldlM myfree p

section Blocks

variable {h : Heap b} {p : Pool b} {l : List Block}

theorem Represented.sound (hr : Represented h) : Sound h where
  aligned x hx := (hr.placed x hx).toNat_ptr
  inside x hx := (hr.placed x hx).inside
  covers x _ := b.le_nmemb_mul x.size
  disjoint := List.pairwise_map.mp hr.marks.apart
  marked x hx := hr.marks.marked _ (List.mem_map_of_mem hx)
  free_iff i _ := by
    rw [← List.forall_mem_map (P := fun r : CellRun => ¬ r.Contains i),
      ← hr.marks.eq_zero_iff i]
    exact UInt16.toNat_inj.symm

theorem myMemPerused_unused (h : p.memmap = CBuffer.fill _ 0) : myMemPerused p = 0 := by
  have hnone : p.memmap.cells.countP (· ≠ 0) = 0 := by
    rw [h, List.countP_eq_zero]
    intro c hc
    rw [List.eq_of_mem_replicate hc]
    decide
  rw [myMemPerused, hnone, Nat.zero_mul, Nat.zero_div]
  rfl

/-- Without a live block the map is all zeros. -/
theorem Represented.unused (hr : Represented ⟨p, []⟩) : p.memmap = CBuffer.fill _ 0 := by
  apply CBuffer.ext_cell
  intro i _
  rw [cell_zeros]
  exact UInt16.toNat_inj.mp (marks_nil.mp hr.marks i)

/-- All blocks released, in the order listed. -/
theorem Represented.freeAll (hr : Represented ⟨p, l⟩) :
    ∃ p', freeAll p (l.map (·.ptr)) = some p' ∧ Represented ⟨p', []⟩ := by
  induction l generalizing p with
  | nil => exact ⟨p, rfl, hr⟩
  | cons x l ih =>
      obtain ⟨q, hfree, hq⟩ := hr.free_head
      obtain ⟨p', hrest, hp'⟩ := ih hq
      refine ⟨p', ?_, hp'⟩
      rw [List.map_cons, Malloc.freeAll, List.foldlM_cons, hfree]
      exact hrest

end Blocks

end Heap

-- ============================================================================
-- The two banks
-- ============================================================================

/-- Where the linker places `mem1base`; `mem2base` is at a fixed address. -/
structure Layout where
  mem1base : UInt32
  base_ne_null : mem1base ≠ 0
  pool_fits : mem1base.toNat + 16 * 1024 ≤ 4294967296

/-- `SRAMIN` and `SRAMEX`. -/
def Layout.bank (L : Layout) : Fin 2 → Bank
  | 0 => ⟨L.mem1base, 512, 32, 16 * 1024, by decide, by decide, by decide, by decide,
      L.base_ne_null, L.pool_fits⟩
  | 1 => ⟨0x68000000, 1, 32, 32, by decide, by decide, by decide, by decide, by decide,
      by decide⟩

/-- `mallco_dev` with the live blocks of each bank. -/
abbrev Heaps (L : Layout) : Type := (memx : Fin 2) → Heap (L.bank memx)

/-- A call on the bank `memx`. -/
structure Call where
  memx : Fin 2
  op : Op
deriving DecidableEq

/-- One call; nothing is known after a store behind a map. -/
def callStep {L : Layout} : Option (Heaps L) → Call → Option (Heaps L)
  | none, _ => none
  | some d, c => ((d c.memx).step c.op).map (Function.update d c.memx)

/-- Only what may be released is passed to `myfree`, and the users store into the
    pool only. -/
def MayCall {L : Layout} : Option (Heaps L) → Call → Prop
  | some d, ⟨memx, .free ptr⟩ => (d memx).MayFree ptr
  | some _, ⟨memx, .store ptr _⟩ => ¬ (L.bank memx).Outside ptr
  | _, _ => True

theorem mayCall_malloc {L : Layout} (o : Option (Heaps L)) (memx : Fin 2) (size : UInt32) :
    MayCall o ⟨memx, .malloc size⟩ := by
  cases o <;> trivial

/-- Both banks after `my_mem_init`. -/
def initHeaps {L : Layout} (cold : (memx : Fin 2) → Pool (L.bank memx)) : Heaps L :=
  fun memx => ⟨myMemInit (cold memx), []⟩

section Run

variable {L : Layout} {d : Heaps L}

theorem represented_init {b : Bank} (p : Pool b) : Represented ⟨myMemInit p, []⟩ where
  ready := rfl
  placed _ hx := absurd hx List.not_mem_nil
  marks := by
    apply marks_nil.mpr
    intro i
    rw [myMemInit, cell_zeros]
    rfl

/-- **Step lemma.** -/
theorem represented_call (hd : ∀ m, Represented (d m)) {c : Call} (hmay : MayCall (some d) c) :
    ∃ d', callStep (some d) c = some d' ∧ ∀ m, Represented (d' m) := by
  obtain ⟨memx, op⟩ := c
  obtain ⟨h', hstep, hr⟩ : ∃ h', (d memx).step op = some h' ∧ Represented h' := by
    cases op with
    | malloc size => exact represented_malloc (hd memx) size
    | free ptr => exact represented_free (hd memx) hmay
    | store ptr byte => exact represented_store (hd memx) hmay byte
  refine ⟨Function.update d memx h', by rw [callStep, hstep, Option.map_some], fun m => ?_⟩
  by_cases hm : m = memx
  · subst hm
    rw [Function.update_self]
    exact hr
  · rw [Function.update_of_ne hm]
    exact hd m

/-- **Run lemma.** -/
theorem represented_run (hd : ∀ m, Represented (d m)) {calls : List Call}
    (hmay : StepsMeet callStep MayCall (some d) calls) :
    ∃ d', run callStep (some d) calls = some d' ∧ ∀ m, Represented (d' m) := by
  refine run_inv (C := MayCall) (I := fun o => ∃ d', o = some d' ∧ ∀ m, Represented (d' m))
    ?_ ⟨d, rfl, hd⟩ hmay
  rintro _ c ⟨d, rfl, hd⟩ hc
  exact represented_call hd hc

end Run

/-- **The allocator's map.**  After every sequence of `mymalloc` and permitted
    `myfree` calls on the two banks, with any stores of the users between them:
    the live blocks are disjoint runs of whole cells that cover what was asked
    for, and the map records exactly them;
    `my_mem_free` of a live block clears exactly its cells; and releasing all
    live blocks in any order empties the map. -/
theorem allocator_invariant (L : Layout) (cold : (memx : Fin 2) → Pool (L.bank memx))
    (calls : List Call)
    (hmay : StepsMeet callStep MayCall (some (initHeaps cold)) calls) :
    ∃ d, run callStep (some (initHeaps cold)) calls = some d ∧ ∀ memx,
      Sound (d memx) ∧
      (∀ x ∈ (d memx).live,
        ∃ p', myMemFree (d memx).pool (x.ptr - (L.bank memx).membase) = some (0, p') ∧
          Cleared (d memx).pool (x.run (L.bank memx)) p') ∧
      ∀ order : List Block, order.Perm (d memx).live →
        ∃ p', freeAll (d memx).pool (order.map (·.ptr)) = some p' ∧
          p'.memmap = CBuffer.fill _ 0 ∧ myMemPerused p' = 0 := by
  obtain ⟨d, hrun, hd⟩ := represented_run (fun m => represented_init (cold m)) hmay
  refine ⟨d, hrun, fun memx => ?_⟩
  have hr := hd memx
  refine ⟨hr.sound, fun x hx => hr.free_block hx, fun order hperm => ?_⟩
  obtain ⟨p', hfree, hp'⟩ := (hr.perm (p := (d memx).pool) hperm.symm).freeAll
  exact ⟨p', hfree, hp'.unused, myMemPerused_unused hp'.unused⟩

/-- A layout with `mem1base` at the start of the internal SRAM. -/
def sampleLayout : Layout := ⟨0x20000000, by decide, by decide⟩

/-- Its banks before `my_mem_init`. -/
def coldPools (memx : Fin 2) : Pool (sampleLayout.bank memx) :=
  ⟨CBuffer.fill _ 0, CBuffer.fill _ 0, false⟩

/-- Two blocks of one size, side by side. -/
def neighbours : List Call := List.replicate 2 ⟨0, .malloc 100⟩

/-- The upper one of two neighbours is released. -/
theorem allocator_invariant_neighbours :
    ∃ d, run callStep (some (initHeaps coldPools)) (neighbours ++ [⟨0, .free 0x20003F80⟩])
      = some d ∧ Sound (d 0) := by
  have htwo : (run callStep (some (initHeaps coldPools)) neighbours).map (fun d => (d 0).live)
      = some [⟨0x20003F00, 100⟩, ⟨0x20003F80, 100⟩] := by decide +kernel
  obtain ⟨d, hd, hlive⟩ := Option.map_eq_some_iff.mp htwo
  have hin : (⟨0x20003F80, 100⟩ : Block) ∈ (d 0).live := by
    rw [hlive]
    decide
  have hmallocs : ∀ c ∈ neighbours, ∀ o : Option (Heaps sampleLayout), MayCall o c := by
    intro c hc o
    rw [List.eq_of_mem_replicate hc]
    exact mayCall_malloc o 0 100
  have hmay : StepsMeet callStep MayCall (some (initHeaps coldPools))
      (neighbours ++ [⟨0, .free 0x20003F80⟩]) := by
    rw [stepsMeet_concat, hd]
    exact ⟨stepsMeet_of_forall hmallocs _, .inr (.inl ⟨_, hin, rfl⟩)⟩
  obtain ⟨d', hrun, hall⟩ := allocator_invariant sampleLayout coldPools _ hmay
  exact ⟨d', hrun, (hall 0).1⟩

-- ============================================================================
-- The inner functions, with any arguments
-- ============================================================================

/-- A call of `my_mem_malloc` or `my_mem_free`. -/
inductive InnerCall where
  | malloc (size : UInt32)
  | free (offset : UInt32)

/-- One call; nothing is known after a store behind the map. -/
def innerStep {b : Bank} : Option (Pool b) → InnerCall → Option (Pool b)
  | none, _ => none
  | some p, .malloc size => (myMemMalloc p size).map (·.2)
  | some p, .free offset => (myMemFree p offset).map (·.2)

/-- The map of a bank that is not ready has never been used. -/
def Pool.Begun {b : Bank} (p : Pool b) : Prop :=
  p.memrdy = false → p.memmap = CBuffer.fill _ 0

section Inner

variable {b : Bank} {p p' : Pool b}

theorem begun_of_ready (h : p.memrdy = true) : p.Begun :=
  fun hnot => absurd h (by rw [hnot]; decide)

/-- `my_mem_malloc` starts with a bank that is ready. -/
theorem Pool.Begun.ready (h : p.Begun) :
    ∃ q : Pool b, q.memrdy = true ∧ q.memmap = p.memmap ∧
      ∀ size, myMemMalloc p size = myMemMalloc q size := by
  cases hready : p.memrdy with
  | true => exact ⟨p, hready, rfl, fun _ => rfl⟩
  | false =>
      refine ⟨myMemInit p, rfl, (h hready).symm, fun size => ?_⟩
      simp [myMemMalloc, hready, myMemInit]

theorem begun_step {c : InnerCall} (h : p.Begun) (hstep : innerStep (some p) c = some p') :
    p'.Begun := by
  apply begun_of_ready
  cases c with
  | malloc size =>
      obtain ⟨q, hq, -, hsame⟩ := h.ready
      rw [innerStep, hsame] at hstep
      rcases myMemMalloc_taken hq size with hno | ⟨off, q', hyes, ht⟩
      · rw [hno] at hstep
        cases hstep
        exact hq
      · rw [hyes] at hstep
        cases hstep
        exact ht.ready
  | free offset =>
      obtain ⟨⟨code, q⟩, hfree, rfl⟩ := Option.map_eq_some_iff.mp hstep
      rw [myMemFree] at hfree
      split at hfree
      next => cases hfree; rfl
      next hready =>
        have hrdy : p.memrdy = true := by simpa using hready
        split at hfree
        next =>
          obtain ⟨map, -, hmap⟩ := Option.map_eq_some_iff.mp hfree
          cases hmap
          exact hrdy
        next => cases hfree; exact hrdy

theorem begun_run {calls : List InnerCall} (h : p.Begun)
    (hrun : run innerStep (some p) calls = some p') : p'.Begun := by
  have hinv : ∀ q, run innerStep (some p) calls = some q → q.Begun := by
    refine run_inv (C := fun _ _ => True) (I := fun o => ∀ q : Pool b, o = some q → q.Begun) ?_
      ?_
      (stepsMeet_of_forall (fun _ _ _ => trivial) _)
    · rintro (_ | r) c hr - q hq
      · cases hq
      · exact begun_step (hr r rfl) hq
    · intro q hq
      cases hq
      exact h
  exact hinv p' hrun

end Inner

theorem Layout.memblksize_eq (L : Layout) (memx : Fin 2) : (L.bank memx).memblksize = 32 := by
  match memx with
  | 0 => rfl
  | 1 => rfl

theorem Layout.nmemb_eq (L : Layout) (memx : Fin 2) (size : UInt32) :
    (L.bank memx).nmemb size = (size.toNat + 31) / 32 := by
  rw [Bank.nmemb, L.memblksize_eq]
  split <;> omega

/-- **Allocation takes the highest fit.**  After every sequence of `my_mem_malloc`
    and `my_mem_free` calls: without `ceil(size/32)` consecutive free cells, or
    for size 0, `my_mem_malloc` returns `0xFFFFFFFF` and leaves the map; else it
    returns the offset of the highest such run and marks exactly its cells. -/
theorem malloc_takes_highest_fit (L : Layout) (memx : Fin 2) (p₀ : Pool (L.bank memx))
    (hbegun : p₀.Begun) (calls : List InnerCall) (p : Pool (L.bank memx))
    (hrun : run innerStep (some p₀) calls = some p) (size : UInt32) :
    let n := (size.toNat + 31) / 32
    (size = 0 ∨ fits p.memmap n = ∅ →
      ∃ p', myMemMalloc p size = some (0xFFFFFFFF, p') ∧ p'.memmap = p.memmap) ∧
    (size ≠ 0 → (fits p.memmap n).Nonempty →
      ∃ o offset p', IsGreatest (fits p.memmap n) o ∧ myMemMalloc p size = some (offset, p') ∧
        offset.toNat = 32 * o ∧ offset ≠ 0xFFFFFFFF ∧
        (∀ i, (CellRun.mk o n).Contains i → (p'.memmap.cell i).toNat = n ∧ n ≠ 0) ∧
        ∀ i, p'.memmap.cell i ≠ p.memmap.cell i ↔ (CellRun.mk o n).Contains i) := by
  intro n
  have hn : (L.bank memx).nmemb size = n := L.nmemb_eq memx size
  obtain ⟨q, hready, hmap, hsame⟩ := (begun_run hbegun hrun).ready
  have hfit := myMemMalloc_fit hready size
  rw [hn, hmap, ← hsame] at hfit
  rcases hfit with ⟨hnofit, hno⟩ | ⟨o, p', hgreatest, hyes, ht⟩
  · refine ⟨fun _ => ⟨q, hno, hmap⟩, fun hsize hsome => ?_⟩
    rcases hnofit with hzero | hempty
    · exact absurd hzero hsize
    · rw [hempty] at hsome
      exact absurd hsome Set.not_nonempty_empty
  · constructor
    · rintro (hzero | hempty)
      · exact absurd hzero ht.size_ne
      · have hmem : o ∈ fits p.memmap n := hgreatest.1
        rw [hempty] at hmem
        exact absurd hmem (Set.notMem_empty o)
    · intro _ _
      have hpos : 0 < n := hn ▸ (L.bank memx).nmemb_pos ht.size_ne
      have hin : o + n ≤ (L.bank memx).memtblsize := hgreatest.1.1
      have ho : o < (L.bank memx).memtblsize := by omega
      have hcount : (UInt16.ofNat n).toNat = n := (L.bank memx).toNat_count (by omega)
      have hmarked := ht.marked
      rw [hn, hmap] at hmarked
      have hoffset := (L.bank memx).toNat_offset ho
      rw [L.memblksize_eq, Nat.mul_comm] at hoffset
      refine ⟨o, _, p', hgreatest, hyes, ?_, (L.bank memx).offset_ne_noMem ho, ?_, ?_⟩
      · rw [L.memblksize_eq, Nat.mul_comm]
        exact hoffset
      · intro i hi
        rw [hmarked, if_pos hi]
        exact ⟨hcount, by omega⟩
      · intro i
        rw [hmarked]
        by_cases hi : (CellRun.mk o n).Contains i
        · rw [if_pos hi, hgreatest.1.2 i hi]
          refine iff_of_true (fun hz => ?_) hi
          have hzero : (0 : UInt16).toNat = 0 := rfl
          rw [hz, hzero] at hcount
          omega
        · rw [if_neg hi]
          exact iff_of_false (fun hne => hne rfl) hi

/-- 33 bytes between a released block and a live one. -/
theorem malloc_takes_highest_fit_gap :
    ∃ p, run innerStep (some (coldPools 0)) [.malloc 100, .malloc 100, .free 0x3F80] = some p ∧
      ∃ o offset p', IsGreatest (fits p.memmap 2) o ∧ myMemMalloc p 33 = some (offset, p') ∧
        offset.toNat = 32 * o := by
  have hcells : (run innerStep (some (coldPools 0)) [.malloc 100, .malloc 100, .free 0x3F80]).map
      (fun p => (p.memmap.cell 0, p.memmap.cell 1)) = some (0, 0) := by decide +kernel
  obtain ⟨p, hrun, hp⟩ := Option.map_eq_some_iff.mp hcells
  obtain ⟨h0, h1⟩ := Prod.mk.inj hp
  have hfit : (fits p.memmap 2).Nonempty := by
    refine ⟨0, by decide, ?_⟩
    rintro i ⟨-, hi⟩
    obtain rfl | rfl : i = 0 ∨ i = 1 := by
      have hlt : i < 0 + 2 := hi
      omega
    · exact h0
    · exact h1
  have hbegun : (coldPools 0).Begun := fun _ => rfl
  obtain ⟨-, hyes⟩ := malloc_takes_highest_fit sampleLayout 0 (coldPools 0) hbegun _ p hrun 33
  obtain ⟨o, offset, p', hgreatest, hmalloc, hoffset, -⟩ := hyes (by decide) hfit
  exact ⟨p, hrun, o, offset, p', hgreatest, hmalloc, hoffset⟩

end McuFirmware.Malloc
