/-
  McuFirmware.Malloc.Realloc

  `myrealloc`: a new block beside the old one, a byte copy of the new size, and
  the release of the old block.

  The copy is followed byte by byte with the addresses it reads.  `Copied` is
  its effect on the pool; the new block gets what the old one held as far as
  that goes (`Moved`).  The length of the copy is the new size, so a block that
  grows beyond its cells is read beyond them.
-/

import McuFirmware.Malloc.Heap

namespace McuFirmware.Malloc

open McuFirmware.Lib

-- ============================================================================
-- The functions
-- ============================================================================

section Functions

variable {b : Bank}

/-- The address of byte `k` of the pool. -/
def Bank.addr (b : Bank) (k : Nat) : UInt32 := b.membase + UInt32.ofNat k

/-- The byte at an address; `outside` is the memory around the pool. -/
def readByte (p : Pool b) (outside : UInt32 → UInt8) (addr : UInt32) : UInt8 :=
  let k := (addr - b.membase).toNat
  if k < b.memsize then p.mem.cell k else outside addr

/-- `mymemcpy` into the pool: the pool after the copy and the addresses read, or
    `none` where it stores outside the pool. -/
def mymemcpy (outside : UInt32 → UInt8) (p : Pool b) (des src : UInt32) :
    Nat → Option (Pool b × List UInt32)
  | 0 => some (p, [])
  | n + 1 =>
      let k := (des - b.membase).toNat
      if k < b.memsize then
        let mem := p.mem.setCell k (readByte p outside src)
        (mymemcpy outside { p with mem := mem } (des + 1) (src + 1) n).map fun r =>
          (r.1, src :: r.2)
      else none

/-- `myrealloc`: the pointer returned, the bank and the addresses the copy reads. -/
def myrealloc (outside : UInt32 → UInt8) (p : Pool b) (ptr size : UInt32) :
    Option (UInt32 × Pool b × List UInt32) :=
  (myMemMalloc p size).bind fun r =>
    if r.1 = noMem then some (0, r.2, [])
    else
      (mymemcpy outside r.2 (b.membase + r.1) ptr size.toNat).bind fun c =>
        (myfree c.1 ptr).map fun q => (b.membase + r.1, q, c.2)

end Functions

-- ============================================================================
-- The copy
-- ============================================================================

section Copy

variable {b : Bank} {p p' : Pool b}

theorem Bank.index_addr (b : Bank) {k : Nat} (h : k ≤ b.memsize) :
    (b.addr k - b.membase).toNat = k := by
  have hfits := b.pool_fits
  have hbase := b.base_pos
  rw [Bank.addr, UInt32.add_comm, UInt32.add_sub_cancel]
  exact UInt32.toNat_ofNat_of_lt' (by simp only [UInt32.size]; omega)

theorem Bank.addr_succ (b : Bank) (k : Nat) : b.addr k + 1 = b.addr (k + 1) := by
  rw [Bank.addr, Bank.addr, UInt32.ofNat_add, UInt32.add_assoc]
  rfl

theorem readByte_addr (outside : UInt32 → UInt8) {k : Nat} (h : k < b.memsize) :
    readByte p outside (b.addr k) = p.mem.cell k := by
  simp only [readByte, b.index_addr (Nat.le_of_lt h), if_pos h]

/-- `src`, …, `src + n - 1`. -/
def addresses (src : UInt32) : Nat → List UInt32
  | 0 => []
  | n + 1 => src :: addresses (src + 1) n

theorem mem_addresses {src a : UInt32} {n : Nat} :
    a ∈ addresses src n ↔ ∃ j < n, a = src + UInt32.ofNat j := by
  induction n generalizing src with
  | zero => simp [addresses]
  | succ n ih =>
      have hnext (j : Nat) : src + UInt32.ofNat (j + 1) = src + 1 + UInt32.ofNat j := by
        rw [UInt32.ofNat_add, UInt32.add_comm (UInt32.ofNat j), UInt32.add_assoc]
        rfl
      rw [addresses, List.mem_cons, ih]
      constructor
      · rintro (rfl | ⟨j, hj, rfl⟩)
        · exact ⟨0, Nat.succ_pos n, (UInt32.add_zero a).symm⟩
        · exact ⟨j + 1, Nat.succ_lt_succ hj, (hnext j).symm⟩
      · rintro ⟨j, hj, rfl⟩
        cases j with
        | zero => exact .inl (UInt32.add_zero src)
        | succ j => exact .inr ⟨j, Nat.lt_of_succ_lt_succ hj, hnext j⟩

/-- `n` bytes are copied from byte `s` to byte `d` of the pool.  What is read
    behind the place where the copy already stores is not recorded. -/
structure Copied (p : Pool b) (d s n : Nat) (p' : Pool b) : Prop where
  map : p'.memmap = p.memmap
  ready : p'.memrdy = p.memrdy
  frame : ∀ k, ¬ (d ≤ k ∧ k < d + n) → p'.mem.cell k = p.mem.cell k
  copied : ∀ j < n, s + j < b.memsize → ¬ (d ≤ s + j ∧ s + j < d + n) →
    p'.mem.cell (d + j) = p.mem.cell (s + j)

theorem mymemcpy_copied (outside : UInt32 → UInt8) (p : Pool b) {d s n : Nat}
    (hd : d + n ≤ b.memsize) :
    ∃ p', mymemcpy outside p (b.addr d) (b.addr s) n = some (p', addresses (b.addr s) n) ∧
      Copied p d s n p' := by
  induction n generalizing p d s with
  | zero => exact ⟨p, rfl, rfl, rfl, fun _ _ => rfl, fun j hj => absurd hj (Nat.not_lt_zero j)⟩
  | succ n ih =>
      have hlt : d < b.memsize := by omega
      have hrest : d + 1 + n ≤ b.memsize := by omega
      obtain ⟨p', hcopy, hc⟩ :=
        ih { p with mem := p.mem.setCell d (readByte p outside (b.addr s)) } (s := s + 1) hrest
      have hcell := p.mem.cell_setCell hlt (readByte p outside (b.addr s))
      refine ⟨p', ?_, hc.map, hc.ready, fun k hk => ?_, fun j hj hin hout => ?_⟩
      · simp only [mymemcpy, b.index_addr (Nat.le_of_lt hlt), if_pos hlt, b.addr_succ, hcopy,
          Option.map_some, addresses]
      · rw [hc.frame k (by omega), hcell, if_neg (by omega)]
      · cases j with
        | zero =>
            -- stored first and not touched again
            rw [Nat.add_zero, Nat.add_zero, hc.frame d (by omega), hcell, if_pos rfl,
              readByte_addr outside (by omega)]
        | succ j =>
            have hsrc := hc.copied j (by omega) (by omega) (by omega)
            rw [hcell, if_neg (by omega)] at hsrc
            have hde : d + (j + 1) = d + 1 + j := by omega
            have hse : s + (j + 1) = s + 1 + j := by omega
            rw [hde, hse, hsrc]

end Copy

-- ============================================================================
-- One reallocation
-- ============================================================================

section Moved

variable {b : Bank} {h : Heap b} {x : Block} {size : UInt32}

/-- The address belongs to one of the block's cells. -/
def Block.Covers (b : Bank) (x : Block) (a : UInt32) : Prop :=
  x.ptr.toNat ≤ a.toNat ∧ a.toNat < x.ptr.toNat + (x.run b).count * b.memblksize

/-- The block `x` has moved to `ptr`: the new block takes its place among the
    live ones and holds its bytes, its cells are free, and the cells and bytes
    of the other blocks are as before. -/
structure Moved (h : Heap b) (x : Block) (size ptr : UInt32) (p' : Pool b) : Prop where
  sound : Sound ⟨p', ⟨ptr, size⟩ :: h.live.erase x⟩
  apart : ((Block.mk ptr size).run b).Apart (x.run b)
  freed : ∀ i, (x.run b).Contains i → p'.memmap.cell i = 0
  contents : ∀ j, j < x.size.toNat → j < size.toNat →
    p'.mem.cell (((Block.mk ptr size).run b).first * b.memblksize + j)
      = h.pool.mem.cell ((x.run b).first * b.memblksize + j)
  others : ∀ z ∈ h.live, z ≠ x → ∀ i, (z.run b).Contains i →
    p'.memmap.cell i = h.pool.memmap.cell i ∧
      ∀ k, i * b.memblksize ≤ k → k < (i + 1) * b.memblksize →
        p'.mem.cell k = h.pool.mem.cell k

/-- A byte of an allocation lies in one of its cells. -/
theorem Bank.contains_byte (b : Bank) {off i k : Nat} (hle : i * b.memblksize ≤ k)
    (hlt : k < (i + 1) * b.memblksize) (hoff : off * b.memblksize ≤ k)
    (hsize : k < off * b.memblksize + size.toNat) :
    (CellRun.mk off (b.nmemb size)).Contains i := by
  have hcover := b.le_nmemb_mul size
  constructor
  · have hlow : off * b.memblksize < (i + 1) * b.memblksize := Nat.lt_of_le_of_lt hoff hlt
    exact Nat.le_of_lt_succ (Nat.lt_of_mul_lt_mul_right hlow)
  · have hhigh : i * b.memblksize < (off + b.nmemb size) * b.memblksize := by
      rw [Nat.add_mul]
      omega
    exact Nat.lt_of_mul_lt_mul_right hhigh

theorem Bank.cell_of_byte (b : Bank) (k : Nat) :
    k / b.memblksize * b.memblksize ≤ k ∧ k < (k / b.memblksize + 1) * b.memblksize := by
  refine ⟨Nat.div_mul_le_self k _, ?_⟩
  rw [Nat.succ_mul]
  exact Nat.lt_div_mul_add b.blksize_pos

/-- The block at the head of the list is apart from the others. -/
theorem Represented.apart_head {p : Pool b} {y : Block} {l : List Block}
    (hr : Represented ⟨p, y :: l⟩) : ∀ z ∈ l, (y.run b).Apart (z.run b) := by
  intro z hz
  exact (List.pairwise_cons.mp hr.marks.apart).1 _ (List.mem_map_of_mem hz)

/-- The map alone says which blocks are live. -/
theorem Represented.copied {p p' : Pool b} {l : List Block} {d s n : Nat}
    (hr : Represented ⟨p, l⟩) (hc : Copied p d s n p') : Represented ⟨p', l⟩ where
  ready := hc.ready.trans hr.ready
  placed := hr.placed
  marks := by
    have hmarks := hr.marks
    simp only [← hc.map] at hmarks
    exact hmarks

/-- The three calls of a reallocation that finds room. -/
theorem moved_of_taken (hr : Represented h) (hx : x ∈ h.live) {off : Nat} {p₁ p₂ p₃ : Pool b}
    (ht : Taken h.pool size off p₁)
    (hc : Copied p₁ (off * b.memblksize) ((x.run b).first * b.memblksize) size.toNat p₂)
    (hcleared : Cleared p₂ (x.run b) p₃) :
    Moved h x size (b.addr (off * b.memblksize)) p₃ := by
  have hold := hr.placed x hx
  have hnew : Represented ⟨p₁, ⟨b.addr (off * b.memblksize), size⟩ :: h.live⟩ := hr.taken ht
  have hrun : (Block.mk (b.addr (off * b.memblksize)) size).run b = ⟨off, b.nmemb size⟩ :=
    run_taken ht
  have hapart := hnew.apart_head
  rw [hrun] at hapart
  have hperm : h.live.Perm (x :: h.live.erase x) := List.perm_cons_erase hx
  have hswap : (⟨b.addr (off * b.memblksize), size⟩ :: h.live).Perm
      (x :: ⟨b.addr (off * b.memblksize), size⟩ :: h.live.erase x) :=
    (hperm.cons _).trans (List.Perm.swap _ _ _)
  have hothers : ∀ z ∈ h.live, z ≠ x → (x.run b).Apart (z.run b) := by
    intro z hz hne
    exact (hr.perm (p := h.pool) hperm).apart_head z ((List.mem_erase_of_ne hne).mpr hz)
  refine ⟨(((hnew.copied hc).perm hswap).cleared hcleared).sound, ?_, ?_, ?_, ?_⟩
  · rw [hrun]
    exact hapart x hx
  · intro i hi
    rw [hcleared.cleared, if_pos hi]
  · -- a byte of the old block is not one of the new block, so it is copied as it was
    intro j hjx hj
    have hin := hold.inside
    have hcover := b.le_nmemb_mul x.size
    have hend : ((x.run b).first + (x.run b).count) * b.memblksize ≤ b.memsize := by
      rw [b.size_eq]
      exact Nat.mul_le_mul_right _ hin
    have hlt : (x.run b).first * b.memblksize + j < b.memsize := by
      rw [Nat.add_mul] at hend
      exact Nat.lt_of_lt_of_le (Nat.add_lt_add_left (Nat.lt_of_lt_of_le hjx hcover) _) hend
    have hout : ¬ (off * b.memblksize ≤ (x.run b).first * b.memblksize + j ∧
        (x.run b).first * b.memblksize + j < off * b.memblksize + size.toNat) := by
      rintro ⟨hle, hsize⟩
      obtain ⟨hlow, hhigh⟩ := b.cell_of_byte ((x.run b).first * b.memblksize + j)
      exact hapart x hx _ (b.contains_byte hlow hhigh hle hsize)
        (b.contains_byte hlow hhigh (Nat.le_add_right _ _) (Nat.add_lt_add_left hjx _))
    rw [hrun, hcleared.mem, hc.copied j hj hlt hout, ht.mem]
  · intro z hz hne i hi
    have hfree : ¬ (x.run b).Contains i := fun hxi => hothers z hz hne i hxi hi
    have hnot : ¬ (CellRun.mk off (b.nmemb size)).Contains i := fun hyi => hapart z hz i hyi hi
    constructor
    · rw [hcleared.cleared, if_neg hfree, hc.map, ht.marked, if_neg hnot]
    · intro k hlow hhigh
      rw [hcleared.mem, hc.frame k (fun hk => hnot (b.contains_byte hlow hhigh hk.1 hk.2)), ht.mem]

/-- The addresses the copy reads are the block's iff the new size fits its cells. -/
theorem covers_addresses_iff (hplaced : Placed b x) :
    (∀ a ∈ addresses x.ptr size.toNat, x.Covers b a) ↔
      size.toNat ≤ (x.run b).count * b.memblksize := by
  have hptr := hplaced.toNat_ptr
  have hend : ((x.run b).first + (x.run b).count) * b.memblksize ≤ b.memsize := by
    rw [b.size_eq]
    exact Nat.mul_le_mul_right _ hplaced.inside
  have hfits := b.pool_fits
  rw [Nat.add_mul] at hend
  constructor
  · intro hall
    by_contra hlt
    -- the first byte behind the cells, at an address that may wrap to 0
    have hbad := hall _ (mem_addresses.mpr ⟨_, Nat.lt_of_not_le hlt, rfl⟩)
    have hcount : ((x.run b).count * b.memblksize) < 4294967296 := by
      have hpos := b.base_pos
      omega
    have hofNat : (UInt32.ofNat ((x.run b).count * b.memblksize)).toNat
        = (x.run b).count * b.memblksize := UInt32.toNat_ofNat_of_lt' hcount
    obtain ⟨hlow, hhigh⟩ := hbad
    rw [UInt32.toNat_add, hofNat] at hlow hhigh
    have hpos := b.base_pos
    omega
  · intro hle a ha
    obtain ⟨j, hj, rfl⟩ := mem_addresses.mp ha
    have hofNat : (UInt32.ofNat j).toNat = j :=
      UInt32.toNat_ofNat_of_lt' (by simp only [UInt32.size]; omega)
    have hsum : (x.ptr + UInt32.ofNat j).toNat = x.ptr.toNat + j := by
      rw [UInt32.toNat_add, hofNat]
      omega
    rw [Block.Covers, hsum]
    omega

/-- With room for the new size, the block moves; as many bytes as the new size
    are read from the old block on. -/
theorem myrealloc_room (hr : Represented h) (hx : x ∈ h.live) {off : Nat} {p₁ : Pool b}
    (hmalloc : myMemMalloc h.pool size = some (UInt32.ofNat (off * b.memblksize), p₁))
    (ht : Taken h.pool size off p₁) (outside : UInt32 → UInt8) :
    ∃ ptr p', myrealloc outside h.pool x.ptr size = some (ptr, p', addresses x.ptr size.toNat) ∧
      ptr ≠ 0 ∧ Moved h x size ptr p' := by
  have hold := hr.placed x hx
  have hsrc : x.ptr = b.addr ((x.run b).first * b.memblksize) := hold.ptr
  have hin := ht.inside
  have hpos := b.nmemb_pos ht.size_ne
  have hoff : off < b.memtblsize := by omega
  have hroom : off * b.memblksize + size.toNat ≤ b.memsize := by
    have hcover := b.le_nmemb_mul size
    have hend := Nat.mul_le_mul_right b.memblksize hin
    rw [Nat.add_mul, ← b.size_eq] at hend
    omega
  obtain ⟨p₂, hcopy, hc⟩ :=
    mymemcpy_copied outside p₁ (s := (x.run b).first * b.memblksize) hroom
  rw [← hsrc] at hcopy
  have hnew := (hr.taken ht).copied hc
  obtain ⟨p₃, hfree, hcleared⟩ := hnew.free_block (x := x) (List.mem_cons_of_mem _ hx)
  refine ⟨b.addr (off * b.memblksize), p₃, ?_, ?_, moved_of_taken hr hx ht hc hcleared⟩
  · have hmyfree : myfree p₂ x.ptr = some p₃ := by
      rw [myfree, if_neg hold.ptr_ne_null, hfree, Option.map_some]
    rw [myrealloc, hmalloc, Option.bind_some, if_neg (b.offset_ne_noMem hoff)]
    change (mymemcpy outside p₁ (b.addr (off * b.memblksize)) x.ptr size.toNat).bind _ = _
    rw [hcopy, Option.bind_some, hmyfree]
    rfl
  · exact ((hr.taken ht).placed _ List.mem_cons_self).ptr_ne_null

/-- **One reallocation.**  Without room nothing changes; with room the block
    moves, and the copy stays in its cells iff the new size fits them. -/
theorem myrealloc_spec (hr : Represented h) (hx : x ∈ h.live) (size : UInt32)
    (outside : UInt32 → UInt8) :
    ∃ ptr p' reads, myrealloc outside h.pool x.ptr size = some (ptr, p', reads) ∧
      (ptr = 0 ∧ p' = h.pool ∨ ptr ≠ 0 ∧ Moved h x size ptr p') ∧
      (ptr = 0 ↔ size = 0 ∨ fits h.pool.memmap (b.nmemb size) = ∅) ∧
      ((∀ a ∈ reads, x.Covers b a) ↔
        size.toNat ≤ (x.run b).count * b.memblksize ∨ fits h.pool.memmap (b.nmemb size) = ∅) := by
  rcases myMemMalloc_fit hr.ready size with ⟨hnofit, hno⟩ | ⟨off, p₁, hgreatest, hyes, ht⟩
  · refine ⟨0, h.pool, [], ?_, .inl ⟨rfl, rfl⟩, iff_of_true rfl hnofit,
      iff_of_true (List.forall_mem_nil _) ?_⟩
    · rw [myrealloc, hno]
      rfl
    · rcases hnofit with rfl | hempty
      · exact .inl (Nat.zero_le _)
      · exact .inr hempty
  · have hsome : fits h.pool.memmap (b.nmemb size) ≠ ∅ := Set.Nonempty.ne_empty ⟨off, hgreatest.1⟩
    obtain ⟨ptr, p', hrealloc, hptr, hmoved⟩ := myrealloc_room hr hx hyes ht outside
    refine ⟨ptr, p', _, hrealloc, .inr ⟨hptr, hmoved⟩, iff_of_false hptr ?_, ?_⟩
    · exact not_or.mpr ⟨ht.size_ne, hsome⟩
    · rw [covers_addresses_iff (hr.placed x hx)]
      exact (or_iff_left hsome).symm

end Moved

-- ============================================================================
-- After any history
-- ============================================================================

/-- **Reallocation.**  After every sequence of `mymalloc` and permitted `myfree`
    calls and of stores into the pool, `myrealloc` of a live block returns `NULL`
    and changes nothing, exactly for size 0 and without room, or moves the block
    with what its user has stored; the bytes it reads all lie in the old block's
    cells iff the new size fits these or there is no room for it. -/
theorem realloc_moves_block (L : Layout) (cold : (memx : Fin 2) → Pool (L.bank memx))
    (calls : List Call)
    (hmay : StepsMeet callStep MayCall (some (initHeaps cold)) calls) :
    ∃ d, run callStep (some (initHeaps cold)) calls = some d ∧
      ∀ memx, ∀ x ∈ (d memx).live, ∀ (size : UInt32) (outside : UInt32 → UInt8),
        ∃ ptr p' reads, myrealloc outside (d memx).pool x.ptr size = some (ptr, p', reads) ∧
          (ptr = 0 ∧ p' = (d memx).pool ∨ ptr ≠ 0 ∧ Moved (d memx) x size ptr p') ∧
          (ptr = 0 ↔ size = 0 ∨ fits (d memx).pool.memmap ((size.toNat + 31) / 32) = ∅) ∧
          ((∀ a ∈ reads, x.Covers (L.bank memx) a) ↔
            size.toNat ≤ (x.size.toNat + 31) / 32 * 32 ∨
              fits (d memx).pool.memmap ((size.toNat + 31) / 32) = ∅) := by
  obtain ⟨d, hrun, hd⟩ := represented_run (fun m => represented_init (cold m)) hmay
  refine ⟨d, hrun, fun memx x hx size outside => ?_⟩
  have hcount : (x.run (L.bank memx)).count = (x.size.toNat + 31) / 32 := L.nmemb_eq memx x.size
  have hspec := myrealloc_spec (hd memx) hx size outside
  rwa [hcount, L.memblksize_eq, L.nmemb_eq] at hspec

/-- The lowest cells are free. -/
theorem fits_ne_empty {b : Bank} {memmap : CBuffer UInt16 b.memtblsize} {n : Nat}
    (hn : n ≤ b.memtblsize) (h : (List.range n).all (memmap.cell · == 0) = true) :
    fits memmap n ≠ ∅ := by
  refine Set.Nonempty.ne_empty ⟨0, by omega, ?_⟩
  rintro i ⟨-, hi⟩
  rw [Nat.zero_add] at hi
  exact eq_of_beq (List.all_eq_true.mp h i (List.mem_range.mpr hi))

theorem mayCall_mallocs {L : Layout} (memx : Fin 2) (sizes : List UInt32) (o : Option (Heaps L)) :
    StepsMeet callStep MayCall o (sizes.map fun size => ⟨memx, .malloc size⟩) := by
  apply stepsMeet_of_forall
  intro c hc o'
  obtain ⟨size, -, rfl⟩ := List.mem_map.mp hc
  exact mayCall_malloc o' memx size

/-- The user of a block of 100 bytes has stored into its first and its last byte;
    the block grows to the end of its fourth cell. -/
theorem realloc_moves_block_within :
    ∃ d, run callStep (some (initHeaps coldPools)) [⟨0, .malloc 100⟩,
        ⟨0, .store 0x20003F80 7⟩, ⟨0, .store 0x20003FE3 9⟩] = some d ∧
      ∃ ptr p' reads,
        myrealloc (fun _ => 0) (d 0).pool 0x20003F80 128 = some (ptr, p', reads) ∧ ptr ≠ 0 ∧
        Moved (d 0) ⟨0x20003F80, 100⟩ 128 ptr p' ∧
        p'.mem.cell (((Block.mk ptr 128).run (sampleLayout.bank 0)).first * 32) = 7 ∧
        p'.mem.cell (((Block.mk ptr 128).run (sampleLayout.bank 0)).first * 32 + 99) = 9 ∧
        ∀ a ∈ reads, (Block.mk 0x20003F80 100).Covers (sampleLayout.bank 0) a := by
  have hone : (run callStep (some (initHeaps coldPools)) [⟨0, .malloc 100⟩,
      ⟨0, .store 0x20003F80 7⟩, ⟨0, .store 0x20003FE3 9⟩]).map
      (fun d => ((d 0).live, (d 0).pool.mem.cell 16256, (d 0).pool.mem.cell 16355,
        (List.range 4).all ((d 0).pool.memmap.cell · == 0)))
        = some ([⟨0x20003F80, 100⟩], 7, 9, true) := by decide +kernel
  obtain ⟨d', hrun', hstate⟩ := Option.map_eq_some_iff.mp hone
  obtain ⟨hlive, hstate⟩ := Prod.mk.inj hstate
  obtain ⟨hfirst, hstate⟩ := Prod.mk.inj hstate
  obtain ⟨hlast, hfree⟩ := Prod.mk.inj hstate
  have hstore (ptr : UInt32) (hin : ¬ (sampleLayout.bank 0).Outside ptr) (byte : UInt8)
      (o : Option (Heaps sampleLayout)) : MayCall o ⟨0, .store ptr byte⟩ := by
    cases o with
    | none => trivial
    | some d => exact hin
  have hmay : ∀ c ∈ ([⟨0, .malloc 100⟩, ⟨0, .store 0x20003F80 7⟩, ⟨0, .store 0x20003FE3 9⟩] :
      List Call), ∀ o : Option (Heaps sampleLayout), MayCall o c := by
    intro c hc o
    simp only [List.mem_cons, List.not_mem_nil, or_false] at hc
    rcases hc with rfl | rfl | rfl
    · exact mayCall_malloc o 0 100
    · exact hstore _ (by unfold Bank.Outside; decide) 7 o
    · exact hstore _ (by unfold Bank.Outside; decide) 9 o
  obtain ⟨d, hrun, hall⟩ := realloc_moves_block sampleLayout coldPools _
    (stepsMeet_of_forall hmay _)
  obtain rfl : d' = d := Option.some.inj (hrun'.symm.trans hrun)
  have hx : (⟨0x20003F80, 100⟩ : Block) ∈ (d' 0).live := by
    rw [hlive]
    exact List.mem_singleton_self _
  obtain ⟨ptr, p', reads, hrealloc, hmoved, hnull, hreads⟩ := hall 0 _ hx 128 (fun _ => 0)
  have hptr : ptr ≠ 0 := by
    rw [Ne, hnull, not_or]
    exact ⟨by decide, fits_ne_empty (by decide) hfree⟩
  have hmoved := (hmoved.resolve_left fun hno => hptr hno.1).2
  refine ⟨d', hrun, ptr, p', reads, hrealloc, hptr, hmoved, ?_, ?_, hreads.mpr (.inl (by decide))⟩
  · exact (hmoved.contents 0 (by decide) (by decide)).trans hfirst
  · exact (hmoved.contents 99 (by decide) (by decide)).trans hlast

/-- The block at the top of the pool grows by a cell: the copy reads `0x20004000`,
    behind the block and behind the pool. -/
theorem realloc_reads_behind_block :
    ∃ d, run callStep (some (initHeaps coldPools)) [⟨0, .malloc 32⟩] = some d ∧
      (⟨0x20003FE0, 32⟩ : Block) ∈ (d 0).live ∧
      ∀ outside, ∃ ptr p' reads,
        myrealloc outside (d 0).pool 0x20003FE0 64 = some (ptr, p', reads) ∧ ptr ≠ 0 ∧
        0x20004000 ∈ reads ∧
        ¬ (Block.mk 0x20003FE0 32).Covers (sampleLayout.bank 0) 0x20004000 := by
  have hone : (run callStep (some (initHeaps coldPools)) [⟨0, .malloc 32⟩]).map
      (fun d => ((d 0).live, (List.range 2).all ((d 0).pool.memmap.cell · == 0)))
        = some ([⟨0x20003FE0, 32⟩], true) := by decide +kernel
  obtain ⟨d', hrun', hstate⟩ := Option.map_eq_some_iff.mp hone
  obtain ⟨hlive, hfree⟩ := Prod.mk.inj hstate
  obtain ⟨d, hrun, hd⟩ := represented_run (fun m => represented_init (coldPools m))
    (mayCall_mallocs 0 [32] _)
  obtain rfl : d' = d := Option.some.inj (hrun'.symm.trans hrun)
  have hx : (⟨0x20003FE0, 32⟩ : Block) ∈ (d' 0).live := by
    rw [hlive]
    exact List.mem_singleton_self _
  have hfit : fits (d' 0).pool.memmap ((sampleLayout.bank 0).nmemb 64) ≠ ∅ :=
    fits_ne_empty (by decide) hfree
  refine ⟨d', hrun, hx, fun outside => ?_⟩
  rcases myMemMalloc_fit (hd 0).ready 64 with ⟨hzero | hempty, -⟩ | ⟨off, p₁, -, hyes, ht⟩
  · exact absurd hzero (by decide)
  · exact absurd hempty hfit
  · obtain ⟨ptr, p', hrealloc, hptr, -⟩ := myrealloc_room (hd 0) hx hyes ht outside
    refine ⟨ptr, p', _, hrealloc, hptr, mem_addresses.mpr ⟨32, by decide, by decide⟩, ?_⟩
    unfold Block.Covers
    decide

end McuFirmware.Malloc
