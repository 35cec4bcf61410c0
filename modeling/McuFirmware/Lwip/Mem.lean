/-
  McuFirmware.Lwip.Mem

  The heap of lwIP (`core/mem.c`, `MEM_SIZE` 20480 and 16-bit offsets): a chain
  of `struct mem` headers in a byte array, `lfree` at the lowest free block.

  Offsets into `ram` stand for pointers.  A failed `LWIP_ASSERT` stops the
  firmware in a loop; a call that does so, or that reads in front of `ram`,
  gives `none`.

  Each call is tied to an edit of a list of tiles.  `Tiled` says that the bytes
  of `ram` hold the chain of such a list, `Frame` which bytes a call may change,
  and `Tiled.edit` that an edit within its frame keeps the chain.
-/

import McuFirmware.Lib.Memory
import McuFirmware.Lib.Tiles

namespace McuFirmware.Lwip

open McuFirmware.Lib

-- ============================================================================
-- The functions of `core/mem.c`
-- ============================================================================

/-- `MEM_SIZE_ALIGNED`, the offset of `ram_end`. -/
def memSizeAligned : Nat := 20480

/-- `SIZEOF_STRUCT_MEM`. -/
def sizeofStructMem : Nat := 8

/-- `MIN_SIZE_ALIGNED`. -/
def minSizeAligned : Nat := 12

/-- `LWIP_MEM_ALIGN_SIZE`, stored in a `mem_size_t`. -/
def memAlignSize (size : Nat) : Nat := (size + 3) / 4 * 4 % 2 ^ 16

/-- The size a request is rounded to. -/
def roundedSize (size : Nat) : Nat :=
  if memAlignSize size < minSizeAligned then minSizeAligned else memAlignSize size

/-- The heap: the array and the lowest free block. -/
structure Heap where
  ram : Memory
  lfree : Nat

/-- The `struct mem` at an offset: `next`, `prev` and `used`. -/
def header (ram : Memory) (mem : Nat) : Header :=
  ⟨ram.getLE mem 2, ram.getLE (mem + 2) 2, ram.getLE (mem + 4) 1 != 0⟩

/-- `mem->next = v`. -/
def setNext (ram : Memory) (mem v : Nat) : Memory := ram.setLE mem 2 v

/-- `mem->prev = v`. -/
def setPrev (ram : Memory) (mem v : Nat) : Memory := ram.setLE (mem + 2) 2 v

/-- `mem->used = v`. -/
def setUsed (ram : Memory) (mem v : Nat) : Memory := ram.setLE (mem + 4) 1 v

/-- The two stores by which `plug_holes` joins a block to the one before it. -/
def absorb (ram : Memory) (a b : Nat) : Memory :=
  let ram := setNext ram a (header ram b).next
  setPrev ram (header ram b).next a

/-- `plug_holes`, forward. -/
def plugForward (h : Heap) (mem : Nat) : Heap :=
  let nmem := (header h.ram mem).next
  if mem ≠ nmem ∧ (header h.ram nmem).used = false ∧ nmem ≠ memSizeAligned then
    ⟨absorb h.ram mem nmem, if h.lfree = nmem then mem else h.lfree⟩
  else h

/-- `plug_holes`, backward. -/
def plugBackward (h : Heap) (mem : Nat) : Heap :=
  let pmem := (header h.ram mem).prev
  if pmem ≠ mem ∧ (header h.ram pmem).used = false then
    ⟨absorb h.ram pmem mem, if h.lfree = mem then pmem else h.lfree⟩
  else h

def plugHoles (h : Heap) (mem : Nat) : Option Heap :=
  if mem < memSizeAligned ∧ (header h.ram mem).used = false ∧
      (header h.ram mem).next ≤ memSizeAligned then
    some (plugBackward (plugForward h mem) mem)
  else none

/-- `mem_init`; `ram` is what the array held before. -/
def memInit (ram : Memory) : Heap :=
  let ram := setUsed (setPrev (setNext ram 0 memSizeAligned) 0 0) 0 0
  let ram := setUsed ram memSizeAligned 1
  let ram := setPrev (setNext ram memSizeAligned memSizeAligned) memSizeAligned memSizeAligned
  ⟨ram, 0⟩

/-- `mem_free`; `NULL` is `none`. -/
def memFree (h : Heap) : Option Nat → Option Heap
  | none => some h
  | some rmem =>
      if rmem % 4 = 0 ∧ rmem < memSizeAligned ∧ sizeofStructMem ≤ rmem then
        let mem := rmem - sizeofStructMem
        if (header h.ram mem).used = true then
          plugHoles ⟨setUsed h.ram mem 0, if mem < h.lfree then mem else h.lfree⟩ mem
        else none
      else none

/-- The header at `ptr2` of the space left over behind the block at `ptr`. -/
def insertBehind (ram : Memory) (ptr ptr2 next : Nat) : Memory :=
  let ram := setUsed ram ptr2 0
  let ram := setNext ram ptr2 next
  let ram := setPrev ram ptr2 ptr
  setNext ram ptr ptr2

/-- Let `mem2->next->prev` point to `mem2`, unless `mem2` is the last block. -/
def linkBack (ram : Memory) (ptr2 : Nat) : Memory :=
  let next := (header ram ptr2).next
  if next ≠ memSizeAligned then setPrev ram next ptr2 else ram

/-- `mem_trim`: the pointer returned, and the heap. -/
def memTrim (h : Heap) (rmem newsize : Nat) : Option (Option Nat × Heap) :=
  let newsize := roundedSize newsize
  if memSizeAligned < newsize then some (none, h)
  else if rmem < memSizeAligned ∧ sizeofStructMem ≤ rmem then
    let ptr := rmem - sizeofStructMem
    let mem := header h.ram ptr
    let size := (mem.next + 2 ^ 17 - ptr - sizeofStructMem) % 2 ^ 16
    let ptr2 := ptr + sizeofStructMem + newsize
    if size < newsize then none
    else if newsize = size then some (some rmem, h)
    else if (header h.ram mem.next).used = false then
      -- the next block is free: it is moved
      let ram := insertBehind h.ram ptr ptr2 (header h.ram mem.next).next
      some (some rmem, ⟨linkBack ram ptr2, if h.lfree = mem.next then ptr2 else h.lfree⟩)
    else if newsize + sizeofStructMem + minSizeAligned ≤ size then
      let ram := insertBehind h.ram ptr ptr2 mem.next
      some (some rmem, ⟨linkBack ram ptr2, if ptr2 < h.lfree then ptr2 else h.lfree⟩)
    else some (some rmem, h)
  else none

/-- The bytes of user data the scan computes for the block at `ptr`. -/
def userSize (ram : Memory) (ptr : Nat) : Nat :=
  ((header ram ptr).next + 2 ^ 32 - (ptr + sizeofStructMem)) % 2 ^ 32

/-- The scan of `mem_malloc` from `ptr` on; the outer `none` is a scan that does
    not end. -/
def scan (ram : Memory) (size : Nat) : (fuel ptr : Nat) → Option (Option Nat)
  | 0, _ => none
  | fuel + 1, ptr =>
      if ptr < memSizeAligned - size then
        if (header ram ptr).used = false ∧ size ≤ userSize ram ptr then some (some ptr)
        else scan ram size fuel (header ram ptr).next
      else some none

/-- The loop that moves `lfree` to the next free block. -/
def nextFree (ram : Memory) : (fuel cur : Nat) → Option Nat
  | 0, _ => none
  | fuel + 1, cur =>
      if (header ram cur).used = true ∧ cur ≠ memSizeAligned then
        nextFree ram fuel (header ram cur).next
      else some cur

/-- Take the block at `ptr`, split where the rest can hold a block. -/
def takeBlock (ram : Memory) (size ptr : Nat) : Memory :=
  if size + sizeofStructMem + minSizeAligned ≤ userSize ram ptr then
    let ptr2 := ptr + sizeofStructMem + size
    linkBack (setUsed (insertBehind ram ptr ptr2 (header ram ptr).next) ptr 1) ptr2
  else setUsed ram ptr 1

/-- `lfree` after the block at `mem` was taken. -/
def adjustLfree (lfree : Nat) (ram : Memory) (mem : Nat) : Option Nat :=
  if mem = lfree then
    (nextFree ram memSizeAligned lfree).filter fun cur =>
      cur = memSizeAligned ∨ (header ram cur).used = false
  else some lfree

/-- `mem_malloc`. -/
def memMalloc (h : Heap) (size : Nat) : Option (Option Nat × Heap) :=
  if size = 0 then some (none, h)
  else
    let size := roundedSize size
    if memSizeAligned < size then some (none, h)
    else
      match scan h.ram size memSizeAligned h.lfree with
      | none => none
      | some none => some (none, h)
      | some (some ptr) =>
          let ram := takeBlock h.ram size ptr
          if ptr + sizeofStructMem + size ≤ memSizeAligned ∧ (ptr + sizeofStructMem) % 4 = 0 ∧
              ptr % 4 = 0 then
            (adjustLfree h.lfree ram ptr).map fun lfree => (some (ptr + sizeofStructMem), ⟨ram, lfree⟩)
          else none

/-- `memset(p, 0, n)`. -/
def zeroFill (ram : Memory) (p n : Nat) : Memory :=
  fun x => if p ≤ x ∧ x < p + n then 0 else ram x

/-- `mem_calloc`: the product is cut to a `mem_size_t` for `mem_malloc`, not for
    `memset`. -/
def memCalloc (h : Heap) (count size : Nat) : Option (Option Nat × Heap) :=
  (memMalloc h (count * size % 2 ^ 16)).map fun r =>
    (r.1, r.1.elim r.2 fun p => { r.2 with ram := zeroFill r.2.ram p (count * size) })

-- ============================================================================
-- Headers
-- ============================================================================

section Header

variable {ram ram' : Memory} {p q v : Nat}

/-- A header is five bytes. -/
theorem header_congr (h : ram.Agree ram' q (q + 5)) : header ram' q = header ram q := by
  rw [header, header, Memory.getLE_congr (h.mono (Nat.le_refl q) (by omega)),
    Memory.getLE_congr (h.mono (by omega) (by omega)),
    Memory.getLE_congr (h.mono (by omega) (by omega))]

theorem header_setNext (hv : v < 2 ^ 16) :
    header (setNext ram p v) p = { header ram p with next := v } := by
  have hprev : (ram.setLE p 2 v).getLE (p + 2) 2 = ram.getLE (p + 2) 2 :=
    Memory.getLE_congr (Memory.setLE_agree_above (Nat.le_refl _) _)
  have hused : (ram.setLE p 2 v).getLE (p + 4) 1 = ram.getLE (p + 4) 1 :=
    Memory.getLE_congr (Memory.setLE_agree_above (by omega) _)
  rw [header, header, setNext, Memory.getLE_setLE_of_lt hv, hprev, hused]

theorem header_setPrev (hv : v < 2 ^ 16) :
    header (setPrev ram p v) p = { header ram p with prev := v } := by
  have hnext : (ram.setLE (p + 2) 2 v).getLE p 2 = ram.getLE p 2 :=
    Memory.getLE_congr (Memory.setLE_agree_below (Nat.le_refl _) _)
  have hused : (ram.setLE (p + 2) 2 v).getLE (p + 4) 1 = ram.getLE (p + 4) 1 :=
    Memory.getLE_congr (Memory.setLE_agree_above (Nat.le_refl _) _)
  rw [header, header, setPrev, Memory.getLE_setLE_of_lt hv, hnext, hused]

theorem header_setUsed (hv : v < 2 ^ 8) :
    header (setUsed ram p v) p = { header ram p with used := v != 0 } := by
  have hnext : (ram.setLE (p + 4) 1 v).getLE p 2 = ram.getLE p 2 :=
    Memory.getLE_congr (Memory.setLE_agree_below (by omega) _)
  have hprev : (ram.setLE (p + 4) 1 v).getLE (p + 2) 2 = ram.getLE (p + 2) 2 :=
    Memory.getLE_congr (Memory.setLE_agree_below (Nat.le_refl _) _)
  rw [header, header, setUsed, Memory.getLE_setLE_of_lt hv, hnext, hprev]

theorem header_setNext_apart (h : q + 5 ≤ p ∨ p + 5 ≤ q) :
    header (setNext ram p v) q = header ram q := by
  apply header_congr
  intro x hq hx
  exact Memory.setLE_apply_of_outside (by omega)

theorem header_setPrev_apart (h : q + 5 ≤ p ∨ p + 5 ≤ q) :
    header (setPrev ram p v) q = header ram q := by
  apply header_congr
  intro x hq hx
  exact Memory.setLE_apply_of_outside (by omega)

theorem header_setUsed_apart (h : q + 5 ≤ p ∨ p + 5 ≤ q) :
    header (setUsed ram p v) q = header ram q := by
  apply header_congr
  intro x hq hx
  exact Memory.setLE_apply_of_outside (by omega)

end Header

-- ============================================================================
-- The chain in memory
-- ============================================================================

/-- A tile that `mem.c` makes. -/
def Tile.Fit (t : Tile) : Prop := 20 ≤ t.len ∧ t.len % 4 = 0

/-- The array holds the chain of the tiles. -/
structure Tiled (ram : Memory) (ts : List Tile) : Prop where
  linked : Linked (header ram) 0 0 ts
  extent_eq : extent ts = memSizeAligned
  fit : ∀ t ∈ ts, Tile.Fit t
  end_used : (header ram memSizeAligned).used = true

/-- Nothing changed but bytes in `[lo, hi)` and the `prev` field at `hi`. -/
def Frame (ram ram' : Memory) (lo hi : Nat) : Prop :=
  ∀ x, x < lo ∨ hi ≤ x ∧ x ≠ hi + 2 ∧ x ≠ hi + 3 → ram' x = ram x

namespace Frame

variable {ram ram' ram'' : Memory} {lo hi a n v : Nat}

theorem refl : Frame ram ram lo hi := fun _ _ => rfl

theorem trans (h : Frame ram ram' lo hi) (h' : Frame ram' ram'' lo hi) : Frame ram ram'' lo hi :=
  fun x hx => (h' x hx).trans (h x hx)

/-- A store inside the frame. -/
theorem setLE (hlo : lo ≤ a) (hhi : a + n ≤ hi) : Frame ram (ram.setLE a n v) lo hi := by
  intro x hx
  exact Memory.setLE_apply_of_outside (by omega)

/-- A store to the `prev` field behind it. -/
theorem setPrev (hlo : lo ≤ hi) : Frame ram (setPrev ram hi v) lo hi := by
  intro x hx
  exact Memory.setLE_apply_of_outside (by omega)

/-- A frame may grow, not over a header behind it. -/
theorem widen {lo' hi' : Nat} (h : Frame ram ram' lo hi) (hlo : lo' ≤ lo)
    (hhi : hi = hi' ∨ hi + 4 ≤ hi') : Frame ram ram' lo' hi' := by
  intro x hx
  exact h x (by omega)

/-- Headers clear of the frame are as before. -/
theorem header (h : Frame ram ram' lo hi) {q : Nat} (hq : q + 5 ≤ lo ∨ lo ≤ hi ∧ hi + 4 ≤ q) :
    header ram' q = header ram q := by
  apply header_congr
  intro x hqx hx
  exact h x (by omega)

/-- Of the header behind the frame only `prev` changes. -/
theorem header_end (h : Frame ram ram' lo hi) :
    Lwip.header ram' hi =
      { Lwip.header ram hi with prev := (Lwip.header ram' hi).prev } := by
  have hnext : ram'.getLE hi 2 = ram.getLE hi 2 :=
    Memory.getLE_congr fun x hx hlt => h x (.inr (by omega))
  have hused : ram'.getLE (hi + 4) 1 = ram.getLE (hi + 4) 1 :=
    Memory.getLE_congr fun x hx hlt => h x (.inr (by omega))
  simp only [Lwip.header, hnext, hused]

end Frame

namespace Tiled

variable {ram ram' : Memory} {xs ys old new : List Tile} {t : Tile}

theorem len_pos (h : Tile.Fit t) : 0 < t.len := Nat.lt_of_lt_of_le (by decide) h.1

/-- **Edit rule.**  New tiles of the same extent, linked within the frame of the
    old ones, with the next block pointing back to the last of them. -/
theorem edit (h : Tiled ram (xs ++ old ++ ys))
    (hframe : Frame ram ram' (extent xs) (extent (xs ++ old))) (hlen : extent new = extent old)
    (hfit : ∀ t ∈ new, Tile.Fit t)
    (hnew : Linked (header ram') (lastStart 0 0 xs) (extent xs) new)
    (hseam : extent (xs ++ old) < memSizeAligned →
      (header ram' (extent (xs ++ old))).prev = lastStart 0 0 (xs ++ new)) :
    Tiled ram' (xs ++ new ++ ys) := by
  have hxs : ∀ t ∈ xs, Tile.Fit t := fun t ht =>
    h.fit t (List.mem_append_left _ (List.mem_append_left _ ht))
  have hys : ∀ t ∈ ys, Tile.Fit t := fun t ht => h.fit t (List.mem_append_right _ ht)
  have htotal : extent (xs ++ old) + extent ys = memSizeAligned := by
    rw [← extent_append, h.extent_eq]
  have hle : extent xs ≤ extent (xs ++ old) := by
    rw [extent_append]
    exact Nat.le_add_right _ _
  refine ⟨?_, ?_, ?_, ?_⟩
  · refine h.linked.replace hlen ?_ ?_ ?_ ?_ (fun t ht => len_pos (hys t ht))
    · intro q t hq
      have hbounds := le_of_mem_placed hq
      have hlen := (hxs t (mem_of_mem_placed hq)).1
      exact hframe.header (.inl (by omega))
    · rwa [Nat.zero_add]
    · intro hne
      rw [Nat.zero_add, hframe.header_end, hseam]
      cases ys with
      | nil => exact absurd rfl hne
      | cons y ys =>
          have hlen := len_pos (hys y List.mem_cons_self)
          rw [extent] at htotal
          omega
    · intro q hlt t hq
      rw [Nat.zero_add] at hlt hq
      cases ys with
      | nil => exact absurd hq List.not_mem_nil
      | cons y ys =>
          have hlen := (hys y List.mem_cons_self).1
          have hge := (le_of_mem_placed hq).1
          rcases placed_apart hq List.mem_cons_self with ⟨heq, -⟩ | hbelow | habove
          · omega
          · omega
          · exact hframe.header (.inr ⟨hle, by omega⟩)
  · rw [extent_append, extent_append, hlen, ← extent_append, htotal]
  · intro t ht
    rcases List.mem_append.mp ht with hmem | hmem
    · rcases List.mem_append.mp hmem with hx | hn
      · exact hxs t hx
      · exact hfit t hn
    · exact hys t hmem
  · have hused : ram'.getLE (memSizeAligned + 4) 1 = ram.getLE (memSizeAligned + 4) 1 :=
      Memory.getLE_congr fun x hx hlt => hframe x (.inr (by omega))
    have hend := h.end_used
    rw [header] at hend ⊢
    rwa [hused]

theorem extent_le (h : Tiled ram (xs ++ ys)) : extent xs ≤ memSizeAligned := by
  rw [← h.extent_eq, extent_append]
  exact Nat.le_add_right _ _

theorem aligned (h : Tiled ram (xs ++ ys)) : extent xs % 4 = 0 :=
  extent_mod fun t ht => (h.fit t (List.mem_append_left ys ht)).2

/-- The header of a tile. -/
theorem header_eq (h : Tiled ram (xs ++ t :: ys)) :
    header ram (extent xs) = ⟨extent xs + t.len, lastStart 0 0 xs, t.used⟩ := by
  have hheader := h.linked.header
  rwa [Nat.zero_add] at hheader

/-- The block behind a tile is taken, or it is a free tile. -/
theorem next_cases (h : Tiled ram (xs ++ t :: ys)) :
    ((header ram (extent xs + t.len)).used = true ∧ ∀ y ∈ ys.head?, y.used) ∨
      ∃ y ys', ys = y :: ys' ∧ y.used = false ∧
        header ram (extent xs + t.len) = ⟨extent xs + t.len + y.len, extent xs, false⟩ := by
  cases ys with
  | nil =>
      have hend : extent xs + t.len = memSizeAligned := by
        rw [← h.extent_eq, extent_append, extent, extent, Nat.add_zero]
      rw [hend]
      exact .inl ⟨h.end_used, by simp⟩
  | cons y ys =>
      have hcons : xs ++ t :: y :: ys = (xs ++ [t]) ++ y :: ys := by simp
      have hheader := (hcons ▸ h).header_eq
      have hstart : extent (xs ++ [t]) = extent xs + t.len := by simp [extent]
      have hprev : lastStart 0 0 (xs ++ [t]) = extent xs := by
        rw [lastStart_append, Nat.zero_add]
        rfl
      rw [hstart, hprev] at hheader
      rw [hheader]
      cases hused : y.used with
      | true => exact .inl ⟨rfl, by simp [hused]⟩
      | false => exact .inr ⟨y, ys, rfl, hused, rfl⟩

/-- Marking a block as taken or free. -/
theorem setUsed (h : Tiled ram (xs ++ [t] ++ ys)) {v : Nat} (hv : v < 2 ^ 8) :
    Tiled (setUsed ram (extent xs) v) (xs ++ [⟨t.len, v != 0⟩] ++ ys) ∧
      Frame ram (Lwip.setUsed ram (extent xs) v) (extent xs) (extent (xs ++ [t])) := by
  have hfit : Tile.Fit t := h.fit t (by simp)
  have hlen := hfit.1
  have hend : extent (xs ++ [t]) = extent xs + t.len := by simp [extent]
  have hlist : xs ++ [t] ++ ys = xs ++ t :: ys := by simp
  have hheader := (hlist ▸ h).header_eq
  have hframe : Frame ram (Lwip.setUsed ram (extent xs) v) (extent xs) (extent (xs ++ [t])) :=
    Frame.setLE (by omega) (by omega)
  refine ⟨h.edit hframe rfl (fun u hu => ?_) ?_ ?_, hframe⟩
  · rw [List.mem_singleton.mp hu]
    exact hfit
  · refine ⟨?_, trivial⟩
    rw [header_setUsed hv, hheader]
  · intro hlt
    rw [header_setUsed_apart (.inr (by omega))]
    cases ys with
    | nil =>
        have htotal := h.extent_eq
        rw [List.append_nil] at htotal
        omega
    | cons y ys =>
        rw [h.header_eq, lastStart_append, lastStart_append]
        rfl

/-- The space behind `ptr2` becomes a block of its own. -/
theorem linkBack {ptr2 : Nat} {u : Bool} {old : List Tile} {ram₁ : Memory}
    (h : Tiled ram (xs ++ old ++ ys)) (hptr : extent xs + 20 ≤ ptr2)
    (hroom : ptr2 + 20 ≤ extent (xs ++ old)) (halign : (ptr2 - extent xs) % 4 = 0)
    (halign' : (extent (xs ++ old) - ptr2) % 4 = 0)
    (hframe : Frame ram ram₁ (extent xs) (extent (xs ++ old)))
    (hmem : header ram₁ (extent xs) = ⟨ptr2, lastStart 0 0 xs, u⟩)
    (hmem2 : header ram₁ ptr2 = ⟨extent (xs ++ old), extent xs, false⟩) :
    Tiled (linkBack ram₁ ptr2)
        (xs ++ [⟨ptr2 - extent xs, u⟩, ⟨extent (xs ++ old) - ptr2, false⟩] ++ ys) ∧
      Frame ram (Lwip.linkBack ram₁ ptr2) (extent xs) (extent (xs ++ old)) := by
  have hle := h.extent_le
  have hsize : memSizeAligned = 20480 := rfl
  have hlo : extent xs ≤ extent (xs ++ old) := by omega
  have hback : Frame ram₁ (Lwip.linkBack ram₁ ptr2) (extent xs) (extent (xs ++ old)) := by
    rw [Lwip.linkBack, hmem2]
    dsimp only
    split
    · exact Frame.setPrev hlo
    · exact Frame.refl
  have hkeep {q : Nat} (hq : q + 20 ≤ extent (xs ++ old)) :
      header (Lwip.linkBack ram₁ ptr2) q = header ram₁ q := by
    rw [Lwip.linkBack, hmem2]
    dsimp only
    split
    · exact header_setPrev_apart (.inl (by omega))
    · rfl
  have hframe' := hframe.trans hback
  refine ⟨h.edit hframe' ?_ (fun t ht => ?_) ⟨?_, ?_, trivial⟩ ?_, hframe'⟩
  · rw [extent_append] at hroom ⊢
    simp only [extent]
    omega
  · simp only [List.mem_cons, List.not_mem_nil, or_false] at ht
    obtain rfl | rfl := ht
    · exact ⟨Nat.le_sub_of_add_le' hptr, halign⟩
    · exact ⟨Nat.le_sub_of_add_le' hroom, halign'⟩
  · rw [hkeep (by omega), hmem, Nat.add_sub_cancel' (by omega)]
  · rw [Nat.add_sub_cancel' (by omega), hkeep hroom, hmem2, Nat.add_sub_cancel' (by omega)]
  · intro hlt
    have hne : extent (xs ++ old) ≠ memSizeAligned := by omega
    rw [Lwip.linkBack, hmem2]
    dsimp only
    rw [if_pos hne, header_setPrev (by omega), lastStart_append, Nat.zero_add]
    simp only [lastStart]
    omega

/-- A block takes over its neighbour. -/
theorem absorb {a b : Tile} (h : Tiled ram (xs ++ [a, b] ++ ys)) :
    Tiled (absorb ram (extent xs) (extent xs + a.len))
        (xs ++ [⟨a.len + b.len, a.used⟩] ++ ys) ∧
      Frame ram (Lwip.absorb ram (extent xs) (extent xs + a.len)) (extent xs)
        (extent (xs ++ [a, b])) := by
  have hle := h.extent_le
  have hsize : memSizeAligned = 20480 := rfl
  have hfita : Tile.Fit a := h.fit a (by simp)
  have hfitb : Tile.Fit b := h.fit b (by simp)
  have hlena := hfita.1
  have hlenb := hfitb.1
  have hend : extent (xs ++ [a, b]) = extent xs + a.len + b.len := by simp [extent, Nat.add_assoc]
  have hlista : xs ++ [a, b] ++ ys = xs ++ a :: b :: ys := by simp
  have hlistb : xs ++ [a, b] ++ ys = (xs ++ [a]) ++ b :: ys := by simp
  have hheadera := (hlista ▸ h).header_eq
  have hheaderb := (hlistb ▸ h).header_eq
  have hstartb : extent (xs ++ [a]) = extent xs + a.len := by simp [extent]
  rw [hstartb] at hheaderb
  -- `nmem->next` reads the same before and after the first store
  have hram : Lwip.absorb ram (extent xs) (extent xs + a.len) =
      setPrev (setNext ram (extent xs) (extent (xs ++ [a, b]))) (extent (xs ++ [a, b]))
        (extent xs) := by
    rw [Lwip.absorb, hheaderb, header_setNext_apart (.inr (by omega)), hheaderb, hend]
  rw [hram]
  have hframe : Frame ram (setPrev (setNext ram (extent xs) (extent (xs ++ [a, b])))
      (extent (xs ++ [a, b])) (extent xs)) (extent xs) (extent (xs ++ [a, b])) :=
    (Frame.setLE (by omega) (by omega)).trans (Frame.setPrev (by omega))
  refine ⟨h.edit hframe ?_ (fun t ht => ?_) ⟨?_, trivial⟩ ?_, hframe⟩
  · simp only [extent]
    omega
  · rw [List.mem_singleton.mp ht]
    have hala := hfita.2
    have halb := hfitb.2
    exact ⟨by dsimp only; omega, by dsimp only; omega⟩
  · rw [header_setPrev_apart (.inl (by omega)), header_setNext (by omega), hheadera, hend,
      Nat.add_assoc]
  · intro hlt
    rw [header_setPrev (by omega), lastStart_append, Nat.zero_add]
    rfl

end Tiled

end McuFirmware.Lwip
