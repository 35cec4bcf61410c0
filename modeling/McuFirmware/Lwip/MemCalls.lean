/-
  McuFirmware.Lwip.MemCalls

  One call of each function of `core/mem.c` as an edit of the tiles.

  `Heap.Inv` is what the functions rely on and restore: the array holds the
  chain, no two free blocks are neighbours, and `lfree` is the lowest free block.
  `Edited` adds to the invariant after a call which tiles it replaced and which
  bytes it left alone.
-/

import McuFirmware.Lwip.Mem

namespace McuFirmware.Lwip

open McuFirmware.Lib

/-- What holds between two calls. -/
structure Heap.Inv (h : Heap) (ts : List Tile) : Prop where
  tiled : Tiled h.ram ts
  coalesced : Coalesced ts
  lfree_eq : h.lfree = lowestFree 0 ts

/-- A call replaced the tiles `old` by `new`. -/
structure Edited (h h' : Heap) (xs old new ys : List Tile) : Prop where
  inv : h'.Inv (xs ++ new ++ ys)
  frame : Frame h.ram h'.ram (extent xs) (extent (xs ++ old))

variable {h h' : Heap} {ram : Memory} {xs ys ts : List Tile} {t : Tile} {len : Nat}

-- ============================================================================
-- `mem_init`
-- ============================================================================

theorem memInit_inv (ram : Memory) : (memInit ram).Inv [⟨memSizeAligned, false⟩] := by
  have hfirst : header (memInit ram).ram 0 = ⟨memSizeAligned, 0, false⟩ := by
    rw [memInit]
    dsimp only
    rw [header_setPrev_apart (.inl (by decide)), header_setNext_apart (.inl (by decide)),
      header_setUsed_apart (.inl (by decide)), header_setUsed (by decide),
      header_setPrev (by decide), header_setNext (by decide)]
    rfl
  have hend : (header (memInit ram).ram memSizeAligned).used = true := by
    rw [memInit]
    dsimp only
    rw [header_setPrev (by decide), header_setNext (by decide), header_setUsed (by decide)]
    rfl
  refine ⟨⟨⟨hfirst, trivial⟩, rfl, ?_, hend⟩, List.isChain_singleton _, rfl⟩
  intro t ht
  rw [List.mem_singleton.mp ht]
  exact ⟨by decide, by decide⟩

-- ============================================================================
-- `mem_free`
-- ============================================================================

/-- The tiles, `lfree` and the frame of a step of `plug_holes`. -/
structure Plugged (h h' : Heap) (ts : List Tile) (lo hi : Nat) : Prop where
  tiled : Tiled h'.ram ts
  lfree_eq : h'.lfree = h.lfree
  frame : Frame h.ram h'.ram lo hi

/-- The free block takes over a free block behind it. -/
theorem plugForward_spec (ht : Tiled h.ram (xs ++ ⟨len, false⟩ :: ys))
    (hlfree : h.lfree = lowestFree 0 (xs ++ ⟨len, false⟩ :: ys)) :
    (plugForward h (extent xs) = h ∧ ∀ y ∈ ys.head?, y.used) ∨
      ∃ y ys', ys = y :: ys' ∧ y.used = false ∧
        Plugged h (plugForward h (extent xs)) (xs ++ ⟨len + y.len, false⟩ :: ys') (extent xs)
          (extent xs + len + y.len) := by
  have hlen : 20 ≤ len := (ht.fit ⟨len, false⟩ (by simp)).1
  rw [plugForward, ht.header_eq]
  dsimp only
  rcases ht.next_cases with ⟨hend, hused⟩ | ⟨y, ys', rfl, hfree, hheader⟩
  · rw [if_neg fun hcond => Bool.noConfusion (hend.symm.trans hcond.2.1)]
    exact .inl ⟨rfl, hused⟩
  · have hylen : 20 ≤ y.len := (ht.fit y (by simp)).1
    have hlt : extent xs + len ≠ memSizeAligned := by
      have htotal := ht.extent_eq
      simp only [extent_append, extent] at htotal
      omega
    -- `lfree` lies at or below the freed block
    have hle := lowestFree_le 0 xs (y :: ys') (t := ⟨len, false⟩) rfl
    have hpair : Tiled h.ram (xs ++ [⟨len, false⟩, y] ++ ys') := by simpa using ht
    obtain ⟨htiled, hframe⟩ := hpair.absorb
    rw [if_pos ⟨by omega, by rw [hheader], hlt⟩, if_neg (by omega)]
    refine .inr ⟨y, ys', rfl, hfree, by simpa using htiled, rfl, ?_⟩
    have hend : extent (xs ++ [⟨len, false⟩, y]) = extent xs + len + y.len := by
      simp [extent, Nat.add_assoc]
    rwa [hend] at hframe

/-- A free block in front takes over the free block. -/
theorem plugBackward_spec (ht : Tiled h.ram (xs ++ ⟨len, false⟩ :: ys))
    (hlfree : h.lfree = lowestFree 0 (xs ++ ⟨len, false⟩ :: ys)) :
    (plugBackward h (extent xs) = h ∧ ∀ x ∈ xs.getLast?, x.used) ∨
      ∃ xs' x, xs = xs' ++ [x] ∧ x.used = false ∧
        Plugged h (plugBackward h (extent xs)) (xs' ++ ⟨x.len + len, false⟩ :: ys) (extent xs')
          (extent xs + len) := by
  rw [plugBackward, ht.header_eq]
  dsimp only
  rcases List.eq_nil_or_concat xs with rfl | ⟨xs', x, rfl⟩
  · -- the first block is its own predecessor
    rw [if_neg fun hcond => hcond.1 rfl]
    exact .inl ⟨rfl, by simp⟩
  · rw [List.concat_eq_append] at ht hlfree ⊢
    have hcons : xs' ++ [x] ++ ⟨len, false⟩ :: ys = xs' ++ x :: ⟨len, false⟩ :: ys := by simp
    have hheader := (hcons ▸ ht).header_eq
    have hstart : extent (xs' ++ [x]) = extent xs' + x.len := by simp [extent]
    have hprev : lastStart 0 0 (xs' ++ [x]) = extent xs' := by
      rw [lastStart_append, Nat.zero_add]
      rfl
    have hxlen : 20 ≤ x.len := (ht.fit x (by simp)).1
    rw [hprev, hheader]
    cases hused : x.used with
    | true =>
        rw [if_neg fun hcond => Bool.noConfusion hcond.2]
        exact .inl ⟨rfl, by simp [hused]⟩
    | false =>
        have hle := lowestFree_le 0 xs' (⟨len, false⟩ :: ys) hused
        rw [hcons] at hlfree
        have hpair : Tiled h.ram (xs' ++ [x, ⟨len, false⟩] ++ ys) := by simpa using ht
        obtain ⟨htiled, hframe⟩ := hpair.absorb
        rw [hstart, if_pos ⟨by omega, rfl⟩, if_neg (by omega)]
        refine .inr ⟨xs', x, rfl, hused, by simpa [hused] using htiled, rfl, ?_⟩
        have hend : extent (xs' ++ [x, ⟨len, false⟩]) = extent xs' + x.len + len := by
          simp [extent, Nat.add_assoc]
        rwa [hend] at hframe

/-- Behind the block, `plug_holes` leaves no free neighbour. -/
theorem plugForward_joins (ht : Tiled h.ram (xs ++ ⟨len, false⟩ :: ys))
    (hlfree : h.lfree = lowestFree 0 (xs ++ ⟨len, false⟩ :: ys)) (hys : Coalesced ys) :
    ∃ fwd ys', ys = fwd ++ ys' ∧ (∀ t ∈ fwd, t.used = false) ∧ Coalesced ys' ∧
      (∀ y ∈ ys'.head?, y.used) ∧
      Plugged h (plugForward h (extent xs)) (xs ++ ⟨len + extent fwd, false⟩ :: ys') (extent xs)
        (extent xs + len + extent fwd) := by
  rcases plugForward_spec ht hlfree with ⟨hstay, hused⟩ | ⟨y, ys', rfl, hfree, hplug⟩
  · rw [hstay]
    exact ⟨[], ys, rfl, fun _ h => absurd h List.not_mem_nil, hys, hused, ht, rfl, Frame.refl⟩
  · obtain ⟨hhead, htail⟩ := List.isChain_cons.mp hys
    refine ⟨[y], ys', rfl, ?_, htail, ?_, hplug⟩
    · intro t ht
      rw [List.mem_singleton.mp ht]
      exact hfree
    · intro z hz
      simpa [hfree] using hhead z hz

/-- In front of the block, `plug_holes` leaves no free neighbour. -/
theorem plugBackward_joins (ht : Tiled h.ram (xs ++ ⟨len, false⟩ :: ys))
    (hlfree : h.lfree = lowestFree 0 (xs ++ ⟨len, false⟩ :: ys)) (hxs : Coalesced xs) :
    ∃ xs' back, xs = xs' ++ back ∧ (∀ t ∈ back, t.used = false) ∧ Coalesced xs' ∧
      (∀ x ∈ xs'.getLast?, x.used) ∧
      Plugged h (plugBackward h (extent xs)) (xs' ++ ⟨extent back + len, false⟩ :: ys) (extent xs')
        (extent xs + len) := by
  rcases plugBackward_spec ht hlfree with ⟨hstay, hused⟩ | ⟨xs', x, rfl, hfree, hplug⟩
  · rw [hstay]
    refine ⟨xs, [], (List.append_nil xs).symm, fun _ h => absurd h List.not_mem_nil, hxs, hused, ?_,
      rfl, Frame.refl⟩
    rwa [extent, Nat.zero_add]
  · obtain ⟨hinit, -, hlast⟩ := List.isChain_append.mp hxs
    refine ⟨xs', [x], rfl, ?_, hinit, ?_, hplug⟩
    · intro t ht
      rw [List.mem_singleton.mp ht]
      exact hfree
    · intro z hz
      simpa [hfree] using hlast z hz x rfl

/-- `plug_holes` joins the block to its free neighbours. -/
theorem plugHoles_spec (ht : Tiled h.ram (xs ++ ⟨len, false⟩ :: ys))
    (hlfree : h.lfree = lowestFree 0 (xs ++ ⟨len, false⟩ :: ys)) (hxs : Coalesced xs)
    (hys : Coalesced ys) :
    ∃ h' xs' back fwd ys', xs = xs' ++ back ∧ ys = fwd ++ ys' ∧
      (∀ t ∈ back ++ fwd, t.used = false) ∧ plugHoles h (extent xs) = some h' ∧
      Edited h h' xs' (back ++ ⟨len, false⟩ :: fwd)
        [⟨extent back + (len + extent fwd), false⟩] ys' := by
  have hlen : 20 ≤ len := (ht.fit ⟨len, false⟩ (by simp)).1
  have hheader := ht.header_eq
  have htotal := ht.extent_eq
  simp only [extent_append, extent] at htotal
  have hasserts : extent xs < memSizeAligned ∧ (header h.ram (extent xs)).used = false ∧
      (header h.ram (extent xs)).next ≤ memSizeAligned := by
    rw [hheader]
    exact ⟨by omega, rfl, by dsimp only; omega⟩
  obtain ⟨fwd, ys', rfl, hfwd, hys', hhead, hplug⟩ := plugForward_joins ht hlfree hys
  -- the free block at `extent xs` hides what follows it from `lfree`
  have hlfree' : (plugForward h (extent xs)).lfree =
      lowestFree 0 (xs ++ ⟨len + extent fwd, false⟩ :: ys') := by
    rw [hplug.lfree_eq, hlfree]
    rcases all_used_or_free xs with hused | hfree
    · rw [lowestFree_append_of_used hused, lowestFree_append_of_used hused]
      rfl
    · rw [lowestFree_append_of_free hfree, lowestFree_append_of_free hfree]
  obtain ⟨xs', back, rfl, hback, hxs', hlast, hplug'⟩ := plugBackward_joins hplug.tiled hlfree' hxs
  refine ⟨plugBackward (plugForward h (extent (xs' ++ back))) (extent (xs' ++ back)), xs', back,
    fwd, ys', rfl, rfl, ?_, ?_, ⟨?_, ?_, ?_⟩, ?_⟩
  · intro t ht
    exact (List.mem_append.mp ht).elim (hback t) (hfwd t)
  · rw [plugHoles, if_pos hasserts]
  · simpa using hplug'.tiled
  · rw [List.append_assoc, List.singleton_append, coalesced_append_cons]
    exact ⟨hxs', hys', fun x hx => .inl (hlast x hx), fun y hy => .inr (hhead y hy)⟩
  · rw [hplug'.lfree_eq, hlfree', List.append_assoc, List.append_assoc, List.singleton_append]
    rcases all_used_or_free xs' with hused | hfree
    · rw [lowestFree_append_of_used hused, lowestFree_append_of_used hused]
      cases back with
      | nil => rfl
      | cons x back => simp [lowestFree, hback x List.mem_cons_self]
    · rw [lowestFree_append_of_free hfree, lowestFree_append_of_free hfree]
  · have hend : extent (xs' ++ (back ++ ⟨len, false⟩ :: fwd)) =
        extent (xs' ++ back) + len + extent fwd := by
      simp only [extent_append, extent]
      omega
    have hlo : extent xs' ≤ extent (xs' ++ back) := by
      rw [extent_append]
      exact Nat.le_add_right _ _
    rw [hend]
    refine (hplug.frame.widen hlo (.inl rfl)).trans (hplug'.frame.widen (Nat.le_refl _) (.inl ?_))
    omega

/-- `mem_free` of a block in use. -/
theorem memFree_spec (hinv : h.Inv (xs ++ ⟨len, true⟩ :: ys)) :
    ∃ h' xs' back fwd ys', xs = xs' ++ back ∧ ys = fwd ++ ys' ∧
      (∀ t ∈ back ++ fwd, t.used = false) ∧
      memFree h (some (extent xs + sizeofStructMem)) = some h' ∧
      Edited h h' xs' (back ++ ⟨len, true⟩ :: fwd)
        [⟨extent back + (len + extent fwd), false⟩] ys' := by
  have hsize : sizeofStructMem = 8 := rfl
  have ht := hinv.tiled
  have hfit : Tile.Fit ⟨len, true⟩ := ht.fit _ (by simp)
  have hlen : 20 ≤ len := hfit.1
  have htotal := ht.extent_eq
  simp only [extent_append, extent] at htotal
  have hpos : ∀ t ∈ xs, 0 < t.len := fun t hx => Tiled.len_pos (ht.fit t (by simp [hx]))
  obtain ⟨hxs, hys, -, -⟩ := coalesced_append_cons.mp hinv.coalesced
  have ht' : Tiled h.ram (xs ++ [⟨len, true⟩] ++ ys) := by simpa using ht
  obtain ⟨htiled, -⟩ := ht'.setUsed (v := 0) (by decide)
  let h₁ : Heap := ⟨setUsed h.ram (extent xs) 0, if extent xs < h.lfree then extent xs else h.lfree⟩
  have htiled₁ : Tiled h₁.ram (xs ++ ⟨len, false⟩ :: ys) := by simpa using htiled
  have hlfree₁ : h₁.lfree = lowestFree 0 (xs ++ ⟨len, false⟩ :: ys) := by
    rw [lowestFree_release hpos (by omega), Nat.zero_add, ← hinv.lfree_eq]
  obtain ⟨h', xs', back, fwd, ys', rfl, rfl, hfree, hplug, hedit⟩ :=
    plugHoles_spec htiled₁ hlfree₁ hxs hys
  refine ⟨h', xs', back, fwd, ys', rfl, rfl, hfree, ?_, hedit.inv, ?_⟩
  · have halign := ht.aligned
    rw [memFree, if_pos ⟨by omega, by omega, by omega⟩, Nat.add_sub_cancel]
    dsimp only
    rw [ht.header_eq, if_pos rfl]
    exact hplug
  · have hframe := hedit.frame
    simp only [extent_append, extent] at hframe ⊢
    exact (Frame.setLE (by rw [extent_append]; omega) (by rw [extent_append]; omega)).trans hframe

-- ============================================================================
-- Splitting a block
-- ============================================================================

section Insert

variable {p ptr2 next lo hi : Nat}

theorem header_insertBehind (hptr : p + 20 ≤ ptr2) (hptr2 : ptr2 < 2 ^ 16) :
    header (insertBehind ram p ptr2 next) p = { header ram p with next := ptr2 } := by
  rw [insertBehind]
  dsimp only
  rw [header_setNext hptr2, header_setPrev_apart (.inl (by omega)),
    header_setNext_apart (.inl (by omega)), header_setUsed_apart (.inl (by omega))]

theorem header_insertBehind_rest (hptr : p + 20 ≤ ptr2) (hp : p < 2 ^ 16) (hnext : next < 2 ^ 16) :
    header (insertBehind ram p ptr2 next) ptr2 = ⟨next, p, false⟩ := by
  rw [insertBehind]
  rw [header_setNext_apart (.inr (by omega)), header_setPrev hp, header_setNext hnext,
    header_setUsed (by decide)]
  rfl

theorem frame_insertBehind (hptr : p + 20 ≤ ptr2) (hhi : ptr2 + 20 ≤ hi) :
    Frame ram (insertBehind ram p ptr2 next) p hi := by
  rw [insertBehind]
  have hused : Frame ram (setUsed ram ptr2 0) p hi := Frame.setLE (by omega) (by omega)
  have hnext : Frame (setUsed ram ptr2 0) (setNext (setUsed ram ptr2 0) ptr2 next) p hi :=
    Frame.setLE (by omega) (by omega)
  exact ((hused.trans hnext).trans (Frame.setLE (by omega) (by omega))).trans
    (Frame.setLE (by omega) (by omega))

/-- The bytes between the two headers stay. -/
theorem insertBehind_agree :
    ram.Agree (insertBehind ram p ptr2 next) (p + 8) ptr2 := by
  intro x hx hlt
  rw [insertBehind]
  rw [setNext, Memory.setLE_apply_of_outside (by omega), setPrev,
    Memory.setLE_apply_of_outside (by omega), setNext, Memory.setLE_apply_of_outside (by omega),
    setUsed, Memory.setLE_apply_of_outside (by omega)]

theorem linkBack_agree {a b : Nat} (h : b ≤ (header ram ptr2).next) :
    ram.Agree (linkBack ram ptr2) a b := by
  intro x _ hx
  rw [linkBack]
  split
  · exact Memory.setLE_apply_of_outside (by omega)
  · rfl

end Insert

theorem roundedSize_spec {size : Nat} (h : size ≤ 65532) :
    size ≤ roundedSize size ∧ 12 ≤ roundedSize size ∧ roundedSize size % 4 = 0 ∧
      roundedSize size < 2 ^ 16 := by
  have hmin : minSizeAligned = 12 := rfl
  rw [roundedSize, memAlignSize, hmin]
  split <;> omega

/-- The first tile is taken and has room, the others are free. -/
def Serves (need : Nat) (new : List Tile) : Prop :=
  ∃ len rest, new = ⟨len, true⟩ :: rest ∧ need ≤ len ∧ ∀ t ∈ rest, t.used = false

theorem serves_singleton {need : Nat} (h : need ≤ len) : Serves need [⟨len, true⟩] :=
  ⟨len, [], rfl, h, fun _ ht => absurd ht List.not_mem_nil⟩

theorem serves_pair {need rest : Nat} : Serves need [⟨need, true⟩, ⟨rest, false⟩] := by
  refine ⟨need, [⟨rest, false⟩], rfl, Nat.le_refl _, fun t ht => ?_⟩
  rw [List.mem_singleton.mp ht]

/-- A taken tile among tiles that serve is the first. -/
theorem Serves.first {need p q : Nat} {new : List Tile} (hs : Serves need new)
    (hq : (q, t) ∈ placed p new) (hused : t.used = true) : q = p := by
  obtain ⟨len, rest, rfl, -, hrest⟩ := hs
  rcases List.mem_cons.mp hq with heq | hmem
  · exact (Prod.mk.inj heq).1
  · exact absurd (hused.symm.trans (hrest t (mem_of_mem_placed hmem))) Bool.noConfusion

/-- A block in use gives up the bytes behind `ptr2`, with the free block that may
    follow it. -/
theorem Heap.Inv.shrink (fwd : List Tile) (ptr2 : Nat) {lfree : Nat}
    (hinv : h.Inv (xs ++ ⟨len, true⟩ :: (fwd ++ ys))) (hptr : extent xs + 20 ≤ ptr2)
    (hroom : ptr2 + 20 ≤ extent (xs ++ ⟨len, true⟩ :: fwd)) (halign : ptr2 % 4 = 0)
    (hys : ∀ y ∈ ys.head?, y.used)
    (hlfree : lfree = lowestFree 0 (xs ++ ⟨ptr2 - extent xs, true⟩ :: ⟨0, false⟩ :: ys)) :
    Edited h
        ⟨linkBack (insertBehind h.ram (extent xs) ptr2 (extent (xs ++ ⟨len, true⟩ :: fwd))) ptr2,
          lfree⟩
        xs (⟨len, true⟩ :: fwd)
        [⟨ptr2 - extent xs, true⟩, ⟨extent (xs ++ ⟨len, true⟩ :: fwd) - ptr2, false⟩] ys ∧
      h.ram.Agree
        (linkBack (insertBehind h.ram (extent xs) ptr2 (extent (xs ++ ⟨len, true⟩ :: fwd))) ptr2)
        (extent xs + 8) ptr2 := by
  have hsize : memSizeAligned = 20480 := rfl
  have ht : Tiled h.ram (xs ++ (⟨len, true⟩ :: fwd) ++ ys) := by simpa using hinv.tiled
  have hle := ht.extent_le
  have hend := ht.aligned
  have hstart := hinv.tiled.aligned
  have hrest : header (insertBehind h.ram (extent xs) ptr2 (extent (xs ++ ⟨len, true⟩ :: fwd))) ptr2 =
      ⟨extent (xs ++ ⟨len, true⟩ :: fwd), extent xs, false⟩ :=
    header_insertBehind_rest hptr (by omega) (by omega)
  obtain ⟨htiled, hframe⟩ := ht.linkBack (u := true) hptr hroom (by omega) (by omega)
    (frame_insertBehind hptr hroom)
    (by rw [header_insertBehind hptr (by omega), hinv.tiled.header_eq]) hrest
  obtain ⟨hxs, hrest', -, -⟩ := coalesced_append_cons.mp hinv.coalesced
  refine ⟨⟨⟨htiled, ?_, ?_⟩, hframe⟩, ?_⟩
  · rw [List.append_assoc, List.cons_append, coalesced_append_cons]
    refine ⟨hxs, ?_, fun x _ => .inr rfl, fun y _ => .inl rfl⟩
    rw [List.singleton_append, Coalesced, List.isChain_cons]
    exact ⟨fun y hy => .inr (hys y hy), (List.isChain_append.mp hrest').2.1⟩
  · rw [hlfree, List.append_assoc]
    rcases all_used_or_free xs with hused | hfree
    · rw [lowestFree_append_of_used hused, lowestFree_append_of_used hused]
      rfl
    · rw [lowestFree_append_of_free hfree, lowestFree_append_of_free hfree]
  · intro x hx hlt
    rw [linkBack_agree (b := ptr2) (by rw [hrest]; dsimp only; omega) x hx hlt,
      insertBehind_agree x hx hlt]

/-- A call that leaves the heap alone. -/
theorem Heap.Inv.unchanged (hinv : h.Inv (xs ++ t :: ys)) : Edited h h xs [t] [t] ys := by
  refine ⟨?_, Frame.refl⟩
  rwa [List.append_assoc, List.singleton_append]

-- ============================================================================
-- `mem_trim`
-- ============================================================================

/-- What `mem_trim` to `newsize` makes of a block in use: it serves the new size
    with its bytes unchanged, the rest is joined to a free block behind it. -/
def Trimmed (h h' : Heap) (xs : List Tile) (len newsize : Nat) (ys : List Tile) : Prop :=
  ∃ fwd ys' new, ys = fwd ++ ys' ∧ (∀ t ∈ fwd, t.used = false) ∧
    Edited h h' xs (⟨len, true⟩ :: fwd) new ys' ∧
    Serves (sizeofStructMem + roundedSize newsize) new ∧
    h.ram.Agree h'.ram (extent xs + 8) (extent xs + 8 + newsize)

/-- `mem_trim` without the checks that a block in use passes. -/
theorem memTrim_eq {newsize : Nat} (ht : Tiled h.ram (xs ++ ⟨len, true⟩ :: ys))
    (hroom : sizeofStructMem + roundedSize newsize ≤ len) :
    memTrim h (extent xs + sizeofStructMem) newsize =
      let mem := extent xs + sizeofStructMem
      let ptr2 := mem + roundedSize newsize
      if roundedSize newsize = len - 8 then some (some mem, h)
      else if (header h.ram (extent xs + len)).used = false then
        some (some mem,
          ⟨linkBack (insertBehind h.ram (extent xs) ptr2 (header h.ram (extent xs + len)).next) ptr2,
            if h.lfree = extent xs + len then ptr2 else h.lfree⟩)
      else if roundedSize newsize + sizeofStructMem + minSizeAligned ≤ len - 8 then
        some (some mem, ⟨linkBack (insertBehind h.ram (extent xs) ptr2 (extent xs + len)) ptr2,
          if ptr2 < h.lfree then ptr2 else h.lfree⟩)
      else some (some mem, h) := by
  have hhdr : sizeofStructMem = 8 := rfl
  have hsize : memSizeAligned = 20480 := rfl
  have htotal := ht.extent_eq
  simp only [extent_append, extent] at htotal
  have hfit : Tile.Fit ⟨len, true⟩ := ht.fit _ (by simp)
  have hlen : 20 ≤ len := hfit.1
  have huser : (extent xs + len + 2 ^ 17 - extent xs - sizeofStructMem) % 2 ^ 16 = len - 8 := by
    omega
  rw [memTrim]
  dsimp only
  rw [if_neg (by omega), if_pos ⟨by omega, by omega⟩, Nat.add_sub_cancel, ht.header_eq]
  dsimp only
  rw [huser, if_neg (by omega)]

/-- `mem_trim` of a block in use to a size it has. -/
theorem memTrim_spec (newsize : Nat) (hinv : h.Inv (xs ++ ⟨len, true⟩ :: ys))
    (hle : newsize ≤ 65532) (hroom : sizeofStructMem + roundedSize newsize ≤ len) :
    ∃ h', memTrim h (extent xs + sizeofStructMem) newsize =
        some (some (extent xs + sizeofStructMem), h') ∧ Trimmed h h' xs len newsize ys := by
  have hhdr : sizeofStructMem = 8 := rfl
  have hmin : minSizeAligned = 12 := rfl
  obtain ⟨hge, hmin', hmod, -⟩ := roundedSize_spec hle
  have ht := hinv.tiled
  have hlenmod : len % 4 = 0 := (ht.fit ⟨len, true⟩ (by simp)).2
  have hstart := ht.aligned
  have hpos : ∀ t ∈ xs, 0 < t.len := fun t hx => Tiled.len_pos (ht.fit t (by simp [hx]))
  have hnil : ∀ t ∈ ([] : List Tile), t.used = false := fun _ h => absurd h List.not_mem_nil
  have hsame : Trimmed h h xs len newsize ys :=
    ⟨[], ys, [⟨len, true⟩], rfl, hnil, hinv.unchanged, serves_singleton hroom, fun _ _ _ => rfl⟩
  have hlow := hinv.lfree_eq
  rw [memTrim_eq ht hroom]
  dsimp only
  generalize hptr : extent xs + sizeofStructMem + roundedSize newsize = ptr2
  have hserve : sizeofStructMem + roundedSize newsize = ptr2 - extent xs := by omega
  split
  next => exact ⟨h, rfl, hsame⟩
  next hne =>
    rcases ht.next_cases with ⟨hend, hused⟩ | ⟨y, ys', rfl, hfree, hheader⟩
    · rw [if_neg (by rw [hend]; exact Bool.noConfusion)]
      split
      next hsplit =>
        -- the rest becomes a block in front of a taken one
        have hextent : extent (xs ++ [⟨len, true⟩]) = extent xs + len := by simp [extent]
        have hlfree : (if ptr2 < h.lfree then ptr2 else h.lfree) =
            lowestFree 0 (xs ++ ⟨ptr2 - extent xs, true⟩ :: ⟨0, false⟩ :: ys) := by
          rcases all_used_or_free xs with hall | hsome
          · rw [lowestFree_append_of_used hall] at hlow ⊢
            have hbehind := le_lowestFree (extent xs + len) ys
            simp only [lowestFree, if_true, Nat.zero_add] at hlow ⊢
            rw [if_pos (by omega)]
            simp only [Bool.false_eq_true, if_false]
            omega
          · have hlt := lowestFree_lt (p := 0) hpos hsome
            rw [lowestFree_append_of_free hsome] at hlow ⊢
            rw [if_neg (by omega), hlow]
        obtain ⟨hedit, hagree⟩ := Heap.Inv.shrink [] ptr2 hinv (by omega)
          (by rw [hextent]; omega) (by omega) hused hlfree
        rw [hextent] at hedit hagree
        refine ⟨_, rfl, [], ys, _, rfl, hnil, hedit, ?_, hagree.mono (Nat.le_refl _) (by omega)⟩
        rw [hserve]
        exact serves_pair
      next => exact ⟨h, rfl, hsame⟩
    · -- the free block moves down
      have hylen : 20 ≤ y.len := (ht.fit y (by simp)).1
      have hextent : extent (xs ++ [⟨len, true⟩, y]) = extent xs + len + y.len := by
        simp [extent, Nat.add_assoc]
      have hhead : ∀ z ∈ ys'.head?, z.used := by
        obtain ⟨-, hys, -, -⟩ := coalesced_append_cons.mp hinv.coalesced
        intro z hz
        simpa [hfree] using (List.isChain_cons.mp hys).1 z hz
      have hlfree : (if h.lfree = extent xs + len then ptr2 else h.lfree) =
          lowestFree 0 (xs ++ ⟨ptr2 - extent xs, true⟩ :: ⟨0, false⟩ :: ys') := by
        rcases all_used_or_free xs with hall | hsome
        · rw [lowestFree_append_of_used hall] at hlow ⊢
          simp only [lowestFree, if_true, hfree, Bool.false_eq_true, if_false,
            Nat.zero_add] at hlow ⊢
          rw [if_pos hlow]
          omega
        · have hlt := lowestFree_lt (p := 0) hpos hsome
          rw [lowestFree_append_of_free hsome] at hlow ⊢
          rw [if_neg (by omega), hlow]
      rw [hheader, if_pos rfl]
      obtain ⟨hedit, hagree⟩ := Heap.Inv.shrink [y] ptr2 hinv (by omega)
        (by rw [hextent]; omega) (by omega) hhead hlfree
      rw [hextent] at hedit hagree
      refine ⟨_, rfl, [y], ys', _, rfl, ?_, hedit, ?_, hagree.mono (Nat.le_refl _) (by omega)⟩
      · intro t ht
        rw [List.mem_singleton.mp ht]
        exact hfree
      · rw [hserve]
        exact serves_pair

-- ============================================================================
-- `mem_malloc`
-- ============================================================================

theorem userSize_eq {prev p : Nat} (h : header ram p = ⟨p + t.len, prev, t.used⟩)
    (hp : p + t.len ≤ memSizeAligned) (hlen : 20 ≤ t.len) : userSize ram p = t.len - 8 := by
  have hhdr : sizeofStructMem = 8 := rfl
  have hsize : memSizeAligned = 20480 := rfl
  rw [userSize, h]
  dsimp only
  omega

/-- The scan finds the first fit. -/
theorem scan_spec {size fuel prev p : Nat} (hl : Linked (header ram) prev p ts)
    (hfit : ∀ t ∈ ts, Tile.Fit t) (hend : p + extent ts = memSizeAligned)
    (hsize : size ≤ memSizeAligned) (hfuel : ts.length < fuel) :
    scan ram size fuel p = some (firstFit (sizeofStructMem + size) p ts) := by
  have hhdr : sizeofStructMem = 8 := rfl
  induction ts generalizing prev p fuel with
  | nil =>
      obtain ⟨n, rfl⟩ : ∃ n, fuel = n + 1 := ⟨fuel - 1, by simp at hfuel; omega⟩
      rw [extent] at hend
      rw [scan, if_neg (by omega)]
      rfl
  | cons t ts ih =>
      obtain ⟨n, rfl⟩ : ∃ n, fuel = n + 1 := ⟨fuel - 1, by simp at hfuel; omega⟩
      obtain ⟨hheader, hrest⟩ := hl
      rw [extent] at hend
      have hlen := (hfit t List.mem_cons_self).1
      have huser := userSize_eq hheader (by omega) hlen
      have hnext := ih hrest (fun u hu => hfit u (List.mem_cons_of_mem t hu)) (by omega)
        (by simpa using hfuel)
      rw [scan, huser, hheader, firstFit]
      dsimp only
      by_cases hbound : p < memSizeAligned - size
      · rw [if_pos hbound, hnext]
        by_cases htake : t.used = false ∧ size ≤ t.len - 8
        · rw [if_pos htake, if_pos ⟨htake.1, by omega⟩]
        · rw [if_neg htake, if_neg fun hcond => htake ⟨hcond.1, by omega⟩]
      · -- too close to the end: no block from here on is that long
        rw [if_neg hbound, if_neg (by omega), firstFit_eq_none_iff.mpr]
        intro u hu _
        obtain ⟨ys, zs, rfl⟩ := List.append_of_mem hu
        simp only [extent_append, extent] at hend
        omega

/-- The loop stops at the lowest free block. -/
theorem nextFree_spec {fuel prev p : Nat} (hl : Linked (header ram) prev p ts)
    (hfit : ∀ t ∈ ts, Tile.Fit t) (hend : p + extent ts = memSizeAligned)
    (hfuel : ts.length < fuel) : nextFree ram fuel p = some (lowestFree p ts) := by
  induction ts generalizing prev p fuel with
  | nil =>
      obtain ⟨n, rfl⟩ : ∃ n, fuel = n + 1 := ⟨fuel - 1, by simp at hfuel; omega⟩
      rw [extent, Nat.add_zero] at hend
      rw [nextFree, if_neg fun hcond => hcond.2 hend]
      rfl
  | cons t ts ih =>
      obtain ⟨n, rfl⟩ : ∃ n, fuel = n + 1 := ⟨fuel - 1, by simp at hfuel; omega⟩
      obtain ⟨hheader, hrest⟩ := hl
      rw [extent] at hend
      have hlen := (hfit t List.mem_cons_self).1
      have hnext := ih hrest (fun u hu => hfit u (List.mem_cons_of_mem t hu)) (by omega)
        (by simpa using hfuel)
      rw [nextFree, hheader, lowestFree]
      dsimp only
      by_cases hused : t.used = true
      · rw [if_pos ⟨hused, by omega⟩, if_pos hused, hnext]
      · rw [if_neg fun hcond => hused hcond.1, if_neg hused]

/-- The fuel of the loops is enough. -/
theorem Tiled.length_lt (ht : Tiled ram ts) : ts.length < memSizeAligned := by
  have hlen (us : List Tile) (hfit : ∀ t ∈ us, Tile.Fit t) : us.length * 20 ≤ extent us := by
    induction us with
    | nil => exact Nat.le_refl _
    | cons u us ih =>
        have hu := (hfit u List.mem_cons_self).1
        have hus := ih fun v hv => hfit v (List.mem_cons_of_mem u hv)
        rw [List.length_cons, extent]
        omega
  have hall := hlen ts ht.fit
  have hsize : memSizeAligned = 20480 := rfl
  rw [ht.extent_eq] at hall
  omega

/-- A free block that is long enough is taken, split or whole. -/
theorem takeBlock_spec {size : Nat} (ht : Tiled ram (xs ++ t :: ys))
    (hco : Coalesced (xs ++ t :: ys)) (hfree : t.used = false)
    (hroom : sizeofStructMem + size ≤ t.len) (hsize : 12 ≤ size) (hmod : size % 4 = 0) :
    ∃ new, Tiled (takeBlock ram size (extent xs)) (xs ++ new ++ ys) ∧
      Coalesced (xs ++ new ++ ys) ∧ Serves (sizeofStructMem + size) new ∧
      Frame ram (takeBlock ram size (extent xs)) (extent xs) (extent (xs ++ [t])) := by
  have hhdr : sizeofStructMem = 8 := rfl
  have hmin : minSizeAligned = 12 := rfl
  have hmem : memSizeAligned = 20480 := rfl
  have hfit : Tile.Fit t := ht.fit t (by simp)
  have hlenmod := hfit.2
  have htotal := ht.extent_eq
  simp only [extent_append, extent] at htotal
  have hextent : extent (xs ++ [t]) = extent xs + t.len := by simp [extent]
  have ht' : Tiled ram (xs ++ [t] ++ ys) := by simpa using ht
  obtain ⟨hxs, hys, -, hhead⟩ := coalesced_append_cons.mp hco
  rw [takeBlock, userSize_eq ht.header_eq (by omega) hfit.1]
  split
  next hsplit =>
    dsimp only
    rw [ht.header_eq]
    dsimp only
    generalize hptr : extent xs + sizeofStructMem + size = ptr2
    have hserve : sizeofStructMem + size = ptr2 - extent xs := by omega
    have hins : extent xs + 20 ≤ ptr2 := by omega
    have hfilled : Frame ram
        (setUsed (insertBehind ram (extent xs) ptr2 (extent xs + t.len)) (extent xs) 1)
        (extent xs) (extent (xs ++ [t])) :=
      (frame_insertBehind hins (by omega)).trans (Frame.setLE (by omega) (by omega))
    obtain ⟨htiled, hframe⟩ := ht'.linkBack (u := true) hins (by omega) (by omega) (by omega)
      hfilled
      (by rw [header_setUsed (by decide), header_insertBehind hins (by omega), ht.header_eq]; rfl)
      (by rw [header_setUsed_apart (.inr (by omega)),
        header_insertBehind_rest hins (by omega) (by omega), hextent])
    refine ⟨_, htiled, ?_, ?_, hframe⟩
    · rw [List.append_assoc, List.cons_append, coalesced_append_cons, List.singleton_append]
      refine ⟨hxs, ?_, fun x _ => .inr rfl, fun y _ => .inl rfl⟩
      rw [Coalesced, List.isChain_cons]
      refine ⟨fun y hy => .inr ?_, hys⟩
      simpa [hfree] using hhead y hy
    · rw [hserve]
      exact serves_pair
  next =>
    obtain ⟨htiled, hframe⟩ := ht'.setUsed (v := 1) (by decide)
    refine ⟨[⟨t.len, true⟩], htiled, ?_, serves_singleton hroom, hframe⟩
    rw [List.append_assoc, List.singleton_append, coalesced_append_cons]
    exact ⟨hxs, hys, fun x _ => .inr rfl, fun y _ => .inl rfl⟩

/-- The blocks below `lfree` are taken, so a scan from there finds the first fit
    of all. -/
theorem Heap.Inv.scan_eq {size : Nat} (hinv : h.Inv ts) (hsize : size ≤ memSizeAligned) :
    scan h.ram size memSizeAligned h.lfree = some (firstFit (sizeofStructMem + size) 0 ts) := by
  have ht := hinv.tiled
  have hlength := ht.length_lt
  obtain ⟨xs, ys, rfl, hlow, hall, -⟩ := lowestFree_split 0 ts
  have htotal := ht.extent_eq
  rw [extent_append] at htotal
  rw [List.length_append] at hlength
  rw [hinv.lfree_eq, hlow, firstFit_append_of_used hall]
  exact scan_spec (linked_append.mp ht.linked).2
    (fun t hmem => ht.fit t (List.mem_append_right xs hmem)) (by omega) hsize (by omega)

/-- `lfree` at the end of the heap or at a free block. -/
theorem Tiled.lowestFree_free (ht : Tiled ram ts) (hne : lowestFree 0 ts ≠ memSizeAligned) :
    (header ram (lowestFree 0 ts)).used = false := by
  obtain ⟨xs, ys, rfl, hlow, -, hhead⟩ := lowestFree_split 0 ts
  rw [hlow, Nat.zero_add] at hne ⊢
  cases ys with
  | nil =>
      have htotal := ht.extent_eq
      rw [List.append_nil] at htotal
      exact absurd htotal hne
  | cons y ys =>
      rw [ht.header_eq]
      exact hhead y rfl

/-- `lfree` after the free block at `extent xs` has become the tiles `new`. -/
theorem Heap.Inv.adjustLfree_eq {new : List Tile} (hinv : h.Inv (xs ++ t :: ys))
    (hfree : t.used = false) (ht : Tiled ram (xs ++ new ++ ys)) :
    adjustLfree h.lfree ram (extent xs) = some (lowestFree 0 (xs ++ new ++ ys)) := by
  have hpos : ∀ u ∈ xs, 0 < u.len := fun u hu => Tiled.len_pos (ht.fit u (by simp [hu]))
  rw [adjustLfree, hinv.lfree_eq]
  rcases all_used_or_free xs with hall | hsome
  · have hlow : lowestFree 0 (xs ++ t :: ys) = extent xs := by
      simp [lowestFree_append_of_used hall, lowestFree, hfree]
    have hlength := ht.length_lt
    have htotal := ht.extent_eq
    have hnext : nextFree ram memSizeAligned (extent xs) =
        some (lowestFree 0 (xs ++ new ++ ys)) := by
      rw [List.append_assoc] at ht hlength htotal ⊢
      rw [List.length_append] at hlength
      rw [extent_append] at htotal
      have hlinked := (linked_append.mp ht.linked).2
      rw [Nat.zero_add] at hlinked
      rw [lowestFree_append_of_used hall, Nat.zero_add]
      exact nextFree_spec hlinked (fun u hu => ht.fit u (List.mem_append_right xs hu)) htotal
        (by omega)
    rw [hlow, if_pos rfl, hnext, Option.filter_some_pos]
    rw [decide_eq_true_iff]
    by_cases hend : lowestFree 0 (xs ++ new ++ ys) = memSizeAligned
    · exact .inl hend
    · exact .inr (ht.lowestFree_free hend)
  · have hlt := lowestFree_lt (p := 0) hpos hsome
    rw [lowestFree_append_of_free hsome, if_neg (by omega), List.append_assoc,
      lowestFree_append_of_free hsome]

/-- `mem_malloc` takes the first fit, and fails only where there is none. -/
theorem memMalloc_spec {size : Nat} (hinv : h.Inv ts) (hpos : 0 < size) (hle : size ≤ 65532) :
    (firstFit (sizeofStructMem + roundedSize size) 0 ts = none ∧
        memMalloc h size = some (none, h)) ∨
      ∃ xs t ys h' new, ts = xs ++ t :: ys ∧
        firstFit (sizeofStructMem + roundedSize size) 0 ts = some (extent xs) ∧
        t.used = false ∧ sizeofStructMem + roundedSize size ≤ t.len ∧
        memMalloc h size = some (some (extent xs + sizeofStructMem), h') ∧
        Edited h h' xs [t] new ys ∧ Serves (sizeofStructMem + roundedSize size) new := by
  have hhdr : sizeofStructMem = 8 := rfl
  obtain ⟨-, hmin, hmod, -⟩ := roundedSize_spec hle
  have ht := hinv.tiled
  rw [memMalloc, if_neg (by omega)]
  dsimp only
  by_cases hbig : memSizeAligned < roundedSize size
  · rw [if_pos hbig]
    refine .inl ⟨firstFit_eq_none_iff.mpr fun t hmem _ => ?_, rfl⟩
    obtain ⟨xs, ys, rfl⟩ := List.append_of_mem hmem
    have htotal := ht.extent_eq
    simp only [extent_append, extent] at htotal
    omega
  rw [if_neg hbig, hinv.scan_eq (Nat.le_of_not_lt hbig)]
  cases hfirst : firstFit (sizeofStructMem + roundedSize size) 0 ts with
  | none => exact .inl ⟨rfl, rfl⟩
  | some p =>
      obtain ⟨xs, t, ys, rfl, rfl, hfree, hroom⟩ := firstFit_eq_some hfirst
      obtain ⟨new, htiled, hco, hserves, hframe⟩ :=
        takeBlock_spec ht hinv.coalesced hfree hroom hmin hmod
      have hlfree := hinv.adjustLfree_eq hfree htiled
      have htotal := ht.extent_eq
      simp only [extent_append, extent] at htotal
      have halign := ht.aligned
      simp only [Nat.zero_add]
      refine .inr ⟨xs, t, ys, ⟨takeBlock h.ram (roundedSize size) (extent xs),
        lowestFree 0 (xs ++ new ++ ys)⟩, new, rfl, rfl, hfree, hroom, ?_,
        ⟨⟨htiled, hco, rfl⟩, hframe⟩, hserves⟩
      rw [if_pos ⟨by omega, by omega, halign⟩, hlfree, Option.map_some]

end McuFirmware.Lwip
