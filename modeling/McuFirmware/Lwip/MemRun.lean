/-
  McuFirmware.Lwip.MemRun

  The lwIP heap under its users: histories of `mem_malloc`, `mem_calloc`,
  `mem_trim` and `mem_free`, mixed with the stores of the owners into their
  blocks.

  Seen from outside, the heap is a store of separate byte arrays.  `Users` keeps
  these arrays beside the heap; `Owns` ties each to a taken tile, one to one, and
  says that the bytes of the tile are those of the array.
-/

import Mathlib.Data.List.Nodup
import Mathlib.Order.Bounds.Basic
import McuFirmware.Lib.Run
import McuFirmware.Lwip.MemCalls

namespace McuFirmware.Lwip

open McuFirmware.Lib

/-- A block as its owner knows it: the pointer, the size asked for, and the bytes
    it should hold. -/
structure Held where
  ptr : Nat
  size : Nat
  content : Nat → UInt8

/-- The heap and the blocks handed out. -/
structure Users where
  heap : Heap
  held : List Held

/-- A step of the users: a call, or the store of a byte into a block. -/
inductive HeapOp where
  | malloc (size : Nat)
  | calloc (count size : Nat)
  | trim (ptr newsize : Nat)
  | free (ptr : Option Nat)
  | store (ptr i : Nat) (v : UInt8)

namespace Users

/-- The block at `ptr` is changed by `f`. -/
def adjust (held : List Held) (ptr : Nat) (f : Held → Held) : List Held :=
  held.map fun b => if b.ptr = ptr then f b else b

/-- One step; `none` where the firmware stops. -/
def step (u : Users) : HeapOp → Option Users
  | .malloc size =>
      (memMalloc u.heap size).map fun r =>
        ⟨r.2, r.1.elim u.held fun p => ⟨p, size, fun i => r.2.ram (p + i)⟩ :: u.held⟩
  | .calloc count size =>
      (memCalloc u.heap count size).map fun r =>
        ⟨r.2, r.1.elim u.held fun p => ⟨p, count * size, fun _ => 0⟩ :: u.held⟩
  | .trim ptr newsize =>
      (memTrim u.heap ptr newsize).map fun r =>
        ⟨r.2, r.1.elim u.held fun _ => adjust u.held ptr fun b => { b with size := newsize }⟩
  | .free ptr =>
      (memFree u.heap ptr).map fun h => ⟨h, u.held.filter fun b => some b.ptr ≠ ptr⟩
  | .store ptr i v =>
      some ⟨{ u.heap with ram := Function.update u.heap.ram (ptr + i) v },
        adjust u.held ptr fun b => { b with content := Function.update b.content i v }⟩

/-- What the users may do: sizes that round up within 16 bits, and no access but
    to a block that is handed out. -/
def May (u : Users) : HeapOp → Prop
  | .malloc size => size ≤ 65532
  | .calloc count size => count * size ≤ 65532
  | .trim ptr newsize => ∃ b ∈ u.held, b.ptr = ptr ∧ newsize ≤ b.size
  | .free ptr => ptr = none ∨ ∃ b ∈ u.held, some b.ptr = ptr
  | .store ptr i _ => ∃ b ∈ u.held, b.ptr = ptr ∧ i < b.size

instance (u : Users) (op : HeapOp) : Decidable (u.May op) :=
  match op with
  | .malloc size => inferInstanceAs (Decidable (size ≤ 65532))
  | .calloc count size => inferInstanceAs (Decidable (count * size ≤ 65532))
  | .trim ptr newsize => inferInstanceAs (Decidable (∃ b ∈ u.held, b.ptr = ptr ∧ newsize ≤ b.size))
  | .free ptr => inferInstanceAs (Decidable (ptr = none ∨ ∃ b ∈ u.held, some b.ptr = ptr))
  | .store ptr i _ => inferInstanceAs (Decidable (∃ b ∈ u.held, b.ptr = ptr ∧ i < b.size))

/-- A step of the firmware, unless it has stopped. -/
def stepAll (o : Option Users) (op : HeapOp) : Option Users := o.bind fun u => u.step op

/-- The users keep to what they may do. -/
def Permitted (o : Option Users) (op : HeapOp) : Prop := ∀ u ∈ o, u.May op

instance (o : Option Users) (op : HeapOp) : Decidable (Permitted o op) :=
  match o with
  | none => isTrue fun _ h => absurd h (Option.not_mem_none _)
  | some u => decidable_of_iff (u.May op) (by simp [Permitted])

/-- After `mem_init`, nothing handed out. -/
def start (ram : Memory) : Users := ⟨memInit ram, []⟩

/-- What the users rely on: blocks inside the heap, aligned, apart, and with the
    bytes their owners stored. -/
structure Sound (u : Users) : Prop where
  aligned : ∀ b ∈ u.held, b.ptr % 4 = 0
  inside : ∀ b ∈ u.held, b.ptr + b.size ≤ memSizeAligned
  apart : u.held.Pairwise fun a b => a.ptr + a.size ≤ b.ptr ∨ b.ptr + b.size ≤ a.ptr
  intact : ∀ b ∈ u.held, ∀ i < b.size, u.heap.ram (b.ptr + i) = b.content i

-- ============================================================================
-- Blocks and tiles
-- ============================================================================

/-- The block lies in a taken tile. -/
structure Lies (ts : List Tile) (b : Held) (q : Nat) (t : Tile) : Prop where
  ptr_eq : b.ptr = q + 8
  mem : (q, t) ∈ placed 0 ts
  used : t.used = true
  room : 8 + roundedSize b.size ≤ t.len
  size_le : b.size ≤ 65532

/-- The blocks handed out are the taken tiles. -/
structure Owns (u : Users) (ts : List Tile) : Prop where
  inv : u.heap.Inv ts
  lies : ∀ b ∈ u.held, ∃ q t, Lies ts b q t
  held : ∀ q t, (q, t) ∈ placed 0 ts → t.used = true → ∃ b ∈ u.held, b.ptr = q + 8
  nodup : (u.held.map Held.ptr).Nodup
  intact : ∀ b ∈ u.held, ∀ i < b.size, u.heap.ram (b.ptr + i) = b.content i

variable {u : Users} {ts xs ys old new : List Tile} {b : Held} {q : Nat} {t : Tile} {h' : Heap}

theorem Lies.bounds (h : Lies ts b q t) : b.ptr + b.size ≤ q + t.len := by
  have hroom := h.room
  have hptr := h.ptr_eq
  have hsize := (roundedSize_spec h.size_le).1
  omega

/-- A tile is known by its start. -/
theorem tile_unique {t' : Tile} (hfit : ∀ t ∈ ts, Tile.Fit t) (h : (q, t) ∈ placed 0 ts)
    (h' : (q, t') ∈ placed 0 ts) : t = t' := by
  have hlen := (hfit t (mem_of_mem_placed h)).1
  have hlen' := (hfit t' (mem_of_mem_placed h')).1
  rcases placed_apart h h' with ⟨-, heq⟩ | hle | hle
  · exact heq
  · omega
  · omega

theorem Owns.sound (h : Owns u ts) : Sound u := by
  refine ⟨?_, ?_, ?_, h.intact⟩
  · intro b hb
    obtain ⟨q, t, hlies⟩ := h.lies b hb
    obtain ⟨xs, ys, rfl, hq⟩ := mem_placed_iff.mp hlies.mem
    have halign := h.inv.tiled.aligned
    have hptr := hlies.ptr_eq
    omega
  · intro b hb
    obtain ⟨q, t, hlies⟩ := h.lies b hb
    have hbounds := hlies.bounds
    have hend := (le_of_mem_placed hlies.mem).2
    rw [h.inv.tiled.extent_eq] at hend
    omega
  · refine (List.pairwise_map.mp h.nodup).imp_of_mem ?_
    intro a b ha hb hne
    obtain ⟨q, t, hlies⟩ := h.lies a ha
    obtain ⟨q', t', hlies'⟩ := h.lies b hb
    have hbounds := hlies.bounds
    have hbounds' := hlies'.bounds
    have hptr := hlies.ptr_eq
    have hptr' := hlies'.ptr_eq
    rcases placed_apart hlies.mem hlies'.mem with ⟨heq, -⟩ | hle | hle
    · omega
    · omega
    · omega

theorem mem_placed_edit (hlen : extent new = extent old) :
    (q, t) ∈ placed 0 (xs ++ new ++ ys) ↔
      (q, t) ∈ placed 0 xs ∨ (q, t) ∈ placed (extent xs) new ∨
        (q, t) ∈ placed (extent (xs ++ old)) ys := by
  rw [placed_append, placed_append, List.mem_append, List.mem_append, Nat.zero_add, Nat.zero_add,
    extent_append, hlen, ← extent_append, or_assoc]

theorem extent_edit (hinv : u.heap.Inv (xs ++ old ++ ys)) (hed : Edited u.heap h' xs old new ys) :
    extent new = extent old := by
  have hbefore := hinv.tiled.extent_eq
  have hafter := hed.inv.tiled.extent_eq
  simp only [extent_append] at hbefore hafter
  omega

/-- A block outside an edit keeps its tile and its bytes. -/
theorem Lies.edit (hl : Lies (xs ++ old ++ ys) b q t) (hinv : u.heap.Inv (xs ++ old ++ ys))
    (hed : Edited u.heap h' xs old new ys)
    (hout : ∀ t', (q, t') ∈ placed (extent xs) old → t'.used = false) :
    Lies (xs ++ new ++ ys) b q t ∧ u.heap.ram.Agree h'.ram (q + 8) (q + t.len) := by
  have hlen := extent_edit hinv hed
  rcases (mem_placed_edit rfl).mp hl.mem with hlow | hmid | hhigh
  · have hend := (le_of_mem_placed hlow).2
    refine ⟨⟨hl.ptr_eq, (mem_placed_edit hlen).mpr (.inl hlow), hl.used, hl.room, hl.size_le⟩, ?_⟩
    intro x _ hx
    exact hed.frame x (.inl (by omega))
  · exact absurd (hl.used.symm.trans (hout t hmid)) Bool.noConfusion
  · have hstart := (le_of_mem_placed hhigh).1
    refine ⟨⟨hl.ptr_eq, (mem_placed_edit hlen).mpr (.inr (.inr hhigh)), hl.used, hl.room,
      hl.size_le⟩, ?_⟩
    intro x hx _
    exact hed.frame x (.inr (by omega))

/-- The bytes of a block are bytes of its tile. -/
theorem Lies.intact_of_agree {ram ram' : Memory} (hl : Lies ts b q t)
    (hagree : ram.Agree ram' (q + 8) (q + t.len))
    (hintact : ∀ i < b.size, ram (b.ptr + i) = b.content i) :
    ∀ i < b.size, ram' (b.ptr + i) = b.content i := by
  have hbounds := hl.bounds
  have hptr := hl.ptr_eq
  intro i hi
  rw [hagree _ (by omega) (by omega), hintact i hi]

/-- What the owner does to its bytes leaves the chain alone. -/
theorem Inv.payload {h : Heap} {ram' : Memory} (hinv : h.Inv ts) (hq : (q, t) ∈ placed 0 ts)
    (hsame : ∀ x, x < q + 8 ∨ q + t.len ≤ x → ram' x = h.ram x) : Heap.Inv ⟨ram', h.lfree⟩ ts := by
  obtain ⟨xs, ys, rfl, rfl⟩ := mem_placed_iff.mp hq
  rw [Nat.zero_add] at hsame
  have hlen := (hinv.tiled.fit t (by simp)).1
  have hextent : extent (xs ++ [t]) = extent xs + t.len := by simp [extent]
  have ht : Tiled h.ram (xs ++ [t] ++ ys) := by simpa using hinv.tiled
  have htiled : Tiled ram' (xs ++ [t] ++ ys) := by
    refine ht.edit (fun x hx => hsame x (by omega)) rfl ?_ ⟨?_, trivial⟩ ?_
    · intro u hu
      rw [List.mem_singleton.mp hu]
      exact hinv.tiled.fit t (by simp)
    · rw [header_congr fun x hge hlt => hsame x (by omega), hinv.tiled.header_eq]
    · intro hlt
      rw [header_congr fun x hge hlt => hsame x (by omega)]
      cases ys with
      | nil =>
          have htotal := ht.extent_eq
          rw [List.append_nil] at htotal
          omega
      | cons y ys => rw [ht.header_eq]
  refine ⟨by simpa using htiled, hinv.coalesced, hinv.lfree_eq⟩

-- ============================================================================
-- One step
-- ============================================================================

/-- The blocks but the one at `p` are outside an edit of its tile. -/
theorem Owns.others {p : Nat} (h : Owns u (xs ++ old ++ ys)) (hed : Edited u.heap h' xs old new ys)
    (hout : ∀ q t, (q, t) ∈ placed (extent xs) old → t.used = true → q + 8 = p) {a : Held}
    (ha : a ∈ u.held) (hne : a.ptr ≠ p) :
    (∃ q t, Lies (xs ++ new ++ ys) a q t) ∧ ∀ i < a.size, h'.ram (a.ptr + i) = a.content i := by
  obtain ⟨q, t, hlies⟩ := h.lies a ha
  have hptr := hlies.ptr_eq
  obtain ⟨hlies', hagree⟩ := hlies.edit h.inv hed (by
    intro t' ht'
    cases hused : t'.used with
    | false => rfl
    | true => exact absurd (hptr.trans (hout q t' ht' hused)) hne)
  exact ⟨⟨q, t, hlies'⟩, hlies.intact_of_agree hagree (h.intact a ha)⟩

/-- A taken tile outside an edit is owned as before. -/
theorem Owns.owner (h : Owns u (xs ++ old ++ ys))
    (hq : (q, t) ∈ placed 0 xs ∨ (q, t) ∈ placed (extent (xs ++ old)) ys) (hused : t.used = true) :
    ∃ b ∈ u.held, b.ptr = q + 8 ∧ (q < extent xs ∨ extent (xs ++ old) ≤ q) := by
  have hfit := h.inv.tiled.fit t (by
    rcases hq with hlow | hhigh
    · simp [mem_of_mem_placed hlow]
    · simp [mem_of_mem_placed hhigh])
  have hmem : (q, t) ∈ placed 0 (xs ++ old ++ ys) :=
    (mem_placed_edit rfl).mpr (hq.imp_right .inr)
  obtain ⟨b, hb, hptr⟩ := h.held q t hmem hused
  refine ⟨b, hb, hptr, ?_⟩
  rcases hq with hlow | hhigh
  · have hend := (le_of_mem_placed hlow).2
    have hlen := hfit.1
    exact .inl (by omega)
  · exact .inr (le_of_mem_placed hhigh).1

/-- A free tile gives a new block. -/
theorem Owns.add {size : Nat} {content : Nat → UInt8} (h : Owns u (xs ++ [t] ++ ys))
    (hfree : t.used = false) (hed : Edited u.heap h' xs [t] new ys)
    (hs : Serves (sizeofStructMem + roundedSize size) new) (hle : size ≤ 65532)
    (hcontent : ∀ i < size, h'.ram (extent xs + sizeofStructMem + i) = content i) :
    Owns ⟨h', ⟨extent xs + sizeofStructMem, size, content⟩ :: u.held⟩ (xs ++ new ++ ys) := by
  have hhdr : sizeofStructMem = 8 := rfl
  have hlen := extent_edit h.inv hed
  have hone : ∀ q t', (q, t') ∈ placed (extent xs) [t] → (q, t') = (extent xs, t) := by
    intro q t' hq
    exact List.mem_singleton.mp hq
  have hfresh : ∀ a ∈ u.held, a.ptr ≠ extent xs + sizeofStructMem := by
    intro a ha heq
    obtain ⟨q, t', hlies⟩ := h.lies a ha
    have hptr := hlies.ptr_eq
    obtain rfl : q = extent xs := by omega
    have hmem : (extent xs, t) ∈ placed 0 (xs ++ [t] ++ ys) :=
      (mem_placed_edit rfl).mpr (.inr (.inl List.mem_cons_self))
    have heq := tile_unique h.inv.tiled.fit hlies.mem hmem
    rw [← heq] at hfree
    exact absurd (hlies.used.symm.trans hfree) Bool.noConfusion
  have hothers {a : Held} (ha : a ∈ u.held) :=
    h.others hed (p := extent xs + sizeofStructMem) (fun q t' hq hused => by
      rw [(Prod.mk.inj (hone q t' hq)).2] at hused
      exact absurd (hused.symm.trans hfree) Bool.noConfusion) ha (hfresh a ha)
  refine ⟨hed.inv, ?_, ?_, ?_, ?_⟩
  · refine List.forall_mem_cons.mpr ⟨?_, fun a ha => (hothers ha).1⟩
    obtain ⟨len, rest, rfl, hroom, -⟩ := hs
    exact ⟨extent xs, ⟨len, true⟩, rfl,
      (mem_placed_edit hlen).mpr (.inr (.inl List.mem_cons_self)), rfl, hroom, hle⟩
  · intro q t' hq hused
    rcases (mem_placed_edit hlen).mp hq with hlow | hmid | hhigh
    · obtain ⟨b, hb, hptr, -⟩ := h.owner (.inl hlow) hused
      exact ⟨b, List.mem_cons_of_mem _ hb, hptr⟩
    · exact ⟨_, List.mem_cons_self, by rw [hs.first hmid hused, hhdr]⟩
    · obtain ⟨b, hb, hptr, -⟩ := h.owner (.inr hhigh) hused
      exact ⟨b, List.mem_cons_of_mem _ hb, hptr⟩
  · refine List.nodup_cons.mpr ⟨fun hmem => ?_, h.nodup⟩
    obtain ⟨a, ha, heq⟩ := List.mem_map.mp hmem
    exact hfresh a ha heq
  · exact List.forall_mem_cons.mpr ⟨hcontent, fun a ha => (hothers ha).2⟩

theorem mem_adjust {held : List Held} {ptr : Nat} {f : Held → Held} {c : Held} :
    c ∈ adjust held ptr f ↔ (∃ b ∈ held, b.ptr = ptr ∧ c = f b) ∨ (c ∈ held ∧ c.ptr ≠ ptr) := by
  rw [adjust, List.mem_map]
  constructor
  · rintro ⟨b, hb, rfl⟩
    split
    next heq => exact .inl ⟨b, hb, heq, rfl⟩
    next hne => exact .inr ⟨hb, hne⟩
  · rintro (⟨b, hb, heq, rfl⟩ | ⟨hc, hne⟩)
    · exact ⟨b, hb, if_pos heq⟩
    · exact ⟨c, hc, if_neg hne⟩

theorem map_ptr_adjust (held : List Held) (ptr : Nat) {f : Held → Held}
    (hf : ∀ b, (f b).ptr = b.ptr) : (adjust held ptr f).map Held.ptr = held.map Held.ptr := by
  rw [adjust, List.map_map, List.map_inj_left]
  intro b _
  rw [Function.comp_apply]
  split
  · exact hf b
  · rfl

/-- The block of a pointer, with its tile in the middle. -/
theorem Owns.cut (h : Owns u ts) (hb : b ∈ u.held) :
    ∃ xs len ys, ts = xs ++ ⟨len, true⟩ :: ys ∧ b.ptr = extent xs + sizeofStructMem ∧
      8 + roundedSize b.size ≤ len ∧ b.size ≤ 65532 := by
  obtain ⟨q, ⟨len, used⟩, hlies⟩ := h.lies b hb
  obtain rfl : used = true := hlies.used
  obtain ⟨xs, ys, rfl, rfl⟩ := mem_placed_iff.mp hlies.mem
  refine ⟨xs, len, ys, rfl, ?_, hlies.room, hlies.size_le⟩
  rw [hlies.ptr_eq, Nat.zero_add]
  rfl

/-- Pointers are unique. -/
theorem Owns.eq_of_ptr (h : Owns u ts) {a : Held} (ha : a ∈ u.held) (hb : b ∈ u.held)
    (heq : a.ptr = b.ptr) : a = b :=
  List.inj_on_of_nodup_map h.nodup ha hb heq

theorem roundedSize_mono {m n : Nat} (hle : m ≤ n) (hn : n ≤ 65532) :
    roundedSize m ≤ roundedSize n := by
  have hmin : minSizeAligned = 12 := rfl
  simp only [roundedSize, memAlignSize, hmin]
  split <;> split <;> omega

theorem Owns.trim {ptr newsize : Nat} (h : Owns u ts) (hb : b ∈ u.held) (hptr : b.ptr = ptr)
    (hsize : newsize ≤ b.size) : ∃ u' ts', u.step (.trim ptr newsize) = some u' ∧ Owns u' ts' := by
  have hhdr : sizeofStructMem = 8 := rfl
  obtain ⟨xs, len, ys, rfl, hbptr, hroom, hle⟩ := h.cut hb
  have hmono := roundedSize_mono hsize hle
  obtain ⟨h', hcall, fwd, ys', new, rfl, hfwd, hed, hserves, hagree⟩ :=
    memTrim_spec newsize h.inv (by omega) (by omega)
  rw [hptr] at hbptr
  rw [hbptr, step, hcall]
  refine ⟨_, xs ++ new ++ ys', rfl, ?_⟩
  have h₁ : Owns u (xs ++ (⟨len, true⟩ :: fwd) ++ ys') := by simpa using h
  have hlen := extent_edit h₁.inv hed
  have hptrs := map_ptr_adjust u.held (extent xs + sizeofStructMem)
    (f := fun b => { b with size := newsize }) fun _ => rfl
  have hnodup := h.nodup
  rw [← hptrs] at hnodup
  have hold : ∀ q t, (q, t) ∈ placed (extent xs) (⟨len, true⟩ :: fwd) → t.used = true →
      q + 8 = extent xs + sizeofStructMem := by
    intro q t hq hused
    rcases List.mem_cons.mp hq with heq | hmem
    · rw [(Prod.mk.inj heq).1, hhdr]
    · exact absurd (hused.symm.trans (hfwd t (mem_of_mem_placed hmem))) Bool.noConfusion
  refine ⟨hed.inv, ?_, ?_, ?_, ?_⟩
  · intro c hc
    rcases mem_adjust.mp hc with ⟨a, -, haptr, rfl⟩ | ⟨hc, hne⟩
    · obtain ⟨len', rest, rfl, hserve, -⟩ := hserves
      exact ⟨extent xs, ⟨len', true⟩, haptr,
        (mem_placed_edit hlen).mpr (.inr (.inl List.mem_cons_self)), rfl, hserve,
        Nat.le_trans hsize hle⟩
    · exact (h₁.others hed hold hc hne).1
  · intro q t hq hused
    have howner : ∃ a ∈ u.held, a.ptr = q + 8 := by
      rcases (mem_placed_edit hlen).mp hq with hlow | hmid | hhigh
      · obtain ⟨a, ha, haptr, -⟩ := h₁.owner (.inl hlow) hused
        exact ⟨a, ha, haptr⟩
      · exact ⟨b, hb, by rw [hptr, hbptr, hserves.first hmid hused, hhdr]⟩
      · obtain ⟨a, ha, haptr, -⟩ := h₁.owner (.inr hhigh) hused
        exact ⟨a, ha, haptr⟩
    obtain ⟨a, ha, haptr⟩ := howner
    have hmem := List.mem_map_of_mem (f := Held.ptr) ha
    rw [← hptrs] at hmem
    obtain ⟨c, hc, hcptr⟩ := List.mem_map.mp hmem
    exact ⟨c, hc, hcptr.trans haptr⟩
  · exact hnodup
  · intro c hc
    rcases mem_adjust.mp hc with ⟨a, ha, haptr, rfl⟩ | ⟨hc, hne⟩
    · obtain rfl : a = b := h.eq_of_ptr ha hb (by rw [haptr, hptr, hbptr])
      intro i hi
      have hkeep := hagree (a.ptr + i) (by omega) (by dsimp only at hi; omega)
      exact hkeep.trans (h.intact a ha i (Nat.lt_of_lt_of_le hi hsize))
    · exact (h₁.others hed hold hc hne).2

theorem Owns.free (h : Owns u ts) (hb : b ∈ u.held) :
    ∃ u' ts', u.step (.free (some b.ptr)) = some u' ∧ Owns u' ts' := by
  have hhdr : sizeofStructMem = 8 := rfl
  obtain ⟨xs, len, ys, rfl, hbptr, -, -⟩ := h.cut hb
  have hlen20 : 20 ≤ len := (h.inv.tiled.fit ⟨len, true⟩ (by simp)).1
  obtain ⟨h', xs', back, fwd, ys', rfl, rfl, hnear, hcall, hed⟩ := memFree_spec h.inv
  have h₁ : Owns u (xs' ++ (back ++ ⟨len, true⟩ :: fwd) ++ ys') := by simpa using h
  have hlen := extent_edit h₁.inv hed
  have hold : ∀ q t, (q, t) ∈ placed (extent xs') (back ++ ⟨len, true⟩ :: fwd) → t.used = true →
      q + 8 = b.ptr := by
    intro q t hq hused
    rw [placed_append] at hq
    have hfree : t ∈ back ++ fwd → q + 8 = b.ptr := fun hmem =>
      absurd (hused.symm.trans (hnear t hmem)) Bool.noConfusion
    rcases List.mem_append.mp hq with hback | hrest
    · exact hfree (List.mem_append_left _ (mem_of_mem_placed hback))
    · rcases List.mem_cons.mp hrest with heq | hfwd
      · rw [(Prod.mk.inj heq).1, hbptr, extent_append, hhdr]
      · exact hfree (List.mem_append_right _ (mem_of_mem_placed hfwd))
  -- the released block lies inside the edit
  have hstart : extent xs' ≤ extent (xs' ++ back) := by
    rw [extent_append]
    exact Nat.le_add_right _ _
  have hstop : extent (xs' ++ back) + len ≤ extent (xs' ++ (back ++ ⟨len, true⟩ :: fwd)) := by
    simp only [extent_append, extent]
    omega
  rw [hbptr] at hold
  rw [hbptr, step, hcall]
  refine ⟨_, xs' ++ [⟨extent back + (len + extent fwd), false⟩] ++ ys', rfl, hed.inv, ?_, ?_, ?_, ?_⟩
  · intro a ha
    obtain ⟨ha, hne⟩ := List.mem_filter.mp ha
    exact (h₁.others hed hold ha (by simpa using hne)).1
  · intro q t hq hused
    have howner : ∃ a ∈ u.held, a.ptr = q + 8 ∧
        (q < extent xs' ∨ extent (xs' ++ (back ++ ⟨len, true⟩ :: fwd)) ≤ q) := by
      rcases (mem_placed_edit hlen).mp hq with hlow | hmid | hhigh
      · exact h₁.owner (.inl hlow) hused
      · rw [(Prod.mk.inj (List.mem_singleton.mp hmid)).2] at hused
        exact absurd hused Bool.noConfusion
      · exact h₁.owner (.inr hhigh) hused
    obtain ⟨a, ha, haptr, hout⟩ := howner
    refine ⟨a, List.mem_filter.mpr ⟨ha, ?_⟩, haptr⟩
    have hne : a.ptr ≠ extent (xs' ++ back) + sizeofStructMem := by omega
    simpa using hne
  · exact h.nodup.sublist (List.filter_sublist.map _)
  · intro a ha
    obtain ⟨ha, hne⟩ := List.mem_filter.mp ha
    exact (h₁.others hed hold ha (by simpa using hne)).2

theorem Owns.store {ptr i : Nat} {v : UInt8} (h : Owns u ts) (hb : b ∈ u.held) (hptr : b.ptr = ptr)
    (hi : i < b.size) : ∃ u' ts', u.step (.store ptr i v) = some u' ∧ Owns u' ts' := by
  obtain ⟨q, t, hlies⟩ := h.lies b hb
  have hbptr := hlies.ptr_eq
  have hbounds := hlies.bounds
  subst hptr
  have hptrs := map_ptr_adjust u.held b.ptr
    (f := fun b => { b with content := Function.update b.content i v }) fun _ => rfl
  have hnodup := h.nodup
  rw [← hptrs] at hnodup
  refine ⟨_, ts, rfl, ?_, ?_, ?_, hnodup, ?_⟩
  · apply Inv.payload h.inv hlies.mem
    intro x hx
    have hne : x ≠ b.ptr + i := by omega
    exact Function.update_of_ne (β := fun _ => UInt8) hne v u.heap.ram
  · intro c hc
    rcases mem_adjust.mp hc with ⟨a, ha, -, rfl⟩ | ⟨hc, -⟩
    · obtain ⟨q', t', hlies'⟩ := h.lies a ha
      exact ⟨q', t', hlies'.ptr_eq, hlies'.mem, hlies'.used, hlies'.room, hlies'.size_le⟩
    · exact h.lies c hc
  · intro q' t' hq hused
    obtain ⟨a, ha, haptr⟩ := h.held q' t' hq hused
    have hmem := List.mem_map_of_mem (f := Held.ptr) ha
    rw [← hptrs] at hmem
    obtain ⟨c, hc, hcptr⟩ := List.mem_map.mp hmem
    exact ⟨c, hc, hcptr.trans haptr⟩
  · intro c hc j hj
    rcases mem_adjust.mp hc with ⟨a, ha, haptr, rfl⟩ | ⟨hc, hne⟩
    · obtain rfl : a = b := h.eq_of_ptr ha hb haptr
      dsimp only at hj ⊢
      by_cases hij : j = i
      · rw [hij, Function.update_self, Function.update_self]
      · rw [Function.update_of_ne (by omega), Function.update_of_ne hij]
        exact h.intact a ha j hj
    · -- another block has no byte in common with this one
      have hapart : b.ptr + i ≠ c.ptr + j := by
        obtain ⟨q', t', hlies'⟩ := h.lies c hc
        have hcptr := hlies'.ptr_eq
        have hcbounds := hlies'.bounds
        rcases placed_apart hlies.mem hlies'.mem with ⟨heq, -⟩ | hle | hle
        · omega
        · omega
        · omega
      exact (Function.update_of_ne (Ne.symm hapart) v _).trans (h.intact c hc j hj)

theorem Owns.malloc {size : Nat} (h : Owns u ts) (hle : size ≤ 65532) :
    ∃ u' ts', u.step (.malloc size) = some u' ∧ Owns u' ts' := by
  by_cases hzero : size = 0
  · refine ⟨u, ts, ?_, h⟩
    rw [step, memMalloc, if_pos hzero]
    rfl
  rcases memMalloc_spec h.inv (Nat.pos_of_ne_zero hzero) hle with
    ⟨-, hcall⟩ | ⟨xs, t, ys, h', new, rfl, -, hfree, -, hcall, hed, hs⟩
  · refine ⟨u, ts, ?_, h⟩
    rw [step, hcall]
    rfl
  · rw [step, hcall]
    have h₁ : Owns u (xs ++ [t] ++ ys) := by simpa using h
    exact ⟨_, _, rfl, h₁.add hfree hed hs hle fun _ _ => rfl⟩

theorem Owns.calloc {count size : Nat} (h : Owns u ts) (hle : count * size ≤ 65532) :
    ∃ u' ts', u.step (.calloc count size) = some u' ∧ Owns u' ts' := by
  have hhdr : sizeofStructMem = 8 := rfl
  have hmod : count * size % 2 ^ 16 = count * size := Nat.mod_eq_of_lt (by omega)
  rw [step, memCalloc, hmod]
  by_cases hzero : count * size = 0
  · refine ⟨u, ts, ?_, h⟩
    rw [memMalloc, if_pos hzero]
    rfl
  rcases memMalloc_spec h.inv (Nat.pos_of_ne_zero hzero) hle with
    ⟨-, hcall⟩ | ⟨xs, t, ys, h', new, rfl, -, hfree, -, hcall, hed, hs⟩
  · refine ⟨u, ts, ?_, h⟩
    rw [hcall]
    rfl
  · rw [hcall]
    have h₁ : Owns u (xs ++ [t] ++ ys) := by simpa using h
    have hlen := extent_edit h₁.inv hed
    obtain ⟨len, rest, hnew, hroom, -⟩ := id hs
    have hsize := (roundedSize_spec hle).1
    have hmem : (extent xs, ⟨len, true⟩) ∈ placed 0 (xs ++ new ++ ys) := by
      rw [hnew] at hlen ⊢
      exact (mem_placed_edit hlen).mpr (.inr (.inl List.mem_cons_self))
    have hin : len ≤ extent [t] := by
      rw [← hlen, hnew, extent]
      exact Nat.le_add_right _ _
    -- clearing the block changes nothing outside it
    have hclear : ∀ x, x < extent xs + 8 ∨ extent xs + len ≤ x →
        zeroFill h'.ram (extent xs + sizeofStructMem) (count * size) x = h'.ram x := by
      intro x hx
      rw [zeroFill, if_neg (by omega)]
    have hed' : Edited u.heap
        { h' with ram := zeroFill h'.ram (extent xs + sizeofStructMem) (count * size) } xs [t] new
        ys := by
      refine ⟨Inv.payload hed.inv hmem hclear, hed.frame.trans fun x hx => hclear x ?_⟩
      rw [extent_append] at hx
      omega
    refine ⟨_, _, rfl, h₁.add hfree hed' hs hle fun i hi => ?_⟩
    exact if_pos (by omega)

/-- A permitted step succeeds and keeps the blocks. -/
theorem Owns.step {op : HeapOp} (h : Owns u ts) (hmay : u.May op) :
    ∃ u' ts', u.step op = some u' ∧ Owns u' ts' := by
  cases op with
  | malloc size => exact h.malloc hmay
  | calloc count size => exact h.calloc hmay
  | trim ptr newsize =>
      obtain ⟨b, hb, hptr, hsize⟩ := hmay
      exact h.trim hb hptr hsize
  | free ptr =>
      rcases hmay with rfl | ⟨b, hb, rfl⟩
      · refine ⟨⟨u.heap, u.held⟩, ts, ?_, h⟩
        simp [Users.step, memFree]
      · exact h.free hb
  | store ptr i v =>
      obtain ⟨b, hb, hptr, hi⟩ := hmay
      exact h.store hb hptr hi

theorem owns_start (ram : Memory) : Owns (start ram) [⟨memSizeAligned, false⟩] := by
  refine ⟨memInit_inv ram, fun b hb => absurd hb List.not_mem_nil, ?_, List.nodup_nil,
    fun b hb => absurd hb List.not_mem_nil⟩
  intro q t hq hused
  rw [(Prod.mk.inj (List.mem_singleton.mp hq)).2] at hused
  exact absurd hused Bool.noConfusion

/-- Every permitted history succeeds. -/
theorem owns_run (ram : Memory) {ops : List HeapOp}
    (h : StepsMeet stepAll Permitted (some (start ram)) ops) :
    ∃ u ts, run stepAll (some (start ram)) ops = some u ∧ Owns u ts := by
  refine run_inv (I := fun o => ∃ u ts, o = some u ∧ Owns u ts) ?_ ⟨_, _, rfl, owns_start ram⟩ h
  rintro o op ⟨u, ts, rfl, howns⟩ hperm
  obtain ⟨u', ts', hstep, howns'⟩ := howns.step (hperm u rfl)
  exact ⟨u', ts', hstep, howns'⟩

theorem owns_of_run {ram : Memory} {ops : List HeapOp}
    (h : StepsMeet stepAll Permitted (some (start ram)) ops)
    (hrun : run stepAll (some (start ram)) ops = some u) : ∃ ts, Owns u ts := by
  obtain ⟨u', ts, hrun', howns⟩ := owns_run ram h
  cases hrun.symm.trans hrun'
  exact ⟨ts, howns⟩

-- ============================================================================
-- Results
-- ============================================================================

/-- **Separate byte arrays.**  Whatever the array held before `mem_init`, every
    permitted history of calls, for up to 65532 bytes each, and of stores runs
    through without a failed assertion, and then the blocks handed out are aligned,
    inside the heap, apart, and hold the bytes their owners stored in them. -/
theorem heap_keeps_blocks (ram : Memory) (ops : List HeapOp)
    (h : StepsMeet stepAll Permitted (some (start ram)) ops) :
    ∃ u, run stepAll (some (start ram)) ops = some u ∧ u.Sound := by
  obtain ⟨u, ts, hrun, howns⟩ := owns_run ram h
  exact ⟨u, hrun, howns.sound⟩

/-- A block is released between two others, and the space is used again. -/
theorem heap_keeps_blocks_reuse :
    ∃ u, run stepAll (some (start fun _ => 0xA5))
        [.malloc 100, .calloc 3 5, .malloc 9, .store 116 4 7, .free (some 8), .trim 116 5,
          .malloc 40] = some u ∧ u.Sound :=
  heap_keeps_blocks _ _ (by decide +kernel)

/-- `need` bytes from `p` on touch no block that is handed out. -/
def Gap (u : Users) (need p : Nat) : Prop :=
  p + need ≤ memSizeAligned ∧
    ∀ b ∈ u.held, p + need ≤ b.ptr - sizeofStructMem ∨
      (header u.heap.ram (b.ptr - sizeofStructMem)).next ≤ p

/-- The block of a tile ends where the tile ends. -/
theorem Owns.next_eq (h : Owns u ts) (hl : Lies ts b q t) :
    b.ptr - sizeofStructMem = q ∧
      (header u.heap.ram (b.ptr - sizeofStructMem)).next = q + t.len := by
  have hhdr : sizeofStructMem = 8 := rfl
  have hptr := hl.ptr_eq
  have hq : b.ptr - sizeofStructMem = q := by omega
  obtain ⟨xs, ys, rfl, rfl⟩ := mem_placed_iff.mp hl.mem
  rw [hq, Nat.zero_add, h.inv.tiled.header_eq]
  exact ⟨rfl, rfl⟩

/-- Every byte of the heap is in a tile. -/
theorem tile_at (ts : List Tile) {p x : Nat} (hlow : p ≤ x) (hx : x < p + extent ts) :
    ∃ xs t ys, ts = xs ++ t :: ys ∧ p + extent xs ≤ x ∧ x < p + extent xs + t.len := by
  induction ts generalizing p with
  | nil => exact absurd hx (by simp only [extent]; omega)
  | cons t ts ih =>
      rw [extent] at hx
      by_cases hin : x < p + t.len
      · exact ⟨[], t, ts, rfl, hlow, hin⟩
      · obtain ⟨xs, u, ys, rfl, hge, hlt⟩ := ih (p := p + t.len) (by omega) (by omega)
        refine ⟨t :: xs, u, ys, rfl, ?_, ?_⟩
        · rw [extent]
          omega
        · rw [extent]
          omega

/-- A taken tile and a gap have no byte in common. -/
theorem Owns.gap_avoids (h : Owns u ts) {need p : Nat} (hgap : Gap u need p)
    (hq : (q, t) ∈ placed 0 ts) (hused : t.used = true) : p + need ≤ q ∨ q + t.len ≤ p := by
  obtain ⟨b, hb, hptr⟩ := h.held q t hq hused
  obtain ⟨q', t', hlies⟩ := h.lies b hb
  obtain rfl : q' = q := by
    have hptr' := hlies.ptr_eq
    omega
  obtain rfl := tile_unique h.inv.tiled.fit hlies.mem hq
  obtain ⟨hstart, hnext⟩ := h.next_eq hlies
  have havoid := hgap.2 b hb
  rwa [hnext, hstart] at havoid

/-- No two free tiles are neighbours, so a gap lies within one free tile. -/
theorem Owns.gap_in_tile (h : Owns u ts) {need p : Nat} (hgap : Gap u need p) (hpos : 0 < need) :
    ∃ xs t ys, ts = xs ++ t :: ys ∧ t.used = false ∧ extent xs ≤ p ∧
      p + need ≤ extent xs + t.len := by
  have htotal := h.inv.tiled.extent_eq
  have hend := hgap.1
  obtain ⟨xs, t, ys, rfl, hge, hlt⟩ := tile_at ts (Nat.zero_le p) (by omega)
  rw [Nat.zero_add] at hge hlt
  have hfree : t.used = false := by
    cases hused : t.used with
    | false => rfl
    | true =>
        have havoid := h.gap_avoids hgap
          (mem_placed_iff.mpr ⟨xs, ys, rfl, (Nat.zero_add _).symm⟩) hused
        omega
  refine ⟨xs, t, ys, rfl, hfree, hge, Nat.le_of_not_lt fun hover => ?_⟩
  -- the gap reaches into the tile behind, which is taken
  cases ys with
  | nil =>
      simp only [extent_append, extent] at htotal
      omega
  | cons y ys =>
      obtain ⟨-, -, -, hhead⟩ := coalesced_append_cons.mp h.inv.coalesced
      have hused : y.used = true := by simpa [hfree] using hhead y rfl
      have hmem : (extent xs + t.len, y) ∈ placed 0 (xs ++ t :: y :: ys) := by
        refine mem_placed_iff.mpr ⟨xs ++ [t], ys, by simp, ?_⟩
        simp [extent]
      have hlen := (h.inv.tiled.fit y (by simp)).1
      have havoid := h.gap_avoids hgap hmem hused
      omega

/-- A free tile is a gap. -/
theorem Owns.gap_of_free (h : Owns u (xs ++ t :: ys)) (hfree : t.used = false) {need : Nat}
    (hneed : need ≤ t.len) : Gap u need (extent xs) := by
  have htotal := h.inv.tiled.extent_eq
  simp only [extent_append, extent] at htotal
  refine ⟨by omega, fun b hb => ?_⟩
  obtain ⟨q, t', hlies⟩ := h.lies b hb
  obtain ⟨hstart, hnext⟩ := h.next_eq hlies
  rw [hnext, hstart]
  have hmem : (extent xs, t) ∈ placed 0 (xs ++ t :: ys) :=
    mem_placed_iff.mpr ⟨xs, ys, rfl, (Nat.zero_add _).symm⟩
  rcases placed_apart hmem hlies.mem with ⟨-, rfl⟩ | hle | hle
  · exact absurd (hlies.used.symm.trans hfree) Bool.noConfusion
  · exact .inl (by omega)
  · exact .inr hle

theorem roundedSize_eq {size : Nat} (h : size ≤ 65532) :
    roundedSize size = max 12 ((size + 3) / 4 * 4) := by
  have hmin : minSizeAligned = 12 := rfl
  rw [roundedSize, memAlignSize, hmin]
  split <;> omega

/-- **First fit over the space that is really free.**  After every permitted
    history, `mem_malloc` takes the lowest place where the header and the rounded
    size touch no block handed out; it returns `NULL`, and changes nothing, only
    if there is no such place. -/
theorem malloc_takes_lowest_gap (ram : Memory) (ops : List HeapOp)
    (h : StepsMeet stepAll Permitted (some (start ram)) ops) (u : Users)
    (hrun : run stepAll (some (start ram)) ops = some u) (size : Nat) (hpos : 0 < size)
    (hle : size ≤ 65532) :
    (∃ p h', memMalloc u.heap size = some (some (p + 8), h') ∧
        IsLeast { p | Gap u (8 + max 12 ((size + 3) / 4 * 4)) p } p) ∨
      (memMalloc u.heap size = some (none, u.heap) ∧
        ∀ p, ¬ Gap u (8 + max 12 ((size + 3) / 4 * 4)) p) := by
  obtain ⟨ts, howns⟩ := owns_of_run h hrun
  rw [← roundedSize_eq hle]
  rcases memMalloc_spec howns.inv hpos hle with
    ⟨hnone, hcall⟩ | ⟨xs, t, ys, h', new, rfl, hfirst, hfree, hroom, hcall, -, -⟩
  · refine .inr ⟨hcall, fun p hgap => ?_⟩
    obtain ⟨xs, t, ys, rfl, hfree, hge, hend⟩ := howns.gap_in_tile hgap (by omega)
    have hshort := firstFit_eq_none_iff.mp hnone t (by simp) hfree
    have hhdr : sizeofStructMem = 8 := rfl
    omega
  · refine .inl ⟨extent xs, h', hcall, howns.gap_of_free hfree hroom, ?_⟩
    intro p hgap
    obtain ⟨xs', t', ys', heq, hfree', hge, hend⟩ := howns.gap_in_tile hgap (by omega)
    rw [heq] at hfirst
    have hhdr : sizeofStructMem = 8 := rfl
    have hlow := firstFit_le hfirst hfree' (by omega)
    omega

/-- 40 bytes do not fit into the 20 released at the start, so they go behind. -/
theorem malloc_takes_lowest_gap_behind :
    ∃ u, run stepAll (some (start fun _ => 0)) [.malloc 12, .malloc 30, .free (some 8)] = some u ∧
      ((∃ p h', memMalloc u.heap 40 = some (some (p + 8), h') ∧ IsLeast { p | Gap u 48 p } p) ∨
        (memMalloc u.heap 40 = some (none, u.heap) ∧ ∀ p, ¬ Gap u 48 p)) := by
  have hperm : StepsMeet stepAll Permitted (some (start fun _ => 0))
      [.malloc 12, .malloc 30, .free (some 8)] := by decide +kernel
  obtain ⟨u, _, hrun, -⟩ := owns_run _ hperm
  exact ⟨u, hrun, malloc_takes_lowest_gap _ _ hperm u hrun 40 (by decide) (by decide)⟩

/-- Free tiles without free neighbours are one tile. -/
theorem coalesced_all_free (hco : Coalesced ts) (hfree : ∀ t ∈ ts, t.used = false) :
    ts.length ≤ 1 := by
  cases ts with
  | nil => exact Nat.zero_le 1
  | cons t ts =>
      cases ts with
      | nil => exact Nat.le_refl 1
      | cons t' ts =>
          have hrel := (List.isChain_cons.mp hco).1 t' rfl
          simp [hfree t, hfree t'] at hrel

/-- **Nothing is lost.**  Once every block of a permitted history is released, the
    heap is again the single free block `mem_init` made, and serves a request of
    any size up to `MEM_SIZE` less one header. -/
theorem freed_heap_is_whole (ram : Memory) (ops : List HeapOp)
    (h : StepsMeet stepAll Permitted (some (start ram)) ops) (u : Users)
    (hrun : run stepAll (some (start ram)) ops = some u) (hnone : u.held = []) :
    u.heap.lfree = 0 ∧ header u.heap.ram 0 = ⟨memSizeAligned, 0, false⟩ ∧
      ∀ size, 0 < size → size + 8 ≤ memSizeAligned →
        ∃ h', memMalloc u.heap size = some (some 8, h') := by
  obtain ⟨ts, howns⟩ := owns_of_run h hrun
  have hfree : ∀ t ∈ ts, t.used = false := by
    intro t ht
    obtain ⟨xs, ys, rfl⟩ := List.append_of_mem ht
    cases hused : t.used with
    | false => rfl
    | true =>
        obtain ⟨b, hb, -⟩ := howns.held _ t (mem_placed_iff.mpr ⟨xs, ys, rfl, rfl⟩) hused
        rw [hnone] at hb
        exact absurd hb List.not_mem_nil
  have hone := coalesced_all_free howns.inv.coalesced hfree
  have htotal := howns.inv.tiled.extent_eq
  have hsize : memSizeAligned = 20480 := rfl
  obtain rfl : ts = [⟨memSizeAligned, false⟩] := by
    cases ts with
    | nil => exact absurd htotal (by decide)
    | cons t ts =>
        obtain rfl : ts = [] := by simpa using hone
        obtain ⟨len, used⟩ := t
        obtain rfl : used = false := hfree ⟨len, used⟩ List.mem_cons_self
        rw [extent, extent, Nat.add_zero] at htotal
        rw [← htotal]
  refine ⟨howns.inv.lfree_eq, howns.inv.tiled.linked.1, fun size hpos hle => ?_⟩
  have hhdr : sizeofStructMem = 8 := rfl
  have hround := roundedSize_eq (show size ≤ 65532 by omega)
  have hfit : firstFit (sizeofStructMem + roundedSize size) 0 [⟨memSizeAligned, false⟩] = some 0 :=
    if_pos ⟨rfl, by dsimp only; omega⟩
  rcases memMalloc_spec howns.inv hpos (by omega) with
    ⟨hno, -⟩ | ⟨xs, t, ys, h', new, -, hfirst, -, -, hcall, -, -⟩
  · rw [hfit] at hno
    cases hno
  · rw [hfit] at hfirst
    obtain hzero : 0 = extent xs := Option.some.inj hfirst
    rw [← hzero] at hcall
    exact ⟨h', hcall⟩

/-- Blocks released out of order. -/
theorem freed_heap_is_whole_sample :
    ∃ u, run stepAll (some (start fun _ => 0))
        [.malloc 12, .malloc 30, .calloc 2 8, .trim 28 3, .free (some 28), .free (some 68),
          .free (some 8)] = some u ∧
      u.heap.lfree = 0 ∧ header u.heap.ram 0 = ⟨memSizeAligned, 0, false⟩ := by
  have hperm : StepsMeet stepAll Permitted (some (start fun _ => 0))
      [.malloc 12, .malloc 30, .calloc 2 8, .trim 28 3, .free (some 28), .free (some 68),
        .free (some 8)] := by decide +kernel
  have hempty : (run stepAll (some (start fun _ => 0))
      [.malloc 12, .malloc 30, .calloc 2 8, .trim 28 3, .free (some 28), .free (some 68),
        .free (some 8)]).map (fun u => u.held.length) = some 0 := by decide +kernel
  obtain ⟨u, hrun, hlen⟩ := Option.map_eq_some_iff.mp hempty
  obtain ⟨hlfree, hheader, -⟩ :=
    freed_heap_is_whole _ _ hperm u hrun (List.length_eq_zero_iff.mp hlen)
  exact ⟨u, hrun, hlfree, hheader⟩

end Users

end McuFirmware.Lwip
