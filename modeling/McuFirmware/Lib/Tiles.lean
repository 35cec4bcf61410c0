/-
  McuFirmware.Lib.Tiles

  Blocks laid end to end, each with a header that links it both ways.

  `Linked hdr prev p ts` says that the headers found through `hdr` describe the
  tiles `ts` from offset `p` on.  An allocator edits such a chain in the middle;
  `Linked.replace` is the one rule for all its edits: what lies below is
  untouched, the new tiles are linked, and the tile behind them points back to
  the last of them.
-/

import Mathlib.Data.List.Basic
import Mathlib.Data.List.Chain

namespace McuFirmware.Lib

/-- One block: its length with the header, and whether it is taken. -/
structure Tile where
  len : Nat
  used : Bool
deriving DecidableEq

/-- What a header says. -/
structure Header where
  next : Nat
  prev : Nat
  used : Bool
deriving DecidableEq

/-- The bytes the tiles cover. -/
def extent : List Tile → Nat
  | [] => 0
  | t :: ts => t.len + extent ts

/-- The tiles with the offsets they start at. -/
def placed (p : Nat) : List Tile → List (Nat × Tile)
  | [] => []
  | t :: ts => (p, t) :: placed (p + t.len) ts

/-- The start of the last tile, `prev` if there is none. -/
def lastStart (prev p : Nat) : List Tile → Nat
  | [] => prev
  | t :: ts => lastStart p (p + t.len) ts

/-- The headers describe the tiles. -/
def Linked (hdr : Nat → Header) (prev p : Nat) : List Tile → Prop
  | [] => True
  | t :: ts => hdr p = ⟨p + t.len, prev, t.used⟩ ∧ Linked hdr p (p + t.len) ts

/-- The start of the lowest free tile, the end of the tiles if all are taken. -/
def lowestFree (p : Nat) : List Tile → Nat
  | [] => p
  | t :: ts => if t.used then lowestFree (p + t.len) ts else p

/-- No two free tiles are neighbours. -/
def Coalesced (ts : List Tile) : Prop := ts.IsChain fun a b => a.used ∨ b.used

variable {hdr hdr' : Nat → Header} {prev p q : Nat} {t : Tile} {xs ys ts old new : List Tile}

-- ============================================================================
-- Offsets
-- ============================================================================

@[simp] theorem extent_append : extent (xs ++ ys) = extent xs + extent ys := by
  induction xs with
  | nil => simp [extent]
  | cons t xs ih => simp only [List.cons_append, extent, ih, Nat.add_assoc]

theorem extent_mod {n : Nat} (h : ∀ t ∈ ts, t.len % n = 0) : extent ts % n = 0 := by
  induction ts with
  | nil => exact Nat.zero_mod n
  | cons t ts ih =>
      rw [extent, Nat.add_mod, h t List.mem_cons_self,
        ih fun u hu => h u (List.mem_cons_of_mem t hu), Nat.add_zero, Nat.zero_mod]

theorem placed_append : placed p (xs ++ ys) = placed p xs ++ placed (p + extent xs) ys := by
  induction xs generalizing p with
  | nil => simp [placed, extent]
  | cons t xs ih => simp only [List.cons_append, placed, extent, ih, Nat.add_assoc]

theorem lastStart_append :
    lastStart prev p (xs ++ ys) = lastStart (lastStart prev p xs) (p + extent xs) ys := by
  induction xs generalizing prev p with
  | nil => simp [lastStart, extent]
  | cons t xs ih => simp only [List.cons_append, lastStart, extent, ih, Nat.add_assoc]

theorem mem_of_mem_placed (h : (q, t) ∈ placed p ts) : t ∈ ts := by
  induction ts generalizing p with
  | nil => exact absurd h List.not_mem_nil
  | cons u ts ih =>
      rcases List.mem_cons.mp h with heq | hrest
      · rw [(Prod.mk.inj heq).2]
        exact List.mem_cons_self
      · exact List.mem_cons_of_mem u (ih hrest)

theorem le_of_mem_placed (h : (q, t) ∈ placed p ts) : p ≤ q ∧ q + t.len ≤ p + extent ts := by
  induction ts generalizing p with
  | nil => exact absurd h List.not_mem_nil
  | cons u ts ih =>
      rw [extent]
      rcases List.mem_cons.mp h with heq | hrest
      · obtain ⟨rfl, rfl⟩ := Prod.mk.inj heq
        omega
      · have hbounds := ih hrest
        omega

/-- A placed tile cuts the tiles in two. -/
theorem mem_placed_iff :
    (q, t) ∈ placed p ts ↔ ∃ xs ys, ts = xs ++ t :: ys ∧ q = p + extent xs := by
  constructor
  · intro h
    induction ts generalizing p with
    | nil => exact absurd h List.not_mem_nil
    | cons u ts ih =>
        rcases List.mem_cons.mp h with heq | hrest
        · obtain ⟨rfl, rfl⟩ := Prod.mk.inj heq
          exact ⟨[], ts, rfl, rfl⟩
        · obtain ⟨xs, ys, rfl, rfl⟩ := ih hrest
          exact ⟨u :: xs, ys, rfl, by rw [extent, Nat.add_assoc]⟩
  · rintro ⟨xs, ys, rfl, rfl⟩
    rw [placed_append]
    exact List.mem_append_right _ List.mem_cons_self

/-- Two placed tiles are one or lie apart. -/
theorem placed_apart {t' : Tile} {q' : Nat} (h : (q, t) ∈ placed p ts)
    (h' : (q', t') ∈ placed p ts) :
    (q = q' ∧ t = t') ∨ q + t.len ≤ q' ∨ q' + t'.len ≤ q := by
  obtain ⟨xs, ys, rfl, rfl⟩ := mem_placed_iff.mp h
  rw [placed_append] at h'
  rcases List.mem_append.mp h' with hlow | hhigh
  · exact .inr (.inr (le_of_mem_placed hlow).2)
  · rcases List.mem_cons.mp hhigh with heq | hrest
    · obtain ⟨rfl, rfl⟩ := Prod.mk.inj heq
      exact .inl ⟨rfl, rfl⟩
    · exact .inr (.inl (le_of_mem_placed hrest).1)

-- ============================================================================
-- Linked tiles
-- ============================================================================

theorem linked_append :
    Linked hdr prev p (xs ++ ys) ↔
      Linked hdr prev p xs ∧ Linked hdr (lastStart prev p xs) (p + extent xs) ys := by
  induction xs generalizing prev p with
  | nil => simp [Linked, lastStart, extent]
  | cons t xs ih =>
      simp only [List.cons_append, Linked, lastStart, extent, ih, and_assoc, Nat.add_assoc]

/-- A chain depends on the headers of its tiles only. -/
theorem Linked.congr (h : Linked hdr prev p ts) (heq : ∀ q t, (q, t) ∈ placed p ts → hdr' q = hdr q) :
    Linked hdr' prev p ts := by
  induction ts generalizing prev p with
  | nil => trivial
  | cons t ts ih =>
      refine ⟨(heq p t List.mem_cons_self).trans h.1, ih h.2 ?_⟩
      intro q u hu
      exact heq q u (List.mem_cons_of_mem _ hu)

theorem Linked.header (h : Linked hdr prev p (xs ++ t :: ys)) :
    hdr (p + extent xs) = ⟨p + extent xs + t.len, lastStart prev p xs, t.used⟩ :=
  (linked_append.mp h).2.1

/-- **The edit rule.** -/
theorem Linked.replace (h : Linked hdr prev p (xs ++ old ++ ys)) (hlen : extent new = extent old)
    (hbelow : ∀ q t, (q, t) ∈ placed p xs → hdr' q = hdr q)
    (hnew : Linked hdr' (lastStart prev p xs) (p + extent xs) new)
    (hseam : ys ≠ [] → hdr' (p + extent (xs ++ old)) =
      { hdr (p + extent (xs ++ old)) with prev := lastStart prev p (xs ++ new) })
    (habove : ∀ q, p + extent (xs ++ old) < q → ∀ t, (q, t) ∈ placed (p + extent (xs ++ old)) ys →
      hdr' q = hdr q)
    (hpos : ∀ t ∈ ys, 0 < t.len) : Linked hdr' prev p (xs ++ new ++ ys) := by
  obtain ⟨hxsold, hys⟩ := linked_append.mp h
  obtain ⟨hxs, -⟩ := linked_append.mp hxsold
  refine linked_append.mpr ⟨linked_append.mpr ⟨hxs.congr hbelow, hnew⟩, ?_⟩
  have hend : p + extent (xs ++ new) = p + extent (xs ++ old) := by
    rw [extent_append, extent_append, hlen]
  rw [hend]
  cases ys with
  | nil => trivial
  | cons y ys =>
      refine ⟨?_, hys.2.congr ?_⟩
      · rw [hseam (List.cons_ne_nil y ys), hys.1]
      · intro q t hq
        have hy := hpos y List.mem_cons_self
        have hge := (le_of_mem_placed hq).1
        exact habove q (by omega) t (List.mem_cons_of_mem _ hq)

-- ============================================================================
-- The lowest free tile
-- ============================================================================

theorem le_lowestFree (p : Nat) (ts : List Tile) : p ≤ lowestFree p ts := by
  induction ts generalizing p with
  | nil => exact Nat.le_refl p
  | cons t ts ih =>
      rw [lowestFree]
      split
      · exact Nat.le_of_add_right_le (ih _)
      · exact Nat.le_refl p

/-- Taken tiles in front are passed over. -/
theorem lowestFree_append_of_used (h : ∀ t ∈ xs, t.used = true) :
    lowestFree p (xs ++ ys) = lowestFree (p + extent xs) ys := by
  induction xs generalizing p with
  | nil => rfl
  | cons t xs ih =>
      rw [List.cons_append, lowestFree, if_pos (h t List.mem_cons_self),
        ih fun u hu => h u (List.mem_cons_of_mem t hu), extent, Nat.add_assoc]

/-- What follows a free tile does not matter. -/
theorem lowestFree_append_of_free (h : ∃ t ∈ xs, t.used = false) :
    lowestFree p (xs ++ ys) = lowestFree p xs := by
  induction xs generalizing p with
  | nil =>
      obtain ⟨t, ht, -⟩ := h
      exact absurd ht List.not_mem_nil
  | cons t xs ih =>
      rw [List.cons_append, lowestFree, lowestFree]
      split
      next hused =>
        obtain ⟨u, hu, hfree⟩ := h
        rcases List.mem_cons.mp hu with rfl | hmem
        · rw [hused] at hfree
          exact absurd hfree Bool.noConfusion
        · exact ih ⟨u, hmem, hfree⟩
      next => rfl

/-- The lowest free tile lies at or below any free tile. -/
theorem lowestFree_le (p : Nat) (xs ys : List Tile) (h : t.used = false) :
    lowestFree p (xs ++ t :: ys) ≤ p + extent xs := by
  induction xs generalizing p with
  | nil => simp [lowestFree, h]
  | cons u xs ih =>
      rw [List.cons_append, lowestFree, extent]
      split
      · have hle := ih (p + u.len)
        omega
      · exact Nat.le_add_right _ _

/-- Below the end of the tiles exactly when one of them is free. -/
theorem lowestFree_lt (hpos : ∀ t ∈ ts, 0 < t.len) (h : ∃ t ∈ ts, t.used = false) :
    lowestFree p ts < p + extent ts := by
  obtain ⟨t, ht, hfree⟩ := h
  obtain ⟨xs, ys, rfl⟩ := List.append_of_mem ht
  have hle := lowestFree_le p xs ys hfree
  have hlen := hpos t ht
  rw [extent_append, extent]
  omega

theorem all_used_or_free (ts : List Tile) :
    (∀ t ∈ ts, t.used = true) ∨ ∃ t ∈ ts, t.used = false := by
  by_cases h : ∃ t ∈ ts, t.used = false
  · exact .inr h
  · refine .inl fun t ht => ?_
    cases hused : t.used with
    | true => rfl
    | false => exact absurd ⟨t, ht, hused⟩ h

/-- The taken tiles below the lowest free one. -/
theorem lowestFree_split (p : Nat) (ts : List Tile) :
    ∃ xs ys, ts = xs ++ ys ∧ lowestFree p ts = p + extent xs ∧ (∀ t ∈ xs, t.used = true) ∧
      ∀ y ∈ ys.head?, y.used = false := by
  induction ts generalizing p with
  | nil => exact ⟨[], [], rfl, rfl, fun _ h => absurd h List.not_mem_nil, by simp⟩
  | cons t ts ih =>
      rw [lowestFree]
      split
      next hused =>
        obtain ⟨xs, ys, rfl, heq, hall, hhead⟩ := ih (p + t.len)
        refine ⟨t :: xs, ys, rfl, ?_, List.forall_mem_cons.mpr ⟨hused, hall⟩, hhead⟩
        rw [heq, extent, Nat.add_assoc]
      next hfree =>
        exact ⟨[], t :: ts, rfl, rfl, fun _ h => absurd h List.not_mem_nil, by simpa using hfree⟩

/-- Releasing a tile lowers the lowest free one to it. -/
theorem lowestFree_release {len : Nat} (hpos : ∀ t ∈ xs, 0 < t.len) (hlen : 0 < len) :
    lowestFree p (xs ++ ⟨len, false⟩ :: ys) =
      if p + extent xs < lowestFree p (xs ++ ⟨len, true⟩ :: ys) then p + extent xs
      else lowestFree p (xs ++ ⟨len, true⟩ :: ys) := by
  rcases all_used_or_free xs with hused | hfree
  · rw [lowestFree_append_of_used hused, lowestFree_append_of_used hused, if_pos]
    · rfl
    · have hle := le_lowestFree (p + extent xs + len) ys
      simp only [lowestFree, if_true]
      omega
  · have hlt := lowestFree_lt (p := p) hpos hfree
    rw [lowestFree_append_of_free hfree, lowestFree_append_of_free hfree, if_neg (by omega)]

-- ============================================================================
-- Free neighbours
-- ============================================================================

theorem coalesced_append_cons :
    Coalesced (xs ++ t :: ys) ↔ Coalesced xs ∧ Coalesced ys ∧
      (∀ x ∈ xs.getLast?, x.used ∨ t.used) ∧ ∀ y ∈ ys.head?, t.used ∨ y.used := by
  simp only [Coalesced, List.isChain_append, List.isChain_cons, List.head?_cons, Option.mem_some_iff,
    forall_eq']
  exact ⟨fun ⟨hxs, ⟨hy, hys⟩, hx⟩ => ⟨hxs, hys, hx, hy⟩,
    fun ⟨hxs, hys, hx, hy⟩ => ⟨hxs, ⟨hy, hys⟩, hx⟩⟩

-- ============================================================================
-- First fit
-- ============================================================================

/-- The start of the first free tile of at least `need` bytes. -/
def firstFit (need p : Nat) : List Tile → Option Nat
  | [] => none
  | t :: ts => if t.used = false ∧ need ≤ t.len then some p else firstFit need (p + t.len) ts

theorem firstFit_append_of_used {need : Nat} (h : ∀ t ∈ xs, t.used = true) :
    firstFit need p (xs ++ ys) = firstFit need (p + extent xs) ys := by
  induction xs generalizing p with
  | nil => rfl
  | cons t xs ih =>
      have hused := h t List.mem_cons_self
      rw [List.cons_append, firstFit, if_neg (by simp [hused]),
        ih fun u hu => h u (List.mem_cons_of_mem t hu), extent, Nat.add_assoc]

theorem firstFit_eq_none_iff {need : Nat} :
    firstFit need p ts = none ↔ ∀ t ∈ ts, t.used = false → t.len < need := by
  induction ts generalizing p with
  | nil => simp [firstFit]
  | cons t ts ih =>
      rw [firstFit, List.forall_mem_cons]
      split
      next hfit =>
        refine iff_of_false (by simp) ?_
        rintro ⟨ht, -⟩
        have hlt := ht hfit.1
        omega
      next hnot =>
        rw [ih, and_iff_right]
        intro hfree
        exact Nat.lt_of_not_le fun hle => hnot ⟨hfree, hle⟩

/-- The tile found. -/
theorem firstFit_eq_some {need : Nat} (h : firstFit need p ts = some q) :
    ∃ xs t ys, ts = xs ++ t :: ys ∧ q = p + extent xs ∧ t.used = false ∧ need ≤ t.len := by
  induction ts generalizing p with
  | nil => cases h
  | cons t ts ih =>
      rw [firstFit] at h
      split at h
      next hfit =>
        cases h
        exact ⟨[], t, ts, rfl, rfl, hfit.1, hfit.2⟩
      next =>
        obtain ⟨xs, u, ys, rfl, rfl, hfree, hle⟩ := ih h
        exact ⟨t :: xs, u, ys, rfl, by rw [extent, Nat.add_assoc], hfree, hle⟩

/-- No free tile below the one found is long enough. -/
theorem firstFit_le {need : Nat} (h : firstFit need p (xs ++ t :: ys) = some q)
    (hfree : t.used = false) (hneed : need ≤ t.len) : q ≤ p + extent xs := by
  induction xs generalizing p with
  | nil =>
      rw [List.nil_append, firstFit, if_pos ⟨hfree, hneed⟩] at h
      cases h
      exact Nat.le_add_right _ _
  | cons u xs ih =>
      rw [List.cons_append, firstFit] at h
      rw [extent]
      split at h
      · cases h
        exact Nat.le_add_right _ _
      · have hle := ih h
        omega

end McuFirmware.Lib
