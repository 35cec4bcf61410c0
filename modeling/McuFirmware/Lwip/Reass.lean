/-
  McuFirmware.Lwip.Reass

  What `ip4_reass` makes of fragments, over whole histories of arrivals and
  ticks of `ip_reass_tmr`: where a packet that it returns comes from, that the
  fragments of `ip4_frag` in any order and any mixture give back the packets they
  were cut from, and what a fragment that comes twice does.
-/

import McuFirmware.Lib.Run
import McuFirmware.Lwip.Frag

namespace McuFirmware.Lwip

open McuFirmware.Lib

namespace Reass

-- ============================================================================
-- The list of pieces
-- ============================================================================

section Pieces

variable {new q : Piece} {prev : Option Piece} {valid v : Bool} {qs ps xs ys : List Piece}

theorem noHoles_append (xs : List Piece) (new : Piece) (ys : List Piece) :
    noHoles (xs ++ new :: ys) = (noHoles (xs ++ [new]) && noHoles (new :: ys)) := by
  induction xs with
  | nil => rfl
  | cons x xs ih =>
      cases xs with
      | nil =>
          simp only [List.cons_append, List.nil_append, noHoles, Bool.and_true]
      | cons x' xs =>
          simp only [List.cons_append, noHoles] at ih ⊢
          rw [ih, Bool.and_assoc]

/-- What the loop does when it keeps the fragment: it goes in front of the first
    piece that starts behind it, and `valid` tells holes in front of it. -/
theorem chainFrag_spec (h : chainFrag new prev valid qs = some (ps, v)) :
    ∃ xs ys, qs = xs ++ ys ∧ ps = xs ++ new :: ys ∧ (∀ x ∈ xs, x.start < new.start) ∧
      (∀ y ∈ ys.head?, new.start < y.start) ∧
      v = (valid && noHoles (prev.toList ++ xs ++ [new])) := by
  induction qs generalizing prev valid ps v with
  | nil =>
      rw [chainFrag, Option.some.injEq, Prod.mk.injEq] at h
      obtain ⟨rfl, rfl⟩ := h
      refine ⟨[], [], rfl, rfl, by simp, by simp, ?_⟩
      cases prev <;> simp [noHoles]
  | cons q qs ih =>
      rw [chainFrag] at h
      split at h
      next hlt =>
        split at h
        · exact absurd h (by simp)
        rw [Option.some.injEq, Prod.mk.injEq] at h
        obtain ⟨rfl, rfl⟩ := h
        refine ⟨[], q :: qs, rfl, rfl, by simp, by simpa using hlt, ?_⟩
        cases prev <;> simp [noHoles]
      next hge =>
        split at h
        · exact absurd h (by simp)
        split at h
        · exact absurd h (by simp)
        obtain ⟨⟨ps', v'⟩, hrec, heq⟩ := Option.map_eq_some_iff.mp h
        rw [Prod.mk.injEq] at heq
        obtain ⟨rfl, rfl⟩ := heq
        obtain ⟨xs, ys, rfl, rfl, hxs, hys, rfl⟩ := ih hrec
        refine ⟨q :: xs, ys, rfl, rfl, List.forall_mem_cons.mpr ⟨by omega, hxs⟩, hys, ?_⟩
        cases prev with
        | none => simp
        | some p => simp [noHoles, Bool.and_assoc]

/-- The fragment fits between two pieces. -/
theorem chainFrag_append (prev : Option Piece) (valid : Bool)
    (hxs : ∀ x ∈ xs, x.start < new.start ∧ x.stop ≤ new.start)
    (hys : ∀ y ∈ ys.head?, new.start < y.start ∧ new.stop ≤ y.start)
    (hprev : ∀ p ∈ prev, p.stop ≤ new.start) :
    chainFrag new prev valid (xs ++ ys) =
      some (xs ++ new :: ys, valid && noHoles (prev.toList ++ xs ++ [new])) := by
  induction xs generalizing prev valid with
  | nil =>
      have hvalid : (valid && prev.all fun p => p.stop == new.start) =
          (valid && noHoles (prev.toList ++ [] ++ [new])) := by
        cases prev <;> simp [noHoles]
      cases ys with
      | nil =>
          rw [List.nil_append, chainFrag, hvalid]
          rfl
      | cons y ys =>
          obtain ⟨hstart, hstop⟩ := hys y rfl
          have hover : ((prev.any fun p => decide (new.start < p.stop)) ||
              decide (y.start < new.stop)) = false := by
            rw [Bool.or_eq_false_iff]
            refine ⟨?_, decide_eq_false (by omega)⟩
            cases prev with
            | none => rfl
            | some p => exact decide_eq_false (by have := hprev p rfl; omega)
          rw [List.nil_append, chainFrag, if_pos hstart, hover, hvalid]
          rfl
  | cons x xs ih =>
      obtain ⟨⟨hstart, hstop⟩, hxs⟩ := List.forall_mem_cons.mp hxs
      rw [List.cons_append, chainFrag, if_neg (by omega), if_neg (by omega), if_neg (by omega),
        ih _ _ hxs (fun p hp => by rw [← Option.mem_some_iff.mp hp]; exact hstop), Option.map_some]
      cases prev with
      | none => simp
      | some p => simp [noHoles, Bool.and_assoc]

/-- The fragment is dropped where a piece lies at its start. -/
theorem chainFrag_eq_none (hsorted : qs.Pairwise fun a b => a.start < b.start) (hq : q ∈ qs)
    (hat : q.start = new.start) : chainFrag new prev valid qs = none := by
  induction qs generalizing prev valid with
  | nil => exact absurd hq List.not_mem_nil
  | cons x qs ih =>
      obtain ⟨hx, hsorted⟩ := List.pairwise_cons.mp hsorted
      rw [chainFrag]
      rcases List.mem_cons.mp hq with rfl | hin
      · rw [if_neg (by omega), if_pos hat.symm]
      · have hlt := hx q hin
        rw [if_neg (by omega), if_neg (by omega), ih hsorted hin]
        split <;> rfl

/-- The start of the list from the new piece on. -/
theorem dropWhile_start (hxs : ∀ x ∈ xs, x.start < new.start) :
    (xs ++ new :: ys).dropWhile (fun p => p.start != new.start) = new :: ys := by
  rw [List.dropWhile_append_of_pos]
  · simp
  · intro x hx
    have hne : x.start ≠ new.start := Nat.ne_of_lt (hxs x hx)
    simpa using hne

end Pieces

-- ============================================================================
-- One call
-- ============================================================================

section Calls

variable {s s' : Reass} {r : Reassdata} {new : Piece} {ps : List Piece} {isLast finished : Bool}
  {hdr packet : List UInt8} {out : Option (List UInt8)} {i n clen fuel freed needed : Nat}
  {key : Nat × Nat × Nat}

/-- A fragment that is kept, and when the datagram is complete. -/
theorem chainAndValidate_spec (h : chainAndValidate r new isLast = some (ps, finished)) :
    ∃ xs ys, r.pieces = xs ++ ys ∧ ps = xs ++ new :: ys ∧ (∀ x ∈ xs, x.start < new.start) ∧
      (∀ y ∈ ys.head?, new.start < y.start) ∧
      finished = ((isLast || r.lastfrag) && (ps.head?.all fun p => p.start == 0) && noHoles ps) := by
  obtain ⟨⟨ps', valid⟩, hchain, heq⟩ := Option.map_eq_some_iff.mp h
  rw [Prod.mk.injEq] at heq
  obtain ⟨rfl, rfl⟩ := heq
  obtain ⟨xs, ys, hpieces, rfl, hxs, hys, rfl⟩ := chainFrag_spec hchain
  refine ⟨xs, ys, hpieces, rfl, hxs, hys, ?_⟩
  rw [dropWhile_start hxs, noHoles_append xs new ys]
  simp only [Option.toList_none, List.nil_append, Bool.true_and]
  cases isLast || r.lastfrag <;> cases noHoles (xs ++ [new]) <;> simp

theorem freeCompleteDatagram_sublist (h : freeCompleteDatagram s i = some (n, s')) :
    s'.datagrams.Sublist s.datagrams := by
  rw [freeCompleteDatagram] at h
  split at h
  · exact absurd h (by simp)
  split at h
  · exact absurd h (by simp)
  split at h
  · exact absurd h (by simp)
  rw [Option.some.injEq, Prod.mk.injEq] at h
  obtain ⟨-, rfl⟩ := h
  exact List.eraseIdx_sublist _ _

theorem removeOldest_sublist (h : removeOldest key needed fuel freed s = some (n, s')) :
    s'.datagrams.Sublist s.datagrams := by
  induction fuel generalizing freed s with
  | zero =>
      rw [removeOldest, Option.some.injEq, Prod.mk.injEq] at h
      obtain ⟨-, rfl⟩ := h
      exact List.Sublist.refl _
  | succ fuel ih =>
      rw [removeOldest] at h
      split at h
      · rw [Option.some.injEq, Prod.mk.injEq] at h
        obtain ⟨-, rfl⟩ := h
        exact List.Sublist.refl _
      · obtain ⟨⟨current, s₁⟩, hfree, hrest⟩ := Option.bind_eq_some_iff.mp h
        have hsub := freeCompleteDatagram_sublist hfree
        dsimp only at hrest
        split at hrest
        · exact (ih hrest).trans hsub
        · rw [Option.some.injEq, Prod.mk.injEq] at hrest
          obtain ⟨-, rfl⟩ := hrest
          exact hsub

/-- Room for a datagram: the new one is in front, and others may be gone. -/
theorem enqueueNewDatagram_spec {room : Bool} (h : enqueueNewDatagram s hdr clen = some (room, s')) :
    ∃ ds : List Reassdata, ds.Sublist s.datagrams ∧
      s'.datagrams = if room then ⟨hdr, [], false, 0, ipReassMaxage⟩ :: ds else ds := by
  rw [enqueueNewDatagram] at h
  split at h
  · rw [Option.some.injEq, Prod.mk.injEq] at h
    obtain ⟨rfl, rfl⟩ := h
    exact ⟨s.datagrams, List.Sublist.refl _, rfl⟩
  · obtain ⟨⟨freed, s₁⟩, hfree, heq⟩ := Option.map_eq_some_iff.mp h
    have hsub := removeOldest_sublist hfree
    dsimp only at heq
    split at heq
    all_goals
      rw [Prod.mk.injEq] at heq
      obtain ⟨rfl, rfl⟩ := heq
      exact ⟨s₁.datagrams, hsub, rfl⟩

/-- The search finds the first datagram with the key of the fragment. -/
theorem findDatagram_eq_some (h : findDatagram s hdr = some i) :
    ∃ ds₁ r ds₂, s.datagrams = ds₁ ++ r :: ds₂ ∧ i = ds₁.length ∧
      fragKey r.iphdr = fragKey hdr := by
  obtain ⟨hi, hkey, -⟩ := List.findIdx?_eq_some_iff_getElem.mp h
  refine ⟨s.datagrams.take i, s.datagrams[i], s.datagrams.drop (i + 1), ?_, ?_, by simpa using hkey⟩
  · rw [List.getElem_cons_drop, List.take_append_drop]
  · rw [List.length_take]
    omega

theorem findDatagram_eq_none (h : findDatagram s hdr = none) :
    ∀ r ∈ s.datagrams, fragKey r.iphdr ≠ fragKey hdr := by
  have hall := List.findIdx?_eq_none_iff.mp h
  intro r hr
  simpa using hall r hr

/-- The piece that a fragment becomes. -/
def pieceOf (clen : Nat) (packet : List UInt8) : Piece :=
  let hdr := packet.take 20
  ⟨offsetField hdr * 8, (offsetField hdr * 8 + fragLen hdr) % 2 ^ 16, packet.drop 20, clen⟩

/-- The datagram with the header of its first fragment, if that is the fragment. -/
def withHeader (r : Reassdata) (hdr : List UInt8) : Reassdata :=
  if offsetField hdr = 0 ∧ offsetField r.iphdr ≠ 0 then { r with iphdr := hdr } else r

/-- The datagram with a fragment added. -/
def withPieces (r : Reassdata) (packet : List UInt8) (ps : List Piece) : Reassdata :=
  let isLast := !moreFragments (packet.take 20)
  { r with
    pieces := ps
    lastfrag := r.lastfrag || isLast
    datagramLen :=
      if isLast then (offsetField (packet.take 20) * 8 + fragLen (packet.take 20)) % 2 ^ 16
      else r.datagramLen }

/-- `ip4_reass` with a fragment of the datagram between `ds₁` and `ds₂`. -/
theorem addFragment_eq (ds₁ ds₂ : List Reassdata) (r : Reassdata) (count clen : Nat)
    (packet : List UInt8) :
    addFragment ⟨ds₁ ++ r :: ds₂, count⟩ ds₁.length clen packet =
      if moreFragments (packet.take 20) = false ∧
          ((pieceOf clen packet).stop < (pieceOf clen packet).start ∨
            0xFFFF - 20 < (pieceOf clen packet).stop) then
        some (none, ⟨ds₁ ++ withHeader r (packet.take 20) :: ds₂, count⟩)
      else
        (chainAndValidate (withHeader r (packet.take 20)) (pieceOf clen packet)
          (!moreFragments (packet.take 20))).bind fun (ps, finished) =>
            if finished then
              if ps.length = 1 then none
              else
                some (some (reassembled (withPieces (withHeader r (packet.take 20)) packet ps)),
                  ⟨ds₁ ++ ds₂, ((count + clen) % 2 ^ 16 + (2 ^ 16 -
                    (withPieces (withHeader r (packet.take 20)) packet ps).pbufs)) % 2 ^ 16⟩)
            else
              some (none, ⟨ds₁ ++ withPieces (withHeader r (packet.take 20)) packet ps :: ds₂,
                (count + clen) % 2 ^ 16⟩) := by
  have hget : (ds₁ ++ r :: ds₂)[ds₁.length]? = some r := by
    rw [List.getElem?_append_right (Nat.le_refl _), Nat.sub_self, List.getElem?_cons_zero]
  have hset (r' : Reassdata) : (ds₁ ++ r :: ds₂).set ds₁.length r' = ds₁ ++ r' :: ds₂ := by
    rw [List.set_append_right _ _ (Nat.le_refl _), Nat.sub_self, List.set_cons_zero]
  have herase : (ds₁ ++ r :: ds₂).eraseIdx ds₁.length = ds₁ ++ ds₂ := by
    rw [List.eraseIdx_append_of_length_le (Nat.le_refl _), Nat.sub_self, List.eraseIdx_cons_zero]
  simp only [addFragment, hget, hset, herase, Bool.not_eq_true', pieceOf, withHeader, withPieces]

/-- What becomes of the datagram and the list. -/
theorem addFragment_cases {ds₁ ds₂ : List Reassdata} {count : Nat}
    (h : addFragment ⟨ds₁ ++ r :: ds₂, count⟩ ds₁.length clen packet = some (out, s')) :
    (out = none ∧ s'.datagrams = ds₁ ++ withHeader r (packet.take 20) :: ds₂) ∨
    ∃ ps finished,
      chainAndValidate (withHeader r (packet.take 20)) (pieceOf clen packet)
          (!moreFragments (packet.take 20)) = some (ps, finished) ∧
      ((out = none ∧
          s'.datagrams = ds₁ ++ withPieces (withHeader r (packet.take 20)) packet ps :: ds₂) ∨
        finished = true ∧
          out = some (reassembled (withPieces (withHeader r (packet.take 20)) packet ps)) ∧
          s'.datagrams = ds₁ ++ ds₂) := by
  rw [addFragment_eq] at h
  split at h
  · rw [Option.some.injEq, Prod.mk.injEq] at h
    obtain ⟨rfl, rfl⟩ := h
    exact .inl ⟨rfl, rfl⟩
  obtain ⟨⟨ps, finished⟩, hchain, hrest⟩ := Option.bind_eq_some_iff.mp h
  refine .inr ⟨ps, finished, hchain, ?_⟩
  dsimp only at hrest
  split at hrest
  next hfin =>
    split at hrest
    · exact absurd hrest (by simp)
    rw [Option.some.injEq, Prod.mk.injEq] at hrest
    obtain ⟨rfl, rfl⟩ := hrest
    exact .inr ⟨hfin, rfl, rfl⟩
  next =>
    rw [Option.some.injEq, Prod.mk.injEq] at hrest
    obtain ⟨rfl, rfl⟩ := hrest
    exact .inl ⟨rfl, rfl⟩

end Calls

end Reass

-- ============================================================================
-- Histories
-- ============================================================================

/-- What happens to the reassembly: `ip4_input` hands it a fragment in `clen`
    pbufs, or its timer ticks. -/
inductive ReassEvent where
  | fragment (clen : Nat) (packet : List UInt8)
  | tmr

/-- The reassembly, with the packets that have arrived and those returned. -/
structure Session where
  reass : Reass
  arrived : List (List UInt8)
  out : List (List UInt8)
deriving DecidableEq

namespace Session

def step (w : Session) : ReassEvent → Option Session
  | .fragment clen packet =>
      (w.reass.ip4Reass clen packet).map fun (out, s) =>
        ⟨s, w.arrived ++ [packet], w.out ++ out.toList⟩
  | .tmr => w.reass.ipReassTmr.map fun s => { w with reass := s }

def stepAll (o : Option Session) (e : ReassEvent) : Option Session := o.bind fun w => w.step e

def start : Session := ⟨⟨[], 0⟩, [], []⟩

/-- `ip4_input` hands over packets with a whole header only. -/
def Received (_ : Option Session) : ReassEvent → Prop
  | .fragment _ packet => 20 ≤ packet.length
  | .tmr => True

instance (o : Option Session) (e : ReassEvent) : Decidable (Received o e) :=
  match e with
  | .fragment _ packet => inferInstanceAs (Decidable (20 ≤ packet.length))
  | .tmr => isTrue trivial

end Session

-- ============================================================================
-- Where a packet comes from
-- ============================================================================

/-- The fragments follow one another from the offset `pos` on. -/
def Contiguous (pos : Nat) : List (List UInt8) → Prop
  | [] => True
  | f :: fs =>
      offsetField (f.take 20) * 8 = pos ∧ Contiguous ((pos + fragLen (f.take 20)) % 2 ^ 16) fs

namespace Reass

section Provenance

variable {s s' : Reass} {r : Reassdata} {ps : List Piece} {packet f : List UInt8}
  {A : List (List UInt8)} {out : Option (List UInt8)} {clen : Nat} {finished : Bool}

/-- The datagram consists of fragments that have arrived. -/
structure Made (A : List (List UInt8)) (r : Reassdata) : Prop where
  header : r.iphdr.length = 20
  sorted : r.pieces.Pairwise fun p q => p.start < q.start
  pieces : ∃ fs : List (Nat × List UInt8), r.pieces = fs.map (fun f => pieceOf f.1 f.2) ∧
    (∀ f ∈ fs, f.2 ∈ A ∧ fragKey (f.2.take 20) = fragKey r.iphdr) ∧
    (r.lastfrag = true → ∃ f ∈ fs, moreFragments (f.2.take 20) = false)

theorem Made.mono {B : List (List UInt8)} (h : Made A r) (hsub : ∀ f ∈ A, f ∈ B) : Made B r := by
  obtain ⟨fs, hfs, hall, hlast⟩ := h.pieces
  exact ⟨h.header, h.sorted, fs, hfs, fun f hf => ⟨hsub _ (hall f hf).1, (hall f hf).2⟩, hlast⟩

theorem Made.fresh (hlen : 20 ≤ packet.length) (timer : Nat) :
    Made A ⟨packet.take 20, [], false, 0, timer⟩ := by
  refine ⟨by rw [List.length_take]; omega, List.Pairwise.nil, [], rfl, ?_, ?_⟩
  · exact fun f hf => absurd hf List.not_mem_nil
  · exact fun h => absurd h Bool.false_ne_true

theorem fragKey_withHeader (hkey : fragKey r.iphdr = fragKey (packet.take 20)) :
    fragKey (withHeader r (packet.take 20)).iphdr = fragKey (packet.take 20) := by
  rw [withHeader]
  split
  · rfl
  · exact hkey

theorem Made.withHeader (h : Made A r) (hlen : 20 ≤ packet.length)
    (hkey : fragKey r.iphdr = fragKey (packet.take 20)) :
    Made A (withHeader r (packet.take 20)) := by
  obtain ⟨fs, hfs, hall, hlast⟩ := h.pieces
  rw [Reass.withHeader]
  split
  · refine ⟨by rw [List.length_take]; omega, h.sorted, fs, hfs, ?_, hlast⟩
    exact fun f hf => ⟨(hall f hf).1, (hall f hf).2.trans hkey⟩
  · exact h

/-- Sorted by start also with the new piece. -/
theorem sorted_insert {xs ys : List Piece} {new : Piece}
    (hsorted : (xs ++ ys).Pairwise fun p q => p.start < q.start)
    (hxs : ∀ x ∈ xs, x.start < new.start) (hys : ∀ y ∈ ys.head?, new.start < y.start) :
    (xs ++ new :: ys).Pairwise fun p q => p.start < q.start := by
  rw [List.pairwise_append] at hsorted ⊢
  obtain ⟨hsx, hsy, hxy⟩ := hsorted
  have hnew : ∀ y ∈ ys, new.start < y.start := by
    cases ys with
    | nil => exact fun y hy => absurd hy List.not_mem_nil
    | cons y ys =>
        have hfirst := hys y rfl
        refine List.forall_mem_cons.mpr ⟨hfirst, fun z hz => ?_⟩
        exact Nat.lt_trans hfirst ((List.pairwise_cons.mp hsy).1 z hz)
  refine ⟨hsx, List.pairwise_cons.mpr ⟨hnew, hsy⟩, fun x hx => ?_⟩
  exact List.forall_mem_cons.mpr ⟨hxs x hx, hxy x hx⟩

/-- A fragment is added to its datagram. -/
theorem Made.withPieces (h : Made A r) (hkey : fragKey r.iphdr = fragKey (packet.take 20))
    (hchain : chainAndValidate r (pieceOf clen packet) (!moreFragments (packet.take 20)) =
      some (ps, finished)) :
    Made (A ++ [packet]) (withPieces r packet ps) := by
  obtain ⟨xs, ys, hsplit, rfl, hxs, hys, -⟩ := chainAndValidate_spec hchain
  obtain ⟨fs, hfs, hall, hlast⟩ := h.pieces
  have hsorted := h.sorted
  rw [hsplit] at hfs hsorted
  obtain ⟨fs₁, fs₂, rfl, rfl, rfl⟩ := List.append_eq_map_iff.mp hfs
  refine ⟨h.header, sorted_insert hsorted hxs hys, fs₁ ++ (clen, packet) :: fs₂, ?_, ?_, ?_⟩
  · rw [List.map_append, List.map_cons]
    rfl
  · intro f hf
    rcases List.mem_append.mp hf with hin | hin
    · obtain ⟨harr, hk⟩ := hall f (List.mem_append_left _ hin)
      exact ⟨List.mem_append_left _ harr, hk⟩
    rcases List.mem_cons.mp hin with rfl | hin
    · exact ⟨List.mem_append_right _ List.mem_cons_self, hkey.symm⟩
    · obtain ⟨harr, hk⟩ := hall f (List.mem_append_right _ hin)
      exact ⟨List.mem_append_left _ harr, hk⟩
  · intro hflag
    rw [Reass.withPieces] at hflag
    rcases Bool.or_eq_true_iff.mp hflag with hold | hnew
    · obtain ⟨f, hf, hmf⟩ := hlast hold
      refine ⟨f, ?_, hmf⟩
      rcases List.mem_append.mp hf with hin | hin
      · exact List.mem_append_left _ hin
      · exact List.mem_append_right _ (List.mem_cons_of_mem _ hin)
    · exact ⟨(clen, packet), List.mem_append_right _ List.mem_cons_self, by simpa using hnew⟩

theorem contiguous_of_noHoles {fs : List (Nat × List UInt8)} {pos : Nat}
    (hholes : noHoles (fs.map fun f => pieceOf f.1 f.2) = true)
    (hpos : ∀ f ∈ fs.head?, offsetField (f.2.take 20) * 8 = pos) :
    Contiguous pos (fs.map Prod.snd) := by
  induction fs generalizing pos with
  | nil => trivial
  | cons f fs ih =>
      have hf := hpos f rfl
      refine ⟨hf, ?_⟩
      cases fs with
      | nil => trivial
      | cons g fs =>
          rw [List.map_cons, List.map_cons, noHoles, Bool.and_eq_true, beq_iff_eq] at hholes
          refine ih hholes.2 ?_
          intro g' hg'
          rw [← Option.mem_some_iff.mp hg', ← hf]
          exact hholes.1.symm

/-- What is known of a packet that `ip4_reass` returns. -/
def Composed (A : List (List UInt8)) (packet : List UInt8) : Prop :=
  ∃ fs : List (List UInt8),
    (∀ f ∈ fs, f ∈ A ∧ fragKey (f.take 20) = fragKey (packet.take 20)) ∧ Contiguous 0 fs ∧
    (∃ f ∈ fs, moreFragments (f.take 20) = false) ∧
    packet.drop 20 = fs.flatMap fun f => f.drop 20

theorem Composed.mono {B : List (List UInt8)} (h : Composed A packet) (hsub : ∀ f ∈ A, f ∈ B) :
    Composed B packet := by
  obtain ⟨fs, hall, hrest⟩ := h
  exact ⟨fs, fun f hf => ⟨hsub f (hall f hf).1, (hall f hf).2⟩, hrest⟩

/-- A complete datagram. -/
theorem Made.composed (h : Made A r) (hlast : r.lastfrag = true)
    (hzero : (r.pieces.head?.all fun p => p.start == 0) = true)
    (hholes : noHoles r.pieces = true) : Composed A (reassembled r) := by
  obtain ⟨fs, hfs, hall, hmf⟩ := h.pieces
  obtain ⟨f, hf, hflag⟩ := hmf hlast
  rw [hfs] at hzero hholes
  have hlen : (rewriteHeader r.iphdr ((r.datagramLen + 20) % 2 ^ 16) 0).length = 20 :=
    length_rewriteHeader h.header
  have htake : (reassembled r).take 20 = rewriteHeader r.iphdr ((r.datagramLen + 20) % 2 ^ 16) 0 :=
    List.take_left' hlen
  have hdrop : (reassembled r).drop 20 = r.pieces.flatMap Piece.data := List.drop_left' hlen
  refine ⟨fs.map Prod.snd, ?_, contiguous_of_noHoles hholes ?_, ?_, ?_⟩
  · intro g hg
    obtain ⟨f, hf, rfl⟩ := List.mem_map.mp hg
    rw [htake, fragKey_rewriteHeader h.header]
    exact hall f hf
  · intro g hg
    rw [List.head?_map, Option.mem_def.mp hg] at hzero
    simpa [pieceOf] using hzero
  · exact ⟨f.2, List.mem_map_of_mem hf, hflag⟩
  · rw [hdrop, hfs, List.flatMap_map, List.flatMap_map]
    rfl

/-- The datagrams are made of the fragments `A`, and no two have the same key. -/
structure Queued (A : List (List UInt8)) (ds : List Reassdata) : Prop where
  made : ∀ r ∈ ds, Made A r
  keys : ds.Pairwise fun r r' => fragKey r.iphdr ≠ fragKey r'.iphdr

theorem Queued.sublist {ds ds' : List Reassdata} (h : Queued A ds) (hsub : ds'.Sublist ds) :
    Queued A ds' :=
  ⟨fun r hr => h.made r (hsub.subset hr), h.keys.sublist hsub⟩

theorem Queued.mono {B : List (List UInt8)} {ds : List Reassdata} (h : Queued A ds)
    (hsub : ∀ f ∈ A, f ∈ B) : Queued B ds :=
  ⟨fun r hr => (h.made r hr).mono hsub, h.keys⟩

/-- A datagram is replaced by one with the same key. -/
theorem Queued.replace {ds₁ ds₂ : List Reassdata} {r' : Reassdata} (h : Queued A (ds₁ ++ r :: ds₂))
    (hmade : Made A r') (hkey : fragKey r'.iphdr = fragKey r.iphdr) :
    Queued A (ds₁ ++ r' :: ds₂) := by
  refine ⟨fun q hq => ?_, ?_⟩
  · rcases List.mem_append.mp hq with hin | hin
    · exact h.made q (List.mem_append_left _ hin)
    rcases List.mem_cons.mp hin with rfl | hin
    · exact hmade
    · exact h.made q (List.mem_append_right _ (List.mem_cons_of_mem _ hin))
  · have hkeys := h.keys
    rw [List.pairwise_append, List.pairwise_cons] at hkeys ⊢
    obtain ⟨h₁, ⟨hr, h₂⟩, h₁₂⟩ := hkeys
    refine ⟨h₁, ⟨fun q hq => by rw [hkey]; exact hr q hq, h₂⟩, fun p hp q hq => ?_⟩
    rcases List.mem_cons.mp hq with rfl | hin
    · rw [hkey]
      exact h₁₂ p hp r List.mem_cons_self
    · exact h₁₂ p hp q (List.mem_cons_of_mem _ hin)

theorem Queued.eq_of_key {ds₁ ds₂ : List Reassdata} {q : Reassdata}
    (h : Queued A (ds₁ ++ r :: ds₂)) (hq : q ∈ ds₁ ++ r :: ds₂)
    (hkey : fragKey q.iphdr = fragKey r.iphdr) : q = r := by
  obtain ⟨-, hcons, hcross⟩ := List.pairwise_append.mp h.keys
  rcases List.mem_append.mp hq with hin | hin
  · exact absurd hkey (hcross q hin r List.mem_cons_self)
  rcases List.mem_cons.mp hin with heq | hin
  · exact heq
  · exact absurd hkey.symm ((List.pairwise_cons.mp hcons).1 q hin)

/-- The state and the result after a call, over the fragments `A`. -/
def Sane (A : List (List UInt8)) (out : Option (List UInt8)) (s : Reass) : Prop :=
  Queued A s.datagrams ∧ ∀ p ∈ out, Composed A p

theorem addFragment_sane {ds₁ ds₂ : List Reassdata} {count : Nat} (hlen : 20 ≤ packet.length)
    (hall : Queued A (ds₁ ++ r :: ds₂)) (hkey : fragKey r.iphdr = fragKey (packet.take 20))
    (h : addFragment ⟨ds₁ ++ r :: ds₂, count⟩ ds₁.length clen packet = some (out, s')) :
    Sane (A ++ [packet]) out s' := by
  have hgrow : ∀ f ∈ A, f ∈ A ++ [packet] := fun f hf => List.mem_append_left _ hf
  have hr := (hall.made r (List.mem_append_right _ List.mem_cons_self)).withHeader hlen hkey
  have hkey' := fragKey_withHeader hkey
  rcases addFragment_cases h with ⟨rfl, hds⟩ | ⟨ps, finished, hchain, hcases⟩
  · refine ⟨?_, fun p hp => absurd hp (Option.not_mem_none p)⟩
    rw [hds]
    exact (hall.mono hgrow).replace (hr.mono hgrow) (hkey'.trans hkey.symm)
  have hmade := hr.withPieces hkey' hchain
  rcases hcases with ⟨rfl, hds⟩ | ⟨rfl, rfl, hds⟩
  · refine ⟨?_, fun p hp => absurd hp (Option.not_mem_none p)⟩
    rw [hds]
    exact (hall.mono hgrow).replace hmade (hkey'.trans hkey.symm)
  · refine ⟨?_, fun p hp => ?_⟩
    · rw [hds]
      exact (hall.mono hgrow).sublist ((List.sublist_cons_self r ds₂).append_left ds₁)
    rw [← Option.mem_some_iff.mp hp]
    obtain ⟨-, -, -, -, -, -, hfin⟩ := chainAndValidate_spec hchain
    have hconds := hfin.symm
    rw [Bool.and_eq_true, Bool.and_eq_true] at hconds
    obtain ⟨⟨hlast, hzero⟩, hholes⟩ := hconds
    refine hmade.composed ?_ hzero hholes
    rw [Bool.or_comm] at hlast
    exact hlast

theorem enqueueFragment_sane (hlen : 20 ≤ packet.length) (hall : Queued A s.datagrams)
    (h : enqueueFragment s clen packet = some (out, s')) : Sane (A ++ [packet]) out s' := by
  rw [enqueueFragment] at h
  split at h
  next i hfind =>
    obtain ⟨ds₁, r, ds₂, hds, rfl, hkey⟩ := findDatagram_eq_some hfind
    obtain ⟨ds, count⟩ := s
    obtain rfl := hds
    exact addFragment_sane hlen hall hkey h
  next hfind =>
    obtain ⟨⟨room, s₁⟩, hroom, hrest⟩ := Option.bind_eq_some_iff.mp h
    obtain ⟨ds, hsub, hds⟩ := enqueueNewDatagram_spec hroom
    have hqueued := hall.sublist hsub
    dsimp only at hrest
    obtain ⟨ds', count⟩ := s₁
    split at hrest
    next hyes =>
      rw [if_pos hyes] at hds
      obtain rfl := hds
      have hnew : Queued A (⟨packet.take 20, [], false, 0, ipReassMaxage⟩ :: ds) := by
        refine ⟨List.forall_mem_cons.mpr ⟨Made.fresh hlen _, hqueued.made⟩, ?_⟩
        refine List.pairwise_cons.mpr ⟨fun r hr heq => ?_, hqueued.keys⟩
        exact findDatagram_eq_none hfind r (hsub.subset hr) heq.symm
      exact addFragment_sane hlen (show Queued A ([] ++ _ :: ds) from hnew) rfl hrest
    next hno =>
      rw [if_neg hno] at hds
      obtain rfl := hds
      rw [Option.some.injEq, Prod.mk.injEq] at hrest
      obtain ⟨rfl, rfl⟩ := hrest
      exact ⟨hqueued.mono fun f hf => List.mem_append_left _ hf,
        fun p hp => absurd hp (Option.not_mem_none p)⟩

theorem ip4Reass_sane (hlen : 20 ≤ packet.length) (hall : Queued A s.datagrams)
    (h : ip4Reass s clen packet = some (out, s')) : Sane (A ++ [packet]) out s' := by
  have hdrop {s₁ : Reass} (hsub : s₁.datagrams.Sublist s.datagrams)
      (heq : some (none, s₁) = some (out, s')) : Sane (A ++ [packet]) out s' := by
    rw [Option.some.injEq, Prod.mk.injEq] at heq
    obtain ⟨rfl, rfl⟩ := heq
    exact ⟨(hall.sublist hsub).mono fun f hf => List.mem_append_left _ hf,
      fun p hp => absurd hp (Option.not_mem_none p)⟩
  rw [ip4Reass] at h
  split at h
  · exact hdrop (List.Sublist.refl _) h
  split at h
  · obtain ⟨⟨freed, s₁⟩, hfree, hrest⟩ := Option.bind_eq_some_iff.mp h
    have hsub := removeOldest_sublist hfree
    dsimp only at hrest
    split at hrest
    · exact hdrop hsub hrest
    · exact enqueueFragment_sane hlen (hall.sublist hsub) hrest
  · exact enqueueFragment_sane hlen hall h

/-- The timer keeps or frees each datagram. -/
theorem tmrLoop_queued {rs rs' : List Reassdata} {count count' : Nat} (hall : Queued A rs)
    (h : tmrLoop rs count = some (rs', count')) :
    Queued A rs' ∧ ∀ r' ∈ rs', ∃ r ∈ rs, fragKey r'.iphdr = fragKey r.iphdr := by
  induction rs generalizing count rs' count' with
  | nil =>
      rw [tmrLoop, Option.some.injEq, Prod.mk.injEq] at h
      obtain ⟨rfl, -⟩ := h
      exact ⟨hall, fun r' hr' => absurd hr' List.not_mem_nil⟩
  | cons r rs ih =>
      obtain ⟨hr, hrs⟩ := List.pairwise_cons.mp hall.keys
      have htail : Queued A rs := hall.sublist (List.sublist_cons_self r rs)
      have hmade := hall.made r List.mem_cons_self
      rw [tmrLoop] at h
      split at h
      · obtain ⟨⟨rs₁, count₁⟩, hloop, heq⟩ := Option.map_eq_some_iff.mp h
        rw [Prod.mk.injEq] at heq
        obtain ⟨rfl, -⟩ := heq
        obtain ⟨hq, hkeys⟩ := ih htail hloop
        refine ⟨⟨?_, ?_⟩, ?_⟩
        · exact List.forall_mem_cons.mpr ⟨⟨hmade.header, hmade.sorted, hmade.pieces⟩, hq.made⟩
        · refine List.pairwise_cons.mpr ⟨fun q hq' => ?_, hq.keys⟩
          obtain ⟨q₀, hq₀, heq⟩ := hkeys q hq'
          rw [heq]
          exact hr q₀ hq₀
        · refine List.forall_mem_cons.mpr ⟨⟨r, List.mem_cons_self, rfl⟩, fun q hq' => ?_⟩
          obtain ⟨q₀, hq₀, heq⟩ := hkeys q hq'
          exact ⟨q₀, List.mem_cons_of_mem _ hq₀, heq⟩
      split at h
      · exact absurd h (by simp)
      split at h
      · exact absurd h (by simp)
      · obtain ⟨hq, hkeys⟩ := ih htail h
        refine ⟨hq, fun q hq' => ?_⟩
        obtain ⟨q₀, hq₀, heq⟩ := hkeys q hq'
        exact ⟨q₀, List.mem_cons_of_mem _ hq₀, heq⟩

end Provenance

end Reass

namespace Session

/-- Everything queued has arrived, and everything returned is composed of it. -/
def Inv (w : Session) : Prop :=
  Reass.Queued w.arrived w.reass.datagrams ∧ ∀ p ∈ w.out, Reass.Composed w.arrived p

theorem step_inv {w w' : Session} {o : Option Session} {e : ReassEvent} (hinv : w.Inv)
    (hmay : Received o e) (h : w.step e = some w') : w'.Inv := by
  obtain ⟨hmade, hout⟩ := hinv
  cases e with
  | fragment clen packet =>
      obtain ⟨⟨out, s⟩, hcall, rfl⟩ := Option.map_eq_some_iff.mp h
      obtain ⟨hmade', hout'⟩ := Reass.ip4Reass_sane hmay hmade hcall
      refine ⟨hmade', fun p hp => ?_⟩
      rcases List.mem_append.mp hp with hold | hnew
      · exact (hout p hold).mono fun f hf => List.mem_append_left _ hf
      · exact hout' p (Option.mem_toList.mp hnew)
  | tmr =>
      obtain ⟨s, hcall, rfl⟩ := Option.map_eq_some_iff.mp h
      obtain ⟨⟨ds, count⟩, hloop, rfl⟩ := Option.map_eq_some_iff.mp hcall
      exact ⟨(Reass.tmrLoop_queued hmade hloop).1, hout⟩

theorem run_session_inv {events : List ReassEvent} {w : Session}
    (hmeet : StepsMeet stepAll Received (some start) events)
    (hrun : run stepAll (some start) events = some w) : w.Inv := by
  have hall : ∀ v ∈ run stepAll (some start) events, v.Inv := by
    refine run_inv (C := Received) (I := fun o => ∀ v ∈ o, v.Inv) ?_ ?_ hmeet
    · intro o e hinv hmay v hv
      obtain ⟨u, hu, hstep⟩ := Option.bind_eq_some_iff.mp hv
      exact step_inv (hinv u hu) hmay hstep
    · intro v hv
      rw [← Option.mem_some_iff.mp hv]
      exact ⟨⟨fun r hr => absurd hr List.not_mem_nil, List.Pairwise.nil⟩,
        fun p hp => absurd hp List.not_mem_nil⟩
  exact hall w hrun

/-- **Nothing is made up.**  Whatever arrives, in whatever order, with datagrams
    thrown out for want of room or of time: a packet that `ip4_reass` returns
    consists of fragments that have arrived with its addresses and identification,
    that follow one another from offset 0 on, each of them whole, and one of which
    is marked as the last. -/
theorem reassembled_from_arrived (events : List ReassEvent) (w : Session)
    (hmeet : StepsMeet stepAll Received (some start) events)
    (hrun : run stepAll (some start) events = some w) :
    ∀ packet ∈ w.out, ∃ fs : List (List UInt8),
      (∀ f ∈ fs, f ∈ w.arrived ∧ fragKey (f.take 20) = fragKey (packet.take 20)) ∧
      Contiguous 0 fs ∧ (∃ f ∈ fs, moreFragments (f.take 20) = false) ∧
      packet.drop 20 = fs.flatMap fun f => f.drop 20 :=
  (run_session_inv hmeet hrun).2

/-- A header from 192.168.0.2 to the board. -/
def sampleHeader : List UInt8 := ip4Header 0 30 7 255 17 0 0x0200A8C0 0x0A00A8C0

/-- Ten bytes in two fragments, the second one first. -/
theorem reassembled_from_arrived_swapped :
    let events : List ReassEvent := [.fragment 1 (fragPacket sampleHeader ⟨8, [9, 10], true⟩), .tmr,
      .fragment 1 (fragPacket sampleHeader ⟨0, [1, 2, 3, 4, 5, 6, 7, 8], false⟩)]
    (run stepAll (some start) events).map (fun w => w.out.map (List.drop 20)) =
        some [[1, 2, 3, 4, 5, 6, 7, 8, 9, 10]] ∧
      ∀ w ∈ run stepAll (some start) events, ∀ packet ∈ w.out, ∃ fs : List (List UInt8),
        (∀ f ∈ fs, f ∈ w.arrived ∧ fragKey (f.take 20) = fragKey (packet.take 20)) ∧
        Contiguous 0 fs ∧ (∃ f ∈ fs, moreFragments (f.take 20) = false) ∧
        packet.drop 20 = fs.flatMap fun f => f.drop 20 :=
  ⟨by decide +kernel, fun w hw => reassembled_from_arrived _ w (by decide +kernel) hw⟩

/-- **A fragment that comes twice ends the firmware.**  After every history, a
    fragment at the same offset as one that is still queued for its datagram, with a
    header of 20 bytes and with room for its pbufs in the queue, is freed by
    `ip_reass_chain_frag_into_datagram_and_validate` and once more by `ip4_reass`.
    Only a last fragment that goes past the length of a packet is dropped before. -/
theorem repeated_fragment_is_fatal (events : List ReassEvent) (w : Session) (r : Reassdata)
    (p : Piece) (clen : Nat) (packet : List UInt8)
    (hmeet : StepsMeet stepAll Received (some start) events)
    (hrun : run stepAll (some start) events = some w) (hr : r ∈ w.reass.datagrams)
    (hkey : fragKey r.iphdr = fragKey (packet.take 20)) (hp : p ∈ r.pieces)
    (hat : p.start = offsetField (packet.take 20) * 8) (hheader : headerLen packet = 20)
    (hroom : w.reass.pbufcount + clen ≤ ipReassMaxPbufs)
    (hfits : moreFragments (packet.take 20) = false →
      offsetField (packet.take 20) * 8 + fragLen (packet.take 20) ≤ 0xFFFF - 20) :
    w.step (.fragment clen packet) = none := by
  obtain ⟨hqueued, -⟩ := run_session_inv hmeet hrun
  obtain ⟨⟨ds, count⟩, arrived, out⟩ := w
  dsimp only at hr hqueued hroom
  -- the search finds this datagram, as it is the only one with its key
  have hfind : ∃ i, Reass.findDatagram ⟨ds, count⟩ (packet.take 20) = some i := by
    cases hf : Reass.findDatagram ⟨ds, count⟩ (packet.take 20) with
    | some i => exact ⟨i, rfl⟩
    | none => exact absurd hkey (Reass.findDatagram_eq_none hf r hr)
  obtain ⟨i, hi⟩ := hfind
  obtain ⟨ds₁, r', ds₂, hds, rfl, hkey'⟩ := Reass.findDatagram_eq_some hi
  obtain rfl : ds = ds₁ ++ r' :: ds₂ := hds
  obtain rfl := hqueued.eq_of_key hr (hkey.trans hkey'.symm)
  have hsorted := (hqueued.made r hr).sorted
  have hpieces : (Reass.withHeader r (packet.take 20)).pieces = r.pieces := by
    rw [Reass.withHeader]
    split <;> rfl
  have hdropped : Reass.chainFrag (Reass.pieceOf clen packet) none true r.pieces = none :=
    Reass.chainFrag_eq_none hsorted hp hat
  have hcall : Reass.addFragment ⟨ds₁ ++ r :: ds₂, count⟩ ds₁.length clen packet = none := by
    rw [Reass.addFragment_eq, if_neg, Reass.chainAndValidate, hpieces, hdropped]
    · rfl
    · rintro ⟨hlast, hout⟩
      have hle := hfits hlast
      simp only [Reass.pieceOf] at hout
      omega
  have hreass : Reass.ip4Reass ⟨ds₁ ++ r :: ds₂, count⟩ clen packet = none := by
    rw [Reass.ip4Reass, if_neg (by rw [hheader]; decide), if_neg (Nat.not_lt.mpr hroom),
      Reass.enqueueFragment, hi]
    exact hcall
  rw [step]
  dsimp only
  rw [hreass]
  rfl

/-- The second of two fragments, twice. -/
theorem repeated_fragment_is_fatal_last :
    step ⟨⟨[⟨(fragPacket sampleHeader ⟨8, [9, 10], true⟩).take 20, [⟨8, 10, [9, 10], 1⟩], true, 10, 3⟩],
        1⟩, [fragPacket sampleHeader ⟨8, [9, 10], true⟩], []⟩
      (.fragment 1 (fragPacket sampleHeader ⟨8, [9, 10], true⟩)) = none :=
  repeated_fragment_is_fatal [.fragment 1 (fragPacket sampleHeader ⟨8, [9, 10], true⟩)] _ _
    ⟨8, 10, [9, 10], 1⟩ 1 _ (by decide +kernel) (by decide +kernel) List.mem_cons_self rfl
    List.mem_cons_self (by decide +kernel) (by decide +kernel) (by decide) (by decide +kernel)

end Session

end McuFirmware.Lwip
