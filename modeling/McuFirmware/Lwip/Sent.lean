/-
  McuFirmware.Lwip.Sent

  A packet in its parts, and what the reassembly queue holds of it: an entry of
  the list is the parts that have arrived, in their order, and one more part
  either leaves such an entry or gives the whole packet back.
-/

import McuFirmware.Lwip.Reass

namespace McuFirmware.Lwip

open McuFirmware.Lib

-- ============================================================================
-- Parts of a packet
-- ============================================================================

section Parts

variable {off n fuel : Nat} {bss : List (List UInt8)} {bs : List UInt8} {p : Part}

theorem bounds_of_mem_cutAt (h : p ∈ cutAt off bss) :
    off ≤ p.off ∧ p.off + p.bytes.length ≤ off + bss.flatten.length := by
  induction bss generalizing off with
  | nil => exact absurd h List.not_mem_nil
  | cons b bss ih =>
      rw [List.flatten_cons, List.length_append]
      rcases List.mem_cons.mp h with rfl | hin
      · dsimp only
        omega
      · have hle := ih hin
        omega

/-- One part behind the other. -/
theorem pairwise_cutAt (off : Nat) (bss : List (List UInt8)) :
    (cutAt off bss).Pairwise fun p q => p.off + p.bytes.length ≤ q.off := by
  induction bss generalizing off with
  | nil => exact List.Pairwise.nil
  | cons b bss ih =>
      exact List.pairwise_cons.mpr ⟨fun q hq => (bounds_of_mem_cutAt hq).1, ih _⟩

theorem bytes_ne_nil_of_mem_cutAt (hne : ∀ b ∈ bss, b ≠ []) (h : p ∈ cutAt off bss) :
    p.bytes ≠ [] := by
  induction bss generalizing off with
  | nil => exact absurd h List.not_mem_nil
  | cons b bss ih =>
      obtain ⟨hb, hbss⟩ := List.forall_mem_cons.mp hne
      rcases List.mem_cons.mp h with rfl | hin
      · exact hb
      · exact ih hbss hin

theorem flatMap_bytes_cutAt (off : Nat) (bss : List (List UInt8)) :
    (cutAt off bss).flatMap Part.bytes = bss.flatten := by
  induction bss generalizing off with
  | nil => rfl
  | cons b bss ih => rw [cutAt, List.flatMap_cons, ih, List.flatten_cons]

/-- The last part is the one that ends where the packet ends. -/
theorem last_iff_of_mem_cutAt (hne : ∀ b ∈ bss, b ≠ []) (h : p ∈ cutAt off bss) :
    p.last = true ↔ p.off + p.bytes.length = off + bss.flatten.length := by
  induction bss generalizing off with
  | nil => exact absurd h List.not_mem_nil
  | cons b bss ih =>
      obtain ⟨hb, hbss⟩ := List.forall_mem_cons.mp hne
      rw [List.flatten_cons, List.length_append]
      rcases List.mem_cons.mp h with rfl | hin
      · dsimp only
        cases bss with
        | nil => simp
        | cons b' bss =>
            have hpos : 0 < b'.length :=
              List.length_pos_iff.mpr (hbss b' List.mem_cons_self)
            rw [List.flatten_cons, List.length_append]
            simp only [List.isEmpty_cons, Bool.false_eq_true, false_iff]
            omega
      · rw [ih hbss hin, Nat.add_assoc]

theorem exists_last_cutAt (off : Nat) (b : List UInt8) (bss : List (List UInt8)) :
    ∃ p ∈ cutAt off (b :: bss), p.last = true := by
  induction bss generalizing off b with
  | nil => exact ⟨_, List.mem_cons_self, rfl⟩
  | cons b' bss ih =>
      obtain ⟨p, hp, hlast⟩ := ih (off + b.length) b'
      exact ⟨p, List.mem_cons_of_mem _ hp, hlast⟩

theorem flatten_chunks (hn : 0 < n) (hfuel : bs.length ≤ fuel) : (chunks n fuel bs).flatten = bs := by
  induction fuel generalizing bs with
  | zero =>
      have hnil : bs = [] := List.length_eq_zero_iff.mp (by omega)
      rw [hnil, chunks, List.flatten_nil]
  | succ fuel ih =>
      rw [chunks]
      split
      next hzero => rw [List.length_eq_zero_iff.mp hzero, List.flatten_nil]
      next hne =>
        rw [List.flatten_cons, ih (by rw [List.length_drop]; omega), List.take_append_drop]

theorem ne_nil_of_mem_chunks (hn : 0 < n) : ∀ b ∈ chunks n fuel bs, b ≠ [] := by
  induction fuel generalizing bs with
  | zero => exact fun b hb => absurd hb List.not_mem_nil
  | succ fuel ih =>
      rw [chunks]
      split
      · exact fun b hb => absurd hb List.not_mem_nil
      next hne =>
        refine List.forall_mem_cons.mpr ⟨fun hnil => ?_, ih⟩
        have hlen := congrArg List.length hnil
        rw [List.length_take, List.length_nil] at hlen
        omega

/-- Every part starts at a multiple of the size of a chunk. -/
theorem off_mod_of_mem_cutAt_chunks (hoff : off % n = 0)
    (h : p ∈ cutAt off (chunks n fuel bs)) : p.off % n = 0 := by
  induction fuel generalizing bs off with
  | zero => exact absurd h List.not_mem_nil
  | succ fuel ih =>
      rw [chunks] at h
      split at h
      · exact absurd h List.not_mem_nil
      next hne =>
        rcases List.mem_cons.mp h with rfl | hin
        · exact hoff
        by_cases hshort : bs.length ≤ n
        · -- nothing is behind a short chunk
          have hnil : bs.drop n = [] := List.drop_of_length_le hshort
          rw [hnil] at hin
          cases fuel with
          | zero => exact absurd hin List.not_mem_nil
          | succ fuel => exact absurd hin (by simp [chunks, cutAt])
        · refine ih ?_ hin
          rw [List.length_take, Nat.min_eq_left (by omega), Nat.add_mod_right]
          exact hoff

end Parts

/-- A summand put in anywhere. -/
theorem foldr_add_insert {α : Type} (f : α → Nat) (xs ys : List α) (a : α) :
    (xs ++ a :: ys).foldr (fun x n => f x + n) 0 =
      (xs ++ ys).foldr (fun x n => f x + n) 0 + f a := by
  induction xs with
  | nil => exact Nat.add_comm _ _
  | cons x xs ih =>
      rw [List.cons_append, List.foldr_cons, ih, List.cons_append, List.foldr_cons, Nat.add_assoc]

/-- A packet in its parts, with the header they share. -/
structure Sent where
  hdr : List UInt8
  parts : List Part

namespace Sent

/-- The bytes behind the header. -/
def payload (d : Sent) : List UInt8 := d.parts.flatMap Part.bytes

def packet (d : Sent) (p : Part) : List UInt8 := fragPacket d.hdr p

/-- The packet that was cut. -/
def whole (d : Sent) : List UInt8 := rewriteHeader d.hdr (d.payload.length + 20) 0 ++ d.payload

structure WellCut (d : Sent) : Prop where
  length : d.hdr.length = 20
  header : headerLen d.hdr = 20
  cut : ∃ bss, d.parts = cutAt 0 bss ∧ ∀ b ∈ bss, b ≠ []
  aligned : ∀ p ∈ d.parts, p.off % 8 = 0
  short : d.payload.length ≤ 0xFFFF - 20
  two : 2 ≤ d.parts.length

/-- The piece that a part becomes when it arrives in `clen` pbufs. -/
def toPiece (g : Part × Nat) : Piece :=
  ⟨g.1.off, g.1.off + g.1.bytes.length, g.1.bytes, g.2⟩

variable {d : Sent} {p q : Part}

theorem WellCut.bounds (h : d.WellCut) (hp : p ∈ d.parts) :
    p.off + p.bytes.length ≤ d.payload.length := by
  obtain ⟨bss, hcut, -⟩ := h.cut
  rw [payload, hcut, flatMap_bytes_cutAt]
  rw [hcut] at hp
  have hle := (bounds_of_mem_cutAt hp).2
  omega

theorem WellCut.pos (h : d.WellCut) (hp : p ∈ d.parts) : 0 < p.bytes.length := by
  obtain ⟨bss, hcut, hne⟩ := h.cut
  rw [hcut] at hp
  exact List.length_pos_iff.mpr (bytes_ne_nil_of_mem_cutAt hne hp)

theorem WellCut.last_iff (h : d.WellCut) (hp : p ∈ d.parts) :
    p.last = true ↔ p.off + p.bytes.length = d.payload.length := by
  obtain ⟨bss, hcut, hne⟩ := h.cut
  rw [payload, hcut, flatMap_bytes_cutAt]
  rw [hcut] at hp
  rw [last_iff_of_mem_cutAt hne hp, Nat.zero_add]

/-- The header of a fragment. -/
theorem take_packet (h : d.WellCut) (p : Part) :
    (d.packet p).take 20 =
      rewriteHeader d.hdr (p.bytes.length + 20) (p.off / 8 + if p.last then 0 else 0x2000) :=
  List.take_left' (length_rewriteHeader h.length)

theorem drop_packet (h : d.WellCut) (p : Part) : (d.packet p).drop 20 = p.bytes :=
  List.drop_left' (length_rewriteHeader h.length)

theorem fragKey_packet (h : d.WellCut) (p : Part) :
    fragKey ((d.packet p).take 20) = fragKey d.hdr := by
  rw [take_packet h, fragKey_rewriteHeader h.length]

theorem headerLen_packet (h : d.WellCut) (p : Part) : headerLen (d.packet p) = 20 := by
  rw [← headerLen_take, take_packet h, headerLen_rewriteHeader h.length, h.header]

/-- The offset word of a fragment. -/
theorem offWord_packet (h : d.WellCut) (hp : p ∈ d.parts) :
    netWord ((d.packet p).take 20) (fun _ => 0) 6 = p.off / 8 + if p.last then 0 else 0x2000 := by
  have hle := h.bounds hp
  have hshort := h.short
  rw [take_packet h, netWord_off_rewriteHeader h.length]
  split <;> omega

theorem offsetField_packet (h : d.WellCut) (hp : p ∈ d.parts) :
    offsetField ((d.packet p).take 20) * 8 = p.off := by
  have hle := h.bounds hp
  have hshort := h.short
  have halign := h.aligned p hp
  rw [offsetField, offWord_packet h hp]
  split <;> omega

theorem moreFragments_packet (h : d.WellCut) (hp : p ∈ d.parts) :
    moreFragments ((d.packet p).take 20) = !p.last := by
  have hle := h.bounds hp
  have hshort := h.short
  rw [moreFragments, offWord_packet h hp]
  cases p.last with
  | true =>
      rw [if_pos rfl]
      exact beq_false_of_ne (by omega)
  | false =>
      rw [if_neg Bool.false_ne_true]
      exact beq_iff_eq.mpr (by omega)

theorem pieceOf_packet (h : d.WellCut) (hp : p ∈ d.parts) (clen : Nat) :
    Reass.pieceOf clen (d.packet p) = toPiece (p, clen) := by
  have hle := h.bounds hp
  have hshort := h.short
  have hlen : fragLen ((d.packet p).take 20) = p.bytes.length := by
    rw [fragLen, headerLen_take, headerLen_packet h, take_packet h,
      netWord_len_rewriteHeader h.length (by omega)]
    omega
  have hstop : (p.off + p.bytes.length) % 2 ^ 16 = p.off + p.bytes.length :=
    Nat.mod_eq_of_lt (by omega)
  rw [Reass.pieceOf, offsetField_packet h hp, hlen, hstop, drop_packet h, toPiece]

/-- A part is told by its offset, and so by its packet. -/
theorem eq_of_off (h : d.WellCut) (hp : p ∈ d.parts) (hq : q ∈ d.parts) (hoff : p.off = q.off) :
    p = q := by
  obtain ⟨bss, hcut, -⟩ := h.cut
  have hpair := hcut ▸ pairwise_cutAt 0 bss
  by_contra hne
  have hppos := h.pos hp
  have hqpos := h.pos hq
  obtain ⟨xs, ys, hsplit⟩ := List.append_of_mem hp
  rw [hsplit] at hpair hq
  obtain ⟨-, hcons, hcross⟩ := List.pairwise_append.mp hpair
  rcases List.mem_append.mp hq with hin | hin
  · have hle := hcross q hin p List.mem_cons_self
    omega
  rcases List.mem_cons.mp hin with heq | hin
  · exact hne heq.symm
  · have hle := (List.pairwise_cons.mp hcons).1 q hin
    omega

theorem packet_inj (h : d.WellCut) (hp : p ∈ d.parts) (hq : q ∈ d.parts)
    (heq : d.packet p = d.packet q) : p = q := by
  apply eq_of_off h hp hq
  rw [← offsetField_packet h hp, ← offsetField_packet h hq, heq]

end Sent

/-- Parts without a hole, from the first one to the last, are all the parts. -/
theorem eq_cutAt_of_noHoles {off : Nat} {bss : List (List UInt8)} {got : List (Part × Nat)}
    (hne : ∀ b ∈ bss, b ≠ []) (hsub : (got.map Prod.fst).Sublist (cutAt off bss))
    (hhead : ∀ g ∈ got.head?, g.1.off = off) (hlast : ∃ g ∈ got, g.1.last = true)
    (hholes : Reass.noHoles (got.map Sent.toPiece) = true) : got.map Prod.fst = cutAt off bss := by
  induction bss generalizing off got with
  | nil =>
      rw [cutAt, List.sublist_nil] at hsub
      rw [hsub, cutAt]
  | cons b bss ih =>
      obtain ⟨hb, hbss⟩ := List.forall_mem_cons.mp hne
      have hpos : 0 < b.length := List.length_pos_iff.mpr hb
      cases got with
      | nil =>
          obtain ⟨g, hg, -⟩ := hlast
          exact absurd hg List.not_mem_nil
      | cons g got =>
          have hoff := hhead g rfl
          rw [cutAt, List.map_cons] at hsub ⊢
          -- the first part is there, as every other one starts behind it
          have hfirst : g.1 = ⟨off, b, bss.isEmpty⟩ ∧
              (got.map Prod.fst).Sublist (cutAt (off + b.length) bss) := by
            rcases List.sublist_cons_iff.mp hsub with hskip | ⟨rest, heq, hrest⟩
            · have hle := (bounds_of_mem_cutAt (hskip.subset List.mem_cons_self)).1
              omega
            · rw [List.cons.injEq] at heq
              exact ⟨heq.1, heq.2 ▸ hrest⟩
          obtain ⟨hg, hrest⟩ := hfirst
          rw [hg]
          congr 1
          cases bss with
          | nil =>
              rw [cutAt, List.sublist_nil] at hrest
              rw [hrest, cutAt]
          | cons b' bss =>
              refine ih hbss hrest ?_ ?_ ?_
              · intro g' hg'
                cases got with
                | nil => exact absurd hg' (Option.not_mem_none g')
                | cons g'' got =>
                    rw [← Option.mem_some_iff.mp hg']
                    rw [List.map_cons, List.map_cons, Reass.noHoles, Bool.and_eq_true,
                      beq_iff_eq] at hholes
                    have hstop : g.1.off + g.1.bytes.length = g''.1.off := hholes.1
                    rw [hg] at hstop
                    exact hstop.symm
              · obtain ⟨g', hg', hflag⟩ := hlast
                rcases List.mem_cons.mp hg' with rfl | hin
                · rw [hg] at hflag
                  exact absurd hflag (by simp)
                · exact ⟨g', hin, hflag⟩
              · cases got with
                | nil => rfl
                | cons g'' got =>
                    rw [List.map_cons, List.map_cons, Reass.noHoles, Bool.and_eq_true] at hholes
                    exact hholes.2

theorem noHoles_of_eq_cutAt {off : Nat} {bss : List (List UInt8)} {got : List (Part × Nat)}
    (h : got.map Prod.fst = cutAt off bss) : Reass.noHoles (got.map Sent.toPiece) = true := by
  induction bss generalizing off got with
  | nil =>
      rw [cutAt, List.map_eq_nil_iff] at h
      rw [h]
      rfl
  | cons b bss ih =>
      rw [cutAt] at h
      obtain ⟨g, rest, rfl, hg, hrest⟩ := List.map_eq_cons_iff.mp h
      cases bss with
      | nil =>
          rw [cutAt, List.map_eq_nil_iff] at hrest
          rw [hrest]
          rfl
      | cons b' bss =>
          have htail := ih hrest
          rw [cutAt] at hrest
          obtain ⟨g', rest', rfl, hg', -⟩ := List.map_eq_cons_iff.mp hrest
          rw [List.map_cons, List.map_cons, Reass.noHoles, ← List.map_cons, htail, Bool.and_true,
            beq_iff_eq, Sent.toPiece, Sent.toPiece, hg, hg']

-- ============================================================================
-- An entry and the packet it belongs to
-- ============================================================================

namespace Sent

variable {d : Sent} {p q : Part} {A : List (List UInt8)} {r : Reassdata} {clen : Nat}

/-- The parts that have arrived. -/
def arrivedParts (d : Sent) (A : List (List UInt8)) : List Part :=
  d.parts.filter fun p => decide (d.packet p ∈ A)

/-- All of them. -/
def Complete (d : Sent) (A : List (List UInt8)) : Prop := ∀ p ∈ d.parts, d.packet p ∈ A

instance (d : Sent) (A : List (List UInt8)) : Decidable (d.Complete A) :=
  inferInstanceAs (Decidable (∀ p ∈ d.parts, d.packet p ∈ A))

/-- What the entry has of the packet. -/
structure Holds (d : Sent) (A : List (List UInt8)) (r : Reassdata) : Prop where
  key : fragKey r.iphdr = fragKey d.hdr
  got : ∃ got : List (Part × Nat), r.pieces = got.map toPiece ∧ got.map Prod.fst = d.arrivedParts A
  last : r.lastfrag = true ↔ ∃ p ∈ d.parts, p.last = true ∧ d.packet p ∈ A
  len : ∀ p ∈ d.parts, p.last = true → d.packet p ∈ A → r.datagramLen = d.payload.length

/-- The header kept is that of the first fragment, once it is there. -/
structure Headed (d : Sent) (A : List (List UInt8)) (h : List UInt8) : Prop where
  first : ∀ p ∈ d.parts, p.off = 0 → d.packet p ∈ A → h = (d.packet p).take 20
  later : (∀ p ∈ d.parts, p.off = 0 → d.packet p ∉ A) → offsetField h ≠ 0

theorem WellCut.split (h : d.WellCut) (hp : p ∈ d.parts) (hnew : d.packet p ∉ A) :
    ∃ us vs, d.parts = us ++ p :: vs ∧ (∀ q ∈ us, q.off + q.bytes.length ≤ p.off) ∧
      (∀ q ∈ vs, p.off + p.bytes.length ≤ q.off) ∧
      d.arrivedParts A = us.filter (fun q => decide (d.packet q ∈ A)) ++
        vs.filter (fun q => decide (d.packet q ∈ A)) ∧
      d.arrivedParts (A ++ [d.packet p]) = us.filter (fun q => decide (d.packet q ∈ A)) ++
        p :: vs.filter (fun q => decide (d.packet q ∈ A)) := by
  obtain ⟨us, vs, hsplit⟩ := List.append_of_mem hp
  obtain ⟨bss, hcut, -⟩ := h.cut
  have hpair := hcut ▸ pairwise_cutAt 0 bss
  rw [hsplit] at hpair
  obtain ⟨-, hcons, hcross⟩ := List.pairwise_append.mp hpair
  have hbefore : ∀ q ∈ us, q.off + q.bytes.length ≤ p.off :=
    fun q hq => hcross q hq p List.mem_cons_self
  have hbehind : ∀ q ∈ vs, p.off + p.bytes.length ≤ q.off := (List.pairwise_cons.mp hcons).1
  have hppos := h.pos hp
  -- for the other parts the new packet makes no difference
  have hsame (q : Part) (hq : q ∈ d.parts) (hne : q.off ≠ p.off) :
      decide (d.packet q ∈ A ++ [d.packet p]) = decide (d.packet q ∈ A) := by
    have hother : d.packet q ≠ d.packet p :=
      fun heq => hne (by rw [packet_inj h hq hp heq])
    simp [hother]
  refine ⟨us, vs, hsplit, hbefore, hbehind, ?_, ?_⟩
  · rw [arrivedParts, hsplit, List.filter_append, List.filter_cons_of_neg (by simpa using hnew)]
  · rw [arrivedParts, hsplit, List.filter_append, List.filter_cons_of_pos (by simp)]
    congr 1
    · refine List.filter_congr fun q hq => hsame q ?_ ?_
      · rw [hsplit]
        exact List.mem_append_left _ hq
      · have hqpos := h.pos (p := q) (by rw [hsplit]; exact List.mem_append_left _ hq)
        have hle := hbefore q hq
        omega
    · congr 1
      refine List.filter_congr fun q hq => hsame q ?_ ?_
      · rw [hsplit]
        exact List.mem_append_right _ (List.mem_cons_of_mem _ hq)
      · have hle := hbehind q hq
        omega

theorem WellCut.arrivedParts_eq (h : d.WellCut) {got : List (Part × Nat)} {lastfrag : Bool}
    (hgot : got.map Prod.fst = d.arrivedParts A)
    (hlast : lastfrag = true ↔ ∃ p ∈ d.parts, p.last = true ∧ d.packet p ∈ A) :
    (lastfrag && ((got.map toPiece).head?.all fun p => p.start == 0) &&
      Reass.noHoles (got.map toPiece)) = decide (d.Complete A) := by
  obtain ⟨bss, hcut, hne⟩ := h.cut
  have hcomplete : d.Complete A ↔ d.arrivedParts A = d.parts := by
    rw [arrivedParts, List.filter_eq_self, Complete]
    simp
  rw [Bool.eq_iff_iff, decide_eq_true_iff, hcomplete, ← hgot, Bool.and_eq_true, Bool.and_eq_true]
  constructor
  · rintro ⟨⟨hflag, hzero⟩, hholes⟩
    rw [hcut]
    refine eq_cutAt_of_noHoles hne ?_ ?_ ?_ hholes
    · rw [hgot, ← hcut]
      exact List.filter_sublist
    · intro g hg
      rw [List.head?_map, Option.mem_def.mp hg] at hzero
      simpa [toPiece] using hzero
    · obtain ⟨p, hp, hpl, hin⟩ := hlast.mp hflag
      have hmem : p ∈ got.map Prod.fst := by
        rw [hgot]
        exact List.mem_filter.mpr ⟨hp, by simpa using hin⟩
      obtain ⟨g, hg, rfl⟩ := List.mem_map.mp hmem
      exact ⟨g, hg, hpl⟩
  · intro hall
    have hin (p : Part) (hp : p ∈ d.parts) : d.packet p ∈ A := by
      rw [← hall, hgot] at hp
      simpa using (List.mem_filter.mp hp).2
    have htwo := h.two
    rw [hcut] at hall htwo
    cases bss with
    | nil => simp [cutAt] at htwo
    | cons b bss =>
        obtain ⟨p, hp, hpl⟩ := exists_last_cutAt 0 b bss
        rw [← hcut] at hp
        refine ⟨⟨hlast.mpr ⟨p, hp, hpl, hin p hp⟩, ?_⟩, noHoles_of_eq_cutAt hall⟩
        rw [cutAt] at hall
        obtain ⟨g, rest, rfl, hg, -⟩ := List.map_eq_cons_iff.mp hall
        simp [toPiece, hg]

/-- What a part that was not there yet does to the entry of its packet. -/
theorem Holds.add (h : d.WellCut) (hr : d.Holds A r) (hp : p ∈ d.parts) (hnew : d.packet p ∉ A)
    (clen : Nat) :
    ∃ ps, Reass.chainAndValidate r (toPiece (p, clen)) p.last =
        some (ps, decide (d.Complete (A ++ [d.packet p]))) ∧
      d.Holds (A ++ [d.packet p]) (Reass.withPieces r (d.packet p) ps) ∧
      (Reass.withPieces r (d.packet p) ps).pbufs = r.pbufs + clen := by
  obtain ⟨us, vs, hsplit, hbefore, hbehind, hold, hboth⟩ := h.split hp hnew
  obtain ⟨got, hpieces, hgot⟩ := hr.got
  rw [hold] at hgot
  obtain ⟨g₁, g₂, rfl, hg₁, hg₂⟩ := List.map_eq_append_iff.mp hgot
  have hxs : ∀ x ∈ g₁.map toPiece, x.start < (toPiece (p, clen)).start ∧
      x.stop ≤ (toPiece (p, clen)).start := by
    intro x hx
    obtain ⟨g, hg, rfl⟩ := List.mem_map.mp hx
    have hq : g.1 ∈ us := (List.mem_filter.mp (hg₁ ▸ List.mem_map_of_mem hg)).1
    have hle := hbefore g.1 hq
    have hpos := h.pos (p := g.1) (by rw [hsplit]; exact List.mem_append_left _ hq)
    simp only [toPiece]
    omega
  have hys : ∀ y ∈ (g₂.map toPiece).head?, (toPiece (p, clen)).start < y.start ∧
      (toPiece (p, clen)).stop ≤ y.start := by
    intro y hy
    rw [List.head?_map] at hy
    obtain ⟨g, hg, rfl⟩ := Option.map_eq_some_iff.mp hy
    have hq : g.1 ∈ vs :=
      (List.mem_filter.mp (hg₂ ▸ List.mem_map_of_mem (List.mem_of_mem_head? hg))).1
    have hle := hbehind g.1 hq
    have hpos := h.pos hp
    simp only [toPiece]
    omega
  have hchain := Reass.chainFrag_append none true hxs hys
    (fun q hq => absurd hq (Option.not_mem_none q))
  have hps : g₁.map toPiece ++ toPiece (p, clen) :: g₂.map toPiece =
      (g₁ ++ (p, clen) :: g₂).map toPiece := by
    rw [List.map_append, List.map_cons]
  have hgot' : (g₁ ++ (p, clen) :: g₂).map Prod.fst = d.arrivedParts (A ++ [d.packet p]) := by
    rw [hboth, List.map_append, List.map_cons, hg₁, hg₂]
  have hlast' : (p.last || r.lastfrag) = true ↔
      ∃ q ∈ d.parts, q.last = true ∧ d.packet q ∈ A ++ [d.packet p] := by
    rw [Bool.or_eq_true_iff, hr.last]
    constructor
    · rintro (hpl | ⟨q, hq, hql, hin⟩)
      · exact ⟨p, hp, hpl, List.mem_append_right _ List.mem_cons_self⟩
      · exact ⟨q, hq, hql, List.mem_append_left _ hin⟩
    · rintro ⟨q, hq, hql, hin⟩
      rcases List.mem_append.mp hin with hA | hlast
      · exact .inr ⟨q, hq, hql, hA⟩
      · exact .inl (packet_inj h hq hp (List.mem_singleton.mp hlast) ▸ hql)
  have hcall : ∃ finished, Reass.chainAndValidate r (toPiece (p, clen)) p.last =
      some ((g₁ ++ (p, clen) :: g₂).map toPiece, finished) := by
    rw [Reass.chainAndValidate, hpieces, List.map_append, hchain, hps]
    exact ⟨_, rfl⟩
  obtain ⟨finished, hcall⟩ := hcall
  obtain ⟨-, -, -, -, -, -, hfinished⟩ := Reass.chainAndValidate_spec hcall
  rw [h.arrivedParts_eq hgot' hlast'] at hfinished
  have hmore : (!moreFragments ((d.packet p).take 20)) = p.last := by
    rw [moreFragments_packet h hp, Bool.not_not]
  refine ⟨_, hfinished ▸ hcall, ⟨hr.key, ⟨_, rfl, hgot'⟩, ?_, ?_⟩, ?_⟩
  · rw [Reass.withPieces, hmore, Bool.or_comm]
    exact hlast'
  · intro q hq hql hin
    have hpiece := pieceOf_packet h hp clen
    rw [Reass.pieceOf, toPiece, Piece.mk.injEq] at hpiece
    rw [Reass.withPieces, hmore, hpiece.2.1]
    cases hpl : p.last with
    | true =>
        rw [if_pos rfl]
        exact (h.last_iff hp).mp hpl
    | false =>
        rw [if_neg Bool.false_ne_true]
        refine hr.len q hq hql ?_
        rcases List.mem_append.mp hin with hA | hlast
        · exact hA
        · rw [packet_inj h hq hp (List.mem_singleton.mp hlast), hpl] at hql
          exact absurd hql Bool.false_ne_true
  · have hinsert := foldr_add_insert Piece.clen (g₁.map toPiece) (g₂.map toPiece) (toPiece (p, clen))
    rw [hps, ← List.map_append] at hinsert
    rw [Reassdata.pbufs, Reassdata.pbufs, hpieces]
    exact hinsert

theorem Holds.withHeader (h : d.WellCut) (hr : d.Holds A r) (p : Part) :
    d.Holds A (Reass.withHeader r ((d.packet p).take 20)) := by
  rw [Reass.withHeader]
  split
  · exact ⟨fragKey_packet h p, hr.got, hr.last, hr.len⟩
  · exact hr

/-- The header that is kept when a part comes. -/
theorem Headed.withHeader (h : d.WellCut) (hp : p ∈ d.parts) (hnew : d.packet p ∉ A)
    (hhead : d.Headed A r.iphdr ∨
      r.iphdr = (d.packet p).take 20 ∧ ∀ q ∈ d.parts, d.packet q ∉ A) :
    d.Headed (A ++ [d.packet p]) (Reass.withHeader r ((d.packet p).take 20)).iphdr := by
  have hoff := offsetField_packet h hp
  by_cases hzero : p.off = 0
  · -- the first fragment: its header is kept from now on
    have hiphdr : (Reass.withHeader r ((d.packet p).take 20)).iphdr = (d.packet p).take 20 := by
      rw [Reass.withHeader]
      split
      · rfl
      next hkept =>
        rcases hhead with hhead | ⟨heq, -⟩
        · have hnone : ∀ q ∈ d.parts, q.off = 0 → d.packet q ∉ A := by
            intro q hq hq0 hin
            rw [eq_of_off h hq hp (hq0.trans hzero.symm)] at hin
            exact hnew hin
          exact absurd ⟨by omega, hhead.later hnone⟩ hkept
        · exact heq
    rw [hiphdr]
    refine ⟨fun q hq hq0 _ => ?_, fun hnone => ?_⟩
    · rw [eq_of_off h hq hp (hq0.trans hzero.symm)]
    · exact absurd (List.mem_append_right _ List.mem_cons_self) (hnone p hp hzero)
  · have hiphdr : (Reass.withHeader r ((d.packet p).take 20)).iphdr = r.iphdr := by
      rw [Reass.withHeader, if_neg (fun hcond => hzero (by omega))]
    rw [hiphdr]
    have hother {q : Part} (hq : q ∈ d.parts) (hq0 : q.off = 0)
        (hin : d.packet q ∈ A ++ [d.packet p]) : d.packet q ∈ A := by
      rcases List.mem_append.mp hin with hA | hlast
      · exact hA
      · rw [packet_inj h hq hp (List.mem_singleton.mp hlast)] at hq0
        exact absurd hq0 hzero
    rcases hhead with hhead | ⟨heq, hnone⟩
    · refine ⟨fun q hq hq0 hin => hhead.first q hq hq0 (hother hq hq0 hin), fun hnone => ?_⟩
      exact hhead.later fun q hq hq0 hin => hnone q hq hq0 (List.mem_append_left _ hin)
    · refine ⟨fun q hq hq0 hin => absurd (hother hq hq0 hin) (hnone q hq), fun _ => ?_⟩
      rw [heq]
      omega

/-- A complete entry gives the packet back. -/
theorem reassembled_eq (h : d.WellCut) (hr : d.Holds A r) (hhead : d.Headed A r.iphdr)
    (hall : d.Complete A) : Reass.reassembled r = d.whole := by
  obtain ⟨bss, hcut, hne⟩ := h.cut
  obtain ⟨got, hpieces, hgot⟩ := hr.got
  have hparts : got.map Prod.fst = d.parts := by
    rw [hgot, arrivedParts, List.filter_eq_self]
    exact fun p hp => decide_eq_true (hall p hp)
  have hdata : r.pieces.flatMap Piece.data = d.payload := by
    rw [hpieces, payload, ← hparts, List.flatMap_map, List.flatMap_map]
    rfl
  have htwo := h.two
  cases bss with
  | nil =>
      rw [hcut] at htwo
      simp [cutAt] at htwo
  | cons b bss =>
      obtain ⟨p, hp, hpl⟩ := exists_last_cutAt 0 b bss
      rw [← hcut] at hp
      have hlen := hr.len p hp hpl (hall p hp)
      have hfirst : (⟨0, b, bss.isEmpty⟩ : Part) ∈ d.parts := by
        rw [hcut]
        exact List.mem_cons_self
      have hshort := h.short
      have hmod : (d.payload.length + 20) % 2 ^ 16 = d.payload.length + 20 :=
        Nat.mod_eq_of_lt (by omega)
      rw [Reass.reassembled, hdata, hlen, hmod, hhead.first _ hfirst rfl (hall _ hfirst),
        take_packet h, rewriteHeader_rewriteHeader h.length, whole]

/-- The entry of a packet of which a part is missing. -/
structure Entry (d : Sent) (A : List (List UInt8)) (r : Reassdata) : Prop where
  holds : d.Holds A r
  headed : d.Headed A r.iphdr
  missing : ¬ d.Complete A

/-- The whole effect of a part that was not there yet. -/
theorem addFragment_packet (h : d.WellCut) (hr : d.Holds A r) (hp : p ∈ d.parts)
    (hnew : d.packet p ∉ A) (hhead : d.Headed A r.iphdr ∨
      r.iphdr = (d.packet p).take 20 ∧ ∀ q ∈ d.parts, d.packet q ∉ A)
    (ds₁ ds₂ : List Reassdata) (count clen : Nat) :
    (d.Complete (A ++ [d.packet p]) ∧
      Reass.addFragment ⟨ds₁ ++ r :: ds₂, count⟩ ds₁.length clen (d.packet p) =
        some (some d.whole, ⟨ds₁ ++ ds₂, ((count + clen) % 2 ^ 16 +
          (2 ^ 16 - (r.pbufs + clen))) % 2 ^ 16⟩)) ∨
    ∃ r', d.Entry (A ++ [d.packet p]) r' ∧ r'.pbufs = r.pbufs + clen ∧
      Reass.addFragment ⟨ds₁ ++ r :: ds₂, count⟩ ds₁.length clen (d.packet p) =
        some (none, ⟨ds₁ ++ r' :: ds₂, (count + clen) % 2 ^ 16⟩) := by
  have hr' := hr.withHeader h p
  have hhead' := Headed.withHeader h hp hnew hhead
  have hcount : (Reass.withHeader r ((d.packet p).take 20)).pbufs = r.pbufs := by
    rw [Reass.withHeader]
    split <;> rfl
  rw [Reass.addFragment_eq, pieceOf_packet h hp, moreFragments_packet h hp, Bool.not_not]
  generalize Reass.withHeader r ((d.packet p).take 20) = r₁ at *
  obtain ⟨ps, hchain, hholds, hpbufs⟩ := hr'.add h hp hnew clen
  rw [hcount] at hpbufs
  have hle := h.bounds hp
  have hshort := h.short
  rw [hchain, if_neg]
  · rw [Option.bind_some]
    by_cases hall : d.Complete (A ++ [d.packet p])
    · have hone : ps.length ≠ 1 := by
        obtain ⟨got, hpieces, hgot⟩ := hholds.got
        have hlen := congrArg List.length hgot
        have hparts : d.arrivedParts (A ++ [d.packet p]) = d.parts := by
          rw [arrivedParts, List.filter_eq_self]
          exact fun q hq => decide_eq_true (hall q hq)
        have hps : ps = got.map toPiece := hpieces
        have htwo := h.two
        rw [hparts, List.length_map] at hlen
        rw [hps, List.length_map]
        omega
      refine .inl ⟨hall, ?_⟩
      dsimp only
      rw [if_pos (decide_eq_true hall), if_neg hone, hpbufs, reassembled_eq h hholds hhead' hall]
    · refine .inr ⟨_, ⟨hholds, hhead', hall⟩, hpbufs, ?_⟩
      dsimp only
      rw [if_neg (by simpa using hall)]
  · simp only [toPiece]
    omega

/-- A fragment of another packet makes no difference. -/
theorem Entry.other {x : List UInt8} (h : d.Entry A r) (hx : ∀ q ∈ d.parts, d.packet q ≠ x) :
    d.Entry (A ++ [x]) r := by
  have hin (q : Part) (hq : q ∈ d.parts) : d.packet q ∈ A ++ [x] ↔ d.packet q ∈ A := by
    simp [hx q hq]
  have hparts : d.arrivedParts (A ++ [x]) = d.arrivedParts A :=
    List.filter_congr fun q hq => decide_eq_decide.mpr (hin q hq)
  obtain ⟨⟨hkey, hgot, hlast, hlen⟩, hhead, hmissing⟩ := h
  refine ⟨⟨hkey, hparts ▸ hgot, hlast.trans ?_, fun q hq hql hqin => ?_⟩, ⟨fun q hq hq0 hqin => ?_,
    fun hnone => ?_⟩, fun hall => hmissing fun q hq => (hin q hq).mp (hall q hq)⟩
  · exact ⟨fun ⟨q, hq, hql, hqin⟩ => ⟨q, hq, hql, (hin q hq).mpr hqin⟩,
      fun ⟨q, hq, hql, hqin⟩ => ⟨q, hq, hql, (hin q hq).mp hqin⟩⟩
  · exact hlen q hq hql ((hin q hq).mp hqin)
  · exact hhead.first q hq hq0 ((hin q hq).mp hqin)
  · exact hhead.later fun q hq hq0 hqin => hnone q hq hq0 ((hin q hq).mpr hqin)

end Sent

end McuFirmware.Lwip
