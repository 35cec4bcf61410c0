/-
  McuFirmware.Lwip.ReassOrder

  Packets cut by `ip4_frag` come out of `ip4_reass` as they were, whatever the
  order in which their fragments arrive and however the fragments of several
  packets are mixed.

  The invariant ties every entry of the reassembly list to the parts of one packet
  that have arrived.
-/

import McuFirmware.Lwip.Sent

namespace McuFirmware.Lwip

open McuFirmware.Lib

-- ============================================================================
-- Mixtures
-- ============================================================================

namespace Session

variable {sent : List Sent} {w w' : Session} {d d' : Sent} {p : Part} {clen : Nat}

/-- The packets that are sent: cut as they should be, and told apart by their keys. -/
structure Traffic (sent : List Sent) : Prop where
  cut : ∀ d ∈ sent, d.WellCut
  keys : sent.Pairwise fun d d' => fragKey d.hdr ≠ fragKey d'.hdr

theorem Traffic.eq_of_key (h : Traffic sent) (hd : d ∈ sent) (hd' : d' ∈ sent)
    (hkey : fragKey d.hdr = fragKey d'.hdr) : d = d' := by
  obtain ⟨xs, ys, rfl⟩ := List.append_of_mem hd
  obtain ⟨-, hcons, hcross⟩ := List.pairwise_append.mp h.keys
  rcases List.mem_append.mp hd' with hin | hin
  · exact absurd hkey.symm (hcross d' hin d List.mem_cons_self)
  rcases List.mem_cons.mp hin with heq | hin
  · exact heq.symm
  · exact absurd hkey ((List.pairwise_cons.mp hcons).1 d' hin)

theorem Traffic.packet_ne (h : Traffic sent) (hd : d ∈ sent) (hd' : d' ∈ sent) (hne : d' ≠ d)
    (p q : Part) : d'.packet q ≠ d.packet p := by
  intro heq
  have hkey : fragKey d'.hdr = fragKey d.hdr := by
    rw [← Sent.fragKey_packet (h.cut d' hd') q, ← Sent.fragKey_packet (h.cut d hd) p, heq]
  exact hne (h.eq_of_key hd' hd hkey)

theorem Traffic.whole_inj (h : Traffic sent) (hd : d ∈ sent) (hd' : d' ∈ sent)
    (heq : d.whole = d'.whole) : d = d' := by
  have htake {e : Sent} (he : e ∈ sent) : fragKey (e.whole.take 20) = fragKey e.hdr := by
    have hlen := (h.cut e he).length
    rw [Sent.whole, List.take_left' (length_rewriteHeader hlen), fragKey_rewriteHeader hlen]
  exact h.eq_of_key hd hd' (by rw [← htake hd, ← htake hd', heq])

/-- The pbufs of all the datagrams. -/
def queuedPbufs (ds : List Reassdata) : Nat := ds.foldr (fun r n => r.pbufs + n) 0

/-- The list holds the packets of which some parts have arrived and some have not;
    the others have been returned. -/
structure Mixed (sent : List Sent) (w : Session) : Prop where
  entries : ∀ r ∈ w.reass.datagrams, ∃ d ∈ sent, d.Entry w.arrived r
  keys : w.reass.datagrams.Pairwise fun r r' => fragKey r.iphdr ≠ fragKey r'.iphdr
  covered : ∀ d ∈ sent, (∃ p ∈ d.parts, d.packet p ∈ w.arrived) → ¬ d.Complete w.arrived →
    ∃ r ∈ w.reass.datagrams, fragKey r.iphdr = fragKey d.hdr
  out : ∀ x, x ∈ w.out ↔ ∃ d ∈ sent, x = d.whole ∧ d.Complete w.arrived
  nodup : w.out.Nodup
  count : w.reass.pbufcount = queuedPbufs w.reass.datagrams

/-- A part of a sent packet that has not come yet, with room for its pbufs and its
    datagram; or a tick before which no datagram is out of time. -/
def Fair (sent : List Sent) (w : Session) : ReassEvent → Prop
  | .fragment clen packet =>
      (∃ d ∈ sent, ∃ p ∈ d.parts, packet = d.packet p) ∧ packet ∉ w.arrived ∧
        w.reass.pbufcount + clen ≤ ipReassMaxPbufs ∧
        ((∃ r ∈ w.reass.datagrams, fragKey r.iphdr = fragKey (packet.take 20)) ∨
          w.reass.datagrams.length < mempNumReassdata)
  | .tmr => ∀ r ∈ w.reass.datagrams, 0 < r.timer

/-- The datagrams behind a part of `d`, if their state before was that of `Mixed`
    but for the entry of `d`. -/
theorem Traffic.completed_iff (h : Traffic sent) (hd : d ∈ sent) (hd' : d' ∈ sent) (hne : d' ≠ d)
    (A : List (List UInt8)) (p : Part) : d'.Complete (A ++ [d.packet p]) ↔ d'.Complete A := by
  have hother := h.packet_ne hd hd' hne p
  constructor
  · intro hall q hq
    rcases List.mem_append.mp (hall q hq) with hin | hin
    · exact hin
    · exact absurd (List.mem_singleton.mp hin) (hother q)
  · exact fun hall q hq => List.mem_append_left _ (hall q hq)

/-- One more part: the datagram between `ds₁` and `ds₂` is that of `d`, new or not,
    and the others are as in `Mixed`. -/
theorem add_mixed {ds₁ ds₂ : List Reassdata} {r : Reassdata} {count : Nat}
    {A outs : List (List UInt8)} (ht : Traffic sent) (hd : d ∈ sent) (hp : p ∈ d.parts)
    (hnew : d.packet p ∉ A) (hr : d.Holds A r) (hhead : d.Headed A r.iphdr ∨
      r.iphdr = (d.packet p).take 20 ∧ ∀ q ∈ d.parts, d.packet q ∉ A)
    (hothers : ∀ r' ∈ ds₁ ++ ds₂, ∃ d' ∈ sent, d' ≠ d ∧ d'.Entry A r')
    (hkeys : (ds₁ ++ ds₂).Pairwise fun r r' => fragKey r.iphdr ≠ fragKey r'.iphdr)
    (hcovered : ∀ d' ∈ sent, d' ≠ d → (∃ p ∈ d'.parts, d'.packet p ∈ A) → ¬ d'.Complete A →
      ∃ r ∈ ds₁ ++ ds₂, fragKey r.iphdr = fragKey d'.hdr)
    (hout : ∀ x, x ∈ outs ↔ ∃ d ∈ sent, x = d.whole ∧ d.Complete A) (hnodup : outs.Nodup)
    (hcount : count = queuedPbufs (ds₁ ++ ds₂) + r.pbufs) (hroom : count + clen ≤ ipReassMaxPbufs) :
    ∃ out s, Reass.addFragment ⟨ds₁ ++ r :: ds₂, count⟩ ds₁.length clen (d.packet p) =
        some (out, s) ∧
      Mixed sent ⟨s, A ++ [d.packet p], outs ++ out.toList⟩ := by
  have hmax : ipReassMaxPbufs = 10 := rfl
  have hmod : (count + clen) % 2 ^ 16 = count + clen := Nat.mod_eq_of_lt (by omega)
  -- the entries of the other packets stay
  have hstay : ∀ r' ∈ ds₁ ++ ds₂, ∃ d' ∈ sent, d' ≠ d ∧ d'.Entry (A ++ [d.packet p]) r' := by
    intro r' hr'
    obtain ⟨d', hd', hne, hentry⟩ := hothers r' hr'
    exact ⟨d', hd', hne, hentry.other fun q _ => ht.packet_ne hd hd' hne p q⟩
  have hcover : ∀ d' ∈ sent, d' ≠ d → (∃ q ∈ d'.parts, d'.packet q ∈ A ++ [d.packet p]) →
      ¬ d'.Complete (A ++ [d.packet p]) → ∃ r ∈ ds₁ ++ ds₂, fragKey r.iphdr = fragKey d'.hdr := by
    intro d' hd' hne ⟨q, hq, hin⟩ hmissing
    rw [ht.completed_iff hd hd' hne] at hmissing
    refine hcovered d' hd' hne ⟨q, hq, ?_⟩ hmissing
    rcases List.mem_append.mp hin with hA | hlast
    · exact hA
    · exact absurd (List.mem_singleton.mp hlast) (ht.packet_ne hd hd' hne p q)
  have hbefore : ¬ d.Complete A := fun hall => hnew (hall p hp)
  rcases Sent.addFragment_packet (ht.cut d hd) hr hp hnew hhead ds₁ ds₂ count clen with
    ⟨hall, hcall⟩ | ⟨r', hentry, hpbufs, hcall⟩
  · refine ⟨_, _, hcall, ?_, hkeys, ?_, ?_, ?_, ?_⟩
    · intro r' hr'
      obtain ⟨d', hd', -, hentry⟩ := hstay r' hr'
      exact ⟨d', hd', hentry⟩
    · intro d' hd' hsome hmissing
      by_cases hne : d' = d
      · exact absurd (hne ▸ hall) hmissing
      · exact hcover d' hd' hne hsome hmissing
    · intro x
      rw [Option.toList_some, List.mem_append, List.mem_singleton, hout]
      constructor
      · rintro (⟨d', hd', rfl, hcomplete⟩ | rfl)
        · exact ⟨d', hd', rfl, fun q hq => List.mem_append_left _ (hcomplete q hq)⟩
        · exact ⟨d, hd, rfl, hall⟩
      · rintro ⟨d', hd', rfl, hcomplete⟩
        by_cases hne : d' = d
        · exact .inr (by rw [hne])
        · exact .inl ⟨d', hd', rfl, (ht.completed_iff hd hd' hne A p).mp hcomplete⟩
    · rw [Option.toList_some, List.nodup_append]
      refine ⟨hnodup, List.nodup_singleton _, fun x hx y hy heq => ?_⟩
      obtain ⟨d', hd', rfl, hcomplete⟩ := (hout x).mp hx
      rw [List.mem_singleton] at hy
      obtain rfl := ht.whole_inj hd' hd (heq.trans hy)
      exact hbefore hcomplete
    · dsimp only
      rw [hmod]
      omega
  · have hmem (q : Reassdata) : q ∈ ds₁ ++ r' :: ds₂ ↔ q = r' ∨ q ∈ ds₁ ++ ds₂ := by
      rw [List.perm_middle.mem_iff, List.mem_cons]
    refine ⟨_, _, hcall, ?_, ?_, ?_, ?_, ?_, ?_⟩
    · intro q hq
      rcases (hmem q).mp hq with rfl | hin
      · exact ⟨d, hd, hentry⟩
      · obtain ⟨d', hd', -, hentry'⟩ := hstay q hin
        exact ⟨d', hd', hentry'⟩
    · have hdiffer : ∀ q ∈ ds₁ ++ ds₂, fragKey r'.iphdr ≠ fragKey q.iphdr := by
        intro q hq heq
        obtain ⟨d', hd', hne, hentry'⟩ := hstay q hq
        rw [hentry.holds.key, hentry'.holds.key] at heq
        exact hne (ht.eq_of_key hd' hd heq.symm)
      exact (List.perm_middle.pairwise_iff fun hab => hab.symm).mpr
        (List.pairwise_cons.mpr ⟨hdiffer, hkeys⟩)
    · intro d' hd' hsome hmissing
      by_cases hne : d' = d
      · exact ⟨r', (hmem r').mpr (.inl rfl), by rw [hentry.holds.key, hne]⟩
      · obtain ⟨q, hq, hkey⟩ := hcover d' hd' hne hsome hmissing
        exact ⟨q, (hmem q).mpr (.inr hq), hkey⟩
    · intro x
      rw [Option.toList_none, List.append_nil, hout]
      refine exists_congr fun d' => and_congr_right fun hd' => and_congr_right fun _ => ?_
      by_cases hne : d' = d
      · rw [hne]
        exact iff_of_false hbefore hentry.missing
      · exact (ht.completed_iff hd hd' hne A p).symm
    · rw [Option.toList_none, List.append_nil]
      exact hnodup
    · have hsum := foldr_add_insert Reassdata.pbufs ds₁ ds₂ r'
      rw [queuedPbufs] at hcount ⊢
      dsimp only
      omega

/-- The datagram after a tick. -/
def aged (r : Reassdata) : Reassdata := { r with timer := r.timer - 1 }

theorem tmrLoop_eq {rs : List Reassdata} (h : ∀ r ∈ rs, 0 < r.timer) (count : Nat) :
    Reass.tmrLoop rs count = some (rs.map aged, count) := by
  induction rs with
  | nil => rfl
  | cons r rs ih =>
      obtain ⟨hr, hrs⟩ := List.forall_mem_cons.mp h
      rw [Reass.tmrLoop, if_pos hr, ih hrs]
      rfl

/-- A fair step goes through and keeps the list in order. -/
theorem step_mixed {e : ReassEvent} (ht : Traffic sent) (hmix : Mixed sent w)
    (hfair : w.Fair sent e) : ∃ w', w.step e = some w' ∧ Mixed sent w' := by
  obtain ⟨⟨ds, count⟩, A, outs⟩ := w
  cases e with
  | tmr =>
      refine ⟨⟨⟨ds.map aged, count⟩, A, outs⟩, ?_, ?_, ?_, ?_, hmix.out, hmix.nodup, ?_⟩
      · rw [step, Reass.ipReassTmr, tmrLoop_eq hfair]
        rfl
      · intro r hr
        obtain ⟨r₀, hr₀, rfl⟩ := List.mem_map.mp hr
        obtain ⟨d, hd, hentry⟩ := hmix.entries r₀ hr₀
        obtain ⟨⟨hkey, hgot, hlast, hlen⟩, hhead, hmissing⟩ := hentry
        exact ⟨d, hd, ⟨hkey, hgot, hlast, hlen⟩, hhead, hmissing⟩
      · exact List.pairwise_map.mpr hmix.keys
      · intro d hd hsome hmissing
        obtain ⟨r, hr, hkey⟩ := hmix.covered d hd hsome hmissing
        exact ⟨aged r, List.mem_map_of_mem hr, hkey⟩
      · dsimp only
        rw [queuedPbufs, List.foldr_map]
        exact hmix.count
  | fragment clen packet =>
      obtain ⟨⟨d, hd, p, hp, rfl⟩, hnew, hroom, hplace⟩ := hfair
      dsimp only at hnew hroom hplace
      have hcut := ht.cut d hd
      have hkey := Sent.fragKey_packet hcut p
      have hmissing : ¬ d.Complete A := fun hall => hnew (hall p hp)
      suffices hcall : ∃ out s, Reass.enqueueFragment ⟨ds, count⟩ clen (d.packet p) = some (out, s) ∧
          Mixed sent ⟨s, A ++ [d.packet p], outs ++ out.toList⟩ by
        obtain ⟨out, s, hcall, hmix'⟩ := hcall
        refine ⟨_, ?_, hmix'⟩
        have hreass : Reass.ip4Reass ⟨ds, count⟩ clen (d.packet p) = some (out, s) := by
          rw [Reass.ip4Reass, if_neg (by rw [Sent.headerLen_packet hcut]; decide),
            if_neg (Nat.not_lt.mpr hroom), hcall]
        rw [step]
        dsimp only
        rw [hreass]
        rfl
      cases hfind : Reass.findDatagram ⟨ds, count⟩ ((d.packet p).take 20) with
      | some i =>
          obtain ⟨ds₁, r, ds₂, hds, rfl, hrkey⟩ := Reass.findDatagram_eq_some hfind
          obtain rfl : ds = ds₁ ++ r :: ds₂ := hds
          have hin : r ∈ ds₁ ++ r :: ds₂ := List.mem_append_right _ List.mem_cons_self
          obtain ⟨d', hd', hentry⟩ := hmix.entries r hin
          obtain rfl := ht.eq_of_key hd' hd (hentry.holds.key.symm.trans (hrkey.trans hkey))
          have hkeys := List.perm_middle.pairwise_iff (fun hab => hab.symm) |>.mp hmix.keys
          obtain ⟨hdiffer, hkeys⟩ := List.pairwise_cons.mp hkeys
          rw [Reass.enqueueFragment, hfind]
          refine add_mixed ht hd hp hnew hentry.holds (.inl hentry.headed) ?_ hkeys ?_ hmix.out
            hmix.nodup ?_ hroom
          · intro q hq
            obtain ⟨e, he, hentry'⟩ := hmix.entries q (List.perm_middle.mem_iff.mpr
              (List.mem_cons_of_mem _ hq))
            refine ⟨e, he, fun heq => hdiffer q hq ?_, hentry'⟩
            rw [hentry.holds.key, hentry'.holds.key, heq]
          · intro e he hne hsome hmissing'
            obtain ⟨q, hq, hqkey⟩ := hmix.covered e he hsome hmissing'
            rcases List.mem_cons.mp (List.perm_middle.mem_iff.mp hq) with rfl | hrest
            · exact absurd (ht.eq_of_key he hd (hqkey.symm.trans hentry.holds.key)) hne
            · exact ⟨q, hrest, hqkey⟩
          · exact hmix.count.trans (foldr_add_insert Reassdata.pbufs ds₁ ds₂ r)
      | none =>
          have hfree := Reass.findDatagram_eq_none hfind
          have hspace : ds.length < mempNumReassdata := by
            refine hplace.resolve_left ?_
            rintro ⟨r, hr, heq⟩
            exact hfree r hr heq
          -- nothing of this packet has arrived
          have hnone : ∀ q ∈ d.parts, d.packet q ∉ A := by
            intro q hq hqin
            obtain ⟨r, hr, heq⟩ := hmix.covered d hd ⟨q, hq, hqin⟩ hmissing
            exact hfree r hr (heq.trans hkey.symm)
          have hnothing : d.arrivedParts A = [] :=
            List.filter_eq_nil_iff.mpr fun q hq => by simpa using hnone q hq
          have hholds : d.Holds A ⟨(d.packet p).take 20, [], false, 0, ipReassMaxage⟩ := by
            refine ⟨hkey, ⟨[], rfl, hnothing.symm⟩, iff_of_false Bool.false_ne_true ?_,
              fun q hq _ hqin => absurd hqin (hnone q hq)⟩
            rintro ⟨q, hq, -, hqin⟩
            exact hnone q hq hqin
          rw [Reass.enqueueFragment, hfind, Reass.enqueueNewDatagram, if_pos hspace]
          refine @add_mixed _ _ _ _ [] ds _ _ _ _ ht hd hp hnew hholds (.inr ⟨rfl, hnone⟩) ?_ hmix.keys ?_
            hmix.out hmix.nodup hmix.count hroom
          · intro q hq
            obtain ⟨e, he, hentry⟩ := hmix.entries q hq
            refine ⟨e, he, fun heq => hfree q hq ?_, hentry⟩
            rw [hentry.holds.key, heq, hkey]
          · exact fun e he _ hsome hmissing' => hmix.covered e he hsome hmissing'

theorem start_mixed (hne : ∀ d ∈ sent, d.parts ≠ []) : Mixed sent start := by
  refine ⟨fun r hr => absurd hr List.not_mem_nil, List.Pairwise.nil, ?_, ?_, List.nodup_nil, rfl⟩
  · rintro d - ⟨p, -, hp⟩
    exact absurd hp List.not_mem_nil
  · intro x
    refine iff_of_false List.not_mem_nil ?_
    rintro ⟨d, hd, -, hall⟩
    obtain ⟨p, hp⟩ := List.exists_mem_of_ne_nil _ (hne d hd)
    exact List.not_mem_nil (hall p hp)

end Session

-- ============================================================================
-- From `ip4_frag` to `ip4_reass`
-- ============================================================================

/-- The fragments that `ip4_frag` sends of a packet. -/
def fragmentsOf (chain : List Seg) : List (List UInt8) := (ip4Frag 1500 chain).getD []

/-- A packet as `ip4_frag` cuts it. -/
def sentOf (packet : List UInt8) : Sent := ⟨packet.take 20, partsOf packet⟩

section Sending

variable {packet x : List UInt8} {chain : List Seg}

theorem length_cutAt (off : Nat) (bss : List (List UInt8)) : (cutAt off bss).length = bss.length := by
  induction bss generalizing off with
  | nil => rfl
  | cons b bss ih => rw [cutAt, List.length_cons, ih, List.length_cons]

theorem two_le_length_chunks {n fuel : Nat} {bs : List UInt8} (hn : 0 < n) (hlong : n < bs.length)
    (hfuel : bs.length ≤ fuel) : 2 ≤ (chunks n fuel bs).length := by
  cases fuel with
  | zero => omega
  | succ fuel =>
      have hrest := isEmpty_chunks (n := n) (by rw [List.length_drop]; omega :
        (bs.drop n).length ≤ fuel)
      rw [List.length_drop, decide_eq_false (by omega), List.isEmpty_eq_false_iff] at hrest
      have hpos := List.length_pos_iff.mpr hrest
      rw [chunks, if_neg (by omega), List.length_cons]
      omega

theorem payload_sentOf (packet : List UInt8) : (sentOf packet).payload = packet.drop 20 := by
  rw [sentOf, Sent.payload, partsOf, flatMap_bytes_cutAt,
    flatten_chunks (by decide) (Nat.le_of_eq List.length_drop)]

theorem Oversized.wellCut (h : Oversized packet) : (sentOf packet).WellCut := by
  have hlong := h.long
  have hshort := h.short
  refine ⟨?_, (headerLen_take packet).trans h.header, ⟨_, rfl, ne_nil_of_mem_chunks (by decide)⟩,
    fun p hp => ?_, ?_, ?_⟩
  · rw [sentOf, List.length_take]
    omega
  · have hmod := off_mod_of_mem_cutAt_chunks (Nat.zero_mod 1480) hp
    omega
  · rw [payload_sentOf, List.length_drop]
    omega
  · rw [sentOf, partsOf, length_cutAt]
    exact two_le_length_chunks (by decide) (by rw [List.length_drop]; omega)
      (Nat.le_of_eq List.length_drop)

theorem whole_sentOf (h : Oversized packet) : (sentOf packet).whole = packet := by
  have hlong := h.long
  have hlen : (packet.drop 20).length + 20 = packet.length := by
    rw [List.length_drop]
    omega
  rw [Sent.whole, payload_sentOf, hlen, sentOf, h.summed, List.take_append_drop]

/-- The header of `ip4_output`, with the checksum it sums up itself, is the one that
    `inet_chksum` gives. -/
theorem rewriteHeader_ip4Header {tos ttl proto src dest : Nat} (id len : Nat) (htos : tos < 256)
    (httl : ttl < 256) (hproto : proto < 256) (hsrc : src < 2 ^ 32) (hdest : dest < 2 ^ 32) :
    rewriteHeader (ip4Header tos len id ttl proto (ip4ChkSum tos len id ttl proto src dest) src dest)
        len 0 =
      ip4Header tos len id ttl proto (ip4ChkSum tos len id ttl proto src dest) src dest := by
  have hwhole (c c' : Nat) : setBytes (setBytes (setBytes
      (ip4Header tos len id ttl proto c src dest) 6 (le16 (swap16 0))) 2 (le16 (swap16 len))) 10
        (le16 c') = ip4Header tos len id ttl proto c' src dest := rfl
  have hchk : inetChksum 0 (ip4Header tos len id ttl proto 0 src dest) =
      ip4ChkSum tos len id ttl proto src dest := by
    obtain ⟨hsum, hlt⟩ := chksum_spec 0
      (show (ip4Header tos len id ttl proto 0 src dest).length ≤ 65535 by
        rw [length_ip4Header]; decide)
    obtain ⟨sum, hsumlt, hcall, hfields⟩ := ip4ChkSum_spec tos len id ttl proto hsrc hdest
    have hblank := leNat_ip4Header len id htos httl hproto (show 0 < 65536 by decide) hsrc hdest
    rw [Nat.add_zero] at hblank
    have heq := (hsum.trans (hblank.trans hfields.symm)).eq_of_lt hlt hsumlt
    rw [inetChksum, hcall, heq]
  rw [rewriteHeader, resum, ← hchk]
  exact hwhole _ _

/-- The packets that `ip4_output` passes to `ip4_frag`. -/
theorem oversized_ip4Packet {tos ttl proto src dest : Nat} (id : Nat) (htos : tos < 256)
    (httl : ttl < 256) (hproto : proto < 256) (hsrc : src < 2 ^ 32) (hdest : dest < 2 ^ 32)
    (hlong : 1480 < (chainBytes chain).length) (hshort : (chainBytes chain).length ≤ 65515) :
    Oversized (chainBytes (ip4Packet chain tos id ttl proto src dest)) := by
  rw [chainBytes_ip4Packet (by omega)]
  generalize hchk : ip4ChkSum tos (20 + (chainBytes chain).length) id ttl proto src dest = chksum
  have hsummed := rewriteHeader_ip4Header id (20 + (chainBytes chain).length) htos httl hproto
    hsrc hdest
  rw [hchk] at hsummed
  generalize hpkt : ip4Header tos (20 + (chainBytes chain).length) id ttl proto chksum src dest ++
    chainBytes chain = packet
  have hlen : packet.length = 20 + (chainBytes chain).length := by
    rw [← hpkt, List.length_append, length_ip4Header]
  have hfirst : byteAt packet (fun _ => 0) 0 = 0x45 := by
    rw [← hpkt]
    rfl
  have hflags : netWord packet (fun _ => 0) 6 = 0 := by
    rw [← hpkt]
    rfl
  refine ⟨by omega, by omega, by rw [headerLen, hfirst], hflags, ?_⟩
  rw [hlen, ← hpkt, List.take_left' (length_ip4Header ..)]
  exact hsummed

/-- The header is whole in the first pbuf. -/
theorem stands_ip4Packet (chain : List Seg) (tos id ttl proto src dest : Nat) :
    Stands 20 (ip4Packet chain tos id ttl proto src dest) := by
  intro q hq
  cases chain with
  | nil =>
      rw [← Option.mem_some_iff.mp hq]
      exact Nat.le_refl 20
  | cons q' qs =>
      rw [← Option.mem_some_iff.mp hq, List.length_append, length_ip4Header]
      omega

/-- **What `ip4_output` sends above the MTU**: the fragments of its packet. -/
theorem ip4Output_eq_fragments {tos id ttl proto src dest : Nat} (htos : tos < 256)
    (httl : ttl < 256) (hproto : proto < 256) (hsrc : src < 2 ^ 32) (hdest : dest < 2 ^ 32)
    (hlong : 1480 < (chainBytes chain).length) (hshort : (chainBytes chain).length ≤ 65515) :
    ip4Output 1500 chain tos id ttl proto src dest =
      some (fragmentsOf (ip4Packet chain tos id ttl proto src dest)) := by
  have hover := oversized_ip4Packet id htos httl hproto hsrc hdest hlong hshort
  have hstands := stands_ip4Packet chain tos id ttl proto src dest
  have hbig := hover.long
  have hsmall := hover.short
  rw [ip4Output, if_pos (by omega), fragmentsOf, ip4Frag_eq hover hstands, Option.getD_some]

theorem mem_fragmentsOf (h : Oversized (chainBytes chain)) (hfirst : Stands 20 chain) :
    x ∈ fragmentsOf chain ↔
      ∃ p ∈ (sentOf (chainBytes chain)).parts, x = (sentOf (chainBytes chain)).packet p := by
  rw [fragmentsOf, ip4Frag_eq h hfirst, Option.getD_some, List.mem_map]
  simp only [sentOf, Sent.packet, eq_comm]

end Sending

namespace Session

/-- The network: fragments of the packets sent, in any order and mixture, none of
    them twice; no more of them at a time than `ip4_reass` has room for, and none
    so late that its datagram has timed out. -/
def Delivers (chains : List (List Seg)) (o : Option Session) : ReassEvent → Prop
  | .fragment clen packet => ∀ w ∈ o, (∃ c ∈ chains, packet ∈ fragmentsOf c) ∧ packet ∉ w.arrived ∧
      w.reass.pbufcount + clen ≤ ipReassMaxPbufs ∧
      ((∃ r ∈ w.reass.datagrams, fragKey r.iphdr = fragKey (packet.take 20)) ∨
        w.reass.datagrams.length < mempNumReassdata)
  | .tmr => ∀ w ∈ o, ∀ r ∈ w.reass.datagrams, 0 < r.timer

instance (chains : List (List Seg)) : DecidableRel (Delivers chains)
  | o, .fragment clen packet => inferInstanceAs (Decidable (∀ w ∈ o,
      (∃ c ∈ chains, packet ∈ fragmentsOf c) ∧ packet ∉ w.arrived ∧
      w.reass.pbufcount + clen ≤ ipReassMaxPbufs ∧
      ((∃ r ∈ w.reass.datagrams, fragKey r.iphdr = fragKey (packet.take 20)) ∨
        w.reass.datagrams.length < mempNumReassdata)))
  | o, .tmr => inferInstanceAs (Decidable (∀ w ∈ o, ∀ r ∈ w.reass.datagrams, 0 < r.timer))

/-- A packet of `ip4_output` with `n` bytes behind its header, in one pbuf. -/
def samplePacket (n id : Nat) : List Seg :=
  ip4Packet [⟨20, List.replicate n 7⟩] 0 id 255 17 0x0200A8C0 0x0A00A8C0

theorem standing_samplePacket {n id : Nat} (hlong : 1480 < n) (hshort : n ≤ 65515) :
    Oversized (chainBytes (samplePacket n id)) ∧ Stands 20 (samplePacket n id) := by
  have hlen : (chainBytes [⟨20, List.replicate n 7⟩]).length = n := by
    rw [chainBytes_cons, chainBytes, List.map_nil, List.flatten_nil, List.append_nil,
      List.length_replicate]
  exact ⟨oversized_ip4Packet id (by decide) (by decide) (by decide) (by decide) (by decide)
    (by omega) (by omega), stands_ip4Packet _ _ _ _ _ _ _⟩

end Session

end McuFirmware.Lwip
