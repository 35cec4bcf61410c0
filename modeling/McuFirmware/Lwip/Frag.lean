/-
  McuFirmware.Lwip.Frag

  IP fragments (`core/ipv4/ip4_frag.c`): what `ip4_frag` sends of a packet that is
  longer than the MTU, and how `ip4_reass` puts fragments together again, in
  whatever order they arrive and mixed with those of other packets.

  The result `none` stands for the end of the firmware: an assertion that fails,
  a null pointer that is read, or a pbuf that is freed twice (whose reference
  count is zero then, which `pbuf_free` asserts it is not).  Checksums of headers
  are taken at an even address, which makes no difference to them.
-/

import McuFirmware.Lwip.Datagram

namespace McuFirmware.Lwip

open McuFirmware.Lib

-- ============================================================================
-- Header fields
-- ============================================================================

/-- What `IP_ADDRESSES_AND_ID_MATCH` compares. -/
def fragKey (h : List UInt8) : Nat × Nat × Nat :=
  (addrAt h (fun _ => 0) 12, addrAt h (fun _ => 0) 16, netWord h (fun _ => 0) 4)

/-- `lwip_ntohs(IPH_LEN(fraghdr)) - IPH_HL(fraghdr) * 4`. -/
def fragLen (h : List UInt8) : Nat := (netWord h (fun _ => 0) 2 + (2 ^ 16 - headerLen h)) % 2 ^ 16

section Fields

variable {h bs : List UInt8} {i j len off : Nat}

theorem length_setBytes (hle : i + bs.length ≤ h.length) : (setBytes h i bs).length = h.length := by
  simp only [setBytes, List.length_append, List.length_take, List.length_drop]
  omega

/-- The bytes of the field are the new ones, the others as before. -/
theorem getD_setBytes (hle : i + bs.length ≤ h.length) (z : UInt8) :
    (setBytes h i bs).getD j z =
      if i ≤ j ∧ j < i + bs.length then bs.getD (j - i) z else h.getD j z := by
  have htake : (h.take i).length = i := by
    rw [List.length_take]
    omega
  simp only [setBytes, List.getD_eq_getElem?_getD, List.append_assoc, List.getElem?_append, htake]
  by_cases hlow : j < i
  · rw [if_pos hlow, List.getElem?_take_of_lt hlow, if_neg (by omega)]
  rw [if_neg hlow]
  by_cases hfield : j - i < bs.length
  · rw [if_pos hfield, if_pos (by omega)]
  · rw [if_neg hfield, if_neg (by omega), List.getElem?_drop]
    congr 3
    omega

/-- A word of the header is overwritten. -/
theorem getD_setWord (hh : h.length = 20) (hi : i ≤ 18) (hbs : bs.length = 2) :
    (setBytes h i bs).getD j 0 = if i ≤ j ∧ j < i + 2 then bs.getD (j - i) 0 else h.getD j 0 := by
  rw [getD_setBytes (by omega), hbs]

theorem length_setWord (hh : h.length = 20) (hi : i ≤ 18) (hbs : bs.length = 2) :
    (setBytes h i bs).length = 20 := by
  rw [length_setBytes (by omega), hh]

/-- The header whose checksum is taken. -/
def blankHeader (h : List UInt8) (len off : Nat) : List UInt8 :=
  setBytes (setBytes (setBytes h 6 (le16 (swap16 off))) 2 (le16 (swap16 len))) 10 [0, 0]

theorem length_unsummed (hh : h.length = 20) :
    (setBytes (setBytes h 6 (le16 (swap16 off))) 2 (le16 (swap16 len))).length = 20 :=
  length_setWord (length_setWord hh (by decide) rfl) (by decide) rfl

theorem length_rewriteHeader (hh : h.length = 20) : (rewriteHeader h len off).length = 20 :=
  length_setWord (length_unsummed hh) (by decide) rfl

/-- Each byte of the blank header. -/
theorem getD_blankHeader (hh : h.length = 20) (j : Nat) :
    (blankHeader h len off).getD j 0 =
      if 10 ≤ j ∧ j < 10 + 2 then [(0 : UInt8), 0].getD (j - 10) 0
      else if 2 ≤ j ∧ j < 2 + 2 then (le16 (swap16 len)).getD (j - 2) 0
      else if 6 ≤ j ∧ j < 6 + 2 then (le16 (swap16 off)).getD (j - 6) 0
      else h.getD j 0 := by
  rw [blankHeader, getD_setWord (length_unsummed hh) (by decide) rfl,
    getD_setWord (length_setWord hh (by decide) rfl) (by decide) rfl,
    getD_setWord hh (by decide) rfl]

/-- Each byte of the rewritten header. -/
theorem getD_rewriteHeader (hh : h.length = 20) (j : Nat) :
    (rewriteHeader h len off).getD j 0 =
      if 10 ≤ j ∧ j < 10 + 2 then (le16 (inetChksum 0 (blankHeader h len off))).getD (j - 10) 0
      else if 2 ≤ j ∧ j < 2 + 2 then (le16 (swap16 len)).getD (j - 2) 0
      else if 6 ≤ j ∧ j < 6 + 2 then (le16 (swap16 off)).getD (j - 6) 0
      else h.getD j 0 := by
  rw [rewriteHeader, resum, getD_setWord (length_unsummed hh) (by decide) rfl,
    getD_setWord (length_setWord hh (by decide) rfl) (by decide) rfl,
    getD_setWord hh (by decide) rfl, blankHeader]

/-- The bytes that are not rewritten. -/
theorem byteAt_rewriteHeader (hh : h.length = 20)
    (hj : j < 2 ∨ j = 4 ∨ j = 5 ∨ j = 8 ∨ j = 9 ∨ 12 ≤ j) :
    byteAt (rewriteHeader h len off) (fun _ => 0) j = byteAt h (fun _ => 0) j := by
  rw [byteAt, getD_rewriteHeader hh, if_neg (by omega), if_neg (by omega), if_neg (by omega), byteAt]

theorem netWord_len_rewriteHeader (hh : h.length = 20) (hlen : len < 65536) :
    netWord (rewriteHeader h len off) (fun _ => 0) 2 = len := by
  rw [netWord, byteAt, byteAt, getD_rewriteHeader hh, getD_rewriteHeader hh]
  exact toNat_swap16 hlen

theorem netWord_off_rewriteHeader (hh : h.length = 20) (hoff : off < 65536) :
    netWord (rewriteHeader h len off) (fun _ => 0) 6 = off := by
  rw [netWord, byteAt, byteAt, getD_rewriteHeader hh, getD_rewriteHeader hh]
  exact toNat_swap16 hoff

theorem headerLen_rewriteHeader (hh : h.length = 20) :
    headerLen (rewriteHeader h len off) = headerLen h := by
  rw [headerLen, byteAt_rewriteHeader hh (.inl (by decide)), headerLen]

/-- The addresses and the identification stay. -/
theorem fragKey_rewriteHeader (hh : h.length = 20) :
    fragKey (rewriteHeader h len off) = fragKey h := by
  simp only [fragKey, addrAt, netWord]
  simp (disch := omega) only [byteAt_rewriteHeader hh]

theorem ext_getD {h' : List UInt8} (hlen : h.length = h'.length)
    (hget : ∀ j, h.getD j 0 = h'.getD j 0) : h = h' := by
  apply List.ext_getElem hlen
  intro j hj hj'
  have heq := hget j
  rwa [List.getD_eq_getElem?_getD, List.getD_eq_getElem?_getD, List.getElem?_eq_getElem hj,
    List.getElem?_eq_getElem hj'] at heq

/-- Length and offset are set anew, whatever they were. -/
theorem rewriteHeader_rewriteHeader {len' off' : Nat} (hh : h.length = 20) :
    rewriteHeader (rewriteHeader h len' off') len off = rewriteHeader h len off := by
  have hh' : (rewriteHeader h len' off').length = 20 := length_rewriteHeader hh
  have hblank : blankHeader (rewriteHeader h len' off') len off = blankHeader h len off := by
    apply ext_getD
    · rw [blankHeader, blankHeader, length_setWord (length_unsummed hh') (by decide) rfl,
        length_setWord (length_unsummed hh) (by decide) rfl]
    · intro j
      rw [getD_blankHeader hh', getD_blankHeader hh, getD_rewriteHeader hh]
      split_ifs <;> rfl
  apply ext_getD
  · rw [length_rewriteHeader hh', length_rewriteHeader hh]
  · intro j
    rw [getD_rewriteHeader hh', getD_rewriteHeader hh, getD_rewriteHeader hh, hblank]
    split_ifs <;> rfl

end Fields

-- ============================================================================
-- Cutting
-- ============================================================================

/-- A fragment of a packet as it is cut: where its bytes lie, and whether they are
    the last ones. -/
structure Part where
  off : Nat
  bytes : List UInt8
  last : Bool
deriving DecidableEq

/-- Consecutive parts from an offset on. -/
def cutAt (off : Nat) : List (List UInt8) → List Part
  | [] => []
  | b :: bs => ⟨off, b, bs.isEmpty⟩ :: cutAt (off + b.length) bs

/-- Chunks of `n` bytes, the last one shorter. -/
def chunks (n : Nat) : Nat → List UInt8 → List (List UInt8)
  | 0, _ => []
  | fuel + 1, bs => if bs.length = 0 then [] else bs.take n :: chunks n fuel (bs.drop n)

/-- The fragment with these bytes. -/
def fragPacket (hdr : List UInt8) (p : Part) : List UInt8 :=
  rewriteHeader hdr (p.bytes.length + 20) (p.off / 8 + if p.last then 0 else 0x2000) ++ p.bytes

section Cutting

variable {chain : List Seg} {left poff mtu fuel ofo : Nat} {hdr : List UInt8}

/-- The chain is done up to `poff` in its first pbuf. -/
def Stands (poff : Nat) (chain : List Seg) : Prop := ∀ q ∈ chain.head?, poff ≤ q.data.length

theorem chainBytes_cons (q : Seg) (qs : List Seg) :
    chainBytes (q :: qs) = q.data ++ chainBytes qs := by
  rw [chainBytes, List.map_cons, List.flatten_cons, chainBytes]

/-- The inner loop takes the next `left` bytes, however the chain is cut. -/
theorem copyFrag_spec (hpos : 0 < left) (hstands : Stands poff chain)
    (hleft : left ≤ ((chainBytes chain).drop poff).length) :
    ∃ chain' poff', copyFrag left poff chain =
        (((chainBytes chain).drop poff).take left, chain', poff') ∧ Stands poff' chain' ∧
      (chainBytes chain').drop poff' = ((chainBytes chain).drop poff).drop left := by
  induction chain generalizing left poff with
  | nil =>
      rw [List.length_drop, chainBytes, List.map_nil, List.flatten_nil, List.length_nil] at hleft
      omega
  | cons q qs ih =>
      have hle : poff ≤ q.data.length := hstands q rfl
      have hhead : (q.data.drop poff).length = q.data.length - poff := List.length_drop
      have hbytes : (chainBytes (q :: qs)).drop poff = q.data.drop poff ++ chainBytes qs := by
        rw [chainBytes_cons, List.drop_append_of_le_length hle]
      have hnext : Stands 0 qs := fun _ _ => Nat.zero_le _
      rw [hbytes] at hleft ⊢
      rw [List.length_append, hhead] at hleft
      rw [copyFrag]
      split
      next hempty =>
        -- nothing left in this pbuf
        have hnil : q.data.drop poff = [] := List.length_eq_zero_iff.mp (by omega)
        have hrest := ih hpos hnext
        rw [List.drop_zero] at hrest
        rw [hnil, List.nil_append]
        exact hrest (by omega)
      next hsome =>
        split
        next hdone =>
          have hmin : min left (q.data.length - poff) = left := by omega
          rw [hmin]
          refine ⟨q :: qs, poff + left, ?_, ?_, ?_⟩
          · rw [List.take_append_of_le_length (by omega)]
          · intro q' hq'
            rw [← Option.mem_some_iff.mp hq']
            omega
          · rw [← List.drop_drop, hbytes]
        next hmore =>
          have hmin : min left (q.data.length - poff) = q.data.length - poff := by omega
          obtain ⟨chain', poff', hcall, hstands', hrest⟩ :=
            ih (by omega : 0 < left - (q.data.length - poff)) hnext (by rw [List.drop_zero]; omega)
          rw [List.drop_zero] at hcall hrest
          have hwhole : (q.data.drop poff).take left = q.data.drop poff :=
            List.take_of_length_le (by omega)
          have hgone : (q.data.drop poff).drop left = [] := List.drop_of_length_le (by omega)
          refine ⟨chain', poff', ?_, hstands', ?_⟩
          · rw [hmin, hcall, List.take_of_length_le (Nat.le_of_eq hhead), List.take_append, hwhole,
              hhead]
          · rw [hrest, List.drop_append, hgone, List.nil_append, hhead]

theorem isEmpty_chunks {n : Nat} {bs : List UInt8} (hfuel : bs.length ≤ fuel) :
    (chunks n fuel bs).isEmpty = decide (bs.length = 0) := by
  cases fuel with
  | zero => exact (decide_eq_true (by omega)).symm
  | succ fuel =>
      rw [chunks]
      split
      next hzero => exact (decide_eq_true hzero).symm
      next hne => exact (decide_eq_false hne).symm

/-- The outer loop sends the parts of the packet one after the other. -/
theorem fragLoop_eq (hdr : List UInt8) (hmtu : (mtu - 20) % 8 = 0) (hmin : 20 < mtu)
    (hstands : Stands poff chain)
    (hleft : ((chainBytes chain).drop poff).length = left) (hfuel : left ≤ fuel)
    (hofo : 0 < left → ofo * 8 + left < 65536) :
    fragLoop mtu hdr fuel chain poff left ofo =
      (cutAt (ofo * 8) (chunks (mtu - 20) fuel ((chainBytes chain).drop poff))).map
        (fragPacket hdr) := by
  have hnfb : (mtu - 20) / 8 * 8 = mtu - 20 := by omega
  induction fuel generalizing chain poff left ofo with
  | zero => rfl
  | succ fuel ih =>
      rw [fragLoop, chunks, hleft]
      split
      · rfl
      next hne =>
        generalize hbs : (chainBytes chain).drop poff = bs at *
        have hsize : min left (mtu - 20) ≤ bs.length := by omega
        obtain ⟨chain', poff', hcall, hstands', hrest⟩ :=
          copyFrag_spec (by omega : 0 < min left (mtu - 20)) hstands (hbs ▸ hsize)
        rw [hbs] at hcall hrest
        have htake : bs.take (min left (mtu - 20)) = bs.take (mtu - 20) := by
          rw [← hleft, Nat.min_comm, ← List.take_take, List.take_length]
        have hdrop : bs.drop (min left (mtu - 20)) = bs.drop (mtu - 20) := by
          rcases Nat.le_total left (mtu - 20) with hle | hge
          · rw [List.drop_of_length_le (by omega), List.drop_of_length_le (by omega)]
          · rw [Nat.min_eq_right hge]
        have hbytes : (bs.take (mtu - 20)).length = min left (mtu - 20) := by
          rw [List.length_take, hleft, Nat.min_comm]
        have hbehind : (bs.drop (mtu - 20)).length = left - (mtu - 20) := by
          rw [List.length_drop, hleft]
        have hlast := isEmpty_chunks (n := mtu - 20) (by omega : (bs.drop (mtu - 20)).length ≤ fuel)
        rw [hdrop] at hrest
        have hleft' : ((chainBytes chain').drop poff').length = left - min left (mtu - 20) := by
          rw [hrest, hbehind]
          omega
        have hofo' : 0 < left - min left (mtu - 20) →
            (ofo + (mtu - 20) / 8) * 8 + (left - min left (mtu - 20)) < 65536 := by omega
        have hnext := ih hstands' hleft' (by omega) hofo'
        simp only [hnfb, hcall, htake, cutAt, List.map_cons, hnext, hrest, hbytes, List.cons.injEq]
        refine ⟨?_, ?_⟩
        · have hfield : ofo * 8 / 8 = ofo % 0x2000 := by omega
          rw [fragPacket, hbytes, hlast, hbehind, hfield]
          by_cases hend : left ≤ mtu - 20
          · rw [if_pos hend, if_pos (decide_eq_true (by omega))]
          · rw [if_neg hend, if_neg (by simpa using (by omega : ¬ left - (mtu - 20) = 0))]
        · by_cases hend : left ≤ mtu - 20
          · have hnil : chunks (mtu - 20) fuel (bs.drop (mtu - 20)) = [] := by
              rw [← List.isEmpty_iff, hlast, hbehind]
              exact decide_eq_true (by omega)
            rw [hnil, cutAt, cutAt]
          · have hoff : (ofo + (mtu - 20) / 8) * 8 = ofo * 8 + min left (mtu - 20) := by omega
            rw [hoff]

/-- The parts that `ip4_frag` makes of a packet for an MTU of 1500. -/
def partsOf (packet : List UInt8) : List Part :=
  cutAt 0 (chunks 1480 (packet.length - 20) (packet.drop 20))

/-- A packet too long for the MTU, with the header that `ip4_output` gives it. -/
structure Oversized (packet : List UInt8) : Prop where
  long : 1500 < packet.length
  short : packet.length ≤ 65535
  header : headerLen packet = 20
  whole : netWord packet (fun _ => 0) 6 = 0
  summed : rewriteHeader (packet.take 20) packet.length 0 = packet.take 20

theorem byteAt_take {packet : List UInt8} {j : Nat} (hj : j < 20) :
    byteAt (packet.take 20) (fun _ => 0) j = byteAt packet (fun _ => 0) j := by
  rw [byteAt, List.getD_eq_getElem?_getD, List.getElem?_take_of_lt hj, byteAt,
    List.getD_eq_getElem?_getD]

theorem netWord_take {packet : List UInt8} {j : Nat} (hj : j + 1 < 20) :
    netWord (packet.take 20) (fun _ => 0) j = netWord packet (fun _ => 0) j := by
  rw [netWord, byteAt_take (by omega), byteAt_take hj, netWord]

theorem headerLen_take (packet : List UInt8) : headerLen (packet.take 20) = headerLen packet := by
  rw [headerLen, byteAt_take (by decide), headerLen]

/-- **What `ip4_frag` sends**, however the packet is cut into pbufs. -/
theorem ip4Frag_eq (h : Oversized (chainBytes chain)) (hfirst : Stands 20 chain) :
    ip4Frag 1500 chain =
      some ((partsOf (chainBytes chain)).map (fragPacket ((chainBytes chain).take 20))) := by
  have hword : netWord ((chainBytes chain).take 20) (fun _ => 0) 6 = 0 :=
    (netWord_take (by decide)).trans h.whole
  have hshort := h.short
  have hlong := h.long
  have hlen : ((chainBytes chain).drop 20).length = (chainBytes chain).length - 20 :=
    List.length_drop
  have hleft : ((chainBytes chain).length + (2 ^ 16 - 20)) % 2 ^ 16 =
      (chainBytes chain).length - 20 := by omega
  have hofo : 0 < (chainBytes chain).length - 20 → 0 * 8 + ((chainBytes chain).length - 20) < 65536 := by
    omega
  have hloop := fragLoop_eq ((chainBytes chain).take 20) (show (1500 - 20) % 8 = 0 by decide)
    (by decide) hfirst hlen (Nat.le_refl _) hofo
  rw [ip4Frag]
  simp only [headerLen_take, h.header, hleft, moreFragments, offsetField, hword, ne_eq,
    not_true_eq_false, if_false, partsOf]
  exact congrArg some hloop

end Cutting

-- ============================================================================
-- Putting together
-- ============================================================================

/-- `IP_REASS_MAX_PBUFS`. -/
def ipReassMaxPbufs : Nat := 10

/-- `MEMP_NUM_REASSDATA`. -/
def mempNumReassdata : Nat := 5

/-- `IP_REASS_MAXAGE`. -/
def ipReassMaxage : Nat := 3

/-- `struct ip_reass_helper` with the bytes behind it and the number of pbufs. -/
structure Piece where
  start : Nat
  stop : Nat
  data : List UInt8
  clen : Nat
deriving DecidableEq

/-- `struct ip_reassdata`. -/
structure Reassdata where
  iphdr : List UInt8
  pieces : List Piece
  /-- `IP_REASS_FLAG_LASTFRAG` -/
  lastfrag : Bool
  datagramLen : Nat
  timer : Nat
deriving DecidableEq

/-- `reassdatagrams` and `ip_reass_pbufcount`. -/
structure Reass where
  datagrams : List Reassdata
  pbufcount : Nat
deriving DecidableEq

/-- The pbufs of a datagram. -/
def Reassdata.pbufs (r : Reassdata) : Nat := r.pieces.foldr (fun p n => p.clen + n) 0

namespace Reass

/-- The loop of `ip_reass_chain_frag_into_datagram_and_validate` behind the piece
    `prev`: the list from here on, and `valid`; none at `freepbuf`. -/
def chainFrag (new : Piece) (prev : Option Piece) (valid : Bool) :
    List Piece → Option (List Piece × Bool)
  | [] => some ([new], valid && prev.all fun p => p.stop == new.start)
  | q :: qs =>
      if new.start < q.start then
        if (prev.any fun p => decide (new.start < p.stop)) || decide (q.start < new.stop) then none
        else some (new :: q :: qs, valid && prev.all fun p => p.stop == new.start)
      else if new.start = q.start then none
      else if new.start < q.stop then none
      else
        (chainFrag new (some q) (valid && prev.all fun p => p.stop == q.start) qs).map
          fun (ps, v) => (q :: ps, v)

/-- No holes from the piece that was put in to the end. -/
def noHoles : List Piece → Bool
  | [] => true
  | [_] => true
  | p :: q :: ps => p.stop == q.start && noHoles (q :: ps)

/-- `ip_reass_chain_frag_into_datagram_and_validate`: the new list of pieces, and
    whether the datagram is complete; none at `freepbuf`. -/
def chainAndValidate (r : Reassdata) (new : Piece) (isLast : Bool) : Option (List Piece × Bool) :=
  (chainFrag new none true r.pieces).map fun (ps, valid) =>
    (ps, (isLast || r.lastfrag) && valid && (ps.head?.all fun p => p.start == 0) &&
      noHoles (ps.dropWhile fun p => p.start != new.start))

/-- `ip_reass_free_complete_datagram` for the datagram at index `i`: the number of
    pbufs freed. -/
def freeCompleteDatagram (s : Reass) (i : Nat) : Option (Nat × Reass) :=
  match s.datagrams[i]? with
  | none => none
  | some r =>
      if r.pieces.isEmpty then none
      else if s.pbufcount < r.pbufs then none
      else some (r.pbufs, ⟨s.datagrams.eraseIdx i, s.pbufcount - r.pbufs⟩)

/-- The oldest datagram with another key, the last of them in the list. -/
def oldestOther (key : Nat × Nat × Nat) : List Reassdata → Option (Nat × Nat)
  | [] => none
  | r :: rs =>
      match oldestOther key rs with
      | some (i, timer) =>
          if fragKey r.iphdr ≠ key ∧ r.timer < timer then some (0, r.timer) else some (i + 1, timer)
      | none => if fragKey r.iphdr ≠ key then some (0, r.timer) else none

/-- The loop of `ip_reass_remove_oldest_datagram`: the number of pbufs freed. -/
def removeOldest (key : Nat × Nat × Nat) (needed : Nat) : Nat → Nat → Reass → Option (Nat × Reass)
  | 0, freed, s => some (freed, s)
  | fuel + 1, freed, s =>
      match oldestOther key s.datagrams with
      | none => some (freed, s)
      | some (i, _) =>
          (freeCompleteDatagram s i).bind fun (current, s') =>
            if freed + current < needed ∧ 1 < s.datagrams.countP (fun r => fragKey r.iphdr ≠ key) then
              removeOldest key needed fuel (freed + current) s'
            else some (freed + current, s')

def ipReassRemoveOldestDatagram (s : Reass) (key : Nat × Nat × Nat) (needed : Nat) :
    Option (Nat × Reass) :=
  removeOldest key needed s.datagrams.length 0 s

/-- `ip_reass_enqueue_new_datagram`: whether there is room, and the new list. -/
def enqueueNewDatagram (s : Reass) (hdr : List UInt8) (clen : Nat) : Option (Bool × Reass) :=
  let fresh (s : Reass) : Reass :=
    { s with datagrams := ⟨hdr, [], false, 0, ipReassMaxage⟩ :: s.datagrams }
  if s.datagrams.length < mempNumReassdata then some (true, fresh s)
  else
    (s.ipReassRemoveOldestDatagram (fragKey hdr) clen).map fun (freed, s) =>
      if clen ≤ freed ∧ s.datagrams.length < mempNumReassdata then (true, fresh s) else (false, s)

/-- The datagram of the fragment with this header, and its place in the list. -/
def findDatagram (s : Reass) (hdr : List UInt8) : Option Nat :=
  s.datagrams.findIdx? fun r => fragKey r.iphdr == fragKey hdr

/-- The end of `ip4_reass` for a complete datagram: the packet. -/
def reassembled (r : Reassdata) : List UInt8 :=
  rewriteHeader r.iphdr ((r.datagramLen + 20) % 2 ^ 16) 0 ++ r.pieces.flatMap Piece.data

/-- `ip4_reass` once the datagram of the fragment is at index `i`. -/
def addFragment (s : Reass) (i clen : Nat) (packet : List UInt8) :
    Option (Option (List UInt8) × Reass) :=
  match s.datagrams[i]? with
  | none => none
  | some r =>
      let hdr := packet.take 20
      let offset := offsetField hdr * 8
      let stop := (offset + fragLen hdr) % 2 ^ 16
      let isLast := !moreFragments hdr
      -- the header of the first fragment is the one that is kept
      let r := if offsetField hdr = 0 ∧ offsetField r.iphdr ≠ 0 then { r with iphdr := hdr } else r
      if isLast ∧ (stop < offset ∨ 0xFFFF - 20 < stop) then
        some (none, { s with datagrams := s.datagrams.set i r })
      else
        (chainAndValidate r ⟨offset, stop, packet.drop 20, clen⟩ isLast).bind fun (ps, finished) =>
          let r := { r with
            pieces := ps
            lastfrag := r.lastfrag || isLast
            datagramLen := if isLast then stop else r.datagramLen }
          let count := (s.pbufcount + clen) % 2 ^ 16
          if finished then
            -- a datagram in one piece is no fragment, as is asserted
            if ps.length = 1 then none
            else
              some (some (reassembled r),
                ⟨s.datagrams.eraseIdx i, (count + (2 ^ 16 - r.pbufs)) % 2 ^ 16⟩)
          else some (none, ⟨s.datagrams.set i r, count⟩)

/-- `ip4_reass` from the search for the datagram on. -/
def enqueueFragment (s : Reass) (clen : Nat) (packet : List UInt8) :
    Option (Option (List UInt8) × Reass) :=
  match s.findDatagram (packet.take 20) with
  | some i => s.addFragment i clen packet
  | none =>
      (s.enqueueNewDatagram (packet.take 20) clen).bind fun (room, s) =>
        if room then s.addFragment 0 clen packet else some (none, s)

/-- `ip4_reass` for a packet in `clen` pbufs: the packet it returns, if any. -/
def ip4Reass (s : Reass) (clen : Nat) (packet : List UInt8) : Option (Option (List UInt8) × Reass) :=
  if headerLen packet ≠ 20 then some (none, s)
  else if ipReassMaxPbufs < s.pbufcount + clen then
    (s.ipReassRemoveOldestDatagram (fragKey (packet.take 20)) clen).bind fun (freed, s) =>
      if freed = 0 ∨ ipReassMaxPbufs < s.pbufcount + clen then some (none, s)
      else s.enqueueFragment clen packet
  else s.enqueueFragment clen packet

/-- `ip_reass_tmr`: the datagrams that were not completed in time are freed. -/
def tmrLoop : List Reassdata → Nat → Option (List Reassdata × Nat)
  | [], count => some ([], count)
  | r :: rs, count =>
      if 0 < r.timer then
        (tmrLoop rs count).map fun (rs', count') => ({ r with timer := r.timer - 1 } :: rs', count')
      else if r.pieces.isEmpty then none
      else if count < r.pbufs then none
      else tmrLoop rs (count - r.pbufs)

def ipReassTmr (s : Reass) : Option Reass :=
  (tmrLoop s.datagrams s.pbufcount).map fun (ds, count) => ⟨ds, count⟩

end Reass

end McuFirmware.Lwip
