/-
  McuFirmware.Lwip.Ethernetif

  The transmit side of `netif/ethernetif.c`: `ENC28J60_PacketSend` gathers a pbuf
  chain in `ENC28J60_SendBuf` and hands the frame to the driver.

  The loop copies a segment before it compares the length so far with the size
  of the buffer.  `StaysInside` is the condition on the lengths of the segments
  under which no copy passes the end, and `copyLoop_spec` carries the gathered
  bytes through the loop.
-/

import McuFirmware.Lib.CBuffer

namespace McuFirmware.Lwip

open McuFirmware.Lib

/-- `sizeof(ENC28J60_SendBuf)`. -/
def sendBufLen : Nat := 1500

/-- `netif->mtu`, as `low_level_init` sets it. -/
def mtu : Nat := 1500

/-- The length of an Ethernet header. -/
def ethHdrLen : Nat := 14

/-- `err_t`, the values used here. -/
inductive Err where
  | ok
  | buf
deriving DecidableEq, Repr

/-- A chain of pbufs: the payloads, and `tot_len` of the first. -/
structure Chain where
  segs : List (List UInt8)
  totLen : UInt16
  segs_ne : segs ≠ []
  len_lt : ∀ s ∈ segs, s.length < 65536

/-- How the copy loop ends. -/
inductive CopyResult where
  /-- `memcpy` stored behind `ENC28J60_SendBuf` -/
  | overrun
  /-- `return ERR_BUF` -/
  | refused
  | copied (buf : CBuffer UInt8 sendBufLen) (templen : Nat)

/-- The loop of `ENC28J60_PacketSend`, with the segments from `q` on to copy. -/
def copyLoop (totLen : UInt16) (buf : CBuffer UInt8 sendBufLen) (templen : Nat) :
    List (List UInt8) → CopyResult
  | [] => .copied buf templen
  | q :: next =>
      if sendBufLen < templen + q.length then .overrun
      else
        let buf := buf.memcpy templen q
        let templen := templen + q.length
        if 1500 < templen ∨ totLen.toNat < templen then .refused
        else copyLoop totLen buf templen next

/-- `ENC28J60_PacketSend`: the returned code and the frame passed to
    `enc28j60PacketSend`, if any; `none` where it stores behind the buffer. -/
def Enc28j60.packetSend (buf : CBuffer UInt8 sendBufLen) (p : Chain) :
    Option (Err × Option (List UInt8)) :=
  match copyLoop p.totLen buf 0 p.segs with
  | .overrun => none
  | .refused => some (.buf, none)
  | .copied buf templen =>
      if templen = p.totLen.toNat then some (.ok, some (buf.firstCells templen))
      else some (.buf, none)

-- ============================================================================
-- The copy loop
-- ============================================================================

/-- Every copy of the loop stays inside the buffer: as long as the segments so
    far do not exceed `tot_len`, the next one still ends in the buffer. -/
def StaysInside (totLen templen : Nat) (segs : List (List UInt8)) : Prop :=
  ∀ k < segs.length, templen + (segs.take k).flatten.length ≤ totLen →
    templen + (segs.take (k + 1)).flatten.length ≤ sendBufLen

theorem staysInside_cons {totLen templen : Nat} {q : List UInt8} {next : List (List UInt8)}
    (htempl : templen ≤ totLen) :
    StaysInside totLen templen (q :: next) ↔
      templen + q.length ≤ sendBufLen ∧
        (templen + q.length ≤ totLen → StaysInside totLen (templen + q.length) next) := by
  constructor
  · intro h
    refine ⟨?_, fun hle k hk hsum => ?_⟩
    · simpa using h 0 (Nat.succ_pos _) (by simpa using htempl)
    · have hnext := h (k + 1) (Nat.succ_lt_succ hk)
      simp only [List.take_succ_cons, List.flatten_cons, List.length_append,
        ← Nat.add_assoc] at hnext
      exact hnext hsum
  · rintro ⟨hfirst, hrest⟩ k hk hsum
    cases k with
    | zero => simpa using hfirst
    | succ k =>
        simp only [List.take_succ_cons, List.flatten_cons, List.length_append,
          ← Nat.add_assoc] at hsum ⊢
        exact hrest (by omega) k (Nat.lt_of_succ_lt_succ hk) hsum

/-- **The loop.**  With `visited` in the buffer, it passes the end of the buffer
    iff the segments do not stay inside; else it refuses a chain longer than
    `tot_len` and gathers any other. -/
theorem copyLoop_spec (totLen : UInt16) (segs : List (List UInt8)) (visited : List UInt8)
    (buf : CBuffer UInt8 sendBufLen) (hbuf : buf.firstCells visited.length = visited)
    (hvisited : visited.length ≤ totLen.toNat) :
    (copyLoop totLen buf visited.length segs = .overrun ↔
      ¬ StaysInside totLen.toNat visited.length segs) ∧
    (StaysInside totLen.toNat visited.length segs →
      if visited.length + segs.flatten.length ≤ totLen.toNat then
        ∃ buf', copyLoop totLen buf visited.length segs
            = .copied buf' (visited.length + segs.flatten.length) ∧
          buf'.firstCells (visited.length + segs.flatten.length) = visited ++ segs.flatten
      else copyLoop totLen buf visited.length segs = .refused) := by
  induction segs generalizing visited buf with
  | nil =>
      have hinside : StaysInside totLen.toNat visited.length [] := fun k hk => by cases hk
      refine ⟨iff_of_false (by simp [copyLoop]) (not_not_intro hinside), fun _ => ?_⟩
      rw [List.flatten_nil, List.length_nil, Nat.add_zero, if_pos hvisited, List.append_nil]
      exact ⟨buf, rfl, hbuf⟩
  | cons q next ih =>
      rw [staysInside_cons hvisited]
      by_cases hover : sendBufLen < visited.length + q.length
      · -- the copy of this segment already passes the end
        have hloop : copyLoop totLen buf visited.length (q :: next) = .overrun := if_pos hover
        refine ⟨iff_of_true hloop ?_, ?_⟩
        · intro h
          exact absurd h.1 (Nat.not_le_of_lt hover)
        · intro h
          exact absurd h.1 (Nat.not_le_of_lt hover)
      · have hfit : visited.length + q.length ≤ sendBufLen := Nat.le_of_not_lt hover
        have hsmall : ¬ 1500 < visited.length + q.length := Nat.not_lt_of_le hfit
        by_cases hlong : totLen.toNat < visited.length + q.length
        · have hloop : copyLoop totLen buf visited.length (q :: next) = .refused := by
            simp only [copyLoop, if_neg hover, if_pos (Or.inr hlong)]
          have hinside : visited.length + q.length ≤ sendBufLen ∧
              (visited.length + q.length ≤ totLen.toNat →
                StaysInside totLen.toNat (visited.length + q.length) next) :=
            ⟨hfit, fun h => absurd h (Nat.not_le_of_lt hlong)⟩
          refine ⟨iff_of_false (by rw [hloop]; exact CopyResult.noConfusion)
            (not_not_intro hinside), fun _ => ?_⟩
          rw [List.flatten_cons, List.length_append, if_neg (by omega)]
          exact hloop
        · have hle : visited.length + q.length ≤ totLen.toNat := Nat.le_of_not_lt hlong
          have hloop : copyLoop totLen buf visited.length (q :: next)
              = copyLoop totLen (buf.memcpy visited.length q) (visited ++ q).length next := by
            simp only [copyLoop, if_neg hover, if_neg (not_or_intro hsmall hlong),
              List.length_append]
          have hgathered : (buf.memcpy visited.length q).firstCells (visited ++ q).length
              = visited ++ q := by
            rw [List.length_append, buf.firstCells_memcpy visited.length q hfit, hbuf]
          have hrest := ih (visited ++ q) _ hgathered (by rwa [List.length_append])
          have hinside : (visited.length + q.length ≤ sendBufLen ∧
              (visited.length + q.length ≤ totLen.toNat →
                StaysInside totLen.toNat (visited.length + q.length) next)) ↔
              StaysInside totLen.toNat (visited ++ q).length next := by
            rw [List.length_append]
            exact (and_iff_right hfit).trans (imp_iff_right hle)
          have hbytes : visited ++ (q :: next).flatten = visited ++ q ++ next.flatten := by
            rw [List.flatten_cons, List.append_assoc]
          have hlen : visited.length + (q :: next).flatten.length
              = (visited ++ q).length + next.flatten.length := by
            rw [← List.length_append, hbytes, List.length_append]
          rw [hloop, hlen, hbytes, hinside]
          exact hrest

-- ============================================================================
-- Frames
-- ============================================================================

namespace Chain

/-- The bytes of the frame. -/
def bytes (p : Chain) : List UInt8 := p.segs.flatten

/-- `tot_len` is the sum of the lengths. -/
def Consistent (p : Chain) : Prop := p.totLen.toNat = p.bytes.length

/-- No copy of `ENC28J60_PacketSend` passes the end of its buffer. -/
def Inside (p : Chain) : Prop := StaysInside p.totLen.toNat 0 p.segs

end Chain

/-- A chain with the right `tot_len` stays inside iff its frame fits the buffer. -/
theorem inside_iff_of_consistent {p : Chain} (h : p.Consistent) :
    p.Inside ↔ p.totLen.toNat ≤ sendBufLen := by
  have htake (k : Nat) : (p.segs.take k).flatten.length ≤ p.totLen.toNat := by
    rw [h, Chain.bytes]
    conv_rhs => rw [← List.take_append_drop k p.segs]
    rw [List.flatten_append, List.length_append]
    exact Nat.le_add_right _ _
  constructor
  · intro hinside
    -- the last copy ends where the frame ends
    have hpos : 0 < p.segs.length := List.length_pos_of_ne_nil p.segs_ne
    have hlast := hinside (p.segs.length - 1) (by omega) (by rw [Nat.zero_add]; exact htake _)
    rw [Nat.sub_add_cancel hpos, List.take_length, Nat.zero_add] at hlast
    rw [h]
    exact hlast
  · intro hle k _ _
    rw [Nat.zero_add]
    exact Nat.le_trans (htake (k + 1)) hle

/-- What a call returns and sends when no copy passes the end. -/
theorem Enc28j60.packetSend_of_inside (buf : CBuffer UInt8 sendBufLen) {p : Chain}
    (hinside : p.Inside) : Enc28j60.packetSend buf p =
      if p.bytes.length = p.totLen.toNat then some (.ok, some p.bytes) else some (.buf, none) := by
  obtain ⟨-, hin⟩ := copyLoop_spec p.totLen p.segs [] buf rfl (Nat.zero_le _)
  have hresult := hin hinside
  simp only [List.length_nil, Nat.zero_add, List.nil_append] at hresult
  change if p.bytes.length ≤ p.totLen.toNat then _ else _ at hresult
  by_cases hle : p.bytes.length ≤ p.totLen.toNat
  · rw [if_pos hle] at hresult
    obtain ⟨buf', hcopied, hbytes⟩ := hresult
    rw [Enc28j60.packetSend, hcopied]
    dsimp only
    rw [hbytes]
    rfl
  · rw [if_neg hle] at hresult
    rw [Enc28j60.packetSend, hresult, if_neg (by omega)]

theorem Enc28j60.packetSend_of_not_inside (buf : CBuffer UInt8 sendBufLen) {p : Chain}
    (hout : ¬ p.Inside) : Enc28j60.packetSend buf p = none := by
  obtain ⟨hover, -⟩ := copyLoop_spec p.totLen p.segs [] buf rfl (Nat.zero_le _)
  have hloop : copyLoop p.totLen buf 0 p.segs = .overrun := hover.mpr hout
  rw [Enc28j60.packetSend, hloop]

/-- **Sending.**  Nothing is stored behind `ENC28J60_SendBuf` iff the chain stays
    inside; then a consistent chain is sent whole and any other is refused. -/
theorem send_whole_iff_inside (buf : CBuffer UInt8 sendBufLen) (p : Chain) :
    (Enc28j60.packetSend buf p ≠ none ↔ p.Inside) ∧
    (p.Consistent → (p.Inside ↔ p.totLen.toNat ≤ sendBufLen)) ∧
    (p.Inside → p.Consistent → p.totLen.toNat ≤ mtu + ethHdrLen ∧
      Enc28j60.packetSend buf p = some (.ok, some p.bytes)) ∧
    (p.Inside → ¬ p.Consistent → Enc28j60.packetSend buf p = some (.buf, none)) := by
  refine ⟨?_, fun h => inside_iff_of_consistent h, fun hinside hcons => ?_, fun hinside hcons => ?_⟩
  · constructor
    · intro hsome
      by_contra hout
      exact hsome (Enc28j60.packetSend_of_not_inside buf hout)
    · intro hinside hnone
      rw [Enc28j60.packetSend_of_inside buf hinside] at hnone
      split at hnone <;> cases hnone
  · have hfits : p.totLen.toNat ≤ sendBufLen := (inside_iff_of_consistent hcons).mp hinside
    refine ⟨Nat.le_trans hfits (by decide), ?_⟩
    rw [Enc28j60.packetSend_of_inside buf hinside, if_pos hcons.symm]
  · rw [Enc28j60.packetSend_of_inside buf hinside, if_neg (fun heq => hcons heq.symm)]

/-- A chain of two segments: a header and a payload of `n` zeros. -/
def frameOf (n : Nat) (hn : n < 65536 - 14) : Chain where
  segs := [List.replicate 14 0, List.replicate n 0]
  totLen := UInt16.ofNat (14 + n)
  segs_ne := List.cons_ne_nil _ _
  len_lt := by
    simp only [List.forall_mem_cons, List.length_replicate]
    exact ⟨by decide, by omega, List.forall_mem_nil _⟩

theorem frameOf_consistent {n : Nat} (hn : n < 65536 - 14) : (frameOf n hn).Consistent := by
  have hlen : (frameOf n hn).bytes.length = 14 + n := by
    simp [Chain.bytes, frameOf]
    omega
  rw [Chain.Consistent, hlen]
  exact UInt16.toNat_ofNat_of_lt' (by simp only [UInt16.size]; omega)

/-- A frame of 1500 bytes is sent. -/
theorem send_whole_iff_inside_full :
    Enc28j60.packetSend (CBuffer.fill _ 0) (frameOf 1486 (by decide))
      = some (.ok, some (frameOf 1486 (by decide)).bytes) := by
  have hcons := frameOf_consistent (n := 1486) (by decide)
  obtain ⟨-, hiff, hsent, -⟩ :=
    send_whole_iff_inside (CBuffer.fill _ 0) (frameOf 1486 (by decide))
  have hinside := (hiff hcons).mpr (by decide)
  exact (hsent hinside hcons).2

/-- A full-MTU packet with its Ethernet header, as the stack may send it: the copy
    stores 14 bytes behind the buffer. -/
theorem full_mtu_frame_overruns :
    (frameOf 1500 (by decide)).Consistent ∧
      (frameOf 1500 (by decide)).totLen.toNat ≤ mtu + ethHdrLen ∧
      Enc28j60.packetSend (CBuffer.fill _ 0) (frameOf 1500 (by decide)) = none := by
  have hcons := frameOf_consistent (n := 1500) (by decide)
  refine ⟨hcons, by decide, Enc28j60.packetSend_of_not_inside _ ?_⟩
  rw [inside_iff_of_consistent hcons]
  decide

end McuFirmware.Lwip
