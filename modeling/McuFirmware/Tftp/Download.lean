/-
  McuFirmware.Tftp.Download

  Every block a read connection puts on the wire is the right slice of the
  file.

  The index of a connection is the number of blocks `fop.read` has delivered,
  counted without wrap-around in its `log` (`blocksRead`).  `Downloading` is
  the invariant that ties the stored last block, the `u16_t` block number and
  the read pointer to that index; only the ACK of the current block moves it.
-/

import McuFirmware.Lib.Blocks
import McuFirmware.Lib.Trace
import McuFirmware.Tftp.Request

namespace McuFirmware.Tftp

open McuFirmware.Lib McuFirmware.Lwip

/-- Block `i = 1, 2, …` of a file: the bytes from `512 (i - 1)` to `512 i`, or
    to the end of the file. -/
def fileBlock (content : List UInt8) (i : Nat) : List UInt8 :=
  blockAt tftpDataLenMax content (i - 1)

/-- The index of the first block that is not full. -/
def finalIndex (content : List UInt8) : Nat := content.length / tftpDataLenMax + 1

theorem length_fileBlock_lt_iff {content : List UInt8} {i : Nat} (hi : 1 ≤ i) :
    (fileBlock content i).length < tftpDataLenMax ↔ finalIndex content ≤ i := by
  rw [fileBlock, length_blockAt_lt_iff content (i - 1) (by decide), finalIndex]
  omega

-- ============================================================================
-- The history of a download
-- ============================================================================

/-- The number of blocks `fop.read` delivered. -/
def blocksRead : List Event → Nat
  | [] => 0
  | .read ret :: log => (if 0 ≤ ret then 1 else 0) + blocksRead log
  | _ :: log => blocksRead log

theorem blocksRead_append (l es : List Event) :
    blocksRead (l ++ es) = blocksRead l + blocksRead es := by
  induction l with
  | nil => simp [blocksRead]
  | cons ev l ih =>
      cases ev <;> simp only [List.cons_append, blocksRead, ih]
      omega

/-- A DATA datagram carries the number and the bytes of the current index. -/
def DataIsSlice (content : List UInt8) (pre : List Event) : Event → Prop
  | .sent _ _ (.data blknum bytes) =>
      1 ≤ blocksRead pre ∧ blknum = UInt16.ofNat (blocksRead pre) ∧
        bytes = fileBlock content (blocksRead pre)
  | _ => True

/-- An event that neither reads a block nor sends one. -/
def Still : Event → Prop
  | .sent _ _ (.data _ _) => False
  | .read ret => ret < 0
  | _ => True

theorem blocksRead_still {es : List Event} (h : ∀ ev ∈ es, Still ev) : blocksRead es = 0 := by
  induction es with
  | nil => rfl
  | cons ev es ih =>
      have htail := ih fun x hx => h x (List.mem_cons_of_mem ev hx)
      have hhead := h ev List.mem_cons_self
      cases ev with
      | read ret =>
          have hret : ¬ 0 ≤ ret := Int.not_le.mpr hhead
          rw [blocksRead, if_neg hret, htail]
      | _ => exact htail

theorem dataIsSlice_still {content : List UInt8} {ev : Event} (h : Still ev) (pre : List Event) :
    DataIsSlice content pre ev := by
  cases ev with
  | sent ip port pkt =>
      cases pkt with
      | data blknum bytes => exact absurd h id
      | ack | error => trivial
  | _ => trivial

theorem slices_still {content : List UInt8} {l es : List Event}
    (hl : EachMeets (DataIsSlice content) l) (hes : ∀ ev ∈ es, Still ev) :
    EachMeets (DataIsSlice content) (l ++ es) :=
  (eachMeets_append l es).mpr
    ⟨hl, eachMeets_of_forall fun ev hev pre => dataIsSlice_still (hes ev hev) (l ++ pre)⟩

-- ============================================================================
-- The invariant
-- ============================================================================

/-- A read connection that has delivered `k` blocks and is about to read on. -/
structure Positioned (content : List UInt8) (k : Nat) (c : Conn) : Prop where
  live : c.Live
  op : c.arg.op = tftpRrq
  file : c.fil.content = content
  blknum : c.arg.blknum = UInt16.ofNat k
  fptr : c.fil.fptr = min (tftpDataLenMax * k) content.length

/-- A read connection whose last block is the one of its index. -/
structure InStep (content : List UInt8) (c : Conn) : Prop
    extends Positioned content (blocksRead c.log) c where
  started : 1 ≤ blocksRead c.log
  dataLen : c.arg.dataLen.toNat = (fileBlock content (blocksRead c.log)).length
  block : c.arg.data.firstCells c.arg.dataLen.toNat = fileBlock content (blocksRead c.log)

/-- What holds of a read connection at any time. -/
structure Downloading (content : List UInt8) (c : Conn) : Prop where
  sends : EachMeets (DataIsSlice content) c.log
  status : InStep content c ∨ c.Dead

/-- A live read connection is in step. -/
theorem Downloading.inStep {content : List UInt8} {c : Conn} (h : Downloading content c)
    (hlive : c.pcbLive = true) : InStep content c := by
  rcases h.status with hin | hdead
  · exact hin
  · exact absurd hlive hdead.pcb_not_live

section Reading

variable {content : List UInt8} {c : Conn} {k : Nat}

theorem Positioned.op_ne_wrq (h : Positioned content k c) : c.arg.op ≠ tftpWrq := by
  rw [h.op]
  exact tftpRrq_ne_wrq

/-- `f_read` delivers the next block of the file. -/
theorem Positioned.nextBytes (h : Positioned content k c) :
    c.nextBytes = fileBlock content (k + 1) := by
  have hdrop : content.drop (min (tftpDataLenMax * k) content.length)
      = content.drop (tftpDataLenMax * k) := by
    rcases Nat.le_total (tftpDataLenMax * k) content.length with hle | hle
    · rw [Nat.min_eq_left hle]
    · rw [Nat.min_eq_right hle, List.drop_length, List.drop_eq_nil_of_le hle]
  rw [Conn.nextBytes, h.file, h.fptr, hdrop, fileBlock, Nat.add_sub_cancel, blockAt]

theorem Positioned.readOn_fptr (h : Positioned content k c) :
    c.readOn.fptr = min (tftpDataLenMax * (k + 1)) content.length := by
  have hlen : c.nextBytes.length = min tftpDataLenMax (content.length - tftpDataLenMax * k) := by
    rw [h.nextBytes, fileBlock, Nat.add_sub_cancel, length_blockAt]
  have hfptr : c.readOn.fptr = c.fil.fptr + c.nextBytes.length := rfl
  rw [hfptr, hlen, h.fptr, Nat.mul_succ]
  omega

theorem Positioned.dataLen_advanced (h : Positioned content k c) (a : ConnArgs) :
    (c.advanced a).dataLen.toNat = (fileBlock content (k + 1)).length := by
  have hle : (fileBlock content (k + 1)).length ≤ 512 := length_blockAt_le content _
  rw [Conn.advanced, h.nextBytes, UInt16.toNat_ofNat']
  exact Nat.mod_eq_of_lt (by omega)

theorem Positioned.block_advanced (h : Positioned content k c) (a : ConnArgs) :
    (c.advanced a).data.firstCells (c.advanced a).dataLen.toNat = fileBlock content (k + 1) := by
  have hread : (c.advanced a).data.firstCells (c.advanced a).dataLen.toNat = c.nextBytes := by
    apply CBuffer.firstCells_memcpy_zero
    · rw [h.nextBytes]
      exact length_blockAt_le content _
    · rw [h.dataLen_advanced, h.nextBytes]
  rw [hread, h.nextBytes]

theorem Positioned.blknum_advanced (h : Positioned content k c) {a : ConnArgs}
    (ha : a.blknum = c.arg.blknum) : (c.advanced a).blknum = UInt16.ofNat (k + 1) := by
  rw [Conn.advanced, ha, h.blknum, UInt16.ofNat_add]
  rfl

/-- The DATA datagram `tftp_send_data` builds. -/
theorem Positioned.packetOf_advanced (h : Positioned content k c) {a : ConnArgs}
    (ha : a.blknum = c.arg.blknum) :
    Conn.packetOf (c.advanced a) = .data (UInt16.ofNat (k + 1)) (fileBlock content (k + 1)) := by
  rw [Conn.packetOf, h.block_advanced a, h.blknum_advanced ha]

/-- After a block was read the connection is in step with its new index. -/
theorem Positioned.advance (h : Positioned content (blocksRead c.log) c) {a : ConnArgs}
    (hreq : Conn.SameRequest c.arg a) (hnum : a.blknum = c.arg.blknum) {es : List Event}
    (hes : blocksRead es = 1) (fs : List Fault) :
    InStep content (c.after (c.advanced a) c.readOn es fs) := by
  have hcount : blocksRead (c.after (c.advanced a) c.readOn es fs).log
      = blocksRead c.log + 1 := by
    rw [Conn.after_log, blocksRead_append, hes]
  refine ⟨⟨Conn.live_after h.live, hreq.op.trans h.op, h.file, ?_, ?_⟩, ?_, ?_, ?_⟩ <;>
    rw [hcount]
  · exact h.blknum_advanced hnum
  · exact h.readOn_fptr
  · exact Nat.le_add_left 1 _
  · exact h.dataLen_advanced a
  · exact h.block_advanced a

end Reading

-- ============================================================================
-- Steps
-- ============================================================================

section Steps

variable {content : List UInt8} {c : Conn}

theorem InStep.packetOf (h : InStep content c) :
    Conn.packetOf c.arg
      = .data (UInt16.ofNat (blocksRead c.log)) (fileBlock content (blocksRead c.log)) := by
  rw [Conn.packetOf, h.block, h.blknum]

theorem Downloading.closed (h : Downloading content c) : Downloading content c.closed :=
  ⟨h.sends, .inr (Conn.closed_dead c)⟩

/-- Events that neither read nor send a block leave the connection in step. -/
theorem InStep.still (h : InStep content c) {a : ConnArgs} (hreq : Conn.SameRequest c.arg a)
    (hnum : a.blknum = c.arg.blknum) (hdata : a.data = c.arg.data)
    (hlen : a.dataLen = c.arg.dataLen) {es : List Event} (hes : blocksRead es = 0)
    (fs : List Fault) : InStep content (c.after a c.fil es fs) := by
  have hcount : blocksRead (c.after a c.fil es fs).log = blocksRead c.log := by
    rw [Conn.after_log, blocksRead_append, hes, Nat.add_zero]
  refine ⟨⟨Conn.live_after h.live, hreq.op.trans h.op, h.file, ?_, ?_⟩, ?_, ?_, ?_⟩ <;>
    rw [hcount]
  · exact hnum.trans h.blknum
  · exact h.fptr
  · exact h.started
  · rw [Conn.after_arg, hlen]
    exact h.dataLen
  · rw [Conn.after_arg, hdata, hlen]
    exact h.block

/-- The DATA datagram of the current index. -/
theorem slices_sent {l : List Event} {i : Nat} (hl : EachMeets (DataIsSlice content) l)
    (hi : blocksRead l = i) (hpos : 1 ≤ i) (alloc : Bool) :
    EachMeets (DataIsSlice content)
      (l ++ c.sentIf alloc (.data (UInt16.ofNat i) (fileBlock content i))) := by
  refine (eachMeets_append _ _).mpr ⟨hl, ?_⟩
  cases alloc with
  | false => exact eachMeets_nil
  | true =>
      rw [Conn.sentIf, if_pos rfl, eachMeets_cons, List.append_nil]
      refine ⟨?_, eachMeets_nil⟩
      rw [← hi] at hpos ⊢
      exact ⟨hpos, rfl, rfl⟩

theorem blocksRead_sentIf (alloc : Bool) (pkt : Packet) : blocksRead (c.sentIf alloc pkt) = 0 := by
  cases alloc <;> rfl

/-- The input is the ACK of block `i mod 2^16`. -/
def AcksBlock (i : Nat) : Input → Prop
  | .datagram _ p _ _ => p.u16 0 = tftpAck ∧ p.u16 1 = UInt16.ofNat i
  | .tick _ => False

/-- What a step does to the index. -/
def IndexMoves (c c' : Conn) (i : Input) : Prop :=
  blocksRead c'.log = blocksRead c.log ∨
    (blocksRead c'.log = blocksRead c.log + 1 ∧ AcksBlock (blocksRead c.log) i)

/-- A step that neither reads nor sends a block. -/
theorem InStep.quiet (h : InStep content c) (hsends : EachMeets (DataIsSlice content) c.log)
    {a : ConnArgs} (hreq : Conn.SameRequest c.arg a) (hnum : a.blknum = c.arg.blknum)
    (hdata : a.data = c.arg.data) (hlen : a.dataLen = c.arg.dataLen) {es : List Event}
    (hes : ∀ ev ∈ es, Still ev) (fs : List Fault) (i : Input) :
    Downloading content (c.after a c.fil es fs) ∧ IndexMoves c (c.after a c.fil es fs) i := by
  have hzero := blocksRead_still hes
  refine ⟨⟨slices_still hsends hes, .inl (h.still hreq hnum hdata hlen hzero fs)⟩, .inl ?_⟩
  rw [Conn.after_log, blocksRead_append, hzero, Nat.add_zero]

/-- The same when the step also closes the connection. -/
theorem InStep.quiet_closed (hsends : EachMeets (DataIsSlice content) c.log) {c' : Conn}
    {es : List Event} (hdead : c'.Dead) (hlog : c'.log = c.log ++ es)
    (hes : ∀ ev ∈ es, Still ev) (i : Input) :
    Downloading content c' ∧ IndexMoves c c' i := by
  refine ⟨⟨?_, .inr hdead⟩, .inl ?_⟩
  · rw [hlog]
    exact slices_still hsends hes
  · rw [hlog, blocksRead_append, blocksRead_still hes, Nat.add_zero]

/-- The next block is read and sent. -/
theorem Positioned.fetched (h : Positioned content (blocksRead c.log) c)
    (hsends : EachMeets (DataIsSlice content) c.log) {a : ConnArgs}
    (hreq : Conn.SameRequest c.arg a) (hnum : a.blknum = c.arg.blknum) (pre post : List Event)
    (hpre : ∀ ev ∈ pre, Still ev) (hpost : ∀ ev ∈ post, Still ev) (alloc : Bool)
    (fs : List Fault) :
    Downloading content (c.after (c.advanced a) c.readOn
        (pre ++ [.read c.nextBytes.length]
          ++ c.sentIf alloc (Conn.packetOf (c.advanced a)) ++ post) fs) ∧
      blocksRead (c.after (c.advanced a) c.readOn
        (pre ++ [.read c.nextBytes.length]
          ++ c.sentIf alloc (Conn.packetOf (c.advanced a)) ++ post) fs).log
        = blocksRead c.log + 1 := by
  have hread : blocksRead (pre ++ [.read c.nextBytes.length]) = 1 := by
    simp [blocksRead_append, blocksRead_still hpre, blocksRead]
  have hone : blocksRead (pre ++ [.read c.nextBytes.length]
      ++ c.sentIf alloc (Conn.packetOf (c.advanced a)) ++ post) = 1 := by
    rw [blocksRead_append, blocksRead_append, hread, blocksRead_sentIf, blocksRead_still hpost]
  have hslices : EachMeets (DataIsSlice content)
      (c.log ++ (pre ++ [.read c.nextBytes.length])) := by
    rw [← List.append_assoc]
    refine (eachMeets_append _ _).mpr ⟨slices_still hsends hpre, ?_⟩
    simp [DataIsSlice]
  have hcount : blocksRead (c.log ++ (pre ++ [.read c.nextBytes.length]))
      = blocksRead c.log + 1 := by
    rw [blocksRead_append, hread]
  refine ⟨⟨?_, .inl (h.advance hreq hnum hone fs)⟩, ?_⟩
  · rw [Conn.after_log, h.packetOf_advanced hnum, ← List.append_assoc, ← List.append_assoc]
    exact slices_still (slices_sent hslices hcount (Nat.le_add_left 1 _) alloc) hpost
  · rw [Conn.after_log, blocksRead_append, hone]

/-- The current block is sent again. -/
theorem InStep.resent (h : InStep content c) (hsends : EachMeets (DataIsSlice content) c.log)
    (alloc : Bool) (i : Input) :
    Downloading content (c.after (Conn.retried c.arg) c.fil
        (.tick :: c.sentIf alloc (Conn.packetOf c.arg)) []) ∧
      IndexMoves c (c.after (Conn.retried c.arg) c.fil
        (.tick :: c.sentIf alloc (Conn.packetOf c.arg)) []) i := by
  have hzero : blocksRead (.tick :: c.sentIf alloc (Conn.packetOf c.arg)) = 0 :=
    blocksRead_sentIf alloc _
  have htick : EachMeets (DataIsSlice content) (c.log ++ [.tick]) :=
    slices_still hsends (by simp [Still])
  have hcount : blocksRead (c.log ++ [.tick]) = blocksRead c.log := by
    simp [blocksRead_append, blocksRead]
  refine ⟨⟨?_, .inl (h.still (Conn.sameRequest_retried _) rfl rfl rfl hzero [])⟩, .inl ?_⟩
  · rw [Conn.after_log, ← List.singleton_append, ← List.append_assoc, h.packetOf]
    exact slices_sent htick hcount h.started alloc
  · rw [Conn.after_log, blocksRead_append, hzero, Nat.add_zero]

/-- **Step lemma.**  A step keeps the download in step, and moves the index only
    on the ACK of the current block. -/
theorem downloading_step (h : Downloading content c) (i : Input) :
    Downloading content (c.step i) ∧ IndexMoves c (c.step i) i := by
  rcases h.status with hin | hdead
  swap
  · rw [Conn.step_of_dead hdead]
    exact ⟨h, .inl rfl⟩
  refine Conn.step_cases (motive := fun c' => Downloading content c' ∧ IndexMoves c c' i)
    hin.live ?_ ?_
  · intro e p addr port c' heq hstep
    cases hstep with
    | foreign es hpeer hes =>
        refine InStep.quiet_closed h.sends (Conn.closed_dead _) rfl
          (Conn.forall_answer trivial trivial ?_) i
        intro ev hev
        obtain ⟨ip, pt, code, msg, rfl⟩ := hes ev hev
        trivial
    | request hpeer hrq =>
        exact hin.quiet h.sends (Conn.sameRequest_refreshed _) rfl rfl rfl (by simp [Still]) _ i
    | error hpeer herr =>
        exact InStep.quiet_closed h.sends (Conn.closed_dead _) rfl (by simp [Still]) i
    | dataOnRead hpeer hdata hrrq =>
        exact InStep.quiet_closed h.sends (Conn.closed_dead _) rfl
          (Conn.forall_answer trivial trivial (Conn.forall_sentIf (by trivial))) i
    | dataRefused hpeer hdata hrrq => exact absurd hin.op hrrq
    | dataWritten hpeer hdata hrrq => exact absurd hin.op hrrq
    | dataRepeated hpeer hdata hrrq => exact absurd hin.op hrrq
    | ackOnWrite hpeer hack hwrq => exact absurd hwrq hin.op_ne_wrq
    | ackReadError hpeer hack hwrq hblk hread =>
        have hfailed := Conn.readFailed e p c
        refine InStep.quiet_closed h.sends hfailed.dead hfailed.log ?_ i
        -- a failed read does not move the position
        have hnomove : Still (.read (-1)) := show (-1 : Int) < 0 by omega
        refine Conn.forall_answer (Q := Still) trivial trivial ?_
        exact List.forall_mem_cons.mpr ⟨hnomove, Conn.forall_sentIf (by trivial)⟩
    | ackAdvance hpeer hack hwrq hblk hread =>
        obtain ⟨hdown, hindex⟩ : Downloading content (c.fetched e p) ∧
            blocksRead (c.fetched e p).log = blocksRead c.log + 1 :=
          hin.fetched h.sends (Conn.sameRequest_refreshed _) rfl
            [.recv p] [.pbufFree] (by simp [Still]) (by simp [Still])
            (e.pbufAlloc 0) (Conn.payloadFaults p 0 ++ Conn.payloadFaults p 1)
        have hmoves : IndexMoves c (c.fetched e p) i := by
          refine .inr ⟨hindex, ?_⟩
          rw [heq]
          exact ⟨hack, hblk.trans hin.blknum⟩
        split
        · exact ⟨hdown.closed, hmoves⟩
        · exact ⟨hdown, hmoves⟩
    | ackStale hpeer hack hwrq hblk =>
        exact hin.quiet h.sends (Conn.sameRequest_refreshed _) rfl rfl rfl (by simp [Still]) _ i
    | unknown hpeer hrq herr hdata hack =>
        exact hin.quiet h.sends (Conn.sameRequest_refreshed _) rfl rfl rfl
          (Conn.forall_answer trivial trivial (Conn.forall_sentIf (by trivial))) _ i
  · intro e c' heq hstep
    cases hstep with
    | quiet hquiet =>
        exact hin.quiet h.sends (Conn.sameRequest_ticked _) rfl rfl rfl (by simp [Still]) _ i
    | resend hout hrrq hretry => exact hin.resent h.sends (e.pbufAlloc 0) i
    | giveUp hout hlast =>
        exact InStep.quiet_closed h.sends (Conn.closed_dead _) rfl (by simp [Still]) i

end Steps

-- ============================================================================
-- Runs
-- ============================================================================

theorem opened_positioned {e : ReqEnv} {p : Pbuf} {addr : UInt32} {port : UInt16}
    (hrrq : p.u16 0 = tftpRrq) (stale : ConnArgs) :
    Positioned e.content 0 (Conn.opened e p addr port stale) := by
  have hread : decide (p.u16 0 = tftpWrq) = false := by
    rw [hrrq]
    decide
  refine ⟨Conn.opened_live e p addr port stale, hrrq, ?_, rfl, ?_⟩
  · simp [Conn.opened, Conn.openFil, hread]
  · simp [Conn.opened, Conn.openFil]

/-- A read request leaves a connection with block 1, or a closed one. -/
theorem downloading_request {e : ReqEnv} {p : Pbuf} {addr : UInt32} {port : UInt16} {c : Conn}
    (hrrq : p.u16 0 = tftpRrq) (hconn : (requestRecvCallback e p addr port).conn = some c) :
    Downloading e.content c ∧ (c.pcbLive = true → blocksRead c.log = 1) := by
  have hstep := request_outcome e p addr port
  rw [hconn] at hstep
  cases hstep with
  | released _ hdead hcloses hfaults hlog =>
      refine ⟨⟨?_, .inr hdead⟩, ?_⟩
      · rw [hlog]
        exact eachMeets_nil
      · exact fun hlive => absurd hlive hdead.pcb_not_live
  | write stale hwrq => exact absurd (hrrq.symm.trans hwrq) tftpRrq_ne_wrq
  | read stale _ hread =>
      have hpos : Positioned e.content (blocksRead (Conn.opened e p addr port stale).log)
          (Conn.opened e p addr port stale) := opened_positioned hrrq stale
      obtain ⟨hdown, hone⟩ := hpos.fetched eachMeets_nil (Conn.sameRequest_refl _) rfl
        [] [] (by simp) (by simp) (e.lib.pbufAlloc 0) []
      rw [List.append_nil] at hdown hone
      exact ⟨hdown, fun _ => hone⟩
  | readError stale hrrq hread =>
      refine ⟨⟨?_, .inr (Conn.closed_dead _)⟩, ?_⟩
      · refine slices_still (l := []) eachMeets_nil ?_
        intro ev hev
        rcases List.mem_cons.mp hev with rfl | hev
        · exact (by decide : (-1 : Int) < 0)
        · exact Conn.forall_sentIf (Q := Still) (by trivial) ev hev
      · intro hlive
        exact absurd hlive (by simp [Conn.closed])

theorem downloading_run {content : List UInt8} {c : Conn} (h : Downloading content c)
    (is : List Input) : Downloading content (run Conn.step c is) := by
  refine run_inv (C := fun _ _ => True) ?_ h (stepsMeet_of_forall (fun _ _ _ => trivial) c)
  intro c i hc _
  exact (downloading_step hc i).1

/-- **Download, every block on the wire is the right slice.**  Whatever is
    received and whatever fails: every DATA datagram carries number and bytes
    of the current index, which starts at 1 and moves by one, only in a step
    that received the ACK of the current block. -/
theorem download_slices (e : ReqEnv) (p : Pbuf) (addr : UInt32) (port : UInt16) (c : Conn)
    (hrrq : p.u16 0 = tftpRrq) (hconn : (requestRecvCallback e p addr port).conn = some c)
    (is : List Input) :
    EachMeets (DataIsSlice e.content) (run Conn.step c is).log ∧
      (c.pcbLive = true → blocksRead c.log = 1) ∧
      ((run Conn.step c is).pcbLive = true →
        (run Conn.step c is).arg.blknum = UInt16.ofNat (blocksRead (run Conn.step c is).log)) ∧
      ∀ i, IndexMoves (run Conn.step c is) (run Conn.step c (is ++ [i])) i := by
  obtain ⟨hdown, hone⟩ := downloading_request hrrq hconn
  have hrun := downloading_run hdown is
  refine ⟨hrun.sends, hone, ?_, ?_⟩
  · intro hlive
    exact (hrun.inStep hlive).blknum
  · intro i
    rw [run_concat]
    exact (downloading_step hrun i).2

/-- A file of two blocks. -/
def sampleFile : List UInt8 := List.replicate 512 5 ++ [7, 8, 9]

/-- A stale ACK, and silence until the block is sent again. -/
def sampleSilence : List Input :=
  .datagram (Env.ok 0) (ackPbuf 0) 1 2 :: List.replicate 101 (.tick (Env.ok 0))

/-- A sample client reads the file; its first ACK is lost. -/
theorem download_slices_sample :
    ∃ c, (requestRecvCallback (sampleReqEnv sampleFile) (sampleRq tftpRrq) 1 2).conn = some c ∧
      (run Conn.step c sampleSilence).arg.retries = 1 ∧
      (run Conn.step c (sampleSilence ++ [.datagram (Env.ok 0) (ackPbuf 1) 1 2])).pcbLive = false ∧
      EachMeets (DataIsSlice sampleFile)
        (run Conn.step c (sampleSilence ++ [.datagram (Env.ok 0) (ackPbuf 1) 1 2])).log ∧
      blocksRead c.log = 1 ∧
      (run Conn.step c sampleSilence).arg.blknum
        = UInt16.ofNat (blocksRead (run Conn.step c sampleSilence).log) ∧
      IndexMoves (run Conn.step c sampleSilence)
        (run Conn.step c (sampleSilence ++ [.datagram (Env.ok 0) (ackPbuf 1) 1 2]))
        (.datagram (Env.ok 0) (ackPbuf 1) 1 2) := by
  have hconn := request_granted (granted_sample sampleFile (.inl rfl)) 1 2
  refine ⟨_, hconn, by decide +kernel, by decide +kernel, ?_⟩
  obtain ⟨-, hone, hnumber, hmoves⟩ :=
    download_slices _ _ 1 2 _ (by decide) hconn sampleSilence
  obtain ⟨hslices, -⟩ := download_slices _ _ 1 2 _ (by decide) hconn
    (sampleSilence ++ [.datagram (Env.ok 0) (ackPbuf 1) 1 2])
  exact ⟨hslices, hone (by decide +kernel), hnumber (by decide +kernel), hmoves _⟩

end McuFirmware.Tftp
