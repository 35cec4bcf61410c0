/-
  McuFirmware.Tftp.Rollover

  Uploads of more than 65535 blocks.

  A download numbers its blocks modulo `2^16` and compares the number of an ACK
  as a `u16_t`.  An upload accepts block `blknum == parg->blknum + 1`, where the
  sum is computed in `int`: behind block 65535 no `u16_t` equals it.  `Counted`
  ties `parg->blknum` to the number of blocks written; `uploadLoop` is a client
  that sends a file in lock-step, numbers its blocks modulo `2^16` and repeats a
  block until it is acknowledged.
-/

import McuFirmware.Lib.Blocks
import McuFirmware.Tftp.Server
import McuFirmware.Tftp.Upload

namespace McuFirmware.Tftp

open McuFirmware.Lib McuFirmware.Lwip

-- ============================================================================
-- The number of blocks written
-- ============================================================================

/-- `parg->blknum` of a live write connection is the number of blocks written. -/
structure Counted (c : Conn) : Prop where
  op : c.arg.op = tftpWrq
  status : (c.Live ∧ c.arg.blknum.toNat = (okWrites c.log).length) ∨ c.Dead

section Counted

variable {c : Conn} {a : ConnArgs} {f : Fil} {es : List Event} {fs : List Fault}

theorem Counted.closed (h : Counted c) (hop : a.op = c.arg.op) :
    Counted (c.after a f es fs).closed :=
  ⟨hop.trans h.op, .inr (Conn.closed_dead _)⟩

/-- The connection goes on without a new block. -/
theorem Counted.still (h : Counted c) (hlive : c.Live)
    (hnum : c.arg.blknum.toNat = (okWrites c.log).length) (hop : a.op = c.arg.op)
    (hblk : a.blknum = c.arg.blknum) (hes : okWrites es = []) : Counted (c.after a f es fs) := by
  refine ⟨hop.trans h.op, .inl ⟨Conn.live_after hlive, ?_⟩⟩
  rw [Conn.after_arg, Conn.after_log, okWrites_append, hes, List.append_nil, hblk, hnum]

theorem okWrites_answer (p : Pbuf) (alloc : Bool) (pkt : Packet) :
    okWrites (.recv p :: c.sentIf alloc pkt ++ [.pbufFree]) = [] := by
  cases alloc <;> rfl

/-- The blocks written by an accepted DATA datagram. -/
theorem okWrites_written {e : Env} {p : Pbuf}
    (hret : 0 ≤ Conn.writeRet e (Conn.stored p (Conn.refreshed c.arg)).dataLen) :
    okWrites (c.written e p).log = okWrites c.log ++
      [(Conn.stored p (Conn.refreshed c.arg)).data.firstCells
        (Conn.stored p (Conn.refreshed c.arg)).dataLen.toNat] := by
  rw [Conn.written, Conn.after_log, okWrites_append, okWrites_append, okWrites_append]
  have hwrite : okWrites [.recv p, .store (Conn.copied p).length,
      Conn.writeEvent e (Conn.stored p (Conn.refreshed c.arg))]
      = [(Conn.stored p (Conn.refreshed c.arg)).data.firstCells
        (Conn.stored p (Conn.refreshed c.arg)).dataLen.toNat] := if_pos hret
  have hack : okWrites (c.sentIf (e.pbufAlloc 0)
      (.ack ((Conn.stored p (Conn.refreshed c.arg)).blknum + 1))) = [] := by
    cases e.pbufAlloc 0 <;> rfl
  rw [hwrite, hack, List.append_nil]
  rfl

theorem counted_written (h : Counted c) (hlive : c.Live)
    (hnum : c.arg.blknum.toNat = (okWrites c.log).length) {e : Env} {p : Pbuf}
    (hfits : FitsData p) (hblk : (p.u16 1).toNat = c.arg.blknum.toNat + 1)
    (hret : 0 ≤ Conn.writeRet e (Conn.stored p (Conn.refreshed c.arg)).dataLen) :
    Counted (c.written e p) := by
  refine ⟨h.op, .inl ⟨Conn.live_after hlive, ?_⟩⟩
  have hlt := (p.u16 1).toNat_lt
  rw [okWrites_written hret, List.length_append, ← hnum, Conn.written_blknum hfits,
    UInt16.toNat_add, UInt16.toNat_one]
  change _ = c.arg.blknum.toNat + 1
  omega

/-- **Step lemma.** -/
theorem counted_step (h : Counted c) {i : Input} (hfits : StoresFit c i) :
    Counted (c.step i) := by
  rcases h.status with ⟨hlive, hnum⟩ | hdead
  swap
  · rw [Conn.step_of_dead hdead]
    exact h
  have hnot : c.arg.op ≠ tftpRrq := by
    rw [h.op]
    exact tftpRrq_ne_wrq.symm
  refine Conn.step_cases (motive := Counted) hlive ?_ ?_
  · intro e p addr port c' heq hstep
    subst heq
    cases hstep with
    | foreign | error | ackOnWrite | dataRefused => exact h.closed rfl
    | request => exact h.still hlive hnum rfl rfl rfl
    | dataRepeated | unknown => exact h.still hlive hnum rfl rfl (okWrites_answer _ _ _)
    | dataOnRead _ _ hrrq => exact absurd hrrq hnot
    | dataWritten hpeer hop hrrq hblk hret =>
        split
        · exact h.closed rfl
        · exact counted_written h hlive hnum (hfits hlive.pcb hpeer ⟨hop, hrrq, hblk⟩) hblk hret
    | ackReadError _ _ hwrq | ackAdvance _ _ hwrq | ackStale _ _ hwrq =>
        exact absurd h.op hwrq
  · intro e c' _ hstep
    cases hstep with
    | quiet => exact h.still hlive hnum rfl rfl rfl
    | resend _ hrrq => exact absurd hrrq hnot
    | giveUp => exact h.closed rfl

theorem counted_run (h : Counted c) {is : List Input}
    (hfits : StepsMeet Conn.step StoresFit c is) : Counted (run Conn.step c is) :=
  run_inv (I := Counted) (fun _ _ h hi => counted_step h hi) h hfits

/-- A write request starts with no block. -/
theorem counted_request {e : ReqEnv} {p : Pbuf} {addr : UInt32} {port : UInt16}
    (hwrq : p.u16 0 = tftpWrq) (hconn : (requestRecvCallback e p addr port).conn = some c)
    (hlive : c.pcbLive = true) : Counted c := by
  have hup := uploaded_request hwrq hconn hlive []
  refine ⟨hup.op, ?_⟩
  rcases hup.status with ⟨hlive, hnum⟩ | hdead
  · rw [hup.writes]
    exact .inl ⟨hlive, hnum⟩
  · exact .inr hdead

end Counted

-- ============================================================================
-- The next block
-- ============================================================================

/-- The datagram is stored as the next block: its data is written, the block
    number advances to `n`, and `n` is acknowledged if a pbuf can be allocated. -/
structure StoredNext (c : Conn) (e : Env) (p : Pbuf) (addr : UInt32) (port : UInt16)
    (n : UInt16) : Prop where
  writes : okWrites (c.step (.datagram e p addr port)).log = okWrites c.log ++ [dataBlock p]
  blknum : (c.step (.datagram e p addr port)).arg.blknum = n
  ack : e.pbufAlloc 0 = true →
    ∃ es, (c.step (.datagram e p addr port)).log = c.log ++ es ∧
      .sent c.pcb.remoteIp c.pcb.remotePort (.ack n) ∈ es

/-- `f_write` writes the whole data block of the datagram. -/
def WriteOk (e : Env) (p : Pbuf) : Prop := e.fWrite = (0, (dataBlock p).length)

section Next

variable {c : Conn} {e : Env} {p : Pbuf} {addr : UInt32} {port : UInt16}

theorem writeRet_of_writeOk (hwrite : WriteOk e p) (hsize : DataSized p) (a : ConnArgs) :
    0 ≤ Conn.writeRet e (Conn.stored p a).dataLen := by
  rw [Conn.writeRet, hwrite, Conn.stored_dataLen a hsize, if_neg (by simp)]
  exact Int.natCast_nonneg _

theorem Counted.blknum (h : Counted c) (hlive : c.Live) :
    c.arg.blknum = UInt16.ofNat (okWrites c.log).length := by
  rcases h.status with ⟨-, hnum⟩ | hdead
  · rw [← hnum, UInt16.ofNat_toNat]
  · exact absurd hlive.pcb hdead.pcb_not_live

theorem Counted.lt (h : Counted c) (hlive : c.Live) : (okWrites c.log).length < 65536 := by
  rcases h.status with ⟨-, hnum⟩ | hdead
  · rw [← hnum]
    exact c.arg.blknum.toNat_lt
  · exact absurd hlive.pcb hdead.pcb_not_live

theorem Counted.op_ne_rrq (h : Counted c) : c.arg.op ≠ tftpRrq := by
  rw [h.op]
  exact tftpRrq_ne_wrq.symm

/-- Up to block 65535 the number in the datagram is the next one. -/
theorem next_number_iff (h : Counted c) (hlive : c.Live)
    (hnum : p.u16 1 = UInt16.ofNat ((okWrites c.log).length + 1)) :
    (p.u16 1).toNat = c.arg.blknum.toNat + 1 ↔ (okWrites c.log).length < 65535 := by
  have hlt := h.lt hlive
  rw [hnum, h.blknum hlive, UInt16.toNat_ofNat', UInt16.toNat_ofNat']
  omega

/-- A block with the next number, as an `int`, is written. -/
theorem step_next (h : Counted c) (hlive : c.Live) (hpeer : c.FromPeer addr port)
    (hop : p.u16 0 = tftpData) (hnum : p.u16 1 = UInt16.ofNat ((okWrites c.log).length + 1))
    (hsize : DataSized p) (hwrite : WriteOk e p) (hlt : (okWrites c.log).length < 65535) :
    c.step (.datagram e p addr port)
      = if (dataBlock p).length < tftpDataLenMax then (c.written e p).closed
        else c.written e p := by
  rw [Conn.step_recvData hlive hpeer hop,
    Conn.recvData_written hlive h.op_ne_rrq ((next_number_iff h hlive hnum).mpr hlt)
      (writeRet_of_writeOk hwrite hsize _), Conn.stored_dataLen _ hsize]

/-- Behind block 65535 the number has rolled over to 0 and the block is refused. -/
theorem step_rolledOver (h : Counted c) (hlive : c.Live) (hpeer : c.FromPeer addr port)
    (hop : p.u16 0 = tftpData) (hnum : p.u16 1 = UInt16.ofNat ((okWrites c.log).length + 1))
    (hlast : ¬ (okWrites c.log).length < 65535) :
    c.step (.datagram e p addr port)
      = c.after (Conn.refreshed c.arg) c.fil
          (.recv p :: c.sentIf (e.pbufAlloc 0) (.ack c.arg.blknum) ++ [.pbufFree])
          (Conn.payloadFaults p 0 ++ Conn.payloadFaults p 1) := by
  rw [← next_number_iff h hlive hnum] at hlast
  rw [Conn.step_recvData hlive hpeer hop, Conn.recvData_repeated hlive h.op_ne_rrq hlast]

theorem okWrites_next (hsize : DataSized p) (hwrite : WriteOk e p) :
    okWrites (c.written e p).log = okWrites c.log ++ [dataBlock p] := by
  rw [okWrites_written (writeRet_of_writeOk hwrite hsize _), Conn.firstCells_stored _ hsize]

/-- **The next block.**  On a write connection with `k` blocks written, the block
    numbered `k + 1` modulo `2^16` is stored exactly while `k < 65535`. -/
theorem storedNext_iff (h : Counted c) (hlive : c.Live) (hpeer : c.FromPeer addr port)
    (hop : p.u16 0 = tftpData) (hnum : p.u16 1 = UInt16.ofNat ((okWrites c.log).length + 1))
    (hsize : DataSized p) (hwrite : WriteOk e p) :
    StoredNext c e p addr port (UInt16.ofNat ((okWrites c.log).length + 1)) ↔
      (okWrites c.log).length < 65535 := by
  constructor
  · intro hstored
    by_contra hlast
    have hwrites := hstored.writes
    rw [step_rolledOver h hlive hpeer hop hnum hlast, Conn.after_log, okWrites_append,
      okWrites_answer] at hwrites
    simp at hwrites
  · intro hlt
    have hblk : c.arg.blknum + 1 = UInt16.ofNat ((okWrites c.log).length + 1) := by
      rw [h.blknum hlive, UInt16.ofNat_add]
      rfl
    have hstep := step_next h hlive hpeer hop hnum hsize hwrite hlt
    -- a short block also closes the connection, which keeps the history
    have hlog : (c.step (.datagram e p addr port)).log = (c.written e p).log := by
      rw [hstep]
      split <;> rfl
    have harg : (c.step (.datagram e p addr port)).arg = (c.written e p).arg := by
      rw [hstep]
      split <;> rfl
    refine ⟨?_, ?_, fun halloc => ⟨_, hlog, ?_⟩⟩
    · rw [hlog, okWrites_next hsize hwrite]
    · rw [harg, Conn.written_blknum hsize.2, hblk]
    · have hsame := Conn.stored_blknum (Conn.refreshed c.arg) hsize.2
      rw [halloc, hsame]
      change _ ∈ _ ++ c.sentIf true (.ack (c.arg.blknum + 1)) ++ _
      rw [hblk]
      simp [Conn.sentIf]

end Next

-- ============================================================================
-- A lock-step client
-- ============================================================================

/-- The numbers acknowledged, in order. -/
def acksSent : List Event → List UInt16 :=
  List.filterMap fun
    | .sent _ _ (.ack n) => some n
    | _ => none

/-- The datagram of block `j + 1` of the file, numbered modulo `2^16`. -/
def blockPbuf (content : List UInt8) (j : Nat) : Pbuf :=
  dataPbuf (UInt16.ofNat (j + 1)) (blockAt tftpDataLenMax content j) (length_blockAt_le _ _)

/-- The peer sends block `j + 1`; every library call succeeds. -/
def sendBlock (content : List UInt8) (j : Nat) (c : Conn) : Conn :=
  c.step (.datagram (Env.ok (blockAt tftpDataLenMax content j).length) (blockPbuf content j)
    c.arg.remoteIp c.arg.remotePort)

/-- A client that uploads `content`: it sends block `j + 1`, goes on to the next
    one when the server has acknowledged it and repeats it otherwise, until the
    last block is acknowledged. -/
def uploadLoop (content : List UInt8) : Nat → Nat → Conn → Conn
  | 0, _, c => c
  | fuel + 1, j, c =>
      if content.length / tftpDataLenMax < j then c
      else
        let c := sendBlock content j c
        if (acksSent c.log).getLast? = some (UInt16.ofNat (j + 1)) then
          uploadLoop content fuel (j + 1) c
        else uploadLoop content fuel j c

/-- The file is stored and the server has ended the transfer. -/
def Completed (content : List UInt8) (c : Conn) : Prop :=
  (okWrites c.log).flatten = content ∧ c.Dead

/-- The first `j` blocks of the file are stored. -/
structure Sending (content : List UInt8) (j : Nat) (c : Conn) : Prop where
  live : c.Live
  counted : Counted c
  writes : okWrites c.log = (List.range j).map (blockAt tftpDataLenMax content)

section Client

variable {content : List UInt8} {j : Nat} {c : Conn}

theorem dataBlock_blockPbuf (content : List UInt8) (j : Nat) :
    dataBlock (blockPbuf content j) = blockAt tftpDataLenMax content j :=
  dataBlock_dataPbuf _ _ _

theorem dataSized_blockPbuf (content : List UInt8) (j : Nat) :
    DataSized (blockPbuf content j) :=
  dataSized_dataPbuf _ _ _

/-- The blocks of the client do not reach the fields behind `parg->data`. -/
theorem storesFit_blockPbuf (content : List UInt8) (j : Nat) (c : Conn) (e : Env) (addr : UInt32)
    (port : UInt16) : StoresFit c (.datagram e (blockPbuf content j) addr port) :=
  fun _ _ _ => (dataSized_blockPbuf content j).2

theorem writeOk_blockPbuf (content : List UInt8) (j : Nat) :
    WriteOk (Env.ok (blockAt tftpDataLenMax content j).length) (blockPbuf content j) := by
  rw [WriteOk, dataBlock_blockPbuf]
  rfl

theorem acksSent_append (l es : List Event) : acksSent (l ++ es) = acksSent l ++ acksSent es :=
  List.filterMap_append

theorem Sending.length (h : Sending content j c) : (okWrites c.log).length = j := by
  rw [h.writes, List.length_map, List.length_range]

theorem Sending.number (h : Sending content j c) :
    (blockPbuf content j).u16 1 = UInt16.ofNat ((okWrites c.log).length + 1) := by
  rw [h.length]
  exact dataPbuf_blknum _ _ _

/-- Block `j + 1 ≤ 65535` is stored and acknowledged; the last one ends the
    transfer. -/
theorem Sending.next (h : Sending content j c) (hj : j < 65535) :
    (acksSent (sendBlock content j c).log).getLast? = some (UInt16.ofNat (j + 1)) ∧
      okWrites (sendBlock content j c).log
        = (List.range (j + 1)).map (blockAt tftpDataLenMax content) ∧
      (content.length / tftpDataLenMax ≤ j → (sendBlock content j c).Dead) ∧
      (j < content.length / tftpDataLenMax → Sending content (j + 1) (sendBlock content j c)) := by
  have hlen := h.length
  have hstep : sendBlock content j c = _ := step_next h.counted h.live ⟨rfl, rfl⟩
    (dataPbuf_opcode _ _ _) h.number (dataSized_blockPbuf content j)
    (writeOk_blockPbuf content j) (by omega)
  rw [dataBlock_blockPbuf] at hstep
  have hlog : (sendBlock content j c).log =
      (c.written (Env.ok (blockAt tftpDataLenMax content j).length)
        (blockPbuf content j)).log := by
    rw [hstep]
    split <;> rfl
  have hwrites : okWrites (sendBlock content j c).log
      = (List.range (j + 1)).map (blockAt tftpDataLenMax content) := by
    rw [hlog, okWrites_next (dataSized_blockPbuf content j) (writeOk_blockPbuf content j),
      h.writes, dataBlock_blockPbuf, List.range_succ, List.map_append]
    rfl
  have hack : (acksSent (sendBlock content j c).log).getLast? = some (UInt16.ofNat (j + 1)) := by
    have hblk : (Conn.stored (blockPbuf content j) (Conn.refreshed c.arg)).blknum + 1
        = UInt16.ofNat (j + 1) := by
      rw [Conn.stored_blknum _ (dataSized_blockPbuf content j).2]
      change c.arg.blknum + 1 = _
      rw [h.counted.blknum h.live, hlen, UInt16.ofNat_add]
      rfl
    rw [hlog, Conn.written, Conn.after_log, acksSent_append, hblk]
    exact List.getLast?_concat
  refine ⟨hack, hwrites, fun hlast => ?_, fun hmore => ?_⟩
  · rw [hstep, if_pos ((length_blockAt_lt_iff content j (by decide)).mpr hlast)]
    exact Conn.closed_dead _
  · have hfull : ¬ (blockAt tftpDataLenMax content j).length < tftpDataLenMax := by
      rw [length_blockAt_lt_iff content j (by decide)]
      omega
    refine ⟨?_, counted_step h.counted (storesFit_blockPbuf _ _ _ _ _ _), hwrites⟩
    rw [hstep, if_neg hfull]
    exact Conn.live_after h.live

/-- The block behind 65535 is not stored: the server acknowledges 65535 again. -/
theorem Sending.stuck (h : Sending content 65535 c) :
    (acksSent (sendBlock content 65535 c).log).getLast? ≠ some (UInt16.ofNat (65535 + 1)) ∧
      Sending content 65535 (sendBlock content 65535 c) := by
  have hlen := h.length
  have hstep : sendBlock content 65535 c = _ := step_rolledOver h.counted h.live ⟨rfl, rfl⟩
    (dataPbuf_opcode _ _ _) h.number (by omega)
  have hblk := h.counted.blknum h.live
  rw [hlen] at hblk
  refine ⟨?_, ?_, counted_step h.counted (storesFit_blockPbuf _ _ _ _ _ _), ?_⟩
  · rw [hstep, Conn.after_log, acksSent_append, hblk]
    have hlast : (acksSent c.log ++ acksSent (.recv (blockPbuf content 65535) ::
        c.sentIf true (.ack (UInt16.ofNat 65535)) ++ [.pbufFree])).getLast?
        = some (UInt16.ofNat 65535) := List.getLast?_concat
    change (acksSent c.log ++ acksSent (.recv (blockPbuf content 65535) ::
        c.sentIf true (.ack (UInt16.ofNat 65535)) ++ [.pbufFree])).getLast? ≠ _
    rw [hlast]
    decide
  · rw [hstep]
    exact Conn.live_after h.live
  · rw [hstep, Conn.after_log, okWrites_append, okWrites_answer, List.append_nil, h.writes]

/-- **Short files.**  A file of at most 65535 blocks is stored in one round per
    block. -/
theorem uploadLoop_completes (h : Sending content j c)
    (hfit : content.length / tftpDataLenMax < 65535) {fuel : Nat}
    (hfuel : fuel + j = content.length / tftpDataLenMax + 1) (hj : 0 < fuel) :
    Completed content (uploadLoop content fuel j c) := by
  induction fuel generalizing j c with
  | zero => omega
  | succ fuel ih =>
      obtain ⟨hack, hwrites, hlast, hmore⟩ := h.next (by omega)
      rw [uploadLoop, if_neg (by omega)]
      simp only [if_pos hack]
      by_cases hj' : j < content.length / tftpDataLenMax
      · exact ih (hmore hj') (by omega) (by omega)
      · obtain rfl : fuel = 0 := by omega
        have hend : j = content.length / tftpDataLenMax := by omega
        refine ⟨?_, hlast (by omega)⟩
        rw [uploadLoop, hwrites, hend]
        exact flatten_blockAt_all content (by decide)

/-- **Long files.**  However long the client goes on, a file of more than 65535
    blocks is never stored. -/
theorem uploadLoop_live (h : Sending content j c)
    (hlong : 65535 ≤ content.length / tftpDataLenMax) (hj : j ≤ 65535) (fuel : Nat) :
    (uploadLoop content fuel j c).Live := by
  induction fuel generalizing j c with
  | zero => exact h.live
  | succ fuel ih =>
      rw [uploadLoop, if_neg (by omega)]
      by_cases hlast : j < 65535
      · obtain ⟨hack, -, -, hmore⟩ := h.next hlast
        simp only [if_pos hack]
        exact ih (hmore (by omega)) (by omega)
      · obtain rfl : j = 65535 := by omega
        obtain ⟨hack, hsame⟩ := h.stuck
        simp only [if_neg hack]
        exact ih hsame (Nat.le_refl _)

theorem completed_iff (h : Sending content 0 c) :
    (∃ fuel, Completed content (uploadLoop content fuel 0 c)) ↔
      content.length / tftpDataLenMax < 65535 := by
  constructor
  · rintro ⟨fuel, -, hdead⟩
    by_contra hlong
    exact hdead.pcb_not_live (uploadLoop_live h (by omega) (Nat.zero_le _) fuel).pcb
  · intro hfit
    exact ⟨_, uploadLoop_completes h hfit rfl (Nat.succ_pos _)⟩

/-- A write request starts an upload. -/
theorem sending_request {e : ReqEnv} {p : Pbuf} {addr : UInt32} {port : UInt16}
    (hwrq : p.u16 0 = tftpWrq) (hconn : (requestRecvCallback e p addr port).conn = some c)
    (hlive : c.pcbLive = true) (content : List UInt8) : Sending content 0 c := by
  have hup := uploaded_request hwrq hconn hlive []
  rcases hup.status with ⟨hlive', -⟩ | hdead
  · exact ⟨hlive', counted_request hwrq hconn hlive, hup.writes⟩
  · exact absurd hlive hdead.pcb_not_live

end Client

-- ============================================================================
-- Uploads and the block number
-- ============================================================================

/-- **Rollover of uploads.**  After any run on a write connection with `k` blocks
    written, none of them over the fields behind `parg->data`, the block numbered
    `k + 1` modulo `2^16` is stored exactly while `k < 65535`; so a client that
    numbers its blocks modulo `2^16` completes exactly the files of at most 65535
    blocks. -/
theorem upload_rollover_iff (e : ReqEnv) (p : Pbuf) (addr : UInt32) (port : UInt16) (c : Conn)
    (hwrq : p.u16 0 = tftpWrq) (hconn : (requestRecvCallback e p addr port).conn = some c)
    (hlive : c.pcbLive = true) :
    (∀ (is : List Input) (s : Conn) (k : Nat), StepsMeet Conn.step StoresFit c is →
      s = run Conn.step c is → s.Live → (okWrites s.log).length = k →
      ∀ (e' : Env) (d : Pbuf) (a : UInt32) (pt : UInt16), s.FromPeer a pt →
        d.u16 0 = tftpData → d.u16 1 = UInt16.ofNat (k + 1) → DataSized d → WriteOk e' d →
        (StoredNext s e' d a pt (UInt16.ofNat (k + 1)) ↔ k < 65535)) ∧
    ∀ content : List UInt8, (∃ fuel, Completed content (uploadLoop content fuel 0 c)) ↔
      content.length / tftpDataLenMax < 65535 := by
  refine ⟨?_, fun content => completed_iff (sending_request hwrq hconn hlive content)⟩
  rintro is s k hfits rfl hlive' rfl e' d a pt hpeer hop hnum hsize hwrite
  have hcounted := counted_run (counted_request hwrq hconn hlive) hfits
  exact storedNext_iff hcounted hlive' hpeer hop hnum hsize hwrite

/-- A full block 1 that comes twice. -/
def blockTwice : List Input :=
  [.datagram (Env.ok 512) fullBlock 1 2, .datagram (Env.ok 512) fullBlock 1 2]

/-- Block 2 of a sample client behind these, and a three-byte file. -/
theorem upload_rollover_sample :
    ∃ c, (requestRecvCallback (sampleReqEnv []) (sampleRq tftpWrq) 1 2).conn = some c ∧
      c.pcbLive = true ∧ okWrites (run Conn.step c blockTwice).log = [List.replicate 512 5] ∧
      StoredNext (run Conn.step c blockTwice) (Env.ok 3) (dataPbuf 2 [7, 8, 9] (by decide)) 1 2 2 ∧
      ∃ fuel, Completed [7, 8, 9] (uploadLoop [7, 8, 9] fuel 0 c) := by
  have hconn := request_granted (granted_sample [] (.inr rfl)) 1 2
  obtain ⟨hnext, hfile⟩ := upload_rollover_iff _ _ 1 2 _ (by decide) hconn rfl
  refine ⟨_, hconn, rfl, by decide +kernel, ?_, (hfile [7, 8, 9]).mpr (by decide)⟩
  refine (hnext blockTwice _ 1 ⟨fun _ _ _ => dataSized_fullBlock.2,
    fun _ _ _ => dataSized_fullBlock.2, trivial⟩ rfl ?_ ?_ (Env.ok 3)
    (dataPbuf 2 [7, 8, 9] (by decide)) 1 2 ?_ (dataPbuf_opcode _ _ _) (dataPbuf_blknum _ _ _)
    (by decide) rfl).mpr (by decide)
  · exact ⟨by decide +kernel, by decide +kernel, by decide +kernel, by decide +kernel,
      by decide +kernel⟩
  · decide +kernel
  · exact ⟨by decide +kernel, by decide +kernel⟩

/-- A file of 65535 full blocks, and so one more empty block, is never stored:
    however often the client sends that block, the transfer does not end. -/
theorem long_upload_stalls :
    ∃ c, (requestRecvCallback (sampleReqEnv []) (sampleRq tftpWrq) 1 2).conn = some c ∧
      c.pcbLive = true ∧ ∀ fuel,
        (uploadLoop (List.replicate 33553920 7) fuel 0 c).Live := by
  have hconn := request_granted (granted_sample [] (.inr rfl)) 1 2
  refine ⟨_, hconn, rfl, fun fuel => ?_⟩
  refine uploadLoop_live (sending_request (by decide) hconn rfl _) ?_ (Nat.zero_le _) fuel
  rw [List.length_replicate]
  decide

end McuFirmware.Tftp
