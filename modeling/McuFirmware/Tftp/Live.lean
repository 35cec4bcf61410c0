/-
  McuFirmware.Tftp.Live

  What one step does to a connection that holds all its resources.

  `Conn.Live` is the state between steps of an open connection, `Conn.closed`
  the state `close_tftp_connection` leaves.  `DatagramStep` and `TickStep` list
  every outcome of the two callbacks with its guard and its exact effect; the
  two inversion theorems say that a step of a live connection is one of them.
  Everything proved later about runs goes through these two lists.
-/

import McuFirmware.Tftp.Conn

namespace McuFirmware.Tftp

open McuFirmware.Lib McuFirmware.Lwip

namespace Conn

variable {c : Conn}

/-- All resources of the connection are held and its timer is armed once. -/
structure Live (c : Conn) : Prop where
  arg : c.argLive = true
  fil : c.filLive = true
  file : c.fileOpen = true
  pcb : c.pcbLive = true
  timer : c.timers = 1

/-- No resource of the connection is held. -/
structure Dead (c : Conn) : Prop where
  arg : c.argLive = false
  fil : c.filLive = false
  file : c.fileOpen = false
  pcb : c.pcbLive = false
  timer : c.timers = 0

/-- The connection with new argument block and file object, more history and
    more faults. -/
def after (c : Conn) (a : ConnArgs) (f : Fil) (es : List Event) (fs : List Fault) : Conn :=
  { c with arg := a, fil := f, log := c.log ++ es, faults := c.faults ++ fs }

/-- Every resource released once. -/
def closed (c : Conn) : Conn :=
  { c with
    pcb := { c.pcb with remoteIp := 0, remotePort := 0 }
    argLive := false, filLive := false, fileOpen := false, pcbLive := false
    timers := 0, closes := c.closes + 1 }

theorem closeTftpConnection_live (h : c.Live) : c.closeTftpConnection = c.closed := by
  simp [closeTftpConnection, closed, derefPcb, derefArg, derefFil, sysUntimeout, touch,
    tftpFileClose, memFreeFil, memFreeArg, udpDisconnect, udpRemove,
    h.arg, h.fil, h.file, h.pcb, h.timer]

theorem closed_dead (c : Conn) : c.closed.Dead := ⟨rfl, rfl, rfl, rfl, rfl⟩

theorem Dead.pcb_not_live (h : c.Dead) : ¬ c.pcbLive = true := by
  rw [h.pcb]
  exact Bool.false_ne_true

theorem live_after {a : ConnArgs} {f : Fil} {es : List Event} {fs : List Fault}
    (h : c.Live) : (c.after a f es fs).Live :=
  ⟨h.arg, h.fil, h.file, h.pcb, h.timer⟩

/-- Nothing reaches a dead connection. -/
theorem step_of_dead (h : c.Dead) (i : Input) : c.step i = c := by
  cases i <;> simp [step, h.pcb, h.timer]


-- ============================================================================
-- Outcomes of a datagram
-- ============================================================================

/-- The fault of the access `payload[k]`, if it is one. -/
def payloadFaults (p : Pbuf) (k : Nat) : List Fault :=
  if p.Inside k then [] else [.overread]

/-- A datagram to the connected peer, when its pbuf could be allocated. -/
def sentIf (c : Conn) (alloc : Bool) (pkt : Packet) : List Event :=
  if alloc then [.sent c.pcb.remoteIp c.pcb.remotePort pkt] else []

theorem forall_sentIf {Q : Event → Prop} {alloc : Bool} {pkt : Packet}
    (h : Q (.sent c.pcb.remoteIp c.pcb.remotePort pkt)) : ∀ ev ∈ c.sentIf alloc pkt, Q ev := by
  intro ev hev
  cases alloc with
  | false => exact absurd hev List.not_mem_nil
  | true =>
      rw [sentIf, if_pos rfl, List.mem_singleton] at hev
      rw [hev]
      exact h

/-- A datagram is received, answered by `es` and freed. -/
theorem forall_answer {Q : Event → Prop} {p : Pbuf} {es : List Event} (hrecv : Q (.recv p))
    (hfree : Q .pbufFree) (hes : ∀ ev ∈ es, Q ev) : ∀ ev ∈ .recv p :: es ++ [.pbufFree], Q ev := by
  intro ev hev
  rcases List.mem_append.mp hev with hev | hev
  · rcases List.mem_cons.mp hev with rfl | hev
    · exact hrecv
    · exact hes ev hev
  · rw [List.mem_singleton.mp hev]
    exact hfree

/-- A datagram is received and freed. -/
theorem forall_dropped {Q : Event → Prop} {p : Pbuf} (hrecv : Q (.recv p)) (hfree : Q .pbufFree) :
    ∀ ev ∈ [.recv p, .pbufFree], Q ev :=
  List.forall_mem_cons.mpr ⟨hrecv, List.forall_mem_singleton.mpr hfree⟩

/-- The timeout bookkeeping every datagram of the peer resets. -/
def refreshed (a : ConnArgs) : ConnArgs :=
  { a with lastTime := a.timer, retries := 0 }

/-- The payload bytes a DATA datagram makes the handler copy. -/
def copied (p : Pbuf) : List UInt8 :=
  p.copyPartial (p.totLen - UInt16.ofNat tftpDataPktHdrLen) (UInt16.ofNat tftpDataPktHdrLen)

/-- The argument block after the payload of a DATA datagram was stored. -/
def stored (p : Pbuf) (a : ConnArgs) : ConnArgs :=
  ConnArgs.spilled
    { a with
      dataLen := p.totLen - UInt16.ofNat tftpDataPktHdrLen
      data := a.data.memcpy 0 (copied p) }
    ((copied p).drop tftpDataLenMax)

/-- The fault of storing the payload of a DATA datagram, if it is one. -/
def overflowFaults (p : Pbuf) : List Fault :=
  if (copied p).length ≤ tftpDataLenMax then [] else [.overflow]

/-- The fault of handing `len` bytes of `parg->data` to `fop.write`, if it is one. -/
def overreadFaults (len : UInt16) : List Fault :=
  if len.toNat ≤ tftpDataLenMax then [] else [.overread]

/-- The faults of storing and writing the payload of a DATA datagram. -/
def storeFaults (p : Pbuf) (a : ConnArgs) : List Fault :=
  overflowFaults p ++ overreadFaults (stored p a).dataLen

/-- What `fop.write` returns for `len` bytes. -/
def writeRet (e : Env) (len : UInt16) : Int :=
  if e.fWrite.1 ≠ 0 ∨ e.fWrite.2 ≠ len.toNat then -1 else e.fWrite.2

/-- The `fop.write` call for the block in `a`. -/
def writeEvent (e : Env) (a : ConnArgs) : Event :=
  .write (a.data.firstCells a.dataLen.toNat) a.dataLen (writeRet e a.dataLen)

/-- The argument block after `tftp_send_data` read the next block. -/
def advanced (c : Conn) (a : ConnArgs) : ConnArgs :=
  { a with
    blknum := a.blknum + 1
    data := a.data.memcpy 0 c.nextBytes
    dataLen := UInt16.ofNat c.nextBytes.length }

/-- The file object after that read. -/
def readOn (c : Conn) : Fil :=
  { c.fil with fptr := c.fil.fptr + c.nextBytes.length }

/-- The DATA datagram of an argument block. -/
def packetOf (a : ConnArgs) : Packet :=
  .data a.blknum (a.data.firstCells a.dataLen.toNat)

/-- The connection after a block was written and acknowledged. -/
def written (e : Env) (p : Pbuf) (c : Conn) : Conn :=
  c.after
    { stored p (refreshed c.arg) with blknum := (stored p (refreshed c.arg)).blknum + 1 } c.fil
    ([.recv p, .store (copied p).length, writeEvent e (stored p (refreshed c.arg))]
      ++ c.sentIf (e.pbufAlloc 0) (.ack ((stored p (refreshed c.arg)).blknum + 1)) ++ [.pbufFree])
    (payloadFaults p 0 ++ payloadFaults p 1 ++ storeFaults p (refreshed c.arg))

/-- The connection after the next block was read and sent. -/
def fetched (e : Env) (p : Pbuf) (c : Conn) : Conn :=
  c.after (c.advanced (refreshed c.arg)) c.readOn
    ([.recv p, .read c.nextBytes.length]
      ++ c.sentIf (e.pbufAlloc 0) (packetOf (c.advanced (refreshed c.arg))) ++ [.pbufFree])
    (payloadFaults p 0 ++ payloadFaults p 1)

/-- The connection after `tftp_send_data` could not read the next block and closed
    it, and the callback went on with its `parg`. -/
def abandoned (e : Env) (p : Pbuf) (c : Conn) : Conn :=
  (c.after { refreshed c.arg with blknum := c.arg.blknum + 1 } c.fil
    ([.recv p, .read (-1)] ++ c.sentIf (e.pbufAlloc 0)
      (.error tftpErrAccessViolation "Error occured while reading the file."))
    (payloadFaults p 0 ++ payloadFaults p 1)).closed.fault (.dead .arg)

/-- The datagram comes from the peer the connection was opened for. -/
def FromPeer (c : Conn) (addr : UInt32) (port : UInt16) : Prop :=
  port = c.arg.remotePort ∧ addr = c.arg.remoteIp

-- ============================================================================
-- The code on a live connection
-- ============================================================================

section Symbolic

variable {a : ConnArgs} {f : Fil} {es : List Event} {fs : List Fault}

@[simp] theorem after_arg : (c.after a f es fs).arg = a := rfl
@[simp] theorem after_fil : (c.after a f es fs).fil = f := rfl
@[simp] theorem after_pcb : (c.after a f es fs).pcb = c.pcb := rfl
@[simp] theorem after_log : (c.after a f es fs).log = c.log ++ es := rfl
@[simp] theorem after_faults : (c.after a f es fs).faults = c.faults ++ fs := rfl
@[simp] theorem after_closes : (c.after a f es fs).closes = c.closes := rfl

theorem after_self (c : Conn) : c.after c.arg c.fil [] [] = c := by
  simp [after]

theorem after_emit (ev : Event) :
    (c.after a f es fs).emit ev = c.after a f (es ++ [ev]) fs := by
  simp [after, emit]

theorem after_fault (x : Fault) :
    (c.after a f es fs).fault x = c.after a f es (fs ++ [x]) := by
  simp [after, fault]

theorem after_derefArg (h : c.Live) : (c.after a f es fs).derefArg = c.after a f es fs := by
  simp [derefArg, touch, after, h.arg]

theorem after_derefPcb (h : c.Live) : (c.after a f es fs).derefPcb = c.after a f es fs := by
  simp [derefPcb, touch, after, h.pcb]

theorem after_derefFil (h : c.Live) : (c.after a f es fs).derefFil = c.after a f es fs := by
  simp [derefFil, touch, after, h.fil, h.file]

theorem after_modifyArg (h : c.Live) (g : ConnArgs → ConnArgs) :
    (c.after a f es fs).modifyArg g = c.after (g a) f es fs := by
  rw [modifyArg, after_derefArg h]
  rfl

theorem after_close (h : c.Live) :
    (c.after a f es fs).closeTftpConnection = (c.after a f es fs).closed :=
  closeTftpConnection_live (live_after h)

theorem after_udpSend (h : c.Live) (pkt : Packet) :
    (c.after a f es fs).udpSend pkt = c.after a f (es ++ c.sentIf true pkt) fs := by
  rw [udpSend, after_derefPcb h, after_emit]
  rfl

theorem after_tftpSendError (h : c.Live) (alloc : Bool) (code : UInt16) (msg : String) :
    (c.after a f es fs).tftpSendError alloc code msg
      = c.after a f (es ++ c.sentIf alloc (.error code msg)) fs := by
  cases alloc
  · simp [tftpSendError, sentIf]
  · simpa [tftpSendError] using after_udpSend h _

theorem after_tftpSendErrorTo (h : c.Live) (alloc : Bool) (ip : UInt32) (port code : UInt16)
    (msg : String) :
    (c.after a f es fs).tftpSendErrorTo alloc ip port code msg
      = c.after a f (es ++ if alloc then [.sent ip port (.error code msg)] else []) fs := by
  cases alloc
  · simp [tftpSendErrorTo]
  · simp [tftpSendErrorTo, udpSendto, after_derefPcb h, after_emit]

theorem after_tftpSendAck (h : c.Live) (alloc : Bool) (blknum : UInt16) :
    (c.after a f es fs).tftpSendAck alloc blknum
      = c.after a f (es ++ c.sentIf alloc (.ack blknum)) fs := by
  cases alloc
  · simp [tftpSendAck, sentIf]
  · simpa [tftpSendAck] using after_udpSend h _

theorem after_readPayload (p : Pbuf) (k : Nat) :
    (c.after a f es fs).readPayload p k = c.after a f es (fs ++ payloadFaults p k) := by
  by_cases hin : p.Inside k
  · simp [readPayload, payloadFaults, hin]
  · simp [readPayload, payloadFaults, hin, after_fault]

/-- Storing the payload of a DATA datagram. -/
theorem after_storePayload (h : c.Live) (p : Pbuf) :
    (c.after { a with dataLen := p.totLen - UInt16.ofNat tftpDataPktHdrLen } f es
        fs).storePayload p
      = c.after (stored p a) f (es ++ [.store (copied p).length])
          (fs ++ overflowFaults p) := by
  simp only [storePayload, after_arg, overflowFaults]
  change Conn.emit (Conn.modifyArg (if (copied p).length ≤ tftpDataLenMax then _ else _) _) _ = _
  by_cases hfit : (copied p).length ≤ tftpDataLenMax
  · rw [if_pos hfit, if_pos hfit, after_modifyArg h, after_emit, List.append_nil]
    rfl
  · rw [if_neg hfit, if_neg hfit, after_fault, after_modifyArg h, after_emit]
    rfl

/-- Handing the block in `a` to `fop.write`. -/
theorem after_tftpFileWrite (h : c.Live) (e : Env) :
    (c.after a f es fs).tftpFileWrite e
      = (writeRet e a.dataLen,
         c.after a f (es ++ [writeEvent e a])
          (fs ++ overreadFaults a.dataLen)) := by
  by_cases hfit : a.dataLen.toNat ≤ tftpDataLenMax
  · simp only [tftpFileWrite, overreadFaults, after_derefFil h, after_arg, if_pos hfit,
      after_emit, List.append_nil]
    rfl
  · simp only [tftpFileWrite, overreadFaults, after_derefFil h, after_arg, if_neg hfit,
      after_fault, after_emit]
    rfl

/-- `fop.read` of the next block. -/
theorem after_tftpFileRead (h : c.Live) (e : Env) (hread : e.fRead = 0) :
    (c.after a c.fil es fs).tftpFileRead e
      = ((c.nextBytes.length : Int),
         c.after { a with data := a.data.memcpy 0 c.nextBytes } c.readOn
          (es ++ [.read c.nextBytes.length]) fs) := by
  have hok : ¬ e.fRead ≠ 0 := by simpa using hread
  simp only [tftpFileRead, after_derefFil h, if_neg hok, after_modifyArg h]
  simp [after, emit, readOn, nextBytes]

/-- `tftp_send_data` when `fop.read` delivers the next block. -/
theorem after_tftpSendData (h : c.Live) (e : Env) (hread : e.fRead = 0) :
    (c.after a c.fil es fs).tftpSendData e
      = c.after (c.advanced a) c.readOn
          (es ++ [.read c.nextBytes.length]
            ++ c.sentIf (e.pbufAlloc 0) (packetOf (c.advanced a))) fs := by
  have hret : ¬ ((c.nextBytes.length : Int) < 0) := by omega
  simp only [tftpSendData, after_derefPcb h, after_modifyArg h, after_tftpFileRead h e hread,
    if_neg hret, Int.toNat_natCast]
  cases e.pbufAlloc 0 with
  | false => simp [sentIf, advanced]
  | true =>
      rw [if_pos rfl, after_udpSend h]
      rfl

/-- `tftp_send_data` when `fop.read` fails. -/
theorem after_tftpSendData_error (h : c.Live) (e : Env) (hread : e.fRead ≠ 0) :
    (c.after a f es fs).tftpSendData e
      = (c.after { a with blknum := a.blknum + 1 } f
          (es ++ [.read (-1)] ++ c.sentIf (e.pbufAlloc 0)
            (.error tftpErrAccessViolation "Error occured while reading the file.")) fs).closed := by
  have hneg : (-1 : Int) < 0 := by decide
  simp only [tftpSendData, tftpFileRead, after_derefPcb h, after_modifyArg h, after_derefFil h,
    if_pos hread, after_emit, if_pos hneg, after_tftpSendError h, after_close h]

end Symbolic

-- ============================================================================
-- The outcomes
-- ============================================================================

/-- What `data_ack_recv_callback` can do on a live connection. -/
inductive DatagramStep (e : Env) (p : Pbuf) (addr : UInt32) (port : UInt16) (c : Conn) :
    Conn → Prop where
  /-- not the peer: both sides get an ERROR, the transfer ends -/
  | foreign (es : List Event)
      (hpeer : ¬ c.FromPeer addr port)
      (hes : ∀ ev ∈ es, ∃ ip port' code msg, ev = .sent ip port' (.error code msg)) :
      DatagramStep e p addr port c
        (c.after c.arg c.fil (.recv p :: es ++ [.pbufFree]) []).closed
  | request
      (hpeer : c.FromPeer addr port)
      (hop : p.u16 0 = tftpWrq ∨ p.u16 0 = tftpRrq) :
      DatagramStep e p addr port c
        (c.after (refreshed c.arg) c.fil [.recv p, .pbufFree] (payloadFaults p 0))
  | error
      (hpeer : c.FromPeer addr port) (hop : p.u16 0 = tftpError) :
      DatagramStep e p addr port c
        (c.after (refreshed c.arg) c.fil [.recv p, .pbufFree] (payloadFaults p 0)).closed
  | dataOnRead
      (hpeer : c.FromPeer addr port) (hop : p.u16 0 = tftpData) (hrrq : c.arg.op = tftpRrq) :
      DatagramStep e p addr port c
        (c.after (refreshed c.arg) c.fil
          (.recv p :: c.sentIf (e.pbufAlloc 0)
            (.error tftpErrAccessViolation "Not a write connection") ++ [.pbufFree])
          (payloadFaults p 0)).closed
  /-- the next block, but `fop.write` fails -/
  | dataRefused
      (hpeer : c.FromPeer addr port) (hop : p.u16 0 = tftpData) (hrrq : c.arg.op ≠ tftpRrq)
      (hblk : (p.u16 1).toNat = c.arg.blknum.toNat + 1)
      (hret : writeRet e (stored p (refreshed c.arg)).dataLen < 0) :
      DatagramStep e p addr port c
        (c.after (stored p (refreshed c.arg)) c.fil
          ([.recv p, .store (copied p).length, writeEvent e (stored p (refreshed c.arg))]
            ++ c.sentIf (e.pbufAlloc 0) (.error tftpErrAccessViolation "error writing file")
            ++ [.pbufFree])
          (payloadFaults p 0 ++ payloadFaults p 1 ++ storeFaults p (refreshed c.arg))).closed
  /-- the next block, written and acknowledged; a short block ends the transfer -/
  | dataWritten
      (hpeer : c.FromPeer addr port) (hop : p.u16 0 = tftpData) (hrrq : c.arg.op ≠ tftpRrq)
      (hblk : (p.u16 1).toNat = c.arg.blknum.toNat + 1)
      (hret : 0 ≤ writeRet e (stored p (refreshed c.arg)).dataLen) :
      DatagramStep e p addr port c
        (if (stored p (refreshed c.arg)).dataLen.toNat < tftpDataLenMax then (c.written e p).closed
          else c.written e p)
  | dataRepeated
      (hpeer : c.FromPeer addr port) (hop : p.u16 0 = tftpData) (hrrq : c.arg.op ≠ tftpRrq)
      (hblk : (p.u16 1).toNat ≠ c.arg.blknum.toNat + 1) :
      DatagramStep e p addr port c
        (c.after (refreshed c.arg) c.fil
          (.recv p :: c.sentIf (e.pbufAlloc 0) (.ack c.arg.blknum) ++ [.pbufFree])
          (payloadFaults p 0 ++ payloadFaults p 1))
  | ackOnWrite
      (hpeer : c.FromPeer addr port) (hop : p.u16 0 = tftpAck) (hwrq : c.arg.op = tftpWrq) :
      DatagramStep e p addr port c
        (c.after (refreshed c.arg) c.fil
          (.recv p :: c.sentIf (e.pbufAlloc 0)
            (.error tftpErrAccessViolation "Not a read connection") ++ [.pbufFree])
          (payloadFaults p 0)).closed
  /-- the ACK of the current block, but `fop.read` fails: `tftp_send_data`
      closes the connection and the callback goes on with its `parg` -/
  | ackReadError
      (hpeer : c.FromPeer addr port) (hop : p.u16 0 = tftpAck) (hwrq : c.arg.op ≠ tftpWrq)
      (hblk : p.u16 1 = c.arg.blknum) (hread : e.fRead ≠ 0) :
      DatagramStep e p addr port c
        ((if c.arg.dataLen.toNat < tftpDataLenMax then (c.abandoned e p).closeTftpConnection
          else c.abandoned e p).emit .pbufFree)
  /-- the ACK of the current block: the next block is read and sent; a short
      block ends the transfer -/
  | ackAdvance
      (hpeer : c.FromPeer addr port) (hop : p.u16 0 = tftpAck) (hwrq : c.arg.op ≠ tftpWrq)
      (hblk : p.u16 1 = c.arg.blknum) (hread : e.fRead = 0) :
      DatagramStep e p addr port c
        (if (c.advanced c.arg).dataLen.toNat < tftpDataLenMax then (c.fetched e p).closed
          else c.fetched e p)
  | ackStale
      (hpeer : c.FromPeer addr port) (hop : p.u16 0 = tftpAck) (hwrq : c.arg.op ≠ tftpWrq)
      (hblk : p.u16 1 ≠ c.arg.blknum) :
      DatagramStep e p addr port c
        (c.after (refreshed c.arg) c.fil [.recv p, .pbufFree]
          (payloadFaults p 0 ++ payloadFaults p 1))
  | unknown
      (hpeer : c.FromPeer addr port)
      (hrq : ¬ (p.u16 0 = tftpWrq ∨ p.u16 0 = tftpRrq)) (herr : p.u16 0 ≠ tftpError)
      (hdata : p.u16 0 ≠ tftpData) (hack : p.u16 0 ≠ tftpAck) :
      DatagramStep e p addr port c
        (c.after (refreshed c.arg) c.fil
          (.recv p :: c.sentIf (e.pbufAlloc 0) (.error tftpErrIllegalop "Unknown operation")
            ++ [.pbufFree])
          (payloadFaults p 0))

section Inversion

variable {e : Env} {p : Pbuf} {addr : UInt32} {port : UInt16}

theorem after_closed_emit {a : ConnArgs} {f : Fil} {es : List Event} {fs : List Fault}
    (ev : Event) :
    (c.after a f es fs).closed.emit ev = (c.after a f (es ++ [ev]) fs).closed := by
  rw [← after_emit]
  rfl

/-- DATA with the next number that `fop.write` accepts. -/
theorem recvData_written (h : c.Live) (hrrq : c.arg.op ≠ tftpRrq)
    (hblk : (p.u16 1).toNat = c.arg.blknum.toNat + 1)
    (hret : 0 ≤ writeRet e (stored p (refreshed c.arg)).dataLen) :
    ((c.after (refreshed c.arg) c.fil [.recv p] (payloadFaults p 0)).recvData e p).emit .pbufFree
      = if (stored p (refreshed c.arg)).dataLen.toNat < tftpDataLenMax then (c.written e p).closed
        else c.written e p := by
  simp only [recvData, after_derefArg h, after_arg, after_readPayload,
    if_neg (show ¬ (refreshed c.arg).op = tftpRrq from hrrq),
    if_pos (show (p.u16 1).toNat = (refreshed c.arg).blknum.toNat + 1 from hblk),
    after_modifyArg h, after_storePayload h, after_tftpFileWrite h, if_neg (Int.not_lt.mpr hret),
    after_tftpSendAck h, after_close h]
  by_cases hshort : (stored p (refreshed c.arg)).dataLen.toNat < tftpDataLenMax
  · rw [if_pos hshort, if_pos hshort, after_closed_emit, written]
    simp [storeFaults]
  · rw [if_neg hshort, if_neg hshort, after_emit, written]
    simp [storeFaults]

/-- DATA with another number than the next one is acknowledged as before. -/
theorem recvData_repeated (h : c.Live) (hrrq : c.arg.op ≠ tftpRrq)
    (hblk : (p.u16 1).toNat ≠ c.arg.blknum.toNat + 1) :
    ((c.after (refreshed c.arg) c.fil [.recv p] (payloadFaults p 0)).recvData e p).emit .pbufFree
      = c.after (refreshed c.arg) c.fil
          (.recv p :: c.sentIf (e.pbufAlloc 0) (.ack c.arg.blknum) ++ [.pbufFree])
          (payloadFaults p 0 ++ payloadFaults p 1) := by
  simp only [recvData, after_derefArg h, after_arg, after_readPayload,
    if_neg (show ¬ (refreshed c.arg).op = tftpRrq from hrrq),
    if_neg (show ¬ (p.u16 1).toNat = (refreshed c.arg).blknum.toNat + 1 from hblk),
    after_tftpSendAck h, after_emit]
  rfl

/-- The branch `TFTP_DATA` on a live connection. -/
theorem recvData_outcome (h : c.Live) (hpeer : c.FromPeer addr port) (hop : p.u16 0 = tftpData) :
    DatagramStep e p addr port c
      (((c.after (refreshed c.arg) c.fil [.recv p] (payloadFaults p 0)).recvData e p).emit
        .pbufFree) := by
  by_cases hrrq : c.arg.op = tftpRrq
  · simp only [recvData, after_derefArg h, after_arg]
    rw [if_pos (show (refreshed c.arg).op = tftpRrq from hrrq), after_tftpSendError h,
      after_close h, after_closed_emit]
    exact .dataOnRead hpeer hop hrrq
  by_cases hblk : (p.u16 1).toNat = c.arg.blknum.toNat + 1
  · by_cases hret : writeRet e (stored p (refreshed c.arg)).dataLen < 0
    · simp only [recvData, after_derefArg h, after_arg, after_readPayload,
        if_neg (show ¬ (refreshed c.arg).op = tftpRrq from hrrq),
        if_pos (show (p.u16 1).toNat = (refreshed c.arg).blknum.toNat + 1 from hblk),
        after_modifyArg h, after_storePayload h, after_tftpFileWrite h, if_pos hret,
        after_tftpSendError h, after_close h, after_closed_emit]
      have hstep := DatagramStep.dataRefused hpeer hop hrrq hblk hret
      simpa [storeFaults] using hstep
    · rw [recvData_written h hrrq hblk (Int.not_lt.mp hret)]
      exact .dataWritten hpeer hop hrrq hblk (Int.not_lt.mp hret)
  · rw [recvData_repeated h hrrq hblk]
    exact .dataRepeated hpeer hop hrrq hblk

/-- The ACK of the current block of a read connection, with `fop.read` succeeding. -/
theorem recvAck_advance (h : c.Live) (hwrq : c.arg.op ≠ tftpWrq) (hblk : p.u16 1 = c.arg.blknum)
    (hread : e.fRead = 0) :
    ((c.after (refreshed c.arg) c.fil [.recv p] (payloadFaults p 0)).recvAck e p).emit .pbufFree
      = if (c.advanced c.arg).dataLen.toNat < tftpDataLenMax then (c.fetched e p).closed
        else c.fetched e p := by
  simp only [recvAck, after_derefArg h, after_arg, after_readPayload,
    if_neg (show ¬ (refreshed c.arg).op = tftpWrq from hwrq),
    if_pos (show p.u16 1 = (refreshed c.arg).blknum from hblk),
    after_tftpSendData h e hread, after_close h]
  by_cases hshort : (c.advanced c.arg).dataLen.toNat < tftpDataLenMax
  · rw [if_pos (show (c.advanced (refreshed c.arg)).dataLen.toNat < _ from hshort), if_pos hshort,
      after_closed_emit]
    rfl
  · rw [if_neg (show ¬ (c.advanced (refreshed c.arg)).dataLen.toNat < _ from hshort),
      if_neg hshort, after_emit]
    rfl

/-- The ACK of another block. -/
theorem recvAck_stale (h : c.Live) (hwrq : c.arg.op ≠ tftpWrq) (hblk : p.u16 1 ≠ c.arg.blknum) :
    ((c.after (refreshed c.arg) c.fil [.recv p] (payloadFaults p 0)).recvAck e p).emit .pbufFree
      = c.after (refreshed c.arg) c.fil [.recv p, .pbufFree]
          (payloadFaults p 0 ++ payloadFaults p 1) := by
  simp only [recvAck, after_derefArg h, after_arg, after_readPayload,
    if_neg (show ¬ (refreshed c.arg).op = tftpWrq from hwrq),
    if_neg (show ¬ p.u16 1 = (refreshed c.arg).blknum from hblk), after_emit]
  rfl

/-- The branch `TFTP_ACK` on a live connection. -/
theorem recvAck_outcome (h : c.Live) (hpeer : c.FromPeer addr port) (hop : p.u16 0 = tftpAck) :
    DatagramStep e p addr port c
      (((c.after (refreshed c.arg) c.fil [.recv p] (payloadFaults p 0)).recvAck e p).emit
        .pbufFree) := by
  by_cases hwrq : c.arg.op = tftpWrq
  · simp only [recvAck, after_derefArg h, after_arg]
    rw [if_pos (show (refreshed c.arg).op = tftpWrq from hwrq), after_tftpSendError h,
      after_close h, after_closed_emit]
    exact .ackOnWrite hpeer hop hwrq
  by_cases hblk : p.u16 1 = c.arg.blknum
  · by_cases hread : e.fRead = 0
    · rw [recvAck_advance h hwrq hblk hread]
      exact .ackAdvance hpeer hop hwrq hblk hread
    · simp only [recvAck, after_derefArg h, after_arg, after_readPayload,
        if_neg (show ¬ (refreshed c.arg).op = tftpWrq from hwrq),
        if_pos (show p.u16 1 = (refreshed c.arg).blknum from hblk),
        after_tftpSendData_error h e hread]
      exact .ackReadError hpeer hop hwrq hblk hread
  · rw [recvAck_stale h hwrq hblk]
    exact .ackStale hpeer hop hwrq hblk

/-- A datagram of the peer: the bookkeeping, then the branch of its opcode. -/
theorem step_fromPeer (h : c.Live) (e : Env) (p : Pbuf) {addr : UInt32} {port : UInt16}
    (hpeer : c.FromPeer addr port) :
    c.step (.datagram e p addr port)
      = (let d := c.after (refreshed c.arg) c.fil [.recv p] (payloadFaults p 0)
         if p.u16 0 = tftpWrq ∨ p.u16 0 = tftpRrq then d
         else if p.u16 0 = tftpError then d.closeTftpConnection
         else if p.u16 0 = tftpData then d.recvData e p
         else if p.u16 0 = tftpAck then d.recvAck e p
         else d.tftpSendError (e.pbufAlloc 0) tftpErrIllegalop "Unknown operation").emit
          .pbufFree := by
  have hrecv : c.emit (.recv p) = c.after c.arg c.fil [.recv p] [] := by simp [emit, after]
  have hsame : ¬ (port ≠ c.arg.remotePort ∨ addr ≠ c.arg.remoteIp) := by
    simpa [FromPeer, not_or] using hpeer
  simp only [step, h.pcb, if_true, hrecv, dataAckRecvCallback, after_derefArg h, after_arg,
    if_neg hsame, after_modifyArg h, after_readPayload, List.nil_append]
  rfl

theorem step_recvData (h : c.Live) (hpeer : c.FromPeer addr port) (hop : p.u16 0 = tftpData) :
    c.step (.datagram e p addr port)
      = ((c.after (refreshed c.arg) c.fil [.recv p] (payloadFaults p 0)).recvData e p).emit
          .pbufFree := by
  rw [step_fromPeer h e p hpeer]
  dsimp only
  rw [hop, if_neg (by decide), if_neg (by decide), if_pos rfl]

theorem step_recvAck (h : c.Live) (hpeer : c.FromPeer addr port) (hop : p.u16 0 = tftpAck) :
    c.step (.datagram e p addr port)
      = ((c.after (refreshed c.arg) c.fil [.recv p] (payloadFaults p 0)).recvAck e p).emit
          .pbufFree := by
  rw [step_fromPeer h e p hpeer]
  dsimp only
  rw [hop, if_neg (by decide), if_neg (by decide), if_neg (by decide), if_pos rfl]

/-- **Inversion, datagrams.**  A datagram on a live connection has one of the
    listed outcomes. -/
theorem step_datagram (h : c.Live) (e : Env) (p : Pbuf) (addr : UInt32) (port : UInt16) :
    DatagramStep e p addr port c (c.step (.datagram e p addr port)) := by
  by_cases hpeer : c.FromPeer addr port
  · rw [step_fromPeer h e p hpeer]
    dsimp only
    by_cases hrq : p.u16 0 = tftpWrq ∨ p.u16 0 = tftpRrq
    · rw [if_pos hrq, after_emit]
      exact .request hpeer hrq
    rw [if_neg hrq]
    by_cases herr : p.u16 0 = tftpError
    · rw [if_pos herr, after_close h, after_closed_emit]
      exact .error hpeer herr
    rw [if_neg herr]
    by_cases hdata : p.u16 0 = tftpData
    · rw [if_pos hdata]
      exact recvData_outcome h hpeer hdata
    rw [if_neg hdata]
    by_cases hack : p.u16 0 = tftpAck
    · rw [if_pos hack]
      exact recvAck_outcome h hpeer hack
    rw [if_neg hack, after_tftpSendError h, after_emit]
    exact .unknown hpeer hrq herr hdata hack
  · have hother : port ≠ c.arg.remotePort ∨ addr ≠ c.arg.remoteIp := by
      by_contra hcon
      simp only [not_or, not_not] at hcon
      exact hpeer hcon
    have hrecv : c.emit (.recv p) = c.after c.arg c.fil [.recv p] [] := by simp [emit, after]
    simp only [step, h.pcb, if_true, hrecv, dataAckRecvCallback, after_derefArg h, after_arg,
      if_pos hother,
      after_tftpSendErrorTo h, after_close h, after_closed_emit]
    have hstep := DatagramStep.foreign (e := e) (p := p)
      ((if e.pbufAlloc 0 then
          [.sent addr port (.error tftpErrNotdefined "what the hell are you doing?")] else [])
        ++ (if e.pbufAlloc 1 then
          [.sent c.arg.remoteIp c.arg.remotePort
            (.error tftpErrNotdefined "something impossible just happened")] else []))
      hpeer (by
        intro ev hev
        rcases List.mem_append.mp hev with hev | hev
        · split at hev
          · exact ⟨_, _, _, _, List.mem_singleton.mp hev⟩
          · exact absurd hev (List.not_mem_nil)
        · split at hev
          · exact ⟨_, _, _, _, List.mem_singleton.mp hev⟩
          · exact absurd hev (List.not_mem_nil))
    simpa using hstep

end Inversion

-- ============================================================================
-- Outcomes of a timer tick
-- ============================================================================

/-- The argument block after `parg->timer++`. -/
def ticked (a : ConnArgs) : ConnArgs :=
  { a with timer := a.timer + 1 }

/-- The argument block after a retransmission. -/
def retried (a : ConnArgs) : ConnArgs :=
  { ticked a with retries := a.retries + 1 }

/-- More than the timeout has passed since the last datagram. -/
def TimedOut (a : ConnArgs) : Prop :=
  tftpServerTimeoutMsecs / tftpServerTimerMsecs < a.timer - a.lastTime

instance (a : ConnArgs) : Decidable (TimedOut a) := inferInstanceAs (Decidable (_ < _))

/-- What `tftp_server_tmr` can do on a live connection. -/
inductive TickStep (e : Env) (c : Conn) : Conn → Prop where
  | quiet (hquiet : ¬ TimedOut (ticked c.arg)) :
      TickStep e c (c.after (ticked c.arg) c.fil [.tick] [])
  | resend (hout : TimedOut (ticked c.arg)) (hrrq : c.arg.op = tftpRrq)
      (hretry : c.arg.retries < tftpServerMaxRetries) :
      TickStep e c
        (c.after (retried c.arg) c.fil
          (.tick :: c.sentIf (e.pbufAlloc 0) (packetOf c.arg)) [])
  | giveUp (hout : TimedOut (ticked c.arg))
      (hlast : ¬ (c.arg.op = tftpRrq ∧ c.arg.retries < tftpServerMaxRetries)) :
      TickStep e c (c.after (ticked c.arg) c.fil [.tick] []).closed

theorem after_tftpResendData {a : ConnArgs} {f : Fil} {es : List Event} {fs : List Fault}
    (h : c.Live) (alloc : Bool) :
    (c.after a f es fs).tftpResendData alloc
      = c.after a f (es ++ c.sentIf alloc (packetOf a)) fs := by
  cases alloc
  · simp [tftpResendData, after_derefPcb h, after_derefArg h, sentIf]
  · simp only [tftpResendData, after_derefPcb h, after_derefArg h, if_true, after_udpSend h]
    rfl

/-- The timer entry is taken off the list, counted and armed again. -/
theorem rearm (h : c.Live) :
    (({ c with timers := c.timers - 1 }.emit .tick).derefPcb.modifyArg fun a =>
        { a with timer := a.timer + 1 }).sysTimeout
      = c.after (ticked c.arg) c.fil [.tick] [] := by
  simp [emit, derefPcb, touch, modifyArg, derefArg, sysTimeout, after, ticked,
    h.arg, h.pcb, h.timer]

/-- **Inversion, ticks.**  A timer tick on a live connection has one of the
    listed outcomes. -/
theorem step_tick (h : c.Live) (e : Env) : TickStep e c (c.step (.tick e)) := by
  have harmed : 0 < c.timers := by rw [h.timer]; decide
  simp only [step, if_pos harmed, tftpServerTmr, rearm h, after_derefArg h, after_arg]
  by_cases hout : TimedOut (ticked c.arg)
  · rw [if_pos (show tftpServerTimeoutMsecs / tftpServerTimerMsecs < _ from hout)]
    by_cases hagain : c.arg.op = tftpRrq ∧ c.arg.retries < tftpServerMaxRetries
    · rw [if_pos (show (ticked c.arg).op = tftpRrq ∧ (ticked c.arg).retries < _ from hagain),
        after_tftpResendData h, after_modifyArg h]
      exact .resend hout hagain.1 hagain.2
    · rw [if_neg (show ¬ ((ticked c.arg).op = tftpRrq ∧ (ticked c.arg).retries < _) from hagain),
        after_close h]
      exact .giveUp hout hagain
  · rw [if_neg (show ¬ tftpServerTimeoutMsecs / tftpServerTimerMsecs < _ from hout)]
    exact .quiet hout

end Conn

-- ============================================================================
-- What is stored of a datagram
-- ============================================================================

/-- The data block of a DATA datagram. -/
def dataBlock (p : Pbuf) : List UInt8 := p.payload.drop tftpDataPktHdrLen

/-- A DATA datagram holds at most a full block. -/
def FitsData (p : Pbuf) : Prop := p.payload.length ≤ tftpDataPktHdrLen + tftpDataLenMax

instance (p : Pbuf) : Decidable (FitsData p) := inferInstanceAs (Decidable (_ ≤ _))

theorem FitsData.length_le {p : Pbuf} (h : FitsData p) :
    (dataBlock p).length ≤ tftpDataLenMax := by
  rw [FitsData] at h
  rw [dataBlock, List.length_drop]
  omega

/-- A DATA datagram holds its header and at most a full block. -/
def DataSized (p : Pbuf) : Prop := tftpDataPktHdrLen ≤ p.payload.length ∧ FitsData p

instance (p : Pbuf) : Decidable (DataSized p) := inferInstanceAs (Decidable (_ ∧ _))

@[simp] theorem dataBlock_dataPbuf (blknum : UInt16) (bytes : List UInt8)
    (h : bytes.length ≤ tftpDataLenMax) : dataBlock (dataPbuf blknum bytes h) = bytes := by
  rw [dataBlock, dataPbuf, Pbuf.payload_ofBytes]
  rfl

theorem dataSized_dataPbuf (blknum : UInt16) (bytes : List UInt8)
    (h : bytes.length ≤ tftpDataLenMax) : DataSized (dataPbuf blknum bytes h) := by
  have hlen : (dataPbuf blknum bytes h).payload.length = tftpDataPktHdrLen + bytes.length := by
    rw [dataPbuf, Pbuf.payload_ofBytes, Packet.encode, List.length_append]
    rfl
  rw [DataSized, FitsData, hlen]
  omega

namespace Conn

variable {c : Conn}

theorem copied_eq (p : Pbuf) : copied p = dataBlock p := by
  rw [copied, Pbuf.copyPartial_eq, dataBlock]
  apply List.take_of_length_le
  rw [List.length_drop, UInt16.toNat_sub, Pbuf.toNat_totLen]
  have hlen := p.payload_lt
  simp only [tftpDataPktHdrLen, UInt16.reduceOfNat, UInt16.reduceToNat]
  omega

/-- The copy stays inside `parg->data` exactly for these datagrams. -/
theorem length_copied_le_iff {p : Pbuf} : (copied p).length ≤ tftpDataLenMax ↔ FitsData p := by
  rw [copied_eq, dataBlock, List.length_drop, FitsData]
  omega

/-- A block that fits `parg->data` leaves the fields behind it alone. -/
theorem stored_fits {p : Pbuf} (a : ConnArgs) (h : FitsData p) :
    stored p a = { a with
      dataLen := p.totLen - UInt16.ofNat tftpDataPktHdrLen
      data := a.data.memcpy 0 (copied p) } := by
  have hnone : (copied p).drop tftpDataLenMax = [] :=
    List.drop_eq_nil_iff.mpr (length_copied_le_iff.mpr h)
  rw [stored, hnone, ConnArgs.spilled_nil]

theorem stored_blknum {p : Pbuf} (a : ConnArgs) (h : FitsData p) :
    (stored p a).blknum = a.blknum := by
  rw [stored_fits a h]

theorem written_blknum {e : Env} {p : Pbuf} (h : FitsData p) :
    (c.written e p).arg.blknum = c.arg.blknum + 1 := by
  change (stored p (refreshed c.arg)).blknum + 1 = _
  rw [stored_blknum _ h]
  rfl

theorem stored_dataLen {p : Pbuf} (a : ConnArgs) (h : DataSized p) :
    (stored p a).dataLen.toNat = (dataBlock p).length := by
  have hle : UInt16.ofNat tftpDataPktHdrLen ≤ p.totLen := by
    rw [UInt16.le_iff_toNat_le, Pbuf.toNat_totLen]
    exact h.1
  rw [stored_fits a h.2, UInt16.toNat_sub_of_le _ _ hle, Pbuf.toNat_totLen, dataBlock,
    List.length_drop]
  rfl

/-- The cells handed to `fop.write` for a datagram of the expected size. -/
theorem firstCells_stored {p : Pbuf} (a : ConnArgs) (h : DataSized p) :
    (stored p a).data.firstCells (stored p a).dataLen.toNat = dataBlock p := by
  rw [stored_dataLen a h, ← copied_eq, stored_fits a h.2]
  exact CBuffer.firstCells_memcpy_zero (length_copied_le_iff.mpr h.2) rfl

/-- What `fop.write` is called with for a datagram of the expected size. -/
theorem writeEvent_stored {p : Pbuf} (e : Env) (a : ConnArgs) (h : DataSized p) :
    writeEvent e (stored p a)
      = .write (dataBlock p) (stored p a).dataLen (writeRet e (stored p a).dataLen) := by
  rw [writeEvent, firstCells_stored a h]

-- ============================================================================
-- What every step keeps
-- ============================================================================

/-- Two argument blocks belong to the same request. -/
structure SameRequest (a b : ConnArgs) : Prop where
  op : b.op = a.op
  ip : b.remoteIp = a.remoteIp
  port : b.remotePort = a.remotePort

theorem sameRequest_refl (a : ConnArgs) : SameRequest a a := ⟨rfl, rfl, rfl⟩

theorem sameRequest_refreshed (a : ConnArgs) : SameRequest a (refreshed a) := ⟨rfl, rfl, rfl⟩

theorem sameRequest_stored (p : Pbuf) (a : ConnArgs) :
    SameRequest a (stored p (refreshed a)) := ⟨rfl, rfl, rfl⟩

theorem sameRequest_ticked (a : ConnArgs) : SameRequest a (ticked a) := ⟨rfl, rfl, rfl⟩

theorem sameRequest_retried (a : ConnArgs) : SameRequest a (retried a) := ⟨rfl, rfl, rfl⟩

theorem dead_fault (h : c.Dead) (x : Fault) : (c.fault x).Dead :=
  ⟨h.arg, h.fil, h.file, h.pcb, h.timer⟩

theorem dead_emit (h : c.Dead) (ev : Event) : (c.emit ev).Dead :=
  ⟨h.arg, h.fil, h.file, h.pcb, h.timer⟩

/-- A second `close_tftp_connection` releases nothing more. -/
theorem dead_close (h : c.Dead) : c.closeTftpConnection.Dead := by
  constructor <;>
    simp [closeTftpConnection, derefPcb, derefArg, derefFil, sysUntimeout, touch, fault,
      tftpFileClose, memFreeFil, memFreeArg, udpDisconnect, udpRemove,
      h.arg, h.fil, h.file, h.pcb, h.timer]

theorem touch_log (c : Conn) (b : Bool) (r : Resource) : (c.touch b r).log = c.log := by
  cases b <;> rfl

theorem touch_arg (c : Conn) (b : Bool) (r : Resource) : (c.touch b r).arg = c.arg := by
  cases b <;> rfl

/-- Closing sends nothing and reads or writes no file. -/
theorem closeTftpConnection_log (c : Conn) : c.closeTftpConnection.log = c.log := by
  simp [closeTftpConnection, derefPcb, derefArg, derefFil, sysUntimeout, tftpFileClose, memFreeFil,
    memFreeArg, udpDisconnect, udpRemove, touch_log]

theorem closeTftpConnection_arg (c : Conn) : c.closeTftpConnection.arg = c.arg := by
  simp [closeTftpConnection, derefPcb, derefArg, derefFil, sysUntimeout, tftpFileClose, memFreeFil,
    memFreeArg, udpDisconnect, udpRemove, touch_arg]

/-- Every access of a second `close_tftp_connection` is to something released. -/
theorem closeTftpConnection_faults_dead (h : c.Dead) :
    c.closeTftpConnection.faults
      = c.faults ++ [.dead .pcb, .dead .timer, .dead .arg, .dead .fil, .dead .fil, .dead .arg,
          .dead .pcb, .dead .pcb] := by
  simp [closeTftpConnection, derefPcb, derefArg, derefFil, sysUntimeout, touch, fault,
    tftpFileClose, memFreeFil, memFreeArg, udpDisconnect, udpRemove,
    h.arg, h.fil, h.file, h.pcb, h.timer]

/-- What the ACK with a failing `f_read` leaves, whether or not the callback
    closes the connection a second time. -/
structure ReadFailed (e : Env) (p : Pbuf) (c c' : Conn) : Prop where
  dead : c'.Dead
  arg : c'.arg = { refreshed c.arg with blknum := c.arg.blknum + 1 }
  log : c'.log = c.log ++ (.recv p :: (.read (-1) :: c.sentIf (e.pbufAlloc 0)
    (.error tftpErrAccessViolation "Error occured while reading the file.")) ++ [.pbufFree])
  faults : ∃ rs : List Resource, c'.faults = c.faults
    ++ (payloadFaults p 0 ++ payloadFaults p 1 ++ (.dead .arg :: rs.map .dead))

theorem readFailed (e : Env) (p : Pbuf) (c : Conn) :
    ReadFailed e p c
      ((if c.arg.dataLen.toNat < tftpDataLenMax then (c.abandoned e p).closeTftpConnection
        else c.abandoned e p).emit .pbufFree) := by
  have hdead : (c.abandoned e p).Dead := dead_fault (closed_dead _) _
  have hlog : (c.abandoned e p).log ++ [.pbufFree] = c.log ++ (.recv p :: (.read (-1) ::
      c.sentIf (e.pbufAlloc 0) (.error tftpErrAccessViolation
        "Error occured while reading the file.")) ++ [.pbufFree]) := by
    simp [abandoned, fault, closed]
  have hfaults : (c.abandoned e p).faults
      = c.faults ++ (payloadFaults p 0 ++ payloadFaults p 1 ++ [.dead .arg]) := by
    simp [abandoned, fault, closed]
  split
  · refine ⟨dead_emit (dead_close hdead) _, ?_, ?_,
      [.pcb, .timer, .arg, .fil, .fil, .arg, .pcb, .pcb], ?_⟩
    · show (c.abandoned e p).closeTftpConnection.arg = _
      rw [closeTftpConnection_arg]
      rfl
    · show (c.abandoned e p).closeTftpConnection.log ++ [.pbufFree] = _
      rw [closeTftpConnection_log, hlog]
    · show (c.abandoned e p).closeTftpConnection.faults = _
      rw [closeTftpConnection_faults_dead hdead, hfaults]
      simp
  · exact ⟨dead_emit hdead _, rfl, hlog, [], hfaults⟩

/-- Between steps a connection holds all its resources or none. -/
def Settled (c : Conn) : Prop := c.Live ∨ c.Dead

/-- **Case rule.**  What holds after every listed outcome holds after a step of
    a live connection. -/
theorem step_cases {motive : Conn → Prop} {i : Input} (h : c.Live)
    (hdatagram : ∀ e p addr port c', i = .datagram e p addr port →
      DatagramStep e p addr port c c' → motive c')
    (htick : ∀ e c', i = .tick e → TickStep e c c' → motive c') : motive (c.step i) := by
  cases i with
  | datagram e p addr port => exact hdatagram e p addr port _ rfl (step_datagram h e p addr port)
  | tick e => exact htick e _ rfl (step_tick h e)

theorem settled_step (h : c.Settled) (i : Input) : (c.step i).Settled := by
  rcases h with h | h
  · apply step_cases h
    · intro e p addr port c' _ hstep
      cases hstep with
      | request | dataRepeated | ackStale | unknown => exact .inl (live_after h)
      | foreign | error | dataOnRead | dataRefused | ackOnWrite => exact .inr (closed_dead _)
      | dataWritten | ackAdvance =>
          split
          · exact .inr (closed_dead _)
          · exact .inl (live_after h)
      | ackReadError => exact .inr (readFailed e p c).dead
    · intro e c' _ hstep
      cases hstep with
      | quiet | resend => exact .inl (live_after h)
      | giveUp => exact .inr (closed_dead _)
  · rw [step_of_dead h]
    exact .inr h

/-- What a connection keeps while it is live: its request, the file it has open,
    its pcb, and the number of its closes. -/
structure Kept (c c' : Conn) : Prop where
  request : SameRequest c.arg c'.arg
  name : c'.fil.name = c.fil.name
  write : c'.fil.write = c.fil.write
  pcb : c'.pcb = c.pcb
  closes : c'.closes = c.closes

theorem kept_step (h : c.Live) (i : Input) (hlive : (c.step i).Live) : Kept c (c.step i) := by
  have hclosed {x : Conn} (hx : x.closed.Live) : False := absurd hx.pcb Bool.false_ne_true
  refine step_cases (motive := fun c' => c'.Live → Kept c c') h ?_ ?_ hlive
  · intro e p addr port c' _ hstep hlive
    cases hstep with
    | request | dataRepeated | ackStale | unknown =>
        exact ⟨sameRequest_refreshed _, rfl, rfl, rfl, rfl⟩
    | foreign | error | dataOnRead | dataRefused | ackOnWrite => exact (hclosed hlive).elim
    | dataWritten | ackAdvance =>
        split at hlive
        case isTrue => exact (hclosed hlive).elim
        case isFalse hfull =>
          rw [if_neg hfull]
          exact ⟨⟨rfl, rfl, rfl⟩, rfl, rfl, rfl, rfl⟩
    | ackReadError => exact absurd hlive.pcb (readFailed e p c).dead.pcb_not_live
  · intro e c' _ hstep hlive
    cases hstep with
    | quiet => exact ⟨sameRequest_ticked _, rfl, rfl, rfl, rfl⟩
    | resend => exact ⟨⟨rfl, rfl, rfl⟩, rfl, rfl, rfl, rfl⟩
    | giveUp => exact (hclosed hlive).elim

/-- Faults are never forgotten. -/
theorem faults_step (h : c.Settled) (i : Input) : ∃ fs, (c.step i).faults = c.faults ++ fs := by
  rcases h with h | h
  swap
  · rw [step_of_dead h]
    exact ⟨[], (List.append_nil _).symm⟩
  refine step_cases (motive := fun c' => ∃ fs, c'.faults = c.faults ++ fs) h ?_ ?_
  · intro e p addr port c' _ hstep
    cases hstep with
    | dataWritten | ackAdvance => split <;> exact ⟨_, rfl⟩
    | ackReadError =>
        obtain ⟨rs, hfaults⟩ := (readFailed e p c).faults
        exact ⟨_, hfaults⟩
    | _ => exact ⟨_, rfl⟩
  · intro e c' _ hstep
    cases hstep <;> exact ⟨_, rfl⟩

end Conn

end McuFirmware.Tftp
