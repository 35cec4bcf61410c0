/-
  McuFirmware.Tftp.Request

  `request_recv_callback`, the receive callback of the listening pcb on port
  69, with `tftp_file_open` of `main.c`.

  The callback acquires up to four resources for a new connection.  The cell
  of the connection is created with the argument block and handed out whether
  or not the request succeeds, so that an exit that forgot a release would
  show in its flags.
-/

import McuFirmware.Tftp.Live

namespace McuFirmware.Tftp

open McuFirmware.Lib McuFirmware.Lwip

/-- Outcomes of the library calls of one request. -/
structure ReqEnv where
  /-- the calls on the new connection, and the `pbuf_alloc` of an error reply -/
  lib : Env
  /-- `mem_malloc(sizeof(tftp_connection_args))`: the block with the bytes it happens to hold -/
  argMalloc : Option ConnArgs
  /-- `mem_malloc(sizeof(FIL))` -/
  filMalloc : Bool
  /-- the `FRESULT` of `f_open` -/
  fOpen : Nat
  /-- the bytes of the named file -/
  content : List UInt8
  udpNew : Bool
  /-- the port `udp_connect` binds the new pcb to -/
  localPort : UInt16

/-- What a request leaves: events and faults at the listening pcb, and the cell
    of the connection if an argument block was allocated. -/
structure ReqOutcome where
  events : List Event
  faults : List Fault
  conn : Option Conn

-- ============================================================================
-- The request line
-- ============================================================================

/-- `filename_end_offset`. -/
def filenameEndOffset (p : Pbuf) : UInt16 := p.memfind [0] 2

/-- `mode_end_offset`. -/
def modeEndOffset (p : Pbuf) : UInt16 := p.memfind [0] (filenameEndOffset p + 1)

/-- The bytes copied into `filename`. -/
def filenameBytes (p : Pbuf) : List UInt8 :=
  p.copyPartial (filenameEndOffset p - 2 + 1) 2

/-- The bytes copied into `mode`. -/
def modeBytes (p : Pbuf) : List UInt8 :=
  p.copyPartial (modeEndOffset p - filenameEndOffset p) (filenameEndOffset p + 1)

def FilenameTooLong (p : Pbuf) : Prop :=
  tftpServerMaxFilenameLen < (filenameEndOffset p - 2 + 1).toNat

def ModeTooLong (p : Pbuf) : Prop :=
  tftpServerMaxModeLen < (modeEndOffset p - filenameEndOffset p).toNat

instance (p : Pbuf) : Decidable (FilenameTooLong p) := inferInstanceAs (Decidable (_ < _))
instance (p : Pbuf) : Decidable (ModeTooLong p) := inferInstanceAs (Decidable (_ < _))

-- ============================================================================
-- Opening the connection
-- ============================================================================

namespace Conn

/-- The cell of a connection when only its argument block is allocated. -/
def allocated (a : ConnArgs) : Conn where
  arg := a
  fil := ⟨[], false, [], 0⟩
  pcb := ⟨0, 0, 0⟩
  argLive := true
  filLive := false
  fileOpen := false
  pcbLive := false
  timers := 0
  closes := 0
  faults := []
  log := []

/-- The file object of a successful `f_open`; `FA_CREATE_ALWAYS` truncates. -/
def openFil (e : ReqEnv) (fname : List UInt8) (write : Bool) : Fil :=
  ⟨fname, write, if write then [] else e.content, 0⟩

/-- `tftp_file_open` of `main.c`. -/
def tftpFileOpen (e : ReqEnv) (fname : List UInt8) (write : Bool) (c : Conn) : Bool × Conn :=
  if e.filMalloc then
    let c := { c with filLive := true }
    if e.fOpen ≠ 0 then (false, c.memFreeFil)
    else (true, { c with fileOpen := true, fil := openFil e fname write })
  else (false, c)

/-- The assignments to `*parg` after the file was opened. -/
def initArgs (opcode : UInt16) (addr : UInt32) (port : UInt16) (c : Conn) : Conn :=
  c.modifyArg fun a =>
    { a with op := opcode, remoteIp := addr, remotePort := port, blknum := 0,
             timer := 0, lastTime := 0, retries := 0 }

/-- `udp_connect` and `udp_recv` on the new pcb. -/
def udpConnect (localPort : UInt16) (addr : UInt32) (port : UInt16) (c : Conn) : Conn :=
  { c with pcbLive := true, pcb := ⟨localPort, addr, port⟩ }

end Conn

/-- `request_recv_callback`. -/
def requestRecvCallback (e : ReqEnv) (p : Pbuf) (addr : UInt32) (port : UInt16) : ReqOutcome :=
  let opcode := p.u16 0
  let faults := Conn.payloadFaults p 0
  let refuse (code : UInt16) (msg : String) (conn : Option Conn) : ReqOutcome :=
    ⟨.recv p :: (if e.lib.pbufAlloc 0 then [.sent addr port (.error code msg)] else [])
      ++ [.pbufFree], faults, conn⟩
  if opcode ≠ tftpRrq ∧ opcode ≠ tftpWrq then
    refuse tftpErrIllegalop "illegal request" none
  else if FilenameTooLong p then
    refuse tftpErrAccessViolation "Filename too long/not NULL terminated" none
  else if ModeTooLong p then
    refuse tftpErrAccessViolation "Mode too long/not NULL terminated" none
  else
    match e.argMalloc with
    | none => refuse tftpErrNotdefined "Server is out of mem." none
    | some stale =>
        -- the name `f_open` sees ends at the first NUL
        let (opened, c) := (Conn.allocated stale).tftpFileOpen e
          ((filenameBytes p).takeWhile (· ≠ 0)) (decide (opcode = tftpWrq))
        if ¬ opened then
          refuse tftpErrFileNotFound "Unable to open requested file." (some c.memFreeArg)
        else
          let c := c.initArgs opcode addr port
          if ¬ e.udpNew then
            refuse tftpErrNotdefined "Server is out of udp memp."
              (some c.derefArg.tftpFileClose.memFreeArg)
          else
            let c := (c.udpConnect e.localPort addr port).sysTimeout.derefArg
            let c := if c.arg.op = tftpWrq then c.tftpSendAck (e.lib.pbufAlloc 0) 0
              else c.tftpSendData e.lib
            ⟨[.recv p, .pbufFree], faults, some c⟩

-- ============================================================================
-- Outcomes of a request
-- ============================================================================

namespace Conn

/-- The connection as `sys_timeout` leaves it: every resource held, no history. -/
def opened (e : ReqEnv) (p : Pbuf) (addr : UInt32) (port : UInt16) (stale : ConnArgs) : Conn where
  arg := { stale with
    op := p.u16 0, remoteIp := addr, remotePort := port, blknum := 0,
    timer := 0, lastTime := 0, retries := 0 }
  fil := openFil e ((filenameBytes p).takeWhile (· ≠ 0)) (decide (p.u16 0 = tftpWrq))
  pcb := ⟨e.localPort, addr, port⟩
  argLive := true
  filLive := true
  fileOpen := true
  pcbLive := true
  timers := 1
  closes := 0
  faults := []
  log := []

/-- The connection of a read request after block 1 was read and sent. -/
def openedRead (e : ReqEnv) (p : Pbuf) (addr : UInt32) (port : UInt16) (stale : ConnArgs) : Conn :=
  let c := opened e p addr port stale
  c.after (c.advanced c.arg) c.readOn
    (.read c.nextBytes.length
      :: c.sentIf (e.lib.pbufAlloc 0) (packetOf (c.advanced c.arg))) []

/-- What `request_recv_callback` can leave of a new connection. -/
inductive RequestStep (e : ReqEnv) (p : Pbuf) (addr : UInt32) (port : UInt16) :
    Option Conn → Prop where
  | refused : RequestStep e p addr port none
  /-- the file could not be opened, or no pcb was left: all is given back -/
  | released (c : Conn) (hdead : c.Dead) (hcloses : c.closes = 0) (hfaults : c.faults = [])
      (hlog : c.log = []) : RequestStep e p addr port (some c)
  | write (stale : ConnArgs) (hop : p.u16 0 = tftpWrq) (hstale : e.argMalloc = some stale) :
      RequestStep e p addr port
        (some ((opened e p addr port stale).after (opened e p addr port stale).arg
          (opened e p addr port stale).fil
          ((opened e p addr port stale).sentIf (e.lib.pbufAlloc 0) (.ack 0)) []))
  | read (stale : ConnArgs) (hop : p.u16 0 = tftpRrq) (hread : e.lib.fRead = 0)
      (hstale : e.argMalloc = some stale) :
      RequestStep e p addr port (some (openedRead e p addr port stale))
  | readError (stale : ConnArgs) (hop : p.u16 0 = tftpRrq) (hread : e.lib.fRead ≠ 0)
      (hstale : e.argMalloc = some stale) :
      RequestStep e p addr port
        (some ((opened e p addr port stale).after
          { (opened e p addr port stale).arg with blknum := 1 } (opened e p addr port stale).fil
          (.read (-1) :: (opened e p addr port stale).sentIf (e.lib.pbufAlloc 0)
            (.error tftpErrAccessViolation "Error occured while reading the file.")) []).closed)

theorem opened_live (e : ReqEnv) (p : Pbuf) (addr : UInt32) (port : UInt16) (stale : ConnArgs) :
    (opened e p addr port stale).Live := ⟨rfl, rfl, rfl, rfl, rfl⟩

/-- The connection of a request that found all its resources. -/
theorem opened_outcome (e : ReqEnv) (p : Pbuf) (addr : UInt32) (port : UInt16)
    (stale : ConnArgs) (hop : p.u16 0 = tftpRrq ∨ p.u16 0 = tftpWrq)
    (hstale : e.argMalloc = some stale) :
    RequestStep e p addr port
      (some (if (opened e p addr port stale).arg.op = tftpWrq then
          (opened e p addr port stale).tftpSendAck (e.lib.pbufAlloc 0) 0
        else (opened e p addr port stale).tftpSendData e.lib)) := by
  have h := opened_live e p addr port stale
  have hself := (after_self (opened e p addr port stale)).symm
  by_cases hwrq : p.u16 0 = tftpWrq
  · rw [if_pos (show (opened e p addr port stale).arg.op = tftpWrq from hwrq), hself,
      after_tftpSendAck h]
    exact .write stale hwrq hstale
  · have hrrq := hop.resolve_right hwrq
    rw [if_neg (show ¬ (opened e p addr port stale).arg.op = tftpWrq from hwrq), hself]
    by_cases hread : e.lib.fRead = 0
    · rw [after_tftpSendData h _ hread]
      exact .read stale hrrq hread hstale
    · rw [after_tftpSendData_error h _ hread]
      exact .readError stale hrrq hread hstale

end Conn

/-- A failed `tftp_file_open` keeps nothing. -/
theorem tftpFileOpen_failed {e : ReqEnv} (fname : List UInt8) (write : Bool) (stale : ConnArgs)
    (hfail : ¬ (e.filMalloc = true ∧ e.fOpen = 0)) :
    (Conn.allocated stale).tftpFileOpen e fname write = (false, Conn.allocated stale) := by
  unfold Conn.tftpFileOpen
  by_cases hfil : e.filMalloc = true
  · have hopen : e.fOpen ≠ 0 := fun h => hfail ⟨hfil, h⟩
    simp only [if_pos hfil, if_pos hopen]
    rfl
  · rw [if_neg hfil]

theorem tftpFileOpen_ok {e : ReqEnv} (fname : List UInt8) (write : Bool) (c : Conn)
    (hfil : e.filMalloc = true) (hopen : e.fOpen = 0) :
    c.tftpFileOpen e fname write
      = (true, { c with filLive := true, fileOpen := true, fil := Conn.openFil e fname write }) := by
  simp [Conn.tftpFileOpen, hfil, hopen]

/-- The request line is well formed and every library call succeeds; `stale` is
    what the new argument block holds. -/
structure Granted (e : ReqEnv) (p : Pbuf) (stale : ConnArgs) : Prop where
  opcode : p.u16 0 = tftpRrq ∨ p.u16 0 = tftpWrq
  filename : ¬ FilenameTooLong p
  mode : ¬ ModeTooLong p
  argMalloc : e.argMalloc = some stale
  filMalloc : e.filMalloc = true
  fOpen : e.fOpen = 0
  udpNew : e.udpNew = true

/-- A granted request opens a connection and sends its first datagram. -/
theorem request_granted {e : ReqEnv} {p : Pbuf} {stale : ConnArgs} (h : Granted e p stale)
    (addr : UInt32) (port : UInt16) :
    (requestRecvCallback e p addr port).conn
      = some (if (Conn.opened e p addr port stale).arg.op = tftpWrq then
          (Conn.opened e p addr port stale).tftpSendAck (e.lib.pbufAlloc 0) 0
        else (Conn.opened e p addr port stale).tftpSendData e.lib) := by
  have hop : ¬ (p.u16 0 ≠ tftpRrq ∧ p.u16 0 ≠ tftpWrq) := by
    rintro ⟨hr, hw⟩
    exact h.opcode.elim hr hw
  simp only [requestRecvCallback, if_neg hop, if_neg h.filename, if_neg h.mode, h.argMalloc,
    tftpFileOpen_ok _ _ _ h.filMalloc h.fOpen, h.udpNew]
  rfl

theorem request_granted_write {e : ReqEnv} {p : Pbuf} {stale : ConnArgs} (h : Granted e p stale)
    (hwrq : p.u16 0 = tftpWrq) (addr : UInt32) (port : UInt16) :
    (requestRecvCallback e p addr port).conn
      = some ((Conn.opened e p addr port stale).after (Conn.opened e p addr port stale).arg
          (Conn.opened e p addr port stale).fil
          ((Conn.opened e p addr port stale).sentIf (e.lib.pbufAlloc 0) (.ack 0)) []) := by
  have hlive := Conn.opened_live e p addr port stale
  rw [request_granted h, if_pos (show (Conn.opened e p addr port stale).arg.op = tftpWrq from hwrq),
    ← Conn.after_self (Conn.opened e p addr port stale), Conn.after_tftpSendAck hlive]
  rfl

theorem request_granted_read {e : ReqEnv} {p : Pbuf} {stale : ConnArgs} (h : Granted e p stale)
    (hrrq : p.u16 0 = tftpRrq) (hread : e.lib.fRead = 0) (addr : UInt32) (port : UInt16) :
    (requestRecvCallback e p addr port).conn = some (Conn.openedRead e p addr port stale) := by
  have hnot : ¬ (Conn.opened e p addr port stale).arg.op = tftpWrq := by
    change ¬ p.u16 0 = tftpWrq
    rw [hrrq]
    decide
  have hsend : (Conn.opened e p addr port stale).tftpSendData e.lib
      = Conn.openedRead e p addr port stale := by
    rw [← Conn.after_self (Conn.opened e p addr port stale),
      Conn.after_tftpSendData (Conn.opened_live e p addr port stale) e.lib hread]
    rfl
  rw [request_granted h, if_neg hnot, hsend]

/-- A request that is not granted leaves no connection, or the cell of one with
    nothing held. -/
theorem request_refused {e : ReqEnv} {p : Pbuf} (h : ∀ stale, ¬ Granted e p stale)
    {addr : UInt32} {port : UInt16} {c : Conn}
    (hconn : (requestRecvCallback e p addr port).conn = some c) :
    c.Dead ∧ c.closes = 0 ∧ c.faults = [] ∧ c.log = [] := by
  simp only [requestRecvCallback] at hconn
  by_cases hop : p.u16 0 ≠ tftpRrq ∧ p.u16 0 ≠ tftpWrq
  · rw [if_pos hop] at hconn
    exact nomatch hconn
  rw [if_neg hop] at hconn
  by_cases hname : FilenameTooLong p
  · rw [if_pos hname] at hconn
    exact nomatch hconn
  rw [if_neg hname] at hconn
  by_cases hmode : ModeTooLong p
  · rw [if_pos hmode] at hconn
    exact nomatch hconn
  rw [if_neg hmode] at hconn
  cases hstale : e.argMalloc with
  | none =>
      rw [hstale] at hconn
      exact nomatch hconn
  | some stale =>
      rw [hstale] at hconn
      by_cases hfile : e.filMalloc = true ∧ e.fOpen = 0
      · have hrq : p.u16 0 = tftpRrq ∨ p.u16 0 = tftpWrq := by
          by_contra hcon
          exact hop (not_or.mp hcon)
        have hudp : e.udpNew ≠ true := fun hudp =>
          h stale ⟨hrq, hname, hmode, hstale, hfile.1, hfile.2, hudp⟩
        simp only [tftpFileOpen_ok _ _ _ hfile.1 hfile.2] at hconn
        rw [if_neg (by simp), if_pos hudp] at hconn
        cases hconn
        exact ⟨⟨rfl, rfl, rfl, rfl, rfl⟩, rfl, rfl, rfl⟩
      · simp only [tftpFileOpen_failed _ _ _ hfile] at hconn
        cases hconn
        exact ⟨⟨rfl, rfl, rfl, rfl, rfl⟩, rfl, rfl, rfl⟩

/-- **Inversion, requests.** -/
theorem request_outcome (e : ReqEnv) (p : Pbuf) (addr : UInt32) (port : UInt16) :
    Conn.RequestStep e p addr port (requestRecvCallback e p addr port).conn := by
  by_cases h : ∃ stale, Granted e p stale
  · obtain ⟨stale, h⟩ := h
    rw [request_granted h]
    exact Conn.opened_outcome e p addr port stale h.opcode h.argMalloc
  · cases hconn : (requestRecvCallback e p addr port).conn with
    | none => exact .refused
    | some c =>
        obtain ⟨hdead, hcloses, hfaults, hlog⟩ := request_refused (not_exists.mp h) hconn
        exact .released c hdead hcloses hfaults hlog

/-- Only the opcode is read without regard to the length of the datagram. -/
theorem requestRecvCallback_faults (e : ReqEnv) (p : Pbuf) (addr : UInt32) (port : UInt16) :
    (requestRecvCallback e p addr port).faults = Conn.payloadFaults p 0 := by
  -- every exit of the callback passes the faults on
  have hite {b : Prop} [Decidable b] {s t : ReqOutcome} {fs : List Fault} (hs : s.faults = fs)
      (ht : t.faults = fs) : (if b then s else t).faults = fs := by
    split
    · exact hs
    · exact ht
  unfold requestRecvCallback
  refine hite rfl (hite rfl (hite rfl ?_))
  cases e.argMalloc with
  | none => rfl
  | some stale => exact hite rfl (hite rfl rfl)

/-- A read request with a live connection has read block 1. -/
theorem live_read_request {e : ReqEnv} {p : Pbuf} {addr : UInt32} {port : UInt16} {c : Conn}
    (hrrq : p.u16 0 = tftpRrq) (hconn : (requestRecvCallback e p addr port).conn = some c)
    (hlive : c.pcbLive = true) : ∃ stale, c = Conn.openedRead e p addr port stale := by
  have hstep := request_outcome e p addr port
  rw [hconn] at hstep
  cases hstep with
  | released _ hdead => exact absurd hlive hdead.pcb_not_live
  | write stale hwrq => exact absurd (hrrq.symm.trans hwrq) tftpRrq_ne_wrq
  | read stale => exact ⟨stale, rfl⟩
  | readError => exact absurd hlive (by simp [Conn.closed])

-- ============================================================================
-- A sample client
-- ============================================================================

/-- A request for the file `f` in mode `o`. -/
def sampleRq (opcode : UInt16) : Pbuf :=
  Pbuf.ofBytes (storeU16 (ppHtons opcode) ++ [0x66, 0, 0x6f, 0]) (by simp)

def sampleArgs : ConnArgs := ⟨0, 0, 0, CBuffer.fill _ 0, 0, 0, 0, 0, 0⟩

/-- Every call succeeds; the file holds `content`. -/
def sampleReqEnv (content : List UInt8) : ReqEnv :=
  ⟨Env.ok 0, some sampleArgs, true, 0, content, true, 49152⟩

theorem granted_sample (content : List UInt8) {opcode : UInt16}
    (h : opcode = tftpRrq ∨ opcode = tftpWrq) :
    Granted (sampleReqEnv content) (sampleRq opcode) sampleArgs := by
  rcases h with rfl | rfl
  · exact ⟨.inl (by decide), by decide, by decide, rfl, rfl, rfl, rfl⟩
  · exact ⟨.inr (by decide), by decide, by decide, rfl, rfl, rfl, rfl⟩

end McuFirmware.Tftp
