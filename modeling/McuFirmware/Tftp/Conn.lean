/-
  McuFirmware.Tftp.Conn

  One TFTP connection: the argument block (`tftp_connection_args`), the file
  handle, the UDP pcb and the `tftp_server_tmr` timer that
  `request_recv_callback` acquires, each with a flag that says whether it is
  still held.

  The blocks are identified by the connection they were acquired for, so a
  freed block keeps its last contents here (as `mem_free` leaves them on the
  device) and an access through a stale pointer is recorded in `faults`
  instead of being silently given a meaning.
-/

import McuFirmware.Lib.Bytes
import McuFirmware.Lib.CBuffer
import McuFirmware.Tftp.Packet

namespace McuFirmware.Tftp

open McuFirmware.Lib McuFirmware.Lwip

/-- `tftp_connection_args`, less the function table `fop` (always the one of
    `main.c`) and `handle` (the `fil` of the connection below). -/
structure ConnArgs where
  op : UInt16
  remoteIp : UInt32
  remotePort : UInt16
  data : CBuffer UInt8 tftpDataLenMax
  dataLen : UInt16
  blknum : UInt16
  timer : UInt32
  lastTime : UInt32
  retries : UInt8

/-- The argument block after `bytes` were stored from the end of `data` on, over
    the fields that follow it without a gap. -/
def ConnArgs.spilled (a : ConnArgs) (bytes : List UInt8) : ConnArgs :=
  { a with
    dataLen := UInt16.ofNat (patch 2 a.dataLen.toNat bytes)
    blknum := UInt16.ofNat (patch 2 a.blknum.toNat (bytes.drop 2))
    timer := UInt32.ofNat (patch 4 a.timer.toNat (bytes.drop 4))
    lastTime := UInt32.ofNat (patch 4 a.lastTime.toNat (bytes.drop 8))
    retries := UInt8.ofNat (patch 1 a.retries.toNat (bytes.drop 12)) }

@[simp] theorem ConnArgs.spilled_nil (a : ConnArgs) : a.spilled [] = a := by
  have h8 (x : UInt8) : UInt8.ofNat (patch 1 x.toNat []) = x := by
    rw [patch_nil x.toNat_lt, UInt8.ofNat_toNat]
  have h16 (x : UInt16) : UInt16.ofNat (patch 2 x.toNat []) = x := by
    rw [patch_nil x.toNat_lt, UInt16.ofNat_toNat]
  have h32 (x : UInt32) : UInt32.ofNat (patch 4 x.toNat []) = x := by
    rw [patch_nil x.toNat_lt, UInt32.ofNat_toNat]
  simp only [spilled, List.drop_nil, h8, h16, h32]

@[simp] theorem ConnArgs.spilled_data (a : ConnArgs) (bytes : List UInt8) :
    (a.spilled bytes).data = a.data := rfl

/-- A FatFs file object: the name it was opened by, the access mode, the bytes
    of the file and the read pointer. -/
structure Fil where
  name : List UInt8
  write : Bool
  content : List UInt8
  fptr : Nat

/-- What the server uses of a `struct udp_pcb`. -/
structure UdpPcb where
  localPort : UInt16
  remoteIp : UInt32
  remotePort : UInt16

/-- The resources of a connection. -/
inductive Resource where
  | arg | fil | pcb | timer
deriving DecidableEq

/-- An access the C program must not make. -/
inductive Fault where
  /-- a use of a resource that is not held (any more) -/
  | dead (r : Resource)
  /-- a read behind the end of the first pbuf of a datagram or of `parg->data` -/
  | overread
  /-- a store behind the end of `parg->data` -/
  | overflow
deriving DecidableEq

/-- What a step does that is visible outside the connection. -/
inductive Event where
  | recv (p : Pbuf)
  | tick
  | sent (ip : UInt32) (port : UInt16) (pkt : Packet)
  | read (ret : Int)
  | store (count : Nat)
  /-- `fop.write` with a length of `len`; `bytes` is what of it lies in `parg->data` -/
  | write (bytes : List UInt8) (len : UInt16) (ret : Int)
  | pbufFree

/-- A connection and its history. -/
structure Conn where
  arg : ConnArgs
  fil : Fil
  pcb : UdpPcb
  argLive : Bool
  /-- the `FIL` block is allocated -/
  filLive : Bool
  /-- the file is open in FatFs -/
  fileOpen : Bool
  pcbLive : Bool
  /-- armed `tftp_server_tmr` entries for this pcb -/
  timers : Nat
  /-- executions of `close_tftp_connection` -/
  closes : Nat
  faults : List Fault
  log : List Event

/-- Outcomes of the library calls of one step: `pbufAlloc k` is the `k`-th
    `pbuf_alloc`, `fRead` the `FRESULT` of `f_read`, `fWrite` the `FRESULT` and
    the byte count of `f_write`. -/
structure Env where
  pbufAlloc : Nat → Bool
  fRead : Nat
  fWrite : Nat × Nat

/-- Every allocation and every file operation succeeds; `f_write` writes
    `bw` bytes. -/
def Env.ok (bw : Nat) : Env := ⟨fun _ => true, 0, (0, bw)⟩

namespace Conn

-- ============================================================================
-- Access through pointers
-- ============================================================================

def fault (c : Conn) (f : Fault) : Conn :=
  { c with faults := c.faults ++ [f] }

def emit (c : Conn) (e : Event) : Conn :=
  { c with log := c.log ++ [e] }

/-- A use of resource `r`, which is held iff `live`. -/
def touch (c : Conn) (live : Bool) (r : Resource) : Conn :=
  if live then c else c.fault (.dead r)

/-- `arg->…` is read. -/
def derefArg (c : Conn) : Conn := c.touch c.argLive .arg

/-- `arg->… = …`. -/
def modifyArg (c : Conn) (f : ConnArgs → ConnArgs) : Conn :=
  { c.derefArg with arg := f c.arg }

def derefPcb (c : Conn) : Conn := c.touch c.pcbLive .pcb

def derefFil (c : Conn) : Conn := c.touch (c.filLive && c.fileOpen) .fil

-- ============================================================================
-- lwIP and file operations
-- ============================================================================

/-- `sys_timeout(…, tftp_server_tmr, upcb)`. -/
def sysTimeout (c : Conn) : Conn :=
  { c with timers := c.timers + 1 }

/-- `sys_untimeout(tftp_server_tmr, upcb)` removes one matching entry. -/
def sysUntimeout (c : Conn) : Conn :=
  { c.touch (decide (0 < c.timers)) .timer with timers := c.timers - 1 }

/-- `mem_free(arg)`. -/
def memFreeArg (c : Conn) : Conn :=
  { c.touch c.argLive .arg with argLive := false }

/-- `mem_free(pfil)`. -/
def memFreeFil (c : Conn) : Conn :=
  { c.touch c.filLive .fil with filLive := false }

def udpDisconnect (c : Conn) : Conn :=
  { c.derefPcb with pcb := { c.pcb with remoteIp := 0, remotePort := 0 } }

def udpRemove (c : Conn) : Conn :=
  { c.derefPcb with pcbLive := false }

/-- `udp_send` to the peer the pcb is connected to. -/
def udpSend (c : Conn) (pkt : Packet) : Conn :=
  c.derefPcb.emit (.sent c.pcb.remoteIp c.pcb.remotePort pkt)

/-- `udp_sendto`. -/
def udpSendto (c : Conn) (ip : UInt32) (port : UInt16) (pkt : Packet) : Conn :=
  c.derefPcb.emit (.sent ip port pkt)

/-- `tftp_file_close` of `main.c`: `f_close` and `mem_free` of the handle. -/
def tftpFileClose (c : Conn) : Conn :=
  { c.derefFil with fileOpen := false }.memFreeFil

/-- The bytes `f_read` delivers next. -/
def nextBytes (c : Conn) : List UInt8 :=
  (c.fil.content.drop c.fil.fptr).take tftpDataLenMax

/-- `tftp_file_read(handle, arg->data, TFTP_DATA_LEN_MAX)` of `main.c`: `-1` on
    an error of `f_read`, else the number of bytes read into `arg->data`. -/
def tftpFileRead (e : Env) (c : Conn) : Int × Conn :=
  let c := c.derefFil
  if e.fRead ≠ 0 then (-1, c.emit (.read (-1)))
  else
    let bytes := c.nextBytes
    let br : Int := bytes.length
    let c := c.modifyArg fun a => { a with data := a.data.memcpy 0 bytes }
    (br, { c with fil := { c.fil with fptr := c.fil.fptr + bytes.length } }.emit (.read br))

/-- `tftp_file_write(handle, parg->data, parg->data_len)` of `main.c`: `-1` on
    an error of `f_write` or a short write. -/
def tftpFileWrite (e : Env) (c : Conn) : Int × Conn :=
  let c := c.derefFil
  -- the bytes handed over are those of `parg->data`; a longer length reads on behind it
  let c := if c.arg.dataLen.toNat ≤ tftpDataLenMax then c else c.fault .overread
  let ret : Int := if e.fWrite.1 ≠ 0 ∨ e.fWrite.2 ≠ c.arg.dataLen.toNat then -1 else e.fWrite.2
  (ret, c.emit (.write (c.arg.data.firstCells c.arg.dataLen.toNat) c.arg.dataLen ret))

-- ============================================================================
-- tftp_server.c
-- ============================================================================

/-- `close_tftp_connection`. -/
def closeTftpConnection (c : Conn) : Conn :=
  let c := { c with closes := c.closes + 1 }
  let c := c.derefPcb
  let c := c.sysUntimeout
  let c := c.derefArg.tftpFileClose
  let c := c.memFreeArg
  let c := c.udpDisconnect
  c.udpRemove

/-- `tftp_send_error`; `alloc` is the outcome of its `pbuf_alloc`. -/
def tftpSendError (alloc : Bool) (code : UInt16) (msg : String) (c : Conn) : Conn :=
  if alloc then c.udpSend (.error code msg) else c

/-- `tftp_send_error_to`. -/
def tftpSendErrorTo (alloc : Bool) (ip : UInt32) (port : UInt16) (code : UInt16)
    (msg : String) (c : Conn) : Conn :=
  if alloc then c.udpSendto ip port (.error code msg) else c

/-- `tftp_send_ack`. -/
def tftpSendAck (alloc : Bool) (blknum : UInt16) (c : Conn) : Conn :=
  if alloc then c.udpSend (.ack blknum) else c

/-- The DATA datagram built from `arg->blknum`, `arg->data`, `arg->data_len`. -/
def dataPacket (c : Conn) : Packet :=
  .data c.arg.blknum (c.arg.data.firstCells c.arg.dataLen.toNat)

/-- `tftp_resend_data`. -/
def tftpResendData (alloc : Bool) (c : Conn) : Conn :=
  let c := c.derefPcb.derefArg
  if alloc then c.udpSend c.dataPacket else c

/-- `tftp_send_data`. -/
def tftpSendData (e : Env) (c : Conn) : Conn :=
  let c := c.derefPcb
  let c := c.modifyArg fun a => { a with blknum := a.blknum + 1 }
  let (ret, c) := c.tftpFileRead e
  if ret < 0 then
    let c := c.tftpSendError (e.pbufAlloc 0) tftpErrAccessViolation
      "Error occured while reading the file."
    c.closeTftpConnection
  else
    let c := c.modifyArg fun a => { a with dataLen := UInt16.ofNat ret.toNat }
    if e.pbufAlloc 0 then c.udpSend c.dataPacket else c

/-- The access `payload[k]`. -/
def readPayload (p : Pbuf) (k : Nat) (c : Conn) : Conn :=
  if p.Inside k then c else c.fault .overread

/-- `pbuf_copy_partial(p, parg->data, parg->data_len, TFTP_DATA_PKT_HDR_LEN)`: what
    does not fit `parg->data` is stored over the fields behind it. -/
def storePayload (p : Pbuf) (c : Conn) : Conn :=
  let bytes := p.copyPartial c.arg.dataLen (UInt16.ofNat tftpDataPktHdrLen)
  let c := if bytes.length ≤ tftpDataLenMax then c else c.fault .overflow
  let c := c.modifyArg fun a =>
    ConnArgs.spilled { a with data := a.data.memcpy 0 bytes } (bytes.drop tftpDataLenMax)
  c.emit (.store bytes.length)

/-- `data_ack_recv_callback`, branch `TFTP_DATA`. -/
def recvData (e : Env) (p : Pbuf) (c : Conn) : Conn :=
  let c := c.derefArg
  if c.arg.op = tftpRrq then
    (c.tftpSendError (e.pbufAlloc 0) tftpErrAccessViolation
      "Not a write connection").closeTftpConnection
  else
    let c := c.readPayload p 1
    let blknum := p.u16 1
    -- `parg->blknum + 1` is computed in `int`, without wrap-around
    if blknum.toNat = c.arg.blknum.toNat + 1 then
      let c := c.modifyArg fun a =>
        { a with dataLen := p.totLen - UInt16.ofNat tftpDataPktHdrLen }
      let c := c.storePayload p
      let (ret, c) := c.derefArg.tftpFileWrite e
      if ret < 0 then
        (c.tftpSendError (e.pbufAlloc 0) tftpErrAccessViolation
          "error writing file").closeTftpConnection
      else
        let c := c.modifyArg fun a => { a with blknum := a.blknum + 1 }
        let c := c.tftpSendAck (e.pbufAlloc 0) c.arg.blknum
        let c := c.derefArg
        if c.arg.dataLen.toNat < tftpDataLenMax then c.closeTftpConnection else c
    else
      c.tftpSendAck (e.pbufAlloc 0) c.arg.blknum

/-- `data_ack_recv_callback`, branch `TFTP_ACK`. -/
def recvAck (e : Env) (p : Pbuf) (c : Conn) : Conn :=
  let c := c.derefArg
  if c.arg.op = tftpWrq then
    (c.tftpSendError (e.pbufAlloc 0) tftpErrAccessViolation
      "Not a read connection").closeTftpConnection
  else
    let c := c.readPayload p 1
    let blknum := p.u16 1
    if blknum = c.arg.blknum then
      let c := c.tftpSendData e
      -- `tftp_send_data` may have closed the connection; the test reads `parg` all the same
      let c := c.derefArg
      if c.arg.dataLen.toNat < tftpDataLenMax then c.closeTftpConnection else c
    else c

/-- `data_ack_recv_callback`. -/
def dataAckRecvCallback (e : Env) (p : Pbuf) (addr : UInt32) (port : UInt16) (c : Conn) :
    Conn :=
  let c := c.derefArg
  if port ≠ c.arg.remotePort ∨ addr ≠ c.arg.remoteIp then
    let c := c.tftpSendErrorTo (e.pbufAlloc 0) addr port tftpErrNotdefined
      "what the hell are you doing?"
    let c := c.tftpSendErrorTo (e.pbufAlloc 1) c.arg.remoteIp c.arg.remotePort
      tftpErrNotdefined "something impossible just happened"
    c.closeTftpConnection.emit .pbufFree
  else
    let c := c.modifyArg fun a => { a with lastTime := a.timer, retries := 0 }
    let c := c.readPayload p 0
    let opcode := p.u16 0
    let c :=
      if opcode = tftpWrq ∨ opcode = tftpRrq then c
      else if opcode = tftpError then c.closeTftpConnection
      else if opcode = tftpData then c.recvData e p
      else if opcode = tftpAck then c.recvAck e p
      else c.tftpSendError (e.pbufAlloc 0) tftpErrIllegalop "Unknown operation"
    c.emit .pbufFree

/-- `tftp_server_tmr`. -/
def tftpServerTmr (e : Env) (c : Conn) : Conn :=
  let c := c.derefPcb
  let c := c.modifyArg fun a => { a with timer := a.timer + 1 }
  let c := c.sysTimeout
  let c := c.derefArg
  if tftpServerTimeoutMsecs / tftpServerTimerMsecs < c.arg.timer - c.arg.lastTime then
    if c.arg.op = tftpRrq ∧ c.arg.retries < tftpServerMaxRetries then
      let c := c.tftpResendData (e.pbufAlloc 0)
      c.modifyArg fun a => { a with retries := a.retries + 1 }
    else c.closeTftpConnection
  else c

end Conn

-- ============================================================================
-- Steps of a connection
-- ============================================================================

/-- What the stack can do to a connection. -/
inductive Input where
  /-- `udp_input` finds the pcb and calls its receive callback -/
  | datagram (e : Env) (p : Pbuf) (addr : UInt32) (port : UInt16)
  /-- `sys_check_timeouts` takes the expired entry off the list and calls it -/
  | tick (e : Env)

/-- One step.  A datagram reaches the callback only while the pcb is on the
    list, a timer fires only while it is armed. -/
def Conn.step (c : Conn) : Input → Conn
  | .datagram e p addr port =>
      if c.pcbLive then (c.emit (.recv p)).dataAckRecvCallback e p addr port else c
  | .tick e =>
      if 0 < c.timers then
        ({ c with timers := c.timers - 1 }.emit .tick).tftpServerTmr e
      else c

end McuFirmware.Tftp
