/-
  McuFirmware.Tftp.Packet

  The constants of `tftp_server.c` and `tftp_server_opts.h`, and the three
  datagrams the server builds.  A `Packet` is what a `tftp_send_*` function
  hands to `udp_send`; `Packet.encode` is its payload byte for byte.
-/

import McuFirmware.Lwip.Pbuf

namespace McuFirmware.Tftp

open McuFirmware.Lwip

/-! ## Opcodes and error codes (RFC 1350) -/

def tftpRrq : UInt16 := 1
def tftpWrq : UInt16 := 2
def tftpData : UInt16 := 3
def tftpAck : UInt16 := 4
def tftpError : UInt16 := 5

theorem tftpRrq_ne_wrq : tftpRrq ≠ tftpWrq := by decide

def tftpErrNotdefined : UInt16 := 0
def tftpErrFileNotFound : UInt16 := 1
def tftpErrAccessViolation : UInt16 := 2
def tftpErrIllegalop : UInt16 := 4

/-! ## Sizes and limits -/

def tftpDataLenMax : Nat := 512
def tftpDataPktHdrLen : Nat := 4

def tftpServerTimeoutMsecs : UInt32 := 5000
def tftpServerTimerMsecs : UInt32 := 50
def tftpServerMaxRetries : UInt8 := 5
def tftpServerMaxFilenameLen : Nat := 32
def tftpServerMaxModeLen : Nat := 16

/-! ## Datagrams -/

/-- A datagram the server sends. -/
inductive Packet where
  | data (blknum : UInt16) (bytes : List UInt8)
  | ack (blknum : UInt16)
  | error (code : UInt16) (msg : String)
deriving DecidableEq

/-- The payload: `payload[0]`, `payload[1]` in network order, then the data
    block or the NUL-terminated error text. -/
def Packet.encode : Packet → List UInt8
  | .data blknum bytes =>
      storeU16 (ppHtons tftpData) ++ storeU16 (ppHtons blknum) ++ bytes
  | .ack blknum => storeU16 (ppHtons tftpAck) ++ storeU16 (ppHtons blknum)
  | .error code msg =>
      storeU16 (ppHtons tftpError) ++ storeU16 (ppHtons code) ++ msg.toUTF8.toList ++ [0]

/-- The datagram a client answers block `blknum` with. -/
def ackPbuf (blknum : UInt16) : Pbuf :=
  Pbuf.ofBytes (Packet.ack blknum).encode (by simp [Packet.encode])

/-- The datagram a client sends block `blknum` in. -/
def dataPbuf (blknum : UInt16) (bytes : List UInt8) (h : bytes.length ≤ tftpDataLenMax) : Pbuf :=
  Pbuf.ofBytes (Packet.data blknum bytes).encode (by
    simp only [tftpDataLenMax] at h
    simp only [Packet.encode, List.length_append, length_storeU16]
    omega)

@[simp] theorem ackPbuf_opcode (blknum : UInt16) : (ackPbuf blknum).u16 0 = tftpAck :=
  Pbuf.u16_of_drop (storeU16 (ppHtons blknum)) rfl

@[simp] theorem ackPbuf_blknum (blknum : UInt16) : (ackPbuf blknum).u16 1 = blknum :=
  Pbuf.u16_of_drop [] (by simp [ackPbuf, Pbuf.ofBytes, Packet.encode, storeU16])

section DataPbuf

variable (blknum : UInt16) (bytes : List UInt8) (h : bytes.length ≤ tftpDataLenMax)

@[simp] theorem dataPbuf_opcode : (dataPbuf blknum bytes h).u16 0 = tftpData :=
  Pbuf.u16_of_drop (storeU16 (ppHtons blknum) ++ bytes)
    (by simp [dataPbuf, Pbuf.ofBytes, Packet.encode])

@[simp] theorem dataPbuf_blknum : (dataPbuf blknum bytes h).u16 1 = blknum :=
  Pbuf.u16_of_drop bytes (by simp [dataPbuf, Pbuf.ofBytes, Packet.encode, storeU16])

end DataPbuf

end McuFirmware.Tftp
