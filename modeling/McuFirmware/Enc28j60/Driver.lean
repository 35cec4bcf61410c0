/-
  McuFirmware.Enc28j60.Driver

  The ENC28J60 driver of `arch/ENC28J60/enc28j60.c`, over any chip behind the SPI
  port.

  `Spi` lists the transactions the chip answers; the driver functions are programs
  over the chip and the two static variables `Enc28j60Bank` and `NextPacketPtr`.
  A loop that polls the chip takes the number of polls it may make; a program that
  stops is one that is still polling.

  Every register access is recorded with the register constant the driver meant,
  the bank the chip had selected, and the bank the driver believed in.
-/

import McuFirmware.Lib.Triple

namespace McuFirmware.Enc28j60

-- ============================================================================
-- Constants of `enc28j60.h`
-- ============================================================================

def addrMask : UInt8 := 0x1F
def bankMask : UInt8 := 0x60

-- Registers visible in every bank.
def eie : UInt8 := 0x1B
def eir : UInt8 := 0x1C
def estat : UInt8 := 0x1D
def econ2 : UInt8 := 0x1E
def econ1 : UInt8 := 0x1F

-- Bank 0.
def erdptl : UInt8 := 0x00
def erdpth : UInt8 := 0x01
def ewrptl : UInt8 := 0x02
def ewrpth : UInt8 := 0x03
def etxstl : UInt8 := 0x04
def etxsth : UInt8 := 0x05
def etxndl : UInt8 := 0x06
def etxndh : UInt8 := 0x07
def erxstl : UInt8 := 0x08
def erxsth : UInt8 := 0x09
def erxndl : UInt8 := 0x0A
def erxndh : UInt8 := 0x0B
def erxrdptl : UInt8 := 0x0C
def erxrdpth : UInt8 := 0x0D

-- Bank 1.
def epmm0 : UInt8 := 0x08 ||| 0x20
def epmm1 : UInt8 := 0x09 ||| 0x20
def epmcsl : UInt8 := 0x10 ||| 0x20
def epmcsh : UInt8 := 0x11 ||| 0x20
def erxfcon : UInt8 := 0x18 ||| 0x20
def epktcnt : UInt8 := 0x19 ||| 0x20

-- Bank 2.  Bit 7 marks the MAC and MII registers, which answer after a dummy byte.
def macon1 : UInt8 := 0x00 ||| 0x40 ||| 0x80
def macon2 : UInt8 := 0x01 ||| 0x40 ||| 0x80
def macon3 : UInt8 := 0x02 ||| 0x40 ||| 0x80
def mabbipg : UInt8 := 0x04 ||| 0x40 ||| 0x80
def maipgl : UInt8 := 0x06 ||| 0x40 ||| 0x80
def maipgh : UInt8 := 0x07 ||| 0x40 ||| 0x80
def mamxfll : UInt8 := 0x0A ||| 0x40 ||| 0x80
def mamxflh : UInt8 := 0x0B ||| 0x40 ||| 0x80
def miregadr : UInt8 := 0x14 ||| 0x40 ||| 0x80
def miwrl : UInt8 := 0x16 ||| 0x40 ||| 0x80
def miwrh : UInt8 := 0x17 ||| 0x40 ||| 0x80

-- Bank 3.
def maadr1 : UInt8 := 0x00 ||| 0x60 ||| 0x80
def maadr0 : UInt8 := 0x01 ||| 0x60 ||| 0x80
def maadr3 : UInt8 := 0x02 ||| 0x60 ||| 0x80
def maadr2 : UInt8 := 0x03 ||| 0x60 ||| 0x80
def maadr5 : UInt8 := 0x04 ||| 0x60 ||| 0x80
def maadr4 : UInt8 := 0x05 ||| 0x60 ||| 0x80
def mistat : UInt8 := 0x0A ||| 0x60 ||| 0x80

-- PHY registers.
def phcon1 : UInt8 := 0x00
def phcon2 : UInt8 := 0x10

-- Register bits.
def erxfconUcen : UInt8 := 0x80
def erxfconCrcen : UInt8 := 0x20
def erxfconPmen : UInt8 := 0x10
def eieIntie : UInt8 := 0x80
def eiePktie : UInt8 := 0x40
def eieRxerie : UInt8 := 0x01
def eirTxerif : UInt8 := 0x02
def estatClkrdy : UInt8 := 0x01
def econ2Pktdec : UInt8 := 0x40
def econ1Txrts : UInt8 := 0x08
def econ1Rxen : UInt8 := 0x04
def econ1Bsel1 : UInt8 := 0x02
def econ1Bsel0 : UInt8 := 0x01
def macon1Txpaus : UInt8 := 0x08
def macon1Rxpaus : UInt8 := 0x04
def macon1Marxen : UInt8 := 0x01
def macon3Padcfg0 : UInt8 := 0x20
def macon3Txcrcen : UInt8 := 0x10
def macon3Frmlnen : UInt8 := 0x02
def macon3Fuldpx : UInt8 := 0x01
def mistatBusy : UInt8 := 0x01
def phcon1Pdpxmd : UInt32 := 0x0100
def phcon2Hdldis : UInt32 := 0x0100

-- The buffer memory: the receive ring in front, the transmit buffer behind it.
def rxstartInit : UInt32 := 0x0
def rxstopInit : UInt32 := 0x1FFF - 0x0600 - 1
def txstartInit : UInt32 := 0x1FFF - 0x0600
def txstopInit : UInt32 := 0x1FFF
def maxFramelen : UInt32 := 1500

-- ============================================================================
-- The chip behind the SPI port
-- ============================================================================

/-- The transactions of the SPI port.  Register addresses are the five bits the
    command byte carries; `bank` only serves to say which register is reached. -/
class Spi (σ : Type) where
  /-- the reset pin, and the soft reset command -/
  reset : σ → σ
  /-- `dummy` tells whether the first byte of the answer is dropped -/
  readCtrlReg : UInt8 → (dummy : Bool) → σ → UInt8 × σ
  readBufMem : σ → UInt8 × σ
  writeCtrlReg : UInt8 → UInt8 → σ → σ
  writeBufMem : UInt8 → σ → σ
  bitFieldSet : UInt8 → UInt8 → σ → σ
  bitFieldClr : UInt8 → UInt8 → σ → σ
  bank : σ → UInt8

/-- What is assumed of the chip: bits 1..0 of `ECON1` select the bank, no other
    register and no buffer access changes it, and a reset selects bank 0. -/
class LawfulSpi (σ : Type) [Spi σ] : Prop where
  bank_le (s : σ) : Spi.bank s ≤ 3
  bank_reset (s : σ) : Spi.bank (Spi.reset s) = 0
  bank_readCtrlReg (addr : UInt8) (dummy : Bool) (s : σ) :
    Spi.bank (Spi.readCtrlReg addr dummy s).2 = Spi.bank s
  bank_readBufMem (s : σ) : Spi.bank (Spi.readBufMem s).2 = Spi.bank s
  bank_writeBufMem (data : UInt8) (s : σ) : Spi.bank (Spi.writeBufMem data s) = Spi.bank s
  bank_writeCtrlReg (addr data : UInt8) (s : σ) :
    Spi.bank (Spi.writeCtrlReg addr data s) = if addr = econ1 then data &&& 3 else Spi.bank s
  bank_bitFieldSet (addr data : UInt8) (s : σ) :
    Spi.bank (Spi.bitFieldSet addr data s) =
      if addr = econ1 then Spi.bank s ||| (data &&& 3) else Spi.bank s
  bank_bitFieldClr (addr data : UInt8) (s : σ) :
    Spi.bank (Spi.bitFieldClr addr data s) =
      if addr = econ1 then Spi.bank s &&& ~~~data else Spi.bank s

/-- The register an address reaches in a bank; `0x1B` to `0x1F` are the same
    registers in every bank. -/
def locate (bank addr : UInt8) : UInt8 :=
  if eie ≤ addr then addr else (bank <<< 5) ||| addr

/-- The register a constant names. -/
def named (address : UInt8) : UInt8 :=
  locate ((address &&& bankMask) >>> 5) (address &&& addrMask)

/-- Operation codes of `enc28j60ReadOp`. -/
inductive ReadCode where
  | readCtrlReg
  | readBufMem
deriving DecidableEq, Repr

/-- Operation codes of `enc28j60WriteOp`. -/
inductive WriteCode where
  | writeCtrlReg
  | writeBufMem
  | bitFieldSet
  | bitFieldClr
  | softReset
deriving DecidableEq, Repr

/-- One access to a register, as it is made. -/
structure Access where
  /-- the register constant -/
  address : UInt8
  /-- the bank the chip has selected -/
  bank : UInt8
  /-- `Enc28j60Bank` -/
  cache : UInt8
  /-- whether `enc28j60SetBank` makes it in order to switch the bank -/
  switching : Bool
deriving DecidableEq, Repr

/-- The chip, the static variables of the driver, and the record of accesses,
    latest first. -/
structure Driver (σ : Type) where
  chip : σ
  enc28j60Bank : UInt8
  nextPacketPtr : UInt32
  /-- for the record only: `enc28j60SetBank` is switching the bank -/
  switching : Bool
  accesses : List Access

/-- A program of the driver; it stops where it polls without end. -/
abbrev Drive (σ : Type) (α : Type) : Type := EStateM Unit (Driver σ) α

variable {σ : Type} [Spi σ]

/-- The record after an access to the register `address`. -/
def Driver.note (d : Driver σ) (address : UInt8) : Driver σ :=
  { d with accesses := ⟨address, Spi.bank d.chip, d.enc28j60Bank, d.switching⟩ :: d.accesses }

/-- A transaction that returns nothing. -/
def Driver.onChip (d : Driver σ) (f : σ → σ) : Driver σ :=
  { d with chip := f d.chip }

-- ============================================================================
-- SPI operations
-- ============================================================================

def enc28j60ReadOp (op : ReadCode) (address : UInt8) : Drive σ UInt8 :=
  match op with
  | .readCtrlReg =>
      modifyGet fun d =>
        let answer := Spi.readCtrlReg (address &&& addrMask) (address &&& 0x80 != 0) d.chip
        (answer.1, { d.note address with chip := answer.2 })
  | .readBufMem =>
      modifyGet fun d =>
        let answer := Spi.readBufMem d.chip
        (answer.1, { d with chip := answer.2 })

def enc28j60WriteOp (op : WriteCode) (address data : UInt8) : Drive σ Unit :=
  match op with
  | .writeCtrlReg =>
      modify fun d => (d.note address).onChip (Spi.writeCtrlReg (address &&& addrMask) data)
  | .bitFieldSet =>
      modify fun d => (d.note address).onChip (Spi.bitFieldSet (address &&& addrMask) data)
  | .bitFieldClr =>
      modify fun d => (d.note address).onChip (Spi.bitFieldClr (address &&& addrMask) data)
  | .writeBufMem => modify fun d => d.onChip (Spi.writeBufMem data)
  | .softReset => modify fun d => d.onChip Spi.reset

/-- The loop of `enc28j60ReadBuffer`. -/
def readBytes : Nat → Drive σ (List UInt8)
  | 0 => pure []
  | len + 1 => do
      let byte ← enc28j60ReadOp .readBufMem 0
      let rest ← readBytes len
      pure (byte :: rest)

/-- `enc28j60ReadBuffer`: the cells it stores from `data` on, the closing `'\0'`
    included. -/
def enc28j60ReadBuffer (len : UInt32) : Drive σ (List UInt8) := do
  let bytes ← readBytes len.toNat
  pure (bytes ++ [0])

/-- The loop of `enc28j60WriteBuffer`, with `len` bytes from `data` on to write. -/
def writeBytes : Nat → (Nat → UInt8) → Drive σ Unit
  | 0, _ => pure ()
  | len + 1, data => do
      enc28j60WriteOp .writeBufMem 0 (data 0)
      writeBytes len fun i => data (i + 1)

def enc28j60WriteBuffer (len : UInt32) (data : Nat → UInt8) : Drive σ Unit :=
  writeBytes len.toNat data

-- ============================================================================
-- Registers
-- ============================================================================

def enc28j60SetBank (address : UInt8) : Drive σ Unit := do
  let d ← get
  if address &&& bankMask ≠ d.enc28j60Bank then do
    modify fun d => { d with switching := true }
    enc28j60WriteOp .bitFieldClr econ1 (econ1Bsel1 ||| econ1Bsel0)
    enc28j60WriteOp .bitFieldSet econ1 ((address &&& bankMask) >>> 5)
    modify fun d => { d with enc28j60Bank := address &&& bankMask, switching := false }
  else pure ()

def enc28j60Read (address : UInt8) : Drive σ UInt8 := do
  enc28j60SetBank address
  enc28j60ReadOp .readCtrlReg address

def enc28j60Write (address data : UInt8) : Drive σ Unit := do
  enc28j60SetBank address
  enc28j60WriteOp .writeCtrlReg address data

/-- `while (!ready(enc28j60Read(address)));` with at most `polls` reads after the
    first. -/
def pollUntil (address : UInt8) (ready : UInt8 → Bool) : (polls : Nat) → Drive σ Unit
  | 0 => do
      let value ← enc28j60Read address
      if ready value then pure () else throw ()
  | polls + 1 => do
      let value ← enc28j60Read address
      if ready value then pure () else pollUntil address ready polls

def enc28j60PhyWrite (polls : Nat) (address : UInt8) (data : UInt32) : Drive σ Unit := do
  enc28j60Write miregadr address
  enc28j60Write miwrl data.toUInt8
  enc28j60Write miwrh (data >>> 8).toUInt8
  pollUntil mistat (fun value => value &&& mistatBusy == 0) polls

-- ============================================================================
-- `enc28j60Init`, in the sections of its comments
-- ============================================================================

/-- "Do bank 0 stuff": the receive ring and the transmit buffer. -/
def initBuffers : Drive σ Unit := do
  modify fun d => { d with nextPacketPtr := rxstartInit }
  enc28j60Write erxstl (rxstartInit &&& 0xFF).toUInt8
  enc28j60Write erxsth (rxstartInit >>> 8).toUInt8
  enc28j60Write erxrdptl (rxstartInit &&& 0xFF).toUInt8
  enc28j60Write erxrdpth (rxstartInit >>> 8).toUInt8
  enc28j60Write erxndl (rxstopInit &&& 0xFF).toUInt8
  enc28j60Write erxndh (rxstopInit >>> 8).toUInt8
  enc28j60Write etxstl (txstartInit &&& 0xFF).toUInt8
  enc28j60Write etxsth (txstartInit >>> 8).toUInt8
  enc28j60Write etxndl (txstopInit &&& 0xFF).toUInt8
  enc28j60Write etxndh (txstopInit >>> 8).toUInt8

/-- "Do bank 1 stuff, packet filter". -/
def initFilter : Drive σ Unit := do
  enc28j60Write erxfcon (erxfconUcen ||| erxfconCrcen ||| erxfconPmen)
  enc28j60Write epmm0 0x3F
  enc28j60Write epmm1 0x30
  enc28j60Write epmcsl 0xF9
  enc28j60Write epmcsh 0xF7

/-- "Do bank 2 stuff": the MAC.  `MACON3` is set without `enc28j60SetBank`. -/
def initMac : Drive σ Unit := do
  enc28j60Write macon1 (macon1Marxen ||| macon1Txpaus ||| macon1Rxpaus)
  enc28j60Write macon2 0x00
  enc28j60WriteOp .bitFieldSet macon3
    (macon3Padcfg0 ||| macon3Txcrcen ||| macon3Frmlnen ||| macon3Fuldpx)
  enc28j60Write maipgl 0x12
  enc28j60Write maipgh 0x0C
  enc28j60Write mabbipg 0x15
  enc28j60Write mamxfll (maxFramelen &&& 0xFF).toUInt8
  enc28j60Write mamxflh (maxFramelen >>> 8).toUInt8

/-- The address registers as they are read back for printing. -/
def printMaadr : Drive σ Unit := do
  let _ ← enc28j60Read maadr5
  let _ ← enc28j60Read maadr4
  let _ ← enc28j60Read maadr3
  let _ ← enc28j60Read maadr2
  let _ ← enc28j60Read maadr1
  let _ ← enc28j60Read maadr0
  pure ()

/-- "Do bank 3 stuff": the MAC address, byte-backward. -/
def initMaadr (macaddr : Vector UInt8 6) : Drive σ Unit := do
  enc28j60Write maadr5 macaddr[0]
  enc28j60Write maadr4 macaddr[1]
  enc28j60Write maadr3 macaddr[2]
  enc28j60Write maadr2 macaddr[3]
  enc28j60Write maadr1 macaddr[4]
  enc28j60Write maadr0 macaddr[5]
  let first ← enc28j60Read maadr5
  if first = macaddr[0] then printMaadr else pure ()

/-- "Switch to bank 0", interrupts and packet reception on. -/
def initEnable : Drive σ Unit := do
  enc28j60SetBank econ1
  enc28j60WriteOp .bitFieldSet eie (eieIntie ||| eiePktie ||| eieRxerie)
  enc28j60WriteOp .bitFieldSet econ1 econ1Rxen

/-- The reset, and the wait for the chip's clock. -/
def initReset (polls : Nat) : Drive σ Unit := do
  modify fun d => d.onChip Spi.reset
  enc28j60WriteOp .softReset 0 0xFF
  pollUntil estat (fun value => value &&& estatClkrdy != 0) polls

def enc28j60Init (polls : Nat) (macaddr : Vector UInt8 6) : Drive σ Unit := do
  initReset polls
  initBuffers
  initFilter
  initMac
  initMaadr macaddr
  enc28j60PhyWrite polls phcon1 phcon1Pdpxmd
  enc28j60PhyWrite polls phcon2 phcon2Hdldis
  initEnable

-- ============================================================================
-- Packets
-- ============================================================================

def enc28j60PacketSend (polls : Nat) (len : UInt32) (packet : Nat → UInt8) : Drive σ Unit := do
  pollUntil econ1 (fun value => value &&& econ1Txrts == 0) polls
  enc28j60Write ewrptl (txstartInit &&& 0xFF).toUInt8
  enc28j60Write ewrpth (txstartInit >>> 8).toUInt8
  enc28j60Write etxndl ((txstartInit + len) &&& 0xFF).toUInt8
  enc28j60Write etxndh ((txstartInit + len) >>> 8).toUInt8
  enc28j60WriteOp .writeBufMem 0 0x00
  enc28j60WriteBuffer len packet
  enc28j60WriteOp .bitFieldSet econ1 econ1Txrts
  let flags ← enc28j60Read eir
  if flags &&& eirTxerif ≠ 0 then do
    enc28j60SetBank econ1
    enc28j60WriteOp .bitFieldClr econ1 econ1Txrts
  else pure ()

/-- A number from two bytes. -/
def leWord (low high : UInt8) : UInt32 :=
  low.toUInt32 ||| (high.toUInt32 <<< 8)

/-- Two bytes of the buffer memory, low byte first. -/
def readWord : Drive σ UInt32 := do
  let low ← enc28j60ReadOp .readBufMem 0
  let high ← enc28j60ReadOp .readBufMem 0
  pure (leWord low high)

/-- The length `enc28j60PacketReceive` copies, from the byte count of the header. -/
def copyLen (count maxlen : UInt32) : UInt32 :=
  let len := count - 4
  if len > maxlen - 1 then maxlen - 1 else len

/-- The packet is copied if the status vector reports it as received OK. -/
def copyPacket (count rxstat maxlen : UInt32) : Drive σ (UInt32 × List UInt8) :=
  if rxstat &&& 0x80 = 0 then pure (0, [])
  else do
    let stored ← enc28j60ReadBuffer (copyLen count maxlen)
    pure (copyLen count maxlen, stored)

/-- The packet at `nextPacketPtr` is fetched and released. -/
def fetchPacket (maxlen nextPacketPtr : UInt32) : Drive σ (UInt32 × List UInt8) := do
  enc28j60Write erdptl nextPacketPtr.toUInt8
  enc28j60Write erdpth (nextPacketPtr >>> 8).toUInt8
  let next ← readWord
  modify fun d => { d with nextPacketPtr := next }
  let count ← readWord
  let rxstat ← readWord
  let result ← copyPacket count rxstat maxlen
  enc28j60Write erxrdptl next.toUInt8
  enc28j60Write erxrdpth (next >>> 8).toUInt8
  enc28j60WriteOp .bitFieldSet econ2 econ2Pktdec
  pure result

/-- `enc28j60PacketReceive`: the returned length, and the cells stored from
    `packet` on. -/
def enc28j60PacketReceive (maxlen : UInt32) : Drive σ (UInt32 × List UInt8) := do
  let packets ← enc28j60Read epktcnt
  if packets = 0 then pure (0, [])
  else do
    let d ← get
    fetchPacket maxlen d.nextPacketPtr

end McuFirmware.Enc28j60
