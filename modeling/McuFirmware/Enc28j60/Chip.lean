/-
  McuFirmware.Enc28j60.Chip

  The ENC28J60 as its driver sees it: four banks of registers, the buffer memory
  with its read and write pointers, and the packet counter.

  Registers are kept by their location (`locate`), `ECON1` apart from the others
  because its low bits select the bank.  What the hardware reports in the status
  registers is given from outside, for every moment.
-/

import Mathlib.Logic.Function.Basic
import McuFirmware.Enc28j60.Driver
import McuFirmware.Lib.Bytes

namespace McuFirmware.Enc28j60

open McuFirmware.Lib

structure Chip where
  econ1 : UInt8
  regs : UInt8 → UInt8
  mem : Nat → UInt8
  /-- `ERXWRPT`, where the next received frame is stored -/
  wrpt : Nat
  /-- what the status registers report, by location and time -/
  status : UInt8 → Nat → UInt8
  clock : Nat
  /-- register values after a reset, `ECON1` and `EPKTCNT` apart -/
  powerOn : UInt8 → UInt8

namespace Chip

/-- A 16-bit register pair. -/
def pair (regs : UInt8 → UInt8) (low high : UInt8) : Nat :=
  (regs low).toNat + 256 * (regs high).toNat

def setPair (regs : UInt8 → UInt8) (low high : UInt8) (value : Nat) : UInt8 → UInt8 :=
  Function.update (Function.update regs low (UInt8.ofNat value)) high (UInt8.ofNat (value / 256))

/-- The selected bank. -/
def selected (c : Chip) : UInt8 := c.econ1 &&& 3

/-- The locations of `EIR`, `ESTAT` and `MISTAT`. -/
def statusLocs : List UInt8 := [eir, estat, named mistat]

/-- The MAC and MII registers, which answer after a dummy byte. -/
def answersLate (loc : UInt8) : Bool :=
  (0x40 ≤ loc && loc ≤ 0x5A) || (0x60 ≤ loc && loc ≤ 0x65) || loc == named mistat

def value (c : Chip) (loc : UInt8) : UInt8 :=
  if loc = Enc28j60.econ1 then c.econ1
  else if loc ∈ statusLocs then c.status loc c.clock
  else c.regs loc

/-- Registers other than `ECON1` after a write.  `PKTDEC` counts down `EPKTCNT`
    and is not kept. -/
def storeRegs (regs : UInt8 → UInt8) (loc data : UInt8) : UInt8 → UInt8 :=
  if loc = econ2 ∧ data &&& econ2Pktdec ≠ 0 then
    Function.update (Function.update regs econ2 (data &&& ~~~econ2Pktdec)) epktcnt
      (regs epktcnt - 1)
  else Function.update regs loc data

/-- A write to a location.  Writing `ERXST` sets the write pointer of the ring. -/
def store (c : Chip) (loc data : UInt8) : Chip :=
  if loc = Enc28j60.econ1 then { c with econ1 := data }
  else
    let regs := storeRegs c.regs loc data
    if loc = erxstl ∨ loc = erxsth then
      { c with regs := regs, wrpt := pair regs erxstl erxsth }
    else { c with regs := regs }

/-- Where a buffer read goes on: behind `ERXND` at `ERXST`. -/
def afterRead (regs : UInt8 → UInt8) (ptr : Nat) : Nat :=
  if ptr = pair regs erxndl erxndh then pair regs erxstl erxsth else (ptr + 1) % 0x2000

def readBufMem (c : Chip) : UInt8 × Chip :=
  let ptr := pair c.regs erdptl erdpth
  (c.mem ptr, { c with regs := setPair c.regs erdptl erdpth (afterRead c.regs ptr) })

def writeBufMem (c : Chip) (data : UInt8) : Chip :=
  let ptr := pair c.regs ewrptl ewrpth
  { c with
    mem := Function.update c.mem ptr data
    regs := setPair c.regs ewrptl ewrpth ((ptr + 1) % 0x2000) }

def reset (c : Chip) : Chip :=
  { c with econ1 := 0, regs := Function.update c.powerOn epktcnt 0 }

/-- A chip whose clock runs and whose PHY is idle. -/
def ready : Chip where
  econ1 := 0
  regs _ := 0
  mem _ := 0
  wrpt := 0
  status loc _ := if loc = estat then estatClkrdy else 0
  clock := 0
  powerOn _ := 0

end Chip

instance : Spi Chip where
  reset := Chip.reset
  readCtrlReg addr dummy c :=
    let loc := locate c.selected addr
    (if Chip.answersLate loc = dummy then c.value loc else 0, { c with clock := c.clock + 1 })
  readBufMem := Chip.readBufMem
  writeCtrlReg addr data c := c.store (locate c.selected addr) data
  writeBufMem data c := c.writeBufMem data
  bitFieldSet addr data c :=
    let loc := locate c.selected addr
    c.store loc (c.value loc ||| data)
  bitFieldClr addr data c :=
    let loc := locate c.selected addr
    c.store loc (c.value loc &&& ~~~data)
  bank := Chip.selected

/-- A location is `ECON1`'s in no bank but for its own address. -/
theorem locate_eq_econ1 (bank addr : UInt8) : locate bank addr = econ1 ↔ addr = econ1 := by
  have hshift : (bank <<< 5) ∈ ([0x00, 0x20, 0x40, 0x60, 0x80, 0xA0, 0xC0, 0xE0] : List UInt8) :=
    forall_uint8 (P := fun b => (b <<< 5) ∈ _) (by decide +kernel) bank
  unfold locate
  split
  · rfl
  · rename_i h
    exact forall_uint8 (P := fun a => ∀ s ∈ ([0x00, 0x20, 0x40, 0x60, 0x80, 0xA0, 0xC0, 0xE0] :
      List UInt8), ¬ eie ≤ a → (s ||| a = econ1 ↔ a = econ1)) (by decide +kernel) addr _ hshift h

namespace Chip

@[simp] theorem store_selected (c : Chip) (loc data : UInt8) :
    (c.store loc data).selected = if loc = Enc28j60.econ1 then data &&& 3 else c.selected := by
  unfold store
  split
  · rfl
  · split <;> rfl

end Chip

instance : LawfulSpi Chip where
  bank_le c := forall_uint8 (P := fun b => b &&& 3 ≤ 3) (by decide +kernel) c.econ1
  bank_reset _ := by
    change (0 : UInt8) &&& 3 = 0
    decide
  bank_readCtrlReg _ _ _ := rfl
  bank_readBufMem _ := rfl
  bank_writeBufMem _ _ := rfl
  bank_writeCtrlReg addr data c := by
    change (c.store _ _).selected = _
    simp only [Chip.store_selected, locate_eq_econ1]
    rfl
  bank_bitFieldSet addr data c := by
    change (c.store _ _).selected = _
    simp only [Chip.store_selected, locate_eq_econ1]
    split
    · subst addr
      exact uint8_or_and c.econ1 data 3
    · rfl
  bank_bitFieldClr addr data c := by
    change (c.store _ _).selected = _
    simp only [Chip.store_selected, locate_eq_econ1]
    split
    · subst addr
      exact uint8_and_and c.econ1 (~~~data) 3
    · rfl

end McuFirmware.Enc28j60
