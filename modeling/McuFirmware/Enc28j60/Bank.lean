/-
  McuFirmware.Enc28j60.Bank

  The register bank the driver believes in is the bank the chip has selected.

  `Enc28j60Bank` survives a reset of the chip, and several accesses rely on the
  bank an earlier call has left.  `Synced` is the invariant that makes all of them
  reach the register they name; every function of the driver keeps it, over any
  chip that meets `LawfulSpi`, except a plain write of `ECON1` that selects
  another bank.
-/

import McuFirmware.Enc28j60.Chip
import McuFirmware.Lib.Run

namespace McuFirmware.Enc28j60

open McuFirmware.Lib

variable {σ : Type} [Spi σ]

-- ============================================================================
-- The invariant
-- ============================================================================

/-- The access reaches the register its constant names; and unless it switches the
    bank, the bank the driver believes in is the selected one. -/
structure Access.Right (a : Access) : Prop where
  reached : locate a.bank (a.address &&& addrMask) = named a.address
  cached : a.switching = false → a.cache.toNat = 0x20 * a.bank.toNat

/-- `Enc28j60Bank` is the chip's bank times `0x20`. -/
def Driver.BankCached (d : Driver σ) : Prop :=
  d.enc28j60Bank.toNat = 0x20 * (Spi.bank d.chip).toNat

structure Driver.Synced (d : Driver σ) : Prop where
  settled : d.switching = false
  cached : d.BankCached
  right : ∀ a ∈ d.accesses, a.Right

/-- All that `enc28j60SetBank` needs: if it will not switch, the bank is right. -/
structure Driver.Switchable (address : UInt8) (d : Driver σ) : Prop where
  settled : d.switching = false
  cached : address &&& bankMask = d.enc28j60Bank → d.BankCached
  right : ∀ a ∈ d.accesses, a.Right

/-- The selected bank is the one the register constant names. -/
def Driver.Selects (address : UInt8) (d : Driver σ) : Prop :=
  Spi.bank d.chip = (address &&& bankMask) >>> 5

/-- An access to `address` now reaches the register it names. -/
def Driver.Reaches (address : UInt8) (d : Driver σ) : Prop :=
  locate (Spi.bank d.chip) (address &&& addrMask) = named address

theorem Driver.Synced.switchable {d : Driver σ} (h : d.Synced) (address : UInt8) :
    d.Switchable address :=
  ⟨h.settled, fun _ => h.cached, h.right⟩

theorem Driver.Selects.reaches {d : Driver σ} {address : UInt8} (h : d.Selects address) :
    d.Reaches address := by
  unfold Driver.Reaches
  rw [h]
  rfl

/-- A register that is visible in every bank is reached from any of them. -/
theorem Driver.reaches_of_common {address : UInt8} (h : eie ≤ address &&& addrMask)
    (d : Driver σ) : d.Reaches address := by
  unfold Driver.Reaches named locate
  rw [if_pos h, if_pos h]

theorem reaches_econ1 (d : Driver σ) : d.Reaches econ1 :=
  Driver.reaches_of_common (by decide) d

theorem bankMask_toNat (address : UInt8) :
    (address &&& bankMask).toNat = 0x20 * ((address &&& bankMask) >>> 5).toNat :=
  forall_uint8 (P := fun a => (a &&& bankMask).toNat = 0x20 * ((a &&& bankMask) >>> 5).toNat)
    (by decide +kernel) address

/-- A cached bank that is the address's is selected. -/
theorem Driver.selects_of_cached {d : Driver σ} {address : UInt8} (h : d.BankCached)
    (haddr : address &&& bankMask = d.enc28j60Bank) : d.Selects address := by
  unfold Driver.BankCached at h
  rw [← haddr, bankMask_toNat] at h
  exact UInt8.toNat_inj.mp (Nat.eq_of_mul_eq_mul_left (by decide) h.symm)

/-- The record stays right when an access that reaches its register is added. -/
theorem Driver.right_note {d : Driver σ} {address : UInt8} (h : ∀ a ∈ d.accesses, a.Right)
    (hreach : d.Reaches address) (hcache : d.switching = false → d.BankCached) :
    ∀ a ∈ (d.note address).accesses, a.Right := by
  intro a ha
  obtain rfl | ha := List.mem_cons.mp ha
  · exact ⟨hreach, hcache⟩
  · exact h a ha

/-- Changing `NextPacketPtr` touches neither the bank nor the record. -/
theorem nextPacketPtr_keeps (ptr : UInt32) :
    Keeps Driver.Synced
      (modify fun d => { d with nextPacketPtr := ptr } : Drive σ PUnit) := by
  intro d hd
  exact ⟨hd.settled, hd.cached, hd.right⟩

/-- What a read keeps, polling keeps. -/
theorem pollUntil_of_read {I : Driver σ → Prop} {address : UInt8}
    (h : Keeps I (enc28j60Read address)) (ready : UInt8 → Bool) (polls : Nat) :
    Keeps I (pollUntil address ready polls) := by
  induction polls with
  | zero =>
      unfold pollUntil
      exact h.bind fun _ => Keeps.cond (Keeps.pure ()) (Keeps.stop ())
  | succ polls ih =>
      unfold pollUntil
      exact h.bind fun _ => Keeps.cond (Keeps.pure ()) ih

-- ============================================================================
-- Operations on the chip
-- ============================================================================

/-- The bank after a write operation. -/
def bankAfter (op : WriteCode) (address data bank : UInt8) : UInt8 :=
  match op with
  | .softReset => 0
  | .writeBufMem => bank
  | .writeCtrlReg => if address &&& addrMask = econ1 then data &&& 3 else bank
  | .bitFieldSet => if address &&& addrMask = econ1 then bank ||| (data &&& 3) else bank
  | .bitFieldClr => if address &&& addrMask = econ1 then bank &&& ~~~data else bank

section Lawful

variable [LawfulSpi σ] {E : Driver σ → Prop}

/-- What a write operation does to the bank and the record. -/
structure Written (op : WriteCode) (address data : UInt8) (d d' : Driver σ) : Prop where
  bank : Spi.bank d'.chip = bankAfter op address data (Spi.bank d.chip)
  cache : d'.enc28j60Bank = d.enc28j60Bank
  switching : d'.switching = d.switching
  accesses : d'.accesses ⊆ (d.note address).accesses

theorem writeOp_written (op : WriteCode) (address data : UInt8) (d : Driver σ) :
    Triple (fun s => s = d) (enc28j60WriteOp op address data)
      (fun _ => Written op address data d) E := by
  rintro s rfl
  cases op with
  | softReset => exact ⟨LawfulSpi.bank_reset s.chip, rfl, rfl, List.subset_cons_self _ _⟩
  | writeBufMem =>
      exact ⟨LawfulSpi.bank_writeBufMem data s.chip, rfl, rfl, List.subset_cons_self _ _⟩
  | writeCtrlReg => exact ⟨LawfulSpi.bank_writeCtrlReg _ data s.chip, rfl, rfl, fun _ h => h⟩
  | bitFieldSet => exact ⟨LawfulSpi.bank_bitFieldSet _ data s.chip, rfl, rfl, fun _ h => h⟩
  | bitFieldClr => exact ⟨LawfulSpi.bank_bitFieldClr _ data s.chip, rfl, rfl, fun _ h => h⟩

/-- A write operation that reaches its register and leaves the bank selected. -/
theorem writeOp_synced {op : WriteCode} {address data bank : UInt8}
    (hbank : bankAfter op address data bank = bank) :
    Triple (fun d : Driver σ => (d.Synced ∧ d.Reaches address) ∧ Spi.bank d.chip = bank)
      (enc28j60WriteOp op address data) (fun _ d => d.Synced ∧ Spi.bank d.chip = bank) E := by
  apply Triple.of_eq
  rintro d ⟨⟨hd, hreach⟩, rfl⟩
  apply (writeOp_written op address data d).post
  intro _ d' h
  have hsame : Spi.bank d'.chip = Spi.bank d.chip := h.bank.trans hbank
  refine ⟨⟨h.switching.trans hd.settled, ?_, fun a ha => ?_⟩, hsame⟩
  · unfold Driver.BankCached
    rw [h.cache, hsame]
    exact hd.cached
  · exact Driver.right_note hd.right hreach (fun _ => hd.cached) a (h.accesses ha)

/-- Inside `enc28j60SetBank`: an operation on `ECON1` while the bank is switched. -/
theorem writeOp_switching (op : WriteCode) (data bank : UInt8) :
    Triple (fun d : Driver σ => (d.switching = true ∧ ∀ a ∈ d.accesses, a.Right) ∧
        Spi.bank d.chip = bank)
      (enc28j60WriteOp op econ1 data)
      (fun _ d => (d.switching = true ∧ ∀ a ∈ d.accesses, a.Right) ∧
        Spi.bank d.chip = bankAfter op econ1 data bank) E := by
  apply Triple.of_eq
  rintro d ⟨⟨hswitch, hright⟩, rfl⟩
  apply (writeOp_written op econ1 data d).post
  intro _ d' h
  refine ⟨⟨h.switching.trans hswitch, fun a ha => ?_⟩, h.bank⟩
  refine Driver.right_note hright (reaches_econ1 d) (fun hoff => ?_) a (h.accesses ha)
  rw [hswitch] at hoff
  exact absurd hoff (by decide)

-- ============================================================================
-- Switching the bank
-- ============================================================================

/-- Clearing both bank bits selects bank 0. -/
theorem bankAfter_clr {bank : UInt8} (h : bank ≤ 3) :
    bankAfter .bitFieldClr econ1 (econ1Bsel1 ||| econ1Bsel0) bank = 0 :=
  forall_uint8 (P := fun b => b ≤ 3 →
    bankAfter .bitFieldClr econ1 (econ1Bsel1 ||| econ1Bsel0) b = 0) (by decide +kernel) bank h

/-- From bank 0, setting the bits of an address selects its bank. -/
theorem bankAfter_set (address : UInt8) :
    bankAfter .bitFieldSet econ1 ((address &&& bankMask) >>> 5) 0 =
      (address &&& bankMask) >>> 5 :=
  forall_uint8 (P := fun a => bankAfter .bitFieldSet econ1 ((a &&& bankMask) >>> 5) 0 =
    (a &&& bankMask) >>> 5) (by decide +kernel) address

/-- `enc28j60SetBank` selects the bank of the address and caches it. -/
theorem setBank_synced (address : UInt8) :
    Triple (Driver.Switchable address) (enc28j60SetBank address : Drive σ Unit)
      (fun _ d => d.Synced ∧ d.Selects address) E := by
  unfold enc28j60SetBank
  apply Triple.bind Triple.get
  intro d
  apply Triple.cond
  · intro _
    apply Triple.bind (Triple.modify _)
    intro _
    apply Triple.bind ((writeOp_switching .bitFieldClr (econ1Bsel1 ||| econ1Bsel0)
      (Spi.bank d.chip)).pre ?_)
    · intro _
      rw [bankAfter_clr (LawfulSpi.bank_le d.chip)]
      apply Triple.bind (writeOp_switching .bitFieldSet _ 0)
      intro _
      rw [bankAfter_set]
      apply (Triple.modify _).post
      rintro _ _ ⟨d', ⟨⟨_, hright⟩, hbank⟩, rfl⟩
      refine ⟨⟨rfl, ?_, hright⟩, hbank⟩
      change (address &&& bankMask).toNat = 0x20 * (Spi.bank d'.chip).toNat
      rw [hbank, bankMask_toNat]
    · rintro _ ⟨s, ⟨hs, rfl⟩, rfl⟩
      exact ⟨⟨rfl, hs.right⟩, rfl⟩
  · intro hsame
    apply Triple.pure_of
    rintro _ ⟨hd, rfl⟩
    have haddr := not_not.mp hsame
    have hcached := hd.cached haddr
    exact ⟨⟨hd.settled, hcached, hd.right⟩, Driver.selects_of_cached hcached haddr⟩

-- ============================================================================
-- Registers
-- ============================================================================

theorem readOp_synced (address : UInt8) :
    Triple (fun d : Driver σ => d.Synced ∧ d.Reaches address)
      (enc28j60ReadOp .readCtrlReg address) (fun _ d => d.Synced) E := by
  rintro d ⟨hd, hreach⟩
  refine ⟨hd.settled, ?_, Driver.right_note hd.right hreach (fun _ => hd.cached)⟩
  change d.enc28j60Bank.toNat = 0x20 * (Spi.bank (Spi.readCtrlReg _ _ d.chip).2).toNat
  rw [LawfulSpi.bank_readCtrlReg]
  exact hd.cached

theorem read_synced (address : UInt8) :
    Triple (Driver.Switchable address) (enc28j60Read address : Drive σ UInt8)
      (fun _ d => d.Synced) E := by
  unfold enc28j60Read
  apply Triple.bind (setBank_synced address)
  intro _
  exact (readOp_synced address).pre (fun d h => ⟨h.1, h.2.reaches⟩)

/-- A plain write selects no other bank than that of its address. -/
def SelectsOwnBank (address data : UInt8) : Prop :=
  address &&& addrMask = econ1 → data &&& (3 : UInt8) = (address &&& bankMask) >>> 5

instance (address data : UInt8) : Decidable (SelectsOwnBank address data) :=
  inferInstanceAs (Decidable (_ → _))

theorem write_synced {address data : UInt8} (hown : SelectsOwnBank address data) :
    Triple (fun d : Driver σ => d.Synced) (enc28j60Write address data)
      (fun _ d => d.Synced ∧ d.Selects address) E := by
  have hbank : bankAfter .writeCtrlReg address data ((address &&& bankMask) >>> 5) =
      (address &&& bankMask) >>> 5 := by
    simp only [bankAfter]
    split
    · exact hown ‹_›
    · rfl
  unfold enc28j60Write
  apply Triple.bind ((setBank_synced address).pre (fun _ h => h.switchable address))
  intro _
  exact (writeOp_synced hbank).pre (fun d h => ⟨⟨h.1, h.2.reaches⟩, h.2⟩)

/-- A polling loop: its first read may be the one that selects the bank. -/
theorem pollUntil_synced (address : UInt8) (ready : UInt8 → Bool) (polls : Nat) :
    Triple (Driver.Switchable address) (pollUntil address ready polls : Drive σ Unit)
      (fun _ d => d.Synced) Driver.Synced := by
  induction polls with
  | zero =>
      unfold pollUntil
      apply Triple.bind (read_synced address)
      intro value
      exact Triple.cond (fun _ => Keeps.pure ()) (fun _ => Keeps.stop ())
  | succ polls ih =>
      unfold pollUntil
      apply Triple.bind (read_synced address)
      intro value
      apply Triple.cond (fun _ => Keeps.pure ())
      intro _
      exact ih.pre (fun _ h => h.switchable address)

-- ============================================================================
-- The functions of the driver keep the invariant
-- ============================================================================

theorem read_keeps (address : UInt8) :
    Keeps Driver.Synced (enc28j60Read address : Drive σ UInt8) :=
  (read_synced address).pre (fun _ h => h.switchable address)

theorem write_keeps {address data : UInt8} (hown : SelectsOwnBank address data) :
    Keeps Driver.Synced (enc28j60Write address data : Drive σ Unit) :=
  (write_synced hown).post (fun _ _ h => h.1)

/-- A write to a register that is not `ECON1`. -/
theorem write_keeps_of_ne {address : UInt8} (h : address &&& addrMask ≠ econ1) (data : UInt8) :
    Keeps Driver.Synced (enc28j60Write address data : Drive σ Unit) :=
  write_keeps fun heq => absurd heq h

theorem setBank_keeps (address : UInt8) :
    Keeps Driver.Synced (enc28j60SetBank address : Drive σ Unit) :=
  (setBank_synced address).conseq (fun _ h => h.switchable address) (fun _ _ h => h.1)

/-- A direct operation on a register visible in every bank. -/
theorem writeOp_keeps {op : WriteCode} {address data : UInt8}
    (hcommon : eie ≤ address &&& addrMask)
    (hbank : ∀ bank ≤ 3, bankAfter op address data bank = bank) :
    Keeps Driver.Synced (enc28j60WriteOp op address data : Drive σ Unit) := by
  apply Triple.of_eq
  intro d hd
  apply (writeOp_synced (hbank _ (LawfulSpi.bank_le d.chip))).conseq _ (fun _ _ h => h.1)
  rintro s rfl
  exact ⟨⟨hd, Driver.reaches_of_common hcommon s⟩, rfl⟩

theorem readBufMem_keeps (address : UInt8) :
    Keeps Driver.Synced (enc28j60ReadOp .readBufMem address : Drive σ UInt8) := by
  intro d hd
  refine ⟨hd.settled, ?_, hd.right⟩
  change d.enc28j60Bank.toNat = 0x20 * (Spi.bank (Spi.readBufMem d.chip).2).toNat
  rw [LawfulSpi.bank_readBufMem]
  exact hd.cached

theorem writeBufMem_keeps (data : UInt8) :
    Keeps Driver.Synced (enc28j60WriteOp .writeBufMem 0 data : Drive σ Unit) := by
  intro d hd
  refine ⟨hd.settled, ?_, hd.right⟩
  change d.enc28j60Bank.toNat = 0x20 * (Spi.bank (Spi.writeBufMem data d.chip)).toNat
  rw [LawfulSpi.bank_writeBufMem]
  exact hd.cached

theorem readBytes_keeps (len : Nat) :
    Keeps Driver.Synced (readBytes len : Drive σ (List UInt8)) := by
  induction len with
  | zero => exact Keeps.pure []
  | succ len ih =>
      exact (readBufMem_keeps 0).bind fun _ => ih.bind fun _ => Keeps.pure _

theorem writeBytes_keeps (len : Nat) (data : Nat → UInt8) :
    Keeps Driver.Synced (writeBytes len data : Drive σ Unit) := by
  induction len generalizing data with
  | zero => exact Keeps.pure ()
  | succ len ih => exact (writeBufMem_keeps (data 0)).bind fun _ => ih _

end Lawful

-- ============================================================================
-- The set-up of the MAC and the PHY
-- ============================================================================

/-- The registers `enc28j60Init` sets up behind the buffers. -/
def setupRegs : List UInt8 :=
  [erxfcon, epmm0, epmm1, epmcsl, epmcsh, macon1, macon2, macon3, maipgl, maipgh, mabbipg, mamxfll,
    mamxflh, maadr5, maadr4, maadr3, maadr2, maadr1, maadr0, miregadr, miwrl, miwrh, eie]

/-- What a property must withstand to hold through the set-up of the MAC and the
    PHY: reads, writes to the registers set up there, and bit-field operations on
    them in the bank that is selected. -/
structure Undisturbed (J : Driver σ → Prop) : Prop where
  read (address : UInt8) : Keeps J (enc28j60Read address)
  setBank (address : UInt8) : Keeps J (enc28j60SetBank address)
  write {address : UInt8} (h : address ∈ setupRegs) (data : UInt8) :
    Triple J (enc28j60Write address data) (fun _ d => J d ∧ d.Selects address) J
  fieldSet {address : UInt8} (h : address ∈ setupRegs) (data : UInt8) :
    Triple (fun d => J d ∧ d.Reaches address) (enc28j60WriteOp .bitFieldSet address data)
      (fun _ => J) J

namespace Undisturbed

variable {J : Driver σ → Prop} {α : Type}

theorem write_then (h : Undisturbed J) {address : UInt8} (hmem : address ∈ setupRegs)
    {data : UInt8} {x : Drive σ α} (hx : Keeps J x) :
    Keeps J (enc28j60Write address data >>= fun _ => x) :=
  Triple.bind (h.write hmem data) fun _ => hx.pre (fun _ hd => hd.1)

theorem write_last (h : Undisturbed J) {address : UInt8} (hmem : address ∈ setupRegs)
    {data : UInt8} : Keeps J (enc28j60Write address data) :=
  (h.write hmem data).post (fun _ _ hd => hd.1)

theorem read_then (h : Undisturbed J) {address : UInt8} {x : UInt8 → Drive σ α}
    (hx : ∀ value, Keeps J (x value)) : Keeps J (enc28j60Read address >>= x) :=
  (h.read address).bind hx

theorem phyWrite (h : Undisturbed J) (polls : Nat) (address : UInt8) (data : UInt32) :
    Keeps J (enc28j60PhyWrite polls address data) := by
  unfold enc28j60PhyWrite
  iterate 3 apply h.write_then (by decide)
  exact pollUntil_of_read (h.read _) _ _

theorem initFilter (h : Undisturbed J) : Keeps J Enc28j60.initFilter := by
  unfold Enc28j60.initFilter
  iterate 4 apply h.write_then (by decide)
  exact h.write_last (by decide)

/-- `MACON3` is set in the bank that the write to `MACON2` has left. -/
theorem initMac (h : Undisturbed J) : Keeps J Enc28j60.initMac := by
  unfold Enc28j60.initMac
  apply h.write_then (by decide)
  apply Triple.bind (h.write (by decide) _)
  intro _
  apply Triple.bind ((h.fieldSet (by decide) _).pre _)
  · intro _
    iterate 4 apply h.write_then (by decide)
    exact h.write_last (by decide)
  · rintro d ⟨hd, hsel⟩
    have hsel3 : d.Selects macon3 := hsel
    exact ⟨hd, hsel3.reaches⟩

theorem printMaadr (h : Undisturbed J) : Keeps J Enc28j60.printMaadr := by
  unfold Enc28j60.printMaadr
  iterate 6 refine h.read_then fun _ => ?_
  exact Keeps.pure ()

theorem initMaadr (h : Undisturbed J) (macaddr : Vector UInt8 6) :
    Keeps J (Enc28j60.initMaadr macaddr) := by
  unfold Enc28j60.initMaadr
  iterate 6 apply h.write_then (by decide)
  exact h.read_then fun _ => Keeps.cond h.printMaadr (Keeps.pure ())

end Undisturbed

-- ============================================================================
-- Sequences of calls
-- ============================================================================

/-- A call of the driver; `polls` bounds the reads of its waiting loops. -/
inductive Call where
  | init (polls : Nat) (macaddr : Vector UInt8 6)
  | read (address : UInt8)
  | write (address data : UInt8)
  | phyWrite (polls : Nat) (address : UInt8) (data : UInt32)
  | packetSend (polls : Nat) (len : UInt32) (packet : Nat → UInt8)
  | packetReceive (maxlen : UInt32)

/-- The program of a call, its result dropped. -/
def Call.drive : Call → Drive σ Unit
  | .init polls macaddr => enc28j60Init polls macaddr
  | .read address => do
      let _ ← enc28j60Read address
      pure ()
  | .write address data => enc28j60Write address data
  | .phyWrite polls address data => enc28j60PhyWrite polls address data
  | .packetSend polls len packet => enc28j60PacketSend polls len packet
  | .packetReceive maxlen => do
      let _ ← enc28j60PacketReceive maxlen
      pure ()

/-- The driver between calls, or in one that is still polling. -/
structure Session (σ : Type) where
  driver : Driver σ
  waiting : Bool

/-- The session a call that ended so leads to. -/
def Session.ofResult : EStateM.Result Unit (Driver σ) Unit → Session σ
  | .ok _ d => ⟨d, false⟩
  | .error _ d => ⟨d, true⟩

/-- One more call.  While a call is still polling there is none. -/
def Session.call (s : Session σ) (c : Call) : Session σ :=
  if s.waiting then s else Session.ofResult (c.drive.run s.driver)

theorem Session.synced_ofResult {r : EStateM.Result Unit (Driver σ) Unit}
    (h : Meets (fun _ d => d.Synced) Driver.Synced r) : (Session.ofResult r).driver.Synced := by
  cases r with
  | ok _ d => exact h
  | error _ d => exact h

/-- A plain write to `ECON1` that selects a bank is the one call that changes the
    bank behind the driver's back. -/
def Call.OwnBank : Call → Prop
  | .write address data => SelectsOwnBank address data
  | _ => True

instance : DecidablePred Call.OwnBank
  | .write address data => inferInstanceAs (Decidable (SelectsOwnBank address data))
  | .init .. | .read .. | .phyWrite .. | .packetSend .. | .packetReceive .. => isTrue trivial

-- ============================================================================
-- The functions of the driver
-- ============================================================================

variable [LawfulSpi σ]

/-- None of the registers set up behind the buffers is `ECON1`. -/
theorem ne_econ1_of_setup {address : UInt8} (h : address ∈ setupRegs) :
    address &&& addrMask ≠ econ1 := by
  revert h
  exact forall_uint8 (P := fun a => a ∈ setupRegs → a &&& addrMask ≠ econ1)
    (by decide +kernel) address

theorem undisturbed_synced : Undisturbed (Driver.Synced (σ := σ)) where
  read := read_keeps
  setBank := setBank_keeps
  write h data := write_synced fun heq => absurd heq (ne_econ1_of_setup h)
  fieldSet h data := by
    apply Triple.of_eq
    rintro d hd
    have hbank : bankAfter .bitFieldSet _ data (Spi.bank d.chip) = Spi.bank d.chip :=
      if_neg (ne_econ1_of_setup h)
    apply (writeOp_synced hbank).conseq _ (fun _ _ h => h.1)
    rintro s rfl
    exact ⟨hd, rfl⟩

theorem initBuffers_keeps : Keeps Driver.Synced (initBuffers : Drive σ Unit) := by
  unfold initBuffers
  refine (nextPacketPtr_keeps _).bind fun _ => ?_
  iterate 9 refine (write_keeps_of_ne (by decide) _).bind fun _ => ?_
  exact write_keeps_of_ne (by decide) _

/-- `ECON1_RXEN` and `ECON1_TXRTS` are no bank bits. -/
theorem econ1_set_keeps {data : UInt8} (h : data &&& 3 = 0) :
    Keeps Driver.Synced (enc28j60WriteOp .bitFieldSet econ1 data : Drive σ Unit) := by
  apply writeOp_keeps (by decide)
  intro bank _
  simp only [bankAfter, h, UInt8.or_zero, ite_self]

theorem initEnable_keeps : Keeps Driver.Synced (initEnable : Drive σ Unit) := by
  unfold initEnable
  refine (setBank_keeps _).bind fun _ => ?_
  refine Keeps.bind (writeOp_keeps (by decide) fun _ _ => rfl) fun _ => ?_
  exact econ1_set_keeps (by decide)

/-- Whatever bank was cached before, the reset and the first read of `ESTAT` leave
    the bank cached that the chip has selected. -/
theorem initReset_synced (polls : Nat) :
    Triple (fun d : Driver σ => d.switching = false ∧ ∀ a ∈ d.accesses, a.Right)
      (initReset polls) (fun _ d => d.Synced) Driver.Synced := by
  unfold initReset
  refine Triple.bind (Triple.modify _) fun _ => ?_
  refine Triple.bind (Q := fun _ d => d.Switchable estat) ?_ fun _ => pollUntil_synced _ _ _
  rintro _ ⟨d, ⟨hsettled, hright⟩, rfl⟩
  refine ⟨hsettled, fun hzero => ?_, hright⟩
  change d.enc28j60Bank.toNat = 0x20 * (Spi.bank (Spi.reset (Spi.reset d.chip))).toNat
  rw [LawfulSpi.bank_reset]
  exact congrArg UInt8.toNat hzero.symm

theorem init_synced (polls : Nat) (macaddr : Vector UInt8 6) :
    Triple (fun d : Driver σ => d.switching = false ∧ ∀ a ∈ d.accesses, a.Right)
      (enc28j60Init polls macaddr) (fun _ d => d.Synced) Driver.Synced := by
  unfold enc28j60Init
  refine Triple.bind (initReset_synced polls) fun _ => ?_
  refine initBuffers_keeps.bind fun _ => ?_
  refine undisturbed_synced.initFilter.bind fun _ => ?_
  refine undisturbed_synced.initMac.bind fun _ => ?_
  refine (undisturbed_synced.initMaadr macaddr).bind fun _ => ?_
  refine (undisturbed_synced.phyWrite polls _ _).bind fun _ => ?_
  refine (undisturbed_synced.phyWrite polls _ _).bind fun _ => ?_
  exact initEnable_keeps

theorem packetSend_keeps (polls : Nat) (len : UInt32) (packet : Nat → UInt8) :
    Keeps Driver.Synced (enc28j60PacketSend polls len packet : Drive σ Unit) := by
  unfold enc28j60PacketSend
  refine (pollUntil_of_read (read_keeps _) _ _).bind fun _ => ?_
  iterate 4 refine (write_keeps_of_ne (by decide) _).bind fun _ => ?_
  refine (writeBufMem_keeps _).bind fun _ => ?_
  refine Keeps.bind (writeBytes_keeps _ _) fun _ => ?_
  refine (econ1_set_keeps (by decide)).bind fun _ => ?_
  refine (read_keeps _).bind fun flags => ?_
  refine Keeps.cond ?_ (Keeps.pure ())
  refine (setBank_keeps _).bind fun _ => ?_
  apply writeOp_keeps (by decide)
  exact forall_uint8 (P := fun bank => bank ≤ 3 →
    bankAfter .bitFieldClr econ1 econ1Txrts bank = bank) (by decide +kernel)

theorem readWord_keeps : Keeps Driver.Synced (readWord : Drive σ UInt32) := by
  unfold readWord
  refine (readBufMem_keeps _).bind fun _ => ?_
  refine (readBufMem_keeps _).bind fun _ => ?_
  exact Keeps.pure _

theorem copyPacket_keeps (count rxstat maxlen : UInt32) :
    Keeps Driver.Synced (copyPacket count rxstat maxlen : Drive σ (UInt32 × List UInt8)) := by
  unfold copyPacket enc28j60ReadBuffer
  refine Keeps.cond (Keeps.pure _) ?_
  exact ((readBytes_keeps _).bind fun _ => Keeps.pure _).bind fun _ => Keeps.pure _

theorem fetchPacket_keeps (maxlen nextPacketPtr : UInt32) :
    Keeps Driver.Synced (fetchPacket maxlen nextPacketPtr : Drive σ (UInt32 × List UInt8)) := by
  unfold fetchPacket
  iterate 2 refine (write_keeps_of_ne (by decide) _).bind fun _ => ?_
  refine readWord_keeps.bind fun next => ?_
  refine (nextPacketPtr_keeps _).bind fun _ => ?_
  refine readWord_keeps.bind fun count => ?_
  refine readWord_keeps.bind fun rxstat => ?_
  refine (copyPacket_keeps _ _ _).bind fun result => ?_
  iterate 2 refine (write_keeps_of_ne (by decide) _).bind fun _ => ?_
  refine Keeps.bind (writeOp_keeps (by decide) fun _ _ => rfl) fun _ => ?_
  exact Keeps.pure _

theorem packetReceive_keeps (maxlen : UInt32) :
    Keeps Driver.Synced (enc28j60PacketReceive maxlen : Drive σ (UInt32 × List UInt8)) := by
  unfold enc28j60PacketReceive
  refine (read_keeps _).bind fun packets => Keeps.cond (Keeps.pure _) ?_
  refine Keeps.bind (Triple.get.post fun _ _ h => h.1) fun d => ?_
  exact fetchPacket_keeps maxlen _

-- ============================================================================
-- The invariant over sequences of calls
-- ============================================================================

theorem Call.drive_keeps {c : Call} (h : c.OwnBank) :
    Keeps Driver.Synced (c.drive : Drive σ Unit) := by
  cases c with
  | init polls macaddr =>
      exact (init_synced polls macaddr).pre (fun _ h => ⟨h.settled, h.right⟩)
  | read address => exact (read_keeps address).bind fun _ => Keeps.pure ()
  | write address data => exact write_keeps h
  | phyWrite polls address data => exact undisturbed_synced.phyWrite polls address data
  | packetSend polls len packet => exact packetSend_keeps polls len packet
  | packetReceive maxlen => exact (packetReceive_keeps maxlen).bind fun _ => Keeps.pure ()

/-- One call keeps the bank cached. -/
theorem Session.call_synced (s : Session σ) (c : Call) (h : s.driver.Synced) (hown : c.OwnBank) :
    (s.call c).driver.Synced := by
  unfold Session.call
  split
  · exact h
  · exact Session.synced_ofResult (Call.drive_keeps hown s.driver h)

/-- **The cached bank is the chip's.**  From any bank cached before and any state
    of the chip: after `enc28j60Init` and every sequence of calls, none of them a
    plain write that selects a bank, `Enc28j60Bank` is the selected bank times
    `0x20`, and so it was at every access made on the way; and every access has
    reached the register its constant names.  The same holds where a call is still
    polling. -/
theorem bank_cached_and_reached (chip : σ) (cache : UInt8) (ptr : UInt32) (polls : Nat)
    (macaddr : Vector UInt8 6) (calls : List Call) (hown : ∀ c ∈ calls, c.OwnBank) :
    (run Session.call ⟨⟨chip, cache, ptr, false, []⟩, false⟩
      (.init polls macaddr :: calls)).driver.Synced := by
  have hinit := init_synced polls macaddr (⟨chip, cache, ptr, false, []⟩ : Driver σ)
    ⟨rfl, fun a ha => absurd ha List.not_mem_nil⟩
  rw [run_cons]
  exact run_inv (C := fun _ (c : Call) => c.OwnBank) Session.call_synced
    (Session.synced_ofResult hinit) (stepsMeet_of_forall (fun c hc _ => hown c hc) _)

theorem bank_cached_after_second_init :
    let calls := [.packetReceive 1500, .phyWrite 0 0x14 0x0476, .write 0x7F 0x03, .read eir,
      .init 0 #v[2, 0, 0, 0, 0, 1], .packetSend 0 60 fun _ => 0]
    let s := run Session.call ⟨⟨Chip.ready, 0x60, 7, false, []⟩, false⟩
      (.init 0 #v[2, 0, 0, 0, 0, 1] :: calls)
    s.driver.Synced ∧ s.waiting = false :=
  ⟨bank_cached_and_reached Chip.ready 0x60 7 0 #v[2, 0, 0, 0, 0, 1] _ (by decide),
    by decide +kernel⟩

/-- Writing bank bits to `ECON1` leaves the driver with a bank the chip does not
    have, and the next access to a register of bank 0 reaches bank 3. -/
theorem econ1_write_unsyncs :
    let s := run Session.call ⟨⟨Chip.ready, 0, 0, false, []⟩, false⟩
      [.init 0 #v[2, 0, 0, 0, 0, 1], .write econ1 0x03, .read erdptl]
    s.driver.enc28j60Bank = 0 ∧ s.driver.chip.selected = 3 ∧
      s.driver.accesses.head? = some ⟨erdptl, 3, 0, false⟩ ∧
      locate 3 (erdptl &&& addrMask) ≠ named erdptl := by
  decide +kernel

end McuFirmware.Enc28j60
