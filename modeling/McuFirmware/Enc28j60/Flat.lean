/-
  McuFirmware.Enc28j60.Flat

  The registers without banks.  Once the cached bank is right, the driver reads
  and writes the registers its constants name; what is left of the chip when the
  bank bits and the clock are dropped (`Chip.flat`) changes as if there were no
  banks.

  `Driver.Shows c n` is the state of the driver in these terms.  There is one
  triple for each operation, and the functions of the driver are followed with
  them.
-/

import McuFirmware.Enc28j60.Bank
import McuFirmware.Lib.Ring

namespace McuFirmware.Enc28j60

open McuFirmware.Lib

/-- The chip but for its bank bits and its clock. -/
def Chip.flat (c : Chip) : Chip :=
  { c with econ1 := c.econ1 &&& ~~~(3 : UInt8), clock := 0 }

namespace Chip

@[simp] theorem flat_regs (c : Chip) : c.flat.regs = c.regs := rfl

/-- A register other than `ECON1` is stored alike. -/
theorem flat_store (c : Chip) {loc : UInt8} (h : loc ≠ Enc28j60.econ1) (data : UInt8) :
    (c.store loc data).flat = c.flat.store loc data := by
  unfold store
  rw [if_neg h, if_neg h]
  simp only [flat_regs]
  split
  · rfl
  · rfl

theorem flat_store_econ1 (c : Chip) {data : UInt8}
    (h : data &&& ~~~(3 : UInt8) = c.econ1 &&& ~~~(3 : UInt8)) :
    (c.store Enc28j60.econ1 data).flat = c.flat := by
  unfold store flat
  rw [if_pos rfl]
  simp only [h]

end Chip

variable {E : Driver Chip → Prop} {c : Chip} {n : UInt32}

/-- The part of the state that switching banks does not touch. -/
def Driver.Has (c : Chip) (n : UInt32) (d : Driver Chip) : Prop :=
  d.chip.flat = c ∧ d.nextPacketPtr = n

/-- The bank is right, and the rest of the state is this. -/
def Driver.Shows (c : Chip) (n : UInt32) (d : Driver Chip) : Prop :=
  d.Synced ∧ d.Has c n

-- ============================================================================
-- Banks are out of sight
-- ============================================================================

/-- An operation on the bank bits of `ECON1`. -/
theorem econ1_clr_has {data : UInt8} (h : ~~~data &&& ~~~(3 : UInt8) = ~~~(3 : UInt8)) :
    Keeps (Driver.Has c n) (enc28j60WriteOp .bitFieldClr econ1 data) := by
  rintro d ⟨hchip, hptr⟩
  refine ⟨?_, hptr⟩
  change (d.chip.store econ1 (d.chip.econ1 &&& ~~~data)).flat = c
  rw [Chip.flat_store_econ1, hchip]
  rw [UInt8.and_assoc, h]

theorem econ1_set_has {data : UInt8} (h : data &&& ~~~(3 : UInt8) = 0) :
    Keeps (Driver.Has c n) (enc28j60WriteOp .bitFieldSet econ1 data) := by
  rintro d ⟨hchip, hptr⟩
  refine ⟨?_, hptr⟩
  change (d.chip.store econ1 (d.chip.econ1 ||| data)).flat = c
  rw [Chip.flat_store_econ1, hchip]
  rw [uint8_or_and, h, UInt8.or_zero]

theorem setBank_has (address : UInt8) : Keeps (Driver.Has c n) (enc28j60SetBank address) := by
  have hbits : (address &&& bankMask) >>> 5 &&& ~~~(3 : UInt8) = 0 :=
    forall_uint8 (P := fun a => (a &&& bankMask) >>> 5 &&& ~~~(3 : UInt8) = 0)
      (by decide +kernel) address
  unfold enc28j60SetBank
  refine Keeps.bind (Triple.get.post fun _ _ h => h.1) fun d => ?_
  refine Keeps.cond ?_ (Keeps.pure ())
  refine Keeps.bind (fun d h => h) fun _ => ?_
  refine (econ1_clr_has (by decide)).bind fun _ => ?_
  refine (econ1_set_has hbits).bind fun _ => ?_
  exact fun d h => h

theorem read_has (address : UInt8) : Keeps (Driver.Has c n) (enc28j60Read address) :=
  (setBank_has address).bind fun _ _ h => h

theorem pollUntil_has (address : UInt8) (ready : UInt8 → Bool) (polls : Nat) :
    Keeps (Driver.Has c n) (pollUntil address ready polls) :=
  pollUntil_of_read (read_has address) ready polls

theorem setBank_shows (address : UInt8) :
    Triple (Driver.Shows c n) (enc28j60SetBank address)
      (fun _ d => (d.Synced ∧ d.Selects address) ∧ d.Has c n) E := by
  have hhas : Keeps (Driver.Has c n) (enc28j60SetBank address) := setBank_has address
  exact ((setBank_synced address).and hhas).pre fun d h => ⟨h.1.switchable address, h.2⟩

-- ============================================================================
-- Operations on the registers
-- ============================================================================

/-- A register whose value is what was stored: neither `ECON1` nor a status
    register, and read with a dummy byte if the chip sends one. -/
structure Plain (address : UInt8) : Prop where
  not_econ1 : named address ≠ econ1
  not_status : named address ∉ Chip.statusLocs
  dummy : Chip.answersLate (named address) = (address &&& 0x80 != 0)

theorem named_ne_econ1 {address : UInt8} (h : address &&& addrMask ≠ econ1) :
    named address ≠ econ1 :=
  fun heq => h ((locate_eq_econ1 _ _).mp heq)

theorem Chip.value_of_plain {address : UInt8} (h : Plain address) (chip : Chip) :
    chip.value (named address) = chip.regs (named address) := by
  unfold Chip.value
  rw [if_neg h.not_econ1, if_neg h.not_status]

theorem readOp_has {address : UInt8} (hplain : Plain address) :
    Triple (fun d => d.Has c n ∧ d.Reaches address) (enc28j60ReadOp .readCtrlReg address)
      (fun value d => d.Has c n ∧ value = c.regs (named address)) E := by
  rintro d ⟨hhas, hreach⟩
  have hloc : locate d.chip.selected (address &&& addrMask) = named address := hreach
  refine ⟨hhas, ?_⟩
  change (if Chip.answersLate (locate d.chip.selected (address &&& addrMask)) =
    (address &&& 0x80 != 0) then d.chip.value (locate d.chip.selected (address &&& addrMask))
    else 0) = c.regs (named address)
  rw [hloc, if_pos hplain.dummy, Chip.value_of_plain hplain, ← hhas.1]
  rfl

theorem writeCtrlReg_has {address : UInt8} (haddr : address &&& addrMask ≠ econ1) (data : UInt8) :
    Triple (fun d => d.Has c n ∧ d.Reaches address) (enc28j60WriteOp .writeCtrlReg address data)
      (fun _ d => d.Has (c.store (named address) data) n) E := by
  rintro d ⟨⟨hchip, hptr⟩, hreach⟩
  have hloc : locate d.chip.selected (address &&& addrMask) = named address := hreach
  refine ⟨?_, hptr⟩
  change (d.chip.store (locate d.chip.selected (address &&& addrMask)) data).flat = _
  rw [hloc, Chip.flat_store _ (named_ne_econ1 haddr), hchip]

theorem bitFieldSet_has {address : UInt8} (hplain : Plain address) (data : UInt8) :
    Triple (fun d => d.Has c n ∧ d.Reaches address) (enc28j60WriteOp .bitFieldSet address data)
      (fun _ d => d.Has (c.store (named address) (c.regs (named address) ||| data)) n) E := by
  rintro d ⟨⟨hchip, hptr⟩, hreach⟩
  have hloc : locate d.chip.selected (address &&& addrMask) = named address := hreach
  refine ⟨?_, hptr⟩
  change (d.chip.store (locate d.chip.selected (address &&& addrMask))
    (d.chip.value (locate d.chip.selected (address &&& addrMask)) ||| data)).flat = _
  rw [hloc, Chip.flat_store _ hplain.not_econ1, Chip.value_of_plain hplain, ← hchip]
  rfl

theorem read_shows {address : UInt8} (hplain : Plain address) :
    Triple (Driver.Shows c n) (enc28j60Read address)
      (fun value d => d.Shows c n ∧ value = c.regs (named address)) E := by
  unfold enc28j60Read
  apply Triple.bind (setBank_shows address)
  intro _
  have hhas := readOp_has (E := E) (c := c) (n := n) hplain
  exact ((readOp_synced address).and hhas).conseq
    (fun d h => ⟨⟨h.1.1, h.1.2.reaches⟩, h.2, h.1.2.reaches⟩)
    (fun _ d h => ⟨⟨h.1, h.2.1⟩, h.2.2⟩)

/-- A write to a register other than `ECON1`. -/
theorem write_shows {address : UInt8} (haddr : address &&& addrMask ≠ econ1) (data : UInt8) :
    Triple (Driver.Shows c n) (enc28j60Write address data)
      (fun _ d => d.Shows (c.store (named address) data) n ∧ d.Selects address) E := by
  have hbank : bankAfter .writeCtrlReg address data ((address &&& bankMask) >>> 5) =
      (address &&& bankMask) >>> 5 := if_neg haddr
  unfold enc28j60Write
  apply Triple.bind (setBank_shows address)
  intro _
  have hhas := writeCtrlReg_has (E := E) (c := c) (n := n) haddr data
  exact ((writeOp_synced hbank).and hhas).conseq
    (fun d h => ⟨⟨⟨h.1.1, h.1.2.reaches⟩, h.1.2⟩, h.2, h.1.2.reaches⟩)
    (fun _ d h => ⟨⟨h.1.1, h.2⟩, h.1.2⟩)

/-- A program behind such a write starts from the register as written. -/
theorem write_then_shows {address data : UInt8} (haddr : address &&& addrMask ≠ econ1)
    {α : Type} {x : Drive Chip α} {R : α → Driver Chip → Prop}
    (hx : Triple (Driver.Shows (c.store (named address) data) n) x R E) :
    Triple (Driver.Shows c n) (enc28j60Write address data >>= fun _ => x) R E :=
  Triple.bind (write_shows haddr data) fun _ => hx.pre fun _ h => h.1

/-- A bit-field operation on a register that the selected bank reaches. -/
theorem bitFieldSet_shows {address : UInt8} (haddr : address &&& addrMask ≠ econ1)
    (hplain : Plain address) (data : UInt8) :
    Triple (fun d => d.Shows c n ∧ d.Reaches address) (enc28j60WriteOp .bitFieldSet address data)
      (fun _ d => d.Shows (c.store (named address) (c.regs (named address) ||| data)) n) E := by
  apply Triple.of_eq
  rintro d ⟨⟨hd, hhas⟩, hreach⟩
  have hbank : bankAfter .bitFieldSet address data (Spi.bank d.chip) = Spi.bank d.chip :=
    if_neg haddr
  have hset := bitFieldSet_has (E := E) (c := c) (n := n) hplain data
  apply ((writeOp_synced hbank).and hset).conseq
  · rintro s rfl
    exact ⟨⟨⟨hd, hreach⟩, rfl⟩, hhas, hreach⟩
  · intro _ s h
    exact ⟨h.1.1, h.2⟩

-- ============================================================================
-- The read pointer
-- ============================================================================

namespace Chip

theorem pair_lt (regs : UInt8 → UInt8) (low high : UInt8) : pair regs low high < 65536 := by
  have hlow := (regs low).toNat_lt
  have hhigh := (regs high).toNat_lt
  unfold pair
  omega

theorem pair_setPair (regs : UInt8 → UInt8) {low high : UInt8} (hne : low ≠ high) {p : Nat}
    (hp : p < 65536) : pair (setPair regs low high p) low high = p := by
  unfold pair setPair
  rw [Function.update_self, Function.update_of_ne hne, Function.update_self, UInt8.toNat_ofNat',
    UInt8.toNat_ofNat']
  omega

/-- A pair keeps its value when other registers are set. -/
theorem pair_setPair_of_ne (regs : UInt8 → UInt8) {low high low' high' : UInt8} (p : Nat)
    (h : low ∉ [low', high'] ∧ high ∉ [low', high']) :
    pair (setPair regs low' high' p) low high = pair regs low high := by
  simp only [List.mem_cons, List.not_mem_nil, or_false, not_or] at h
  obtain ⟨⟨hll, hlh⟩, hhl, hhh⟩ := h
  unfold pair setPair
  rw [Function.update_of_ne hlh, Function.update_of_ne hll, Function.update_of_ne hhh,
    Function.update_of_ne hhl]

theorem setPair_setPair (regs : UInt8 → UInt8) (low high : UInt8) (p q : Nat) :
    setPair (setPair regs low high p) low high q = setPair regs low high q := by
  funext loc
  unfold setPair
  by_cases hhigh : loc = high
  · subst hhigh
    rw [Function.update_self, Function.update_self]
  · rw [Function.update_of_ne hhigh, Function.update_of_ne hhigh]
    by_cases hlow : loc = low
    · subst hlow
      rw [Function.update_self, Function.update_self]
    · rw [Function.update_of_ne hlow, Function.update_of_ne hlow, Function.update_of_ne hhigh,
        Function.update_of_ne hlow]

/-- The chip with its buffer read pointer at `p`. -/
def readAt (c : Chip) (p : Nat) : Chip :=
  { c with regs := setPair c.regs erdptl erdpth p }

theorem afterRead_lt (regs : UInt8 → UInt8) (p : Nat) : afterRead regs p < 65536 := by
  unfold afterRead
  split
  · exact pair_lt _ _ _
  · omega

/-- The read pointer plays no part in where reads go on. -/
theorem afterRead_readAt (c : Chip) (p : Nat) : afterRead (c.readAt p).regs = afterRead c.regs := by
  funext q
  unfold afterRead readAt
  rw [pair_setPair_of_ne _ _ (by decide), pair_setPair_of_ne _ _ (by decide)]

/-- A buffer read delivers the byte at the read pointer and moves it on. -/
theorem readBufMem_readAt (c : Chip) {p : Nat} (hp : p < 65536) :
    (c.readAt p).readBufMem = (c.mem p, c.readAt (afterRead c.regs p)) := by
  have hptr : pair (c.readAt p).regs erdptl erdpth = p := pair_setPair c.regs (by decide) hp
  unfold readBufMem
  simp only [hptr, afterRead_readAt]
  simp only [readAt, setPair_setPair]

end Chip

theorem readBufMem_shows (address : UInt8) {p : Nat} (hp : p < 65536) :
    Triple (Driver.Shows (c.readAt p) n) (enc28j60ReadOp .readBufMem address)
      (fun value d => d.Shows (c.readAt (Chip.afterRead c.regs p)) n ∧ value = c.mem p) E := by
  rintro d ⟨hd, hchip, hptr⟩
  have hread : d.chip.flat.readBufMem = (c.mem p, c.readAt (Chip.afterRead c.regs p)) := by
    rw [hchip, Chip.readBufMem_readAt c hp]
  refine ⟨⟨readBufMem_keeps address d hd, ?_, hptr⟩, ?_⟩
  · exact congrArg Prod.snd hread
  · exact congrArg Prod.fst hread

/-- The loop of `enc28j60ReadBuffer` walks the cells from the read pointer on. -/
theorem readBytes_shows (len : Nat) {p : Nat} (hp : p < 65536) :
    Triple (Driver.Shows (c.readAt p) n) (readBytes len)
      (fun bytes d => d.Shows (c.readAt ((Chip.afterRead c.regs)^[len] p)) n ∧
        bytes = readFrom (Chip.afterRead c.regs) c.mem p len) E := by
  induction len generalizing p with
  | zero =>
      exact Triple.pure_of (fun d h => ⟨h, rfl⟩)
  | succ len ih =>
      unfold readBytes
      apply Triple.bind_value (readBufMem_shows 0 hp)
      apply Triple.bind_value (ih (Chip.afterRead_lt c.regs p))
      exact Triple.pure_of (fun d h => ⟨h, rfl⟩)

/-- The 16-bit number at `p`. -/
def wordAt (next : Nat → Nat) (mem : Nat → UInt8) (p : Nat) : UInt32 :=
  leWord (mem p) (mem (next p))

theorem readWord_shows {p : Nat} (hp : p < 65536) :
    Triple (Driver.Shows (c.readAt p) n) readWord
      (fun word d => d.Shows (c.readAt ((Chip.afterRead c.regs)^[2] p)) n ∧
        word = wordAt (Chip.afterRead c.regs) c.mem p) E := by
  unfold readWord
  apply Triple.bind_value (readBufMem_shows 0 hp)
  apply Triple.bind_value (readBufMem_shows 0 (Chip.afterRead_lt c.regs p))
  exact Triple.pure_of (fun d h => ⟨h, rfl⟩)

end McuFirmware.Enc28j60
