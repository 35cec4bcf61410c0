/-
  McuFirmware.Enc28j60.Receive

  `enc28j60PacketReceive` on the registers and the buffer memory: what it returns
  and stores for any header the memory holds, and what it changes in the chip.
-/

import McuFirmware.Enc28j60.Flat

namespace McuFirmware.Enc28j60

open McuFirmware.Lib

variable {E : Driver Chip → Prop} {c : Chip} {n : UInt32}

-- ============================================================================
-- Words and lengths
-- ============================================================================

theorem toNat_leWord (low high : UInt8) :
    (leWord low high).toNat = low.toNat + 256 * high.toNat := by
  have hlow := low.toNat_lt
  have hhigh := high.toNat_lt
  unfold leWord
  rw [UInt32.toNat_or, UInt32.toNat_shiftLeft, UInt8.toNat_toUInt32, UInt8.toNat_toUInt32]
  change low.toNat ||| high.toNat <<< 8 % 2 ^ 32 = _
  have hfits : high.toNat <<< 8 < 2 ^ 32 := by
    rw [Nat.shiftLeft_eq]
    omega
  rw [Nat.mod_eq_of_lt hfits, Nat.or_comm, ← Nat.shiftLeft_add_eq_or_of_lt hlow, Nat.shiftLeft_eq]
  omega

/-- The copied bytes leave room for the closing zero, whatever the byte count is. -/
theorem copyLen_lt (count : UInt32) {maxlen : UInt32} (hmax : 1 ≤ maxlen) :
    (copyLen count maxlen).toNat < maxlen.toNat := by
  have hpos : 1 ≤ maxlen.toNat := hmax
  have hsub : (maxlen - 1).toNat = maxlen.toNat - 1 := UInt32.toNat_sub_of_le maxlen 1 hmax
  unfold copyLen
  simp only []
  split
  · omega
  · rename_i h
    have hle : (count - 4).toNat ≤ (maxlen - 1).toNat := Nat.le_of_not_lt h
    omega

/-- For a count that includes the CRC, no subtraction wraps. -/
theorem toNat_copyLen {count maxlen : UInt32} (hcount : 4 ≤ count) (hmax : 1 ≤ maxlen) :
    (copyLen count maxlen).toNat = min (count.toNat - 4) (maxlen.toNat - 1) := by
  have hlen : (count - 4).toNat = count.toNat - 4 := UInt32.toNat_sub_of_le count 4 hcount
  have hsub : (maxlen - 1).toNat = maxlen.toNat - 1 := UInt32.toNat_sub_of_le maxlen 1 hmax
  unfold copyLen
  simp only []
  split
  · rename_i h
    have hlt : (maxlen - 1).toNat < (count - 4).toNat := h
    omega
  · rename_i h
    have hle : (count - 4).toNat ≤ (maxlen - 1).toNat := Nat.le_of_not_lt h
    omega

-- ============================================================================
-- The cells stored, for any chip
-- ============================================================================

section Stored

variable {σ : Type} [Spi σ]

variable {E : Driver σ → Prop}

/-- Operations that poll nothing return. -/
theorem readOp_returns (op : ReadCode) (address : UInt8) :
    Triple (fun _ => True) (enc28j60ReadOp op address : Drive σ UInt8) (fun _ _ => True) E := by
  intro d _
  cases op <;> trivial

theorem writeOp_returns (op : WriteCode) (address data : UInt8) :
    Triple (fun _ => True) (enc28j60WriteOp op address data : Drive σ Unit)
      (fun _ _ => True) E := by
  intro d _
  cases op <;> trivial

theorem setBank_returns (address : UInt8) :
    Triple (fun _ => True) (enc28j60SetBank address : Drive σ Unit) (fun _ _ => True) E := by
  unfold enc28j60SetBank
  refine Triple.bind (Q := fun _ _ => True) (fun _ _ => trivial) fun d => ?_
  refine Triple.cond (fun _ => ?_) fun _ => Triple.pure (Q := fun _ _ => True) ()
  refine Triple.bind (Q := fun _ _ => True) (fun _ _ => trivial) fun _ => ?_
  refine Triple.bind (writeOp_returns _ _ _) fun _ => ?_
  refine Triple.bind (writeOp_returns _ _ _) fun _ => ?_
  exact fun _ _ => trivial

theorem read_returns (address : UInt8) :
    Triple (fun _ => True) (enc28j60Read address : Drive σ UInt8) (fun _ _ => True) E :=
  Triple.bind (setBank_returns address) fun _ => readOp_returns _ _

theorem write_returns (address data : UInt8) :
    Triple (fun _ => True) (enc28j60Write address data : Drive σ Unit) (fun _ _ => True) E :=
  Triple.bind (setBank_returns address) fun _ => writeOp_returns _ _ _

theorem readWord_returns :
    Triple (fun _ => True) (readWord : Drive σ UInt32) (fun _ _ => True) E := by
  unfold readWord
  refine Triple.bind (readOp_returns _ _) fun _ => ?_
  refine Triple.bind (readOp_returns _ _) fun _ => ?_
  exact Triple.pure (Q := fun _ _ => True) _

theorem readBytes_length (len : Nat) :
    Triple (fun _ => True) (readBytes len : Drive σ (List UInt8))
      (fun bytes _ => bytes.length = len) E := by
  induction len with
  | zero => exact fun _ _ => rfl
  | succ len ih =>
      unfold readBytes
      refine Triple.bind (readOp_returns _ _) fun byte => Triple.bind ih fun rest => ?_
      apply Triple.pure_of
      intro _ h
      rw [List.length_cons, h]

theorem readBuffer_length (len : UInt32) :
    Triple (fun _ => True) (enc28j60ReadBuffer len : Drive σ (List UInt8))
      (fun stored _ => stored.length = len.toNat + 1) E := by
  unfold enc28j60ReadBuffer
  refine Triple.bind (readBytes_length _) fun bytes => ?_
  apply Triple.pure_of
  intro _ h
  rw [List.length_append, h]
  rfl

theorem copyPacket_length (count rxstat : UInt32) {maxlen : UInt32} (hmax : 1 ≤ maxlen) :
    Triple (fun _ => True) (copyPacket count rxstat maxlen : Drive σ (UInt32 × List UInt8))
      (fun result _ => result.2.length ≤ maxlen.toNat) E := by
  unfold copyPacket
  apply Triple.cond
  · intro _
    exact Triple.pure_of (fun _ _ => Nat.zero_le _)
  · intro _
    refine Triple.bind (readBuffer_length _) fun stored => ?_
    apply Triple.pure_of
    intro _ h
    rw [h]
    exact copyLen_lt count hmax

theorem fetchPacket_length {maxlen : UInt32} (hmax : 1 ≤ maxlen) (nextPacketPtr : UInt32) :
    Triple (fun _ => True) (fetchPacket maxlen nextPacketPtr : Drive σ (UInt32 × List UInt8))
      (fun result _ => result.2.length ≤ maxlen.toNat) E := by
  unfold fetchPacket
  iterate 2 refine Triple.bind (write_returns _ _) fun _ => ?_
  refine Triple.bind readWord_returns fun next => ?_
  refine Triple.bind (Q := fun _ _ => True) (fun _ _ => trivial) fun _ => ?_
  iterate 2 refine Triple.bind readWord_returns fun _ => ?_
  refine Triple.bind (copyPacket_length _ _ hmax) fun result => Triple.choose ?_
  intro _ hlen
  refine ⟨fun _ => True, trivial, ?_⟩
  iterate 2 refine Triple.bind (write_returns _ _) fun _ => ?_
  refine Triple.bind (writeOp_returns _ _ _) fun _ => ?_
  exact Triple.pure_of (fun _ _ => hlen)

/-- A call returns, and stores no cell behind the first `maxlen`, whatever the
    memory holds. -/
theorem packetReceive_length {maxlen : UInt32} (hmax : 1 ≤ maxlen) :
    Triple (fun _ => True) (enc28j60PacketReceive maxlen : Drive σ (UInt32 × List UInt8))
      (fun result _ => result.2.length ≤ maxlen.toNat) E := by
  unfold enc28j60PacketReceive
  refine Triple.bind (read_returns _) fun packets => Triple.cond ?_ ?_
  · intro _
    exact Triple.pure_of (fun _ _ => Nat.zero_le _)
  · intro _
    exact Triple.bind (Q := fun _ _ => True) (fun _ _ => trivial) fun d =>
      fetchPacket_length hmax d.nextPacketPtr

end Stored

-- ============================================================================
-- What is read and what is changed
-- ============================================================================

theorem read_epktcnt_shows :
    Triple (Driver.Shows c n) (enc28j60Read epktcnt)
      (fun packets d => d.Shows c n ∧ packets = c.regs epktcnt) E :=
  read_shows ⟨by decide, by decide, by decide⟩

/-- The result of copying a packet whose data lie at `p`. -/
def copied (c : Chip) (p : Nat) (count rxstat maxlen : UInt32) : UInt32 × List UInt8 :=
  if rxstat &&& 0x80 = 0 then (0, [])
  else
    (copyLen count maxlen,
      readFrom (Chip.afterRead c.regs) c.mem p (copyLen count maxlen).toNat ++ [0])

theorem copyPacket_shows (count rxstat maxlen : UInt32) {p : Nat} (hp : p < 65536) :
    Triple (Driver.Shows (c.readAt p) n) (copyPacket count rxstat maxlen)
      (fun result d => (∃ q, d.Shows (c.readAt q) n) ∧
        result = copied c p count rxstat maxlen) E := by
  unfold copyPacket copied
  by_cases hok : rxstat &&& 0x80 = 0
  · rw [if_pos hok, if_pos hok]
    exact Triple.pure_of (fun _ h => ⟨⟨p, h⟩, rfl⟩)
  · rw [if_neg hok, if_neg hok]
    unfold enc28j60ReadBuffer
    rw [bind_assoc]
    apply Triple.bind_value (readBytes_shows _ hp)
    rw [pure_bind]
    exact Triple.pure_of (fun _ h => ⟨⟨_, h⟩, rfl⟩)

/-- The chip after the frame in front of `ptr` is released. -/
def Chip.release (c : Chip) (ptr : UInt32) : Chip :=
  ((c.store erxrdptl ptr.toUInt8).store erxrdpth (ptr >>> 8).toUInt8).store econ2
    (((c.store erxrdptl ptr.toUInt8).store erxrdpth (ptr >>> 8).toUInt8).regs econ2 |||
      econ2Pktdec)

theorem toUInt8_eq_ofNat (ptr : UInt32) : ptr.toUInt8 = UInt8.ofNat ptr.toNat := rfl

theorem high_toUInt8_eq_ofNat (ptr : UInt32) :
    (ptr >>> 8).toUInt8 = UInt8.ofNat (ptr.toNat / 256) := by
  rw [← UInt8.toNat_inj]
  simp [UInt32.toNat_shiftRight, Nat.shiftRight_eq_div_pow]

/-- `ECON2_PKTDEC` counts down the packets. -/
theorem Chip.store_pktdec (c : Chip) (b : UInt8) :
    c.store econ2 (b ||| econ2Pktdec) =
      { c with
        regs := Function.update (Function.update c.regs econ2
          ((b ||| econ2Pktdec) &&& ~~~econ2Pktdec)) epktcnt (c.regs epktcnt - 1) } := by
  have hbit : (b ||| econ2Pktdec) &&& econ2Pktdec ≠ 0 :=
    forall_uint8 (P := fun b => (b ||| econ2Pktdec) &&& econ2Pktdec ≠ 0) (by decide +kernel) b
  unfold Chip.store Chip.storeRegs
  rw [if_neg (by decide), if_neg (by decide), if_pos ⟨rfl, hbit⟩]

/-- Releasing a frame moves `ERXRDPT`, counts down `EPKTCNT` and writes `ECON2`. -/
theorem Chip.release_eq (c : Chip) (ptr : UInt32) :
    ∃ x, c.release ptr =
      { c with
        regs := Function.update (Function.update
          (Chip.setPair c.regs erxrdptl erxrdpth ptr.toNat) econ2 x)
          epktcnt (c.regs epktcnt - 1) } := by
  have hset : (c.store erxrdptl ptr.toUInt8).store erxrdpth (ptr >>> 8).toUInt8 =
      { c with regs := Chip.setPair c.regs erxrdptl erxrdpth ptr.toNat } := by
    rw [toUInt8_eq_ofNat, high_toUInt8_eq_ofNat]
    rfl
  unfold Chip.release
  rw [hset]
  exact ⟨_, Chip.store_pktdec _ _⟩

/-- Writing the two halves of `ERDPT` sets the read pointer. -/
theorem Chip.store_erdpt (c : Chip) (ptr : UInt32) :
    (c.store erdptl ptr.toUInt8).store erdpth (ptr >>> 8).toUInt8 = c.readAt ptr.toNat := by
  rw [toUInt8_eq_ofNat, high_toUInt8_eq_ofNat]
  rfl

theorem nextPacketPtr_shows (ptr : UInt32) :
    Triple (Driver.Shows c n)
      (modify fun d => { d with nextPacketPtr := ptr } : Drive Chip PUnit)
      (fun _ => Driver.Shows c ptr) E := by
  rintro d ⟨hd, hchip, _⟩
  exact ⟨nextPacketPtr_keeps ptr d hd, hchip, rfl⟩

/-- The end of `enc28j60PacketReceive`: `ERXRDPT` is moved and the packet counted
    down. -/
theorem release_shows (ptr : UInt32) {α : Type} (result : α) :
    Triple (Driver.Shows c n)
      (do
        enc28j60Write erxrdptl ptr.toUInt8
        enc28j60Write erxrdpth (ptr >>> 8).toUInt8
        enc28j60WriteOp .bitFieldSet econ2 econ2Pktdec
        pure result)
      (fun r d => d.Shows (c.release ptr) n ∧ r = result) E := by
  have hplain : Plain econ2 := ⟨by decide, by decide, by decide⟩
  iterate 2 apply write_then_shows (by decide)
  refine Triple.bind ((bitFieldSet_shows (by decide) hplain _).pre
    fun d h => ⟨h, Driver.reaches_of_common (by decide) d⟩) fun _ => ?_
  exact Triple.pure_of (fun _ h => ⟨h, rfl⟩)

/-- The header is read at `NextPacketPtr = n`, which becomes the pointer it holds;
    the frame is copied and released.  Nothing is said of where the read pointer
    is left. -/
structure Fetched (c : Chip) (n maxlen : UInt32) (result : UInt32 × List UInt8)
    (d : Driver Chip) : Prop where
  released : ∃ q, d.Shows
    ((c.readAt q).release (wordAt (Chip.afterRead c.regs) c.mem n.toNat))
    (wordAt (Chip.afterRead c.regs) c.mem n.toNat)
  result : result = copied c ((Chip.afterRead c.regs)^[6] n.toNat)
    (wordAt (Chip.afterRead c.regs) c.mem ((Chip.afterRead c.regs)^[2] n.toNat))
    (wordAt (Chip.afterRead c.regs) c.mem ((Chip.afterRead c.regs)^[4] n.toNat)) maxlen

theorem fetchPacket_shows (maxlen : UInt32) (hn : n.toNat < 65536) :
    Triple (Driver.Shows c n) (fetchPacket maxlen n) (Fetched c n maxlen) E := by
  have hlt (i : Nat) : (Chip.afterRead c.regs)^[i + 1] n.toNat < 65536 := by
    rw [Function.iterate_succ_apply']
    exact Chip.afterRead_lt _ _
  unfold fetchPacket
  iterate 2 apply write_then_shows (by decide)
  have hat : (c.store (named erdptl) n.toUInt8).store (named erdpth) (n >>> 8).toUInt8 =
    c.readAt n.toNat := Chip.store_erdpt c n
  rw [hat]
  apply Triple.bind_value (readWord_shows hn)
  refine Triple.bind (nextPacketPtr_shows _) fun _ => ?_
  apply Triple.bind_value (readWord_shows (hlt 1))
  apply Triple.bind_value (readWord_shows (hlt 3))
  apply Triple.bind_value (copyPacket_shows _ _ _ (hlt 5))
  apply Triple.of_eq
  rintro s ⟨q, hs⟩
  apply (release_shows _ _).conseq
  · rintro t rfl
    exact hs
  · rintro _ d ⟨hd, rfl⟩
    exact ⟨⟨q, hd⟩, rfl⟩

theorem packetReceive_shows (maxlen : UInt32) (hpending : c.regs epktcnt ≠ 0)
    (hn : n.toNat < 65536) :
    Triple (Driver.Shows c n) (enc28j60PacketReceive maxlen) (Fetched c n maxlen) E := by
  unfold enc28j60PacketReceive
  apply Triple.bind_value read_epktcnt_shows
  rw [if_neg hpending]
  apply Triple.bind Triple.get
  rintro d s ⟨hs, rfl⟩
  rw [hs.2.2]
  exact fetchPacket_shows maxlen hn d hs

/-- Without a packet nothing is touched. -/
theorem packetReceive_shows_none (maxlen : UInt32) (hnone : c.regs epktcnt = 0) :
    Triple (Driver.Shows c n) (enc28j60PacketReceive maxlen)
      (fun result d => d.Shows c n ∧ result = (0, [])) E := by
  unfold enc28j60PacketReceive
  apply Triple.bind_value read_epktcnt_shows
  rw [if_pos hnone]
  exact Triple.pure_of (fun _ h => ⟨h, rfl⟩)

end McuFirmware.Enc28j60
