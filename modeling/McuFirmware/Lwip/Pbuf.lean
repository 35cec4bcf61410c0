/-
  McuFirmware.Lwip.Pbuf

  What the application reads of lwIP's packet buffers (`core/pbuf.c`): the
  bounded copy and the byte search over a chain, and the byte order macros of
  `lwip/def.h` on the little-endian target.

  A received datagram is a chain of pbufs: one as long as the frame it came in
  (`ENC28J60_PacketReceive` allocates `PBUF_RAM`), several after reassembly.  The
  copies and searches of `pbuf.c` walk the chain, but `p->payload` reaches the
  first pbuf only.  Behind its `p->len` bytes stands whatever the heap happens to
  hold: reading past them yields a value, as it does on the device, and whether a
  handler does so is a question about its accesses (`Pbuf.Inside`), not about the
  value.
-/

import Mathlib.Data.List.Basic
import Mathlib.Data.List.GetD
import Mathlib.Tactic.IntervalCases

namespace McuFirmware.Lwip

-- ============================================================================
-- Byte order
-- ============================================================================

/-- `PP_HTONS` on a little-endian target. -/
def ppHtons (x : UInt16) : UInt16 :=
  ((x &&& 0x00ff) <<< 8) ||| ((x &&& 0xff00) >>> 8)

/-- `PP_NTOHS` is the same macro. -/
def ppNtohs (x : UInt16) : UInt16 := ppHtons x

/-- A `u16_t` load from two consecutive bytes. -/
def loadU16 (b0 b1 : UInt8) : UInt16 :=
  b0.toUInt16 ||| (b1.toUInt16 <<< 8)

/-- A `u16_t` store into two consecutive bytes. -/
def storeU16 (x : UInt16) : List UInt8 :=
  [x.toUInt8, (x >>> 8).toUInt8]

@[simp] theorem length_storeU16 (x : UInt16) : (storeU16 x).length = 2 := rfl

theorem ppNtohs_ppHtons (x : UInt16) : ppNtohs (ppHtons x) = x := by
  simp only [ppNtohs, ppHtons]
  rw [← UInt16.toBitVec_inj]
  simp only [UInt16.toBitVec_or, UInt16.toBitVec_and, UInt16.toBitVec_shiftLeft,
    UInt16.toBitVec_shiftRight]
  ext i hi
  simp only [UInt16.toBitVec_ofNat]
  -- each of the sixteen bits moves to the other byte and back
  interval_cases i <;> simp

theorem loadU16_storeU16 (x : UInt16) :
    loadU16 x.toUInt8 (x >>> 8).toUInt8 = x := by
  simp only [loadU16]
  rw [← UInt16.toBitVec_inj]
  simp only [UInt16.toBitVec_or, UInt16.toBitVec_shiftLeft, UInt8.toBitVec_toUInt16,
    UInt16.toBitVec_toUInt8, UInt16.toBitVec_shiftRight]
  ext i hi
  interval_cases i <;> simp

-- ============================================================================
-- Copying out of a chain
-- ============================================================================

/-- The bytes `pbuf_copy_partial` copies from a chain of pbufs, given by their
    payloads: skip whole buffers while the offset covers them, then take at
    most `len` bytes. -/
def pbufCopyPartial : List (List UInt8) → Nat → Nat → List UInt8
  | [], _, _ => []
  | seg :: rest, len, offset =>
      if len = 0 then []
      else if offset ≠ 0 ∧ seg.length ≤ offset then
        pbufCopyPartial rest len (offset - seg.length)
      else
        let bufCopyLen := min (seg.length - offset) len
        (seg.drop offset).take bufCopyLen
          ++ pbufCopyPartial rest (len - bufCopyLen) 0

/-- The copy does not see how the packet is cut into buffers. -/
theorem pbufCopyPartial_eq (chain : List (List UInt8)) (len offset : Nat) :
    pbufCopyPartial chain len offset = (chain.flatten.drop offset).take len := by
  induction chain generalizing len offset with
  | nil => simp [pbufCopyPartial]
  | cons seg rest ih =>
      rw [pbufCopyPartial, List.flatten_cons, List.drop_append]
      by_cases hlen : len = 0
      · simp [hlen]
      rw [if_neg hlen]
      by_cases hskip : offset ≠ 0 ∧ seg.length ≤ offset
      · rw [if_pos hskip, ih, List.drop_eq_nil_of_le hskip.2, List.nil_append]
      · -- this buffer contributes: its offset is inside it, or zero
        have hoff : offset - seg.length = 0 := by omega
        rw [if_neg hskip, hoff, List.drop_zero, List.take_append]
        simp only [ih, List.drop_zero, List.length_drop]
        congr 1
        · rw [List.take_eq_take_iff, List.length_drop]
          omega
        · congr 1
          omega

-- ============================================================================
-- A received datagram
-- ============================================================================

/-- A datagram as a UDP receive callback sees it: the payload of the first pbuf
    (`p->payload`, `p->len` bytes), the payloads of those chained to it, and the
    memory behind the first. -/
structure Pbuf where
  first : List UInt8
  next : List (List UInt8)
  beyond : Nat → UInt8
  len_lt : (first ++ next.flatten).length < 2 ^ 16

namespace Pbuf

/-- The bytes of the datagram, `p->tot_len` of them. -/
def payload (p : Pbuf) : List UInt8 := p.first ++ p.next.flatten

theorem payload_lt (p : Pbuf) : p.payload.length < 2 ^ 16 := p.len_lt

/-- A datagram in one pbuf, followed by cleared memory. -/
def ofBytes (bytes : List UInt8) (h : bytes.length < 2 ^ 16) : Pbuf :=
  ⟨bytes, [], fun _ => 0, by rwa [List.flatten_nil, List.append_nil]⟩

@[simp] theorem payload_ofBytes (bytes : List UInt8) (h : bytes.length < 2 ^ 16) :
    (ofBytes bytes h).payload = bytes := List.append_nil bytes

@[simp] theorem first_ofBytes (bytes : List UInt8) (h : bytes.length < 2 ^ 16) :
    (ofBytes bytes h).first = bytes := rfl

theorem first_le (p : Pbuf) : p.first.length ≤ p.payload.length := by
  rw [payload, List.length_append]
  exact Nat.le_add_right _ _

/-- `p->tot_len`. -/
def totLen (p : Pbuf) : UInt16 := UInt16.ofNat p.payload.length

@[simp] theorem toNat_totLen (p : Pbuf) : p.totLen.toNat = p.payload.length := by
  rw [totLen, UInt16.toNat_ofNat']
  exact Nat.mod_eq_of_lt p.payload_lt

/-- The byte at offset `i` from `p->payload`, inside the first pbuf or not. -/
def byte (p : Pbuf) (i : Nat) : UInt8 :=
  (p.first[i]?).getD (p.beyond (i - p.first.length))

/-- `PP_NTOHS(payload[k])` with `payload` a `u16_t *`. -/
def u16 (p : Pbuf) (k : Nat) : UInt16 :=
  ppNtohs (loadU16 (p.byte (2 * k)) (p.byte (2 * k + 1)))

/-- The `k`-th 16-bit number of the datagram, however it is cut into pbufs. -/
def field (p : Pbuf) (k : Nat) : UInt16 :=
  ppNtohs (loadU16 (p.payload.getD (2 * k) 0) (p.payload.getD (2 * k + 1) 0))

/-- The access `payload[k]` stays inside the first pbuf. -/
def Inside (p : Pbuf) (k : Nat) : Prop := 2 * k + 2 ≤ p.first.length

instance (p : Pbuf) (k : Nat) : Decidable (p.Inside k) :=
  inferInstanceAs (Decidable (_ ≤ _))

theorem Inside.mono {p : Pbuf} {j k : Nat} (h : p.Inside k) (hj : j ≤ k) : p.Inside j := by
  rw [Inside] at h ⊢
  omega

/-- `pbuf_copy_partial(p, _, len, offset)`. -/
def copyPartial (p : Pbuf) (len offset : UInt16) : List UInt8 :=
  pbufCopyPartial (p.first :: p.next) len.toNat offset.toNat

theorem copyPartial_eq (p : Pbuf) (len offset : UInt16) :
    p.copyPartial len offset = (p.payload.drop offset.toNat).take len.toNat := by
  rw [copyPartial, pbufCopyPartial_eq, List.flatten_cons, payload]

/-- `pbuf_memcmp(p, offset, s2, n) == 0`. -/
def memcmpEq (p : Pbuf) (offset : Nat) (mem : List UInt8) : Bool :=
  offset + mem.length ≤ p.payload.length
    && (p.payload.drop offset).take mem.length == mem

/-- `pbuf_memfind(p, mem, mem_len, start_offset)`: the first offset from
    `start` on where `mem` occurs, or `0xFFFF`. -/
def memfind (p : Pbuf) (mem : List UInt8) (start : UInt16) : UInt16 :=
  let max := p.totLen - UInt16.ofNat mem.length
  if mem.length + start.toNat ≤ p.totLen.toNat then
    match (List.range' start.toNat (max.toNat + 1 - start.toNat)).find? (p.memcmpEq · mem) with
    | some i => UInt16.ofNat i
    | none => 0xFFFF
  else 0xFFFF

/-- Inside the first pbuf, `payload[k]` is the number of the datagram. -/
theorem u16_eq_field {p : Pbuf} {k : Nat} (h : p.Inside k) : p.u16 k = p.field k := by
  have hbyte (i : Nat) (hi : i < p.first.length) : p.byte i = p.payload.getD i 0 := by
    rw [byte, payload, List.getD_append _ _ _ _ hi, List.getElem?_eq_getElem hi,
      List.getD_eq_getElem _ _ hi, Option.getD_some]
  rw [Inside] at h
  rw [u16, field, hbyte (2 * k) (by omega), hbyte (2 * k + 1) (by omega)]

/-- A header field written with `PP_HTONS` is read back by `PP_NTOHS`. -/
theorem u16_of_drop {p : Pbuf} {k : Nat} {x : UInt16} (rest : List UInt8)
    (h : p.first.drop (2 * k) = storeU16 (ppHtons x) ++ rest) : p.u16 k = x := by
  have h0 : p.first[2 * k]? = some (ppHtons x).toUInt8 := by
    rw [← Nat.add_zero (2 * k), ← List.getElem?_drop, h]
    rfl
  have h1 : p.first[2 * k + 1]? = some (ppHtons x >>> 8).toUInt8 := by
    rw [← List.getElem?_drop, h]
    rfl
  rw [u16, byte, byte, h0, h1]
  simp only [Option.getD_some]
  rw [loadU16_storeU16, ppNtohs_ppHtons]

/-- `pbuf_memcmp` with one byte. -/
theorem memcmpEq_byte (p : Pbuf) (i : Nat) (b : UInt8) :
    p.memcmpEq i [b] = true ↔ p.payload[i]? = some b := by
  simp only [memcmpEq, List.length_singleton, Bool.and_eq_true, decide_eq_true_eq, beq_iff_eq]
  rw [List.take_one, List.head?_drop]
  constructor
  · rintro ⟨-, h⟩
    cases hb : p.payload[i]? with
    | none =>
        rw [hb] at h
        exact nomatch h
    | some x =>
        rw [hb, Option.toList_some, List.singleton_inj] at h
        rw [h]
  · intro h
    have hlt := (List.getElem?_eq_some_iff.mp h).1
    refine ⟨hlt, ?_⟩
    rw [h]
    rfl

/-- `pbuf_memfind` of one byte finds its first occurrence at or behind the start. -/
theorem memfind_byte_found {p : Pbuf} {b : UInt8} {start : UInt16} {skipped f rest : List UInt8}
    (hp : p.payload = skipped ++ (f ++ b :: rest)) (hstart : start.toNat = skipped.length)
    (hf : b ∉ f) : (p.memfind [b] start).toNat = skipped.length + f.length := by
  have hlen := p.payload_lt
  have hlength : p.payload.length = skipped.length + f.length + 1 + rest.length := by
    rw [hp]
    simp only [List.length_append, List.length_cons]
    omega
  have hmax : (p.totLen - UInt16.ofNat [b].length).toNat = p.payload.length - 1 := by
    rw [List.length_singleton, UInt16.toNat_sub_of_le, toNat_totLen]
    · rfl
    · rw [UInt16.le_iff_toNat_le, toNat_totLen]
      change 1 ≤ _
      omega
  have hfind : (List.range' start.toNat
      ((p.totLen - UInt16.ofNat [b].length).toNat + 1 - start.toNat)).find? (p.memcmpEq · [b])
      = some (skipped.length + f.length) := by
    rw [List.find?_range'_eq_some, hmax, hstart]
    refine ⟨?_, ?_, ?_⟩
    · rw [memcmpEq_byte, hp, List.getElem?_append_right (by omega), Nat.add_sub_cancel_left,
        List.getElem?_append_right (Nat.le_refl _), Nat.sub_self]
      rfl
    · rw [List.mem_range'_1]
      omega
    · intro j hle hlt
      rw [Bool.not_eq_true', ← Bool.not_eq_true, memcmpEq_byte, hp,
        List.getElem?_append_right hle, List.getElem?_append_left (by omega)]
      exact fun hj => hf (List.mem_of_getElem? hj)
  have hroom : [b].length + start.toNat ≤ p.totLen.toNat := by
    rw [toNat_totLen, List.length_singleton]
    omega
  rw [memfind]
  simp only [if_pos hroom, hfind]
  rw [UInt16.toNat_ofNat']
  exact Nat.mod_eq_of_lt (by omega)

/-- `pbuf_memfind` of a byte that does not occur. -/
theorem memfind_byte_missing {p : Pbuf} {b : UInt8} {start : UInt16}
    (h : b ∉ p.payload.drop start.toNat) : p.memfind [b] start = 0xFFFF := by
  have hnone (i : Nat) (hi : start.toNat ≤ i) : ¬ p.memcmpEq i [b] = true := by
    rw [memcmpEq_byte]
    intro hb
    apply h
    rw [← Nat.add_sub_cancel' hi, ← List.getElem?_drop] at hb
    exact List.mem_of_getElem? hb
  have hfind (n : Nat) : (List.range' start.toNat n).find? (p.memcmpEq · [b]) = none := by
    rw [List.find?_range'_eq_none]
    intro i hle _
    rw [Bool.not_eq_true', ← Bool.not_eq_true]
    exact hnone i hle
  rw [memfind]
  simp only [hfind, ite_self]

end Pbuf

end McuFirmware.Lwip
