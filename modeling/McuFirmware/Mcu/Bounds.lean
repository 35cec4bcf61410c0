/-
  McuFirmware.Mcu.Bounds

  How far `MCU_ProcessRevcString` stores.

  The position in `pBuf_Revc` goes back to 0 only when the number the peer
  announced in the header has been reached.  The bytes from one such boundary
  to the next are a group of `Lib.groups`, and the receiver stays inside its
  buffer exactly when these groups fit it.
-/

import McuFirmware.Lib.Groups
import McuFirmware.Mcu.Receiver

namespace McuFirmware.Mcu

open McuFirmware.Lib

/-- Every call stores inside `pBuf_Revc`, and between calls the position is an
    index of it. -/
def StaysInside (r : Receiver) : List (List UInt8) → Prop
  | [] => r.flagPosRecv < revcBufLen
  | c :: cs =>
      r.flagPosRecv < revcBufLen ∧ r.flagPosRecv + c.length ≤ revcBufLen ∧
        ∃ flag r', mcuProcessRevcString r c = some (flag, r') ∧ StaysInside r' cs

/-- The position goes back to 0 behind `bs`. -/
def Boundary (bs : List UInt8) : Prop := Completes bs ∨ bs.length = 2

instance : DecidablePred Boundary := fun _ => inferInstanceAs (Decidable (_ ∨ _))

section Inside

variable {r : Receiver} {bs : List UInt8} {chunks : List (List UInt8)}

/-- **Run lemma.**  From a receiver that holds `bs`. -/
theorem staysInside_iff_fits (h : Holds r bs) (hpos : ∀ c ∈ chunks, 1 ≤ c.length) :
    StaysInside r chunks ↔ Fits Boundary revcBufLen bs chunks := by
  induction chunks generalizing r bs with
  | nil => rw [StaysInside, fits_nil, h.position]
  | cons c cs ih =>
      have hc : 1 ≤ c.length := hpos c List.mem_cons_self
      have hcs : ∀ d ∈ cs, 1 ≤ d.length := fun d hd => hpos d (List.mem_cons_of_mem c hd)
      rw [StaysInside, fits_cons, h.position]
      constructor
      · rintro ⟨-, hfit, flag, r', hcall, hrest⟩
        obtain ⟨q, hq, hproc⟩ := process_fits h hfit
        obtain ⟨-, rfl⟩ := Prod.mk.inj (Option.some.inj (hq.symm.trans hcall))
        exact ⟨hfit, (ih hproc.holds hcs).mp hrest⟩
      · rintro ⟨hfit, hrest⟩
        obtain ⟨q, hq, hproc⟩ := process_fits h hfit
        -- the chunk has a byte, so the position before it is inside the buffer
        exact ⟨by omega, hfit, _, q, hq, (ih hproc.holds hcs).mpr hrest⟩

end Inside

/-- **The receive buffer.**  Over every sequence of nonempty chunks from position
    0, the receiver stays inside its buffer exactly when the bytes between two
    frame boundaries are at most 64 and those behind the last one at most 63. -/
theorem staysInside_iff (r₀ : Receiver) (chunks : List (List UInt8)) (h0 : r₀.flagPosRecv = 0)
    (hlen : ∀ c ∈ chunks, 1 ≤ c.length ∧ c.length ≤ 64) :
    StaysInside r₀ chunks ↔ Fits Boundary revcBufLen [] chunks :=
  staysInside_iff_fits (holds_nil h0) (fun c hc => (hlen c hc).1)

/-- A frame of eleven bytes in two chunks. -/
theorem staysInside_two_chunks :
    StaysInside Receiver.init
      [[0x30, 0x30, 0x31], [0x31, 0x33, 0x30, 0x30, 0x30, 0x30, 0x34, 0x32]] := by
  exact (staysInside_iff Receiver.init _ rfl (by decide)).mpr (by decide)

/-- A header that announces 99 bytes, and 61 bytes behind it: the second `memcpy`
    ends one byte behind the buffer. -/
theorem long_frame_overruns :
    ∃ r, mcuProcessRevcString Receiver.init [0x30, 0x30, 0x39, 0x39] = some (false, r) ∧
      r.flagPosRecv = 4 ∧ mcuProcessRevcString r (List.replicate 61 0) = none ∧
      ¬ StaysInside Receiver.init [[0x30, 0x30, 0x39, 0x39], List.replicate 61 0] := by
  have hcall : mcuProcessRevcString Receiver.init [0x30, 0x30, 0x39, 0x39] = some (false, _) := rfl
  refine ⟨_, hcall, rfl, rfl, ?_⟩
  rintro ⟨-, -, flag, r, hr, -, hfit, -⟩
  obtain ⟨-, rfl⟩ := Prod.mk.inj (Option.some.inj (hcall.symm.trans hr))
  exact absurd hfit (by decide)

end McuFirmware.Mcu
