/-
  McuFirmware.Mcu.Receiver

  `MCU_ProcessRevcString`, the receiver of the MC link.

  The receiver keeps the bytes of an unfinished frame in `pBuf_Revc`.
  `Holds r bs` relates it to its abstract state, the bytes `bs` received since
  the last frame boundary: `process_fits` and `process_overrun` say what one
  call does in these terms, and everything about streams of segments is
  derived from them.
-/

import McuFirmware.Lib.Run
import McuFirmware.Mcu.Codec

namespace McuFirmware.Mcu

open McuFirmware.Lib

/-- `sizeof(pBuf_Revc)`. -/
def revcBufLen : Nat := 64

/-- `operateData_MCUNetwork` and `outputData_MCUNetwork`. -/
structure Receiver where
  pBufRevc : CBuffer UInt8 revcBufLen
  flagPosRecv : Nat
  sizeRecv : Int
  output : OutputData
deriving DecidableEq

/-- The zeroed globals of a cold start. -/
def Receiver.init : Receiver := ⟨CBuffer.fill _ 0, 0, 0, ⟨0, 0, 0, 0⟩⟩

/-- The end of `MCU_ProcessRevcString`, from the test `flagPos>=revSize` on. -/
def finishRevc (r : Receiver) (flagPos : Nat) (revSize : Int) : Bool × Receiver :=
  if revSize ≤ flagPos then
    (true, { r with output := mcuSetOutputData r.pBufRevc.cells, flagPosRecv := 0 })
  else
    (false, { r with flagPosRecv := if flagPos = 2 then 0 else flagPos })

/-- `MCU_ProcessRevcString`: the returned flag and the new globals, or `none`
    where `memcpy` stores behind `pBuf_Revc`. -/
def mcuProcessRevcString (r : Receiver) (pInputBuf : List UInt8) : Option (Bool × Receiver) :=
  if pInputBuf.length = 0 then some (false, r)
  else if revcBufLen < r.flagPosRecv + pInputBuf.length then none
  else
    let pBuf := r.pBufRevc.memcpy r.flagPosRecv pInputBuf
    let flagPos := r.flagPosRecv + pInputBuf.length
    if r.flagPosRecv < 4 then
      if 4 ≤ flagPos then
        some (finishRevc { r with pBufRevc := pBuf, sizeRecv := headerSize pBuf.cells } flagPos
          (headerSize pBuf.cells))
      else some (finishRevc { r with pBufRevc := pBuf } flagPos 0xffff)
    else some (finishRevc { r with pBufRevc := pBuf } flagPos r.sizeRecv)

-- ============================================================================
-- The bytes since the last frame boundary
-- ============================================================================

/-- The receiver takes `bs` for a complete frame: the header is there and its
    `MCU_atoi` does not exceed the number of bytes. -/
def Completes (bs : List UInt8) : Prop := 4 ≤ bs.length ∧ headerSize bs ≤ bs.length

instance (bs : List UInt8) : Decidable (Completes bs) := inferInstanceAs (Decidable (_ ∧ _))

/-- What is kept of the bytes `bs`: nothing when they look complete, nor when
    they are two. -/
def pendingOf (bs : List UInt8) : List UInt8 :=
  if Completes bs ∨ bs.length = 2 then [] else bs

/-- The receiver is inside a frame and has received `bs` of it. -/
structure Holds (r : Receiver) (bs : List UInt8) : Prop where
  position : r.flagPosRecv = bs.length
  stored : r.pBufRevc.firstCells bs.length = bs
  size : 4 ≤ bs.length → r.sizeRecv = headerSize bs
  waiting : ¬ Completes bs
  notTwo : bs.length ≠ 2

section Holds

variable {r : Receiver} {bs c : List UInt8}

theorem not_completes_nil : ¬ Completes [] := by
  rintro ⟨hlen, -⟩
  exact absurd hlen (by decide)

/-- A receiver at position 0 is at a frame boundary. -/
theorem holds_nil (h : r.flagPosRecv = 0) : Holds r [] :=
  ⟨h, rfl, fun hlen => absurd hlen (by decide), not_completes_nil, by decide⟩

theorem Holds.fits (h : Holds r bs) : bs.length ≤ revcBufLen := by
  have hlen := congrArg List.length h.stored
  rw [CBuffer.firstCells, List.length_take, r.pBufRevc.size_eq] at hlen
  omega

theorem pendingOf_completes (h : Completes bs) : pendingOf bs = [] := if_pos (.inl h)

theorem pendingOf_two (h : bs.length = 2) : pendingOf bs = [] := if_pos (.inr h)

theorem pendingOf_waiting (hcomp : ¬ Completes bs) (htwo : bs.length ≠ 2) : pendingOf bs = bs :=
  if_neg (not_or.mpr ⟨hcomp, htwo⟩)

/-- What a call leaves when the bytes since the last boundary are `bs`. -/
structure Processed (r : Receiver) (bs : List UInt8) (r' : Receiver) : Prop where
  holds : Holds r' (pendingOf bs)
  cells : r'.pBufRevc.cells = bs ++ r.pBufRevc.cells.drop bs.length
  output : r'.output
    = if Completes bs then mcuSetOutputData r'.pBufRevc.cells else r.output

theorem Processed.stored {r' : Receiver} (h : Processed r bs r') :
    r'.pBufRevc.firstCells bs.length = bs := by
  rw [CBuffer.firstCells, h.cells, List.take_left]

/-- The end of a call, once the bytes are stored and the size is known. -/
theorem finishRevc_spec {flagPos : Nat} {revSize : Int} (hpos : flagPos = bs.length)
    (hstored : r.pBufRevc.firstCells bs.length = bs)
    (hsize : 4 ≤ bs.length → r.sizeRecv = headerSize bs)
    (hiff : revSize ≤ flagPos ↔ Completes bs) :
    ∃ r', finishRevc r flagPos revSize = (decide (Completes bs), r') ∧ Processed r bs r' := by
  subst hpos
  have hcells := CBuffer.cells_eq_append hstored
  by_cases hcomp : Completes bs
  · refine ⟨{ r with output := mcuSetOutputData r.pBufRevc.cells, flagPosRecv := 0 }, ?_, ?_⟩
    · rw [finishRevc, if_pos (hiff.mpr hcomp), decide_eq_true hcomp]
    · refine ⟨?_, hcells, by rw [if_pos hcomp]⟩
      rw [pendingOf_completes hcomp]
      exact holds_nil rfl
  · refine ⟨{ r with flagPosRecv := if bs.length = 2 then 0 else bs.length }, ?_, ?_⟩
    · rw [finishRevc, if_neg (fun h => hcomp (hiff.mp h)), decide_eq_false hcomp]
    · refine ⟨?_, hcells, by rw [if_neg hcomp]⟩
      by_cases htwo : bs.length = 2
      · rw [pendingOf_two htwo]
        apply holds_nil
        exact if_pos htwo
      · rw [pendingOf_waiting hcomp htwo]
        exact ⟨if_neg htwo, hstored, hsize, hcomp, htwo⟩

/-- **One call.**  A chunk that fits is appended to the bytes held; the call
    returns 1 exactly when these then look complete. -/
theorem process_fits (h : Holds r bs) (hfit : bs.length + c.length ≤ revcBufLen) :
    ∃ r', mcuProcessRevcString r c = some (decide (Completes (bs ++ c)), r') ∧
      Processed r (bs ++ c) r' := by
  have hpos := h.position
  have hlen : (bs ++ c).length = r.flagPosRecv + c.length := by
    rw [List.length_append, hpos]
  by_cases hnil : c = []
  · subst hnil
    rw [List.append_nil]
    refine ⟨r, ?_, ?_⟩
    · rw [decide_eq_false h.waiting]
      rfl
    · refine ⟨?_, CBuffer.cells_eq_append h.stored, by rw [if_neg h.waiting]⟩
      rw [pendingOf_waiting h.waiting h.notTwo]
      exact h
  have hne : ¬ c.length = 0 := fun hz => hnil (List.length_eq_zero_iff.mp hz)
  have hin : ¬ revcBufLen < r.flagPosRecv + c.length := by omega
  have hstored : (r.pBufRevc.memcpy r.flagPosRecv c).firstCells (bs ++ c).length = bs ++ c := by
    rw [hlen, CBuffer.firstCells_memcpy _ _ _ (by omega), hpos, h.stored]
  have hheader (hfour : 4 ≤ (bs ++ c).length) :
      headerSize (r.pBufRevc.memcpy r.flagPosRecv c).cells = headerSize (bs ++ c) := by
    apply headerSize_congr
    exact CBuffer.take_cells hstored hfour
  have hrest : (bs ++ c) ++ (r.pBufRevc.memcpy r.flagPosRecv c).cells.drop (bs ++ c).length
      = (bs ++ c) ++ r.pBufRevc.cells.drop (bs ++ c).length := by
    rw [hlen, CBuffer.drop_memcpy _ _ _ (by omega)]
  simp only [mcuProcessRevcString, if_neg hne, if_neg hin]
  by_cases hold : r.flagPosRecv < 4
  · by_cases hfour : 4 ≤ r.flagPosRecv + c.length
    · -- the header became complete
      have hsize := hheader (by omega)
      rw [if_pos hold, if_pos hfour]
      have hiff : headerSize (r.pBufRevc.memcpy r.flagPosRecv c).cells
          ≤ ((r.flagPosRecv + c.length : Nat) : Int) ↔ Completes (bs ++ c) := by
        rw [hsize, Completes, hlen]
        omega
      obtain ⟨r', hr', hproc⟩ := finishRevc_spec
        (r := { r with pBufRevc := r.pBufRevc.memcpy r.flagPosRecv c
                       sizeRecv := headerSize (r.pBufRevc.memcpy r.flagPosRecv c).cells })
        hlen.symm hstored (fun _ => hsize) hiff
      exact ⟨r', congrArg some hr', hproc.holds, hproc.cells.trans hrest, hproc.output⟩
    · -- still inside the header: `revSize` is `0xffff`
      rw [if_pos hold, if_neg hfour]
      have hiff : (0xffff : Int) ≤ ((r.flagPosRecv + c.length : Nat) : Int)
          ↔ Completes (bs ++ c) := by
        rw [Completes, hlen]
        omega
      obtain ⟨r', hr', hproc⟩ := finishRevc_spec
        (r := { r with pBufRevc := r.pBufRevc.memcpy r.flagPosRecv c })
        hlen.symm hstored (fun hfour' => by omega) hiff
      exact ⟨r', congrArg some hr', hproc.holds, hproc.cells.trans hrest, hproc.output⟩
  · -- the size is the one read with an earlier chunk
    have hsize : r.sizeRecv = headerSize (bs ++ c) := by
      rw [h.size (by omega)]
      apply headerSize_congr
      rw [List.take_append_of_le_length (by omega)]
    rw [if_neg hold]
    have hiff : r.sizeRecv ≤ ((r.flagPosRecv + c.length : Nat) : Int) ↔ Completes (bs ++ c) := by
      rw [hsize, Completes, hlen]
      omega
    obtain ⟨r', hr', hproc⟩ := finishRevc_spec
      (r := { r with pBufRevc := r.pBufRevc.memcpy r.flagPosRecv c })
      hlen.symm hstored (fun _ => hsize) hiff
    exact ⟨r', congrArg some hr', hproc.holds, hproc.cells.trans hrest, hproc.output⟩

theorem process_overrun (h : Holds r bs) (hover : revcBufLen < bs.length + c.length) :
    mcuProcessRevcString r c = none := by
  have hfits := h.fits
  have hpos := h.position
  rw [mcuProcessRevcString, if_neg (by omega), if_pos (by omega)]

end Holds

-- ============================================================================
-- What a call may show
-- ============================================================================

/-- The receiver with the bytes received since it was last at position 0, over
    one call; nothing is known after an overrun. -/
def observe : Option (Receiver × List UInt8) → List UInt8 → Option (Receiver × List UInt8)
  | none, _ => none
  | some (r, bs), c =>
      match mcuProcessRevcString r c with
      | none => none
      | some (_, r') => some (r', if r'.flagPosRecv = 0 then [] else bs ++ c)

/-- The call for `c` behind `bs` decodes a complete frame and nothing else, and
    otherwise leaves the machine state shown alone. -/
def FaithfulCall (r : Receiver) (bs c : List UInt8) : Prop :=
  ∃ flag r', mcuProcessRevcString r c = some (flag, r') ∧
    (flag = true → IsFrame (bs ++ c) ∧ r'.output = fieldValues (bs ++ c)) ∧
    (flag = false → r'.output = r.output)

section Observe

variable {r r' : Receiver} {bs bs' c : List UInt8}

/-- The bytes counted from position 0 are the bytes held. -/
theorem Holds.since_boundary (h : Holds r (pendingOf bs)) :
    (if r.flagPosRecv = 0 then [] else bs) = pendingOf bs := by
  have hpos := h.position
  by_cases hreset : Completes bs ∨ bs.length = 2
  · have hnil : pendingOf bs = [] := if_pos hreset
    rw [hnil] at hpos ⊢
    exact if_pos hpos
  · have hkeep : pendingOf bs = bs := if_neg hreset
    rw [hkeep] at hpos ⊢
    by_cases hzero : r.flagPosRecv = 0
    · rw [if_pos hzero]
      exact (List.length_eq_zero_iff.mp (hpos.symm.trans hzero)).symm
    · exact if_neg hzero

/-- **Step lemma.** -/
theorem holds_observe (h : Holds r bs) (hstep : observe (some (r, bs)) c = some (r', bs')) :
    Holds r' bs' := by
  by_cases hfit : bs.length + c.length ≤ revcBufLen
  · obtain ⟨q, hq, hproc⟩ := process_fits (c := c) h hfit
    simp only [observe, hq, Option.some.injEq, Prod.mk.injEq] at hstep
    obtain ⟨rfl, rfl⟩ := hstep
    rw [hproc.holds.since_boundary]
    exact hproc.holds
  · have hnone := process_overrun (c := c) h (by omega)
    simp only [observe, hnone] at hstep
    exact absurd hstep (by simp)

/-- **Run lemma.**  The receiver always holds the bytes since the last boundary. -/
theorem holds_run {r₀ : Receiver} {chunks : List (List UInt8)} (h0 : r₀.flagPosRecv = 0)
    (hrun : run observe (some (r₀, [])) chunks = some (r, bs)) : Holds r bs := by
  have hinv : ∀ q l, run observe (some (r₀, [])) chunks = some (q, l) → Holds q l := by
    refine run_inv (C := fun _ _ => True) (I := fun o => ∀ q l, o = some (q, l) → Holds q l)
      ?_ ?_ (stepsMeet_of_forall (fun _ _ _ => trivial) _)
    · intro o c hall _ q l heq
      cases o with
      | none => exact absurd heq (by simp [observe])
      | some s => exact holds_observe (hall s.1 s.2 rfl) heq
    · intro q l heq
      obtain ⟨rfl, rfl⟩ := Prod.mk.inj (Option.some.inj heq)
      exact holds_nil h0
  exact hinv r bs hrun

/-- A well-formed header is read as its number, so a complete one is a frame. -/
theorem WellFormed.isFrame (h : WellFormed bs) (hcomp : Completes bs) : IsFrame bs := by
  have hsize := headerSize_digits h.header
  have hle := hcomp.2
  rw [hsize] at hle
  exact ⟨h, Int.ofNat_le.mp hle⟩

/-- Eleven bytes or more are decoded from themselves only, whatever the buffer
    held before. -/
theorem Processed.output_full (h : Processed r bs r') (hcomp : Completes bs)
    (hlen : 11 ≤ bs.length) : r'.output = mcuSetOutputData bs := by
  rw [h.output, if_pos hcomp]
  apply mcuSetOutputData_congr
  exact CBuffer.take_cells h.stored hlen

theorem Processed.output_frame (h : Processed r bs r') (hcomp : Completes bs)
    (hframe : IsFrame bs) : r'.output = fieldValues bs := by
  have hlen : 11 ≤ bs.length := Nat.le_trans hframe.size hframe.complete
  rw [h.output_full hcomp hlen]
  exact mcuSetOutputData_digits hframe.fields

end Observe

/-- **Malformed frames.**  In every reachable state of the receiver, a chunk is
    handled faithfully exactly when it fits the buffer and, if `MCU_atoi` of the
    header does not exceed the bytes received, the header is four digits of at
    least 11 and the fields are digits. -/
theorem malformed_ignored_iff (r₀ : Receiver) (chunks : List (List UInt8)) (r : Receiver)
    (bs : List UInt8) (h0 : r₀.flagPosRecv = 0)
    (hreach : run observe (some (r₀, [])) chunks = some (r, bs)) (c : List UInt8) :
    FaithfulCall r bs c ↔
      bs.length + c.length ≤ revcBufLen ∧ (Completes (bs ++ c) → WellFormed (bs ++ c)) := by
  have hholds := holds_run h0 hreach
  constructor
  · rintro ⟨flag, q, hq, hone, -⟩
    have hfit : bs.length + c.length ≤ revcBufLen := by
      by_contra hover
      rw [process_overrun hholds (by omega)] at hq
      exact absurd hq (by simp)
    refine ⟨hfit, ?_⟩
    intro hcomp
    obtain ⟨q', hq', -⟩ := process_fits (c := c) hholds hfit
    rw [hq', decide_eq_true hcomp] at hq
    obtain ⟨rfl, -⟩ := Prod.mk.inj (Option.some.inj hq)
    exact (hone rfl).1.toWellFormed
  · rintro ⟨hfit, hformed⟩
    obtain ⟨q, hq, hproc⟩ := process_fits (c := c) hholds hfit
    refine ⟨_, q, hq, ?_, ?_⟩
    · intro hflag
      have hcomp := of_decide_eq_true hflag
      have hframe := (hformed hcomp).isFrame hcomp
      exact ⟨hframe, hproc.output_frame hcomp hframe⟩
    · intro hflag
      rw [hproc.output, if_neg (of_decide_eq_false hflag)]

/-- A frame cut inside its header: mode 3, no emergency stop, error 42. -/
theorem malformed_ignored_two_chunks :
    ∃ r, run observe (some (Receiver.init, [])) [[0x30, 0x30, 0x31]]
        = some (r, [0x30, 0x30, 0x31]) ∧
      FaithfulCall r [0x30, 0x30, 0x31] [0x31, 0x33, 0x30, 0x30, 0x30, 0x30, 0x34, 0x32] := by
  refine ⟨_, rfl, ?_⟩
  refine (malformed_ignored_iff Receiver.init [[0x30, 0x30, 0x31]] _ _ rfl rfl _).mpr ?_
  exact ⟨by decide, fun _ => ⟨by decide, by decide, by decide⟩⟩

/-- The five letters `hello` are taken for a frame: `MCU_atoi` of `hell` is -1,
    and the mode shown becomes `(char)-1`. -/
theorem letters_taken_for_frame :
    ∃ r, mcuProcessRevcString Receiver.init [0x68, 0x65, 0x6c, 0x6c, 0x6f] = some (true, r) ∧
      r.output.modeOfMC = 255 ∧
      ¬ FaithfulCall Receiver.init [] [0x68, 0x65, 0x6c, 0x6c, 0x6f] := by
  refine ⟨_, rfl, rfl, ?_⟩
  rintro ⟨flag, r, hcall, hone, -⟩
  have hflag : flag = true := (Prod.mk.inj (Option.some.inj hcall)).1.symm
  exact absurd ((hone hflag).1.header 0 (by omega)) (by decide)

end McuFirmware.Mcu
