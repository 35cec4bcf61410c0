/-
  McuFirmware.Mcu.Codec

  The text fields of the MC link (`MCU_NetworkInterface.c`): decimal numbers in
  ASCII, the frame the controller sends and the reply the panel returns.

  `mcuAtoi` and `mcuItoa` follow the C loops.  `digitsValue` and `fieldValues`
  say what the fields mean, and the lemmas connect the two on digits.
-/

import McuFirmware.Lib.CBuffer

namespace McuFirmware.Mcu

-- ============================================================================
-- Numbers
-- ============================================================================

/-- `str[i]<'0' || str[i]>'9'` does not hold. -/
def IsDigit (b : UInt8) : Prop := ¬ (b < 0x30 ∨ 0x39 < b)

instance (b : UInt8) : Decidable (IsDigit b) := inferInstanceAs (Decidable (¬ _))

/-- The loop of `MCU_atoi` with its accumulator; a string ends at its NUL. -/
def mcuAtoiLoop (res : Int) : List UInt8 → Int
  | [] => res
  | c :: str =>
      if c = 0 then res
      else if c < 0x30 ∨ 0x39 < c then -1
      else mcuAtoiLoop (res * 10 + c.toNat - 0x30) str

/-- `MCU_atoi`. -/
def mcuAtoi (str : List UInt8) : Int := mcuAtoiLoop 0 str

/-- The conversion `(char)x`. -/
def toChar (x : Int) : UInt8 := UInt8.ofNat (x % 256).toNat

/-- The loop of `MCU_itoa`: `count` more digits, the last one first. -/
def mcuItoaLoop : Nat → Int → List UInt8 → List UInt8
  | 0, _, str => str
  | count + 1, n, str =>
      if n = 0 then mcuItoaLoop count n (0x30 :: str)
      else mcuItoaLoop count (n.tdiv 10) (toChar (n.tmod 10 + 0x30) :: str)

/-- `tmp *= 10`, `numChar` times. -/
def mcuItoaBound : Nat → Int
  | 0 => 1
  | numChar + 1 => mcuItoaBound numChar * 10

/-- The characters `MCU_itoa(n, str, numChar)` stores. -/
def mcuItoa (n : Int) (numChar : Nat) : List UInt8 :=
  mcuItoaLoop numChar (n.tmod (mcuItoaBound numChar)) []

/-- The number a string of digits denotes. -/
def digitsValue (l : List UInt8) : Nat :=
  l.foldl (fun v b => 10 * v + (b.toNat - 0x30)) 0

-- ============================================================================
-- Fields
-- ============================================================================

/-- `MCU_NetworkOutputDataType`, what the controller shows on the panel. -/
structure OutputData where
  modeOfMC : UInt8
  emg : UInt8
  feedbackBackUp : UInt8
  errorNo : Int
deriving DecidableEq, Repr

/-- `MCU_NetworkInputDataType`, what the panel reports back. -/
structure InputData where
  triggerBackup : UInt8
  click : Int
deriving DecidableEq, Repr

/-- `MCU_SetOutputData`. -/
def mcuSetOutputData (pBuf : List UInt8) : OutputData where
  modeOfMC := toChar (mcuAtoi [pBuf.getD 4 0, 0])
  emg := toChar (mcuAtoi [pBuf.getD 5 0, 0])
  feedbackBackUp := toChar (mcuAtoi [pBuf.getD 6 0, 0])
  errorNo := mcuAtoi [pBuf.getD 7 0, pBuf.getD 8 0, pBuf.getD 9 0, pBuf.getD 10 0, 0]

/-- `MCU_InputData2Buffer`: the characters from `pBuf` on. -/
def mcuInputData2Buffer (pInputData : InputData) : List UInt8 :=
  mcuItoa pInputData.triggerBackup.toNat 1 ++ mcuItoa pInputData.click 4 ++ [0]

/-- `MCU_GetSendString`: the bytes of a reply. -/
def mcuGetSendString (pInputData : InputData) : List UInt8 :=
  let body := mcuInputData2Buffer pInputData
  mcuItoa (body.length + 4) 4 ++ body

/-- `MCU_atoi` of the four header characters. -/
def headerSize (pBuf : List UInt8) : Int :=
  mcuAtoi [pBuf.getD 0 0, pBuf.getD 1 0, pBuf.getD 2 0, pBuf.getD 3 0, 0]

/-- What a frame says, given that its fields are digits. -/
def fieldValues (bs : List UInt8) : OutputData where
  modeOfMC := UInt8.ofNat (digitsValue [bs.getD 4 0])
  emg := UInt8.ofNat (digitsValue [bs.getD 5 0])
  feedbackBackUp := UInt8.ofNat (digitsValue [bs.getD 6 0])
  errorNo := digitsValue [bs.getD 7 0, bs.getD 8 0, bs.getD 9 0, bs.getD 10 0]

/-- A four-digit length of at least 11 and seven digits behind it. -/
structure WellFormed (bs : List UInt8) : Prop where
  header : ∀ i < 4, IsDigit (bs.getD i 0)
  size : 11 ≤ digitsValue [bs.getD 0 0, bs.getD 1 0, bs.getD 2 0, bs.getD 3 0]
  fields : ∀ i < 11, 4 ≤ i → IsDigit (bs.getD i 0)

/-- The bytes are a complete frame, perhaps followed by more. -/
structure IsFrame (bs : List UInt8) : Prop extends WellFormed bs where
  complete : digitsValue [bs.getD 0 0, bs.getD 1 0, bs.getD 2 0, bs.getD 3 0] ≤ bs.length

-- ============================================================================
-- Digits are read as their number
-- ============================================================================

theorem IsDigit.ne_zero {b : UInt8} (h : IsDigit b) : b ≠ 0 := by
  rintro rfl
  exact h (.inl (by decide))

theorem IsDigit.le_toNat {b : UInt8} (h : IsDigit b) : 0x30 ≤ b.toNat := by
  have hlt : ¬ b < 0x30 := fun hb => h (.inl hb)
  rw [UInt8.lt_iff_toNat_lt] at hlt
  exact Nat.not_lt.mp hlt

theorem IsDigit.toNat_le {b : UInt8} (h : IsDigit b) : b.toNat ≤ 0x39 := by
  have hlt : ¬ 0x39 < b := fun hb => h (.inr hb)
  rw [UInt8.lt_iff_toNat_lt] at hlt
  exact Nat.not_lt.mp hlt

theorem toNat_digit {v : Nat} (hhigh : v ≤ 0x39) : (UInt8.ofNat v).toNat = v := by
  rw [UInt8.toNat_ofNat']
  omega

/-- The characters `'0'` to `'9'`. -/
theorem isDigit_ofNat {v : Nat} (hlow : 0x30 ≤ v) (hhigh : v ≤ 0x39) : IsDigit (UInt8.ofNat v) := by
  rw [IsDigit, UInt8.lt_iff_toNat_lt, UInt8.lt_iff_toNat_lt, toNat_digit hhigh]
  rintro (hlt | hlt)
  · exact Nat.not_lt.mpr hlow hlt
  · exact Nat.not_lt.mpr hhigh hlt

/-- The loop over digits adds them to the accumulator. -/
theorem mcuAtoiLoop_digits (l : List UInt8) (res : Nat) (h : ∀ b ∈ l, IsDigit b) :
    mcuAtoiLoop res (l ++ [0])
      = (l.foldl (fun v b => 10 * v + (b.toNat - 0x30)) res : Nat) := by
  induction l generalizing res with
  | nil => rfl
  | cons b l ih =>
      have hb : IsDigit b := h b List.mem_cons_self
      have hacc : (res : Int) * 10 + b.toNat - 0x30
          = ((10 * res + (b.toNat - 0x30) : Nat) : Int) := by
        have hle := hb.le_toNat
        omega
      rw [List.cons_append, mcuAtoiLoop, if_neg hb.ne_zero, if_neg hb, hacc,
        ih _ fun c hc => h c (List.mem_cons_of_mem b hc)]
      rfl

theorem mcuAtoi_digits {l : List UInt8} (h : ∀ b ∈ l, IsDigit b) :
    mcuAtoi (l ++ [0]) = digitsValue l :=
  mcuAtoiLoop_digits l 0 h

/-- A header of four digits is read as its number. -/
theorem headerSize_digits {bs : List UInt8} (h : ∀ i < 4, IsDigit (bs.getD i 0)) :
    headerSize bs = digitsValue [bs.getD 0 0, bs.getD 1 0, bs.getD 2 0, bs.getD 3 0] := by
  refine mcuAtoi_digits (l := [bs.getD 0 0, bs.getD 1 0, bs.getD 2 0, bs.getD 3 0]) ?_
  simp only [List.forall_mem_cons]
  exact ⟨h 0 (by omega), h 1 (by omega), h 2 (by omega), h 3 (by omega), by simp⟩

theorem toChar_natCast (n : Nat) : toChar n = UInt8.ofNat n := by
  have hmod : ((n : Int) % 256).toNat = n % 256 := by omega
  rw [toChar, hmod]
  exact UInt8.ofNat_mod_size

/-- An error number of four digits is read as its number. -/
theorem errorNo_digits {bs : List UInt8} (h : ∀ i < 11, 7 ≤ i → IsDigit (bs.getD i 0)) :
    (mcuSetOutputData bs).errorNo
      = digitsValue [bs.getD 7 0, bs.getD 8 0, bs.getD 9 0, bs.getD 10 0] := by
  refine mcuAtoi_digits (l := [bs.getD 7 0, bs.getD 8 0, bs.getD 9 0, bs.getD 10 0]) ?_
  simp only [List.forall_mem_cons]
  exact ⟨h 7 (by omega) (by omega), h 8 (by omega) (by omega), h 9 (by omega) (by omega),
    h 10 (by omega) (by omega), by simp⟩

/-- On digits `MCU_SetOutputData` reads what the frame says. -/
theorem mcuSetOutputData_digits {bs : List UInt8}
    (h : ∀ i < 11, 4 ≤ i → IsDigit (bs.getD i 0)) : mcuSetOutputData bs = fieldValues bs := by
  have hone (i : Nat) (hlt : i < 11) (hle : 4 ≤ i) :
      toChar (mcuAtoi [bs.getD i 0, 0]) = UInt8.ofNat (digitsValue [bs.getD i 0]) := by
    have hval := mcuAtoi_digits (l := [bs.getD i 0]) (by
      intro b hb
      rw [List.mem_singleton.mp hb]
      exact h i hlt hle)
    rw [List.singleton_append] at hval
    rw [hval, toChar_natCast]
  have herr : mcuAtoi [bs.getD 7 0, bs.getD 8 0, bs.getD 9 0, bs.getD 10 0, 0]
      = digitsValue [bs.getD 7 0, bs.getD 8 0, bs.getD 9 0, bs.getD 10 0] :=
    errorNo_digits fun i hlt hge => h i hlt (by omega)
  rw [mcuSetOutputData, fieldValues, hone 4 (by omega) (by omega), hone 5 (by omega) (by omega),
    hone 6 (by omega) (by omega), herr]

/-- Lists with a common prefix agree on its bytes. -/
theorem getD_of_take_eq {bs bs' : List UInt8} {k i : Nat} (h : bs.take k = bs'.take k)
    (hi : i < k) : bs.getD i 0 = bs'.getD i 0 := by
  have hget := congrArg (fun l : List UInt8 => l[i]?) h
  simp only [List.getElem?_take_of_lt hi] at hget
  rw [List.getD_eq_getElem?_getD, List.getD_eq_getElem?_getD, hget]

/-- Only the eleven first bytes matter. -/
theorem mcuSetOutputData_congr {bs bs' : List UInt8} (h : bs.take 11 = bs'.take 11) :
    mcuSetOutputData bs = mcuSetOutputData bs' := by
  have hbyte (i : Nat) (hi : i < 11) : bs.getD i 0 = bs'.getD i 0 := getD_of_take_eq h hi
  simp only [mcuSetOutputData, hbyte 4, hbyte 5, hbyte 6, hbyte 7, hbyte 8, hbyte 9, hbyte 10,
    Nat.reduceLT]

theorem headerSize_congr {bs bs' : List UInt8} (h : bs.take 4 = bs'.take 4) :
    headerSize bs = headerSize bs' := by
  have hbyte (i : Nat) (hi : i < 4) : bs.getD i 0 = bs'.getD i 0 := getD_of_take_eq h hi
  simp only [headerSize, hbyte 0, hbyte 1, hbyte 2, hbyte 3, Nat.reduceLT]

/-- The header is known once four bytes are there. -/
theorem headerSize_take {bs : List UInt8} {k : Nat} (hk : 4 ≤ k) :
    headerSize (bs.take k) = headerSize bs := by
  apply headerSize_congr
  rw [List.take_take, Nat.min_eq_left hk]

-- ============================================================================
-- The bytes that decide a decoding
-- ============================================================================

/-- The first bytes `w` of the buffer fix what `MCU_SetOutputData` reads: all
    eleven are there, or `MCU_atoi` stops at one of the digits of the error
    number. -/
def Decided (w : List UInt8) : Prop :=
  11 ≤ w.length ∨ ∃ i < w.length, 7 ≤ i ∧ ¬ IsDigit (w.getD i 0)

instance (w : List UInt8) : Decidable (Decided w) := inferInstanceAs (Decidable (_ ∨ _))

/-- What stands behind a byte that is no digit is not read. -/
theorem mcuAtoiLoop_stop {c : UInt8} (hc : ¬ IsDigit c) (str rest rest' : List UInt8) (res : Int) :
    mcuAtoiLoop res (str ++ c :: rest) = mcuAtoiLoop res (str ++ c :: rest') := by
  induction str generalizing res with
  | nil =>
      have hout : c < 0x30 ∨ 0x39 < c := not_not.mp hc
      simp only [List.nil_append, mcuAtoiLoop, if_pos hout]
  | cons b str ih => simp only [List.cons_append, mcuAtoiLoop, ih]

section Decided

variable {w bs bs' : List UInt8}

theorem getD_of_isPrefix (h : w <+: bs) {i : Nat} (hi : i < w.length) :
    bs.getD i 0 = w.getD i 0 := by
  obtain ⟨rest, rfl⟩ := h
  exact List.getD_append _ _ _ _ hi

/-- Buffers that start with the same deciding bytes are decoded alike. -/
theorem Decided.output_eq (h : Decided w) (hbs : w <+: bs) (hbs' : w <+: bs') :
    mcuSetOutputData bs = mcuSetOutputData bs' := by
  have hbyte (i : Nat) (hi : i < w.length) : bs.getD i 0 = bs'.getD i 0 := by
    rw [getD_of_isPrefix hbs hi, getD_of_isPrefix hbs' hi]
  by_cases hlen : 11 ≤ w.length
  · simp (disch := omega) only [mcuSetOutputData, hbyte]
  obtain ⟨i, hi, hge, hstop⟩ := h.resolve_left hlen
  have herr : (mcuSetOutputData bs).errorNo = (mcuSetOutputData bs').errorNo := by
    rw [← getD_of_isPrefix hbs hi] at hstop
    obtain rfl | rfl | rfl : i = 7 ∨ i = 8 ∨ i = 9 := by omega
    · simp only [mcuSetOutputData, ← hbyte 7 hi]
      exact mcuAtoiLoop_stop hstop [] _ _ 0
    · simp only [mcuSetOutputData, ← hbyte 7 (by omega), ← hbyte 8 hi]
      exact mcuAtoiLoop_stop hstop [_] _ _ 0
    · simp only [mcuSetOutputData, ← hbyte 7 (by omega), ← hbyte 8 (by omega), ← hbyte 9 hi]
      exact mcuAtoiLoop_stop hstop [_, _] _ _ 0
  simp only [mcuSetOutputData, OutputData.mk.injEq] at herr ⊢
  exact ⟨by rw [hbyte 4 (by omega)], by rw [hbyte 5 (by omega)], by rw [hbyte 6 (by omega)], herr⟩

/-- Behind bytes that do not decide, a buffer of zeros and one of ones are
    decoded differently. -/
theorem decided_of_output_eq (hbs : w <+: bs) (hbs' : w <+: bs')
    (hzero : ∀ i < 11, 4 ≤ i → w.length ≤ i → bs.getD i 0 = 0x30)
    (hone : ∀ i < 11, 4 ≤ i → w.length ≤ i → bs'.getD i 0 = 0x31)
    (h : mcuSetOutputData bs = mcuSetOutputData bs') : Decided w := by
  by_contra hnot
  obtain ⟨hlen, hdigits⟩ := not_or.mp hnot
  by_cases hfields : w.length ≤ 6
  · have hfeedback := congrArg OutputData.feedbackBackUp h
    simp only [mcuSetOutputData, hzero 6 (by omega) (by omega) hfields,
      hone 6 (by omega) (by omega) hfields] at hfeedback
    exact absurd hfeedback (by decide)
  -- the error number is all digits, and the last one differs
  have hall {l : List UInt8} {d : UInt8} (hl : w <+: l) (hd : IsDigit d)
      (hrest : ∀ i < 11, 4 ≤ i → w.length ≤ i → l.getD i 0 = d) (i : Nat) (hi : i < 11)
      (hge : 7 ≤ i) : IsDigit (l.getD i 0) := by
    by_cases hin : i < w.length
    · rw [getD_of_isPrefix hl hin]
      by_contra hstop
      exact hdigits ⟨i, hin, hge, hstop⟩
    · rw [hrest i hi (by omega) (by omega)]
      exact hd
  have herr := congrArg OutputData.errorNo h
  rw [errorNo_digits (hall hbs (by decide) hzero), errorNo_digits (hall hbs' (by decide) hone),
    hzero 10 (by omega) (by omega) (by omega), hone 10 (by omega) (by omega) (by omega)] at herr
  simp only [digitsValue, List.foldl_cons, List.foldl_nil, UInt8.reduceToNat] at herr
  omega

end Decided

end McuFirmware.Mcu
