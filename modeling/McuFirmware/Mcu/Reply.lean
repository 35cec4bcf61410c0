/-
  McuFirmware.Mcu.Reply

  The reply in memory: `MCU_itoa`, `MCU_atoi`, `MCU_InputData2Buffer` and
  `MCU_GetSendString` on a character array, with the stores they make and the
  `int` arithmetic they do.

  `MCU_itoa` fills a field from its last character on.  `mcuItoaLoop_stores`
  says what the array holds after any number of its stores, and so that the
  functions in memory refine the ones on lists of `Mcu.Codec`.  What the
  characters mean is settled on lists: `digitsOf` and `digitsValue` are inverse
  to each other.
-/

import Mathlib.Algebra.Group.Int.Defs
import Mathlib.Algebra.Group.Nat.Defs
import Mathlib.Data.List.Induction
import McuFirmware.Mcu.Codec

namespace McuFirmware.Mcu

open McuFirmware.Lib

-- ============================================================================
-- Digits
-- ============================================================================

/-- The `k` lowest decimal digits of `m`. -/
def digitsOf : Nat → Nat → List UInt8
  | 0, _ => []
  | k + 1, m => digitsOf k (m / 10) ++ [UInt8.ofNat (m % 10 + 0x30)]

@[simp] theorem length_digitsOf (k m : Nat) : (digitsOf k m).length = k := by
  induction k generalizing m with
  | zero => rfl
  | succ k ih => rw [digitsOf, List.length_append, ih, List.length_singleton]

theorem isDigit_digitsOf (k m : Nat) : ∀ b ∈ digitsOf k m, IsDigit b := by
  induction k generalizing m with
  | zero => intro b hb; cases hb
  | succ k ih =>
      intro b hb
      rw [digitsOf, List.mem_append, List.mem_singleton] at hb
      rcases hb with hb | rfl
      · exact ih (m / 10) b hb
      · exact isDigit_ofNat (by omega) (by omega)

theorem digitsValue_concat (l : List UInt8) (b : UInt8) :
    digitsValue (l ++ [b]) = 10 * digitsValue l + (b.toNat - 0x30) := by
  rw [digitsValue, List.foldl_append]
  rfl

/-- The digits of a number are read as the number, as far as they go. -/
theorem digitsValue_digitsOf (k m : Nat) : digitsValue (digitsOf k m) = m % 10 ^ k := by
  induction k generalizing m with
  | zero => rw [pow_zero, Nat.mod_one]; rfl
  | succ k ih =>
      have hlast : (UInt8.ofNat (m % 10 + 0x30)).toNat = m % 10 + 0x30 := toNat_digit (by omega)
      rw [digitsOf, digitsValue_concat, ih, hlast, Nat.add_sub_cancel, Nat.pow_succ', Nat.mod_mul,
        Nat.add_comm]

theorem digitsValue_lt (l : List UInt8) (h : ∀ b ∈ l, IsDigit b) :
    digitsValue l < 10 ^ l.length := by
  induction l using List.reverseRecOn with
  | nil => exact Nat.one_pos
  | append_singleton l b ih =>
      have hl := ih fun c hc => h c (List.mem_append_left [b] hc)
      have hb := (h b (by simp)).toNat_le
      rw [digitsValue_concat, List.length_append, List.length_singleton, Nat.pow_succ]
      omega

/-- A string of digits is the one its number is written as. -/
theorem digitsOf_digitsValue (l : List UInt8) (h : ∀ b ∈ l, IsDigit b) :
    digitsOf l.length (digitsValue l) = l := by
  induction l using List.reverseRecOn with
  | nil => rfl
  | append_singleton l b ih =>
      have hb : IsDigit b := h b (by simp)
      have hle := hb.le_toNat
      have hmax := hb.toNat_le
      have hdiv : digitsValue (l ++ [b]) / 10 = digitsValue l := by
        rw [digitsValue_concat]
        omega
      have hmod : digitsValue (l ++ [b]) % 10 + 0x30 = b.toNat := by
        rw [digitsValue_concat]
        omega
      rw [List.length_append, List.length_singleton, digitsOf, hdiv, hmod, UInt8.ofNat_toNat,
        ih fun c hc => h c (List.mem_append_left [b] hc)]

/-- The loop of `MCU_itoa` on a number that is not negative. -/
theorem mcuItoaLoop_eq (k m : Nat) (str : List UInt8) :
    mcuItoaLoop k m str = digitsOf k m ++ str := by
  induction k generalizing m str with
  | zero => rfl
  | succ k ih =>
      rw [mcuItoaLoop, digitsOf, List.append_assoc, List.singleton_append]
      split
      next hzero =>
        -- the branch for zero writes the same digit and keeps the same rest
        obtain rfl : m = 0 := Int.ofNat_eq_zero.mp hzero
        exact ih 0 _
      next =>
        have hdiv : (m : Int).tdiv 10 = ((m / 10 : Nat) : Int) := rfl
        have hmod : (m : Int).tmod 10 + 0x30 = ((m % 10 + 0x30 : Nat) : Int) := rfl
        rw [hdiv, hmod, toChar_natCast, ih]

theorem length_mcuItoaLoop (k : Nat) (n : Int) (str : List UInt8) :
    (mcuItoaLoop k n str).length = k + str.length := by
  induction k generalizing n str with
  | zero => rw [mcuItoaLoop, Nat.zero_add]
  | succ k ih =>
      rw [mcuItoaLoop]
      split
      next => rw [ih, List.length_cons, Nat.add_right_comm, Nat.add_assoc]
      next => rw [ih, List.length_cons, Nat.add_right_comm, Nat.add_assoc]

theorem length_mcuItoa (n : Int) (numChar : Nat) : (mcuItoa n numChar).length = numChar :=
  length_mcuItoaLoop numChar _ []

/-- The body of a reply is a character, four characters and a NUL. -/
theorem length_mcuInputData2Buffer (d : InputData) : (mcuInputData2Buffer d).length = 6 := by
  rw [mcuInputData2Buffer, List.length_append, List.length_append, length_mcuItoa, length_mcuItoa,
    List.length_singleton]

theorem mcuGetSendString_eq (d : InputData) :
    mcuGetSendString d = mcuItoa 10 4 ++ mcuInputData2Buffer d := by
  have hlen := length_mcuInputData2Buffer d
  rw [mcuGetSendString, hlen]
  rfl

theorem mcuItoaBound_eq (k : Nat) : mcuItoaBound k = ((10 ^ k : Nat) : Int) := by
  induction k with
  | zero => rfl
  | succ k ih =>
      rw [mcuItoaBound, ih, Nat.pow_succ, Int.natCast_mul]
      rfl

theorem mcuItoa_eq (m numChar : Nat) :
    mcuItoa m numChar = digitsOf numChar (m % 10 ^ numChar) := by
  rw [mcuItoa, mcuItoaBound_eq, ← Int.ofNat_tmod, mcuItoaLoop_eq, List.append_nil]

-- ============================================================================
-- In memory
-- ============================================================================

/-- The value of an `int` expression; overflow is undefined. -/
def checkedInt (x : Int) : Option Int :=
  if -2147483648 ≤ x ∧ x ≤ 2147483647 then some x else none

theorem checkedInt_of_lt {m : Nat} (h : m < 2147483648) : checkedInt m = some (m : Int) :=
  if_pos (by omega)

namespace Memory

variable {N : Nat}

/-- The loop `tmp *= 10` of `MCU_itoa`. -/
def mcuItoaTmp : Nat → Option Int
  | 0 => some 1
  | numChar + 1 => (mcuItoaTmp numChar).bind fun tmp => checkedInt (tmp * 10)

/-- The loop of `MCU_itoa` over `str = &buf[off]`, with `tmp + 1` characters to
    go; `none` where it stores behind the array. -/
def mcuItoaLoop (buf : CBuffer UInt8 N) (off : Nat) : Nat → Int → Option (CBuffer UInt8 N)
  | 0, _ => some buf
  | tmp + 1, n =>
      if off + tmp < N then
        if n = 0 then mcuItoaLoop (buf.setCell (off + tmp) 0x30) off tmp n
        else mcuItoaLoop (buf.setCell (off + tmp) (toChar (n.tmod 10 + 0x30))) off tmp (n.tdiv 10)
      else none

/-- `MCU_itoa(n, &buf[off], numChar)`. -/
def mcuItoa (n : Int) (buf : CBuffer UInt8 N) (off numChar : Nat) : Option (CBuffer UInt8 N) :=
  (mcuItoaTmp numChar).bind fun tmp => mcuItoaLoop buf off numChar (n.tmod tmp)

/-- The loop of `MCU_atoi`; `none` where it runs over the end of the string's
    array or an `int` overflows. -/
def mcuAtoiLoop (res : Int) : List UInt8 → Option Int
  | [] => none
  | c :: str =>
      if c = 0 then some res
      else if c < 0x30 ∨ 0x39 < c then some (-1)
      else
        (checkedInt (res * 10)).bind fun tens =>
          (checkedInt (tens + c.toNat)).bind fun sum => mcuAtoiLoop (sum - 0x30) str

/-- `MCU_atoi`. -/
def mcuAtoi (str : List UInt8) : Option Int := mcuAtoiLoop 0 str

/-- `buf[i] = c`. -/
def store (buf : CBuffer UInt8 N) (i : Nat) (c : UInt8) : Option (CBuffer UInt8 N) :=
  if i < N then some (buf.setCell i c) else none

/-- `MCU_InputData2Buffer(pInputData, &buf[off])`: the returned length and the
    array. -/
def mcuInputData2Buffer (pInputData : InputData) (buf : CBuffer UInt8 N) (off : Nat) :
    Option (Nat × CBuffer UInt8 N) :=
  (mcuItoa pInputData.triggerBackup.toNat buf off 1).bind fun buf =>
    let i := 1
    (mcuItoa pInputData.click buf (off + i) 4).bind fun buf =>
      let i := i + 4
      (store buf (off + i) 0).map fun buf => (i + 1, buf)

/-- `MCU_GetSendString(buf)`. -/
def mcuGetSendString (pInputData : InputData) (buf : CBuffer UInt8 N) :
    Option (Nat × CBuffer UInt8 N) :=
  (mcuInputData2Buffer pInputData buf 4).bind fun body =>
    let numByte := body.1 + 4
    (mcuItoa numByte body.2 0 4).map fun buf => (numByte, buf)

-- ============================================================================
-- The functions in memory refine the ones on lists
-- ============================================================================

/-- Nine factors of ten fit an `int`. -/
theorem mcuItoaTmp_eq {numChar : Nat} (h : numChar ≤ 9) :
    mcuItoaTmp numChar = some (mcuItoaBound numChar) := by
  have hall : ∀ k ≤ 9, mcuItoaTmp k = some (mcuItoaBound k) := by decide
  exact hall numChar h

/-- The loop of `MCU_itoa` over an array that already holds the last characters
    `str` of the field. -/
theorem mcuItoaLoop_stores (buf : CBuffer UInt8 N) (off : Nat) (n : Int) (str : List UInt8)
    {k : Nat} (hfit : off + k + str.length ≤ N) :
    mcuItoaLoop (buf.memcpy (off + k) str) off k n
      = some (buf.memcpy off (Mcu.mcuItoaLoop k n str)) := by
  induction k generalizing n str with
  | zero => rfl
  | succ k ih =>
      have hstep (c : UInt8) :
          (buf.memcpy (off + (k + 1)) str).setCell (off + k) c =
            buf.memcpy (off + k) (c :: str) := by
        have hmeet : off + k + ([c] ++ str).length ≤ N := by
          simp only [List.singleton_append, List.length_cons]
          omega
        rw [CBuffer.setCell_eq_memcpy _ (by omega)]
        exact (buf.memcpy_append hmeet).2
      have hrest (c : UInt8) : off + k + (c :: str).length ≤ N := by
        rw [List.length_cons]
        omega
      rw [mcuItoaLoop, if_pos (by omega), Mcu.mcuItoaLoop]
      split
      next => rw [hstep, ih n _ (hrest _)]
      next => rw [hstep, ih (n.tdiv 10) _ (hrest _)]

/-- `MCU_itoa` stores its characters from `str` on and nothing else. -/
theorem mcuItoa_stores (n : Int) (buf : CBuffer UInt8 N) {off numChar : Nat} (hchar : numChar ≤ 9)
    (hfit : off + numChar ≤ N) :
    mcuItoa n buf off numChar = some (buf.memcpy off (Mcu.mcuItoa n numChar)) := by
  rw [mcuItoa, mcuItoaTmp_eq hchar, Option.bind_some]
  have hloop := mcuItoaLoop_stores buf off (n.tmod (mcuItoaBound numChar)) [] hfit
  rwa [buf.memcpy_nil hfit] at hloop

/-- `MCU_atoi` of up to nine digits does not overflow. -/
theorem mcuAtoiLoop_digits (l : List UInt8) (res k : Nat) (h : ∀ b ∈ l, IsDigit b)
    (hres : res < 10 ^ k) (hk : k + l.length ≤ 9) :
    mcuAtoiLoop res (l ++ [0])
      = some ((l.foldl (fun v b => 10 * v + (b.toNat - 0x30)) res : Nat) : Int) := by
  induction l generalizing res k with
  | nil => rfl
  | cons b l ih =>
      have hb : IsDigit b := h b List.mem_cons_self
      have hle := hb.le_toNat
      have hmax := hb.toNat_le
      rw [List.length_cons] at hk
      -- the accumulator has at most eight digits before this one
      have hsmall : (10 : Nat) ^ k ≤ 10 ^ 8 := Nat.pow_le_pow_right (by decide) (by omega)
      have hres' : res < 100000000 := Nat.lt_of_lt_of_le hres hsmall
      have hnext : 10 * res + (b.toNat - 0x30) < 10 ^ (k + 1) := by
        rw [Nat.pow_succ]
        omega
      have htens : checkedInt ((res : Int) * 10) = some ((10 * res : Nat) : Int) := by
        rw [Int.mul_comm]
        exact checkedInt_of_lt (m := 10 * res) (by omega)
      have hsum : checkedInt (((10 * res : Nat) : Int) + b.toNat)
          = some ((10 * res + b.toNat : Nat) : Int) :=
        checkedInt_of_lt (m := 10 * res + b.toNat) (by omega)
      have hacc : ((10 * res + b.toNat : Nat) : Int) - 0x30
          = ((10 * res + (b.toNat - 0x30) : Nat) : Int) := by omega
      rw [List.cons_append, mcuAtoiLoop, if_neg hb.ne_zero, if_neg hb, htens, Option.bind_some,
        hsum, Option.bind_some, hacc,
        ih _ (k + 1) (fun c hc => h c (List.mem_cons_of_mem b hc)) hnext (by omega)]
      rfl

theorem mcuAtoi_digits {l : List UInt8} (h : ∀ b ∈ l, IsDigit b) (hlen : l.length ≤ 9) :
    mcuAtoi (l ++ [0]) = some (digitsValue l : Int) :=
  mcuAtoiLoop_digits l 0 0 h Nat.one_pos (by omega)

/-- The body behind the header, as one copy. -/
theorem mcuInputData2Buffer_stores (pInputData : InputData) (buf : CBuffer UInt8 N) {off : Nat}
    (hfit : off + 6 ≤ N) :
    mcuInputData2Buffer pInputData buf off
      = some (6, buf.memcpy off (Mcu.mcuInputData2Buffer pInputData)) := by
  have hbody : off + (Mcu.mcuInputData2Buffer pInputData).length ≤ N := by
    rw [length_mcuInputData2Buffer]
    exact hfit
  have hfields : off + (Mcu.mcuItoa pInputData.triggerBackup.toNat 1
      ++ Mcu.mcuItoa pInputData.click 4).length ≤ N := by
    rw [List.length_append, length_mcuItoa, length_mcuItoa]
    omega
  have hmeet := (buf.memcpy_append hfields).1
  have hmeet' := (buf.memcpy_append hbody).1
  rw [length_mcuItoa] at hmeet
  rw [List.length_append, length_mcuItoa, length_mcuItoa] at hmeet'
  rw [mcuInputData2Buffer, mcuItoa_stores _ _ (by decide) (by omega), Option.bind_some]
  dsimp only
  rw [mcuItoa_stores _ _ (by decide) (by omega), Option.bind_some, hmeet, store,
    if_pos (by omega), CBuffer.setCell_eq_memcpy _ (by omega), hmeet']
  rfl

/-- `MCU_GetSendString` stores the reply at the front of the array. -/
theorem mcuGetSendString_stores (pInputData : InputData) (buf : CBuffer UInt8 N) (hfit : 10 ≤ N) :
    mcuGetSendString pInputData buf
      = some (10, buf.memcpy 0 (Mcu.mcuGetSendString pInputData)) := by
  have hreply : 0 + (Mcu.mcuItoa 10 4 ++ Mcu.mcuInputData2Buffer pInputData).length ≤ N := by
    rw [List.length_append, length_mcuItoa, length_mcuInputData2Buffer]
    omega
  have hmeet := (buf.memcpy_append hreply).2
  rw [length_mcuItoa] at hmeet
  rw [mcuGetSendString, mcuInputData2Buffer_stores _ _ (by omega), Option.bind_some]
  dsimp only
  rw [mcuItoa_stores _ _ (by decide) (by omega), mcuGetSendString_eq, ← hmeet]
  rfl

end Memory

-- ============================================================================
-- Encoding and decoding
-- ============================================================================

/-- `MCU_atoi` of `MCU_itoa`: the lowest digits of a number. -/
theorem mcuAtoi_mcuItoa (m : Nat) {w : Nat} (hw : w ≤ 9) :
    Memory.mcuAtoi (mcuItoa m w ++ [0]) = some ((m % 10 ^ w : Nat) : Int) := by
  rw [mcuItoa_eq, Memory.mcuAtoi_digits (isDigit_digitsOf _ _) (by rwa [length_digitsOf]),
    digitsValue_digitsOf, Nat.mod_mod]

/-- `MCU_itoa` of `MCU_atoi`: a string of digits comes back. -/
theorem mcuItoa_digitsValue {l : List UInt8} (h : ∀ b ∈ l, IsDigit b) :
    mcuItoa (digitsValue l) l.length = l := by
  rw [mcuItoa_eq, Nat.mod_eq_of_lt (digitsValue_lt l h), digitsOf_digitsValue l h]

/-- **The reply is self-describing.**  `MCU_itoa` of a number that is not negative
    stores `w` digits and nothing else, and `MCU_atoi` reads them as the number
    modulo `10 ^ w`; a string of `w` digits comes back from its number; and
    `MCU_GetSendString` returns the number of bytes it stores, which the first
    four of them spell, before the fields. -/
theorem reply_decodable {N : Nat} (s : CBuffer UInt8 N) (off w : Nat) (hw : w ≤ 9)
    (hfit : off + w ≤ N) (n : Int) (hn : 0 ≤ n) (str : List UInt8)
    (hstr : ∀ b ∈ str, IsDigit b) (hlen : str.length = w) {M : Nat} (pInputBuf : CBuffer UInt8 M)
    (hbuf : 10 ≤ M) (pInputData : InputData) (hclick : 0 ≤ pInputData.click) :
    (∃ digits, Memory.mcuItoa n s off w = some (s.memcpy off digits) ∧ digits.length = w ∧
      (∀ b ∈ digits, IsDigit b) ∧ Memory.mcuAtoi (digits ++ [0]) = some (n % 10 ^ w)) ∧
    (∃ v, Memory.mcuAtoi (str ++ [0]) = some v ∧
      Memory.mcuItoa v s off w = some (s.memcpy off str)) ∧
    (∃ header trigger click, Memory.mcuGetSendString pInputData pInputBuf
        = some (10, pInputBuf.memcpy 0 (header ++ trigger ++ click ++ [0])) ∧
      header.length = 4 ∧ trigger.length = 1 ∧ click.length = 4 ∧
      Memory.mcuAtoi (header ++ [0]) = some 10 ∧
      Memory.mcuAtoi (trigger ++ [0]) = some (pInputData.triggerBackup.toNat % 10) ∧
      Memory.mcuAtoi (click ++ [0]) = some (pInputData.click % 10 ^ 4)) := by
  obtain ⟨m, rfl⟩ := Int.eq_ofNat_of_zero_le hn
  obtain ⟨c, hc⟩ := Int.eq_ofNat_of_zero_le hclick
  subst hlen
  refine ⟨⟨mcuItoa m str.length, ?_, ?_, ?_, ?_⟩, ⟨digitsValue str, ?_, ?_⟩,
    ⟨mcuItoa 10 4, mcuItoa pInputData.triggerBackup.toNat 1, mcuItoa pInputData.click 4,
      ?_, ?_, ?_, ?_, ?_, ?_, ?_⟩⟩
  · exact Memory.mcuItoa_stores m s hw hfit
  · exact length_mcuItoa m str.length
  · rw [mcuItoa_eq]
    exact isDigit_digitsOf _ _
  · rw [mcuAtoi_mcuItoa m hw]
    rfl
  · exact Memory.mcuAtoi_digits hstr hw
  · rw [Memory.mcuItoa_stores _ s hw hfit, mcuItoa_digitsValue hstr]
  · rw [Memory.mcuGetSendString_stores _ _ hbuf, mcuGetSendString_eq, mcuInputData2Buffer,
      List.append_assoc, List.append_assoc, List.append_assoc]
  · exact length_mcuItoa 10 4
  · exact length_mcuItoa _ 1
  · exact length_mcuItoa _ 4
  · exact mcuAtoi_mcuItoa 10 (by decide)
  · exact mcuAtoi_mcuItoa _ (by decide)
  · rw [hc]
    exact mcuAtoi_mcuItoa c (by decide)

/-- 12345 in four characters, the string "0070", and a reply with click 10042. -/
theorem reply_decodable_sample :
    let s : CBuffer UInt8 8 := CBuffer.fill 8 0x58
    let pInputBuf : CBuffer UInt8 12 := CBuffer.fill 12 0x58
    (∃ digits, Memory.mcuItoa 12345 s 2 4 = some (s.memcpy 2 digits) ∧ digits.length = 4 ∧
      (∀ b ∈ digits, IsDigit b) ∧ Memory.mcuAtoi (digits ++ [0]) = some 2345) ∧
    (∃ v, Memory.mcuAtoi [0x30, 0x30, 0x37, 0x30, 0] = some v ∧
      Memory.mcuItoa v s 2 4 = some (s.memcpy 2 [0x30, 0x30, 0x37, 0x30])) ∧
    (∃ header trigger click, Memory.mcuGetSendString ⟨2, 10042⟩ pInputBuf
        = some (10, pInputBuf.memcpy 0 (header ++ trigger ++ click ++ [0])) ∧
      header.length = 4 ∧ trigger.length = 1 ∧ click.length = 4 ∧
      Memory.mcuAtoi (header ++ [0]) = some 10 ∧ Memory.mcuAtoi (trigger ++ [0]) = some 2 ∧
      Memory.mcuAtoi (click ++ [0]) = some 42) := by
  have hstr : ∀ b ∈ ([0x30, 0x30, 0x37, 0x30] : List UInt8), IsDigit b := by
    simp only [List.forall_mem_cons, List.not_mem_nil, false_imp_iff, implies_true, and_true]
    decide
  exact reply_decodable (CBuffer.fill 8 0x58) 2 4 (by decide) (by decide) 12345 (by decide)
    [0x30, 0x30, 0x37, 0x30] hstr rfl (CBuffer.fill 12 0x58) (by decide) ⟨2, 10042⟩ (by decide)

end McuFirmware.Mcu
