/-
  McuFirmware.Mcu.Display

  The front panel (`MCU_Display.c`, `APP/Display/display.c`): four digits and six
  LEDs behind a TM1637, driven from what the controller last sent.

  The LEDs are bits of `led_status`, set and cleared by `display_led_ctrl`.
  `runCycle_ledStatus` says what one `MCU_DisplayRunCycle` does to that byte, and
  `run_alarms` what a whole history of frames and cycles has left in it.
-/

import McuFirmware.Lib.Bytes
import McuFirmware.Lib.Run
import McuFirmware.Mcu.Codec

namespace McuFirmware.Mcu

open McuFirmware.Lib

-- ============================================================================
-- The panel
-- ============================================================================

def led1Flag : UInt8 := 0x01
def led2Flag : UInt8 := 0x02
def led3Flag : UInt8 := 0x04
def led4Flag : UInt8 := 0x08
def led5Flag : UInt8 := 0x10
def led6Flag : UInt8 := 0x20

/-- `DIGIT_ADDR5`, the display register that drives the LEDs. -/
def digitAddr5 : UInt8 := 0xc4

/-- `led_status` and the display registers of the TM1637. -/
structure Panel where
  ledStatus : UInt8
  digits : UInt8 → UInt8

namespace Panel

/-- `TM1637_SetDigit`. -/
def tm1637SetDigit (p : Panel) (digit c : UInt8) : Panel :=
  { p with digits := fun addr => if addr = digit then c else p.digits addr }

/-- `digitCode`. -/
def digitCode : List UInt8 := [0x00, 0xc0, 0xc1, 0xc2, 0xc3]

/-- `numCode`. -/
def numCode : List UInt8 := [0x3f, 0x06, 0x5b, 0x4f, 0x66, 0x6d, 0x7d, 0x07, 0x7f, 0x6f]

/-- `display_number`. -/
def displayNumber (p : Panel) (digit num : Nat) : Panel :=
  p.tm1637SetDigit (digitCode.getD digit 0) (numCode.getD num 0)

/-- `display_num`. -/
def displayNum (p : Panel) (num : UInt16) : Panel :=
  let num := num.toNat
  if num < 10000 then
    let p := p.displayNumber 4 (num % 10)
    let p := p.displayNumber 3 (num / 10 % 10)
    let p := p.displayNumber 2 (num / 10 / 10 % 10)
    p.displayNumber 1 (num / 10 / 10 / 10 % 10)
  else p

/-- `display_led_ctrl`. -/
def displayLedCtrl (p : Panel) (led : UInt8) (on : Bool) : Panel :=
  let status := if on then p.ledStatus ||| led else p.ledStatus &&& ~~~led
  { p with ledStatus := status }.tm1637SetDigit digitAddr5 status

/-- `display_init`. -/
def displayInit (p : Panel) : Panel :=
  let p := { p with ledStatus := 0 }
  let p := p.tm1637SetDigit 0xc0 0x00
  let p := p.tm1637SetDigit 0xc1 0x00
  let p := p.tm1637SetDigit 0xc2 0x00
  let p := p.tm1637SetDigit 0xc3 0x00
  let p := p.tm1637SetDigit digitAddr5 0x00
  p.tm1637SetDigit digitAddr5 p.ledStatus

end Panel

/-- The switch of `MCU_DisplayRunCycle`. -/
def displayMode (p : Panel) (modeOfMC : UInt8) : Panel :=
  if modeOfMC = 0 then
    let p := p.displayLedCtrl led4Flag true
    let p := p.displayLedCtrl led5Flag false
    let p := p.displayLedCtrl led6Flag false
    p.displayLedCtrl led3Flag false
  else if modeOfMC = 1 then
    let p := p.displayLedCtrl led4Flag false
    let p := p.displayLedCtrl led5Flag true
    let p := p.displayLedCtrl led6Flag false
    p.displayLedCtrl led3Flag false
  else if modeOfMC = 2 then
    let p := p.displayLedCtrl led4Flag false
    let p := p.displayLedCtrl led5Flag false
    let p := p.displayLedCtrl led6Flag true
    p.displayLedCtrl led3Flag false
  else if modeOfMC = 3 then
    let p := p.displayLedCtrl led4Flag false
    let p := p.displayLedCtrl led5Flag false
    let p := p.displayLedCtrl led6Flag false
    p.displayLedCtrl led3Flag true
  else p

/-- `MCU_DisplayRunCycle`. -/
def mcuDisplayRunCycle (p : Panel) (out : OutputData) : Panel :=
  let p := displayMode p out.modeOfMC
  let p := if out.emg ≠ 0 then p.displayLedCtrl led2Flag true else p
  if 0 < out.errorNo then
    -- `display_num` takes a `u16`
    (p.displayLedCtrl led1Flag true).displayNum (UInt16.ofInt out.errorNo)
  else p

/-- The panel and `outputData_MCUNetwork`. -/
structure Display where
  panel : Panel
  out : OutputData

inductive DisplayInput where
  /-- a received frame, decoded by `MCU_SetOutputData` -/
  | frame (pBuf : List UInt8)
  /-- a call of `MCU_DisplayRunCycle` -/
  | cycle

def Display.step (d : Display) : DisplayInput → Display
  | .frame pBuf => { d with out := mcuSetOutputData pBuf }
  | .cycle => { d with panel := mcuDisplayRunCycle d.panel d.out }

/-- `outputData_MCUNetwork` before the first frame. -/
def OutputData.zero : OutputData := ⟨0, 0, 0, 0⟩

/-- The panel after `display_init`, whatever it was, beside zeroed globals. -/
def Display.start (p : Panel) : Display := ⟨p.displayInit, OutputData.zero⟩

/-- The LED register after the inputs `xs` and one more cycle. -/
def ledRegister (p : Panel) (xs : List DisplayInput) : UInt8 :=
  (run Display.step (Display.start p) (xs ++ [.cycle])).panel.digits digitAddr5

/-- `outputData_MCUNetwork` after the inputs `xs`. -/
def outputAfter (p : Panel) (xs : List DisplayInput) : OutputData :=
  (run Display.step (Display.start p) xs).out

/-- Every frame names one of the four modes. -/
def ModesKnown (xs : List DisplayInput) : Prop :=
  ∀ pBuf, DisplayInput.frame pBuf ∈ xs → (mcuSetOutputData pBuf).modeOfMC ≤ 3

-- ============================================================================
-- One cycle
-- ============================================================================

/-- The LED of a mode. -/
def modeLed (modeOfMC : UInt8) : UInt8 :=
  if modeOfMC = 0 then led4Flag
  else if modeOfMC = 1 then led5Flag
  else if modeOfMC = 2 then led6Flag
  else if modeOfMC = 3 then led3Flag
  else 0

/-- The LEDs of the two alarms. -/
def alarmLeds (emg err : Bool) : UInt8 :=
  (if emg then led2Flag else 0) ||| (if err then led1Flag else 0)

/-- Every bit but those of LED3 to LED6. -/
def alarmMask : UInt8 := ~~~(led3Flag ||| led4Flag ||| led5Flag ||| led6Flag)

/-- The emergency stop is reported. -/
def OutputData.emgOn (out : OutputData) : Bool := decide (out.emg ≠ 0)

/-- An error is reported. -/
def OutputData.errorOn (out : OutputData) : Bool := decide (0 < out.errorNo)

theorem tm1637SetDigit_digits (p : Panel) (digit c addr : UInt8) :
    (p.tm1637SetDigit digit c).digits addr = if addr = digit then c else p.digits addr := rfl

@[simp] theorem displayLedCtrl_ledStatus (p : Panel) (led : UInt8) (on : Bool) :
    (p.displayLedCtrl led on).ledStatus
      = if on then p.ledStatus ||| led else p.ledStatus &&& ~~~led := rfl

@[simp] theorem displayLedCtrl_register (p : Panel) (led : UInt8) (on : Bool) :
    (p.displayLedCtrl led on).digits digitAddr5 = (p.displayLedCtrl led on).ledStatus := rfl

/-- A digit of the number has its own register. -/
theorem displayNumber_register (p : Panel) {digit : Nat} (hdigit : digit < 5) (num : Nat) :
    (p.displayNumber digit num).digits digitAddr5 = p.digits digitAddr5 := by
  have haddr : ∀ k < 5, digitAddr5 ≠ Panel.digitCode.getD k 0 := by decide
  rw [Panel.displayNumber, tm1637SetDigit_digits, if_neg (haddr digit hdigit)]

@[simp] theorem displayNum_register (p : Panel) (num : UInt16) :
    (p.displayNum num).digits digitAddr5 = p.digits digitAddr5 := by
  simp only [Panel.displayNum]
  split
  · rw [displayNumber_register _ (by decide), displayNumber_register _ (by decide),
      displayNumber_register _ (by decide), displayNumber_register _ (by decide)]
  · rfl

@[simp] theorem displayNum_ledStatus (p : Panel) (num : UInt16) :
    (p.displayNum num).ledStatus = p.ledStatus := by
  simp only [Panel.displayNum]
  split <;> rfl

theorem mode_cases {m : UInt8} (h : m ≤ 3) : m = 0 ∨ m = 1 ∨ m = 2 ∨ m = 3 :=
  forall_uint8 (P := fun m => m ≤ 3 → m = 0 ∨ m = 1 ∨ m = 2 ∨ m = 3) (by decide +kernel) m h

/-- The switch clears the three other mode LEDs and leaves the alarms. -/
theorem displayMode_leds (p : Panel) {m : UInt8} (hm : m ≤ 3) :
    (displayMode p m).ledStatus = p.ledStatus &&& alarmMask ||| modeLed m ∧
      (displayMode p m).digits digitAddr5 = (displayMode p m).ledStatus := by
  -- the bits of the four calls, over all values of `led_status`
  have hbits : ∀ s : UInt8,
      (((s ||| led4Flag) &&& ~~~led5Flag) &&& ~~~led6Flag) &&& ~~~led3Flag
          = s &&& alarmMask ||| led4Flag ∧
      (((s &&& ~~~led4Flag) ||| led5Flag) &&& ~~~led6Flag) &&& ~~~led3Flag
          = s &&& alarmMask ||| led5Flag ∧
      (((s &&& ~~~led4Flag) &&& ~~~led5Flag) ||| led6Flag) &&& ~~~led3Flag
          = s &&& alarmMask ||| led6Flag ∧
      (((s &&& ~~~led4Flag) &&& ~~~led5Flag) &&& ~~~led6Flag) ||| led3Flag
          = s &&& alarmMask ||| led3Flag :=
    forall_uint8 (by decide +kernel)
  obtain ⟨h0, h1, h2, h3⟩ := hbits p.ledStatus
  obtain rfl | rfl | rfl | rfl := mode_cases hm
  · exact ⟨h0, rfl⟩
  · exact ⟨h1, rfl⟩
  · exact ⟨h2, rfl⟩
  · exact ⟨h3, rfl⟩

/-- One cycle: the mode's LED alone, and the alarms that are reported on top of
    those already lit. -/
theorem runCycle_leds (p : Panel) {out : OutputData} (hm : out.modeOfMC ≤ 3) :
    (mcuDisplayRunCycle p out).ledStatus
        = p.ledStatus &&& alarmMask ||| modeLed out.modeOfMC ||| alarmLeds out.emgOn out.errorOn ∧
      (mcuDisplayRunCycle p out).digits digitAddr5 = (mcuDisplayRunCycle p out).ledStatus := by
  obtain ⟨hmode, hreg⟩ := displayMode_leds p hm
  by_cases hemg : out.emg ≠ 0
  · by_cases herr : 0 < out.errorNo
    · simp [mcuDisplayRunCycle, hemg, herr, hmode, OutputData.emgOn, OutputData.errorOn, alarmLeds,
        UInt8.or_assoc]
    · simp [mcuDisplayRunCycle, hemg, herr, hmode, OutputData.emgOn, OutputData.errorOn, alarmLeds]
  · by_cases herr : 0 < out.errorNo
    · simp [mcuDisplayRunCycle, hemg, herr, hmode, OutputData.emgOn, OutputData.errorOn, alarmLeds]
    · simp [mcuDisplayRunCycle, hemg, herr, hmode, hreg, OutputData.emgOn, OutputData.errorOn,
        alarmLeds]

-- ============================================================================
-- Histories
-- ============================================================================

/-- Some cycle of `xs` ran while the controller reported `alarm`; `out` is what
    it reports first. -/
def shown (alarm : OutputData → Bool) : OutputData → List DisplayInput → Bool
  | _, [] => false
  | _, .frame pBuf :: xs => shown alarm (mcuSetOutputData pBuf) xs
  | out, .cycle :: xs => alarm out || shown alarm out xs

theorem alarmLeds_or (a b c d : Bool) :
    alarmLeds a b ||| alarmLeds c d = alarmLeds (a || c) (b || d) := by
  revert a b c d
  decide

/-- Neither the mask nor a mode touches the alarms. -/
theorem alarmMask_bits (emg err : Bool) {m : UInt8} (hm : m ≤ 3) (s : UInt8) :
    (s &&& alarmMask ||| modeLed m ||| alarmLeds emg err) &&& alarmMask
      = s &&& alarmMask ||| alarmLeds emg err := by
  have hbits : ∀ s : UInt8, ∀ a b : Bool, ∀ k < 4,
      (s &&& alarmMask ||| modeLed (UInt8.ofNat k) ||| alarmLeds a b) &&& alarmMask
        = s &&& alarmMask ||| alarmLeds a b :=
    forall_uint8 (by decide +kernel)
  have hlt : m.toNat < 4 := Nat.lt_succ_of_le (UInt8.le_iff_toNat_le.mp hm)
  have h := hbits s emg err m.toNat hlt
  rwa [UInt8.ofNat_toNat] at h

/-- **Alarms add up.**  After a history an alarm LED is lit if it was lit before
    or if any of the cycles showed it. -/
theorem run_alarms (xs : List DisplayInput) (d : Display) (hd : d.out.modeOfMC ≤ 3)
    (hxs : ModesKnown xs) :
    (run Display.step d xs).panel.ledStatus &&& alarmMask
        = d.panel.ledStatus &&& alarmMask
            ||| alarmLeds (shown OutputData.emgOn d.out xs) (shown OutputData.errorOn d.out xs) ∧
      (run Display.step d xs).out.modeOfMC ≤ 3 := by
  induction xs generalizing d with
  | nil => simpa [shown, alarmLeds] using hd
  | cons x xs ih =>
      have hrest : ModesKnown xs := fun pBuf h => hxs pBuf (List.mem_cons_of_mem x h)
      cases x with
      | frame pBuf => exact ih (d.step (.frame pBuf)) (hxs pBuf List.mem_cons_self) hrest
      | cycle =>
          obtain ⟨hbits, hmode⟩ := ih (d.step .cycle) hd hrest
          refine ⟨?_, hmode⟩
          rw [run_cons, hbits]
          change (mcuDisplayRunCycle d.panel d.out).ledStatus &&& alarmMask ||| _ = _
          rw [(runCycle_leds d.panel hd).1, alarmMask_bits _ _ hd, UInt8.or_assoc, alarmLeds_or]
          rfl

/-- The mode after a history, and the LEDs that its cycles have left lit. -/
theorem outputAfter_alarms (p : Panel) {xs : List DisplayInput} (hxs : ModesKnown xs) :
    (outputAfter p xs).modeOfMC ≤ 3 ∧
      (run Display.step (Display.start p) xs).panel.ledStatus &&& alarmMask
        = alarmLeds (shown OutputData.emgOn .zero xs) (shown OutputData.errorOn .zero xs) := by
  have hzero : OutputData.zero.modeOfMC ≤ 3 := by decide
  obtain ⟨halarms, hmode⟩ := run_alarms xs (Display.start p) hzero hxs
  have hstart : (Display.start p).panel.ledStatus = 0 := rfl
  rw [hstart, UInt8.zero_and, UInt8.zero_or] at halarms
  exact ⟨hmode, halarms⟩

/-- The register after a history and a last cycle: the mode of now, the alarms
    of any time. -/
theorem ledRegister_eq (p : Panel) {xs : List DisplayInput} (hxs : ModesKnown xs) :
    ledRegister p xs = modeLed (outputAfter p xs).modeOfMC
      ||| alarmLeds (shown OutputData.emgOn .zero xs || (outputAfter p xs).emgOn)
        (shown OutputData.errorOn .zero xs || (outputAfter p xs).errorOn) := by
  obtain ⟨hmode, halarms⟩ := outputAfter_alarms p hxs
  obtain ⟨hstatus, hreg⟩ := runCycle_leds (run Display.step (Display.start p) xs).panel hmode
  rw [ledRegister, run_concat]
  calc (mcuDisplayRunCycle _ (outputAfter p xs)).digits digitAddr5
      = alarmLeds (shown OutputData.emgOn .zero xs) (shown OutputData.errorOn .zero xs)
          ||| modeLed (outputAfter p xs).modeOfMC
          ||| alarmLeds (outputAfter p xs).emgOn (outputAfter p xs).errorOn := by
        rw [hreg, hstatus, halarms]
    _ = _ := by rw [UInt8.or_comm (alarmLeds _ _), UInt8.or_assoc, alarmLeds_or]

/-- The LED is lit. -/
def Lit (register led : UInt8) : Prop := register &&& led ≠ 0

instance (register led : UInt8) : Decidable (Lit register led) :=
  inferInstanceAs (Decidable (_ ≠ _))

/-- The register shows what the controller reports: the mode's LED among LED3 to
    LED6, LED2 for the emergency stop, LED1 for an error. -/
structure Shows (register : UInt8) (out : OutputData) : Prop where
  mode : (Lit register led4Flag ↔ out.modeOfMC = 0) ∧ (Lit register led5Flag ↔ out.modeOfMC = 1) ∧
    (Lit register led6Flag ↔ out.modeOfMC = 2) ∧ (Lit register led3Flag ↔ out.modeOfMC = 3)
  emg : Lit register led2Flag ↔ out.emg ≠ 0
  error : Lit register led1Flag ↔ 0 < out.errorNo

/-- An alarm that some cycle of `xs` showed is reported still. -/
def AlarmsStay (p : Panel) (xs : List DisplayInput) : Prop :=
  (shown OutputData.emgOn .zero xs = true → (outputAfter p xs).emg ≠ 0) ∧
    (shown OutputData.errorOn .zero xs = true → 0 < (outputAfter p xs).errorNo)

theorem lit_bits {m : UInt8} (hm : m ≤ 3) (emg err : Bool) :
    let r := modeLed m ||| alarmLeds emg err
    ((Lit r led4Flag ↔ m = 0) ∧ (Lit r led5Flag ↔ m = 1) ∧ (Lit r led6Flag ↔ m = 2) ∧
      (Lit r led3Flag ↔ m = 3)) ∧
    (Lit r led2Flag ↔ emg = true) ∧ (Lit r led1Flag ↔ err = true) := by
  revert emg err
  obtain rfl | rfl | rfl | rfl := mode_cases hm <;> decide

/-- A history shows the current state iff no alarm that it has shown is gone. -/
theorem shows_iff_alarmsStay (p : Panel) {xs : List DisplayInput} (hxs : ModesKnown xs) :
    Shows (ledRegister p xs) (outputAfter p xs) ↔ AlarmsStay p xs := by
  obtain ⟨hmode, hemg, herr⟩ := lit_bits (outputAfter_alarms p hxs).1
    (shown OutputData.emgOn .zero xs || (outputAfter p xs).emgOn)
    (shown OutputData.errorOn .zero xs || (outputAfter p xs).errorOn)
  rw [← ledRegister_eq p hxs] at hmode hemg herr
  have hemgOn : (outputAfter p xs).emgOn = true ↔ (outputAfter p xs).emg ≠ 0 := decide_eq_true_iff
  have herrOn : (outputAfter p xs).errorOn = true ↔ 0 < (outputAfter p xs).errorNo :=
    decide_eq_true_iff
  rw [Bool.or_eq_true, hemgOn] at hemg
  rw [Bool.or_eq_true, herrOn] at herr
  constructor
  · intro h
    exact ⟨fun hs => h.emg.mp (hemg.mpr (.inl hs)), fun hs => h.error.mp (herr.mpr (.inl hs))⟩
  · rintro ⟨hse, hsr⟩
    exact ⟨hmode, hemg.trans (or_iff_right_of_imp hse), herr.trans (or_iff_right_of_imp hsr)⟩

/-- Two histories that show the same state have the same register. -/
theorem ledRegister_congr (p q : Panel) {xs ys : List DisplayInput} (hxs : ModesKnown xs)
    (hys : ModesKnown ys) (hsame : outputAfter p xs = outputAfter q ys) (hx : AlarmsStay p xs)
    (hy : AlarmsStay q ys) : ledRegister p xs = ledRegister q ys := by
  have hstay {p : Panel} {zs : List DisplayInput} (hz : AlarmsStay p zs) :
      (shown OutputData.emgOn .zero zs || (outputAfter p zs).emgOn) = (outputAfter p zs).emgOn ∧
        (shown OutputData.errorOn .zero zs || (outputAfter p zs).errorOn)
          = (outputAfter p zs).errorOn := by
    simp only [Bool.or_eq_right_iff_imp]
    exact ⟨fun h => decide_eq_true (hz.1 h), fun h => decide_eq_true (hz.2 h)⟩
  rw [ledRegister_eq p hxs, ledRegister_eq q hys, (hstay hx).1, (hstay hx).2, (hstay hy).1,
    (hstay hy).2, hsame]

/-- **The panel shows the current state.**  A history of frames and cycles shows
    the state it leaves iff every alarm it has shown is still reported, and two
    such histories that leave the same state leave the same register. -/
theorem panel_shows_state (p q : Panel) (xs ys : List DisplayInput) (hxs : ModesKnown xs)
    (hys : ModesKnown ys) (hsame : outputAfter p xs = outputAfter q ys) :
    (Shows (ledRegister p xs) (outputAfter p xs) ↔ AlarmsStay p xs) ∧
      (AlarmsStay p xs → AlarmsStay q ys → ledRegister p xs = ledRegister q ys) :=
  ⟨shows_iff_alarmsStay p hxs, ledRegister_congr p q hxs hys hsame⟩

/-- A frame "0011", mode 1, with an emergency stop and error 7. -/
def alarmFrame : List UInt8 := [0x30, 0x30, 0x31, 0x31, 0x31, 0x31, 0x30, 0x30, 0x30, 0x30, 0x37]

/-- The same frame with both alarms gone. -/
def quietFrame : List UInt8 := [0x30, 0x30, 0x31, 0x31, 0x31, 0x30, 0x30, 0x30, 0x30, 0x30, 0x30]

theorem modesKnown_frames {l : List (List UInt8)} {xs : List DisplayInput}
    (hxs : ∀ pBuf, DisplayInput.frame pBuf ∈ xs → pBuf ∈ l)
    (hmode : ∀ pBuf ∈ l, (mcuSetOutputData pBuf).modeOfMC ≤ 3) : ModesKnown xs :=
  fun pBuf h => hmode pBuf (hxs pBuf h)

/-- Alarms that appear, are shown and are still there: LED1, LED2 and LED5. -/
theorem panel_shows_state_alarms :
    let xs : List DisplayInput := [.cycle, .frame quietFrame, .cycle, .frame alarmFrame, .cycle]
    let ys : List DisplayInput := [.frame alarmFrame]
    let p : Panel := ⟨0xff, fun _ => 0⟩
    (Shows (ledRegister p xs) (outputAfter p xs) ↔ AlarmsStay p xs) ∧ AlarmsStay p xs ∧
      ledRegister p xs = ledRegister p ys ∧ ledRegister p xs = 0x13 := by
  intro xs ys p
  have hx : ModesKnown xs := modesKnown_frames (l := [quietFrame, alarmFrame]) (by simp [xs])
    (by decide)
  have hy : ModesKnown ys := modesKnown_frames (l := [alarmFrame]) (by simp [ys]) (by decide)
  have hstay : AlarmsStay p xs ∧ AlarmsStay p ys := by
    unfold AlarmsStay
    decide
  obtain ⟨hiff, hcongr⟩ := panel_shows_state p p xs ys hx hy (by decide)
  exact ⟨hiff, hstay.1, hcongr hstay.1 hstay.2, by decide⟩

/-- The alarms are gone, yet LED1 and LED2 stay lit; a panel that never showed
    them has another register for the same state. -/
theorem alarm_leds_stay_lit :
    let xs : List DisplayInput := [.frame alarmFrame, .cycle, .frame quietFrame]
    let ys : List DisplayInput := [.frame quietFrame]
    let p : Panel := ⟨0, fun _ => 0⟩
    ModesKnown xs ∧ ModesKnown ys ∧ outputAfter p xs = outputAfter p ys ∧
      outputAfter p xs = ⟨1, 0, 0, 0⟩ ∧ ledRegister p xs = 0x13 ∧ ledRegister p ys = 0x10 ∧
      Lit (ledRegister p xs) led2Flag ∧ Lit (ledRegister p xs) led1Flag := by
  intro xs ys p
  refine ⟨?_, ?_, by decide⟩
  · exact modesKnown_frames (l := [alarmFrame, quietFrame]) (by simp [xs]) (by decide)
  · exact modesKnown_frames (l := [quietFrame]) (by simp [ys]) (by decide)

end McuFirmware.Mcu
