/-
  McuFirmware.Usart.Line

  The receive interrupt of USART1 (`BSP/USART/usart1.c`).

  `USART1_RX_STA` packs the number of buffered bytes (bits 13..0), the flag of a
  pending CR (bit 14) and the flag of a complete line (bit 15).  An `Assembly` is
  what these stand for, a line and its phase, and `holds_byte` shows that the
  handler does to the words what `Assembly.next` does to the line.  `ReceivedIn`
  says where the line lies in the bytes received so far.
-/

import Mathlib.Data.List.Induction
import McuFirmware.Lib.CBuffer
import McuFirmware.Lib.Run

namespace McuFirmware.Usart

open McuFirmware.Lib

/-- `USART1_REC_LEN`. -/
def usart1RecLen : Nat := 200

/-- `USART1_RX_BUF` and `USART1_RX_STA`. -/
structure Usart1 where
  rxBuf : CBuffer UInt8 usart1RecLen
  rxSta : UInt16

namespace Usart1

/-- `USART1_IRQHandler` for the byte `res`; `none` where it stores behind the
    buffer. -/
def irqHandler (u : Usart1) (res : UInt8) : Option Usart1 :=
  if u.rxSta &&& 0x8000 = 0 then
    if u.rxSta &&& 0x4000 ≠ 0 then
      if res ≠ 0x0a then some { u with rxSta := 0 }
      else some { u with rxSta := u.rxSta ||| 0x8000 }
    else if res = 0x0d then some { u with rxSta := u.rxSta ||| 0x4000 }
    else
      let index := (u.rxSta &&& 0x3FFF).toNat
      if index < usart1RecLen then
        let sta := u.rxSta + 1
        some ⟨u.rxBuf.setCell index res, if usart1RecLen - 1 < sta.toNat then 0 else sta⟩
      else none
  else some u

/-- Bits 13..0. -/
def count (u : Usart1) : Nat := (u.rxSta &&& 0x3FFF).toNat

/-- Bit 14. -/
def CrSeen (u : Usart1) : Prop := u.rxSta &&& 0x4000 ≠ 0

/-- Bit 15. -/
def Complete (u : Usart1) : Prop := u.rxSta &&& 0x8000 ≠ 0

/-- The buffered bytes. -/
def line (u : Usart1) : List UInt8 := u.rxBuf.firstCells u.count

end Usart1

inductive Input where
  | byte (b : UInt8)
  /-- the consumer writes 0 to `USART1_RX_STA` -/
  | consume

def step : Option Usart1 → Input → Option Usart1
  | none, _ => none
  | some u, .byte b => u.irqHandler b
  | some u, .consume => some { u with rxSta := 0 }

/-- The bytes received, whether they were stored or not. -/
def received : List Input → List UInt8
  | [] => []
  | .byte b :: xs => b :: received xs
  | .consume :: xs => received xs

theorem received_concat_byte (xs : List Input) (b : UInt8) :
    received (xs ++ [.byte b]) = received xs ++ [b] := by
  induction xs with
  | nil => rfl
  | cons x xs ih => cases x <;> simp only [List.cons_append, received, ih]

-- ============================================================================
-- The status word
-- ============================================================================

inductive Phase where
  | filling
  | crSeen
  | complete
deriving DecidableEq

/-- The status word of a phase with `n` buffered bytes. -/
def Phase.sta (n : Nat) : Phase → UInt16
  | .filling => UInt16.ofNat n
  | .crSeen => UInt16.ofNat n ||| 0x4000
  | .complete => UInt16.ofNat n ||| 0x4000 ||| 0x8000

/-- The flags and the count do not overlap. -/
theorem sta_fields : ∀ n < 200, ∀ ph : Phase,
    (ph.sta n &&& 0x8000 ≠ 0 ↔ ph = .complete) ∧ (ph.sta n &&& 0x4000 ≠ 0 ↔ ph ≠ .filling) ∧
      (ph.sta n &&& 0x3FFF).toNat = n := by
  have hbits : ∀ n < 200,
      (Phase.sta n .filling &&& 0x8000 = 0 ∧ Phase.sta n .filling &&& 0x4000 = 0 ∧
        (Phase.sta n .filling &&& 0x3FFF).toNat = n) ∧
      (Phase.sta n .crSeen &&& 0x8000 = 0 ∧ Phase.sta n .crSeen &&& 0x4000 ≠ 0 ∧
        (Phase.sta n .crSeen &&& 0x3FFF).toNat = n) ∧
      (Phase.sta n .complete &&& 0x8000 ≠ 0 ∧ Phase.sta n .complete &&& 0x4000 ≠ 0 ∧
        (Phase.sta n .complete &&& 0x3FFF).toNat = n) := by
    decide +kernel
  intro n hn ph
  obtain ⟨⟨hf15, hf14, hf⟩, ⟨hc15, hc14, hc⟩, hd15, hd14, hd⟩ := hbits n hn
  cases ph with
  | filling => simp [hf15, hf14, hf]
  | crSeen => simp [hc15, hc14, hc]
  | complete => simp [hd15, hd14, hd]

-- ============================================================================
-- Lines
-- ============================================================================

/-- A line and how far it has come. -/
structure Assembly where
  phase : Phase
  line : List UInt8

/-- No byte of a line is known. -/
def Assembly.empty : Assembly := ⟨.filling, []⟩

/-- What the next byte makes of a line. -/
def Assembly.next (a : Assembly) (b : UInt8) : Assembly :=
  match a.phase with
  | .complete => a
  | .crSeen => if b = 0x0a then ⟨.complete, a.line⟩ else .empty
  | .filling =>
      if b = 0x0d then ⟨.crSeen, a.line⟩
      else if a.line.length + 1 < usart1RecLen then ⟨.filling, a.line ++ [b]⟩
      else .empty

/-- What an input makes of a line. -/
def Assembly.step (a : Assembly) : Input → Assembly
  | .byte b => a.next b
  | .consume => .empty

/-- The line lies at the end of the bytes received, in front of the pending CR,
    or in front of the CR LF that completed it. -/
def Assembly.ReceivedIn (bs : List UInt8) (a : Assembly) : Prop :=
  match a.phase with
  | .filling => a.line <:+ bs
  | .crSeen => a.line ++ [0x0d] <:+ bs
  | .complete => ∃ rest, a.line ++ [0x0d, 0x0a] ++ rest <:+ bs

theorem next_filling {l : List UInt8} {b : UInt8} (hb : b ≠ 0x0d) :
    Assembly.next ⟨.filling, l⟩ b
      = ⟨.filling, if l.length + 1 < usart1RecLen then l ++ [b] else []⟩ := by
  simp only [Assembly.next, if_neg hb]
  split <;> rfl

theorem receivedIn_empty (bs : List UInt8) : Assembly.empty.ReceivedIn bs := List.nil_suffix

theorem suffix_concat {l bs : List UInt8} (h : l <:+ bs) (b : UInt8) : l ++ [b] <:+ bs ++ [b] := by
  obtain ⟨pre, rfl⟩ := h
  exact ⟨pre, (List.append_assoc pre l [b]).symm⟩

/-- An LF behind the pending CR. -/
theorem suffix_crlf {l bs : List UInt8} (h : l ++ [0x0d] <:+ bs) :
    l ++ [0x0d, 0x0a] <:+ bs ++ [0x0a] := by
  have hlf := suffix_concat h 0x0a
  rw [List.append_assoc] at hlf
  exact hlf

theorem receivedIn_next {a : Assembly} {bs : List UInt8} (h : a.ReceivedIn bs) (b : UInt8) :
    (a.next b).ReceivedIn (bs ++ [b]) := by
  obtain ⟨phase, l⟩ := a
  cases phase with
  | complete =>
      obtain ⟨rest, hrest⟩ := h
      refine ⟨rest ++ [b], ?_⟩
      rw [← List.append_assoc]
      exact suffix_concat hrest b
  | crSeen =>
      simp only [Assembly.next]
      by_cases hb : b = 0x0a
      · rw [if_pos hb, hb]
        refine ⟨[], ?_⟩
        rw [List.append_nil]
        exact suffix_crlf h
      · rw [if_neg hb]
        exact receivedIn_empty _
  | filling =>
      simp only [Assembly.next]
      by_cases hb : b = 0x0d
      · rw [if_pos hb, hb]
        exact suffix_concat h 0x0d
      · rw [if_neg hb]
        split
        · exact suffix_concat h b
        · exact receivedIn_empty _

/-- A line becomes complete with the LF behind its CR, and in no other way. -/
theorem next_complete_iff {a : Assembly} (hopen : a.phase ≠ .complete) (b : UInt8) :
    (a.next b).phase = .complete ↔ a.phase ≠ .filling ∧ b = 0x0a := by
  obtain ⟨phase, l⟩ := a
  cases phase with
  | complete => exact absurd rfl hopen
  | crSeen =>
      simp only [Assembly.next]
      by_cases hb : b = 0x0a
      · simp [hb]
      · simp [hb, Assembly.empty]
  | filling =>
      simp only [Assembly.next]
      split
      · simp
      · split <;> simp [Assembly.empty]

/-- The completed line is the one whose CR was pending. -/
theorem next_of_completed {a : Assembly} {b : UInt8} (hopen : a.phase ≠ .complete)
    (hdone : (a.next b).phase = .complete) : a.phase = .crSeen ∧ (a.next b).line = a.line := by
  obtain ⟨hcr, rfl⟩ := (next_complete_iff hopen b).mp hdone
  obtain ⟨phase, l⟩ := a
  cases phase with
  | complete => exact absurd rfl hopen
  | crSeen => exact ⟨rfl, rfl⟩
  | filling => exact absurd rfl hcr

-- ============================================================================
-- The line a state stands for
-- ============================================================================

/-- The status word and the buffer stand for the line `a`. -/
structure Holds (u : Usart1) (a : Assembly) : Prop where
  sta : u.rxSta = a.phase.sta a.line.length
  stored : u.rxBuf.firstCells a.line.length = a.line
  short : a.line.length < usart1RecLen
  noCr : 0x0d ∉ a.line

section Holds

variable {u : Usart1} {a : Assembly} {l : List UInt8}

theorem Holds.complete_iff (h : Holds u a) : u.Complete ↔ a.phase = .complete := by
  rw [Usart1.Complete, h.sta]
  exact (sta_fields a.line.length h.short a.phase).1

theorem Holds.crSeen_iff (h : Holds u a) : u.CrSeen ↔ a.phase ≠ .filling := by
  rw [Usart1.CrSeen, h.sta]
  exact (sta_fields a.line.length h.short a.phase).2.1

theorem Holds.count_eq (h : Holds u a) : u.count = a.line.length := by
  rw [Usart1.count, h.sta]
  exact (sta_fields a.line.length h.short a.phase).2.2

theorem Holds.line_eq (h : Holds u a) : u.line = a.line := by
  rw [Usart1.line, h.count_eq, h.stored]

/-- A status of 0 stands for the empty line, whatever is in the buffer. -/
theorem holds_empty (buf : CBuffer UInt8 usart1RecLen) : Holds ⟨buf, 0⟩ .empty :=
  ⟨rfl, rfl, by decide, List.not_mem_nil⟩

/-- A complete line is left alone. -/
theorem irqHandler_complete (h : u.Complete) (b : UInt8) : u.irqHandler b = some u := by
  rw [Usart1.irqHandler, if_neg h]

/-- Behind a CR an LF completes the line, any other byte discards it. -/
theorem irqHandler_crSeen (hopen : ¬ u.Complete) (hcr : u.CrSeen) (b : UInt8) :
    u.irqHandler b
      = some (if b = 0x0a then { u with rxSta := u.rxSta ||| 0x8000 }
          else { u with rxSta := 0 }) := by
  have hflag : u.rxSta &&& 0x4000 ≠ 0 := hcr
  rw [Usart1.irqHandler, if_pos (not_not.mp hopen), if_pos hflag]
  by_cases hb : b = 0x0a
  · rw [if_neg (not_not.mpr hb), if_pos hb]
  · rw [if_pos hb, if_neg hb]

/-- A CR is noted; any other byte is stored, and the 200th starts a new line. -/
theorem irqHandler_filling (h : Holds u ⟨.filling, l⟩) (b : UInt8) :
    u.irqHandler b
      = some (if b = 0x0d then { u with rxSta := u.rxSta ||| 0x4000 }
          else ⟨u.rxBuf.setCell l.length b,
            if l.length + 1 < usart1RecLen then Phase.sta (l.length + 1) .filling else 0⟩) := by
  have hopen : ¬ u.Complete := fun hset => nomatch h.complete_iff.mp hset
  have hcr : ¬ u.rxSta &&& 0x4000 ≠ 0 := fun hset => h.crSeen_iff.mp hset rfl
  have hcount : (u.rxSta &&& 0x3FFF).toNat = l.length := h.count_eq
  have hnext : u.rxSta + 1 = Phase.sta (l.length + 1) .filling := by
    rw [h.sta]
    exact (UInt16.ofNat_add l.length 1).symm
  have hshort : l.length < 200 := h.short
  have hindex : l.length < usart1RecLen := h.short
  have htoNat : (Phase.sta (l.length + 1) .filling).toNat = l.length + 1 := by
    rw [Phase.sta, UInt16.toNat_ofNat']
    omega
  rw [Usart1.irqHandler, if_pos (not_not.mp hopen), if_neg hcr]
  by_cases hb : b = 0x0d
  · rw [if_pos hb, if_pos hb]
  · simp only [if_neg hb, hcount, hnext, htoNat, if_pos hindex]
    by_cases hfull : l.length + 1 < usart1RecLen
    · rw [if_neg (by simp only [usart1RecLen] at hfull ⊢; omega), if_pos hfull]
    · rw [if_pos (by simp only [usart1RecLen] at hfull ⊢; omega), if_neg hfull]

/-- **One byte.**  The handler takes the line one byte further and stores inside
    the buffer. -/
theorem holds_byte (h : Holds u a) (b : UInt8) :
    ∃ u', u.irqHandler b = some u' ∧ Holds u' (a.next b) := by
  obtain ⟨phase, l⟩ := a
  cases phase with
  | complete => exact ⟨u, irqHandler_complete (h.complete_iff.mpr rfl) b, h⟩
  | crSeen =>
      have hopen : ¬ u.Complete := fun hset => nomatch h.complete_iff.mp hset
      have hcr : u.CrSeen := h.crSeen_iff.mpr (fun hf => nomatch hf)
      refine ⟨_, irqHandler_crSeen hopen hcr b, ?_⟩
      simp only [Assembly.next]
      by_cases hb : b = 0x0a
      · rw [if_pos hb, if_pos hb]
        refine ⟨?_, h.stored, h.short, h.noCr⟩
        change u.rxSta ||| 0x8000 = _
        rw [h.sta]
        rfl
      · rw [if_neg hb, if_neg hb]
        exact holds_empty u.rxBuf
  | filling =>
      refine ⟨_, irqHandler_filling h b, ?_⟩
      simp only [Assembly.next]
      by_cases hb : b = 0x0d
      · rw [if_pos hb, if_pos hb]
        refine ⟨?_, h.stored, h.short, h.noCr⟩
        change u.rxSta ||| 0x4000 = _
        rw [h.sta]
        rfl
      · rw [if_neg hb, if_neg hb]
        by_cases hfull : l.length + 1 < usart1RecLen
        · rw [if_pos hfull, if_pos hfull]
          have hlen : (l ++ [b]).length = l.length + 1 := List.length_append
          refine ⟨?_, ?_, ?_, ?_⟩
          · rw [hlen]
          · rw [hlen, CBuffer.firstCells_setCell _ h.short, h.stored]
          · rw [hlen]
            exact hfull
          · rw [List.mem_append, List.mem_singleton]
            rintro (hmem | heq)
            · exact h.noCr hmem
            · exact hb heq.symm
        · rw [if_neg hfull, if_neg hfull]
          exact holds_empty _

/-- **Run lemma.** -/
theorem holds_run (buf : CBuffer UInt8 usart1RecLen) (xs : List Input) :
    ∃ u, run step (some ⟨buf, 0⟩) xs = some u ∧ Holds u (run Assembly.step .empty xs) ∧
      (run Assembly.step .empty xs).ReceivedIn (received xs) := by
  induction xs using List.reverseRecOn with
  | nil => exact ⟨⟨buf, 0⟩, rfl, holds_empty buf, receivedIn_empty _⟩
  | append_singleton xs x ih =>
      obtain ⟨u, hrun, hu, hin⟩ := ih
      rw [run_concat, run_concat, hrun]
      cases x with
      | byte b =>
          obtain ⟨u', hirq, hu'⟩ := holds_byte hu b
          rw [received_concat_byte]
          exact ⟨u', hirq, hu', receivedIn_next hin b⟩
      | consume => exact ⟨{ u with rxSta := 0 }, rfl, holds_empty u.rxBuf, receivedIn_empty _⟩

/-- While no CR is pending a CR becomes pending and any other byte is buffered; the
    200th byte starts a new line. -/
theorem Holds.filled {u' : Usart1} {b : UInt8} (h : Holds u a) (h' : Holds u' (a.next b))
    (hopen : ¬ u.CrSeen) :
    (b = 0x0d → u'.CrSeen ∧ u'.line = u.line) ∧
      (b ≠ 0x0d → ¬ u'.CrSeen ∧
        u'.line = if u.count + 1 < usart1RecLen then u.line ++ [b] else []) := by
  obtain ⟨phase, l⟩ := a
  obtain rfl : phase = .filling := not_not.mp fun hne => hopen (h.crSeen_iff.mpr hne)
  rw [h'.crSeen_iff, h'.line_eq, h.line_eq, h.count_eq]
  constructor
  · rintro rfl
    exact ⟨(fun hf => nomatch hf), rfl⟩
  · intro hb
    rw [next_filling hb]
    exact ⟨not_not.mpr rfl, rfl⟩

/-- A byte other than LF behind the CR discards the line. -/
theorem Holds.discarded {u' : Usart1} {b : UInt8} (h : Holds u a) (h' : Holds u' (a.next b))
    (hcr : u.CrSeen) (hopen : ¬ u.Complete) (hb : b ≠ 0x0a) : ¬ u'.CrSeen ∧ u'.line = [] := by
  obtain ⟨phase, l⟩ := a
  rw [h.crSeen_iff] at hcr
  rw [h.complete_iff] at hopen
  rw [h'.crSeen_iff, h'.line_eq]
  cases phase with
  | filling => exact absurd rfl hcr
  | complete => exact absurd rfl hopen
  | crSeen =>
      rw [Assembly.next, if_neg hb]
      exact ⟨not_not.mpr rfl, rfl⟩

end Holds

/-- **Line assembly.**  Whatever bytes come and whenever the consumer takes a line,
    no store leaves the buffer and the words hold the line that `Assembly.step`
    assembles: at most 199 bytes without a CR, the last ones received, up to the
    pending CR or the CR LF behind them.  A byte is buffered, a CR becomes pending
    and another byte than LF behind it discards the line.  Bit 15 is set by an LF
    that directly follows the pending CR and by nothing else, and then no byte
    changes anything. -/
theorem line_assembled (buf : CBuffer UInt8 usart1RecLen) (xs : List Input) :
    ∃ u, run step (some ⟨buf, 0⟩) xs = some u ∧ Holds u (run Assembly.step .empty xs) ∧
      u.count ≤ 199 ∧ u.line.length = u.count ∧ 0x0d ∉ u.line ∧
      (¬ u.CrSeen → u.line <:+ received xs) ∧
      (u.CrSeen → ¬ u.Complete → u.line ++ [0x0d] <:+ received xs) ∧
      (u.Complete → ∃ rest, u.line ++ [0x0d, 0x0a] ++ rest <:+ received xs) ∧
      ∀ b, ∃ u', u.irqHandler b = some u' ∧
        (¬ u.CrSeen → (b = 0x0d → u'.CrSeen ∧ u'.line = u.line) ∧
          (b ≠ 0x0d → ¬ u'.CrSeen ∧
            u'.line = if u.count + 1 < usart1RecLen then u.line ++ [b] else [])) ∧
        (u.CrSeen → ¬ u.Complete → b ≠ 0x0a → ¬ u'.CrSeen ∧ u'.line = []) ∧
        (¬ u.Complete → (u'.Complete ↔ u.CrSeen ∧ b = 0x0a)) ∧
        (¬ u.Complete → u'.Complete →
          u'.line = u.line ∧ u'.line ++ [0x0d, 0x0a] <:+ received (xs ++ [.byte b])) ∧
        (u.Complete → u' = u) := by
  obtain ⟨u, hrun, h, hin⟩ := holds_run buf xs
  refine ⟨u, hrun, h, ?_⟩
  generalize run Assembly.step .empty xs = a at h hin
  have hshort : a.line.length < 200 := h.short
  obtain ⟨phase, l⟩ := a
  refine ⟨?_, ?_, ?_, ?_, ?_, ?_, fun b => ?_⟩
  · rw [h.count_eq]
    omega
  · rw [h.line_eq, h.count_eq]
  · rw [h.line_eq]
    exact h.noCr
  · rw [h.crSeen_iff, not_not, h.line_eq]
    rintro rfl
    exact hin
  · rw [h.crSeen_iff, h.complete_iff, h.line_eq]
    intro hcr hopen
    cases phase with
    | filling => exact absurd rfl hcr
    | crSeen => exact hin
    | complete => exact absurd rfl hopen
  · rw [h.complete_iff, h.line_eq]
    rintro rfl
    exact hin
  · obtain ⟨u', hirq, h'⟩ := holds_byte h b
    refine ⟨u', hirq, h.filled h', h.discarded h', ?_, ?_, ?_⟩
    · rw [h.complete_iff, h'.complete_iff, h.crSeen_iff]
      exact fun hopen => next_complete_iff hopen b
    · rw [h.complete_iff, h'.complete_iff, h'.line_eq, h.line_eq, received_concat_byte]
      intro hopen hdone
      obtain ⟨rfl, hline⟩ := next_of_completed hopen hdone
      obtain ⟨-, rfl⟩ := (next_complete_iff hopen b).mp hdone
      rw [hline]
      exact ⟨rfl, suffix_crlf hin⟩
    · intro hset
      rw [irqHandler_complete hset] at hirq
      exact (Option.some.inj hirq).symm

end McuFirmware.Usart
