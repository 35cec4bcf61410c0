/-
  McuFirmware.Sniffer.Recv

  `tcp_sniffer_recv` on a segment: at most 64 bytes of it are copied and handed
  to `MCU_ProcessRevcString`, and a reply is written for each decoded frame.

  A segment is the list of its bytes; `pbuf_copy_partial` sees only the
  concatenation of a pbuf chain.
-/

import McuFirmware.Lwip.Pbuf
import McuFirmware.Mcu.Receiver

namespace McuFirmware.Sniffer

open McuFirmware.Lib McuFirmware.Lwip McuFirmware.Mcu

/-- What the client does on a connection, in order. -/
inductive Event where
  /-- `tcp_recved(pcb, len)` -/
  | recved (len : Nat)
  /-- `outputData_MCUNetwork` was set -/
  | decoded (output : OutputData)
  /-- `tcp_write` and `tcp_output` of a reply -/
  | reply (bytes : List UInt8)
deriving DecidableEq, Repr

/-- The globals of the receiving side, with the history of the client. -/
structure Link where
  recv : Receiver
  /-- `inputData_MCUNetwork` -/
  input : InputData
  log : List Event
deriving DecidableEq

/-- `sizeof(pBuf)` of `tcp_sniffer_recv`. -/
def pBufLen : Nat := 64

/-- It is as long as the receive buffer of the frames. -/
theorem pBufLen_eq : pBufLen = revcBufLen := rfl

/-- `tcp_sniffer_recv` for a segment `p`; `none` where the receive buffer is
    overrun. -/
def tcpSnifferRecv (s : Link) (p : List UInt8) : Option Link :=
  let pBuf := pbufCopyPartial [p] pBufLen 0
  match mcuProcessRevcString s.recv pBuf with
  | none => none
  | some (true, r) =>
      some ⟨r, s.input,
        s.log ++ [.recved p.length, .decoded r.output, .reply (mcuGetSendString s.input)]⟩
  | some (false, r) => some ⟨r, s.input, s.log ++ [.recved p.length]⟩

/-- The segments of a connection, one by one. -/
def deliver (o : Option Link) (p : List UInt8) : Option Link :=
  o.bind fun s => tcpSnifferRecv s p

theorem run_deliver_none (segs : List (List UInt8)) : run deliver none segs = none := by
  induction segs with
  | nil => rfl
  | cons p segs ih => exact ih

section Recv

variable {s s' : Link} {bs p : List UInt8}

theorem pBuf_eq (p : List UInt8) : pbufCopyPartial [p] pBufLen 0 = p.take pBufLen := by
  simp [pbufCopyPartial_eq]

/-- What a segment leaves behind when the receiver then has the bytes `bs`. -/
structure Received (s : Link) (len : Nat) (bs : List UInt8) (s' : Link) : Prop where
  processed : Processed s.recv bs s'.recv
  input : s'.input = s.input
  log : s'.log = s.log ++ .recved len ::
    if Completes bs then [.decoded s'.recv.output, .reply (mcuGetSendString s.input)] else []

theorem recv_fits (h : Holds s.recv bs)
    (hfit : bs.length + (p.take pBufLen).length ≤ revcBufLen) :
    ∃ s', tcpSnifferRecv s p = some s' ∧ Received s p.length (bs ++ p.take pBufLen) s' := by
  obtain ⟨r, hr, hproc⟩ := process_fits h hfit
  by_cases hcomp : Completes (bs ++ p.take pBufLen)
  · rw [decide_eq_true hcomp] at hr
    have hstep : tcpSnifferRecv s p = some ⟨r, s.input,
        s.log ++ [.recved p.length, .decoded r.output, .reply (mcuGetSendString s.input)]⟩ := by
      simp only [tcpSnifferRecv, pBuf_eq, hr]
    exact ⟨_, hstep, hproc, rfl, by rw [if_pos hcomp]⟩
  · rw [decide_eq_false hcomp] at hr
    have hstep : tcpSnifferRecv s p = some ⟨r, s.input, s.log ++ [.recved p.length]⟩ := by
      simp only [tcpSnifferRecv, pBuf_eq, hr]
    exact ⟨_, hstep, hproc, rfl, by rw [if_neg hcomp]⟩

theorem recv_overrun (h : Holds s.recv bs)
    (hover : revcBufLen < bs.length + (p.take pBufLen).length) : tcpSnifferRecv s p = none := by
  simp only [tcpSnifferRecv, pBuf_eq, process_overrun h hover]

/-- **Inversion.**  A segment that does not overrun the buffer fits, and leaves
    what `Received` says. -/
theorem received_of_some (h : Holds s.recv bs) (hstep : tcpSnifferRecv s p = some s') :
    bs.length + (p.take pBufLen).length ≤ revcBufLen ∧
      Received s p.length (bs ++ p.take pBufLen) s' := by
  by_cases hfit : bs.length + (p.take pBufLen).length ≤ revcBufLen
  · obtain ⟨q, hq, hrecv⟩ := recv_fits h hfit
    obtain rfl : q = s' := Option.some.inj (hq.symm.trans hstep)
    exact ⟨hfit, hrecv⟩
  · rw [recv_overrun h (by omega)] at hstep
    exact absurd hstep (by simp)

/-- The history only grows. -/
theorem recv_log_grows (hstep : tcpSnifferRecv s p = some s') : ∃ es, s'.log = s.log ++ es := by
  unfold tcpSnifferRecv at hstep
  cases hproc : mcuProcessRevcString s.recv (pbufCopyPartial [p] pBufLen 0) with
  | none => simp [hproc] at hstep
  | some result =>
      obtain ⟨flag, r⟩ := result
      cases flag with
      | true =>
          simp only [hproc, Option.some.injEq] at hstep
          exact ⟨_, (congrArg Link.log hstep).symm⟩
      | false =>
          simp only [hproc, Option.some.injEq] at hstep
          exact ⟨_, (congrArg Link.log hstep).symm⟩

theorem run_deliver_cons (hstep : tcpSnifferRecv s p = some s') (segs : List (List UInt8)) :
    run deliver (some s) (p :: segs) = run deliver (some s') segs := by
  rw [run_cons, deliver, Option.bind_some, hstep]

theorem run_cons_some {segs : List (List UInt8)} (h : run deliver (some s) (p :: segs) = some s') :
    ∃ s₁, tcpSnifferRecv s p = some s₁ ∧ run deliver (some s₁) segs = some s' := by
  rw [run_cons, deliver, Option.bind_some] at h
  cases hstep : tcpSnifferRecv s p with
  | none =>
      rw [hstep, run_deliver_none] at h
      exact absurd h (by simp)
  | some s₁ =>
      rw [hstep] at h
      exact ⟨s₁, rfl, h⟩

theorem run_log_grows {segs : List (List UInt8)} (h : run deliver (some s) segs = some s') :
    ∃ es, s'.log = s.log ++ es := by
  induction segs generalizing s with
  | nil =>
      obtain rfl : s = s' := Option.some.inj h
      exact ⟨[], (List.append_nil _).symm⟩
  | cons p segs ih =>
      obtain ⟨s₁, hs₁, hrun⟩ := run_cons_some h
      obtain ⟨es, hes⟩ := recv_log_grows hs₁
      obtain ⟨fs, hfs⟩ := ih hrun
      exact ⟨es ++ fs, by rw [hfs, hes, List.append_assoc]⟩

end Recv

end McuFirmware.Sniffer
