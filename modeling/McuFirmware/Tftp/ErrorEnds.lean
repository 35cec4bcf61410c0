/-
  McuFirmware.Tftp.ErrorEnds

  What follows an ERROR on a connection.

  An ERROR is on a connection from the moment its datagram is handed to
  `tftp_send_error` (or to `tftp_send_error_to`), whether or not a pbuf can be
  allocated for it, or from the moment one is received.  The events of a step
  with every `pbuf_alloc` succeeding therefore show every ERROR the step hands
  over; the allocations decide nothing else.
-/

import McuFirmware.Lib.Trace
import McuFirmware.Tftp.Server

namespace McuFirmware.Tftp

open McuFirmware.Lib McuFirmware.Lwip

/-- Every `pbuf_alloc` succeeds. -/
def Env.allocating (e : Env) : Env := { e with pbufAlloc := fun _ => true }

def Input.allocating : Input → Input
  | .datagram e p addr port => .datagram e.allocating p addr port
  | .tick e => .tick e.allocating

def Rq.allocating (r : Rq) : Rq := { r with env := { r.env with lib := r.env.lib.allocating } }

/-- An ERROR is sent or received. -/
def Event.IsError : Event → Prop
  | .sent _ _ (.error _ _) => True
  | .recv p => p.u16 0 = tftpError
  | _ => False

/-- No DATA or ACK is sent, and the file is neither read nor written. -/
def Event.Silent : Event → Prop
  | .sent _ _ (.data _ _) => False
  | .sent _ _ (.ack _) => False
  | .read _ => False
  | .write _ _ _ => False
  | _ => True

/-- Behind an ERROR every event is silent. -/
def SilentAfterError (es : List Event) : Prop :=
  EachMeets (fun before ev => (∃ x ∈ before, x.IsError) → ev.Silent) es

/-- Events without an ERROR, then silent ones. -/
theorem silentAfterError_append {es fs : List Event} (hes : ∀ ev ∈ es, ¬ ev.IsError)
    (hfs : ∀ ev ∈ fs, ev.Silent) : SilentAfterError (es ++ fs) := by
  rw [SilentAfterError, eachMeets_append]
  constructor
  · intro pre ev post heq herr
    obtain ⟨x, hx, herr⟩ := herr
    exact absurd herr (hes x (by rw [heq]; exact List.mem_append_left _ hx))
  · exact eachMeets_of_forall fun ev hev _ _ => hfs ev hev

theorem silentAfterError_of_silent {es : List Event} (h : ∀ ev ∈ es, ev.Silent) :
    SilentAfterError es :=
  eachMeets_of_forall fun ev hev _ _ => h ev hev

theorem silentAfterError_of_no_error {es : List Event} (h : ∀ ev ∈ es, ¬ ev.IsError) :
    SilentAfterError es := by
  rw [← List.append_nil es]
  exact silentAfterError_append h (List.forall_mem_nil _)

namespace Conn

variable {c : Conn}

/-- Whatever still reaches the connection, it sends no DATA or ACK and does not
    touch its file. -/
def Quiet (c : Conn) : Prop :=
  ∀ js, ∃ es, (run Conn.step c js).log = c.log ++ es ∧ ∀ ev ∈ es, ev.Silent

theorem run_of_dead (h : c.Dead) (js : List Input) : run Conn.step c js = c := by
  induction js with
  | nil => rfl
  | cons j js ih => rw [run_cons, step_of_dead h, ih]

theorem quiet_of_dead (h : c.Dead) : c.Quiet := by
  intro js
  refine ⟨[], ?_, List.forall_mem_nil _⟩
  rw [run_of_dead h, List.append_nil]

/-- An ERROR in this step ends the transfer: the rest of the step and everything
    after it is silent. -/
def ErrorEnds (c : Conn) (i : Input) : Prop :=
  ∀ es, (c.step i.allocating).log = c.log ++ es →
    SilentAfterError es ∧ ((∃ x ∈ es, x.IsError) → (c.step i).Quiet)

/-- The datagrams of the peer carry one of the five opcodes. -/
def KnownOpcode (c : Conn) : Input → Prop
  | .datagram _ p addr port =>
      c.pcbLive = true → c.FromPeer addr port →
        (p.u16 0 = tftpRrq ∨ p.u16 0 = tftpWrq ∨ p.u16 0 = tftpData ∨ p.u16 0 = tftpAck ∨
          p.u16 0 = tftpError)
  | .tick _ => True

-- ============================================================================
-- Which datagrams leave a connection open
-- ============================================================================

section Survives

variable {e : Env} {p : Pbuf} {addr : UInt32} {port : UInt16}

/-- The datagram does not end the connection.  The outcome of `pbuf_alloc` has
    no part in it. -/
structure Survives (e : Env) (p : Pbuf) (addr : UInt32) (port : UInt16) (c : Conn) : Prop where
  peer : c.FromPeer addr port
  noError : p.u16 0 ≠ tftpError
  data : p.u16 0 = tftpData → c.arg.op ≠ tftpRrq ∧
    ((p.u16 1).toNat = c.arg.blknum.toNat + 1 →
      0 ≤ writeRet e (stored p (refreshed c.arg)).dataLen ∧
        ¬ (stored p (refreshed c.arg)).dataLen.toNat < tftpDataLenMax)
  ack : p.u16 0 = tftpAck → c.arg.op ≠ tftpWrq ∧
    (p.u16 1 = c.arg.blknum → e.fRead = 0 ∧
      ¬ (c.advanced c.arg).dataLen.toNat < tftpDataLenMax)

theorem survives_iff (h : c.Live) :
    (c.step (.datagram e p addr port)).pcbLive = true ↔ Survives e p addr port c := by
  have hclosed {x : Conn} : ¬ x.closed.pcbLive = true := Bool.false_ne_true
  have hdata {P : Prop} (hop : p.u16 0 = tftpAck) : p.u16 0 = tftpData → P := fun hop' =>
    absurd (hop.symm.trans hop') (by decide)
  have hack {P : Prop} (hop : p.u16 0 = tftpData) : p.u16 0 = tftpAck → P := fun hop' =>
    absurd (hop.symm.trans hop') (by decide)
  have hstep := step_datagram h e p addr port
  generalize c.step (.datagram e p addr port) = c' at hstep ⊢
  cases hstep with
  | foreign _ hpeer => exact iff_of_false hclosed fun hs => hpeer hs.peer
  | request hpeer hop =>
      refine iff_of_true h.pcb ⟨hpeer, ?_, ?_, ?_⟩
      · rcases hop with hop | hop <;> rw [hop] <;> decide
      · rcases hop with hop | hop <;> rw [hop] <;> exact fun hop' => absurd hop' (by decide)
      · rcases hop with hop | hop <;> rw [hop] <;> exact fun hop' => absurd hop' (by decide)
  | error _ hop => exact iff_of_false hclosed fun hs => hs.noError hop
  | dataOnRead _ hop hrrq => exact iff_of_false hclosed fun hs => (hs.data hop).1 hrrq
  | dataRefused _ hop _ hblk hret =>
      exact iff_of_false hclosed fun hs => absurd ((hs.data hop).2 hblk).1 (Int.not_le.mpr hret)
  | dataWritten hpeer hop hrrq hblk hret =>
      split
      · rename_i hshort
        exact iff_of_false hclosed fun hs => ((hs.data hop).2 hblk).2 hshort
      · rename_i hfull
        exact iff_of_true h.pcb ⟨hpeer, by rw [hop]; decide,
          fun _ => ⟨hrrq, fun _ => ⟨hret, hfull⟩⟩, hack hop⟩
  | dataRepeated hpeer hop hrrq hblk =>
      exact iff_of_true h.pcb ⟨hpeer, by rw [hop]; decide,
        fun _ => ⟨hrrq, fun hblk' => absurd hblk' hblk⟩, hack hop⟩
  | ackOnWrite _ hop hwrq => exact iff_of_false hclosed fun hs => (hs.ack hop).1 hwrq
  | ackReadError _ hop _ hblk hread =>
      exact iff_of_false (readFailed e p c).dead.pcb_not_live
        fun hs => hread ((hs.ack hop).2 hblk).1
  | ackAdvance hpeer hop hwrq hblk hread =>
      split
      · rename_i hshort
        exact iff_of_false hclosed fun hs => ((hs.ack hop).2 hblk).2 hshort
      · rename_i hfull
        exact iff_of_true h.pcb ⟨hpeer, by rw [hop]; decide, hdata hop,
          fun _ => ⟨hwrq, fun _ => ⟨hread, hfull⟩⟩⟩
  | ackStale hpeer hop hwrq hblk =>
      exact iff_of_true h.pcb ⟨hpeer, by rw [hop]; decide, hdata hop,
        fun _ => ⟨hwrq, fun hblk' => absurd hblk' hblk⟩⟩
  | unknown hpeer _ herr hdata hack =>
      exact iff_of_true h.pcb ⟨hpeer, herr, fun hop => absurd hop hdata,
        fun hop => absurd hop hack⟩

/-- Closing does not depend on `pbuf_alloc`. -/
theorem dead_of_allocating (h : c.Live)
    (hdead : (c.step (.datagram e.allocating p addr port)).Dead) :
    (c.step (.datagram e p addr port)).Dead := by
  rcases settled_step (.inl h) (.datagram e p addr port) with hlive | hdead'
  · have hsurvives : Survives e p addr port c := (survives_iff h).mp hlive.pcb
    have hsame : Survives e.allocating p addr port c := ⟨hsurvives.1, hsurvives.2, hsurvives.3,
      hsurvives.4⟩
    exact absurd ((survives_iff h).mpr hsame) hdead.pcb_not_live
  · exact hdead'

end Survives

-- ============================================================================
-- A live connection is not quiet
-- ============================================================================

section Answers

variable {e : Env} {p : Pbuf} {addr : UInt32} {port : UInt16}

/-- A datagram with an unknown opcode gets an ERROR, and the connection stays. -/
theorem step_unknown (h : c.Live) (hpeer : c.FromPeer addr port)
    (hop : ¬ (p.u16 0 = tftpRrq ∨ p.u16 0 = tftpWrq ∨ p.u16 0 = tftpData ∨ p.u16 0 = tftpAck ∨
      p.u16 0 = tftpError)) :
    c.step (.datagram e p addr port)
      = c.after (refreshed c.arg) c.fil
          ([.recv p] ++ c.sentIf (e.pbufAlloc 0) (.error tftpErrIllegalop "Unknown operation")
            ++ [.pbufFree]) (payloadFaults p 0) := by
  simp only [not_or] at hop
  obtain ⟨hrrq, hwrq, hdata, hack, herr⟩ := hop
  rw [step_fromPeer h e p hpeer]
  dsimp only
  rw [if_neg (not_or.mpr ⟨hwrq, hrrq⟩), if_neg herr, if_neg hdata, if_neg hack,
    after_tftpSendError h, after_emit]

/-- The peer of a read connection acknowledges the current block: the file is
    read on. -/
theorem step_ack_reads (h : c.Live) (hrrq : c.arg.op = tftpRrq) :
    ∃ i es, (c.step i).log = c.log ++ es ∧ .read c.nextBytes.length ∈ es := by
  have hwrq : c.arg.op ≠ tftpWrq := fun hwrq => tftpRrq_ne_wrq (hrrq.symm.trans hwrq)
  refine ⟨.datagram (Env.ok 0) (ackPbuf c.arg.blknum) c.arg.remoteIp c.arg.remotePort,
    [.recv (ackPbuf c.arg.blknum), .read c.nextBytes.length]
      ++ c.sentIf true (packetOf (c.advanced (refreshed c.arg))) ++ [.pbufFree], ?_, by simp⟩
  rw [step_recvAck h ⟨rfl, rfl⟩ (ackPbuf_opcode _),
    recvAck_advance h hwrq (ackPbuf_blknum _) rfl]
  split <;> rfl

/-- The peer of a write connection repeats the last block: it is acknowledged
    again. -/
theorem step_data_acks (h : c.Live) (hrrq : c.arg.op ≠ tftpRrq) :
    ∃ i es, (c.step i).log = c.log ++ es ∧
      .sent c.pcb.remoteIp c.pcb.remotePort (.ack c.arg.blknum) ∈ es := by
  have hblk : c.arg.blknum.toNat ≠ c.arg.blknum.toNat + 1 := (Nat.succ_ne_self _).symm
  refine ⟨.datagram (Env.ok 0) (dataPbuf c.arg.blknum [] (Nat.zero_le _)) c.arg.remoteIp
    c.arg.remotePort, ?_⟩
  rw [step_recvData h ⟨rfl, rfl⟩ (dataPbuf_opcode _ _ _),
    recvData_repeated h hrrq (by rw [dataPbuf_blknum]; exact hblk)]
  exact ⟨_, rfl, by simp [sentIf, Env.ok]⟩

theorem not_quiet_of_live (h : c.Live) : ¬ c.Quiet := by
  intro hquiet
  -- one more datagram of the peer is answered
  have hanswer : ∃ i es, (c.step i).log = c.log ++ es ∧ ∃ ev ∈ es, ¬ ev.Silent := by
    by_cases hrrq : c.arg.op = tftpRrq
    · obtain ⟨i, es, hlog, hread⟩ := step_ack_reads h hrrq
      exact ⟨i, es, hlog, _, hread, id⟩
    · obtain ⟨i, es, hlog, hack⟩ := step_data_acks h hrrq
      exact ⟨i, es, hlog, _, hack, id⟩
  obtain ⟨i, es, hlog, ev, hev, hloud⟩ := hanswer
  obtain ⟨es', hlog', hsilent⟩ := hquiet [i]
  have hsame : es = es' := List.append_cancel_left (hlog.symm.trans hlog')
  rw [hsame] at hev
  exact hloud (hsilent ev hev)

end Answers

-- ============================================================================
-- One step
-- ============================================================================

/-- The condition on one step, once its events are known. -/
theorem errorEnds_iff_of_log {i : Input} {es : List Event}
    (hlog : (c.step i.allocating).log = c.log ++ es) :
    c.ErrorEnds i ↔ SilentAfterError es ∧ ((∃ x ∈ es, x.IsError) → (c.step i).Quiet) := by
  constructor
  · intro hends
    exact hends es hlog
  · intro hends es' hlog'
    have hsame : es = es' := List.append_cancel_left (hlog.symm.trans hlog')
    rw [← hsame]
    exact hends

theorem errorEnds_of_dead (h : c.Dead) (i : Input) : c.ErrorEnds i := by
  have hlog : (c.step i.allocating).log = c.log ++ [] := by
    rw [step_of_dead h, List.append_nil]
  rw [errorEnds_iff_of_log hlog, step_of_dead h]
  exact ⟨silentAfterError_of_silent (List.forall_mem_nil _), fun _ => quiet_of_dead h⟩

theorem errorEnds_tick (h : c.Live) (e : Env) : c.ErrorEnds (.tick e) := by
  have hloud : ∃ es, (c.step (.tick e.allocating)).log = c.log ++ es ∧
      ∀ ev ∈ es, ¬ ev.IsError := by
    have hstep := step_tick h e.allocating
    generalize c.step (.tick e.allocating) = c' at hstep
    cases hstep with
    | quiet | giveUp => exact ⟨[.tick], rfl, by simp [Event.IsError]⟩
    | resend => exact ⟨_, rfl, List.forall_mem_cons.mpr ⟨id, forall_sentIf id⟩⟩
  obtain ⟨es, hlog, hno⟩ := hloud
  refine (errorEnds_iff_of_log hlog).mpr ⟨silentAfterError_of_no_error hno, ?_⟩
  rintro ⟨x, hx, herr⟩
  exact absurd herr (hno x hx)

section Datagram

variable {e : Env} {p : Pbuf} {addr : UInt32} {port : UInt16}

/-- A datagram with an unknown opcode does not end the transfer. -/
theorem not_errorEnds_unknown (h : c.Live) (hpeer : c.FromPeer addr port)
    (hop : ¬ (p.u16 0 = tftpRrq ∨ p.u16 0 = tftpWrq ∨ p.u16 0 = tftpData ∨ p.u16 0 = tftpAck ∨
      p.u16 0 = tftpError)) : ¬ c.ErrorEnds (.datagram e p addr port) := by
  intro hends
  have hlog := congrArg Conn.log (step_unknown (e := e.allocating) h hpeer hop)
  have hquiet := (hends _ hlog).2
    ⟨.sent c.pcb.remoteIp c.pcb.remotePort (.error tftpErrIllegalop "Unknown operation"),
      by simp [sentIf, Env.allocating], trivial⟩
  rw [step_unknown h hpeer hop] at hquiet
  exact not_quiet_of_live (live_after h) hquiet

/-- In every other branch the code closes the connection next to the ERROR. -/
theorem errorEnds_known (h : c.Live) (hknown : c.KnownOpcode (.datagram e p addr port)) :
    c.ErrorEnds (.datagram e p addr port) := by
  have hquiet : (c.step (.datagram e.allocating p addr port)).Dead →
      (c.step (.datagram e p addr port)).Quiet := fun hdead =>
    quiet_of_dead (dead_of_allocating h hdead)
  -- the branches without an ERROR, and those that close the connection
  have hnone {c' : Conn} (es : List Event) (hlog : c'.log = c.log ++ es)
      (hno : ∀ ev ∈ es, ¬ ev.IsError) : ∃ es, c'.log = c.log ++ es ∧ SilentAfterError es ∧
        ((∃ x ∈ es, x.IsError) → (c.step (.datagram e p addr port)).Quiet) := by
    refine ⟨es, hlog, silentAfterError_of_no_error hno, ?_⟩
    rintro ⟨x, hx, herr⟩
    exact absurd herr (hno x hx)
  have hends : ∃ es, (c.step (.datagram e.allocating p addr port)).log = c.log ++ es ∧
      SilentAfterError es ∧
        ((∃ x ∈ es, x.IsError) → (c.step (.datagram e p addr port)).Quiet) := by
    have hstep := step_datagram h e.allocating p addr port
    generalize c.step (.datagram e.allocating p addr port) = c' at hstep hquiet
    cases hstep with
    | foreign es _ hes =>
        refine ⟨_, rfl, silentAfterError_of_silent (forall_answer trivial trivial ?_),
          fun _ => hquiet (closed_dead _)⟩
        intro ev hev
        obtain ⟨ip, port', code, msg, rfl⟩ := hes ev hev
        trivial
    | request _ hop =>
        refine hnone _ rfl (forall_dropped ?_ id)
        rcases hop with hop | hop <;> exact fun herr => absurd (hop.symm.trans herr) (by decide)
    | error _ hop =>
        exact ⟨_, rfl, silentAfterError_of_silent (forall_dropped trivial trivial),
          fun _ => hquiet (closed_dead _)⟩
    | dataOnRead | ackOnWrite =>
        exact ⟨_, rfl, silentAfterError_of_silent
          (forall_answer trivial trivial (forall_sentIf trivial)),
          fun _ => hquiet (closed_dead _)⟩
    | dataRefused _ hop =>
        refine ⟨_, rfl, ?_, fun _ => hquiet (closed_dead _)⟩
        -- the block was handed to `fop.write` before the ERROR
        rw [List.append_assoc]
        refine silentAfterError_append ?_ ?_
        · have hrecv : ¬ (Event.recv p).IsError := fun herr =>
            absurd (hop.symm.trans herr) (by decide)
          exact List.forall_mem_cons.mpr ⟨hrecv, List.forall_mem_cons.mpr ⟨id,
            List.forall_mem_singleton.mpr id⟩⟩
        · exact List.forall_mem_append.mpr ⟨forall_sentIf trivial,
            List.forall_mem_singleton.mpr trivial⟩
    | dataWritten _ hop =>
        refine hnone (.recv p :: (.store (copied p).length ::
          writeEvent e.allocating (stored p (refreshed c.arg)) ::
          c.sentIf (e.allocating.pbufAlloc 0) (.ack ((stored p (refreshed c.arg)).blknum + 1)))
            ++ [.pbufFree]) ?_ ?_
        · split <;> rfl
        · refine forall_answer (fun herr => absurd (hop.symm.trans herr) (by decide)) id ?_
          exact List.forall_mem_cons.mpr ⟨id, List.forall_mem_cons.mpr ⟨id, forall_sentIf id⟩⟩
    | dataRepeated _ hop =>
        exact hnone _ rfl (forall_answer (fun herr => absurd (hop.symm.trans herr) (by decide)) id
          (forall_sentIf id))
    | ackReadError _ hop =>
        have hfailed := readFailed e.allocating p c
        have hrecv : ¬ (Event.recv p).IsError := fun herr =>
          absurd (hop.symm.trans herr) (by decide)
        have hread : ∀ ev ∈ [Event.recv p, .read (-1)], ¬ ev.IsError :=
          List.forall_mem_cons.mpr ⟨hrecv, List.forall_mem_singleton.mpr id⟩
        have herror : ∀ ev ∈ c.sentIf (e.allocating.pbufAlloc 0) (.error tftpErrAccessViolation
            "Error occured while reading the file.") ++ [.pbufFree], ev.Silent :=
          List.forall_mem_append.mpr ⟨forall_sentIf trivial, List.forall_mem_singleton.mpr trivial⟩
        have hsilent := silentAfterError_append hread herror
        exact ⟨_, hfailed.log, hsilent, fun _ => hquiet hfailed.dead⟩
    | ackAdvance _ hop =>
        refine hnone (.recv p :: (.read c.nextBytes.length ::
          c.sentIf (e.allocating.pbufAlloc 0) (packetOf (c.advanced (refreshed c.arg))))
            ++ [.pbufFree]) ?_ ?_
        · split <;> rfl
        · refine forall_answer (fun herr => absurd (hop.symm.trans herr) (by decide)) id ?_
          exact List.forall_mem_cons.mpr ⟨id, forall_sentIf id⟩
    | ackStale _ hop =>
        exact hnone _ rfl
          (forall_dropped (fun herr => absurd (hop.symm.trans herr) (by decide)) id)
    | unknown hpeer hrq herr hdata hack =>
        rcases hknown h.pcb hpeer with hop | hop | hop | hop | hop
        · exact absurd (.inr hop) hrq
        · exact absurd (.inl hop) hrq
        · exact absurd hop hdata
        · exact absurd hop hack
        · exact absurd hop herr
  obtain ⟨es, hlog, hends⟩ := hends
  exact (errorEnds_iff_of_log hlog).mpr hends

end Datagram

/-- **Step lemma.**  An ERROR in a step ends the transfer iff the datagram is
    not one of the peer with an unknown opcode. -/
theorem errorEnds_iff (h : c.Settled) (i : Input) : c.ErrorEnds i ↔ c.KnownOpcode i := by
  rcases h with h | h
  · cases i with
    | tick e => exact iff_of_true (errorEnds_tick h e) trivial
    | datagram e p addr port =>
        refine ⟨?_, errorEnds_known h⟩
        intro hends _ hpeer
        by_contra hop
        exact not_errorEnds_unknown h hpeer hop hends
  · refine iff_of_true (errorEnds_of_dead h i) ?_
    cases i with
    | tick e => trivial
    | datagram e p addr port => exact fun hpcb => absurd hpcb h.pcb_not_live

end Conn

-- ============================================================================
-- Runs of the server
-- ============================================================================

/-- An ERROR in a step of the server ends the transfer of its connection; for a
    request that is the ERROR `tftp_send_data` sends when the first read fails. -/
def ErrorEnds (l : List Conn) : ServerInput → Prop
  | .spawn r => ∀ c d, r.conn = some c → r.allocating.conn = some d →
      SilentAfterError d.log ∧ ((∃ x ∈ d.log, x.IsError) → c.Quiet)
  | .deliver k i => ∀ c, l[k]? = some c → c.ErrorEnds i

/-- A request that fails to read the file gives the connection up. -/
theorem errorEnds_request (l : List Conn) (r : Rq) : ErrorEnds l (.spawn r) := by
  intro c d hconn hforced
  have hstep := request_outcome r.allocating.env r.p r.addr r.port
  rw [show (requestRecvCallback r.allocating.env r.p r.addr r.port).conn = some d
    from hforced] at hstep
  -- only a failing first read sends an ERROR
  have hnone {es : List Event} (hno : ∀ ev ∈ es, ¬ ev.IsError) :
      SilentAfterError es ∧ ((∃ x ∈ es, x.IsError) → c.Quiet) := by
    refine ⟨silentAfterError_of_no_error hno, ?_⟩
    rintro ⟨x, hx, herr⟩
    exact absurd herr (hno x hx)
  cases hstep with
  | released _ _ _ _ hlog =>
      rw [hlog]
      exact hnone (List.forall_mem_nil _)
  | write stale =>
      have hack : ∀ ev ∈ (Conn.opened r.allocating.env r.p r.addr r.port stale).sentIf
          (r.allocating.env.lib.pbufAlloc 0) (.ack 0), ¬ ev.IsError := Conn.forall_sentIf id
      exact hnone hack
  | read => exact hnone (List.forall_mem_cons.mpr ⟨id, Conn.forall_sentIf id⟩)
  | readError stale hrrq hread =>
      have hdead : c.Dead := by
        rcases (clean_request hconn).settled with hlive | hdead
        · exact absurd ((succeeds_of_live hconn hlive).2 hrrq) hread
        · exact hdead
      have hfirst : ∀ ev ∈ [Event.read (-1)], ¬ ev.IsError := List.forall_mem_singleton.mpr id
      have herror : ∀ ev ∈ (Conn.opened r.allocating.env r.p r.addr r.port stale).sentIf
          (r.allocating.env.lib.pbufAlloc 0)
          (.error tftpErrAccessViolation "Error occured while reading the file."), ev.Silent :=
        Conn.forall_sentIf trivial
      have hsilent := silentAfterError_append hfirst herror
      exact ⟨hsilent, fun _ => Conn.quiet_of_dead hdead⟩

/-- **An ERROR ends the transfer.**  Over any run of the server, every ERROR
    handed over or received on a connection is followed by no DATA, no ACK and
    no access to the file on that connection, whatever comes later, exactly when
    no peer of a live connection sends a datagram with an unknown opcode. -/
theorem error_ends_iff (xs : List ServerInput) :
    StepsMeet serverStep ErrorEnds [] xs ↔
      StepsMeet serverStep (AtComponent Conn.KnownOpcode) [] xs := by
  have hnil : ∀ c ∈ ([] : List Conn), c.Settled := List.forall_mem_nil _
  apply stepsMeet_congr (I := fun l => ∀ c ∈ l, c.Settled) (fun l x h => settled_serverStep l x h)
    _ hnil
  intro l x hl
  cases x with
  | spawn r => exact iff_of_true (errorEnds_request l r) trivial
  | deliver k i =>
      refine forall_congr' fun c => imp_congr_right fun hc => ?_
      exact Conn.errorEnds_iff (hl c (List.mem_of_getElem? hc)) i

/-- A datagram with opcode 6. -/
def unknownPbuf : Pbuf := Pbuf.ofBytes [0, 6] (by decide)

/-- Opcode 6 in the middle of an upload: the server answers with an ERROR, then
    writes and acknowledges block 1 as if nothing had happened. -/
theorem upload_goes_on_after_error :
    (run serverStep []
        [.spawn ⟨sampleReqEnv [], sampleRq tftpWrq, 1, 2⟩,
          .deliver 0 (.datagram (Env.ok 0) unknownPbuf 1 2),
          .deliver 0 (.datagram (Env.ok 1) (dataPbuf 1 [7] (by decide)) 1 2)]).map Conn.log
      = [[.sent 1 2 (.ack 0),
          .recv unknownPbuf, .sent 1 2 (.error tftpErrIllegalop "Unknown operation"), .pbufFree,
          .recv (dataPbuf 1 [7] (by decide)), .store 1, .write [7] 1 1, .sent 1 2 (.ack 1),
          .pbufFree]] := by
  rfl

end McuFirmware.Tftp
