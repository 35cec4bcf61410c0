/-
  McuFirmware.Tftp.Timeout

  When the server resends the current block.

  `tftp_server_tmr` measures the time since `last_time`, and
  `data_ack_recv_callback` sets `last_time` for every datagram of the peer,
  before it looks at the opcode.  The timeout is thus one on the silence of the
  peer, not on the age of the block: `Watch` counts the ticks since the block
  was last handed to `tftp_send_data` or `tftp_resend_data` or the peer was last
  heard of, and this count is bounded in every run.
-/

import McuFirmware.Tftp.LastBlock
import McuFirmware.Tftp.Server

namespace McuFirmware.Tftp

open McuFirmware.Lib McuFirmware.Lwip

namespace Conn

variable {c : Conn} {a : ConnArgs}

-- ============================================================================
-- The silence of the peer
-- ============================================================================

/-- The ticks since the last datagram of the peer. -/
def idle (a : ConnArgs) : Nat := (a.timer - a.lastTime).toNat

theorem idle_eq_zero (h : a.lastTime = a.timer) : idle a = 0 := by
  rw [idle, h, UInt32.sub_self]
  rfl

theorem idle_ticked (h : idle a < 2 ^ 32 - 1) : idle (ticked a) = idle a + 1 := by
  have hdiff : a.timer + 1 - a.lastTime = a.timer - a.lastTime + 1 := by
    rw [UInt32.sub_eq_add_neg, UInt32.sub_eq_add_neg, UInt32.add_assoc, UInt32.add_comm 1,
      ← UInt32.add_assoc]
  have hlt : (a.timer - a.lastTime).toNat < 2 ^ 32 - 1 := h
  rw [idle, idle, ticked]
  change (a.timer + 1 - a.lastTime).toNat = _
  rw [hdiff, UInt32.toNat_add]
  change ((a.timer - a.lastTime).toNat + 1) % 2 ^ 32 = _
  omega

theorem timedOut_iff : TimedOut a ↔ 100 < idle a := by
  rw [TimedOut, UInt32.lt_iff_toNat_lt]
  rfl

instance (c : Conn) (addr : UInt32) (port : UInt16) : Decidable (c.FromPeer addr port) :=
  inferInstanceAs (Decidable (_ ∧ _))

/-- The next tick calls `tftp_resend_data`. -/
def Resends (c : Conn) : Prop :=
  TimedOut (ticked c.arg) ∧ c.arg.op = tftpRrq ∧ c.arg.retries < tftpServerMaxRetries

instance (c : Conn) : Decidable c.Resends := inferInstanceAs (Decidable (_ ∧ _ ∧ _))

/-- A datagram that leaves the connection open came from the peer and restarted
    the timeout, unless it was stored over the counters. -/
theorem restarted_of_live (h : c.Live) {e : Env} {p : Pbuf} {addr : UInt32} {port : UInt16}
    (hfits : StoresFit c (.datagram e p addr port))
    (hlive : (c.step (.datagram e p addr port)).Live) :
    c.FromPeer addr port ∧ (c.step (.datagram e p addr port)).arg.op = c.arg.op ∧
      idle (c.step (.datagram e p addr port)).arg = 0 ∧
      (c.step (.datagram e p addr port)).arg.retries = 0 := by
  have hclosed {x : Conn} (hx : x.closed.Live) : False := absurd hx.pcb Bool.false_ne_true
  have hstep := step_datagram h e p addr port
  generalize c.step (.datagram e p addr port) = c' at hstep hlive ⊢
  cases hstep with
  | foreign | error | dataOnRead | dataRefused | ackOnWrite => exact (hclosed hlive).elim
  | request hpeer | dataRepeated hpeer | ackStale hpeer | unknown hpeer =>
      exact ⟨hpeer, rfl, idle_eq_zero rfl, rfl⟩
  | dataWritten hpeer hop hrrq hblk =>
      have hsame := stored_fits (refreshed c.arg) (hfits h.pcb hpeer ⟨hop, hrrq, hblk⟩)
      split at hlive
      · exact (hclosed hlive).elim
      · rename_i hfull
        rw [if_neg hfull, written, hsame]
        exact ⟨hpeer, rfl, idle_eq_zero rfl, rfl⟩
  | ackAdvance hpeer =>
      split at hlive
      · exact (hclosed hlive).elim
      · rename_i hfull
        rw [if_neg hfull]
        exact ⟨hpeer, rfl, idle_eq_zero rfl, rfl⟩
  | ackReadError => exact absurd hlive.pcb (readFailed e p c).dead.pcb_not_live

/-- An ACK of another block. -/
theorem step_ackStale (h : c.Live) {e : Env} {p : Pbuf} {addr : UInt32} {port : UInt16}
    (hpeer : c.FromPeer addr port) (hop : p.u16 0 = tftpAck) (hwrq : c.arg.op ≠ tftpWrq)
    (hblk : p.u16 1 ≠ c.arg.blknum) :
    c.step (.datagram e p addr port)
      = c.after (refreshed c.arg) c.fil [.recv p, .pbufFree]
          (payloadFaults p 0 ++ payloadFaults p 1) := by
  rw [step_recvAck h hpeer hop, recvAck_stale h hwrq hblk]

end Conn

-- ============================================================================
-- Watching a connection
-- ============================================================================

/-- A connection, and the ticks since the current block was last handed over for
    sending or a datagram of the peer was received. -/
structure Watch where
  conn : Conn
  age : Nat

def Watch.step (w : Watch) (i : Input) : Watch where
  conn := w.conn.step i
  age := match i with
    | .datagram _ _ addr port => if w.conn.FromPeer addr port then 0 else w.age
    | .tick _ => if w.conn.Resends then 0 else w.age + 1

theorem watch_conn (w : Watch) (is : List Input) :
    (run Watch.step w is).conn = run Conn.step w.conn is := by
  induction is generalizing w with
  | nil => rfl
  | cons i is ih => exact ih (w.step i)

/-- The count follows the silence of the peer until the timeout; from then on
    every tick resends, once for each retry. -/
structure Paced (w : Watch) : Prop where
  op : w.conn.arg.op = tftpRrq
  early : Conn.idle w.conn.arg ≤ 100 → w.age ≤ Conn.idle w.conn.arg ∧ w.conn.arg.retries = 0
  late : 100 < Conn.idle w.conn.arg → w.age = 0 ∧
    Conn.idle w.conn.arg = 100 + w.conn.arg.retries.toNat ∧ w.conn.arg.retries.toNat ≤ 5

/-- The connection is closed, or paced. -/
def Watched (w : Watch) : Prop := w.conn.Dead ∨ (w.conn.Live ∧ Paced w)

theorem Paced.age_le {w : Watch} (h : Paced w) : w.age ≤ 100 := by
  by_cases hearly : Conn.idle w.conn.arg ≤ 100
  · exact (h.early hearly).1.trans hearly
  · rw [(h.late (Nat.not_le.mp hearly)).1]
    exact Nat.zero_le _

theorem Paced.idle_le {w : Watch} (h : Paced w) : Conn.idle w.conn.arg ≤ 105 := by
  by_cases hearly : Conn.idle w.conn.arg ≤ 100
  · omega
  · have hlate := (h.late (Nat.not_le.mp hearly)).2
    omega

/-- **Step lemma, ticks.** -/
theorem watched_tick {w : Watch} (hlive : w.conn.Live) (h : Paced w) (e : Env) :
    Watched (w.step (.tick e)) := by
  have hidle : Conn.idle (Conn.ticked w.conn.arg) = Conn.idle w.conn.arg + 1 :=
    Conn.idle_ticked (by have := h.idle_le; omega)
  have hstep := Conn.step_tick hlive e
  simp only [Watched, Watch.step]
  generalize w.conn.step (.tick e) = c' at hstep
  cases hstep with
  | quiet hquiet =>
      have hnot : ¬ w.conn.Resends := fun hres => hquiet hres.1
      rw [Conn.timedOut_iff, hidle] at hquiet
      have hearly := h.early (by omega)
      rw [if_neg hnot]
      refine .inr ⟨Conn.live_after hlive, h.op, fun _ => ?_, fun hlate => ?_⟩
      · change w.age + 1 ≤ Conn.idle (Conn.ticked w.conn.arg) ∧ w.conn.arg.retries = 0
        exact ⟨by omega, hearly.2⟩
      · change 100 < Conn.idle (Conn.ticked w.conn.arg) at hlate
        omega
  | resend hout hrrq hretry =>
      rw [if_pos ⟨hout, hrrq, hretry⟩]
      rw [Conn.timedOut_iff, hidle] at hout
      have hlt : w.conn.arg.retries.toNat < 5 := UInt8.lt_iff_toNat_lt.mp hretry
      have hretries : (w.conn.arg.retries + 1).toNat = w.conn.arg.retries.toNat + 1 := by
        rw [UInt8.toNat_add]
        change (w.conn.arg.retries.toNat + 1) % 2 ^ 8 = _
        omega
      -- the first retry comes with tick 101, each further one with the next tick
      have hcount : Conn.idle w.conn.arg = 100 + w.conn.arg.retries.toNat := by
        by_cases hearly : Conn.idle w.conn.arg ≤ 100
        · rw [(h.early hearly).2]
          change Conn.idle w.conn.arg = 100
          omega
        · exact (h.late (Nat.not_le.mp hearly)).2.1
      refine .inr ⟨Conn.live_after hlive, h.op, fun hearly => ?_, fun _ => ⟨rfl, ?_⟩⟩
      · change Conn.idle (Conn.ticked w.conn.arg) ≤ 100 at hearly
        omega
      · change Conn.idle (Conn.ticked w.conn.arg) = 100 + (w.conn.arg.retries + 1).toNat ∧
          (w.conn.arg.retries + 1).toNat ≤ 5
        omega
  | giveUp => exact .inl (Conn.closed_dead _)

/-- **Step lemma.** -/
theorem watched_step {w : Watch} (h : Watched w) (i : Input) : Watched (w.step i) := by
  rcases h with hdead | ⟨hlive, hpaced⟩
  · left
    show (w.conn.step i).Dead
    rw [Conn.step_of_dead hdead]
    exact hdead
  cases i with
  | tick e => exact watched_tick hlive hpaced e
  | datagram e p addr port =>
      rcases Conn.settled_step (.inl hlive) (.datagram e p addr port) with hnext | hdead
      · obtain ⟨hpeer, hop, hidle, hretries⟩ := Conn.restarted_of_live hlive
          (storesFit_of_read hpaced.op _) hnext
        have hage : (w.step (.datagram e p addr port)).age = 0 := if_pos hpeer
        refine .inr ⟨hnext, hop.trans hpaced.op, fun _ => ⟨?_, hretries⟩, fun hlate => ?_⟩
        · rw [hage]
          exact Nat.zero_le _
        · change 100 < Conn.idle (w.conn.step (.datagram e p addr port)).arg at hlate
          omega
      · exact .inl hdead

theorem watched_run {w : Watch} (h : Watched w) (is : List Input) :
    Watched (run Watch.step w is) :=
  run_inv (I := Watched) (C := fun _ _ => True) (fun _ i h _ => watched_step h i) h
    (stepsMeet_of_forall (fun _ _ _ => trivial) w)

/-- A read request starts the count with block 1. -/
theorem watched_request {r : Rq} {c : Conn} (hrrq : r.p.u16 0 = tftpRrq)
    (hconn : r.conn = some c) : Watched ⟨c, 0⟩ := by
  rcases (clean_request hconn).settled with hlive | hdead
  · obtain ⟨stale, rfl⟩ := live_read_request hrrq hconn hlive.pcb
    refine .inr ⟨hlive, hrrq, fun _ => ⟨Nat.zero_le _, rfl⟩, fun hlate => ?_⟩
    have hidle : Conn.idle (Conn.openedRead r.env r.p r.addr r.port stale).arg = 0 :=
      Conn.idle_eq_zero rfl
    change 100 < Conn.idle (Conn.openedRead r.env r.p r.addr r.port stale).arg at hlate
    omega
  · exact .inl hdead

/-- The connection of a client that reads a one-byte file. -/
def oneByteRead : Conn := Conn.openedRead (sampleReqEnv [7]) (sampleRq tftpRrq) 1 2 sampleArgs

theorem oneByteRead_conn :
    Rq.conn ⟨sampleReqEnv [7], sampleRq tftpRrq, 1, 2⟩ = some oneByteRead :=
  request_granted_read (granted_sample [7] (.inl rfl)) (by decide) rfl 1 2

theorem oneByteRead_live : oneByteRead.Live := Conn.live_after (Conn.opened_live _ _ _ _ _)

theorem fresh_openedRead (e : ReqEnv) (p : Pbuf) (addr : UInt32) (port : UInt16)
    (stale : ConnArgs) : Fresh (Conn.openedRead e p addr port stale) := rfl

theorem oneByteRead_fresh : Fresh oneByteRead := fresh_openedRead _ _ _ _ _

/-- A pause of `j` ticks, an ACK of block `blknum` from the peer of `c`, and another
    pause of `k` ticks. -/
def pausedAck (c : Conn) (e : Env) (blknum : UInt16) (j k : Nat) : List Input :=
  List.replicate j (.tick e)
    ++ [.datagram e (ackPbuf blknum) c.arg.remoteIp c.arg.remotePort]
    ++ List.replicate k (.tick e)

/-- If the ACK is one of another block, the timer starts again. -/
theorem run_pausedAck {c : Conn} (hlive : c.Live) (hfresh : Fresh c) (hwrq : c.arg.op ≠ tftpWrq)
    {blknum : UInt16} (hblk : blknum ≠ c.arg.blknum) (e : Env) {j k : Nat} (hj : j ≤ 100)
    (hk : k ≤ 100) :
    (run Conn.step c (pausedAck c e blknum j k)).Live ∧
      (run Conn.step c (pausedAck c e blknum j k)).log
        = c.log ++ (List.replicate j .tick ++ [.recv (ackPbuf blknum), .pbufFree]
          ++ List.replicate k .tick) := by
  have hpaused : (c.after (tickedBy j c.arg) c.fil (List.replicate j .tick) []).Live :=
    Conn.live_after hlive
  have hack : (c.after (tickedBy j c.arg) c.fil (List.replicate j .tick) []).step
      (.datagram e (ackPbuf blknum) c.arg.remoteIp c.arg.remotePort)
      = (c.after (tickedBy j c.arg) c.fil (List.replicate j .tick) []).after
          (Conn.refreshed (tickedBy j c.arg)) c.fil [.recv (ackPbuf blknum), .pbufFree]
          (Conn.payloadFaults (ackPbuf blknum) 0 ++ Conn.payloadFaults (ackPbuf blknum) 1) := by
    apply Conn.step_ackStale hpaused ⟨rfl, rfl⟩ (ackPbuf_opcode blknum) hwrq
    rw [ackPbuf_blknum]
    exact hblk
  have hfresh' : Fresh ((c.after (tickedBy j c.arg) c.fil (List.replicate j .tick) []).after
      (Conn.refreshed (tickedBy j c.arg)) c.fil [.recv (ackPbuf blknum), .pbufFree]
      (Conn.payloadFaults (ackPbuf blknum) 0 ++ Conn.payloadFaults (ackPbuf blknum) 1)) := rfl
  rw [pausedAck, run_append, run_concat, run_pause hlive hfresh e hj, hack,
    run_pause (Conn.live_after hpaused) hfresh' e hk]
  refine ⟨Conn.live_after (Conn.live_after hpaused), ?_⟩
  simp only [Conn.after_log, List.append_assoc]

/-- **Bounded silence.**  In every state of every run of a read connection that is
    still live, at most 100 ticks have passed since the current block was last
    handed over for sending, or since the peer was last heard of; and a tick that
    resends puts the current block on the wire when its pbuf can be allocated. -/
theorem resent_or_heard (r : Rq) (c : Conn) (hrrq : r.p.u16 0 = tftpRrq)
    (hconn : r.conn = some c) (is : List Input) (hlive : (run Conn.step c is).Live) :
    (run Watch.step ⟨c, 0⟩ is).conn = run Conn.step c is ∧
    (run Watch.step ⟨c, 0⟩ is).age ≤ 100 ∧
    ∀ e : Env, (run Conn.step c is).Resends → e.pbufAlloc 0 = true →
      ((run Conn.step c is).step (.tick e)).log = (run Conn.step c is).log ++
        [.tick, .sent (run Conn.step c is).pcb.remoteIp (run Conn.step c is).pcb.remotePort
          (Conn.packetOf (run Conn.step c is).arg)] := by
  have hsame : (run Watch.step ⟨c, 0⟩ is).conn = run Conn.step c is := watch_conn _ _
  refine ⟨hsame, ?_, ?_⟩
  · rcases watched_run (watched_request hrrq hconn) is with hdead | ⟨-, hpaced⟩
    · rw [hsame] at hdead
      exact absurd hlive.pcb hdead.pcb_not_live
    · exact hpaced.age_le
  · rintro e ⟨hout, hop, hretry⟩ halloc
    have hstep := Conn.step_tick hlive e
    generalize (run Conn.step c is).step (.tick e) = c' at hstep
    cases hstep with
    | quiet hquiet => exact absurd hout hquiet
    | resend =>
        rw [halloc]
        rfl
    | giveUp _ hlast => exact absurd ⟨hop, hretry⟩ hlast

/-- An ACK of block 0 after 100 ticks of silence, and 100 more: the next tick sends
    block 1 again. -/
theorem resent_or_heard_pause :
    let is := pausedAck oneByteRead (Env.ok 0) 0 100 100
    (run Watch.step ⟨oneByteRead, 0⟩ is).age ≤ 100 ∧
      (run Watch.step ⟨oneByteRead, 0⟩ is).conn = run Conn.step oneByteRead is ∧
      (run Conn.step oneByteRead is).Resends ∧
      ((run Conn.step oneByteRead is).step (.tick (Env.ok 0))).log
        = (run Conn.step oneByteRead is).log ++ [.tick, .sent 1 2 (.data 1 [7])] := by
  intro is
  have hblk : (0 : UInt16) ≠ oneByteRead.arg.blknum := by decide
  have hlive : (run Conn.step oneByteRead is).Live :=
    (run_pausedAck oneByteRead_live oneByteRead_fresh (by decide) hblk (Env.ok 0)
      (Nat.le_refl 100) (Nat.le_refl 100)).1
  obtain ⟨hsame, hage, hresend⟩ := resent_or_heard ⟨sampleReqEnv [7], sampleRq tftpRrq, 1, 2⟩
    oneByteRead (by decide) oneByteRead_conn is hlive
  have hresends : (run Conn.step oneByteRead is).Resends := by decide +kernel
  have hpeer : (run Conn.step oneByteRead is).pcb.remoteIp = 1 ∧
      (run Conn.step oneByteRead is).pcb.remotePort = 2 := by decide +kernel
  have hblock : Conn.packetOf (run Conn.step oneByteRead is).arg = .data 1 [7] := by
    decide +kernel
  have hlog := hresend (Env.ok 0) hresends rfl
  rw [hpeer.1, hpeer.2, hblock] at hlog
  exact ⟨hage, hsame, hresends, hlog⟩

/-- Block 1 is lost and the client, which still waits for it, repeats its last ACK
    after 100 ticks: 102 ticks after the only transmission of the block the
    connection is live and has not sent it again. -/
theorem stale_ack_suppresses :
    (run Conn.step oneByteRead (pausedAck oneByteRead (Env.ok 0) 0 100 2)).Live ∧
      (run Conn.step oneByteRead (pausedAck oneByteRead (Env.ok 0) 0 100 2)).log
        = [.read 1, .sent 1 2 (.data 1 [7])] ++ (List.replicate 100 .tick
          ++ [.recv (ackPbuf 0), .pbufFree] ++ List.replicate 2 .tick) := by
  have hlog : oneByteRead.log = [.read 1, .sent 1 2 (.data 1 [7])] := rfl
  have hblk : (0 : UInt16) ≠ oneByteRead.arg.blknum := by decide
  have hrun := run_pausedAck oneByteRead_live oneByteRead_fresh (by decide) hblk (Env.ok 0)
    (Nat.le_refl 100) (show 2 ≤ 100 by decide)
  rw [hlog] at hrun
  exact hrun

end McuFirmware.Tftp
