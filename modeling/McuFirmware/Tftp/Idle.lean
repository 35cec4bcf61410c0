/-
  McuFirmware.Tftp.Idle

  What `tftp_server_tmr` does while the peer is silent.

  A live connection is known by the number of ticks since the last datagram:
  `Waited n c`.  `waited_tick` lists what the next tick does for each number:
  nothing up to the timeout, then one retransmission a tick while retries are
  left, then the close.  The time to the close and the number of retransmissions
  are read off that list; so is the distance of two retransmissions, which is
  one tick, as `last_time` stays as it is when a block is sent again.
-/

import McuFirmware.Tftp.ErrorEnds
import McuFirmware.Tftp.Timeout
import McuFirmware.Tftp.Upload

namespace McuFirmware.Tftp

open McuFirmware.Lib McuFirmware.Lwip

-- ============================================================================
-- One tick
-- ============================================================================

/-- The ticks after which `tftp_server_tmr` still keeps a silent connection: the
    timeout, and one more for each retry of a read. -/
def patience (a : ConnArgs) : Nat := if a.op = tftpRrq then 105 else 100

/-- A live connection, `n` ticks after the last datagram of its peer. -/
structure Waited (n : Nat) (c : Conn) : Prop where
  live : c.Live
  idle : Conn.idle c.arg = n
  retries : c.arg.retries.toNat = n - 100
  le : n ≤ patience c.arg

/-- What the next tick does. -/
inductive WaitedTick (n : Nat) (e : Env) (c : Conn) : Conn → Prop where
  | wait (hn : n < 100) :
      WaitedTick n e c (c.after (Conn.ticked c.arg) c.fil [.tick] [])
  | resend (hle : 100 ≤ n) (hlt : n < 105) (hrrq : c.arg.op = tftpRrq) :
      WaitedTick n e c
        (c.after (Conn.retried c.arg) c.fil
          (.tick :: c.sentIf (e.pbufAlloc 0) (Conn.packetOf c.arg)) [])
  | giveUp (hn : n = patience c.arg) :
      WaitedTick n e c (c.after (Conn.ticked c.arg) c.fil [.tick] []).closed

section Tick

variable {n : Nat} {c : Conn}

theorem patience_le (a : ConnArgs) : patience a ≤ 105 := by
  unfold patience
  split <;> decide

theorem Waited.idle_ticked (h : Waited n c) : Conn.idle (Conn.ticked c.arg) = n + 1 := by
  have hle := h.le
  have hmax := patience_le c.arg
  rw [Conn.idle_ticked (by rw [h.idle]; omega), h.idle]

/-- **Inversion.** -/
theorem waited_tick (h : Waited n c) (e : Env) : WaitedTick n e c (c.step (.tick e)) := by
  have hidle := h.idle_ticked
  have hretries := h.retries
  have hle := h.le
  have hfive : tftpServerMaxRetries.toNat = 5 := rfl
  have hstep := Conn.step_tick h.live e
  generalize c.step (.tick e) = c' at hstep ⊢
  cases hstep with
  | quiet hquiet =>
      rw [Conn.timedOut_iff, hidle] at hquiet
      exact .wait (by omega)
  | resend hout hrrq hretry =>
      rw [Conn.timedOut_iff, hidle] at hout
      rw [UInt8.lt_iff_toNat_lt] at hretry
      exact .resend (by omega) (by omega) hrrq
  | giveUp hout hlast =>
      rw [Conn.timedOut_iff, hidle] at hout
      refine .giveUp ?_
      by_cases hrrq : c.arg.op = tftpRrq
      · -- all retries are used up
        have hlast' : ¬ c.arg.retries < tftpServerMaxRetries := fun hlt => hlast ⟨hrrq, hlt⟩
        rw [UInt8.lt_iff_toNat_lt] at hlast'
        rw [patience, if_pos hrrq] at hle ⊢
        omega
      · rw [patience, if_neg hrrq] at hle ⊢
        omega

theorem Waited.wait (h : Waited n c) (hn : n < 100) (es : List Event) :
    Waited (n + 1) (c.after (Conn.ticked c.arg) c.fil es []) where
  live := Conn.live_after h.live
  idle := h.idle_ticked
  retries := by
    change c.arg.retries.toNat = _
    rw [h.retries]
    omega
  le := by
    change n + 1 ≤ patience c.arg
    unfold patience
    split <;> omega

theorem Waited.resend (h : Waited n c) (hle : 100 ≤ n) (hlt : n < 105) (hrrq : c.arg.op = tftpRrq)
    (es : List Event) : Waited (n + 1) (c.after (Conn.retried c.arg) c.fil es []) where
  live := Conn.live_after h.live
  idle := h.idle_ticked
  retries := by
    have hretries := h.retries
    change (c.arg.retries + 1).toNat = _
    rw [UInt8.toNat_add, hretries]
    change (n - 100 + 1) % 2 ^ 8 = _
    omega
  le := by
    change n + 1 ≤ patience c.arg
    rw [patience, if_pos hrrq]
    omega

end Tick

-- ============================================================================
-- Silence until the close
-- ============================================================================

/-- The datagrams among the events. -/
def Event.isSent : Event → Bool
  | .sent _ _ _ => true
  | _ => false

/-- The number of datagrams sent. -/
def sends (es : List Event) : Nat := es.countP Event.isSent

theorem sends_sentIf_le (c : Conn) (alloc : Bool) (pkt : Packet) :
    sends (c.sentIf alloc pkt) ≤ 1 := by
  cases alloc
  · exact Nat.zero_le _
  · exact Nat.le_refl _

/-- The events of ticks: nothing but the ticks and the current block again, which
    only a read connection sends. -/
def OnlyResends (c : Conn) (es : List Event) : Prop :=
  ∀ ev ∈ es, ev = .tick ∨
    (c.arg.op = tftpRrq ∧ ev = .sent c.pcb.remoteIp c.pcb.remotePort (Conn.packetOf c.arg))

theorem OnlyResends.cons {c : Conn} {es : List Event} (h : OnlyResends c es) :
    OnlyResends c (.tick :: es) :=
  List.forall_mem_cons.mpr ⟨.inl rfl, h⟩

/-- **Run lemma.**  Ticks alone: the current block is sent at most once for each
    retry that is left, and the connection is kept as long as its patience lasts
    and no longer. -/
theorem waited_run {n : Nat} {c : Conn} (h : Waited n c) (envs : List Env) :
    (∃ es, (run Conn.step c (envs.map .tick)).log = c.log ++ es ∧ OnlyResends c es ∧
      sends es + (n - 100) ≤ 5) ∧
    (n + envs.length ≤ patience c.arg →
      Waited (n + envs.length) (run Conn.step c (envs.map .tick))) ∧
    (patience c.arg < n + envs.length → (run Conn.step c (envs.map .tick)).Dead) := by
  induction envs generalizing n c with
  | nil =>
      have hle := h.le
      have hmax := patience_le c.arg
      refine ⟨⟨[], (List.append_nil _).symm, List.forall_mem_nil _, ?_⟩, fun _ => h, fun hlt => ?_⟩
      · change 0 + (n - 100) ≤ 5
        omega
      · rw [List.length_nil, Nat.add_zero] at hlt
        omega
  | cons e envs ih =>
      have hassoc : n + (e :: envs).length = n + 1 + envs.length := by
        rw [List.length_cons]
        omega
      rw [List.map_cons, run_cons, hassoc]
      have hstep := waited_tick h e
      generalize c.step (.tick e) = c' at hstep ⊢
      cases hstep with
      | wait hn =>
          obtain ⟨⟨es, hlog, hes, hsends⟩, hkept, hclosed⟩ := ih (h.wait hn [.tick])
          refine ⟨⟨.tick :: es, ?_, OnlyResends.cons hes, ?_⟩, hkept, hclosed⟩
          · rw [hlog, Conn.after_log, List.append_assoc, List.singleton_append]
          · change sends es + (n - 100) ≤ 5
            omega
      | resend hle hlt hrrq =>
          obtain ⟨⟨es, hlog, hes, hsends⟩, hkept, hclosed⟩ := ih (h.resend hle hlt hrrq
            (.tick :: c.sentIf (e.pbufAlloc 0) (Conn.packetOf c.arg)))
          refine ⟨⟨.tick :: c.sentIf (e.pbufAlloc 0) (Conn.packetOf c.arg) ++ es, ?_, ?_, ?_⟩,
            hkept, hclosed⟩
          · rw [hlog, Conn.after_log, List.append_assoc]
          · have hsent : OnlyResends c (c.sentIf (e.pbufAlloc 0) (Conn.packetOf c.arg)) :=
              Conn.forall_sentIf (.inr ⟨hrrq, rfl⟩)
            rw [List.cons_append]
            exact OnlyResends.cons (List.forall_mem_append.mpr ⟨hsent, hes⟩)
          · have hone := sends_sentIf_le c (e.pbufAlloc 0) (Conn.packetOf c.arg)
            have hsum : sends (.tick :: c.sentIf (e.pbufAlloc 0) (Conn.packetOf c.arg) ++ es)
                = sends (c.sentIf (e.pbufAlloc 0) (Conn.packetOf c.arg)) + sends es :=
              List.countP_append
            omega
      | giveUp hn =>
          have hdead := Conn.closed_dead (c.after (Conn.ticked c.arg) c.fil [.tick] [])
          rw [Conn.run_of_dead hdead]
          refine ⟨⟨[.tick], rfl, OnlyResends.cons (List.forall_mem_nil _), ?_⟩, fun hle => ?_,
            fun _ => hdead⟩
          · have hmax := patience_le c.arg
            change 0 + (n - 100) ≤ 5
            omega
          · omega

-- ============================================================================
-- From any reachable state
-- ============================================================================

/-- The ticks since the last datagram. -/
def idleTicks (n : Nat) : List Input → Nat
  | [] => n
  | .datagram _ _ _ _ :: is => idleTicks 0 is
  | .tick _ :: is => idleTicks (n + 1) is

/-- **Step lemma.** -/
theorem waited_step {n : Nat} {c : Conn} (h : Waited n c) {i : Input} (hfits : StoresFit c i) :
    (c.step i).Dead ∨ Waited (idleTicks n [i]) (c.step i) := by
  cases i with
  | tick e =>
      have hstep := waited_tick h e
      generalize c.step (.tick e) = c' at hstep ⊢
      cases hstep with
      | wait hn => exact .inr (h.wait hn _)
      | resend hle hlt hrrq => exact .inr (h.resend hle hlt hrrq _)
      | giveUp => exact .inl (Conn.closed_dead _)
  | datagram e p addr port =>
      rcases Conn.settled_step (.inl h.live) (.datagram e p addr port) with hlive | hdead
      · obtain ⟨-, -, hidle, hretries⟩ := Conn.restarted_of_live h.live hfits hlive
        refine .inr ⟨hlive, hidle, ?_, Nat.zero_le _⟩
        rw [hretries]
        rfl
      · exact .inl hdead

theorem waited_reached {n : Nat} {c : Conn} (h : Waited n c) {is : List Input}
    (hfits : StepsMeet Conn.step StoresFit c is) :
    (run Conn.step c is).Dead ∨ Waited (idleTicks n is) (run Conn.step c is) := by
  induction is generalizing n c with
  | nil => exact .inr h
  | cons i is ih =>
      rcases waited_step h hfits.1 with hdead | hnext
      · left
        rw [run_cons, Conn.run_of_dead hdead]
        exact hdead
      · cases i with
        | tick e => exact ih hnext hfits.2
        | datagram e p addr port => exact ih hnext hfits.2

/-- A request starts the count. -/
theorem waited_request {r : Rq} {c : Conn} (hconn : r.conn = some c) :
    c.Dead ∨ (Waited 0 c ∧ (c.arg.op = tftpRrq ∨ c.arg.op = tftpWrq)) := by
  have hzero (stale : ConnArgs) :
      Conn.idle (Conn.opened r.env r.p r.addr r.port stale).arg = 0 := Conn.idle_eq_zero rfl
  have hstep := request_outcome r.env r.p r.addr r.port
  rw [show (requestRecvCallback r.env r.p r.addr r.port).conn = some c from hconn] at hstep
  cases hstep with
  | released _ hdead => exact .inl hdead
  | write stale hop =>
      have hlive := Conn.opened_live r.env r.p r.addr r.port stale
      exact .inr ⟨⟨Conn.live_after hlive, hzero stale, rfl, Nat.zero_le _⟩, .inr hop⟩
  | read stale hop =>
      have hlive := Conn.opened_live r.env r.p r.addr r.port stale
      exact .inr ⟨⟨Conn.live_after hlive, hzero stale, rfl, Nat.zero_le _⟩, .inl hop⟩
  | readError => exact .inl (Conn.closed_dead _)

/-- The same connection at another value of the tick counter. -/
def Conn.shifted (c : Conn) (δ : UInt32) : Conn :=
  { c with arg := { c.arg with timer := c.arg.timer + δ, lastTime := c.arg.lastTime + δ } }

theorem Waited.shifted {n : Nat} {c : Conn} (h : Waited n c) (δ : UInt32) :
    Waited n (c.shifted δ) where
  live := ⟨h.live.arg, h.live.fil, h.live.file, h.live.pcb, h.live.timer⟩
  idle := by
    have hlt := c.arg.lastTime.toNat_lt
    rw [← h.idle, Conn.idle, Conn.idle]
    change (c.arg.timer + δ - (c.arg.lastTime + δ)).toNat = _
    rw [UInt32.toNat_sub, UInt32.toNat_add, UInt32.toNat_add, UInt32.toNat_sub]
    omega
  retries := h.retries
  le := h.le

/-- **An idle connection is reclaimed.**  From every live connection reached without
    a store over the fields behind `parg->data`, at any value of its tick counter,
    a run of ticks sends nothing but the current block, at most five times and
    never on a write connection; and by tick 106 after the last datagram (101 on a
    write connection) nothing is held and no timer is armed. -/
theorem idle_reclaimed (r : Rq) (c : Conn) (hconn : r.conn = some c) (is : List Input)
    (hfits : StepsMeet Conn.step StoresFit c is) (hlive : (run Conn.step c is).Live) (δ : UInt32)
    (envs : List Env) :
    let c' := (run Conn.step c is).shifted δ
    let c'' := run Conn.step c' (envs.map .tick)
    (∃ es, c''.log = c'.log ++ es ∧ OnlyResends c' es ∧ sends es ≤ 5 ∧
      (c'.arg.op = tftpWrq → sends es = 0)) ∧
    (c'.arg.op = tftpRrq → 106 ≤ idleTicks 0 is + envs.length → c''.Dead ∧ c''.timers = 0) ∧
    (c'.arg.op = tftpWrq → 101 ≤ idleTicks 0 is + envs.length → c''.Dead ∧ c''.timers = 0) := by
  intro c' c''
  have hreached : Waited (idleTicks 0 is) c' := by
    rcases waited_request hconn with hdead | ⟨hwait, -⟩
    · rw [Conn.run_of_dead hdead] at hlive
      exact absurd hlive.pcb hdead.pcb_not_live
    · rcases waited_reached hwait hfits with hdead | hwaited
      · exact absurd hlive.pcb hdead.pcb_not_live
      · exact hwaited.shifted δ
  obtain ⟨⟨es, hlog, hes, hsends⟩, -, hclosed⟩ := waited_run hreached envs
  refine ⟨⟨es, hlog, hes, by omega, fun hwrq => ?_⟩, fun hrrq hle => ?_, fun hwrq hle => ?_⟩
  · rw [sends, List.countP_eq_zero]
    intro ev hev
    rcases hes ev hev with rfl | ⟨hrrq, -⟩
    · decide
    · exact absurd (hrrq.symm.trans hwrq) tftpRrq_ne_wrq
  · have hdead : c''.Dead := by
      apply hclosed
      rw [patience, if_pos hrrq]
      omega
    exact ⟨hdead, hdead.timer⟩
  · have hdead : c''.Dead := by
      apply hclosed
      rw [patience, if_neg (fun hrrq => tftpRrq_ne_wrq (hrrq.symm.trans hwrq))]
      omega
    exact ⟨hdead, hdead.timer⟩

/-- The connection of a client that writes. -/
def sampleWrite : Conn :=
  (Conn.opened (sampleReqEnv []) (sampleRq tftpWrq) 1 2 sampleArgs).after
    (Conn.opened (sampleReqEnv []) (sampleRq tftpWrq) 1 2 sampleArgs).arg
    (Conn.opened (sampleReqEnv []) (sampleRq tftpWrq) 1 2 sampleArgs).fil
    [.sent 1 2 (.ack 0)] []

theorem sampleWrite_conn :
    Rq.conn ⟨sampleReqEnv [], sampleRq tftpWrq, 1, 2⟩ = some sampleWrite :=
  request_granted_write (granted_sample [] (.inr rfl)) (by decide) 1 2

/-- A reader of one byte that is never heard of again, its counter about to wrap,
    and a writer that stops after a full block. -/
theorem idle_reclaimed_wrap :
    (run Conn.step (oneByteRead.shifted 0xFFFFFFF0)
      ((List.replicate 106 (Env.ok 0)).map .tick)).timers = 0 ∧
    (run Conn.step ((run Conn.step sampleWrite
        [.datagram (Env.ok 512) fullBlock 1 2]).shifted 0xFFFFFFF0)
      ((List.replicate 101 (Env.ok 0)).map .tick)).timers = 0 := by
  obtain ⟨-, hread, -⟩ := idle_reclaimed ⟨sampleReqEnv [7], sampleRq tftpRrq, 1, 2⟩ oneByteRead
    oneByteRead_conn [] trivial oneByteRead_live 0xFFFFFFF0 (List.replicate 106 (Env.ok 0))
  have hfits : StepsMeet Conn.step StoresFit sampleWrite [.datagram (Env.ok 512) fullBlock 1 2] :=
    ⟨fun _ _ _ => dataSized_fullBlock.2, trivial⟩
  have hlive : (run Conn.step sampleWrite [.datagram (Env.ok 512) fullBlock 1 2]).Live :=
    ⟨by decide +kernel, by decide +kernel, by decide +kernel, by decide +kernel,
      by decide +kernel⟩
  obtain ⟨-, -, hwrite⟩ := idle_reclaimed ⟨sampleReqEnv [], sampleRq tftpWrq, 1, 2⟩ sampleWrite
    sampleWrite_conn _ hfits hlive 0xFFFFFFF0 (List.replicate 101 (Env.ok 0))
  exact ⟨(hread (by decide) (by decide)).2, (hwrite (by decide +kernel) (by decide)).2⟩

/-- Block 1 with sixteen bytes more than `parg->data` holds: they are stored over
    `data_len` (512), `blknum` (0), `timer` (0), `last_time` (1) and `retries` (0). -/
def timerBlock : Pbuf :=
  Pbuf.ofBytes (Packet.data 1 (List.replicate 512 5
    ++ [0, 2, 0, 0, 0, 0, 0, 0, 1, 0, 0, 0, 0, 0, 0, 0])).encode (by
      rw [Packet.encode, List.length_append, List.length_append, List.length_append,
        List.length_replicate]
      decide)

/-- The writer sends that block and falls silent: `last_time` is ahead of `timer`,
    and the connection is still open at tick 101. -/
theorem overwritten_timer_outlives :
    Rq.conn ⟨sampleReqEnv [], sampleRq tftpWrq, 1, 2⟩ = some sampleWrite ∧
      (sampleWrite.step (.datagram (Env.ok 512) timerBlock 1 2)).arg.op = tftpWrq ∧
      (sampleWrite.step (.datagram (Env.ok 512) timerBlock 1 2)).arg.lastTime = 1 ∧
      (run Conn.step sampleWrite (.datagram (Env.ok 512) timerBlock 1 2 ::
        List.replicate 101 (.tick (Env.ok 0)))).timers = 1 ∧
      (run Conn.step sampleWrite (.datagram (Env.ok 512) timerBlock 1 2 ::
        List.replicate 102 (.tick (Env.ok 0)))).timers = 0 := by
  exact ⟨sampleWrite_conn, by decide +kernel, by decide +kernel, by decide +kernel,
    by decide +kernel⟩

-- ============================================================================
-- The distance of two retransmissions
-- ============================================================================

/-- A connection with a count of its ticks, and the blocks that ticks have sent,
    each with the tick and its block number. -/
structure Clocked where
  conn : Conn
  now : Nat
  resent : List (Nat × UInt16)

/-- What a step adds to the log. -/
def newEvents (c c' : Conn) : List Event := c'.log.drop c.log.length

def Clocked.step (k : Clocked) : Input → Clocked
  | .tick e =>
      let c := k.conn.step (.tick e)
      ⟨c, k.now + 1,
        k.resent ++ (dataSent (newEvents k.conn c)).map fun d => (k.now + 1, d.1)⟩
  | .datagram e p addr port => { k with conn := k.conn.step (.datagram e p addr port) }

theorem clocked_conn (k : Clocked) (is : List Input) :
    (run Clocked.step k is).conn = run Conn.step k.conn is := by
  induction is generalizing k with
  | nil => rfl
  | cons i is ih =>
      rw [run_cons, ih, run_cons]
      cases i <;> rfl

/-- More than the timeout passes between two retransmissions of one block. -/
def Spaced (k : Clocked) : Prop :=
  k.resent.Pairwise fun x y => x.2 = y.2 → x.1 + 100 < y.1

/-- The peer is heard of between a retransmission and the next tick: a tick that
    resends is the first to do so since the last datagram. -/
def PeerAnswers (k : Clocked) : Input → Prop
  | .tick _ => k.conn.Resends → k.conn.arg.retries = 0
  | .datagram _ _ _ _ => True

instance (k : Clocked) : (i : Input) → Decidable (PeerAnswers k i)
  | .tick _ => inferInstanceAs (Decidable (_ → _))
  | .datagram _ _ _ _ => isTrue trivial

/-- The retransmissions are spaced, and at least the silence so far lies behind
    the last one, unless it was the last thing to happen. -/
structure Pacing (n : Nat) (k : Clocked) : Prop where
  spaced : Spaced k
  past : ∀ x ∈ k.resent, x.1 + (if k.conn.arg.retries = 0 then n else 0) ≤ k.now

theorem newEvents_after (c : Conn) (a : ConnArgs) (f : Fil) (es : List Event) (fs : List Fault) :
    newEvents c (c.after a f es fs) = es := by
  rw [newEvents, Conn.after_log, List.drop_left]

section Spacing

variable {n : Nat} {k : Clocked}

theorem Pacing.now_le (h : Pacing n k) : ∀ x ∈ k.resent, x.1 ≤ k.now :=
  fun x hx => Nat.le_of_add_right_le (h.past x hx)

/-- A tick that sends no block lets time pass. -/
theorem Pacing.pass (h : Pacing n k) {c : Conn} (hretries : c.arg.retries = k.conn.arg.retries) :
    Pacing (n + 1) ⟨c, k.now + 1, k.resent⟩ where
  spaced := h.spaced
  past x hx := by
    have hpast := h.past x hx
    change x.1 + (if c.arg.retries = 0 then n + 1 else 0) ≤ k.now + 1
    rw [hretries]
    split at hpast
    next hzero =>
      rw [if_pos hzero]
      omega
    next hzero =>
      rw [if_neg hzero]
      omega

/-- The first retransmission after a silence of 100 ticks. -/
theorem Pacing.send (h : Pacing 100 k) (hretries : k.conn.arg.retries = 0) {c : Conn}
    (hcount : c.arg.retries = 1) {blks : List UInt16} (hone : blks.length ≤ 1) :
    Pacing 101 ⟨c, k.now + 1, k.resent ++ blks.map fun b => (k.now + 1, b)⟩ where
  spaced := by
    have hpast : ∀ x ∈ k.resent, x.1 + 100 ≤ k.now := by
      intro x hx
      have hx' := h.past x hx
      rwa [if_pos hretries] at hx'
    refine List.pairwise_append.mpr ⟨h.spaced, ?_, ?_⟩
    · -- one tick sends one block at most
      cases blks with
      | nil => exact .nil
      | cons b rest =>
          obtain rfl : rest = [] := by simpa using hone
          exact List.pairwise_singleton _ _
    · intro x hx y hy _
      obtain ⟨b, -, rfl⟩ := List.mem_map.mp hy
      exact Nat.lt_succ_of_le (hpast x hx)
  past x hx := by
    change x.1 + (if c.arg.retries = 0 then 101 else 0) ≤ k.now + 1
    rw [hcount, if_neg (by decide), Nat.add_zero]
    rcases List.mem_append.mp hx with hx | hx
    · exact Nat.le_succ_of_le (h.now_le x hx)
    · obtain ⟨b, -, rfl⟩ := List.mem_map.mp hx
      exact Nat.le_refl _

/-- The timer of the connection sends no block: it is closed, or not opened for
    reading. -/
def Mute (c : Conn) : Prop := c.Dead ∨ (c.Live ∧ c.arg.op ≠ tftpRrq)

theorem mute_step {c : Conn} (h : Mute c) (i : Input) : Mute (c.step i) := by
  rcases h with hdead | ⟨hlive, hop⟩
  · rw [Conn.step_of_dead hdead]
    exact .inl hdead
  · rcases Conn.settled_step (.inl hlive) i with hnext | hdead
    · refine .inr ⟨hnext, ?_⟩
      rw [(Conn.kept_step hlive i hnext).request.op]
      exact hop
    · exact .inl hdead

theorem mute_tick {c : Conn} (h : Mute c) (e : Env) :
    dataSent (newEvents c (c.step (.tick e))) = [] := by
  rcases h with hdead | ⟨hlive, hop⟩
  · rw [Conn.step_of_dead hdead, newEvents, List.drop_length]
    rfl
  · have hnew : newEvents c (c.after (Conn.ticked c.arg) c.fil [.tick] []) = [.tick] :=
      newEvents_after c _ _ _ _
    have hstep := Conn.step_tick hlive e
    generalize c.step (.tick e) = c' at hstep ⊢
    cases hstep with
    | quiet =>
        rw [hnew]
        rfl
    | resend _ hrrq => exact absurd hrrq hop
    | giveUp =>
        change dataSent (newEvents c (c.after (Conn.ticked c.arg) c.fil [.tick] [])) = []
        rw [hnew]
        rfl

/-- The retransmissions are spaced, and no more will come, or the connection waits
    for the next one. -/
def SpacedSoFar (k : Clocked) : Prop :=
  (Mute k.conn ∧ Spaced k) ∨ ∃ n, k.conn.arg.op = tftpRrq ∧ Waited n k.conn ∧ Pacing n k

theorem SpacedSoFar.spaced (h : SpacedSoFar k) : Spaced k := by
  rcases h with ⟨-, hspaced⟩ | ⟨n, -, -, hpacing⟩
  · exact hspaced
  · exact hpacing.spaced

/-- **Step lemma, ticks.** -/
theorem spacedSoFar_tick (hop : k.conn.arg.op = tftpRrq) (hwait : Waited n k.conn)
    (h : Pacing n k) (e : Env)
    (hanswers : k.conn.Resends → k.conn.arg.retries = 0) : SpacedSoFar (k.step (.tick e)) := by
  have hstep := waited_tick hwait e
  simp only [Clocked.step]
  generalize k.conn.step (.tick e) = c' at hstep
  cases hstep with
  | wait hn =>
      rw [newEvents_after]
      refine .inr ⟨n + 1, hop, hwait.wait hn _, ?_⟩
      change Pacing (n + 1) ⟨_, k.now + 1, k.resent ++ []⟩
      rw [List.append_nil]
      exact h.pass rfl
  | resend hle hlt hrrq =>
      have hresends : k.conn.Resends := by
        refine ⟨?_, hrrq, ?_⟩
        · rw [Conn.timedOut_iff, hwait.idle_ticked]
          omega
        · rw [UInt8.lt_iff_toNat_lt, hwait.retries]
          change n - 100 < 5
          omega
      have hzero := hanswers hresends
      obtain rfl : n = 100 := by
        have hretries := hwait.retries
        rw [hzero] at hretries
        change 0 = n - 100 at hretries
        omega
      rw [newEvents_after]
      refine .inr ⟨101, hop, hwait.resend hle hlt hrrq _, ?_⟩
      have hmap : ((dataSent (.tick :: k.conn.sentIf (e.pbufAlloc 0)
          (Conn.packetOf k.conn.arg))).map fun d => (k.now + 1, d.1))
          = ((dataSent (.tick :: k.conn.sentIf (e.pbufAlloc 0)
            (Conn.packetOf k.conn.arg))).map Prod.fst).map fun b => (k.now + 1, b) := by
        rw [List.map_map]
        rfl
      rw [hmap]
      refine h.send hzero ?_ ?_
      · change k.conn.arg.retries + 1 = 1
        rw [hzero]
        rfl
      · rw [List.length_map]
        cases e.pbufAlloc 0 with
        | false => exact Nat.zero_le _
        | true => exact Nat.le_refl _
  | giveUp =>
      refine .inl ⟨.inl (Conn.closed_dead _), ?_⟩
      have hnew : newEvents k.conn (k.conn.after (Conn.ticked k.conn.arg) k.conn.fil
          [.tick] []).closed = [.tick] :=
        newEvents_after k.conn (Conn.ticked k.conn.arg) k.conn.fil [.tick] []
      rw [hnew]
      change Spaced ⟨_, _, k.resent ++ []⟩
      rw [List.append_nil]
      exact h.spaced

/-- **Step lemma.** -/
theorem spacedSoFar_step (h : SpacedSoFar k) {i : Input} (hanswers : PeerAnswers k i) :
    SpacedSoFar (k.step i) := by
  rcases h with ⟨hmute, hspaced⟩ | ⟨n, hop, hwait, hpacing⟩
  · left
    have hnext := mute_step hmute i
    cases i with
    | datagram e p addr port => exact ⟨hnext, hspaced⟩
    | tick e =>
        simp only [Clocked.step, mute_tick hmute e]
        refine ⟨hnext, ?_⟩
        change Spaced ⟨_, _, k.resent ++ []⟩
        rw [List.append_nil]
        exact hspaced
  · cases i with
    | tick e => exact spacedSoFar_tick hop hwait hpacing e hanswers
    | datagram e p addr port =>
        rcases waited_step hwait (storesFit_of_read hop (.datagram e p addr port)) with
          hdead | hnext
        · exact .inl ⟨.inl hdead, hpacing.spaced⟩
        · have hop' : (k.conn.step (.datagram e p addr port)).arg.op = tftpRrq := by
            rw [(Conn.kept_step hwait.live _ hnext.live).request.op, hop]
          refine .inr ⟨0, hop', hnext, hpacing.spaced, fun x hx => ?_⟩
          have hnow := hpacing.now_le x hx
          split
          · exact hnow
          · exact hnow

end Spacing

/-- **Retransmissions are spaced by the timeout** in every run of a connection in
    which the peer is heard of between a retransmission and the
    next tick. -/
theorem retransmissions_spaced (r : Rq) (c : Conn) (hconn : r.conn = some c) (is : List Input)
    (hanswers : StepsMeet Clocked.step PeerAnswers ⟨c, 0, []⟩ is) :
    (run Clocked.step ⟨c, 0, []⟩ is).conn = run Conn.step c is ∧
      Spaced (run Clocked.step ⟨c, 0, []⟩ is) := by
  refine ⟨clocked_conn _ _, SpacedSoFar.spaced ?_⟩
  refine run_inv (I := SpacedSoFar) (C := PeerAnswers) (fun k i h hi => spacedSoFar_step h hi) ?_
    hanswers
  rcases waited_request hconn with hdead | ⟨hwait, hop | hop⟩
  · exact .inl ⟨.inl hdead, .nil⟩
  · exact .inr ⟨0, hop, hwait, .nil, List.forall_mem_nil _⟩
  · refine .inl ⟨.inr ⟨hwait.live, ?_⟩, .nil⟩
    rw [hop]
    exact tftpRrq_ne_wrq.symm

/-- The reader answers the retransmission of tick 101 and then falls silent again,
    until tick 202. -/
theorem retransmissions_spaced_answered :
    let is := pausedAck oneByteRead (Env.ok 0) 0 101 101
    Spaced (run Clocked.step ⟨oneByteRead, 0, []⟩ is) ∧
      (run Clocked.step ⟨oneByteRead, 0, []⟩ is).resent = [(101, 1), (202, 1)] := by
  intro is
  have hanswers : StepsMeet Clocked.step PeerAnswers ⟨oneByteRead, 0, []⟩ is := by decide +kernel
  obtain ⟨-, hspaced⟩ := retransmissions_spaced ⟨sampleReqEnv [7], sampleRq tftpRrq, 1, 2⟩
    oneByteRead oneByteRead_conn is hanswers
  exact ⟨hspaced, by decide +kernel⟩

/-- Without an answer the block is sent again with each of the ticks 101 to 105,
    and tick 106 gives up. -/
theorem retransmissions_every_tick :
    Rq.conn ⟨sampleReqEnv [7], sampleRq tftpRrq, 1, 2⟩ = some oneByteRead ∧
      (run Clocked.step ⟨oneByteRead, 0, []⟩ (List.replicate 106 (.tick (Env.ok 0)))).resent
        = [(101, 1), (102, 1), (103, 1), (104, 1), (105, 1)] ∧
      ¬ Spaced (run Clocked.step ⟨oneByteRead, 0, []⟩ (List.replicate 106 (.tick (Env.ok 0)))) ∧
      (run Conn.step oneByteRead (List.replicate 106 (.tick (Env.ok 0)))).pcbLive = false := by
  have hresent : (run Clocked.step ⟨oneByteRead, 0, []⟩
      (List.replicate 106 (.tick (Env.ok 0)))).resent
        = [(101, 1), (102, 1), (103, 1), (104, 1), (105, 1)] := by decide +kernel
  refine ⟨oneByteRead_conn, hresent, ?_, by decide +kernel⟩
  rw [Spaced, hresent]
  decide

end McuFirmware.Tftp
