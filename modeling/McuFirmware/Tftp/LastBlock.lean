/-
  McuFirmware.Tftp.LastBlock

  How a download ends.

  The ACK handler reads and sends the next block first and tests its length
  afterwards, so the connection is closed in the step that sends a short block
  from there.  The first block is sent by the request handler, which makes no
  such test.  Both consequences are exact in the length of the file: a block
  that ends the transfer from the ACK handler cannot be sent again, and a file
  of less than one block is followed by a second, empty one.
-/

import McuFirmware.Tftp.Download

namespace McuFirmware.Tftp

open McuFirmware.Lib McuFirmware.Lwip

-- ============================================================================
-- The ACK of the current block
-- ============================================================================

section Ack

variable {content : List UInt8} {c : Conn}

/-- The ACK of the current block fetches the next one, and closes the
    connection when that one is short. -/
theorem InStep.step_ack (h : InStep content c) {e : Env} {p : Pbuf} {addr : UInt32}
    {port : UInt16} (hpeer : c.FromPeer addr port) (hack : p.u16 0 = tftpAck)
    (hblk : p.u16 1 = c.arg.blknum) (hread : e.fRead = 0) :
    c.step (.datagram e p addr port)
      = if finalIndex content ≤ blocksRead c.log + 1 then (c.fetched e p).closed
        else c.fetched e p := by
  have hshort : (c.advanced c.arg).dataLen.toNat < tftpDataLenMax
      ↔ finalIndex content ≤ blocksRead c.log + 1 := by
    rw [h.dataLen_advanced]
    exact length_fileBlock_lt_iff (Nat.le_add_left 1 _)
  rw [Conn.step_recvAck h.live hpeer hack, Conn.recvAck_advance h.live h.op_ne_wrq hblk hread]
  simp only [hshort]

theorem Downloading.fetched (h : Downloading content c) (hin : InStep content c) (e : Env)
    (p : Pbuf) : Downloading content (c.fetched e p) ∧
      blocksRead (c.fetched e p).log = blocksRead c.log + 1 :=
  hin.fetched h.sends (Conn.sameRequest_refreshed _) rfl [.recv p] [.pbufFree] (by simp [Still])
    (by simp [Still]) (e.pbufAlloc 0) _

end Ack

-- ============================================================================
-- Ticks that do not time out
-- ============================================================================

/-- The last datagram arrived in the current tick. -/
def Fresh (c : Conn) : Prop := c.arg.lastTime = c.arg.timer

/-- The argument block `k` ticks later. -/
def tickedBy (k : Nat) (a : ConnArgs) : ConnArgs := { a with timer := a.timer + UInt32.ofNat k }

theorem sameRequest_tickedBy (k : Nat) (a : ConnArgs) :
    Conn.SameRequest a (tickedBy k a) := ⟨rfl, rfl, rfl⟩

theorem not_timedOut_of_fresh {c : Conn} (hfresh : Fresh c) {k : Nat} (hk : k < 100) :
    ¬ Conn.TimedOut (Conn.ticked (tickedBy k c.arg)) := by
  have hlt := c.arg.timer.toNat_lt
  have hdiff : (c.arg.timer + UInt32.ofNat k + 1 - c.arg.lastTime).toNat = k + 1 := by
    rw [hfresh, UInt32.toNat_sub, UInt32.toNat_add, UInt32.toNat_add, UInt32.toNat_ofNat',
      UInt32.toNat_one]
    omega
  intro hout
  have hlarge : 100 < (c.arg.timer + UInt32.ofNat k + 1 - c.arg.lastTime).toNat :=
    UInt32.lt_iff_toNat_lt.mp hout
  omega

theorem step_tick_quiet {c : Conn} (hlive : c.Live) (e : Env)
    (hquiet : ¬ Conn.TimedOut (Conn.ticked c.arg)) :
    c.step (.tick e) = c.after (Conn.ticked c.arg) c.fil [.tick] [] := by
  have hstep := Conn.step_tick hlive e
  generalize c.step (.tick e) = c' at hstep ⊢
  cases hstep with
  | quiet => rfl
  | resend hout => exact absurd hout hquiet
  | giveUp hout => exact absurd hout hquiet

theorem ticked_tickedBy (k : Nat) (a : ConnArgs) :
    Conn.ticked (tickedBy k a) = tickedBy (k + 1) a := by
  simp only [Conn.ticked, tickedBy, UInt32.ofNat_add, UInt32.add_assoc]
  rfl

/-- A pause of at most the timeout only advances the timer. -/
theorem run_pause {c : Conn} (hlive : c.Live) (hfresh : Fresh c) (e : Env) {k : Nat}
    (hk : k ≤ 100) :
    run Conn.step c (List.replicate k (.tick e))
      = c.after (tickedBy k c.arg) c.fil (List.replicate k .tick) [] := by
  induction k with
  | zero => simp [Conn.after, tickedBy]
  | succ k ih =>
      have hquiet := not_timedOut_of_fresh hfresh (Nat.lt_of_succ_le hk)
      have hstep : (c.after (tickedBy k c.arg) c.fil (List.replicate k .tick) []).step (.tick e)
          = _ := step_tick_quiet (Conn.live_after hlive) e hquiet
      rw [List.replicate_succ', run_concat, ih (Nat.le_of_succ_le hk), hstep, Conn.after_arg,
        ticked_tickedBy]
      simp [Conn.after, List.replicate_succ']

-- ============================================================================
-- A lock-step client
-- ============================================================================

/-- The DATA datagrams sent, in order. -/
def dataSent : List Event → List (UInt16 × List UInt8)
  | [] => []
  | .sent _ _ (.data blknum bytes) :: log => (blknum, bytes) :: dataSent log
  | _ :: log => dataSent log

theorem dataSent_append (l es : List Event) : dataSent (l ++ es) = dataSent l ++ dataSent es := by
  induction l with
  | nil => rfl
  | cons ev l ih =>
      cases ev with
      | sent ip port pkt => cases pkt <;> simp only [List.cons_append, dataSent, ih]
      | _ => simp only [List.cons_append, dataSent, ih]

theorem dataSent_replicate_tick (k : Nat) : dataSent (List.replicate k Event.tick) = [] := by
  induction k with
  | zero => rfl
  | succ k ih =>
      rw [List.replicate_succ]
      exact ih

/-- A client that answers every DATA datagram with the ACK of its number, in
    order, the `j`-th one after `pause j` ticks of the server's timer. -/
def lockstep (e : Env) (pause : Nat → Nat) : Nat → Nat → Conn → Conn
  | 0, _, c => c
  | fuel + 1, answered, c =>
      match (dataSent c.log)[answered]? with
      | none => c
      | some (blknum, _) =>
          let c := run Conn.step c (List.replicate (pause answered) (.tick e))
          lockstep e pause fuel (answered + 1)
            (c.step (.datagram e (ackPbuf blknum) c.arg.remoteIp c.arg.remotePort))

/-- The first `i` blocks of a file, numbered modulo `2^16`. -/
def sentBlocks (content : List UInt8) (i : Nat) : List (UInt16 × List UInt8) :=
  (List.range i).map fun k => (UInt16.ofNat (k + 1), fileBlock content (k + 1))

theorem sentBlocks_succ (content : List UInt8) (i : Nat) :
    sentBlocks content (i + 1)
      = sentBlocks content i ++ [(UInt16.ofNat (i + 1), fileBlock content (i + 1))] := by
  rw [sentBlocks, List.range_succ, List.map_append]
  rfl

/-- The connection has sent each of its first `i` blocks once, the last one in
    the current tick. -/
structure SentOnce (content : List UInt8) (i : Nat) (c : Conn) : Prop where
  down : Downloading content c
  inStep : InStep content c
  index : blocksRead c.log = i
  sent : dataSent c.log = sentBlocks content i
  fresh : Fresh c

section Lockstep

variable {content : List UInt8} {i : Nat} {c : Conn} {e : Env}

/-- A pause does not disturb what was sent. -/
theorem SentOnce.paused (h : SentOnce content i c) (e : Env) {k : Nat} (hk : k ≤ 100) :
    InStep content (run Conn.step c (List.replicate k (.tick e))) ∧
      blocksRead (run Conn.step c (List.replicate k (.tick e))).log = i ∧
      dataSent (run Conn.step c (List.replicate k (.tick e))).log = sentBlocks content i := by
  have hreads : blocksRead (List.replicate k Event.tick) = 0 := by
    apply blocksRead_still
    intro ev hev
    rw [List.eq_of_mem_replicate hev]
    trivial
  have hsends := dataSent_replicate_tick k
  rw [run_pause h.inStep.live h.fresh e hk]
  refine ⟨h.inStep.still (sameRequest_tickedBy k _) rfl rfl rfl hreads [], ?_, ?_⟩
  · rw [Conn.after_log, blocksRead_append, hreads, Nat.add_zero, h.index]
  · rw [Conn.after_log, dataSent_append, hsends, List.append_nil, h.sent]

theorem dataSent_fetched (hin : InStep content c) (halloc : e.pbufAlloc 0 = true) (p : Pbuf) :
    dataSent (c.fetched e p).log
      = dataSent c.log ++ [(UInt16.ofNat (blocksRead c.log + 1),
          fileBlock content (blocksRead c.log + 1))] := by
  have hpkt : Conn.packetOf (c.advanced (Conn.refreshed c.arg)) = _ := hin.packetOf_advanced rfl
  rw [Conn.fetched, Conn.after_log, dataSent_append, hpkt, Conn.sentIf, if_pos halloc]
  rfl

/-- The client's next answer: block `i + 1` is sent, and the connection is
    closed if it is short. -/
theorem SentOnce.answered (h : SentOnce content i c) (hread : e.fRead = 0)
    (halloc : e.pbufAlloc 0 = true) {k : Nat} (hk : k ≤ 100) {c' c'' : Conn}
    (hc' : c' = run Conn.step c (List.replicate k (.tick e)))
    (hc'' : c'' = c'.step (.datagram e (ackPbuf (UInt16.ofNat i)) c'.arg.remoteIp
      c'.arg.remotePort)) :
    dataSent c''.log = sentBlocks content (i + 1) ∧
      if finalIndex content ≤ i + 1 then c''.Dead else SentOnce content (i + 1) c'' := by
  obtain ⟨hin, hindex, hsent⟩ := h.paused e hk
  have hdown := downloading_run h.down (List.replicate k (.tick e))
  rw [← hc'] at hin hindex hsent hdown
  have hblk : (ackPbuf (UInt16.ofNat i)).u16 1 = c'.arg.blknum := by
    rw [ackPbuf_blknum, hin.blknum, hindex]
  obtain ⟨hdown', hnext⟩ := hdown.fetched hin e (ackPbuf (UInt16.ofNat i))
  have hsent' := dataSent_fetched hin halloc (ackPbuf (UInt16.ofNat i))
  rw [hindex] at hnext
  rw [hindex, hsent, ← sentBlocks_succ] at hsent'
  rw [hin.step_ack ⟨rfl, rfl⟩ (ackPbuf_opcode _) hblk hread, hindex] at hc''
  by_cases hlast : finalIndex content ≤ i + 1
  · rw [if_pos hlast] at hc'' ⊢
    rw [hc'']
    exact ⟨hsent', Conn.closed_dead _⟩
  · rw [if_neg hlast] at hc'' ⊢
    rw [hc'']
    exact ⟨hsent', hdown', hdown'.inStep hin.live.pcb, hnext, hsent', rfl⟩

theorem sentBlocks_getElem? (content : List UInt8) {j i : Nat} (hj : j < i) :
    (sentBlocks content i)[j]? = some (UInt16.ofNat (j + 1), fileBlock content (j + 1)) := by
  simp [sentBlocks, hj]

/-- A closed connection takes no further answers. -/
theorem lockstep_of_dead (h : c.Dead) (pause : Nat → Nat) (fuel answered : Nat) :
    lockstep e pause fuel answered c = c := by
  have hrun (is : List Input) : run Conn.step c is = c := by
    induction is with
    | nil => rfl
    | cons i is ih => rw [run_cons, Conn.step_of_dead h, ih]
  induction fuel generalizing answered with
  | zero => rfl
  | succ fuel ih =>
      rw [lockstep]
      cases (dataSent c.log)[answered]? with
      | none => rfl
      | some d => simp only [hrun, Conn.step_of_dead h, ih]

/-- From block `i` on, the lock-step run sends each further block once, up to
    the first short block that is not the first block, and then closes. -/
theorem lockstep_finish (hread : e.fRead = 0) (halloc : e.pbufAlloc 0 = true)
    {pause : Nat → Nat} (hpause : ∀ j, pause j ≤ 100) (d : Nat) :
    ∀ {j : Nat} {c : Conn} {fuel : Nat}, SentOnce content (j + 1) c →
      j + 2 + d = max (finalIndex content) 2 → d + 1 ≤ fuel →
      dataSent (lockstep e pause fuel j c).log
          = sentBlocks content (max (finalIndex content) 2) ∧
        (lockstep e pause fuel j c).Dead := by
  induction d with
  | zero =>
      intro j c fuel h hd hfuel
      obtain ⟨fuel, rfl⟩ : ∃ f, fuel = f + 1 := ⟨fuel - 1, by omega⟩
      obtain ⟨hsent, hend⟩ := h.answered hread halloc (hpause j) rfl rfl
      rw [if_pos (by omega)] at hend
      rw [lockstep, h.sent, sentBlocks_getElem? content (Nat.lt_succ_self j)]
      simp only [lockstep_of_dead hend]
      rw [← hd]
      exact ⟨hsent, hend⟩
  | succ d ih =>
      intro j c fuel h hd hfuel
      obtain ⟨fuel, rfl⟩ : ∃ f, fuel = f + 1 := ⟨fuel - 1, by omega⟩
      obtain ⟨hsent, hend⟩ := h.answered hread halloc (hpause j) rfl rfl
      rw [if_neg (by omega)] at hend
      rw [lockstep, h.sent, sentBlocks_getElem? content (Nat.lt_succ_self j)]
      exact ih hend (by omega) (by omega)

end Lockstep

/-- A read request that got its pbuf has sent block 1. -/
theorem sentOnce_request {e : ReqEnv} {p : Pbuf} {addr : UInt32} {port : UInt16} {c : Conn}
    (hrrq : p.u16 0 = tftpRrq) (hconn : (requestRecvCallback e p addr port).conn = some c)
    (hlive : c.pcbLive = true) (halloc : e.lib.pbufAlloc 0 = true) :
    SentOnce e.content 1 c := by
  obtain ⟨hdown, hone⟩ := downloading_request hrrq hconn
  have hin := hdown.inStep hlive
  obtain ⟨stale, rfl⟩ := live_read_request hrrq hconn hlive
  have hpos : Positioned e.content 0 (Conn.opened e p addr port stale) :=
    opened_positioned hrrq stale
  refine ⟨hdown, hin, hone hlive, ?_, rfl⟩
  rw [Conn.openedRead, Conn.after_log, hpos.packetOf_advanced rfl, Conn.sentIf, if_pos halloc]
  rfl

/-- The whole lock-step run: the blocks up to the first short one, but at least
    two. -/
theorem lockstep_sends {e : ReqEnv} {p : Pbuf} {addr : UInt32} {port : UInt16} {c : Conn}
    (hrrq : p.u16 0 = tftpRrq) (hconn : (requestRecvCallback e p addr port).conn = some c)
    (hlive : c.pcbLive = true) (halloc : e.lib.pbufAlloc 0 = true) (env : Env)
    (hread : env.fRead = 0) (hsend : env.pbufAlloc 0 = true) (pause : Nat → Nat)
    (hpause : ∀ j, pause j ≤ 100) {fuel : Nat} (hfuel : max (finalIndex e.content) 2 ≤ fuel) :
    dataSent (lockstep env pause fuel 0 c).log
        = sentBlocks e.content (max (finalIndex e.content) 2) ∧
      (lockstep env pause fuel 0 c).Dead := by
  have hstart := sentOnce_request hrrq hconn hlive halloc
  have hd : 0 + 2 + (max (finalIndex e.content) 2 - 2) = max (finalIndex e.content) 2 := by omega
  exact lockstep_finish hread hsend hpause _ hstart hd (by omega)

-- ============================================================================
-- Exactly one short block
-- ============================================================================

/-- Number and length of the datagrams of a download of `n` bytes. -/
def expectedSends (n : Nat) : List (UInt16 × Nat) :=
  (List.range (n / tftpDataLenMax)).map (fun k => (UInt16.ofNat (k + 1), tftpDataLenMax))
    ++ [(UInt16.ofNat (n / tftpDataLenMax + 1), n % tftpDataLenMax)]

/-- The lock-step run, however long it goes on, sends exactly the datagrams of
    the file and leaves the connection closed. -/
def EndsWithOneShortBlock (env : Env) (pause : Nat → Nat) (n : Nat) (c : Conn) : Prop :=
  ∃ enough, ∀ fuel, enough ≤ fuel →
    (dataSent (lockstep env pause fuel 0 c).log).map (fun d => (d.1, d.2.length))
        = expectedSends n ∧
      (lockstep env pause fuel 0 c).Dead

theorem sentBlocks_lengths (content : List UInt8) :
    (sentBlocks content (finalIndex content)).map (fun d => (d.1, d.2.length))
      = expectedSends content.length := by
  rw [finalIndex, sentBlocks_succ, List.map_append, expectedSends]
  congr 1
  · rw [sentBlocks, List.map_map]
    apply List.map_congr_left
    intro k hk
    simp only [Function.comp, fileBlock, Nat.add_sub_cancel]
    rw [length_blockAt_of_lt (List.mem_range.mp hk)]
  · simp only [List.map_cons, List.map_nil, fileBlock, Nat.add_sub_cancel]
    rw [length_blockAt_last content (by decide)]

theorem two_le_finalIndex_iff (content : List UInt8) :
    2 ≤ finalIndex content ↔ tftpDataLenMax ≤ content.length := by
  rw [finalIndex, tftpDataLenMax]
  omega

/-- **A download ends with exactly one short block iff the file fills at least
    one block.**  A shorter file is sent whole in block 1 by the request
    handler, and its ACK still makes the ACK handler send an empty block 2. -/
theorem one_short_block_iff (e : ReqEnv) (p : Pbuf) (addr : UInt32) (port : UInt16) (c : Conn)
    (hrrq : p.u16 0 = tftpRrq) (hconn : (requestRecvCallback e p addr port).conn = some c)
    (hlive : c.pcbLive = true) (halloc : e.lib.pbufAlloc 0 = true) (env : Env)
    (hread : env.fRead = 0) (hsend : env.pbufAlloc 0 = true) (pause : Nat → Nat)
    (hpause : ∀ j, pause j ≤ 100) :
    EndsWithOneShortBlock env pause e.content.length c ↔ tftpDataLenMax ≤ e.content.length := by
  have hsends (fuel : Nat) (hfuel : max (finalIndex e.content) 2 ≤ fuel) :=
    lockstep_sends hrrq hconn hlive halloc env hread hsend pause hpause hfuel
  constructor
  · rintro ⟨enough, hends⟩
    obtain ⟨hsent, -⟩ := hends (max enough (max (finalIndex e.content) 2)) (Nat.le_max_left _ _)
    rw [(hsends _ (Nat.le_max_right _ _)).1, ← sentBlocks_lengths] at hsent
    have hcount := congrArg List.length hsent
    simp only [List.length_map, sentBlocks, List.length_range] at hcount
    rw [← two_le_finalIndex_iff]
    omega
  · intro hfull
    have hmax : max (finalIndex e.content) 2 = finalIndex e.content :=
      Nat.max_eq_left ((two_le_finalIndex_iff _).mpr hfull)
    refine ⟨max (finalIndex e.content) 2, ?_⟩
    intro fuel hfuel
    obtain ⟨hsent, hdead⟩ := hsends fuel hfuel
    rw [hsent, hmax, sentBlocks_lengths]
    exact ⟨rfl, hdead⟩

/-- A sample client reads a file of exactly one full block. -/
theorem one_short_block_full :
    ∃ c, (requestRecvCallback (sampleReqEnv (List.replicate 512 7)) (sampleRq tftpRrq) 1 2).conn
        = some c ∧ EndsWithOneShortBlock (Env.ok 0) (fun _ => 0) 512 c := by
  have hconn := request_granted_read (granted_sample (List.replicate 512 7) (.inl rfl))
    (by decide) rfl 1 2
  have hiff := one_short_block_iff _ _ 1 2 _ (by decide) hconn rfl rfl (Env.ok 0) rfl rfl
    (fun _ => 0) (fun _ => Nat.zero_le 100)
  simp only [sampleReqEnv, List.length_replicate] at hiff
  exact ⟨_, hconn, hiff.mpr (Nat.le_refl 512)⟩

/-- A file of three bytes is followed by an empty second block. -/
theorem short_file_sent_with_empty_block :
    ∃ c, (requestRecvCallback (sampleReqEnv [7, 8, 9]) (sampleRq tftpRrq) 1 2).conn = some c ∧
      (∀ fuel, 2 ≤ fuel → dataSent (lockstep (Env.ok 0) (fun _ => 0) fuel 0 c).log
        = [(1, [7, 8, 9]), (2, [])]) ∧
      ¬ EndsWithOneShortBlock (Env.ok 0) (fun _ => 0) 3 c := by
  have hconn := request_granted_read (granted_sample [7, 8, 9] (.inl rfl)) (by decide) rfl 1 2
  have hsent (fuel : Nat) (hfuel : 2 ≤ fuel) :=
    (lockstep_sends (by decide) hconn rfl rfl (Env.ok 0) rfl rfl (fun _ => 0)
      (fun _ => Nat.zero_le 100) hfuel).1
  refine ⟨_, hconn, hsent, ?_⟩
  rintro ⟨enough, hends⟩
  obtain ⟨hexp, -⟩ := hends (max enough 2) (Nat.le_max_left _ _)
  rw [hsent _ (Nat.le_max_right _ _)] at hexp
  exact absurd hexp (by decide)

-- ============================================================================
-- Retransmitting the last block
-- ============================================================================

/-- Nothing happens that ends the transfer: the datagram comes from the peer, is
    no ERROR, no DATA and not the ACK of the final block, `f_read` succeeds,
    and the tick does not exhaust the retries. -/
def Harmless (content : List UInt8) (c : Conn) : Input → Prop
  | .datagram e p addr port =>
      c.FromPeer addr port ∧ p.u16 0 ≠ tftpError ∧ p.u16 0 ≠ tftpData ∧ e.fRead = 0 ∧
        ¬ (blocksRead c.log = finalIndex content ∧
          AcksBlock (finalIndex content) (.datagram e p addr port))
  | .tick _ => Conn.TimedOut (Conn.ticked c.arg) → c.arg.retries < tftpServerMaxRetries

/-- The connection is live, and when the final block is the current one a
    timeout tick sends it again. -/
def Resendable (content : List UInt8) (c : Conn) : Prop :=
  c.pcbLive = true ∧
    ∀ e : Env, e.pbufAlloc 0 = true → Conn.TimedOut (Conn.ticked c.arg) →
      c.arg.retries < tftpServerMaxRetries → blocksRead c.log = finalIndex content →
      (c.step (.tick e)).log = c.log ++ [.tick, .sent c.pcb.remoteIp c.pcb.remotePort
        (.data (UInt16.ofNat (finalIndex content)) (fileBlock content (finalIndex content)))]

section Resend

variable {content : List UInt8} {c : Conn}

theorem not_resendable_closed (content : List UInt8) (c : Conn) :
    ¬ Resendable content c.closed := by
  rintro ⟨hlive, -⟩
  exact Bool.false_ne_true hlive

theorem InStep.resendable (h : InStep content c) : Resendable content c := by
  refine ⟨h.live.pcb, ?_⟩
  intro e halloc hout hretry hfinal
  have hstep := Conn.step_tick h.live e
  generalize c.step (.tick e) = c' at hstep ⊢
  cases hstep with
  | quiet hquiet => exact absurd hout hquiet
  | resend =>
      rw [Conn.after_log, h.packetOf, hfinal, Conn.sentIf, if_pos halloc]
  | giveUp _ hlast => exact absurd ⟨h.op, hretry⟩ hlast

/-- **Step lemma.**  While the final block is current, a harmless step keeps it. -/
theorem InStep.harmless_step (h : InStep content c) (hfinal : blocksRead c.log = finalIndex content)
    {i : Input} (hi : Harmless content c i) :
    InStep content (c.step i) ∧ blocksRead (c.step i).log = finalIndex content := by
  have hkeep {a : ConnArgs} {es : List Event} {fs : List Fault} (hreq : Conn.SameRequest c.arg a)
      (hnum : a.blknum = c.arg.blknum) (hdata : a.data = c.arg.data)
      (hlen : a.dataLen = c.arg.dataLen) (hes : blocksRead es = 0) :
      InStep content (c.after a c.fil es fs) ∧
        blocksRead (c.after a c.fil es fs).log = finalIndex content := by
    refine ⟨h.still hreq hnum hdata hlen hes fs, ?_⟩
    rw [Conn.after_log, blocksRead_append, hes, Nat.add_zero, hfinal]
  refine Conn.step_cases (motive := fun c' => InStep content c' ∧
    blocksRead c'.log = finalIndex content) h.live ?_ ?_
  · intro e p addr port c' heq hstep
    subst heq
    obtain ⟨hpeer, herror, hdata, hread, hlast⟩ := hi
    cases hstep with
    | foreign _ hother => exact absurd hpeer hother
    | request => exact hkeep (Conn.sameRequest_refreshed _) rfl rfl rfl rfl
    | error _ hop => exact absurd hop herror
    | dataOnRead _ hop | dataRefused _ hop | dataWritten _ hop | dataRepeated _ hop =>
        exact absurd hop hdata
    | ackOnWrite _ _ hwrq => exact absurd hwrq h.op_ne_wrq
    | ackReadError _ _ _ _ hfail => exact absurd hread hfail
    | ackAdvance _ hack _ hblk =>
        refine absurd ⟨hfinal, hack, ?_⟩ hlast
        rw [hblk, h.blknum, hfinal]
    | ackStale => exact hkeep (Conn.sameRequest_refreshed _) rfl rfl rfl rfl
    | unknown =>
        refine hkeep (Conn.sameRequest_refreshed _) rfl rfl rfl ?_
        cases e.pbufAlloc 0 <;> rfl
  · intro e c' heq hstep
    subst heq
    cases hstep with
    | quiet => exact hkeep (Conn.sameRequest_ticked _) rfl rfl rfl rfl
    | resend =>
        refine hkeep (Conn.sameRequest_retried _) rfl rfl rfl ?_
        cases e.pbufAlloc 0 <;> rfl
    | giveUp hout hlast => exact absurd ⟨h.op, hi hout⟩ hlast

/-- The peer's ACK of the current block. -/
def ackOf (e : Env) (c : Conn) : Input :=
  .datagram e (ackPbuf c.arg.blknum) c.arg.remoteIp c.arg.remotePort

theorem harmless_ackOf {e : Env} (hread : e.fRead = 0)
    (hlt : blocksRead c.log < finalIndex content) :
    Harmless content c (ackOf e c) := by
  refine ⟨⟨rfl, rfl⟩, ?_, ?_, hread, ?_⟩
  · rw [ackPbuf_opcode]
    decide
  · rw [ackPbuf_opcode]
    decide
  · rintro ⟨hfinal, -⟩
    omega

/-- Acknowledging block after block is harmless and reaches every block before
    the final one. -/
theorem reach_block (hdown : Downloading content c) (hin : InStep content c)
    (hone : blocksRead c.log = 1) {i : Nat} (hi : 1 ≤ i) (hlt : i < finalIndex content) :
    ∃ is, StepsMeet Conn.step (Harmless content) c is ∧ InStep content (run Conn.step c is) ∧
      blocksRead (run Conn.step c is).log = i := by
  induction i, hi using Nat.le_induction with
  | base => exact ⟨[], trivial, hin, hone⟩
  | succ i hi ih =>
      obtain ⟨is, hmeet, hat, hindex⟩ := ih (Nat.lt_of_succ_lt hlt)
      have hstep := hat.step_ack (e := Env.ok 0) ⟨rfl, rfl⟩ (ackPbuf_opcode _)
        (ackPbuf_blknum _) rfl
      rw [hindex, if_neg (by omega)] at hstep
      obtain ⟨hdown', hnext⟩ := (downloading_run hdown is).fetched hat (Env.ok 0)
        (ackPbuf (run Conn.step c is).arg.blknum)
      have hrun : run Conn.step c (is ++ [ackOf (Env.ok 0) (run Conn.step c is)]) = _ :=
        (run_concat c is _).trans hstep
      refine ⟨is ++ [ackOf (Env.ok 0) (run Conn.step c is)], ?_, ?_, ?_⟩
      · rw [stepsMeet_concat]
        exact ⟨hmeet, harmless_ackOf rfl (by omega)⟩
      · rw [hrun]
        exact hdown'.inStep hat.live.pcb
      · rw [hrun, hnext, hindex]

end Resend

/-- **The last block stays retransmittable iff the file is shorter than one
    block.**  From one full block on, the ACK of the last full block makes the
    server send the final block and close in the same step. -/
theorem last_block_resendable_iff (e : ReqEnv) (p : Pbuf) (addr : UInt32) (port : UInt16)
    (c : Conn) (hrrq : p.u16 0 = tftpRrq)
    (hconn : (requestRecvCallback e p addr port).conn = some c) (hlive : c.pcbLive = true) :
    (∀ is, StepsMeet Conn.step (Harmless e.content) c is →
        Resendable e.content (run Conn.step c is)) ↔
      e.content.length < tftpDataLenMax := by
  obtain ⟨hdown, hone⟩ := downloading_request hrrq hconn
  have hin := hdown.inStep hlive
  have hfirst := hone hlive
  have hindex : finalIndex e.content = 1 ↔ e.content.length < tftpDataLenMax := by
    rw [finalIndex, tftpDataLenMax]
    omega
  constructor
  · intro hall
    by_contra hlong
    have htwo : 2 ≤ finalIndex e.content := (two_le_finalIndex_iff _).mpr (Nat.le_of_not_lt hlong)
    -- acknowledge up to the block before the final one, then that one too
    obtain ⟨is, hmeet, hat, hi⟩ := reach_block hdown hin hfirst
      (i := finalIndex e.content - 1) (by omega) (by omega)
    have hstep := hat.step_ack (e := Env.ok 0) ⟨rfl, rfl⟩ (ackPbuf_opcode _) (ackPbuf_blknum _) rfl
    rw [hi, if_pos (by omega)] at hstep
    have hclosed : run Conn.step c (is ++ [ackOf (Env.ok 0) (run Conn.step c is)]) = _ :=
      (run_concat c is _).trans hstep
    have hlast := hall (is ++ [ackOf (Env.ok 0) (run Conn.step c is)])
      ((stepsMeet_concat c is _).mpr ⟨hmeet, harmless_ackOf rfl (by omega)⟩)
    rw [hclosed] at hlast
    exact not_resendable_closed _ _ hlast
  · intro hshort is hmeet
    have hfinal := hindex.mpr hshort
    have hrun : InStep e.content (run Conn.step c is) ∧
        blocksRead (run Conn.step c is).log = finalIndex e.content := by
      refine run_inv (I := fun c => InStep e.content c ∧
        blocksRead c.log = finalIndex e.content) ?_ ⟨hin, by rw [hfirst, hfinal]⟩ hmeet
      rintro c i ⟨hc, hlast⟩ hi
      exact hc.harmless_step hlast hi
    exact hrun.1.resendable

/-- A sample client that has not acknowledged its three-byte file. -/
theorem last_block_resendable_short :
    ∃ c, (requestRecvCallback (sampleReqEnv [7, 8, 9]) (sampleRq tftpRrq) 1 2).conn = some c ∧
      Resendable [7, 8, 9] (run Conn.step c [.datagram (Env.ok 0) (ackPbuf 0) 1 2]) := by
  have hconn := request_granted_read (granted_sample [7, 8, 9] (.inl rfl)) (by decide) rfl 1 2
  refine ⟨_, hconn, ?_⟩
  refine (last_block_resendable_iff _ _ 1 2 _ (by decide) hconn rfl).mpr (by decide) _ ⟨?_, trivial⟩
  refine ⟨⟨rfl, rfl⟩, by decide, by decide, rfl, ?_⟩
  rintro ⟨-, -, hblk⟩
  exact absurd hblk (by decide)

/-- A file of 512 bytes whose first block is acknowledged while no pbuf is
    left: the final, empty block is never sent and the connection is gone. -/
theorem last_block_lost :
    ∃ c, (requestRecvCallback (sampleReqEnv (List.replicate 512 7)) (sampleRq tftpRrq) 1 2).conn
        = some c ∧
      Harmless (List.replicate 512 7) c (ackOf ⟨fun _ => false, 0, (0, 0)⟩ c) ∧
      dataSent (c.step (ackOf ⟨fun _ => false, 0, (0, 0)⟩ c)).log
        = [(1, fileBlock (List.replicate 512 7) 1)] ∧
      ¬ Resendable (List.replicate 512 7) (c.step (ackOf ⟨fun _ => false, 0, (0, 0)⟩ c)) := by
  have hconn := request_granted_read (granted_sample (List.replicate 512 7) (.inl rfl))
    (by decide) rfl 1 2
  have hstart : SentOnce (List.replicate 512 7) 1 _ :=
    sentOnce_request (by decide) hconn rfl rfl
  have hfinal : finalIndex (List.replicate 512 (7 : UInt8)) = 2 := by
    rw [finalIndex, List.length_replicate, tftpDataLenMax]
  have hstep := hstart.inStep.step_ack (e := ⟨fun _ => false, 0, (0, 0)⟩) ⟨rfl, rfl⟩
    (ackPbuf_opcode _) (ackPbuf_blknum _) rfl
  rw [hstart.index, hfinal, if_pos (Nat.le_refl 2)] at hstep
  refine ⟨_, hconn, harmless_ackOf rfl (by rw [hstart.index, hfinal]; decide), ?_, ?_⟩
  · rw [ackOf, hstep, Conn.closed, Conn.fetched, Conn.after_log, dataSent_append, hstart.sent]
    rfl
  · rw [ackOf, hstep]
    exact not_resendable_closed _ _

end McuFirmware.Tftp
