/-
  McuFirmware.Tftp.Server

  The TFTP server as the family of its connections, and the life of a
  connection over runs of the whole server.

  A run starts with no connection.  A datagram on port 69 runs
  `request_recv_callback`, which may add one; a datagram or a timer tick goes
  to one of them.  `WellUsed` says that a connection was closed at most once
  and that nothing of it was touched afterwards.
-/

import McuFirmware.Lib.Family
import McuFirmware.Tftp.Request

namespace McuFirmware.Tftp

open McuFirmware.Lib McuFirmware.Lwip

/-- A datagram on the listening pcb, with the outcomes of the library calls. -/
structure Rq where
  env : ReqEnv
  p : Pbuf
  addr : UInt32
  port : UInt16

/-- The connection a request opens. -/
def Rq.conn (r : Rq) : Option Conn :=
  (requestRecvCallback r.env r.p r.addr r.port).conn

abbrev ServerInput := FamilyInput Rq Input

/-- One step of the server: a request, or an input to the `k`-th connection. -/
def serverStep : List Conn → ServerInput → List Conn :=
  familyStep Rq.conn Conn.step

-- ============================================================================
-- The life of a connection
-- ============================================================================

/-- An access to a resource that is not held, or a store behind `parg->data`. -/
def Stray : Fault → Prop
  | .dead _ => True
  | .overflow => True
  | .overread => False

/-- The connection was closed at most once, nothing of it was used while it was
    not held, and its four resources are all held or all released. -/
structure WellUsed (c : Conn) : Prop where
  closes : c.closes ≤ 1
  noStray : ∀ f ∈ c.faults, ¬ Stray f
  settled : c.Live ∨ c.Dead

/-- The datagram is a DATA block the connection accepts. -/
def Accepts (c : Conn) (p : Pbuf) : Prop :=
  p.u16 0 = tftpData ∧ c.arg.op ≠ tftpRrq ∧ (p.u16 1).toNat = c.arg.blknum.toNat + 1

/-- The datagram is the ACK of the current block of a read connection. -/
def AcksCurrent (c : Conn) (p : Pbuf) : Prop :=
  p.u16 0 = tftpAck ∧ c.arg.op ≠ tftpWrq ∧ p.u16 1 = c.arg.blknum

/-- The input does not reach the faulty code: it is not the ACK of the current
    block with `f_read` failing, nor an accepted DATA longer than 516 bytes. -/
def Sane (c : Conn) : Input → Prop
  | .datagram e p addr port =>
      c.pcbLive = true → c.FromPeer addr port →
        (AcksCurrent c p → e.fRead = 0) ∧
        (Accepts c p → FitsData p)
  | .tick _ => True

/-- The input stores nothing over the fields behind `parg->data`. -/
def StoresFit (c : Conn) : Input → Prop
  | .datagram _ p addr port =>
      c.pcbLive = true → c.FromPeer addr port → Accepts c p → FitsData p
  | .tick _ => True

/-- A read connection stores nothing. -/
theorem storesFit_of_read {c : Conn} (h : c.arg.op = tftpRrq) (i : Input) : StoresFit c i := by
  cases i with
  | tick e => trivial
  | datagram e p addr port =>
      intro _ _ hacc
      exact absurd h hacc.2.1

/-- A connection in good order: not closed and live, or closed once. -/
structure Clean (c : Conn) : Prop where
  noStray : ∀ f ∈ c.faults, ¬ Stray f
  status : (c.Live ∧ c.closes = 0) ∨ (c.Dead ∧ c.closes ≤ 1)

theorem Clean.wellUsed {c : Conn} (h : Clean c) : WellUsed c := by
  rcases h.status with ⟨hlive, hcloses⟩ | ⟨hdead, hcloses⟩
  · exact ⟨by omega, h.noStray, .inl hlive⟩
  · exact ⟨hcloses, h.noStray, .inr hdead⟩

section Clean

variable {c : Conn} {a : ConnArgs} {f : Fil} {es : List Event} {fs : List Fault}

theorem noStray_payloadFaults (p : Pbuf) (k : Nat) : ∀ x ∈ Conn.payloadFaults p k, ¬ Stray x := by
  intro x hx
  unfold Conn.payloadFaults at hx
  split at hx
  · exact absurd hx List.not_mem_nil
  · rw [List.mem_singleton.mp hx]
    exact id

/-- The faults of two header fields. -/
theorem noStray_header (p : Pbuf) :
    ∀ x ∈ Conn.payloadFaults p 0 ++ Conn.payloadFaults p 1, ¬ Stray x :=
  List.forall_mem_append.mpr ⟨noStray_payloadFaults p 0, noStray_payloadFaults p 1⟩

theorem overflowFaults_of_fits {p : Pbuf} (h : FitsData p) : Conn.overflowFaults p = [] :=
  if_pos (Conn.length_copied_le_iff.mpr h)

theorem overflowFaults_of_not_fits {p : Pbuf} (h : ¬ FitsData p) :
    Conn.overflowFaults p = [.overflow] :=
  if_neg fun hle => h (Conn.length_copied_le_iff.mp hle)

theorem noStray_storeFaults {p : Pbuf} (a : ConnArgs) (h : FitsData p) :
    ∀ x ∈ Conn.storeFaults p a, ¬ Stray x := by
  intro x hx
  rw [Conn.storeFaults, overflowFaults_of_fits h, List.nil_append, Conn.overreadFaults] at hx
  split at hx
  · exact absurd hx List.not_mem_nil
  · rw [List.mem_singleton.mp hx]
    exact id

theorem Clean.after (h : Clean c) (hlive : c.Live) (hcloses : c.closes = 0)
    (hfs : ∀ x ∈ fs, ¬ Stray x) : Clean (c.after a f es fs) :=
  ⟨List.forall_mem_append.mpr ⟨h.noStray, hfs⟩, .inl ⟨Conn.live_after hlive, hcloses⟩⟩

theorem Clean.after_closed (h : Clean c) (hcloses : c.closes = 0)
    (hfs : ∀ x ∈ fs, ¬ Stray x) : Clean (c.after a f es fs).closed := by
  refine ⟨List.forall_mem_append.mpr ⟨h.noStray, hfs⟩, .inr ⟨Conn.closed_dead _, ?_⟩⟩
  change c.closes + 1 ≤ 1
  omega

/-- **Step lemma.**  A sane input keeps a connection in good order. -/
theorem clean_step (h : Clean c) {i : Input} (hi : Sane c i) : Clean (c.step i) := by
  rcases h.status with ⟨hlive, hcloses⟩ | ⟨hdead, hcloses⟩
  swap
  · rw [Conn.step_of_dead hdead]
    exact h
  have hnone : ∀ x ∈ ([] : List Fault), ¬ Stray x := List.forall_mem_nil _
  refine Conn.step_cases (motive := Clean) hlive ?_ ?_
  · intro e p addr port c' heq hstep
    subst heq
    cases hstep with
    | foreign => exact h.after_closed hcloses hnone
    | request | unknown => exact h.after hlive hcloses (noStray_payloadFaults p 0)
    | error | dataOnRead | ackOnWrite => exact h.after_closed hcloses (noStray_payloadFaults p 0)
    | dataRepeated | ackStale => exact h.after hlive hcloses (noStray_header p)
    | dataRefused hpeer hop hrrq hblk hret =>
        have hfit := (hi hlive.pcb hpeer).2 ⟨hop, hrrq, hblk⟩
        exact h.after_closed hcloses
          (List.forall_mem_append.mpr ⟨noStray_header p, noStray_storeFaults _ hfit⟩)
    | dataWritten hpeer hop hrrq hblk hret =>
        have hfit := (hi hlive.pcb hpeer).2 ⟨hop, hrrq, hblk⟩
        have hfs := List.forall_mem_append.mpr
          ⟨noStray_header p, noStray_storeFaults (Conn.refreshed c.arg) hfit⟩
        split
        · exact h.after_closed hcloses hfs
        · exact h.after hlive hcloses hfs
    | ackReadError hpeer hop hwrq hblk hread =>
        exact absurd ((hi hlive.pcb hpeer).1 ⟨hop, hwrq, hblk⟩) hread
    | ackAdvance =>
        split
        · exact h.after_closed hcloses (noStray_header p)
        · exact h.after hlive hcloses (noStray_header p)
  · intro e c' heq hstep
    cases hstep with
    | quiet | resend => exact h.after hlive hcloses hnone
    | giveUp => exact h.after_closed hcloses hnone

/-- A stray access was made. -/
def Marked (c : Conn) : Prop := c.Settled ∧ ∃ x ∈ c.faults, Stray x

theorem marked_step (h : Marked c) (i : Input) : Marked (c.step i) := by
  obtain ⟨hsettled, x, hx, hstray⟩ := h
  obtain ⟨gs, hgs⟩ := Conn.faults_step hsettled i
  refine ⟨Conn.settled_step hsettled i, x, ?_, hstray⟩
  rw [hgs]
  exact List.mem_append_left gs hx

theorem Clean.settled (h : Clean c) : c.Settled := by
  rcases h.status with ⟨hlive, -⟩ | ⟨hdead, -⟩
  · exact .inl hlive
  · exact .inr hdead

/-- The ACK of the current block with a failing `f_read` touches the argument
    block `tftp_send_data` has freed. -/
theorem dead_arg_of_ack (hlive : c.Live) {e : Env} {p : Pbuf} {addr : UInt32} {port : UInt16}
    (hpeer : c.FromPeer addr port) (hack : AcksCurrent c p) (hread : e.fRead ≠ 0) :
    .dead .arg ∈ (c.step (.datagram e p addr port)).faults := by
  obtain ⟨hop, hwrq, hblk⟩ := hack
  have hstep := Conn.step_datagram hlive e p addr port
  generalize c.step (.datagram e p addr port) = c' at hstep ⊢
  cases hstep with
  | ackReadError =>
      obtain ⟨rs, hfaults⟩ := (Conn.readFailed e p c).faults
      rw [hfaults]
      simp
  | foreign _ hother => exact absurd hpeer hother
  | request _ hop' =>
      rw [hop] at hop'
      exact absurd hop' (by decide)
  | error _ hop' | dataOnRead _ hop' | dataRefused _ hop' | dataWritten _ hop'
  | dataRepeated _ hop' =>
      rw [hop] at hop'
      exact absurd hop' (by decide)
  | ackOnWrite _ _ hwrq' => exact absurd hwrq' hwrq
  | ackAdvance _ _ _ _ hok => exact absurd hok hread
  | ackStale _ _ _ hother => exact absurd hblk hother
  | unknown _ _ _ _ hother => exact absurd hop hother

/-- The faults of an accepted DATA datagram. -/
theorem faults_of_accepts (hlive : c.Live) {e : Env} {p : Pbuf} {addr : UInt32} {port : UInt16}
    (hpeer : c.FromPeer addr port) (hacc : Accepts c p) :
    (c.step (.datagram e p addr port)).faults = c.faults
      ++ (Conn.payloadFaults p 0 ++ Conn.payloadFaults p 1
        ++ Conn.storeFaults p (Conn.refreshed c.arg)) := by
  obtain ⟨hop, hrrq, hblk⟩ := hacc
  have hstep := Conn.step_datagram hlive e p addr port
  generalize c.step (.datagram e p addr port) = c' at hstep ⊢
  cases hstep with
  | dataRefused => rfl
  | dataWritten => split <;> rfl
  | foreign _ hother => exact absurd hpeer hother
  | request _ hop' =>
      rw [hop] at hop'
      exact absurd hop' (by decide)
  | error _ hop' | ackOnWrite _ hop' | ackReadError _ hop' | ackAdvance _ hop'
  | ackStale _ hop' =>
      rw [hop] at hop'
      exact absurd hop' (by decide)
  | dataOnRead _ _ hrrq' => exact absurd hrrq' hrrq
  | dataRepeated _ _ _ hother => exact absurd hblk hother
  | unknown _ _ _ hother => exact absurd hop hother

/-- An input that is not sane leaves a stray access behind. -/
theorem marked_of_not_sane (h : Clean c) {i : Input} (hi : ¬ Sane c i) : Marked (c.step i) := by
  refine ⟨Conn.settled_step h.settled i, ?_⟩
  cases i with
  | tick e => exact absurd trivial hi
  | datagram e p addr port =>
      simp only [Sane, Classical.not_imp] at hi
      obtain ⟨hpcb, hpeer, hbad⟩ := hi
      have hlive : c.Live := by
        rcases h.settled with hlive | hdead
        · exact hlive
        · exact absurd hpcb hdead.pcb_not_live
      by_cases hack : AcksCurrent c p → e.fRead = 0
      · obtain ⟨hacc, hlong⟩ := Classical.not_imp.mp fun hfit => hbad ⟨hack, hfit⟩
        refine ⟨.overflow, ?_, trivial⟩
        rw [faults_of_accepts hlive hpeer hacc, Conn.storeFaults, overflowFaults_of_not_fits hlong]
        simp
      · obtain ⟨hcur, hread⟩ := Classical.not_imp.mp hack
        exact ⟨.dead .arg, dead_arg_of_ack hlive hpeer hcur hread, trivial⟩

end Clean

-- ============================================================================
-- Runs of the server
-- ============================================================================

/-- A request leaves nothing, a released cell, or a connection in good order. -/
theorem clean_request {r : Rq} {c : Conn} (h : r.conn = some c) : Clean c := by
  have hnone : ∀ x ∈ ([] : List Fault), ¬ Stray x := List.forall_mem_nil _
  have hopened (stale : ConnArgs) : Clean (Conn.opened r.env r.p r.addr r.port stale) :=
    ⟨hnone, .inl ⟨Conn.opened_live _ _ _ _ _, rfl⟩⟩
  have hstep := request_outcome r.env r.p r.addr r.port
  rw [show (requestRecvCallback r.env r.p r.addr r.port).conn = some c from h] at hstep
  cases hstep with
  | released _ hdead hcloses hfaults =>
      refine ⟨?_, .inr ⟨hdead, by omega⟩⟩
      rw [hfaults]
      exact hnone
  | write stale | read stale =>
      exact (hopened stale).after (Conn.opened_live _ _ _ _ _) rfl hnone
  | readError stale => exact (hopened stale).after_closed rfl hnone

/-- The request line is well formed and every library call of the request
    succeeds, the first `f_read` of a download included. -/
def Rq.Succeeds (r : Rq) : Prop :=
  (∃ stale, Granted r.env r.p stale) ∧ (r.p.u16 0 = tftpRrq → r.env.lib.fRead = 0)

/-- Only a request that succeeds leaves a live connection. -/
theorem succeeds_of_live {r : Rq} {c : Conn} (hconn : r.conn = some c) (hlive : c.Live) :
    r.Succeeds := by
  have hgranted : ∃ stale, Granted r.env r.p stale := by
    by_contra hnone
    exact absurd hlive.pcb (request_refused (not_exists.mp hnone) hconn).1.pcb_not_live
  refine ⟨hgranted, fun hrrq => ?_⟩
  have hstep := request_outcome r.env r.p r.addr r.port
  rw [show (requestRecvCallback r.env r.p r.addr r.port).conn = some c from hconn] at hstep
  cases hstep with
  | released _ hdead => exact absurd hlive.pcb hdead.pcb_not_live
  | write _ hwrq => exact absurd (hrrq.symm.trans hwrq) tftpRrq_ne_wrq
  | read _ _ hread => exact hread
  | readError => exact absurd hlive.pcb Bool.false_ne_true

/-- A live connection belongs to the sender of the request, in its argument
    block as well as in its pcb. -/
theorem request_peer {r : Rq} {c : Conn} (hconn : r.conn = some c) (hpcb : c.pcbLive = true) :
    c.Live ∧ c.pcb = ⟨r.env.localPort, r.addr, r.port⟩ ∧ c.FromPeer r.addr r.port := by
  have hstep := request_outcome r.env r.p r.addr r.port
  rw [show (requestRecvCallback r.env r.p r.addr r.port).conn = some c from hconn] at hstep
  cases hstep with
  | released _ hdead => exact absurd hpcb hdead.pcb_not_live
  | write | read => exact ⟨Conn.live_after (Conn.opened_live _ _ _ _ _), rfl, rfl, rfl⟩
  | readError => exact absurd hpcb Bool.false_ne_true

/-- Every connection of the server is between two steps. -/
theorem settled_serverStep (l : List Conn) (x : ServerInput) (h : ∀ c ∈ l, c.Settled) :
    ∀ c ∈ serverStep l x, c.Settled :=
  familyStep_inv (fun _ _ hc => (clean_request hc).settled)
    (fun _ i hc _ => Conn.settled_step hc i) h
    (atComponent_of_forall (C := fun _ _ => True) (fun _ _ => trivial) l x)

/-- **Life of a connection.**  Over a run of the server with any interleaving of
    requests, datagrams, ticks and failures, every connection is closed at most
    once and not touched afterwards, exactly when no step acknowledges the
    current block of a read connection while `f_read` fails, and none stores a
    block behind the argument block. -/
theorem lifecycle_iff (xs : List ServerInput) :
    (∀ c ∈ run serverStep [] xs, WellUsed c) ↔
      StepsMeet serverStep (AtComponent Sane) [] xs := by
  have hnil : ∀ c ∈ ([] : List Conn), Clean c := List.forall_mem_nil _
  have hspawn (r : Rq) (c : Conn) (h : r.conn = some c) : Clean c := clean_request h
  constructor
  · intro hall
    refine (family_run_iff (B := Marked) hspawn (fun _ _ h hi => clean_step h hi)
      (fun _ _ h hi => marked_of_not_sane h hi) (fun _ i h => marked_step h i) ?_ hnil).mp ?_
    · rintro c hclean ⟨-, x, hx, hstray⟩
      exact hclean.noStray x hx hstray
    · rintro c hc ⟨-, x, hx, hstray⟩
      exact (hall c hc).noStray x hx hstray
  · intro hmeet c hc
    exact (family_run_inv hspawn (fun _ _ h hi => clean_step h hi) hnil hmeet c hc).wellUsed

/-- A three-byte file whose first block is acknowledged while `f_read` fails:
    `tftp_send_data` closes the connection, and the callback, still holding
    `parg`, reads the freed block and closes the connection again. -/
theorem closed_twice :
    ∃ c, run serverStep [] [.spawn ⟨sampleReqEnv [7, 8, 9], sampleRq tftpRrq, 1, 2⟩,
        .deliver 0 (.datagram ⟨fun _ => true, 1, (0, 0)⟩ (ackPbuf 1) 1 2)] = [c] ∧
      c.closes = 2 ∧ .dead .arg ∈ c.faults ∧ ¬ WellUsed c := by
  have hconn : Rq.conn ⟨sampleReqEnv [7, 8, 9], sampleRq tftpRrq, 1, 2⟩
      = some (Conn.openedRead (sampleReqEnv [7, 8, 9]) (sampleRq tftpRrq) 1 2 sampleArgs) :=
    request_granted_read (granted_sample [7, 8, 9] (.inl rfl)) (by decide) rfl 1 2
  have hcloses : ((Conn.openedRead (sampleReqEnv [7, 8, 9]) (sampleRq tftpRrq) 1 2
      sampleArgs).step (.datagram ⟨fun _ => true, 1, (0, 0)⟩ (ackPbuf 1) 1 2)).closes = 2 := rfl
  refine ⟨_, ?_, hcloses, by decide, ?_⟩
  · simp only [run_cons, run_nil, serverStep, familyStep, hconn]
    rfl
  · intro hused
    have hle := hused.closes
    omega

end McuFirmware.Tftp
