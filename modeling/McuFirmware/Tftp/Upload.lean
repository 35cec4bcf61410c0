/-
  McuFirmware.Tftp.Upload

  A write connection stores the blocks of the upload in order, each once.

  The history of a connection is its `log`.  `okWrites` is the sequence of
  blocks `fop.write` accepted; `Uploaded` ties it to the datagrams received
  and to `parg->blknum`.  A step either leaves the blocks alone or appends the
  one numbered next, and acknowledges nothing that is not among them.
-/

import McuFirmware.Lib.Trace
import McuFirmware.Tftp.Request

namespace McuFirmware.Tftp

open McuFirmware.Lib McuFirmware.Lwip

-- ============================================================================
-- The history of an upload
-- ============================================================================

/-- The blocks `fop.write` accepted, in order. -/
def okWrites : List Event → List (List UInt8)
  | [] => []
  | .write bytes _ ret :: log => if 0 ≤ ret then bytes :: okWrites log else okWrites log
  | _ :: log => okWrites log

theorem okWrites_append (l es : List Event) : okWrites (l ++ es) = okWrites l ++ okWrites es := by
  induction l with
  | nil => rfl
  | cons ev l ih =>
      cases ev <;> simp only [List.cons_append, okWrites, ih]
      split <;> rfl

/-- An ACK is sent only for a block that is already written. -/
def AckAfterWrite (pre : List Event) : Event → Prop
  | .sent _ _ (.ack j) => j.toNat ≤ (okWrites pre).length
  | _ => True

/-- An event that neither stores a block nor acknowledges one. -/
def Idle : Event → Prop
  | .sent _ _ (.ack _) => False
  | .write _ _ ret => ret < 0
  | _ => True

theorem okWrites_idle {es : List Event} (h : ∀ ev ∈ es, Idle ev) : okWrites es = [] := by
  induction es with
  | nil => rfl
  | cons ev es ih =>
      have htail := ih fun x hx => h x (List.mem_cons_of_mem ev hx)
      have hhead := h ev List.mem_cons_self
      cases ev with
      | write bytes len ret =>
          have hret : ¬ 0 ≤ ret := Int.not_le.mpr hhead
          rw [okWrites, if_neg hret, htail]
      | _ => exact htail

theorem ackAfterWrite_idle {ev : Event} (h : Idle ev) (pre : List Event) :
    AckAfterWrite pre ev := by
  cases ev with
  | sent ip port pkt =>
      cases pkt with
      | ack j => exact absurd h id
      | data | error => trivial
  | _ => trivial

theorem eachMeets_idle {l es : List Event} (hl : EachMeets AckAfterWrite l)
    (hes : ∀ ev ∈ es, Idle ev) : EachMeets AckAfterWrite (l ++ es) :=
  (eachMeets_append l es).mpr
    ⟨hl, eachMeets_of_forall fun ev hev pre => ackAfterWrite_idle (hes ev hev) (l ++ pre)⟩

/-- The write connection of the peer `addr:port` has stored exactly the blocks
    of `ds`, which are DATA datagrams `1, 2, …` among the inputs `is`. -/
structure Uploaded (is : List Input) (addr : UInt32) (port : UInt16) (ds : List Pbuf)
    (c : Conn) : Prop where
  op : c.arg.op = tftpWrq
  peerIp : c.arg.remoteIp = addr
  peerPort : c.arg.remotePort = port
  writes : okWrites c.log = ds.map dataBlock
  numbered : ∀ i d, ds[i]? = some d →
    d.u16 0 = tftpData ∧ (d.u16 1).toNat = i + 1 ∧ ∃ e, .datagram e d addr port ∈ is
  acks : EachMeets AckAfterWrite c.log
  status : (c.Live ∧ c.arg.blknum.toNat = ds.length) ∨ c.Dead

namespace Uploaded

variable {is : List Input} {addr : UInt32} {port : UInt16} {ds : List Pbuf} {c : Conn}

theorem closed (h : Uploaded is addr port ds c) : Uploaded is addr port ds c.closed :=
  ⟨h.op, h.peerIp, h.peerPort, h.writes, h.numbered, h.acks, .inr (Conn.closed_dead c)⟩

/-- The server stores no block and acknowledges only what it has. -/
theorem extend (h : Uploaded is addr port ds c) (hlive : c.Live)
    (hblk : c.arg.blknum.toNat = ds.length) {a : ConnArgs} {f : Fil} {es : List Event}
    {fs : List Fault}
    (ha : Conn.SameRequest c.arg a) (hnum : a.blknum = c.arg.blknum)
    (hwrites : okWrites es = []) (hacks : EachMeets AckAfterWrite (c.log ++ es)) :
    Uploaded is addr port ds (c.after a f es fs) := by
  refine ⟨ha.op.trans h.op, ha.ip.trans h.peerIp, ha.port.trans h.peerPort, ?_, h.numbered, hacks,
    .inl ⟨Conn.live_after hlive, ?_⟩⟩
  · rw [Conn.after_log, okWrites_append, hwrites, List.append_nil, h.writes]
  · rw [Conn.after_arg, hnum, hblk]

/-- The server does something else than storing or acknowledging. -/
theorem idle (h : Uploaded is addr port ds c) (hlive : c.Live)
    (hblk : c.arg.blknum.toNat = ds.length) {a : ConnArgs} {f : Fil} {es : List Event}
    {fs : List Fault}
    (ha : Conn.SameRequest c.arg a) (hnum : a.blknum = c.arg.blknum)
    (hes : ∀ ev ∈ es, Idle ev) : Uploaded is addr port ds (c.after a f es fs) :=
  h.extend hlive hblk ha hnum (okWrites_idle hes) (eachMeets_idle h.acks hes)

/-- The last block is acknowledged again. -/
theorem ackAgain (h : Uploaded is addr port ds c) (hlive : c.Live)
    (hblk : c.arg.blknum.toNat = ds.length) (p : Pbuf) (alloc : Bool) (fs : List Fault) :
    Uploaded is addr port ds
      (c.after (Conn.refreshed c.arg) c.fil
        (.recv p :: c.sentIf alloc (.ack c.arg.blknum) ++ [.pbufFree]) fs) := by
  refine h.extend hlive hblk (Conn.sameRequest_refreshed _) rfl ?_ ?_
  · cases alloc <;> rfl
  · refine (eachMeets_append _ _).mpr ⟨h.acks, ?_⟩
    have hcount : (okWrites c.log).length = ds.length := by rw [h.writes, List.length_map]
    cases alloc with
    | false => simp [Conn.sentIf, AckAfterWrite]
    | true => simp [Conn.sentIf, AckAfterWrite, okWrites_append, okWrites, hcount, hblk]

end Uploaded

/-- Storing the payload of the datagram numbered next: `fop.write` accepts it,
    and only then the ACK goes out. -/
theorem Uploaded.store {is : List Input} {addr : UInt32} {port : UInt16} {ds : List Pbuf}
    {c : Conn} (h : Uploaded is addr port ds c) (hlive : c.Live)
    (hblk : c.arg.blknum.toNat = ds.length) {e : Env} {p : Pbuf}
    (hin : .datagram e p addr port ∈ is) (hop : p.u16 0 = tftpData) (hsize : DataSized p)
    (hnum : (p.u16 1).toNat = c.arg.blknum.toNat + 1)
    (hret : 0 ≤ Conn.writeRet e (Conn.stored p (Conn.refreshed c.arg)).dataLen) :
    Uploaded is addr port (ds ++ [p]) (c.written e p) := by
  -- the block number is not overwritten, and it does not wrap: a `u16_t` equals it
  have hnext : ((Conn.stored p (Conn.refreshed c.arg)).blknum + 1).toNat = ds.length + 1 := by
    have hlt := (p.u16 1).toNat_lt
    have hsame : (Conn.stored p (Conn.refreshed c.arg)).blknum = c.arg.blknum :=
      Conn.stored_blknum _ hsize.2
    rw [hsame, UInt16.toNat_add, UInt16.toNat_one]
    omega
  have hwrites : okWrites (c.log ++ [.recv p, .store (Conn.copied p).length,
      Conn.writeEvent e (Conn.stored p (Conn.refreshed c.arg))]) = (ds ++ [p]).map dataBlock := by
    rw [okWrites_append, h.writes, Conn.writeEvent_stored e _ hsize]
    simp [okWrites, hret]
  have hfree : ∀ ev ∈ [Event.pbufFree], Idle ev := by
    intro ev hev
    rw [List.mem_singleton.mp hev]
    trivial
  have hacks : EachMeets AckAfterWrite (c.log ++ [.recv p, .store (Conn.copied p).length,
      Conn.writeEvent e (Conn.stored p (Conn.refreshed c.arg))]) := by
    rw [eachMeets_append, Conn.writeEvent_stored e _ hsize]
    refine ⟨h.acks, ?_⟩
    simp [AckAfterWrite]
  refine ⟨h.op, h.peerIp, h.peerPort, ?_, ?_, ?_, .inl ⟨Conn.live_after hlive, ?_⟩⟩
  · rw [Conn.written, Conn.after_log, ← List.append_assoc, ← List.append_assoc, okWrites_append,
      okWrites_append, hwrites, okWrites_idle hfree]
    cases e.pbufAlloc 0 <;> simp [Conn.sentIf, okWrites]
  · intro i d hd
    rcases Nat.lt_trichotomy i ds.length with hi | hi | hi
    · rw [List.getElem?_append_left hi] at hd
      exact h.numbered i d hd
    · subst hi
      rw [List.getElem?_concat_length] at hd
      obtain rfl := Option.some.inj hd
      exact ⟨hop, by rw [hnum, hblk], e, hin⟩
    · rw [List.getElem?_eq_none (by simp; omega)] at hd
      exact absurd hd (by simp)
  · rw [Conn.written, Conn.after_log, ← List.append_assoc, ← List.append_assoc]
    refine eachMeets_idle ?_ hfree
    rw [eachMeets_append]
    refine ⟨hacks, ?_⟩
    cases e.pbufAlloc 0 with
    | false => simp [Conn.sentIf]
    | true =>
        simp only [Conn.sentIf, if_true, eachMeets_cons, List.append_nil, eachMeets_nil, and_true,
          AckAfterWrite]
        rw [hwrites, hnext]
        simp
  · rw [Conn.written, Conn.after_arg, List.length_append]
    exact hnext

-- ============================================================================
-- Steps and runs
-- ============================================================================

/-- **Step lemma.**  A step keeps the upload, with the same blocks or one more. -/
theorem uploaded_step {is : List Input} {addr : UInt32} {port : UInt16} {ds : List Pbuf}
    {c : Conn} (h : Uploaded is addr port ds c) {i : Input} (hi : i ∈ is)
    (hsize : ∀ e p a pt, i = .datagram e p a pt → p.u16 0 = tftpData → DataSized p) :
    ∃ ds', Uploaded is addr port ds' (c.step i) := by
  rcases h.status with ⟨hlive, hblk⟩ | hdead
  swap
  · rw [Conn.step_of_dead hdead]
    exact ⟨ds, h⟩
  have hnot : c.arg.op ≠ tftpRrq := by
    rw [h.op]
    exact tftpRrq_ne_wrq.symm
  refine Conn.step_cases (motive := fun c' => ∃ ds', Uploaded is addr port ds' c') hlive ?_ ?_
  · intro e p a pt c' hin hstep
    subst hin
    cases hstep with
    | foreign es hpeer hes =>
        refine ⟨ds, (h.idle hlive hblk (Conn.sameRequest_refl _) rfl
          (Conn.forall_answer trivial trivial ?_)).closed⟩
        intro ev hev
        obtain ⟨ip, pt', code, msg, rfl⟩ := hes ev hev
        trivial
    | request hpeer hrq =>
        refine ⟨ds, h.idle hlive hblk (Conn.sameRequest_refreshed _) rfl ?_⟩
        simp [Idle]
    | error hpeer herr =>
        refine ⟨ds, (h.idle hlive hblk (Conn.sameRequest_refreshed _) rfl ?_).closed⟩
        simp [Idle]
    | dataOnRead hpeer hdata hrrq => exact absurd hrrq hnot
    | dataRefused hpeer hdata hrrq hnum hret =>
        have hes : ∀ ev ∈ [.store (Conn.copied p).length,
            Conn.writeEvent e (Conn.stored p (Conn.refreshed c.arg))]
              ++ c.sentIf (e.pbufAlloc 0) (.error tftpErrAccessViolation "error writing file"),
            Idle ev := by
          intro ev hev
          simp only [List.cons_append, List.nil_append, List.mem_cons] at hev
          rcases hev with rfl | rfl | hev
          · trivial
          · exact hret
          · exact Conn.forall_sentIf (Q := Idle) (by trivial) ev hev
        have hsame := Conn.stored_blknum (Conn.refreshed c.arg) (hsize e p _ _ rfl hdata).2
        exact ⟨ds, (h.idle hlive hblk (Conn.sameRequest_stored p _) hsame
          (Conn.forall_answer trivial trivial hes)).closed⟩
    | dataWritten hpeer hdata hrrq hnum hret =>
        obtain ⟨hport, hip⟩ := hpeer
        rw [h.peerIp] at hip
        rw [h.peerPort] at hport
        subst hip hport
        have hmore := h.store hlive hblk hi hdata (hsize e p _ _ rfl hdata) hnum hret
        refine ⟨ds ++ [p], ?_⟩
        split
        · exact hmore.closed
        · exact hmore
    | dataRepeated hpeer hdata hrrq hnum => exact ⟨ds, h.ackAgain hlive hblk p _ _⟩
    | ackOnWrite hpeer hack hwrq =>
        exact ⟨ds, (h.idle hlive hblk (Conn.sameRequest_refreshed _) rfl
          (Conn.forall_answer trivial trivial (Conn.forall_sentIf (by trivial)))).closed⟩
    | ackReadError hpeer hack hwrq => exact absurd h.op hwrq
    | ackAdvance hpeer hack hwrq => exact absurd h.op hwrq
    | ackStale hpeer hack hwrq => exact absurd h.op hwrq
    | unknown hpeer hrq herr hdata hack =>
        exact ⟨ds, h.idle hlive hblk (Conn.sameRequest_refreshed _) rfl
          (Conn.forall_answer trivial trivial (Conn.forall_sentIf (by trivial)))⟩
  · intro e c' hin hstep
    cases hstep with
    | quiet hquiet =>
        refine ⟨ds, h.idle hlive hblk (Conn.sameRequest_ticked _) rfl ?_⟩
        simp [Idle]
    | resend hout hrrq hretry => exact absurd hrrq hnot
    | giveUp hout hlast =>
        refine ⟨ds, (h.idle hlive hblk (Conn.sameRequest_ticked _) rfl ?_).closed⟩
        simp [Idle]

theorem uploaded_run {is : List Input} {addr : UInt32} {port : UInt16} {c : Conn}
    (h : Uploaded is addr port [] c)
    (hsize : ∀ e p a pt, .datagram e p a pt ∈ is → p.u16 0 = tftpData → DataSized p) :
    ∃ ds, Uploaded is addr port ds (run Conn.step c is) := by
  have hmeet : StepsMeet Conn.step (fun _ i => i ∈ is) c is :=
    stepsMeet_of_forall (fun i hi _ => hi) c
  refine run_inv (I := fun c => ∃ ds, Uploaded is addr port ds c) ?_ ⟨[], h⟩ hmeet
  rintro c i ⟨ds, hds⟩ hi
  refine uploaded_step hds hi ?_
  intro e p a pt hin
  exact hsize e p a pt (hin ▸ hi)

/-- A write request leaves a connection with nothing stored yet. -/
theorem uploaded_request {e : ReqEnv} {p : Pbuf} {addr : UInt32} {port : UInt16} {c : Conn}
    (hwrq : p.u16 0 = tftpWrq) (hconn : (requestRecvCallback e p addr port).conn = some c)
    (hlive : c.pcbLive = true) (is : List Input) : Uploaded is addr port [] c := by
  have hstep := request_outcome e p addr port
  rw [hconn] at hstep
  cases hstep with
  | released _ hdead => exact absurd hlive hdead.pcb_not_live
  | write stale =>
      refine ⟨hwrq, rfl, rfl, ?_, by simp, ?_, .inl ⟨⟨rfl, rfl, rfl, rfl, rfl⟩, rfl⟩⟩
      · cases e.lib.pbufAlloc 0 <;> rfl
      · cases e.lib.pbufAlloc 0 <;>
          simp [Conn.opened, Conn.after, Conn.sentIf, AckAfterWrite]
  | read stale hrrq => exact absurd (hrrq.symm.trans hwrq) tftpRrq_ne_wrq
  | readError stale hrrq => exact absurd (hrrq.symm.trans hwrq) tftpRrq_ne_wrq

/-- **Upload, exactly once and in order.**  Whatever the peer sends, in whatever
    order, and whatever fails: the blocks stored are the data of received DATA
    datagrams numbered `1, 2, …, k`, `parg->blknum` is `k` while the connection
    is live, and block `j` is acknowledged only after it was written.  Opcode and
    number are what the handler reads through `p->payload`; they are those of the
    datagram wherever its header lies in the first pbuf. -/
theorem upload_in_order (e : ReqEnv) (p : Pbuf) (addr : UInt32) (port : UInt16) (c : Conn)
    (hwrq : p.u16 0 = tftpWrq) (hconn : (requestRecvCallback e p addr port).conn = some c)
    (hlive : c.pcbLive = true) (is : List Input)
    (hsize : ∀ e p a pt, .datagram e p a pt ∈ is → p.u16 0 = tftpData → DataSized p) :
    ∃ ds : List Pbuf,
      okWrites (run Conn.step c is).log = ds.map dataBlock ∧
      (∀ i d, ds[i]? = some d →
        d.u16 0 = tftpData ∧ (d.u16 1).toNat = i + 1 ∧
          (d.Inside 1 → d.field 0 = tftpData ∧ (d.field 1).toNat = i + 1) ∧
          ∃ e, .datagram e d addr port ∈ is) ∧
      ((run Conn.step c is).pcbLive = true →
        (run Conn.step c is).arg.blknum.toNat = ds.length) ∧
      EachMeets AckAfterWrite (run Conn.step c is).log := by
  obtain ⟨ds, hds⟩ := uploaded_run (uploaded_request hwrq hconn hlive is) hsize
  refine ⟨ds, hds.writes, ?_, ?_, hds.acks⟩
  · intro i d hd
    obtain ⟨hop, hnum, hin⟩ := hds.numbered i d hd
    refine ⟨hop, hnum, ?_, hin⟩
    intro hheader
    rw [← Pbuf.u16_eq_field hheader, ← Pbuf.u16_eq_field (hheader.mono (Nat.zero_le 1))]
    exact ⟨hop, hnum⟩
  · intro hpcb
    rcases hds.status with ⟨-, hblk⟩ | hdead
    · exact hblk
    · exact absurd hpcb hdead.pcb_not_live

/-- A full first block. -/
def fullBlock : Pbuf := dataPbuf 1 (List.replicate 512 5) (Nat.le_of_eq List.length_replicate)

theorem dataSized_fullBlock : DataSized fullBlock := dataSized_dataPbuf _ _ _

/-- A sample upload of two blocks: no pbuf is left for the first ACK, so block 1
    comes again; then a number far ahead, and the short last block. -/
def sampleUpload : List Input :=
  [.datagram ⟨fun _ => false, 0, (0, 512)⟩ fullBlock 1 2, .datagram (Env.ok 512) fullBlock 1 2,
    .datagram (Env.ok 3) (dataPbuf 9 [1, 1, 1] (by decide)) 1 2,
    .datagram (Env.ok 3) (dataPbuf 2 [7, 8, 9] (by decide)) 1 2]

/-- Both blocks are stored once, and the connection is closed. -/
theorem upload_in_order_sample :
    ∃ c, (requestRecvCallback (sampleReqEnv []) (sampleRq tftpWrq) 1 2).conn = some c ∧
      c.pcbLive = true ∧ (run Conn.step c sampleUpload).pcbLive = false ∧
      okWrites (run Conn.step c sampleUpload).log = [List.replicate 512 5, [7, 8, 9]] ∧
      ∃ ds : List Pbuf,
        okWrites (run Conn.step c sampleUpload).log = ds.map dataBlock ∧
        (∀ i d, ds[i]? = some d →
          d.u16 0 = tftpData ∧ (d.u16 1).toNat = i + 1 ∧
            (d.Inside 1 → d.field 0 = tftpData ∧ (d.field 1).toNat = i + 1) ∧
            ∃ e, .datagram e d 1 2 ∈ sampleUpload) ∧
        ((run Conn.step c sampleUpload).pcbLive = true →
          (run Conn.step c sampleUpload).arg.blknum.toNat = ds.length) ∧
        EachMeets AckAfterWrite (run Conn.step c sampleUpload).log := by
  have hconn := request_granted (granted_sample [] (.inr rfl)) 1 2
  refine ⟨_, hconn, rfl, by decide +kernel, by decide +kernel, ?_⟩
  refine upload_in_order _ _ 1 2 _ (by decide) hconn rfl sampleUpload ?_
  intro e p a pt hin _
  simp only [sampleUpload, List.mem_cons, Input.datagram.injEq, List.not_mem_nil, or_false] at hin
  rcases hin with ⟨-, rfl, -, -⟩ | ⟨-, rfl, -, -⟩ | ⟨-, rfl, -, -⟩ | ⟨-, rfl, -, -⟩ <;>
    exact dataSized_dataPbuf _ _ _

end McuFirmware.Tftp
