/-
  McuFirmware.Tftp.Overrun

  Which datagrams overrun a buffer.

  The handlers read the header fields of a datagram through `p->payload` without
  looking at `p->len`, and the DATA branch stores `p->tot_len - 4` bytes into the
  512 bytes of `parg->data`.  `NoOverrun` is what a step must satisfy, `WellSized`
  the condition on the lengths under which it does, and both agree on every step
  of every run.
-/

import McuFirmware.Lib.Trace
import McuFirmware.Tftp.Server

namespace McuFirmware.Tftp

open McuFirmware.Lib McuFirmware.Lwip

/-- A read or a store behind the end of a buffer. -/
def IsOverrun : Fault → Prop
  | .overread => True
  | .overflow => True
  | .dead _ => False

/-- A store fits `parg->data`, and `fop.write` is called with the number of
    bytes just stored. -/
def EventOk (pre : List Event) : Event → Prop
  | .store count => count ≤ tftpDataLenMax
  | .write _ len _ => pre.getLast? = some (.store len.toNat)
  | _ => True

/-- The step from `c` to `c'` overruns no buffer. -/
structure NoOverrun (c c' : Conn) : Prop where
  faults : ∃ fs, c'.faults = c.faults ++ fs ∧ ∀ x ∈ fs, ¬ IsOverrun x
  dataLen : c.arg.dataLen.toNat ≤ tftpDataLenMax → c'.arg.dataLen.toNat ≤ tftpDataLenMax
  events : ∃ es, c'.log = c.log ++ es ∧ EachMeets EventOk es

/-- The handler reads the block number. -/
def ReadsBlknum (c : Conn) (p : Pbuf) : Prop :=
  (p.u16 0 = tftpData ∧ c.arg.op ≠ tftpRrq) ∨ (p.u16 0 = tftpAck ∧ c.arg.op ≠ tftpWrq)

/-- The first pbuf of the datagram holds the header fields that are read, and a
    DATA block that is stored fits. -/
def WellSized (c : Conn) : Input → Prop
  | .datagram _ p addr port =>
      c.pcbLive = true → c.FromPeer addr port →
        2 ≤ p.first.length ∧ (ReadsBlknum c p → 4 ≤ p.first.length) ∧
        (Accepts c p → FitsData p)
  | .tick _ => True

-- ============================================================================
-- One step
-- ============================================================================

section Step

variable {c c' : Conn} {fs : List Fault} {es : List Event} {p : Pbuf}

theorem noOverrun_payloadFaults (p : Pbuf) (k : Nat) :
    (∀ x ∈ Conn.payloadFaults p k, ¬ IsOverrun x) ↔ p.Inside k := by
  unfold Conn.payloadFaults
  by_cases hin : p.Inside k
  · simp [hin]
  · simp [hin, IsOverrun]

/-- The opcode lies inside the first pbuf iff that has two bytes. -/
theorem noOverrun_opcode (p : Pbuf) :
    (∀ x ∈ Conn.payloadFaults p 0, ¬ IsOverrun x) ↔ 2 ≤ p.first.length := by
  rw [noOverrun_payloadFaults, Pbuf.Inside]

/-- The two header fields lie inside the first pbuf iff that has four bytes. -/
theorem noOverrun_header (p : Pbuf) :
    (∀ x ∈ Conn.payloadFaults p 0 ++ Conn.payloadFaults p 1, ¬ IsOverrun x) ↔
      4 ≤ p.first.length := by
  rw [List.forall_mem_append, noOverrun_payloadFaults, noOverrun_payloadFaults, Pbuf.Inside,
    Pbuf.Inside]
  omega

/-- The header of a DATA datagram lies in the first pbuf, and its block fits. -/
def BlockSized (p : Pbuf) : Prop := tftpDataPktHdrLen ≤ p.first.length ∧ FitsData p

theorem BlockSized.dataSized (h : BlockSized p) : DataSized p :=
  ⟨h.1.trans p.first_le, h.2⟩

/-- A step that stores nothing overruns a buffer only by its reads. -/
theorem noOverrun_iff_faults (hfaults : c'.faults = c.faults ++ fs)
    (hlen : c.arg.dataLen.toNat ≤ tftpDataLenMax → c'.arg.dataLen.toNat ≤ tftpDataLenMax)
    (hlog : c'.log = c.log ++ es) (hes : ∀ ev ∈ es, ∀ pre, EventOk pre ev) :
    NoOverrun c c' ↔ ∀ x ∈ fs, ¬ IsOverrun x := by
  constructor
  · rintro ⟨⟨gs, hgs, hno⟩, -, -⟩
    rw [hfaults] at hgs
    rw [List.append_cancel_left hgs]
    exact hno
  · intro hno
    exact ⟨⟨fs, hfaults, hno⟩, hlen, es, hlog, eachMeets_of_forall hes⟩

/-- The sizes a datagram of the peer needs, by what the handler does with it. -/
theorem wellSized_iff (hlive : c.Live) {e : Env} {addr : UInt32} {port : UInt16}
    (hpeer : c.FromPeer addr port) :
    WellSized c (.datagram e p addr port) ↔
      2 ≤ p.first.length ∧ (ReadsBlknum c p → 4 ≤ p.first.length) ∧
        (Accepts c p → FitsData p) := by
  constructor
  · intro h
    exact h hlive.pcb hpeer
  · intro h _ _
    exact h

/-- Only the opcode is read. -/
theorem wellSized_iff_opcode (hlive : c.Live) {e : Env} {addr : UInt32} {port : UInt16}
    (hpeer : c.FromPeer addr port) (hreads : ¬ ReadsBlknum c p) :
    WellSized c (.datagram e p addr port) ↔ 2 ≤ p.first.length := by
  have hacc : ¬ Accepts c p := fun h => hreads (.inl ⟨h.1, h.2.1⟩)
  rw [wellSized_iff hlive hpeer]
  constructor
  · intro h
    exact h.1
  · intro h
    exact ⟨h, fun hr => absurd hr hreads, fun ha => absurd ha hacc⟩

/-- Opcode and block number are read, nothing is stored. -/
theorem wellSized_iff_header (hlive : c.Live) {e : Env} {addr : UInt32} {port : UInt16}
    (hpeer : c.FromPeer addr port) (hreads : ReadsBlknum c p) (hacc : ¬ Accepts c p) :
    WellSized c (.datagram e p addr port) ↔ 4 ≤ p.first.length := by
  rw [wellSized_iff hlive hpeer]
  constructor
  · intro h
    exact h.2.1 hreads
  · intro h
    exact ⟨by omega, fun _ => h, fun ha => absurd ha hacc⟩

/-- The block is stored as well. -/
theorem wellSized_iff_block (hlive : c.Live) {e : Env} {addr : UInt32} {port : UInt16}
    (hpeer : c.FromPeer addr port) (hacc : Accepts c p) :
    WellSized c (.datagram e p addr port) ↔ BlockSized p := by
  have hreads : ReadsBlknum c p := .inl ⟨hacc.1, hacc.2.1⟩
  rw [wellSized_iff hlive hpeer, BlockSized, tftpDataPktHdrLen]
  constructor
  · intro h
    exact ⟨h.2.1 hreads, h.2.2 hacc⟩
  · intro h
    exact ⟨by omega, fun _ => h.1, fun _ => h.2⟩

/-- The faults of a stored block are overruns, all of them. -/
theorem noOverrun_storeFaults (a : ConnArgs) (h : tftpDataPktHdrLen ≤ p.payload.length) :
    (∀ x ∈ Conn.storeFaults p a, ¬ IsOverrun x) ↔ FitsData p := by
  by_cases hfit : FitsData p
  · refine iff_of_true ?_ hfit
    have hlen := Conn.stored_dataLen a ⟨h, hfit⟩
    have hle : (Conn.stored p a).dataLen.toNat ≤ tftpDataLenMax := by
      rw [hlen]
      exact hfit.length_le
    rw [Conn.storeFaults, overflowFaults_of_fits hfit, Conn.overreadFaults, if_pos hle]
    exact List.forall_mem_nil _
  · refine iff_of_false ?_ hfit
    rw [Conn.storeFaults, overflowFaults_of_not_fits hfit]
    exact fun hno => hno .overflow (List.mem_append_left _ List.mem_cons_self) trivial

/-- The faults of an accepted DATA datagram are overruns unless it has the right
    size. -/
theorem noOverrun_dataFaults (a : ConnArgs) (p : Pbuf) :
    (∀ x ∈ Conn.payloadFaults p 0 ++ Conn.payloadFaults p 1 ++ Conn.storeFaults p a,
      ¬ IsOverrun x) ↔ BlockSized p := by
  rw [List.forall_mem_append, noOverrun_header]
  constructor
  · rintro ⟨hhdr, hstore⟩
    exact ⟨hhdr, (noOverrun_storeFaults a (hhdr.trans p.first_le)).mp hstore⟩
  · rintro ⟨hhdr, hfit⟩
    exact ⟨hhdr, (noOverrun_storeFaults a (hhdr.trans p.first_le)).mpr hfit⟩

/-- A step that stores the block of `p` overruns no buffer iff `p` has the right
    size. -/
theorem noOverrun_iff_blockSized {e : Env}
    (hfaults : c'.faults = c.faults
      ++ (Conn.payloadFaults p 0 ++ Conn.payloadFaults p 1
        ++ Conn.storeFaults p (Conn.refreshed c.arg)))
    (hlen : c'.arg.dataLen = (Conn.stored p (Conn.refreshed c.arg)).dataLen)
    (hlog : c'.log = c.log ++ ([.recv p, .store (Conn.copied p).length,
      Conn.writeEvent e (Conn.stored p (Conn.refreshed c.arg))] ++ es ++ [.pbufFree]))
    (hes : ∀ ev ∈ es, ∀ pre, EventOk pre ev) : NoOverrun c c' ↔ BlockSized p := by
  constructor
  · rintro ⟨⟨gs, hgs, hno⟩, -, -⟩
    rw [hfaults] at hgs
    rw [← noOverrun_dataFaults (Conn.refreshed c.arg), List.append_cancel_left hgs]
    exact hno
  · intro hsized
    have hstored := Conn.stored_dataLen (Conn.refreshed c.arg) hsized.dataSized
    have hblock : (dataBlock p).length ≤ tftpDataLenMax := hsized.2.length_le
    refine ⟨⟨_, hfaults, (noOverrun_dataFaults _ p).mpr hsized⟩, ?_, _, hlog, ?_⟩
    · intro _
      rw [hlen, hstored]
      exact hblock
    · rw [Conn.writeEvent_stored e _ hsized.dataSized, Conn.copied_eq, ← hstored, List.append_assoc]
      refine (eachMeets_append _ _).mpr ⟨?_, eachMeets_of_forall ?_⟩
      · -- the store fits, and the write follows it with its length
        simpa [EventOk, hstored] using hblock
      · intro ev hev pre
        rcases List.mem_append.mp hev with hev | hev
        · exact hes ev hev _
        · rw [List.mem_singleton.mp hev]
          trivial

/-- Sending is no access to a buffer of the connection. -/
theorem eventOk_sentIf (c : Conn) (alloc : Bool) (pkt : Packet) :
    ∀ ev ∈ c.sentIf alloc pkt, ∀ pre, EventOk pre ev :=
  Conn.forall_sentIf (Q := fun ev => ∀ pre, EventOk pre ev) fun _ => by trivial

theorem eventOk_answer (hes : ∀ ev ∈ es, ∀ pre, EventOk pre ev) :
    ∀ ev ∈ .recv p :: es ++ [.pbufFree], ∀ pre, EventOk pre ev :=
  Conn.forall_answer (Q := fun ev => ∀ pre, EventOk pre ev) (fun _ => by trivial)
    (fun _ => by trivial) hes

theorem eventOk_read {n : Int} (hes : ∀ ev ∈ es, ∀ pre, EventOk pre ev) :
    ∀ ev ∈ .read n :: es, ∀ pre, EventOk pre ev :=
  List.forall_mem_cons.mpr ⟨fun _ => trivial, hes⟩

theorem eventOk_tick (hes : ∀ ev ∈ es, ∀ pre, EventOk pre ev) :
    ∀ ev ∈ .tick :: es, ∀ pre, EventOk pre ev :=
  List.forall_mem_cons.mpr ⟨fun _ => trivial, hes⟩

/-- A block read from the file fills at most `parg->data`. -/
theorem advanced_dataLen_le (c : Conn) (a : ConnArgs) :
    (c.advanced a).dataLen.toNat ≤ tftpDataLenMax := by
  have hread : c.nextBytes.length ≤ tftpDataLenMax := List.length_take_le _ _
  have hmod : (c.advanced a).dataLen.toNat = c.nextBytes.length % 2 ^ 16 := UInt16.toNat_ofNat'
  rw [hmod]
  exact (Nat.mod_le _ _).trans hread

theorem not_readsBlknum (hdata : p.u16 0 = tftpData → c.arg.op = tftpRrq)
    (hack : p.u16 0 = tftpAck → c.arg.op = tftpWrq) : ¬ ReadsBlknum c p := by
  rintro (⟨hop, hne⟩ | ⟨hop, hne⟩)
  · exact hne (hdata hop)
  · exact hne (hack hop)

theorem not_accepts_of_ack (hop : p.u16 0 = tftpAck) : ¬ Accepts c p := by
  intro h
  exact absurd (hop.symm.trans h.1) (by decide)

/-- A tick, or a datagram of somebody else: no buffer is accessed. -/
theorem noOverrun_idle (hfaults : c'.faults = c.faults ++ [])
    (hlen : c'.arg.dataLen = c.arg.dataLen) (hlog : c'.log = c.log ++ es)
    (hes : ∀ ev ∈ es, ∀ pre, EventOk pre ev) : NoOverrun c c' := by
  refine (noOverrun_iff_faults hfaults ?_ hlog hes).mpr ?_
  · rw [hlen]
    exact id
  · exact List.forall_mem_nil _

section Branches

variable {e : Env} {addr : UInt32} {port : UInt16}

/-- A branch that reads the opcode only. -/
theorem noOverrun_opcode_iff (hlive : c.Live) (hpeer : c.FromPeer addr port)
    (hreads : ¬ ReadsBlknum c p) (hfaults : c'.faults = c.faults ++ Conn.payloadFaults p 0)
    (hlen : c'.arg.dataLen = c.arg.dataLen) (hlog : c'.log = c.log ++ es)
    (hes : ∀ ev ∈ es, ∀ pre, EventOk pre ev) :
    NoOverrun c c' ↔ WellSized c (.datagram e p addr port) := by
  have hkeep : c.arg.dataLen.toNat ≤ tftpDataLenMax → c'.arg.dataLen.toNat ≤ tftpDataLenMax := by
    rw [hlen]
    exact id
  rw [noOverrun_iff_faults hfaults hkeep hlog hes, noOverrun_opcode,
    wellSized_iff_opcode hlive hpeer hreads]

/-- A branch that reads opcode and block number, and perhaps touches a connection
    it has closed. -/
theorem noOverrun_header_iff (hlive : c.Live) (hpeer : c.FromPeer addr port)
    (hreads : ReadsBlknum c p) (hacc : ¬ Accepts c p)
    (hfaults : c'.faults = c.faults ++ (Conn.payloadFaults p 0 ++ Conn.payloadFaults p 1 ++ fs))
    (hfs : ∀ x ∈ fs, ¬ IsOverrun x)
    (hlen : c.arg.dataLen.toNat ≤ tftpDataLenMax → c'.arg.dataLen.toNat ≤ tftpDataLenMax)
    (hlog : c'.log = c.log ++ es) (hes : ∀ ev ∈ es, ∀ pre, EventOk pre ev) :
    NoOverrun c c' ↔ WellSized c (.datagram e p addr port) := by
  rw [noOverrun_iff_faults hfaults hlen hlog hes, List.forall_mem_append, noOverrun_header,
    wellSized_iff_header hlive hpeer hreads hacc]
  exact and_iff_left hfs

/-- The branch in which `f_read` fails touches only what it has released. -/
theorem noOverrun_readFailed_iff (hlive : c.Live) (hpeer : c.FromPeer addr port)
    (hop : p.u16 0 = tftpAck) (hwrq : c.arg.op ≠ tftpWrq) (hfailed : Conn.ReadFailed e p c c') :
    NoOverrun c c' ↔ WellSized c (.datagram e p addr port) := by
  obtain ⟨rs, hfaults⟩ := hfailed.faults
  refine noOverrun_header_iff hlive hpeer (.inr ⟨hop, hwrq⟩) (not_accepts_of_ack hop) hfaults
    ?_ ?_ hfailed.log (eventOk_answer (eventOk_read (eventOk_sentIf c _ _)))
  · intro x hx
    rw [← List.map_cons] at hx
    obtain ⟨r, -, rfl⟩ := List.mem_map.mp hx
    exact id
  · rw [hfailed.arg]
    exact id

/-- The branch that reads and sends the next block. -/
theorem noOverrun_advance_iff (hlive : c.Live) (hpeer : c.FromPeer addr port)
    (hop : p.u16 0 = tftpAck) (hwrq : c.arg.op ≠ tftpWrq)
    (hfaults : c'.faults = c.faults ++ (Conn.payloadFaults p 0 ++ Conn.payloadFaults p 1))
    (harg : c'.arg = c.advanced (Conn.refreshed c.arg))
    (hlog : c'.log = c.log ++ (.recv p :: (.read c.nextBytes.length ::
      c.sentIf (e.pbufAlloc 0) (Conn.packetOf (c.advanced (Conn.refreshed c.arg))))
        ++ [.pbufFree])) :
    NoOverrun c c' ↔ WellSized c (.datagram e p addr port) := by
  refine noOverrun_header_iff hlive hpeer (.inr ⟨hop, hwrq⟩) (not_accepts_of_ack hop) ?_
    (List.forall_mem_nil _) ?_ hlog (eventOk_answer (eventOk_read (eventOk_sentIf c _ _)))
  · rw [List.append_nil]
    exact hfaults
  · intro _
    rw [harg]
    exact advanced_dataLen_le c _

/-- **Step lemma, datagrams.** -/
theorem noOverrun_datagram_iff (hlive : c.Live) (hstep : Conn.DatagramStep e p addr port c c') :
    NoOverrun c c' ↔ WellSized c (.datagram e p addr port) := by
  have hquiet : ∀ ev ∈ [.recv p, .pbufFree], ∀ pre, EventOk pre ev :=
    eventOk_answer (List.forall_mem_nil _)
  cases hstep with
  | foreign es hother hes =>
      refine iff_of_true (noOverrun_idle rfl rfl rfl (eventOk_answer ?_)) ?_
      · intro ev hev
        obtain ⟨ip, port', code, msg, rfl⟩ := hes ev hev
        exact fun _ => trivial
      · exact fun _ hpeer => absurd hpeer hother
  | request hpeer hop =>
      refine noOverrun_opcode_iff hlive hpeer (not_readsBlknum ?_ ?_) rfl rfl rfl hquiet
      · intro hdata
        rw [hdata] at hop
        exact absurd hop (by decide)
      · intro hack
        rw [hack] at hop
        exact absurd hop (by decide)
  | error hpeer hop =>
      refine noOverrun_opcode_iff hlive hpeer (not_readsBlknum ?_ ?_) rfl rfl rfl hquiet
      · intro hdata
        exact absurd (hop.symm.trans hdata) (by decide)
      · intro hack
        exact absurd (hop.symm.trans hack) (by decide)
  | dataOnRead hpeer hop hrrq =>
      refine noOverrun_opcode_iff hlive hpeer (not_readsBlknum (fun _ => hrrq) ?_) rfl rfl rfl
        (eventOk_answer (eventOk_sentIf c _ _))
      intro hack
      exact absurd (hop.symm.trans hack) (by decide)
  | ackOnWrite hpeer hop hwrq =>
      refine noOverrun_opcode_iff hlive hpeer (not_readsBlknum ?_ fun _ => hwrq) rfl rfl rfl
        (eventOk_answer (eventOk_sentIf c _ _))
      intro hdata
      exact absurd (hop.symm.trans hdata) (by decide)
  | unknown hpeer hrq herr hdata hack =>
      refine noOverrun_opcode_iff hlive hpeer (not_readsBlknum ?_ ?_) rfl rfl rfl
        (eventOk_answer (eventOk_sentIf c _ _))
      · exact fun h => absurd h hdata
      · exact fun h => absurd h hack
  | dataRepeated hpeer hop hrrq hblk =>
      refine noOverrun_header_iff hlive hpeer (.inl ⟨hop, hrrq⟩) (fun hacc => hblk hacc.2.2)
        ?_ (List.forall_mem_nil _) id rfl (eventOk_answer (eventOk_sentIf c _ _))
      rw [List.append_nil]
      rfl
  | ackStale hpeer hop hwrq hblk =>
      refine noOverrun_header_iff hlive hpeer (.inr ⟨hop, hwrq⟩) (not_accepts_of_ack hop)
        ?_ (List.forall_mem_nil _) id rfl hquiet
      rw [List.append_nil]
      rfl
  | dataRefused hpeer hop hrrq hblk hret =>
      rw [wellSized_iff_block hlive hpeer ⟨hop, hrrq, hblk⟩]
      exact noOverrun_iff_blockSized rfl rfl rfl (eventOk_sentIf c _ _)
  | dataWritten hpeer hop hrrq hblk hret =>
      rw [wellSized_iff_block hlive hpeer ⟨hop, hrrq, hblk⟩]
      split
      · exact noOverrun_iff_blockSized rfl rfl rfl (eventOk_sentIf c _ _)
      · exact noOverrun_iff_blockSized rfl rfl rfl (eventOk_sentIf c _ _)
  | ackReadError hpeer hop hwrq hblk hread =>
      exact noOverrun_readFailed_iff hlive hpeer hop hwrq (Conn.readFailed e p c)
  | ackAdvance hpeer hop hwrq hblk hread =>
      split
      · exact noOverrun_advance_iff hlive hpeer hop hwrq rfl rfl rfl
      · exact noOverrun_advance_iff hlive hpeer hop hwrq rfl rfl rfl

/-- **Step lemma, ticks.** -/
theorem noOverrun_tick (hstep : Conn.TickStep e c c') : NoOverrun c c' := by
  cases hstep with
  | quiet | giveUp => exact noOverrun_idle rfl rfl rfl (eventOk_tick (List.forall_mem_nil _))
  | resend => exact noOverrun_idle rfl rfl rfl (eventOk_tick (eventOk_sentIf c _ _))

end Branches

/-- Nothing is read on a closed connection. -/
theorem wellSized_of_dead (hdead : c.Dead) (i : Input) : WellSized c i := by
  cases i with
  | tick e => trivial
  | datagram e p addr port =>
      intro hpcb
      exact absurd hpcb hdead.pcb_not_live

/-- **Step lemma.**  A step overruns no buffer iff its datagram has the sizes its
    branch relies on. -/
theorem noOverrun_step_iff (h : c.Settled) (i : Input) :
    NoOverrun c (c.step i) ↔ WellSized c i := by
  rcases h with hlive | hdead
  · refine Conn.step_cases (motive := fun c' => NoOverrun c c' ↔ WellSized c i) hlive ?_ ?_
    · intro e p addr port c' heq hstep
      rw [heq]
      exact noOverrun_datagram_iff hlive hstep
    · intro e c' heq hstep
      rw [heq]
      exact iff_of_true (noOverrun_tick hstep) trivial
  · rw [Conn.step_of_dead hdead]
    refine iff_of_true ?_ (wellSized_of_dead hdead i)
    exact noOverrun_idle (List.append_nil _).symm rfl (List.append_nil _).symm
      (List.forall_mem_nil _)

end Step

-- ============================================================================
-- Runs of the server
-- ============================================================================

/-- The request `r` overruns no buffer, neither while its line is read nor in
    the connection it opens. -/
structure RequestOk (r : Rq) : Prop where
  line : ∀ x ∈ (requestRecvCallback r.env r.p r.addr r.port).faults, ¬ IsOverrun x
  faults : ∀ c, r.conn = some c → ∀ x ∈ c.faults, ¬ IsOverrun x
  /-- `data_len` is what the allocated block held, or the length of block 1 -/
  dataLen : ∀ c stale, r.conn = some c → c.argLive = true → r.env.argMalloc = some stale →
    stale.dataLen.toNat ≤ tftpDataLenMax → c.arg.dataLen.toNat ≤ tftpDataLenMax
  events : ∀ c, r.conn = some c → EachMeets EventOk c.log

/-- The step of the server overruns no buffer. -/
def ServerNoOverrun (l : List Conn) : ServerInput → Prop
  | .spawn r => RequestOk r
  | .deliver k i => ∀ c, l[k]? = some c → NoOverrun c (c.step i)

/-- The datagram of the step has the sizes its handler relies on. -/
def ServerWellSized (l : List Conn) : ServerInput → Prop
  | .spawn r => 2 ≤ r.p.first.length
  | .deliver k i => ∀ c, l[k]? = some c → WellSized c i

/-- The connection of a request starts without an overrun. -/
theorem request_conn_ok {r : Rq} {c : Conn} (h : r.conn = some c) :
    c.faults = [] ∧ (∀ ev ∈ c.log, ∀ pre, EventOk pre ev) ∧
      ∀ stale, c.argLive = true → r.env.argMalloc = some stale →
        stale.dataLen.toNat ≤ tftpDataLenMax → c.arg.dataLen.toNat ≤ tftpDataLenMax := by
  have hstep := request_outcome r.env r.p r.addr r.port
  rw [show (requestRecvCallback r.env r.p r.addr r.port).conn = some c from h] at hstep
  cases hstep with
  | released _ hdead _ hfaults hlog =>
      refine ⟨hfaults, ?_, ?_⟩
      · rw [hlog]
        exact List.forall_mem_nil _
      · intro stale hlive
        rw [hdead.arg] at hlive
        exact absurd hlive (by decide)
  | write stale hop hstale =>
      refine ⟨rfl, eventOk_sentIf _ _ _, ?_⟩
      intro stale' _ hstale' hle
      obtain rfl : stale = stale' := Option.some.inj (hstale.symm.trans hstale')
      exact hle
  | read stale =>
      refine ⟨rfl, eventOk_read (eventOk_sentIf _ _ _), ?_⟩
      intro _ _ _ _
      exact advanced_dataLen_le _ _
  | readError stale =>
      refine ⟨rfl, eventOk_read (eventOk_sentIf _ _ _), ?_⟩
      intro stale' hlive
      exact absurd hlive (by simp [Conn.closed])

theorem requestOk_iff (r : Rq) : RequestOk r ↔ 2 ≤ r.p.first.length := by
  rw [← noOverrun_opcode, ← requestRecvCallback_faults r.env r.p r.addr r.port]
  constructor
  · exact RequestOk.line
  · intro hline
    refine ⟨hline, ?_, ?_, ?_⟩
    · intro c hc
      rw [(request_conn_ok hc).1]
      exact List.forall_mem_nil _
    · intro c stale hc
      exact (request_conn_ok hc).2.2 stale
    · intro c hc
      exact eachMeets_of_forall (request_conn_ok hc).2.1

/-- **Buffers of the server.**  Over any run of the server no step overruns a
    buffer exactly when every datagram that is handled has the sizes its handler
    relies on: two bytes in the first pbuf, four where the block number is read,
    and at most 516 in all where a block is stored. -/
theorem no_overrun_iff (xs : List ServerInput) :
    StepsMeet serverStep ServerNoOverrun [] xs ↔ StepsMeet serverStep ServerWellSized [] xs := by
  have hnil : ∀ c ∈ ([] : List Conn), c.Settled := List.forall_mem_nil _
  refine stepsMeet_congr (I := fun l => ∀ c ∈ l, c.Settled) (fun l x h => settled_serverStep l x h)
    ?_ hnil
  intro l x hsettled
  cases x with
  | spawn r => exact requestOk_iff r
  | deliver k i =>
      refine forall_congr' fun c => imp_congr_right fun hc => ?_
      exact noOverrun_step_iff (hsettled c (List.mem_of_getElem? hc)) i

/-- Block 1 with 513 bytes of data. -/
def longBlock : Pbuf :=
  Pbuf.ofBytes (Packet.data 1 (List.replicate 513 0)).encode (by
    rw [Packet.encode, List.length_append, List.length_append, List.length_replicate]
    decide)

theorem longBlock_length : longBlock.payload.length = 517 := by
  simp [-List.reduceReplicate, longBlock, Packet.encode]

theorem longBlock_not_fits : ¬ FitsData longBlock := by
  rw [FitsData, longBlock_length]
  decide

theorem longBlock_opcode : longBlock.u16 0 = tftpData :=
  Pbuf.u16_of_drop (storeU16 (ppHtons 1) ++ List.replicate 513 0)
    (by simp [-List.reduceReplicate, longBlock, Pbuf.ofBytes, Packet.encode])

theorem longBlock_blknum : longBlock.u16 1 = 1 :=
  Pbuf.u16_of_drop (List.replicate 513 0)
    (by simp [-List.reduceReplicate, longBlock, Pbuf.ofBytes, Packet.encode, storeU16])

/-- A write request, then a first block of 513 bytes: one byte is stored behind
    `parg->data`. -/
theorem block_stored_behind_buffer :
    ∃ c, run serverStep [] [.spawn ⟨sampleReqEnv [], sampleRq tftpWrq, 1, 2⟩] = [c] ∧
      .overflow ∈ (c.step (.datagram (Env.ok 513) longBlock 1 2)).faults ∧
      ¬ StepsMeet serverStep ServerNoOverrun []
        [.spawn ⟨sampleReqEnv [], sampleRq tftpWrq, 1, 2⟩,
          .deliver 0 (.datagram (Env.ok 513) longBlock 1 2)] := by
  have hop : (sampleRq tftpWrq).u16 0 = tftpWrq := by decide
  obtain ⟨c, hc, hlive, hpeer, hacc⟩ : ∃ c,
      Rq.conn ⟨sampleReqEnv [], sampleRq tftpWrq, 1, 2⟩ = some c ∧ c.Live ∧ c.FromPeer 1 2 ∧
        Accepts c longBlock := by
    refine ⟨_, request_granted_write (granted_sample [] (.inr rfl)) hop 1 2,
      Conn.live_after (Conn.opened_live _ _ _ _ _), ⟨rfl, rfl⟩, longBlock_opcode, ?_, ?_⟩
    · change ¬ (sampleRq tftpWrq).u16 0 = tftpRrq
      rw [hop]
      decide
    · rw [longBlock_blknum]
      rfl
  have hfault : .overflow ∈ (c.step (.datagram (Env.ok 513) longBlock 1 2)).faults := by
    rw [faults_of_accepts hlive hpeer hacc, Conn.storeFaults,
      overflowFaults_of_not_fits longBlock_not_fits]
    simp
  have hrun : serverStep [] (.spawn ⟨sampleReqEnv [], sampleRq tftpWrq, 1, 2⟩) = [c] := by
    simp [serverStep, familyStep, hc]
  refine ⟨c, by rw [run_cons, hrun, run_nil], hfault, ?_⟩
  rintro ⟨-, hsecond, -⟩
  rw [hrun] at hsecond
  have hsized := (noOverrun_step_iff (.inl hlive) _).mp (hsecond c rfl) hlive.pcb hpeer
  exact longBlock_not_fits (hsized.2.2 hacc)

end McuFirmware.Tftp
