/-
  McuFirmware.Tftp.Isolation

  Transfers do not interfere.

  The peer of a connection is kept three times: in its pcb, where `udp_input`
  looks it up, in its argument block, where `data_ack_recv_callback` checks it
  again, and in the datagram.  `Guarded` says that they agree in every state; it
  is lost only where a DATA block that does not fit is stored over the memory
  behind `parg->data`.
-/

import McuFirmware.Tftp.Net

namespace McuFirmware.Tftp

open McuFirmware.Lib McuFirmware.Lwip

/-- A block that is stored fits `parg->data`. -/
def FitsBlock (s : Net) : NetInput → Prop
  | .udp _ p addr src dest =>
      ∀ k c, s.route addr src dest = some (.conn k) → s.conns[k]? = some c → Accepts c p →
        FitsData p
  | .tick _ _ => True

/-- The datagram has a source address. -/
def NetInput.FromHost : NetInput → Prop
  | .udp _ _ addr _ _ => addr ≠ 0
  | .tick _ _ => True

/-- A datagram for `data_ack_recv_callback` comes from the peer of a live
    connection, the only one on that port; handling it touches nothing that is
    not held, and no other connection. -/
def Isolated (H : Placement) (s : Net) : NetInput → Prop
  | .udp e p addr src dest =>
      ∀ k, s.route addr src dest = some (.conn k) →
        ∃ c, s.conns[k]? = some c ∧ c.Live ∧ c.FromPeer addr src ∧
          (∀ j d, s.conns[j]? = some d → d.pcbLive = true → d.pcb.localPort = dest → j = k) ∧
          (∀ f ∈ (c.step (.datagram e.lib p addr src)).faults, ¬ Stray f) ∧
          ∀ j ≠ k, (s.step H (.udp e p addr src dest)).conns[j]? = s.conns[j]?
  | .tick _ _ => True

-- ============================================================================
-- The three copies of the peer
-- ============================================================================

/-- The argument block of a live connection names the peer of its pcb. -/
def Conn.Tied (c : Conn) : Prop :=
  c.pcbLive = true → c.FromPeer c.pcb.remoteIp c.pcb.remotePort ∧ c.pcb.remoteIp ≠ 0

/-- The net is wired, and every connection is in good order and tied to its peer. -/
structure Guarded (s : Net) : Prop where
  wired : Wired s
  clean : ∀ c ∈ s.conns, Clean c
  tied : ∀ c ∈ s.conns, c.Tied

section Guarded

variable {H : Placement} {s : Net} {c : Conn}

theorem excess_of_sane {i : Input} (h : Sane c i) : c.excess i = [] := by
  cases i with
  | tick e => rfl
  | datagram e p addr port =>
      rw [Conn.excess]
      split
      case isFalse => rfl
      case isTrue hacc =>
        have hfit := (h hacc.1 hacc.2.1).2 hacc.2.2
        exact List.drop_eq_nil_iff.mpr (Conn.length_copied_le_iff.mpr hfit)

theorem overwritten_nil (k j : Nat) (c : Conn) : c.overwritten H k j [] = c := by
  rw [Conn.overwritten, H.overwrite_nil]

theorem tied_step (hclean : Clean c) (h : c.Tied) {i : Input} (hi : Sane c i) :
    (c.step i).Tied := by
  have hbefore : c.ClosedOnce := hclean.status
  have hafter : (c.step i).ClosedOnce := (clean_step hclean hi).status
  intro hlive
  by_cases hpcb : c.pcbLive = true
  · have hkept := Conn.kept_step (hbefore.of_live hpcb) i (hafter.of_live hlive)
    obtain ⟨⟨hport, hip⟩, hne⟩ := h hpcb
    rw [hkept.pcb]
    exact ⟨⟨hport.trans hkept.request.port.symm, hip.trans hkept.request.ip.symm⟩, hne⟩
  · rw [Conn.step_of_dead (hbefore.of_dead hpcb).1] at hlive
    exact absurd hlive hpcb

theorem guarded_init : Guarded Net.init :=
  ⟨wired_init, fun _ hc => absurd hc List.not_mem_nil, fun _ hc => absurd hc List.not_mem_nil⟩

theorem guarded_searched (h : Guarded s) (addr : UInt32) (src dest : UInt16) :
    Guarded (s.searched addr src dest) :=
  ⟨wired_searched h.wired addr src dest, h.clean, h.tied⟩

theorem guarded_deliver (h : Guarded s) (k : Nat) {i : Input} (hread : i.ReadsOk)
    (hsane : ∀ c, s.conns[k]? = some c → Sane c i) : Guarded (s.deliver H k i) := by
  have hwired := wired_deliver (H := H) h.wired k hread
  cases hk : s.conns[k]? with
  | none =>
      rw [deliver_of_none hk]
      exact h
  | some c =>
      have hi := hsane c hk
      have hc := List.mem_of_getElem? hk
      have hkeep {P : Conn → Prop} (j : Nat) (d : Conn) (hd : P d) :
          P (d.overwritten H k j (c.excess i)) := by
        rw [excess_of_sane hi, overwritten_nil]
        exact hd
      exact ⟨hwired, deliver_forall hk h.clean (clean_step (h.clean c hc) hi) hkeep,
        deliver_forall hk h.tied (tied_step (h.clean c hc) (h.tied c hc) hi) hkeep⟩

theorem guarded_request (h : Guarded s) (e : ReqEnv) (p : Pbuf) {addr : UInt32} (src : UInt16)
    (haddr : addr ≠ 0) : Guarded (s.request e p addr src) := by
  have hwired := wired_request h.wired e p addr src
  cases hconn : (s.rq e p addr src).conn with
  | none =>
      rw [Net.request, hconn]
      exact h
  | some c =>
      have hconns : (s.request e p addr src).conns = s.conns ++ [c] := by
        rw [Net.request, hconn]
      have htied : c.Tied := by
        intro hlive
        obtain ⟨-, hpcb, hpeer⟩ := request_peer hconn hlive
        rw [hpcb]
        exact ⟨hpeer, haddr⟩
      refine ⟨hwired, ?_, ?_⟩
      · rw [hconns]
        exact List.forall_mem_append.mpr
          ⟨h.clean, List.forall_mem_singleton.mpr (clean_request hconn)⟩
      · rw [hconns]
        exact List.forall_mem_append.mpr ⟨h.tied, List.forall_mem_singleton.mpr htied⟩

/-- A datagram for a connection, its block fitting, does not reach faulty code. -/
theorem sane_of_fits {e : ReqEnv} {p : Pbuf} {addr : UInt32} {src dest : UInt16} {k : Nat}
    (hread : e.lib.fRead = 0) (hfits : FitsBlock s (.udp e p addr src dest))
    (hroute : s.route addr src dest = some (.conn k)) (hk : s.conns[k]? = some c) :
    Sane c (.datagram e.lib p addr src) :=
  fun _ _ => ⟨fun _ => hread, fun hacc => hfits k c hroute hk hacc⟩

/-- **Step lemma.** -/
theorem guarded_step (h : Guarded s) {x : NetInput} (hread : x.ReadsOk) (haddr : x.FromHost)
    (hfits : FitsBlock s x) : Guarded (s.step H x) := by
  cases x with
  | tick k e => exact guarded_deliver h k trivial (fun _ _ => trivial)
  | udp e p addr src dest =>
      have hsearched := guarded_searched h addr src dest
      simp only [Net.step]
      split
      case h_1 => exact guarded_request hsearched e p src haddr
      case h_2 k hroute =>
        exact guarded_deliver hsearched k hread
          (fun c hk => sane_of_fits hread hfits hroute hk)
      case h_3 => exact hsearched
      case h_4 => exact hsearched

theorem isolated_of_guarded (h : Guarded s) {x : NetInput} (hread : x.ReadsOk)
    (hfits : FitsBlock s x) : Isolated H s x := by
  cases x with
  | tick k e => trivial
  | udp e p addr src dest =>
      intro k hroute
      obtain ⟨c, hk, hlive, hmatch, hunique⟩ := wired_route h.wired hroute
      have hc := List.mem_of_getElem? hk
      obtain ⟨hpeer, hne⟩ := h.tied c hc hlive.pcb
      have hport : c.pcb.remotePort = src := hmatch.1
      have haddr : c.pcb.remoteIp = addr := hmatch.2.resolve_left hne
      rw [haddr, hport] at hpeer
      have hsane := sane_of_fits hread hfits hroute hk
      refine ⟨c, hk, hlive, hpeer, hunique, (clean_step (h.clean c hc) hsane).noStray, ?_⟩
      intro j hj
      have hk' : (s.searched addr src dest).conns[k]? = some c := hk
      simp only [Net.step, hroute]
      rw [deliver_other hk' hj, excess_of_sane hsane]
      change (s.conns[j]?).map _ = s.conns[j]?
      simp only [overwritten_nil, Option.map_id']

end Guarded

/-- **Isolation of transfers.**  Whatever the heap holds behind the argument
    blocks: over every run with datagrams from any hosts, in which no accepted
    DATA block is longer than `parg->data`, each datagram that reaches
    `data_ack_recv_callback` comes from the peer of its connection, and handling
    it leaves every other connection as it was. -/
theorem transfers_isolated (H : Placement) (xs : List NetInput)
    (haddr : ∀ x ∈ xs, x.FromHost) (hread : ∀ x ∈ xs, x.ReadsOk)
    (hfits : StepsMeet (Net.step H) FitsBlock Net.init xs) :
    StepsMeet (Net.step H) (Isolated H) Net.init xs := by
  have hinputs : StepsMeet (Net.step H) (fun _ x => x.ReadsOk ∧ x.FromHost) Net.init xs :=
    stepsMeet_of_forall (fun x hx _ => ⟨hread x hx, haddr x hx⟩) _
  refine stepsMeet_of_inv (I := Guarded) ?_ ?_ guarded_init (hfits.and hinputs)
  · rintro s x h ⟨hfits, hread, haddr⟩
    exact guarded_step h hread haddr hfits
  · rintro s x h ⟨hfits, hread, -⟩
    exact isolated_of_guarded h hread hfits

-- ============================================================================
-- Blocks in a row
-- ============================================================================

/-- The argument block after `bytes` were stored from its first byte on; `fop` and
    `handle` lie between `remote_port` and `data`. -/
def ConnArgs.patched (a : ConnArgs) (bytes : List UInt8) : ConnArgs :=
  ConnArgs.spilled
    { a with
      op := UInt16.ofNat (patch 2 a.op.toNat bytes)
      remoteIp := UInt32.ofNat (patch 4 a.remoteIp.toNat (bytes.drop 4))
      remotePort := UInt16.ofNat (patch 2 a.remotePort.toNat (bytes.drop 8))
      data := a.data.memcpy 0 (bytes.drop 32) }
    (bytes.drop 544)

/-- Requests one after the other: each takes 560 bytes for the argument block and
    592 for the `FIL`, with 8 bytes of heap header each, so that the next argument
    block begins 1168 bytes further.  `data` ends 544 bytes into the block.  File
    objects are left out. -/
def inARow : Placement where
  overwrite k j bytes x :=
    if k < j ∧ 1168 * (j - k) - 544 < bytes.length then
      (x.1.patched (bytes.drop (1168 * (j - k) - 544)), x.2)
    else x
  overwrite_nil _ _ _ := if_neg (fun h => absurd h.2 (Nat.not_lt_zero _))

/-- A write request. -/
def sampleWrq (addr : UInt32) (src : UInt16) : NetInput :=
  .udp (sampleReqEnv []) (sampleRq tftpWrq) addr src 69

/-- Block 1 of a sample client, to the first local port. -/
def sampleData (p : Pbuf) (bw : Nat) : NetInput :=
  .udp { sampleReqEnv [] with lib := Env.ok bw } p 1 2 49153

/-- A three-byte block reaches the first of two connections. -/
theorem transfers_isolated_sample :
    (run (Net.step inARow) Net.init [sampleWrq 1 2, sampleWrq 3 4]).route 1 2 49153
        = some (.conn 0) ∧
      StepsMeet (Net.step inARow) (Isolated inARow) Net.init
        [sampleWrq 1 2, sampleWrq 3 4, sampleData (dataPbuf 1 [7, 8, 9] (by decide)) 3] := by
  refine ⟨rfl, transfers_isolated inARow _ ?_ ?_ ?_⟩
  · simp [sampleWrq, sampleData, NetInput.FromHost]
  · simp [sampleWrq, sampleData, NetInput.ReadsOk, sampleReqEnv, Env.ok]
  · have hrq : ∀ c : Conn, Accepts c (sampleRq tftpWrq) →
        FitsData (sampleRq tftpWrq) :=
      fun _ _ => by decide
    exact ⟨fun _ c _ _ => hrq c, fun _ c _ _ => hrq c, fun _ _ _ _ _ => by decide, trivial⟩

/-- Block 1 with 1400 bytes of data. -/
def wideBlock : Pbuf :=
  Pbuf.ofBytes (Packet.data 1 (List.replicate 1400 7)).encode (by
    rw [Packet.encode, List.length_append, List.length_append, List.length_replicate]
    decide)

theorem wideBlock_opcode : wideBlock.u16 0 = tftpData :=
  Pbuf.u16_of_drop (storeU16 (ppHtons 1) ++ List.replicate 1400 7)
    (by simp [-List.reduceReplicate, wideBlock, Pbuf.ofBytes, Packet.encode])

theorem wideBlock_blknum : wideBlock.u16 1 = 1 :=
  Pbuf.u16_of_drop (List.replicate 1400 7)
    (by simp [-List.reduceReplicate, wideBlock, Pbuf.ofBytes, Packet.encode, storeU16])

theorem copied_wideBlock : Conn.copied wideBlock = List.replicate 1400 7 := by
  rw [Conn.copied_eq, dataBlock, wideBlock, Pbuf.payload_ofBytes]
  rfl

/-- Two uploads, and a first block of 1400 bytes for the first of them: 888 bytes
    are stored behind its buffer, the last 232 of them into the buffer of the
    second connection. -/
theorem wide_block_hits_neighbour :
    ∃ c₀ c₁ c₁', (run (Net.step inARow) Net.init [sampleWrq 1 2, sampleWrq 3 4]).conns = [c₀, c₁] ∧
      (run (Net.step inARow) Net.init
        [sampleWrq 1 2, sampleWrq 3 4, sampleData wideBlock 1400]).conns[1]? = some c₁' ∧
      c₁.arg.data.cell 0 = 0 ∧ c₁'.arg.data.cell 0 = 7 ∧
      ¬ StepsMeet (Net.step inARow) (Isolated inARow) Net.init
        [sampleWrq 1 2, sampleWrq 3 4, sampleData wideBlock 1400] := by
  obtain ⟨s, hrun, c₀, c₁, hconns, hroute, hlive, hpeer, hop, hblk, hbefore⟩ :
      ∃ s, run (Net.step inARow) Net.init [sampleWrq 1 2, sampleWrq 3 4] = s ∧
        ∃ c₀ c₁, s.conns = [c₀, c₁] ∧ s.route 1 2 49153 = some (.conn 0) ∧
          c₀.pcbLive = true ∧ c₀.FromPeer 1 2 ∧ c₀.arg.op = tftpWrq ∧ c₀.arg.blknum = 0 ∧
          c₁.arg.data.cell 0 = 0 :=
    ⟨_, rfl, _, _, rfl, rfl, rfl, ⟨rfl, rfl⟩, rfl, rfl, rfl⟩
  have hacc : Accepts c₀ wideBlock := by
    refine ⟨wideBlock_opcode, ?_, ?_⟩
    · rw [hop]
      exact tftpRrq_ne_wrq.symm
    · rw [wideBlock_blknum, hblk]
      rfl
  have hexcess : c₀.excess (.datagram (Env.ok 1400) wideBlock 1 2) = List.replicate 888 7 := by
    rw [Conn.excess, if_pos ⟨hlive, hpeer, hacc⟩, copied_wideBlock, List.drop_replicate]
    rfl
  have hthird : (s.step inARow (sampleData wideBlock 1400)).conns[1]?
      = some (c₁.overwritten inARow 0 1 (List.replicate 888 7)) := by
    have hk : (s.searched 1 2 49153).conns[0]? = some c₀ := by
      change s.conns[0]? = some c₀
      rw [hconns]
      rfl
    simp only [Net.step, sampleData, hroute]
    rw [deliver_other hk (by decide), hexcess]
    change (s.conns[1]?).map _ = _
    rw [hconns]
    rfl
  have hafter : (c₁.overwritten inARow 0 1 (List.replicate 888 7)).arg.data.cell 0 = 7 := by
    have hreaches : 0 < 1 ∧ 1168 * (1 - 0) - 544 < (List.replicate 888 (7 : UInt8)).length := by
      rw [List.length_replicate]
      decide
    simp only [Conn.overwritten, inARow, if_pos hreaches, ConnArgs.patched,
      ConnArgs.spilled_data, List.drop_replicate]
    rw [CBuffer.cell_memcpy_zero _ (by rw [List.length_replicate]; decide)
      (by rw [List.length_replicate]; decide), List.getElem_replicate]
  refine ⟨c₀, c₁, _, by rw [hrun, hconns], ?_, hbefore, hafter, ?_⟩
  · rw [← hthird, ← hrun]
    rfl
  · rintro ⟨-, -, hthird', -⟩
    have hlast : Isolated inARow s (sampleData wideBlock 1400) := by
      rw [← hrun]
      exact hthird'
    obtain ⟨-, -, -, -, -, -, hother⟩ := hlast 0 hroute
    have hsame := hother 1 (by decide)
    rw [show NetInput.udp _ wideBlock 1 2 49153 = sampleData wideBlock 1400 from rfl, hthird,
      hconns] at hsame
    have hdata := congrArg (fun c => c.arg.data.cell 0) (Option.some.inj hsame)
    rw [hafter] at hdata
    exact absurd (hdata.trans hbefore) (by decide)

end McuFirmware.Tftp
