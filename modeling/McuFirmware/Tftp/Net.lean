/-
  McuFirmware.Tftp.Net

  The TFTP server behind lwIP's UDP demultiplexing.

  A `Net` is the list of connections together with the active list of UDP pcbs:
  the two listeners of the firmware (ports 69 and 10) and one pcb per live
  connection.  A datagram reaches the connection whose pcb `udp_input` chooses.
  The argument blocks lie in one heap, so bytes stored behind `parg->data` may,
  beyond the fields of the block itself, hit what belongs to another connection;
  where the blocks lie is a `Placement`.
  `Wired` ties the active list to the connections over every run.
-/

import McuFirmware.Lwip.Udp
import McuFirmware.Tftp.Server

namespace McuFirmware.Tftp

open McuFirmware.Lib McuFirmware.Lwip

/-- `MEMP_NUM_UDP_PCB`. -/
def mempNumUdpPcb : Nat := 8

/-- The receive callback of a pcb: `request_recv_callback`, `udp_trigger_callback`
    or `data_ack_recv_callback` of the `k`-th connection. -/
inductive Owner where
  | tftp
  | trigger
  | conn (k : Nat)
deriving DecidableEq

/-- The pcbs of `tftp_server_init` and `udp_trigger_init`, the later one first. -/
def listeners : List (ActivePcb Owner) := [⟨.trigger, 10, 0, 0, false⟩, ⟨.tftp, 69, 0, 0, false⟩]

/-- The connections, the list `udp_pcbs` and the counter `udp_port`. -/
structure Net where
  conns : List Conn
  pcbs : List (ActivePcb Owner)
  udpPort : UInt16

def Net.init : Net := ⟨[], listeners, portRangeStart⟩

-- ============================================================================
-- Blocks in the heap
-- ============================================================================

/-- Where the heap places the blocks of the connections: what bytes stored behind
    `parg->data` of connection `k` make of the argument block and the file object
    of connection `j`. -/
structure Placement where
  overwrite : (k j : Nat) → List UInt8 → ConnArgs × Fil → ConnArgs × Fil
  overwrite_nil : ∀ k j x, overwrite k j [] x = x

instance (c : Conn) (addr : UInt32) (port : UInt16) : Decidable (c.FromPeer addr port) :=
  inferInstanceAs (Decidable (_ ∧ _))

instance (c : Conn) (p : Pbuf) : Decidable (Accepts c p) := inferInstanceAs (Decidable (_ ∧ _ ∧ _))

/-- The bytes the step stores behind `parg->data`. -/
def Conn.excess (c : Conn) : Input → List UInt8
  | .datagram _ p addr port =>
      if c.pcbLive = true ∧ c.FromPeer addr port ∧ Accepts c p then
        (Conn.copied p).drop tftpDataLenMax
      else []
  | .tick _ => []

/-- Connection `j` after connection `k` stored `bytes` behind its `parg->data`. -/
def Conn.overwritten (H : Placement) (k j : Nat) (bytes : List UInt8) (c : Conn) : Conn :=
  { c with
    arg := (H.overwrite k j bytes (c.arg, c.fil)).1
    fil := (H.overwrite k j bytes (c.arg, c.fil)).2 }

-- ============================================================================
-- Steps
-- ============================================================================

/-- The pcb of a connection on the active list. -/
def Conn.active (c : Conn) (k : Nat) : ActivePcb Owner :=
  ⟨.conn k, c.pcb.localPort, c.pcb.remoteIp, c.pcb.remotePort, true⟩

/-- An input to the `k`-th connection; a close takes its pcb off the list. -/
def Net.deliver (H : Placement) (s : Net) (k : Nat) (i : Input) : Net :=
  match s.conns[k]? with
  | none => s
  | some c =>
      let c' := c.step i
      { s with
        conns := (s.conns.set k c').mapIdx fun j d =>
          if j = k then d else d.overwritten H k j (c.excess i)
        pcbs := if c'.pcbLive then s.pcbs else s.pcbs.filter (·.owner ≠ .conn k) }

/-- The request as `request_recv_callback` meets it: `udp_new` succeeds while a
    pcb is free, and `udp_connect` binds it to a new local port. -/
def Net.rq (s : Net) (e : ReqEnv) (p : Pbuf) (addr : UInt32) (src : UInt16) : Rq :=
  ⟨{ e with
      udpNew := decide (s.pcbs.length < mempNumUdpPcb)
      localPort := (udpNewPort (s.pcbs.map (·.localPort)) 16384 s.udpPort).1 },
    p, addr, src⟩

/-- A datagram on port 69. -/
def Net.request (s : Net) (e : ReqEnv) (p : Pbuf) (addr : UInt32) (src : UInt16) : Net :=
  match (s.rq e p addr src).conn with
  | none => s
  | some c =>
      { conns := s.conns ++ [c]
        pcbs := if c.pcbLive then c.active s.conns.length :: s.pcbs else s.pcbs
        -- `udp_connect` was reached if the connection is open, or was closed again
        udpPort :=
          if c.pcbLive ∨ 0 < c.closes then
            (udpNewPort (s.pcbs.map (·.localPort)) 16384 s.udpPort).2
          else s.udpPort }

inductive NetInput where
  /-- a datagram from `addr` and `src` for the port `dest` -/
  | udp (e : ReqEnv) (p : Pbuf) (addr : UInt32) (src dest : UInt16)
  /-- `tftp_server_tmr` for the `k`-th connection -/
  | tick (k : Nat) (e : Env)

/-- The callback `udp_input` calls. -/
def Net.route (s : Net) (addr : UInt32) (src dest : UInt16) : Option Owner :=
  (udpInput s.pcbs addr src dest).1.map (·.owner)

/-- The list as the search of `udp_input` leaves it. -/
def Net.searched (s : Net) (addr : UInt32) (src dest : UInt16) : Net :=
  { s with pcbs := (udpInput s.pcbs addr src dest).2 }

def Net.step (H : Placement) (s : Net) : NetInput → Net
  | .udp e p addr src dest =>
      match s.route addr src dest with
      | some .tftp => (s.searched addr src dest).request e p addr src
      | some (.conn k) => (s.searched addr src dest).deliver H k (.datagram e.lib p addr src)
      | some .trigger | none => s.searched addr src dest
  | .tick k e => s.deliver H k (.tick e)

-- ============================================================================
-- Connections are closed once
-- ============================================================================

/-- The connection is open, or nothing of it is held and it was closed at most
    once. -/
def Conn.ClosedOnce (c : Conn) : Prop := (c.Live ∧ c.closes = 0) ∨ (c.Dead ∧ c.closes ≤ 1)

/-- No `fop.read` of the step reports an error. -/
def Input.ReadsOk : Input → Prop
  | .datagram e _ _ _ => e.fRead = 0
  | .tick _ => True

namespace Conn

variable {c : Conn}

/-- A dead connection that was closed at most once. -/
theorem ClosedOnce.of_dead (h : c.ClosedOnce) (hdead : ¬ c.pcbLive = true) :
    c.Dead ∧ c.closes ≤ 1 := by
  rcases h with ⟨hlive, -⟩ | h
  · exact absurd hlive.pcb hdead
  · exact h

theorem ClosedOnce.of_live (h : c.ClosedOnce) (hpcb : c.pcbLive = true) : c.Live := by
  rcases h with ⟨hlive, -⟩ | ⟨hdead, -⟩
  · exact hlive
  · exact absurd hpcb hdead.pcb_not_live

theorem closedOnce_step (h : c.ClosedOnce) {i : Input} (hread : i.ReadsOk) :
    (c.step i).ClosedOnce := by
  rcases h with ⟨hlive, hcloses⟩ | ⟨hdead, hcloses⟩
  swap
  · rw [step_of_dead hdead]
    exact .inr ⟨hdead, hcloses⟩
  have hopen {a : ConnArgs} {f : Fil} {es : List Event} {fs : List Fault} :
      (c.after a f es fs).ClosedOnce := .inl ⟨live_after hlive, hcloses⟩
  have hclosed {a : ConnArgs} {f : Fil} {es : List Event} {fs : List Fault} :
      (c.after a f es fs).closed.ClosedOnce := by
    refine .inr ⟨closed_dead _, ?_⟩
    change c.closes + 1 ≤ 1
    omega
  refine step_cases (motive := ClosedOnce) hlive ?_ ?_
  · intro e p addr port c' heq hstep
    subst heq
    cases hstep with
    | request | dataRepeated | ackStale | unknown => exact hopen
    | foreign | error | dataOnRead | dataRefused | ackOnWrite => exact hclosed
    | dataWritten | ackAdvance =>
        split
        · exact hclosed
        · exact hopen
    | ackReadError _ _ _ _ hfail => exact absurd hread hfail
  · intro e c' _ hstep
    cases hstep with
    | quiet | resend => exact hopen
    | giveUp => exact hclosed

theorem closedOnce_request {r : Rq} (h : r.conn = some c) : c.ClosedOnce :=
  (clean_request h).status

end Conn

-- ============================================================================
-- The connections after a step
-- ============================================================================

section Deliver

variable {H : Placement} {s : Net} {k : Nat} {c : Conn} {i : Input}

theorem deliver_of_none (hk : s.conns[k]? = none) : s.deliver H k i = s := by
  rw [Net.deliver, hk]

theorem length_deliver (hk : s.conns[k]? = some c) :
    (s.deliver H k i).conns.length = s.conns.length := by
  rw [Net.deliver, hk]
  simp

/-- The connection the input goes to. -/
theorem deliver_same (hk : s.conns[k]? = some c) :
    (s.deliver H k i).conns[k]? = some (c.step i) := by
  have hlt : k < s.conns.length := (List.getElem?_eq_some_iff.mp hk).1
  rw [Net.deliver, hk]
  simp [hlt]

/-- Every other connection. -/
theorem deliver_other (hk : s.conns[k]? = some c) {j : Nat} (hj : j ≠ k) :
    (s.deliver H k i).conns[j]?
      = (s.conns[j]?).map fun d => d.overwritten H k j (c.excess i) := by
  rw [Net.deliver, hk]
  simp [List.getElem?_mapIdx, List.getElem?_set_ne (Ne.symm hj), hj]

theorem pcbs_deliver (hk : s.conns[k]? = some c) :
    (s.deliver H k i).pcbs
      = if (c.step i).pcbLive then s.pcbs else s.pcbs.filter (·.owner ≠ .conn k) := by
  rw [Net.deliver, hk]

section Collect

variable {β : Type _} {f : Nat → Conn → Option β}

/-- What connections hold that no overwritten block changes. -/
theorem bind_deliver_other (hover : ∀ j d bytes, f j (d.overwritten H k j bytes) = f j d)
    (hk : s.conns[k]? = some c) {j : Nat} (hj : j ≠ k) :
    ((s.deliver H k i).conns[j]?).bind (f j) = (s.conns[j]?).bind (f j) := by
  rw [deliver_other hk hj]
  cases s.conns[j]? with
  | none => rfl
  | some d => exact hover j d _

theorem collect_deliver_same (hover : ∀ j d bytes, f j (d.overwritten H k j bytes) = f j d)
    (hk : s.conns[k]? = some c) (hsame : f k (c.step i) = f k c) :
    collect f (s.deliver H k i).conns = collect f s.conns := by
  refine collect_congr (length_deliver hk) (fun j => ?_)
  by_cases hj : j = k
  · rw [hj, deliver_same hk, hk]
    exact hsame
  · exact bind_deliver_other hover hk hj

theorem collect_deliver_closed (hover : ∀ j d bytes, f j (d.overwritten H k j bytes) = f j d)
    (hk : s.conns[k]? = some c) (hgone : f k (c.step i) = none) {p : β → Bool}
    (hp : ∀ j c b, f j c = some b → (p b = true ↔ j ≠ k)) :
    collect f (s.deliver H k i).conns = (collect f s.conns).filter p := by
  refine collect_drop (length_deliver hk) ?_ (fun j hj => bind_deliver_other hover hk hj) hp
  rw [deliver_same hk]
  exact hgone

end Collect

/-- A property of single connections that the step and an overwritten block keep. -/
theorem deliver_forall {P : Conn → Prop} (hk : s.conns[k]? = some c) (h : ∀ d ∈ s.conns, P d)
    (hstep : P (c.step i)) (hover : ∀ j d, P d → P (d.overwritten H k j (c.excess i))) :
    ∀ d ∈ (s.deliver H k i).conns, P d := by
  intro d hd
  obtain ⟨j, hj⟩ := List.mem_iff_getElem?.mp hd
  by_cases hjk : j = k
  · rw [hjk, deliver_same hk] at hj
    rw [← Option.some.inj hj]
    exact hstep
  · rw [deliver_other hk hjk, Option.map_eq_some_iff] at hj
    obtain ⟨d₀, hd₀, rfl⟩ := hj
    exact hover j d₀ (h d₀ (List.mem_of_getElem? hd₀))

end Deliver

-- ============================================================================
-- The active list
-- ============================================================================

/-- The pcb of a live connection. -/
def activeOf (k : Nat) (c : Conn) : Option (ActivePcb Owner) :=
  if c.pcbLive then some (c.active k) else none

/-- The active list holds the two listeners and the pcbs of the live connections,
    each bound to a port of its own. -/
structure Wired (s : Net) : Prop where
  once : ∀ c ∈ s.conns, c.ClosedOnce
  pcbs : s.pcbs.Perm (collect activeOf s.conns ++ listeners)
  room : s.pcbs.length ≤ mempNumUdpPcb
  range : InPortRange s.udpPort
  ports : (s.pcbs.map (·.localPort)).Nodup

section Wired

variable {H : Placement} {s : Net}

theorem wired_init : Wired Net.init where
  once _ hc := absurd hc List.not_mem_nil
  pcbs := List.Perm.refl _
  room := by decide
  range := by
    rw [InPortRange]
    decide
  ports := by decide

theorem wired_searched (h : Wired s) (addr : UInt32) (src dest : UInt16) :
    Wired (s.searched addr src dest) := by
  have hperm : (s.searched addr src dest).pcbs.Perm s.pcbs := udpInput_perm s.pcbs
  exact ⟨h.once, hperm.trans h.pcbs, hperm.length_eq ▸ h.room, h.range,
    (hperm.map _).nodup_iff.mpr h.ports⟩

theorem closedOnce_overwritten (k j : Nat) (bytes : List UInt8) {c : Conn} (h : c.ClosedOnce) :
    (c.overwritten H k j bytes).ClosedOnce := by
  rcases h with ⟨hlive, hcloses⟩ | ⟨hdead, hcloses⟩
  · exact .inl ⟨⟨hlive.arg, hlive.fil, hlive.file, hlive.pcb, hlive.timer⟩, hcloses⟩
  · exact .inr ⟨⟨hdead.arg, hdead.fil, hdead.file, hdead.pcb, hdead.timer⟩, hcloses⟩

/-- A connection that stays live keeps its pcb. -/
theorem activeOf_step {c : Conn} (h : c.ClosedOnce) {i : Input} (k : Nat)
    (hlive : (c.step i).pcbLive = true) (hread : i.ReadsOk) :
    activeOf k (c.step i) = activeOf k c := by
  by_cases hpcb : c.pcbLive = true
  · have hkept := Conn.kept_step (h.of_live hpcb) i ((Conn.closedOnce_step h hread).of_live hlive)
    rw [activeOf, activeOf, if_pos hlive, if_pos hpcb, Conn.active, Conn.active, hkept.pcb]
  · rw [Conn.step_of_dead (h.of_dead hpcb).1] at hlive
    exact absurd hlive hpcb

theorem pcbs_perm_deliver (h : Wired s) {k : Nat} {c : Conn} {i : Input}
    (hk : s.conns[k]? = some c) (hread : i.ReadsOk) :
    (s.deliver H k i).pcbs.Perm (collect activeOf (s.deliver H k i).conns ++ listeners) := by
  have hover (j : Nat) (d : Conn) (bytes : List UInt8) :
      activeOf j (d.overwritten H k j bytes) = activeOf j d := rfl
  have honce := h.once c (List.mem_of_getElem? hk)
  rw [pcbs_deliver hk]
  by_cases hlive : (c.step i).pcbLive = true
  · rw [if_pos hlive, collect_deliver_same hover hk (activeOf_step honce k hlive hread)]
    exact h.pcbs
  · have howner (j : Nat) (d : Conn) (q : ActivePcb Owner) (hq : activeOf j d = some q) :
        decide (q.owner ≠ .conn k) = true ↔ j ≠ k := by
      rw [activeOf] at hq
      split at hq
      · rw [← Option.some.inj hq]
        simp [Conn.active]
      · exact nomatch hq
    have hlisten : listeners.filter (fun q => q.owner ≠ .conn k) = listeners := rfl
    rw [if_neg hlive, collect_deliver_closed hover hk (if_neg hlive) howner, ← hlisten,
      ← List.filter_append]
    exact h.pcbs.filter _

theorem wired_deliver (h : Wired s) (k : Nat) {i : Input} (hread : i.ReadsOk) :
    Wired (s.deliver H k i) := by
  cases hk : s.conns[k]? with
  | none =>
      rw [deliver_of_none hk]
      exact h
  | some c =>
      have hsub : (s.deliver H k i).pcbs.Sublist s.pcbs := by
        rw [pcbs_deliver hk]
        split
        · exact List.Sublist.refl _
        · exact List.filter_sublist
      refine ⟨?_, pcbs_perm_deliver h hk hread, hsub.length_le.trans h.room, ?_,
        (hsub.map _).nodup h.ports⟩
      · exact deliver_forall hk h.once
          (Conn.closedOnce_step (h.once c (List.mem_of_getElem? hk)) hread)
          (fun j _ hd => closedOnce_overwritten k j _ hd)
      · rw [Net.deliver, hk]
        exact h.range

/-- A request opens a connection only while a pcb is free. -/
theorem room_of_request {e : ReqEnv} {p : Pbuf} {addr : UInt32} {src : UInt16} {c : Conn}
    (hconn : (s.rq e p addr src).conn = some c) (hlive : c.pcbLive = true) :
    s.pcbs.length < mempNumUdpPcb := by
  obtain ⟨⟨_, hgranted⟩, -⟩ := succeeds_of_live hconn (request_peer hconn hlive).1
  exact of_decide_eq_true hgranted.udpNew

/-- The new pcb gets a local port that is not in use. -/
theorem port_of_request (h : Wired s) {e : ReqEnv} {p : Pbuf} {addr : UInt32} {src : UInt16}
    {c : Conn} (hconn : (s.rq e p addr src).conn = some c) (hlive : c.pcbLive = true) :
    c.pcb.localPort ∉ s.pcbs.map (·.localPort) := by
  have hroom := h.room
  have hfew : (s.pcbs.map (·.localPort)).length < 16384 := by
    rw [List.length_map]
    exact Nat.lt_of_le_of_lt hroom (by decide)
  rw [(request_peer hconn hlive).2.1]
  exact (udpNewPort_free h.range (Nat.le_refl _) hfew).1

theorem wired_request (h : Wired s) (e : ReqEnv) (p : Pbuf) (addr : UInt32) (src : UInt16) :
    Wired (s.request e p addr src) := by
  cases hconn : (s.rq e p addr src).conn with
  | none =>
      rw [Net.request, hconn]
      exact h
  | some c =>
      have honce : ∀ d ∈ s.conns ++ [c], d.ClosedOnce := by
        refine List.forall_mem_append.mpr ⟨h.once, ?_⟩
        intro d hd
        rw [List.mem_singleton.mp hd]
        exact Conn.closedOnce_request hconn
      have hrange : InPortRange (s.request e p addr src).udpPort := by
        rw [Net.request, hconn]
        dsimp only
        split
        · exact inPortRange_udpNewPort h.range
        · exact h.range
      rw [Net.request, hconn] at hrange ⊢
      by_cases hlive : c.pcbLive = true
      · have hnew : activeOf s.conns.length c = some (c.active s.conns.length) := if_pos hlive
        simp only [if_pos hlive] at hrange ⊢
        refine ⟨honce, ?_, room_of_request hconn hlive, hrange, ?_⟩
        · rw [collect_concat, hnew, List.append_assoc]
          exact (h.pcbs.cons _).trans List.perm_middle.symm
        · exact List.nodup_cons.mpr ⟨port_of_request h hconn hlive, h.ports⟩
      · have hnone : activeOf s.conns.length c = none := if_neg hlive
        simp only [if_neg hlive] at hrange ⊢
        refine ⟨honce, ?_, h.room, hrange, h.ports⟩
        rw [collect_concat, hnone, Option.toList_none, List.append_nil]
        exact h.pcbs

/-- No `fop.read` reports an error. -/
def NetInput.ReadsOk : NetInput → Prop
  | .udp e _ _ _ _ => e.lib.fRead = 0
  | .tick _ _ => True

/-- **Step lemma.** -/
theorem wired_step (h : Wired s) {x : NetInput} (hread : x.ReadsOk) : Wired (s.step H x) := by
  cases x with
  | tick k e => exact wired_deliver h k trivial
  | udp e p addr src dest =>
      have hsearched := wired_searched h addr src dest
      simp only [Net.step]
      split
      · exact wired_request hsearched e p addr src
      · exact wired_deliver hsearched _ hread
      · exact hsearched
      · exact hsearched

/-- The connection `udp_input` chooses is live, and its pcb, alone on its port,
    matches the datagram. -/
theorem wired_route (h : Wired s) {addr : UInt32} {src dest : UInt16} {k : Nat}
    (hroute : s.route addr src dest = some (.conn k)) :
    ∃ c, s.conns[k]? = some c ∧ c.Live ∧ (c.active k).FullMatch addr src ∧
      ∀ j d, s.conns[j]? = some d → d.pcbLive = true → d.pcb.localPort = dest → j = k := by
  obtain ⟨pcb, hfound, howner⟩ := Option.map_eq_some_iff.mp hroute
  obtain ⟨hin, hport, hmatch⟩ := udpInput_admits hfound
  have hmem : pcb ∈ collect activeOf s.conns := by
    rcases List.mem_append.mp (h.pcbs.mem_iff.mp hin) with hconn | hlisten
    · exact hconn
    · -- the listeners belong to no connection
      simp only [listeners, List.mem_cons, List.not_mem_nil, or_false] at hlisten
      rcases hlisten with rfl | rfl <;> exact nomatch howner
  obtain ⟨k', c, hk, hactive⟩ := mem_collect.mp hmem
  rw [activeOf] at hactive
  split at hactive
  case isFalse => exact nomatch hactive
  case isTrue hlive =>
    obtain rfl := Option.some.inj hactive
    obtain rfl : k' = k := Owner.conn.inj howner
    refine ⟨c, hk, (h.once c (List.mem_of_getElem? hk)).of_live hlive, ?_, ?_⟩
    · exact hmatch.resolve_right (fun hopen => nomatch hopen)
    · intro j d hj hd hsame
      have hother : d.active j ∈ s.pcbs := by
        refine h.pcbs.mem_iff.mpr (List.mem_append_left _ (mem_collect.mpr ⟨j, d, hj, ?_⟩))
        exact if_pos hd
      have heq := List.inj_on_of_nodup_map h.ports hother hin (hsame.trans hport.symm)
      exact Owner.conn.inj (congrArg ActivePcb.owner heq)

end Wired

end McuFirmware.Tftp
