/-
  McuFirmware.Sniffer.Client

  The TCP client of `tcp_sniffer.c` with its connections.

  `tcp_sniffer_init` opens a connection; it is called once at start and again
  by the receive callback when the peer closes and by the error callback when
  the stack drops a pcb.  A pcb handed to `tcp_close` keeps its error callback
  while it waits in a closing state, so the two can both reconnect for one
  connection.
-/

import McuFirmware.Sniffer.Recv

namespace McuFirmware.Sniffer

open McuFirmware.Lib McuFirmware.Mcu

/-- A pcb created by `tcp_sniffer_init`. -/
inductive PcbState where
  /-- `tcp_connect` failed: nothing will happen on it -/
  | idle
  | connecting
  | established
  /-- handed to `tcp_close`, waiting in `LAST_ACK` -/
  | closing
  /-- dropped by the stack -/
  | gone
deriving DecidableEq, Repr

/-- Connecting or established. -/
def PcbState.isLive : PcbState → Bool
  | .connecting => true
  | .established => true
  | _ => false

/-- Outcomes of `tcp_new` and `tcp_connect`. -/
inductive ConnectOutcome where
  | noPcb
  | failed
  | connecting
deriving DecidableEq, Repr

/-- What the stack reports, with the outcome of a `tcp_sniffer_init` it causes. -/
inductive Input where
  /-- the connection was established -/
  | connected (k : Nat)
  /-- data arrived -/
  | segment (k : Nat) (p : List UInt8)
  /-- the peer closed: the receive callback with `p == NULL` -/
  | peerClose (k : Nat) (o : ConnectOutcome)
  /-- reset, abort or timeout: the error callback -/
  | error (k : Nat) (o : ConnectOutcome)
  /-- the last ACK of a closed pcb arrived: no callback -/
  | closed (k : Nat)

/-- The client: the states of its pcbs in the order of their creation, and the
    receiving side they share. -/
structure Client where
  pcbs : List PcbState
  /-- `none` once the receive buffer was overrun -/
  link : Option Link
  rlen : UInt16

namespace Client

/-- `tcp_sniffer_init`: its result is not checked, and of the receivers only
    `rlen` is reset.  `tcp_connect` and `tcp_err` return at once when `tcp_new`
    gave `NULL`: nothing is opened, and the client goes on. -/
def tcpSnifferInit (c : Client) : ConnectOutcome → Client
  | .noPcb => { c with rlen := 0 }
  | .failed => { c with pcbs := c.pcbs ++ [.idle], rlen := 0 }
  | .connecting => { c with pcbs := c.pcbs ++ [.connecting], rlen := 0 }

/-- `tcp_sniffer_err`. -/
def tcpSnifferErr (c : Client) (o : ConnectOutcome) : Client := c.tcpSnifferInit o

/-- `tcp_sniffer_recv` with `p == NULL`. -/
def tcpSnifferRecvNull (c : Client) (k : Nat) (o : ConnectOutcome) : Client :=
  { c with pcbs := c.pcbs.set k .closing }.tcpSnifferInit o

/-- One report of the stack.  A report that cannot occur in the state of the pcb
    changes nothing. -/
def step (c : Client) (i : Input) : Client :=
  match i with
  | .connected k =>
      if c.pcbs[k]? = some .connecting then { c with pcbs := c.pcbs.set k .established } else c
  | .segment k p =>
      if c.pcbs[k]? = some .established then { c with link := deliver c.link p } else c
  | .peerClose k o =>
      if c.pcbs[k]? = some .established then c.tcpSnifferRecvNull k o else c
  | .error k o =>
      if c.pcbs[k]? = some .connecting ∨ c.pcbs[k]? = some .established
          ∨ c.pcbs[k]? = some .closing then
        { c with pcbs := c.pcbs.set k .gone }.tcpSnifferErr o
      else c
  | .closed k =>
      if c.pcbs[k]? = some .closing then { c with pcbs := c.pcbs.set k .gone } else c

/-- The client after the `tcp_sniffer_init` of `main`. -/
def start (input : InputData) (o : ConnectOutcome) : Client :=
  tcpSnifferInit ⟨[], some ⟨Receiver.init, input, []⟩, 0⟩ o

/-- What a report can do. -/
inductive StepOutcome (c : Client) : Input → Client → Prop where
  | ignored (i : Input)
      (hlate : ∀ k o, i = .error k o → c.pcbs[k]? ≠ some .closing) :
      StepOutcome c i c
  | connected (k : Nat) (hpcb : c.pcbs[k]? = some .connecting) :
      StepOutcome c (.connected k) { c with pcbs := c.pcbs.set k .established }
  | segment (k : Nat) (p : List UInt8) (hpcb : c.pcbs[k]? = some .established) :
      StepOutcome c (.segment k p) { c with link := deliver c.link p }
  | peerClose (k : Nat) (o : ConnectOutcome) (hpcb : c.pcbs[k]? = some .established) :
      StepOutcome c (.peerClose k o) (c.tcpSnifferRecvNull k o)
  | error (k : Nat) (o : ConnectOutcome) (a : PcbState) (hpcb : c.pcbs[k]? = some a)
      (ha : a = .connecting ∨ a = .established ∨ a = .closing) :
      StepOutcome c (.error k o) ({ c with pcbs := c.pcbs.set k .gone }.tcpSnifferErr o)
  | closed (k : Nat) (hpcb : c.pcbs[k]? = some .closing) :
      StepOutcome c (.closed k) { c with pcbs := c.pcbs.set k .gone }

/-- **Inversion.** -/
theorem step_outcome (c : Client) (i : Input) : StepOutcome c i (c.step i) := by
  have hother {j : Input} (hne : ∀ k o, j ≠ .error k o) : StepOutcome c j c :=
    .ignored j fun k o heq => absurd heq (hne k o)
  unfold step
  cases i with
  | connected k =>
      by_cases hpcb : c.pcbs[k]? = some .connecting
      · simpa only [if_pos hpcb] using .connected k hpcb
      · simpa only [if_neg hpcb] using hother (by simp)
  | segment k p =>
      by_cases hpcb : c.pcbs[k]? = some .established
      · simpa only [if_pos hpcb] using .segment k p hpcb
      · simpa only [if_neg hpcb] using hother (by simp)
  | peerClose k o =>
      by_cases hpcb : c.pcbs[k]? = some .established
      · simpa only [if_pos hpcb] using .peerClose k o hpcb
      · simpa only [if_neg hpcb] using hother (by simp)
  | error k o =>
      by_cases hpcb : c.pcbs[k]? = some .connecting ∨ c.pcbs[k]? = some .established
          ∨ c.pcbs[k]? = some .closing
      · simp only [if_pos hpcb]
        rcases hpcb with hpcb | hpcb | hpcb
        · exact .error k o _ hpcb (.inl rfl)
        · exact .error k o _ hpcb (.inr (.inl rfl))
        · exact .error k o _ hpcb (.inr (.inr rfl))
      · simp only [if_neg hpcb]
        refine .ignored _ ?_
        intro k' o' heq hclosing
        obtain ⟨rfl, -⟩ := Input.error.inj heq
        exact hpcb (.inr (.inr hclosing))
  | closed k =>
      by_cases hpcb : c.pcbs[k]? = some .closing
      · simpa only [if_pos hpcb] using .closed k hpcb
      · simpa only [if_neg hpcb] using hother (by simp)

-- ============================================================================
-- The number of connections
-- ============================================================================

/-- The pcbs that are connecting or established. -/
def liveCount (c : Client) : Nat := c.pcbs.countP PcbState.isLive

/-- An error callback of a pcb that was closed before opens no connection beside
    a live one. -/
def NoLateReconnect (c : Client) : Input → Prop
  | .error k o => c.pcbs[k]? = some .closing → o = .connecting → c.liveCount = 0
  | _ => True

section Count

variable {c : Client} {k : Nat} {a b : PcbState}

/-- The live pcbs when one of them changes its state. -/
theorem countP_set_of_some {l : List PcbState} (b : PcbState) (h : l[k]? = some a) :
    (l.set k b).countP PcbState.isLive + a.isLive.toNat
      = l.countP PcbState.isLive + b.isLive.toNat := by
  obtain ⟨hk, hget⟩ := List.getElem?_eq_some_iff.mp h
  have hone : a.isLive.toNat ≤ l.countP PcbState.isLive := by
    cases hlive : a.isLive with
    | false => exact Nat.zero_le _
    | true => exact List.countP_pos_iff.mpr ⟨a, List.mem_of_getElem? h, hlive⟩
  have hif (x : Bool) : (if x = true then 1 else 0) = x.toNat := by cases x <;> rfl
  rw [List.countP_set hk, hget, hif, hif]
  omega

theorem liveCount_init (c : Client) (o : ConnectOutcome) :
    (c.tcpSnifferInit o).liveCount = c.liveCount + if o = .connecting then 1 else 0 := by
  cases o with
  | noPcb => rfl
  | failed | connecting => simp [tcpSnifferInit, liveCount, PcbState.isLive]

/-- **Step lemma.**  One step keeps at most one live pcb exactly when it is no
    late reconnect. -/
theorem liveCount_step_iff (h : c.liveCount ≤ 1) (i : Input) :
    (c.step i).liveCount ≤ 1 ↔ c.NoLateReconnect i := by
  have hstep := step_outcome c i
  generalize c.step i = c' at hstep ⊢
  cases hstep with
  | ignored _ hlate =>
      refine iff_of_true h ?_
      cases i with
      | error k o => exact fun hclosing => absurd hclosing (hlate k o rfl)
      | _ => trivial
  | connected k hpcb =>
      have hset : (c.pcbs.set k .established).countP PcbState.isLive + 1 = c.liveCount + 1 :=
        countP_set_of_some .established hpcb
      refine iff_of_true ?_ trivial
      change (c.pcbs.set k .established).countP PcbState.isLive ≤ 1
      omega
  | segment k p hpcb => exact iff_of_true h trivial
  | peerClose k o hpcb =>
      -- the closed pcb is replaced by at most one
      have hset : liveCount { c with pcbs := c.pcbs.set k .closing } + 1 = c.liveCount + 0 :=
        countP_set_of_some .closing hpcb
      refine iff_of_true ?_ trivial
      rw [tcpSnifferRecvNull, liveCount_init]
      split <;> omega
  | error k o a hpcb ha =>
      have hset : liveCount { c with pcbs := c.pcbs.set k .gone } + a.isLive.toNat
          = c.liveCount + 0 := countP_set_of_some .gone hpcb
      rw [tcpSnifferErr, liveCount_init]
      by_cases hclosing : a = .closing
      · -- a pcb that did not count is replaced
        subst hclosing
        change _ + 0 = _ at hset
        constructor
        · intro hle _ ho
          rw [if_pos ho] at hle
          omega
        · intro hlate
          split
          · next ho =>
              have hzero := hlate hpcb ho
              omega
          · omega
      · have hlive : a.isLive = true := by
          rcases ha with rfl | rfl | rfl
          · rfl
          · rfl
          · exact absurd rfl hclosing
        rw [hlive] at hset
        change _ + 1 = _ at hset
        refine iff_of_true ?_ ?_
        · split <;> omega
        · intro hpcb'
          exact absurd (Option.some.inj (hpcb.symm.trans hpcb')) hclosing
  | closed k hpcb =>
      have hset : (c.pcbs.set k .gone).countP PcbState.isLive + 0 = c.liveCount + 0 :=
        countP_set_of_some .gone hpcb
      refine iff_of_true ?_ trivial
      change (c.pcbs.set k .gone).countP PcbState.isLive ≤ 1
      omega

end Count

/-- **At most one connection.**  Over every run of the client, at most one pcb is
    connecting or established in every state exactly when no error callback of a
    pcb already closed opens a connection beside a live one. -/
theorem one_connection_iff (input : InputData) (o : ConnectOutcome) (is : List Input) :
    (∀ pre post, is = pre ++ post → (run step (start input o) pre).liveCount ≤ 1) ↔
      StepsMeet step NoLateReconnect (start input o) is := by
  have hstart : (start input o).liveCount ≤ 1 := by
    rw [start, liveCount_init]
    change 0 + _ ≤ 1
    split <;> omega
  exact always_iff_stepsMeet (P := fun c : Client => c.liveCount ≤ 1)
    (fun _ i h => liveCount_step_iff h i) hstart

/-- The peer closes, the client reconnects, and then the old pcb times out in
    `LAST_ACK`: two connections feed one receiver. -/
theorem two_connections :
    (run step (start ⟨0, 0⟩ .connecting)
      [.connected 0, .peerClose 0 .connecting, .connected 1, .error 0 .connecting]).pcbs
        = [.gone, .established, .connecting] ∧
    (run step (start ⟨0, 0⟩ .connecting)
      [.connected 0, .peerClose 0 .connecting, .connected 1, .error 0 .connecting]).liveCount
        = 2 := by
  exact ⟨rfl, rfl⟩

end Client

end McuFirmware.Sniffer
