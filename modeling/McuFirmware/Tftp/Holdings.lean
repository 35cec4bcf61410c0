/-
  McuFirmware.Tftp.Holdings

  What the server holds: the blocks of `mem_malloc`, the open files, the pcbs
  and the armed timers, each with the connection it was acquired for.

  A request acquires up to five of them one after the other and may fail at
  each.  The result of this module compares the whole ledger before and after
  `request_recv_callback`: it gains one complete connection or nothing.
-/

import McuFirmware.Tftp.Server

namespace McuFirmware.Tftp

open McuFirmware.Lib McuFirmware.Lwip

/-- Something the server holds for its `k`-th connection. -/
inductive Holding where
  /-- the `tftp_connection_args` block -/
  | argBlock (k : Nat)
  /-- the `FIL` block -/
  | filBlock (k : Nat)
  | openFile (k : Nat) (name : List UInt8)
  /-- a pcb, with the peer it is connected to -/
  | pcb (k : Nat) (remoteIp : UInt32) (remotePort : UInt16)
  /-- an armed `tftp_server_tmr` -/
  | timer (k : Nat)
deriving DecidableEq

/-- What the connection `c` at place `k` holds. -/
def Conn.holdings (k : Nat) (c : Conn) : List Holding :=
  (if c.argLive then [.argBlock k] else [])
    ++ (if c.filLive then [.filBlock k] else [])
    ++ (if c.fileOpen then [.openFile k c.fil.name] else [])
    ++ (if c.pcbLive then [.pcb k c.pcb.remoteIp c.pcb.remotePort] else [])
    ++ List.replicate c.timers (.timer k)

/-- What all connections of the server hold. -/
def holdings (l : List Conn) : List Holding :=
  l.zipIdx.flatMap fun ck => ck.1.holdings ck.2

theorem holdings_append (l : List Conn) (c : Conn) :
    holdings (l ++ [c]) = holdings l ++ c.holdings l.length := by
  simp [holdings, List.zipIdx_append]

/-- A live connection holds one of each. -/
theorem Conn.holdings_live {c : Conn} (h : c.Live) (k : Nat) :
    c.holdings k = [.argBlock k, .filBlock k, .openFile k c.fil.name,
      .pcb k c.pcb.remoteIp c.pcb.remotePort, .timer k] := by
  simp [Conn.holdings, h.arg, h.fil, h.file, h.pcb, h.timer]

theorem Conn.holdings_dead {c : Conn} (h : c.Dead) (k : Nat) : c.holdings k = [] := by
  simp [Conn.holdings, h.arg, h.fil, h.file, h.pcb, h.timer]

-- ============================================================================
-- The received pbuf
-- ============================================================================

/-- The event releases the received pbuf. -/
def Event.freesPbuf : Event → Bool
  | .pbufFree => true
  | _ => false

/-- What a request does at the listening pcb. -/
def Rq.events (r : Rq) : List Event :=
  (requestRecvCallback r.env r.p r.addr r.port).events

/-- How often the callback frees the pbuf it was given, at the listening pcb or
    through the new connection. -/
def Rq.frees (r : Rq) : Nat :=
  r.events.countP Event.freesPbuf + (r.conn.elim 0 fun c => c.log.countP Event.freesPbuf)

/-- Every exit of the callback frees the pbuf once. -/
theorem countP_events (r : Rq) : r.events.countP Event.freesPbuf = 1 := by
  -- an exit with an error reply, whether or not its pbuf could be allocated
  have hrefuse {alloc : Bool} {ip : UInt32} {port : UInt16} {pkt : Packet} :
      List.countP Event.freesPbuf
        (.recv r.p :: (if alloc = true then [.sent ip port pkt] else []) ++ [.pbufFree]) = 1 := by
    cases alloc <;> rfl
  have hite {b : Prop} [Decidable b] {s t : ReqOutcome}
      (hs : s.events.countP Event.freesPbuf = 1) (ht : t.events.countP Event.freesPbuf = 1) :
      (if b then s else t).events.countP Event.freesPbuf = 1 := by
    split
    · exact hs
    · exact ht
  unfold Rq.events requestRecvCallback
  refine hite hrefuse (hite hrefuse (hite hrefuse ?_))
  cases r.env.argMalloc with
  | none => exact hrefuse
  | some stale => exact hite hrefuse (hite hrefuse rfl)

theorem countP_sentIf (c : Conn) (alloc : Bool) (pkt : Packet) :
    (c.sentIf alloc pkt).countP Event.freesPbuf = 0 := by
  cases alloc <;> rfl

/-- The new connection has not freed a pbuf, and nothing of it was released
    twice or used after its release. -/
theorem request_conn_log {r : Rq} {c : Conn} (h : r.conn = some c) :
    c.log.countP Event.freesPbuf = 0 ∧ c.faults = [] := by
  have hstep := request_outcome r.env r.p r.addr r.port
  rw [show (requestRecvCallback r.env r.p r.addr r.port).conn = some c from h] at hstep
  cases hstep with
  | released _ _ _ hfaults hlog =>
      rw [hlog]
      exact ⟨rfl, hfaults⟩
  | write stale => exact ⟨countP_sentIf _ _ _, rfl⟩
  | read stale => exact ⟨countP_sentIf _ _ _, rfl⟩
  | readError stale => exact ⟨countP_sentIf _ _ _, rfl⟩

theorem frees_eq_one (r : Rq) : r.frees = 1 := by
  rw [Rq.frees, countP_events]
  cases hconn : r.conn with
  | none => rfl
  | some c =>
      rw [Option.elim_some, (request_conn_log hconn).1]

-- ============================================================================
-- All or nothing
-- ============================================================================

/-- What a request can leave: a cell with nothing held, or a live connection
    whose pcb is connected to the requester. -/
theorem request_conn_cases {r : Rq} {c : Conn} (h : r.conn = some c) :
    c.Dead ∨ (c.Live ∧ c.pcb.remoteIp = r.addr ∧ c.pcb.remotePort = r.port) := by
  rcases (clean_request h).settled with hlive | hdead
  · obtain ⟨-, hpcb, -⟩ := request_peer h hlive.pcb
    rw [hpcb]
    exact .inr ⟨hlive, rfl, rfl⟩
  · exact .inl hdead

/-- **A request is all or nothing.**  Whatever the library calls return, a
    request adds one live connection that holds an argument block, a `FIL` block,
    an open file, a pcb connected to the requester and an armed timer, or the
    ledger is what it was; the cell it may leave behind saw no double release.
    The connections that existed are unchanged and the received pbuf is freed
    once. -/
theorem request_all_or_nothing (l : List Conn) (r : Rq) :
    ((∃ c, serverStep l (.spawn r) = l ++ [c] ∧ c.Live ∧
        holdings (serverStep l (.spawn r)) = holdings l ++
          [.argBlock l.length, .filBlock l.length, .openFile l.length c.fil.name,
            .pcb l.length r.addr r.port, .timer l.length]) ∨
      holdings (serverStep l (.spawn r)) = holdings l) ∧
    (∀ c, r.conn = some c → c.faults = []) ∧
    (∀ j, j < l.length → (serverStep l (.spawn r))[j]? = l[j]?) ∧
    r.frees = 1 := by
  have hstep : serverStep l (.spawn r) = l ++ r.conn.toList := rfl
  refine ⟨?_, fun c hc => (request_conn_log hc).2, ?_, frees_eq_one r⟩
  · rw [hstep]
    cases hconn : r.conn with
    | none =>
        right
        rw [Option.toList_none, List.append_nil]
    | some c =>
        rw [Option.toList_some, holdings_append]
        rcases request_conn_cases hconn with hdead | ⟨hlive, hip, hport⟩
        · right
          rw [Conn.holdings_dead hdead, List.append_nil]
        · left
          refine ⟨c, rfl, hlive, ?_⟩
          rw [Conn.holdings_live hlive, hip, hport]
  · intro j hj
    rw [hstep]
    exact List.getElem?_append_left hj

end McuFirmware.Tftp
