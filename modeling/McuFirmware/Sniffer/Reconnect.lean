/-
  McuFirmware.Sniffer.Reconnect

  What an earlier connection leaves to the next one.

  `tcp_sniffer_init` does not touch the receiver of `MCU_ProcessRevcString`, so
  a new connection starts with the bytes its predecessor left.
  `reconnect_clean_iff` compares the decodings of one stream after two
  histories of the client.
-/

import Mathlib.Data.List.GetD
import Mathlib.Data.List.Infix
import McuFirmware.Sniffer.Client

namespace McuFirmware.Sniffer

open McuFirmware.Lib McuFirmware.Mcu

-- ============================================================================
-- Two receivers with the same bytes
-- ============================================================================

/-- The bytes known at the front of the buffer, `w` before, once `bs` is stored
    there. -/
def overlay (bs w : List UInt8) : List UInt8 := bs ++ w.drop bs.length

/-- Whatever a receiver that holds `bs` completes with `segs` is decoded from the
    bytes of this connection, of which `w` are at the front of the buffer.
    Nothing is asked once the buffer is overrun. -/
def OwnFrames : List UInt8 → List UInt8 → List (List UInt8) → Prop
  | _, _, [] => True
  | bs, w, p :: segs =>
      (bs ++ p.take pBufLen).length ≤ revcBufLen →
        (Completes (bs ++ p.take pBufLen) → Decided (overlay (bs ++ p.take pBufLen) w)) ∧
          OwnFrames (pendingOf (bs ++ p.take pBufLen)) (overlay (bs ++ p.take pBufLen) w) segs

instance decOwnFrames :
    (bs w : List UInt8) → (segs : List (List UInt8)) → Decidable (OwnFrames bs w segs)
  | _, _, [] => .isTrue trivial
  | bs, w, p :: segs =>
      have := decOwnFrames (pendingOf (bs ++ p.take pBufLen))
        (overlay (bs ++ p.take pBufLen) w) segs
      inferInstanceAs (Decidable (_ → _ ∧ _))

theorem OwnFrames.front {bs w : List UInt8} {segs front : List (List UInt8)}
    (h : OwnFrames bs w segs) (hfront : front <+: segs) : OwnFrames bs w front := by
  induction front generalizing bs w segs with
  | nil => trivial
  | cons p front ih =>
      obtain ⟨rest, rfl⟩ := hfront
      intro hfit
      obtain ⟨hdecided, hnext⟩ := h hfit
      exact ⟨hdecided, ih hnext (List.prefix_append front rest)⟩

/-- The events `segs` add to the history. -/
def addedEvents (s : Link) (segs : List (List UInt8)) : Option (List Event) :=
  (run deliver (some s) segs).map fun s' => s'.log.drop s.log.length

section Same

variable {s t s' t' : Link} {bs p : List UInt8}

/-- The events of one segment. -/
def segmentEvents (input : InputData) (len : Nat) (bs : List UInt8) (output : OutputData) :
    List Event :=
  .recved len :: if Completes bs then [.decoded output, .reply (mcuGetSendString input)] else []

/-- The events added after a first segment. -/
theorem addedEvents_cons (hholds : Holds s.recv bs)
    (hstep : tcpSnifferRecv s p = some s') (segs : List (List UInt8)) :
    addedEvents s (p :: segs)
      = (addedEvents s' segs).map
          (segmentEvents s.input p.length (bs ++ p.take pBufLen) s'.recv.output ++ ·) := by
  have hlog := (received_of_some hholds hstep).2.log
  have hrun : run deliver (some s) (p :: segs) = run deliver (some s') segs := by
    rw [run_cons, deliver, Option.bind_some, hstep]
  rw [addedEvents, addedEvents, hrun]
  cases hrest : run deliver (some s') segs with
  | none => rfl
  | some t =>
      obtain ⟨es, hes⟩ := run_log_grows hrest
      simp only [Option.map_some, Option.some.injEq]
      rw [hes, List.drop_left, hlog, List.append_assoc, List.drop_left]
      rfl

theorem addedEvents_overrun (hholds : Holds s.recv bs)
    (hover : revcBufLen < bs.length + (p.take pBufLen).length) (segs : List (List UInt8)) :
    addedEvents s (p :: segs) = none := by
  rw [addedEvents, run_cons, deliver, Option.bind_some, recv_overrun hholds hover,
    run_deliver_none]
  rfl

theorem addedEvents_single (hholds : Holds s.recv bs) (hstep : tcpSnifferRecv s p = some s') :
    addedEvents s [p]
      = some (segmentEvents s.input p.length (bs ++ p.take pBufLen) s'.recv.output) := by
  rw [addedEvents_cons hholds hstep]
  simp [addedEvents]

/-- The receiver holds `bs`, and its buffer starts with `w`. -/
structure Carries (s : Link) (bs w : List UInt8) : Prop where
  holds : Holds s.recv bs
  starts : w <+: s.recv.pBufRevc.cells

/-- A receiver at a frame boundary, before the connection has sent anything. -/
theorem carries_nil (h : s.recv.flagPosRecv = 0) : Carries s [] [] :=
  ⟨holds_nil h, List.nil_prefix⟩

/-- **Step lemma.** -/
theorem Carries.received {w : List UInt8} {len : Nat} (h : w <+: s.recv.pBufRevc.cells)
    (hrecv : Received s len bs s') : Carries s' (pendingOf bs) (overlay bs w) := by
  refine ⟨hrecv.processed.holds, ?_⟩
  rw [hrecv.processed.cells, overlay, List.prefix_append_right_inj]
  exact List.IsPrefix.drop h bs.length

/-- **Run lemma.**  Two receivers that hold the same bytes decode the same frames
    from segments that complete their own frames only, whatever else is in their
    buffers. -/
theorem addedEvents_congr {w : List UInt8} (segs : List (List UInt8)) (hs : Carries s bs w)
    (ht : Carries t bs w) (hinput : s.input = t.input) (hown : OwnFrames bs w segs) :
    addedEvents s segs = addedEvents t segs := by
  induction segs generalizing s t bs w with
  | nil => simp [addedEvents]
  | cons p segs ih =>
      by_cases hfit : bs.length + (p.take pBufLen).length ≤ revcBufLen
      · obtain ⟨hdecided, hrest⟩ := hown (by rw [List.length_append]; exact hfit)
        obtain ⟨s₁, hs₁, hsrecv⟩ := recv_fits hs.holds hfit
        obtain ⟨t₁, ht₁, htrecv⟩ := recv_fits ht.holds hfit
        have hsnext := Carries.received hs.starts hsrecv
        have htnext := Carries.received ht.starts htrecv
        have hnext := ih hsnext htnext (by rw [hsrecv.input, htrecv.input, hinput]) hrest
        rw [addedEvents_cons hs.holds hs₁, addedEvents_cons ht.holds ht₁, hnext, hinput]
        by_cases hcomp : Completes (bs ++ p.take pBufLen)
        · rw [hsrecv.processed.output, htrecv.processed.output, if_pos hcomp, if_pos hcomp,
            (hdecided hcomp).output_eq hsnext.starts htnext.starts]
        · simp only [segmentEvents, if_neg hcomp]
      · rw [addedEvents_overrun hs.holds (by omega), addedEvents_overrun ht.holds (by omega)]

/-- Behind the bytes `w` of this connection the fields of the last frame are all
    `d`. -/
def LeftBehind (d : UInt8) (s : Link) (w : List UInt8) : Prop :=
  ∀ i < 11, 4 ≤ i → w.length ≤ i → s.recv.pBufRevc.cells.getD i 0 = d

theorem LeftBehind.received {d : UInt8} {w : List UInt8} {len : Nat} (h : LeftBehind d s w)
    (hrecv : Received s len bs s') : LeftBehind d s' (overlay bs w) := by
  intro i hi hfour hle
  rw [overlay, List.length_append, List.length_drop] at hle
  have hback : bs.length + (i - bs.length) = i := by omega
  rw [← h i hi hfour (by omega), hrecv.processed.cells, List.getD_append_right _ _ _ _ (by omega),
    List.getD_eq_getElem?_getD, List.getElem?_drop, hback, ← List.getD_eq_getElem?_getD]

/-- **Run lemma.**  A receiver with zeros and one with ones behind the bytes of
    this connection show the same at every point only where each frame is decoded
    from these bytes. -/
theorem ownFrames_of_addedEvents_eq {w : List UInt8} (segs : List (List UInt8))
    (hs : Carries s bs w) (ht : Carries t bs w) (hzero : LeftBehind 0x30 s w)
    (hone : LeftBehind 0x31 t w)
    (hsame : ∀ front, front <+: segs → addedEvents s front = addedEvents t front) :
    OwnFrames bs w segs := by
  induction segs generalizing s t bs w with
  | nil => trivial
  | cons p segs ih =>
      intro hfit
      rw [List.length_append] at hfit
      obtain ⟨s₁, hs₁, hsrecv⟩ := recv_fits hs.holds hfit
      obtain ⟨t₁, ht₁, htrecv⟩ := recv_fits ht.holds hfit
      have hsnext := Carries.received hs.starts hsrecv
      have htnext := Carries.received ht.starts htrecv
      have hfirst := hsame [p] (List.prefix_append [p] segs)
      rw [addedEvents_single hs.holds hs₁, addedEvents_single ht.holds ht₁,
        Option.some.injEq] at hfirst
      constructor
      · intro hcomp
        have hout : s₁.recv.output = t₁.recv.output := by
          simp only [segmentEvents, if_pos hcomp] at hfirst
          injection hfirst with _ hfirst
          injection hfirst with hfirst _
          exact Event.decoded.inj hfirst
        rw [hsrecv.processed.output, htrecv.processed.output, if_pos hcomp, if_pos hcomp] at hout
        exact decided_of_output_eq hsnext.starts htnext.starts (hzero.received hsrecv)
          (hone.received htrecv) hout
      · refine ih hsnext htnext (hzero.received hsrecv) (hone.received htrecv) ?_
        intro front hfront
        have hmore := hsame (p :: front) (List.cons_prefix_cons.mpr ⟨rfl, hfront⟩)
        rw [addedEvents_cons hs.holds hs₁, addedEvents_cons ht.holds ht₁, hfirst] at hmore
        exact Option.map_injective (List.append_right_injective _) hmore

end Same

-- ============================================================================
-- Histories of the client
-- ============================================================================

/-- The client has run through `h` and opened a new connection, on which nothing
    has happened yet; `s` is the receiving side it left. -/
structure Reconnected (input : InputData) (h : List Input) (c : Client) (s : Link) : Prop where
  reached : run Client.step (Client.start input .connecting) h = c
  fresh : c.pcbs.getLast? = some .connecting
  link : c.link = some s

/-- The newest pcb. -/
def Client.newPcb (c : Client) : Nat := c.pcbs.length - 1

/-- What the client does while the newest connection is established and receives
    `segs`; nothing is known after an overrun. -/
def newEvents (c : Client) (segs : List (List UInt8)) : Option (List Event) :=
  c.link.bind fun s =>
    (run Client.step c (.connected c.newPcb :: segs.map (.segment c.newPcb))).link.map fun s' =>
      s'.log.drop s.log.length

/-- The receiving side belongs to `input` and holds some bytes. -/
def LinkOk (input : InputData) (c : Client) : Prop :=
  ∀ s, c.link = some s → s.input = input ∧ ∃ bs, Holds s.recv bs

section Histories

variable {input : InputData} {h : List Input} {c : Client} {s : Link}

theorem linkOk_init (hok : LinkOk input c) (o : ConnectOutcome) :
    LinkOk input (c.tcpSnifferInit o) := by
  cases o <;> exact hok

theorem linkOk_step (hok : LinkOk input c) (i : Input) : LinkOk input (c.step i) := by
  have hstep := Client.step_outcome c i
  generalize c.step i = c' at hstep ⊢
  cases hstep with
  | ignored | connected | closed => exact hok
  | peerClose k o | error k o => exact linkOk_init (by exact hok) o
  | segment k p =>
      intro t ht
      change deliver c.link p = some t at ht
      cases hlink : c.link with
      | none =>
          rw [hlink] at ht
          exact absurd ht (by simp [deliver])
      | some s =>
          rw [hlink, deliver, Option.bind_some] at ht
          obtain ⟨hinput, bs, hholds⟩ := hok s hlink
          have hrecv := (received_of_some hholds ht).2
          exact ⟨hrecv.input.trans hinput, _, hrecv.processed.holds⟩

theorem linkOk_run (input : InputData) (is : List Input) :
    LinkOk input (run Client.step (Client.start input .connecting) is) := by
  refine run_inv (C := fun _ _ => True) (I := LinkOk input) (fun c i hok _ => linkOk_step hok i) ?_
    (stepsMeet_of_forall (fun _ _ _ => trivial) _)
  intro s hs
  obtain rfl := Option.some.inj hs
  exact ⟨rfl, [], holds_nil rfl⟩

/-- The segments of an established connection reach the receiver. -/
theorem run_segments {k : Nat} (hpcb : c.pcbs[k]? = some .established)
    (segs : List (List UInt8)) :
    (run Client.step c (segs.map (.segment k))).link = run deliver c.link segs := by
  induction segs generalizing c with
  | nil => rfl
  | cons p segs ih =>
      have hstep : c.step (.segment k p) = { c with link := deliver c.link p } := by
        simp [Client.step, hpcb]
      rw [List.map_cons, run_cons, hstep]
      exact ih hpcb

theorem newEvents_eq (hr : Reconnected input h c s) (segs : List (List UInt8)) :
    newEvents c segs = addedEvents s segs := by
  have hpcb : c.pcbs[c.newPcb]? = some .connecting := by
    rw [Client.newPcb, ← List.getLast?_eq_getElem?]
    exact hr.fresh
  have hconn : c.step (.connected c.newPcb)
      = { c with pcbs := c.pcbs.set c.newPcb .established } := by
    simp [Client.step, hpcb]
  have hset : (c.pcbs.set c.newPcb .established)[c.newPcb]? = some .established := by
    rw [List.getElem?_set_self]
    exact (List.getElem?_eq_some_iff.mp hpcb).1
  have hlink := run_segments (c := { c with pcbs := c.pcbs.set c.newPcb .established })
    hset segs
  rw [newEvents, run_cons, hconn, hlink, hr.link]
  rfl

theorem Reconnected.linkOk (hr : Reconnected input h c s) :
    s.input = input ∧ ∃ bs, Holds s.recv bs := by
  have hok := linkOk_run input h
  rw [hr.reached] at hok
  exact hok s hr.link

/-- The history of a client that just started. -/
theorem reconnected_start (input : InputData) :
    Reconnected input [] (Client.start input .connecting) ⟨Receiver.init, input, []⟩ :=
  ⟨rfl, rfl, rfl⟩

end Histories

-- ============================================================================
-- A frame that shows what was left
-- ============================================================================

/-- A frame of eleven bytes with the given fields. -/
def frameOf (fields : List UInt8) : List UInt8 := [0x30, 0x30, 0x31, 0x31] ++ fields

/-- The frame with the mode digit `m`. -/
def probe (m : UInt8) : List UInt8 := frameOf [m, 0x30, 0x30, 0x30, 0x30, 0x30, 0x30]

section Probe

variable {s : Link} {bs fields : List UInt8} {m : UInt8}

theorem completes_frameOf (hlen : fields.length = 7) : Completes (frameOf fields) := by
  have hall : (frameOf fields).length = 11 := by rw [frameOf, List.length_append, hlen]; rfl
  have hsize : headerSize (frameOf fields) = headerSize [0x30, 0x30, 0x31, 0x31] :=
    headerSize_congr rfl
  rw [Completes, hall, hsize]
  decide

theorem frameOf_take (hlen : fields.length = 7) :
    (frameOf fields).take pBufLen = frameOf fields := by
  apply List.take_of_length_le
  rw [frameOf, List.length_append, hlen]
  decide

/-- A receiver at a frame boundary takes the frame as it is. -/
theorem recv_frameOf (hholds : Holds s.recv []) (hlen : fields.length = 7) :
    ∃ s', tcpSnifferRecv s (frameOf fields) = some s' ∧ Received s 11 (frameOf fields) s' := by
  have hall : (frameOf fields).length = 11 := by rw [frameOf, List.length_append, hlen]; rfl
  obtain ⟨s', hs', hrecv⟩ := recv_fits (p := frameOf fields) hholds (by
    rw [frameOf_take hlen, hall]
    decide)
  rw [frameOf_take hlen, List.nil_append, hall] at hrecv
  exact ⟨s', hs', hrecv⟩

theorem probe_own (m : UInt8) : OwnFrames [] [] [probe m] :=
  fun _ => ⟨fun _ => .inl (Nat.le_refl 11), trivial⟩

/-- The events of a decoded probe. -/
def probeEvents (input : InputData) (m : UInt8) : List Event :=
  [.recved 11, .decoded (mcuSetOutputData (probe m)), .reply (mcuGetSendString input)]

/-- A receiver at a frame boundary decodes it. -/
theorem probe_at_boundary (hholds : Holds s.recv []) (m : UInt8) :
    addedEvents s [probe m] = some (probeEvents s.input m) := by
  have hcomp : Completes (probe m) := completes_frameOf rfl
  have htake : (probe m).take pBufLen = probe m := frameOf_take rfl
  obtain ⟨s', hs', hrecv⟩ : ∃ s', tcpSnifferRecv s (probe m) = some s' ∧
      Received s 11 (probe m) s' := recv_frameOf hholds rfl
  rw [addedEvents_single hholds hs', htake, List.nil_append, segmentEvents, if_pos hcomp,
    hrecv.processed.output_full hcomp (Nat.le_refl 11)]
  rfl

/-- A receiver inside a frame takes another byte for the mode, the same one for
    every probe. -/
theorem probe_inside (hholds : Holds s.recv bs) (hne : bs ≠ [])
    (h : addedEvents s [probe m] = some (probeEvents s.input m)) :
    toChar (mcuAtoi [(bs ++ [0x30, 0x30, 0x31, 0x31]).getD 4 0, 0]) = toChar (mcuAtoi [m, 0]) := by
  have hpos : 0 < bs.length := List.length_pos_iff.mpr hne
  by_cases hfit : bs.length + ((probe m).take pBufLen).length ≤ revcBufLen
  swap
  · rw [addedEvents_overrun hholds (by omega)] at h
    exact absurd h (by simp)
  obtain ⟨s', hs', hrecv⟩ := recv_fits hholds hfit
  rw [addedEvents_single hholds hs', Option.some.injEq] at h
  have htake : (probe m).take pBufLen = probe m := frameOf_take rfl
  rw [htake] at h hrecv
  by_cases hcomp : Completes (bs ++ probe m)
  swap
  · rw [segmentEvents, if_neg hcomp] at h
    exact absurd (congrArg List.length h) (by simp [probeEvents])
  -- the decoded mode is byte 4 of what the receiver now holds
  rw [segmentEvents, if_pos hcomp] at h
  have hout : s'.recv.output = mcuSetOutputData (probe m) := by
    injection h with _ h
    injection h with h _
    exact Event.decoded.inj h
  have hcell : s'.recv.pBufRevc.cells.getD 4 0 = (bs ++ probe m).getD 4 0 := by
    have hstored := hrecv.processed.stored
    apply getD_of_take_eq (k := (bs ++ probe m).length)
    · rw [List.take_length]
      exact hstored
    · rw [List.length_append]
      change 4 < bs.length + 11
      omega
  have hbyte : (bs ++ probe m).getD 4 0 = (bs ++ [0x30, 0x30, 0x31, 0x31]).getD 4 0 := by
    rw [probe, frameOf, ← List.append_assoc, List.getD_append]
    rw [List.length_append]
    change 4 < bs.length + 4
    omega
  have hmode := congrArg OutputData.modeOfMC hout
  rw [hrecv.processed.output, if_pos hcomp] at hmode
  change toChar (mcuAtoi [s'.recv.pBufRevc.cells.getD 4 0, 0]) = toChar (mcuAtoi [m, 0]) at hmode
  rw [hcell, hbyte] at hmode
  exact hmode

end Probe

-- ============================================================================
-- Clean histories and clean segments
-- ============================================================================

section Clean

variable {input : InputData} {h₁ : List Input} {c₁ : Client} {s₁ : Link}

/-- After two histories that ended at a frame boundary, segments that complete
    their own frames only are decoded alike. -/
theorem newEvents_congr {h₂ : List Input} {c₂ : Client} {s₂ : Link}
    (hr₁ : Reconnected input h₁ c₁ s₁) (hr₂ : Reconnected input h₂ c₂ s₂)
    (hzero₁ : s₁.recv.flagPosRecv = 0) (hzero₂ : s₂.recv.flagPosRecv = 0)
    {segs : List (List UInt8)} (hown : OwnFrames [] [] segs) :
    newEvents c₁ segs = newEvents c₂ segs := by
  rw [newEvents_eq hr₁, newEvents_eq hr₂]
  exact addedEvents_congr segs (carries_nil hzero₁) (carries_nil hzero₂)
    (hr₁.linkOk.1.trans hr₂.linkOk.1.symm) hown

/-- A history that leaves the receiver inside a frame shows in a probe. -/
theorem boundary_of_probes (hr₁ : Reconnected input h₁ c₁ s₁)
    (hall : ∀ m, newEvents c₁ [probe m]
      = newEvents (Client.start input .connecting) [probe m]) : s₁.recv.flagPosRecv = 0 := by
  obtain ⟨hinput, bs, hholds⟩ := hr₁.linkOk
  by_contra hpos
  have hne : bs ≠ [] := by
    rintro rfl
    exact hpos hholds.position
  have hmode (m : UInt8) : addedEvents s₁ [probe m] = some (probeEvents s₁.input m) := by
    have hfresh : addedEvents ⟨Receiver.init, input, []⟩ [probe m] = some (probeEvents input m) :=
      probe_at_boundary (holds_nil rfl) m
    have hsame := hall m
    rw [newEvents_eq hr₁, newEvents_eq (reconnected_start input), hfresh] at hsame
    rw [hsame, hinput]
  have htwo := probe_inside hholds hne (hmode 0x32)
  have hthree := probe_inside hholds hne (hmode 0x33)
  exact absurd (htwo.symm.trans hthree) (by decide)

/-- A connection that received one frame whose fields are all `d`. -/
def filledBy (d : UInt8) : List Input :=
  [.connected 0, .segment 0 (frameOf (List.replicate 7 d)), .peerClose 0 .connecting]

theorem reconnected_filledBy (input : InputData) (d : UInt8) :
    ∃ c s, Reconnected input (filledBy d) c s ∧ s.recv.flagPosRecv = 0 ∧ LeftBehind d s [] := by
  have hlen : (List.replicate 7 d).length = 7 := List.length_replicate
  obtain ⟨s, hs, hrecv⟩ := recv_frameOf (s := ⟨Receiver.init, input, []⟩) (holds_nil rfl) hlen
  refine ⟨⟨[.closing, .connecting], some s, 0⟩, s, ⟨?_, rfl, rfl⟩, ?_, ?_⟩
  · simpa [filledBy, run_cons, Client.start, Client.step, Client.tcpSnifferInit,
      Client.tcpSnifferRecvNull, deliver] using hs
  · have hnext := hrecv.processed.holds
    rw [pendingOf_completes (completes_frameOf hlen)] at hnext
    exact hnext.position
  · intro i hi hfour _
    rw [hrecv.processed.cells, List.getD_append _ _ _ _ (by exact hi)]
    interval_cases i <;> rfl

end Clean

/-- **A clean receiver after a reconnect.**  What a new connection decodes is the
    same after a history as after every history that ended at a frame boundary,
    for all segments that complete their own frames only, exactly when the history
    itself ended at a frame boundary; and these are all the segments that are
    decoded alike, at every point, after any two histories that did. -/
theorem reconnect_clean_iff (input : InputData) :
    (∀ h₁ c₁ s₁, Reconnected input h₁ c₁ s₁ →
      ((∀ h₂ c₂ s₂, Reconnected input h₂ c₂ s₂ → s₂.recv.flagPosRecv = 0 →
          ∀ segs, OwnFrames [] [] segs → newEvents c₁ segs = newEvents c₂ segs) ↔
        s₁.recv.flagPosRecv = 0)) ∧
    (∀ segs,
      (∀ h₁ c₁ s₁ h₂ c₂ s₂, Reconnected input h₁ c₁ s₁ → Reconnected input h₂ c₂ s₂ →
          s₁.recv.flagPosRecv = 0 → s₂.recv.flagPosRecv = 0 →
          ∀ front, front <+: segs → newEvents c₁ front = newEvents c₂ front) ↔
        OwnFrames [] [] segs) := by
  refine ⟨?_, ?_⟩
  · intro h₁ c₁ s₁ hr₁
    constructor
    · intro hall
      apply boundary_of_probes hr₁
      intro m
      exact hall [] _ _ (reconnected_start input) rfl [probe m] (probe_own m)
    · intro hzero h₂ c₂ s₂ hr₂ hzero₂ segs hown
      exact newEvents_congr hr₁ hr₂ hzero hzero₂ hown
  · intro segs
    constructor
    · intro hall
      obtain ⟨c₁, s₁, hr₁, hzero₁, hleft₁⟩ := reconnected_filledBy input 0x30
      obtain ⟨c₂, s₂, hr₂, hzero₂, hleft₂⟩ := reconnected_filledBy input 0x31
      refine ownFrames_of_addedEvents_eq segs (carries_nil hzero₁) (carries_nil hzero₂) hleft₁
        hleft₂ ?_
      intro front hfront
      have hsame := hall _ _ _ _ _ _ hr₁ hr₂ hzero₁ hzero₂ front hfront
      rw [newEvents_eq hr₁, newEvents_eq hr₂] at hsame
      exact hsame
    · intro hown h₁ c₁ s₁ h₂ c₂ s₂ hr₁ hr₂ hzero₁ hzero₂ front hfront
      exact newEvents_congr hr₁ hr₂ hzero₁ hzero₂ (hown.front hfront)

/-- The peer closes after a whole frame while no pcb is free, and the client
    connects again when the old pcb times out: a frame and the short one behind it
    are decoded as on a fresh start. -/
theorem reconnect_clean_sample :
    newEvents (run Client.step (Client.start ⟨0, 0⟩ .connecting)
        [.connected 0, .segment 0 (probe 0x31), .peerClose 0 .noPcb, .error 0 .connecting])
        [probe 0x32, [0x30, 0x30, 0x30, 0x35, 0x33]]
      = newEvents (Client.start ⟨0, 0⟩ .connecting)
        [probe 0x32, [0x30, 0x30, 0x30, 0x35, 0x33]] := by
  have hr : Reconnected ⟨0, 0⟩
      [.connected 0, .segment 0 (probe 0x31), .peerClose 0 .noPcb, .error 0 .connecting] _ _ :=
    ⟨rfl, rfl, rfl⟩
  exact ((reconnect_clean_iff ⟨0, 0⟩).1 _ _ _ hr).mpr rfl [] _ _ (reconnected_start ⟨0, 0⟩) rfl _
    (by decide)

/-- A connection cut after three bytes of a header: the first frame of the next
    one is decoded with the mode 0 where a fresh start decodes 2. -/
theorem bytes_left_behind :
    newEvents (run Client.step (Client.start ⟨0, 0⟩ .connecting)
        [.connected 0, .segment 0 [0x30, 0x30, 0x31], .peerClose 0 .connecting]) [probe 0x32]
      ≠ newEvents (Client.start ⟨0, 0⟩ .connecting) [probe 0x32] := by
  decide

end McuFirmware.Sniffer
