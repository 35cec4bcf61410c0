/-
  McuFirmware.Enc28j60.Fifo

  The receive ring as a queue of frames.

  The chip stores each frame it accepts behind the last one, as a record that
  points to the place of the next; the driver follows these pointers.  `Fifo` is
  what the two are for: frames come out one by one in the order they came in.
  `Represents` ties the registers, the pointers and the memory to such a queue,
  each arrival and each `enc28j60PacketReceive` keeps it, and so every
  interleaving of them delivers what the queue does.
-/

import McuFirmware.Enc28j60.Receive

namespace McuFirmware.Enc28j60

open McuFirmware.Lib

-- ============================================================================
-- Frames and their arrival
-- ============================================================================

/-- A frame as the chip stores it: the data, the CRC, the status vector, and the
    unused cells the chip leaves behind it. -/
structure Frame where
  data : List UInt8
  crc : Vector UInt8 4
  statusLow : UInt8
  statusHigh : UInt8
  pad : Nat

namespace Frame

/-- The byte count of the header, the CRC included. -/
def count (f : Frame) : Nat := f.data.length + 4

/-- The cells taken in the ring. -/
def size (f : Frame) : Nat := 6 + f.count + f.pad

/-- A 16-bit number, low byte first. -/
def word16 (value : Nat) : List UInt8 := [UInt8.ofNat value, UInt8.ofNat (value / 256)]

/-- The bytes stored, with the address of the next frame in front. -/
def cells (f : Frame) (next : Nat) : List UInt8 :=
  word16 next ++ word16 f.count ++ [f.statusLow, f.statusHigh] ++ (f.data ++ f.crc.toList)

end Frame

namespace Chip

/-- The cells of the receive ring. -/
def ringLen (c : Chip) : Nat :=
  pair c.regs erxndl erxndh - pair c.regs erxstl erxsth + 1

/-- The cells of the ring that hold no unread frame, by the chip's own account:
    those from the write pointer up to `ERXRDPT`, or all if no frame is unread. -/
def free (c : Chip) : Nat :=
  if c.regs epktcnt = 0 then c.ringLen
  else (pair c.regs erxrdptl erxrdpth + c.ringLen - c.wrpt) % c.ringLen

/-- A frame is accepted with reception on, while it can be counted and fits. -/
def Accepts (c : Chip) (f : Frame) : Prop :=
  c.econ1 &&& econ1Rxen ≠ 0 ∧ c.regs epktcnt < 255 ∧ f.size ≤ c.free

instance (c : Chip) (f : Frame) : Decidable (c.Accepts f) :=
  inferInstanceAs (Decidable (_ ∧ _ ∧ _))

/-- Where the frame behind one stored at the write pointer will lie. -/
def behind (c : Chip) (f : Frame) : Nat := (afterRead c.regs)^[f.size] c.wrpt

/-- A frame arrives. -/
def arrive (c : Chip) (f : Frame) : Chip :=
  if c.Accepts f then
    { c with
      mem := writeFrom (afterRead c.regs) c.mem c.wrpt (f.cells (c.behind f))
      wrpt := c.behind f
      regs := Function.update c.regs epktcnt (c.regs epktcnt + 1) }
  else c

end Chip

-- ============================================================================
-- The queue
-- ============================================================================

/-- The frames read so far and those still to be read, in the order they came. -/
structure Fifo where
  consumed : List Frame
  unread : List Frame

inductive Event where
  | arrive (f : Frame)
  | receive (maxlen : UInt32)

/-- The length of the receive ring: `RXSTOP_INIT - RXSTART_INIT + 1`. -/
def ringSize : Nat := 0x19FF

/-- What a call delivers of a frame: the length, and the bytes stored with the
    closing zero.  A frame not received OK is dropped. -/
def Frame.delivered (f : Frame) (maxlen : UInt32) : Nat × List UInt8 :=
  if f.statusLow &&& 0x80 = 0 then (0, [])
  else
    let len := min (f.count - 4) (maxlen.toNat - 1)
    (len, f.data.take len ++ [0])

namespace Fifo

/-- The ring never holds more than it has cells, nor more than 255 frames. -/
def Accepts (q : Fifo) (f : Frame) : Prop :=
  q.unread.length < 255 ∧ totalSize Frame.size q.unread + f.size ≤ ringSize

instance (q : Fifo) (f : Frame) : Decidable (q.Accepts f) :=
  inferInstanceAs (Decidable (_ ∧ _))

/-- The place of the oldest unread frame, or of the next to come. -/
def start (q : Fifo) : Nat := totalSize Frame.size q.consumed % ringSize

def push (q : Fifo) (f : Frame) : Fifo :=
  if q.Accepts f then { q with unread := q.unread ++ [f] } else q

def pop (q : Fifo) : Fifo :=
  match q.unread with
  | [] => q
  | f :: rest => ⟨q.consumed ++ [f], rest⟩

/-- What a call returns and stores. -/
def front (q : Fifo) (maxlen : UInt32) : Nat × List UInt8 :=
  match q.unread with
  | [] => (0, [])
  | f :: _ => f.delivered maxlen

end Fifo

/-- The queue, and what has been delivered from it. -/
structure Spec where
  fifo : Fifo
  delivered : List (Nat × List UInt8)

def Spec.step (s : Spec) : Event → Spec
  | .arrive f => { s with fifo := s.fifo.push f }
  | .receive maxlen => ⟨s.fifo.pop, s.delivered ++ [s.fifo.front maxlen]⟩

/-- The driver with its chip, and what `enc28j60PacketReceive` has returned and
    stored. -/
structure Receiver where
  driver : Driver Chip
  delivered : List (Nat × List UInt8)

/-- The receiver after a call that ended so. -/
def Receiver.ofResult (delivered : List (Nat × List UInt8)) :
    EStateM.Result Unit (Driver Chip) (UInt32 × List UInt8) → Receiver
  | .ok result d => ⟨d, delivered ++ [(result.1.toNat, result.2)]⟩
  | .error _ d => ⟨d, delivered⟩

def Receiver.step (s : Receiver) : Event → Receiver
  | .arrive f => { s with driver := { s.driver with chip := s.driver.chip.arrive f } }
  | .receive maxlen =>
      Receiver.ofResult s.delivered ((enc28j60PacketReceive maxlen).run s.driver)

-- ============================================================================
-- The ring
-- ============================================================================

/-- The walk through the ring `enc28j60Init` sets up. -/
def ringNext (p : Nat) : Nat := if p = 0x19FE then 0 else (p + 1) % 0x2000

theorem ringNext_iterate {p : Nat} (hp : p < ringSize) (i : Nat) :
    ringNext^[i] p = (p + i) % ringSize := by
  unfold ringSize at *
  induction i with
  | zero => exact (Nat.mod_eq_of_lt hp).symm
  | succ i ih =>
      rw [Function.iterate_succ_apply', ih]
      unfold ringNext
      split <;> omega

theorem ringNext_distinct {p : Nat} (hp : p < ringSize) : DistinctFor ringNext p ringSize := by
  intro i hi j hj heq
  rw [ringNext_iterate hp, ringNext_iterate hp] at heq
  unfold ringSize at *
  omega

theorem Fifo.start_lt (q : Fifo) : q.start < ringSize :=
  Nat.mod_lt _ (by decide)

/-- The registers hold the bounds of the ring. -/
structure Chip.HasRing (c : Chip) : Prop where
  start : Chip.pair c.regs erxstl erxsth = 0
  stop : Chip.pair c.regs erxndl erxndh = 0x19FE

theorem Chip.HasRing.afterRead {c : Chip} (h : c.HasRing) : Chip.afterRead c.regs = ringNext := by
  funext p
  unfold Chip.afterRead ringNext
  rw [h.start, h.stop]

theorem Chip.HasRing.ringLen {c : Chip} (h : c.HasRing) : c.ringLen = ringSize := by
  unfold Chip.ringLen
  rw [h.start, h.stop]
  rfl

theorem Chip.pair_update_of_ne (regs : UInt8 → UInt8) {low high loc : UInt8} (value : UInt8)
    (h : low ≠ loc ∧ high ≠ loc) :
    Chip.pair (Function.update regs loc value) low high = Chip.pair regs low high := by
  unfold Chip.pair
  rw [Function.update_of_ne h.1, Function.update_of_ne h.2]

-- ============================================================================
-- The queue in the ring
-- ============================================================================

/-- A frame at `p`, pointing to the place behind it. -/
def frameCells (p : Nat) (f : Frame) : List UInt8 := f.cells (ringNext^[f.size] p)

/-- The chip and `NextPacketPtr` represent the queue. -/
structure Represents (c : Chip) (n : UInt32) (q : Fifo) : Prop where
  ring : c.HasRing
  rxen : c.econ1 &&& econ1Rxen ≠ 0
  ptr : n.toNat = q.start
  released : Chip.pair c.regs erxrdptl erxrdpth = q.start
  count : (c.regs epktcnt).toNat = q.unread.length
  wrpt : c.wrpt = (q.start + totalSize Frame.size q.unread) % ringSize
  fits : totalSize Frame.size q.unread ≤ ringSize
  queued : Queued ringNext frameCells Frame.size c.mem q.start q.unread

theorem Frame.length_cells (f : Frame) (next : Nat) : (f.cells next).length = 6 + f.count := by
  simp only [Frame.cells, Frame.word16, Frame.count, List.length_append, List.length_cons,
    List.length_nil, Vector.length_toList]

theorem frameCells_length_le (p : Nat) (f : Frame) : (frameCells p f).length ≤ f.size := by
  unfold frameCells Frame.size
  rw [Frame.length_cells]
  omega

theorem Frame.size_pos (f : Frame) : 0 < f.size := by
  unfold Frame.size
  omega

theorem totalSize_pos {fs : List Frame} (h : fs ≠ []) : 0 < totalSize Frame.size fs := by
  cases fs with
  | nil => exact absurd rfl h
  | cons f fs =>
      have := f.size_pos
      rw [totalSize_cons]
      omega

variable {c : Chip} {n : UInt32} {q : Fifo}

theorem Represents.pending_iff (h : Represents c n q) : c.regs epktcnt = 0 ↔ q.unread = [] := by
  rw [← UInt8.toNat_inj, h.count]
  exact List.length_eq_zero_iff

/-- The cells the chip counts as free are those without an unread frame. -/
theorem Represents.free (h : Represents c n q) :
    c.free = ringSize - totalSize Frame.size q.unread := by
  unfold Chip.free
  rw [h.ring.ringLen, h.released, h.wrpt]
  have hstart := q.start_lt
  have hfits := h.fits
  by_cases hempty : q.unread = []
  · rw [if_pos (h.pending_iff.mpr hempty), hempty]
    rfl
  · have hpos := totalSize_pos hempty
    rw [if_neg (mt h.pending_iff.mp hempty)]
    unfold ringSize at *
    omega

theorem Represents.accepts_iff (h : Represents c n q) (f : Frame) :
    c.Accepts f ↔ q.Accepts f := by
  unfold Chip.Accepts Fifo.Accepts
  rw [h.free, UInt8.lt_iff_toNat_lt, h.count]
  have hfits := h.fits
  have hpos := f.size_pos
  constructor
  · rintro ⟨_, hcount, hroom⟩
    exact ⟨hcount, by omega⟩
  · rintro ⟨hcount, hroom⟩
    exact ⟨h.rxen, hcount, by omega⟩

/-- An arrival is a push. -/
theorem Represents.arrive (h : Represents c n q) (f : Frame) :
    Represents (c.arrive f) n (q.push f) := by
  unfold Chip.arrive Fifo.push
  by_cases hacc : q.Accepts f
  · rw [if_pos ((h.accepts_iff f).mpr hacc), if_pos hacc]
    have hwrpt : c.wrpt = ringNext^[totalSize Frame.size q.unread] q.start := by
      rw [h.wrpt, ringNext_iterate q.start_lt]
    have hbehind : c.behind f = ringNext^[f.size] c.wrpt := by
      unfold Chip.behind
      rw [h.ring.afterRead]
    have hpair {low high : UInt8} (hne : low ≠ epktcnt ∧ high ≠ epktcnt) :=
      Chip.pair_update_of_ne c.regs (c.regs epktcnt + 1) hne
    refine ⟨⟨?_, ?_⟩, h.rxen, h.ptr, ?_, ?_, ?_, ?_, ?_⟩
    · exact (hpair (by decide)).trans h.ring.start
    · exact (hpair (by decide)).trans h.ring.stop
    · exact (hpair (by decide)).trans h.released
    · have hcount := h.count
      have hlt := hacc.1
      simp only [Function.update_self, List.length_append, List.length_singleton]
      rw [UInt8.toNat_add, hcount]
      change (q.unread.length + 1) % 256 = _
      omega
    · change c.behind f = _
      rw [hbehind, hwrpt, ← Function.iterate_add_apply, ringNext_iterate q.start_lt]
      change _ = (q.start + totalSize Frame.size (q.unread ++ [f])) % ringSize
      rw [totalSize_append, totalSize_cons, totalSize_nil, Nat.add_zero, Nat.add_comm f.size]
    · change totalSize Frame.size (q.unread ++ [f]) ≤ ringSize
      rw [totalSize_append, totalSize_cons, totalSize_nil, Nat.add_zero]
      exact hacc.2
    · have hpush := h.queued.push f frameCells_length_le
        ((ringNext_distinct q.start_lt).mono hacc.2)
      rw [← hwrpt] at hpush
      change Queued ringNext frameCells Frame.size
        (writeFrom (Chip.afterRead c.regs) c.mem c.wrpt (f.cells (c.behind f))) q.start
        (q.unread ++ [f])
      rw [h.ring.afterRead, hbehind]
      exact hpush
  · rw [if_neg (mt (h.accepts_iff f).mp hacc), if_neg hacc]
    exact h

-- ============================================================================
-- Reading the front of the queue
-- ============================================================================

theorem toNat_leWord_ofNat {value : Nat} (h : value < 65536) :
    (leWord (UInt8.ofNat value) (UInt8.ofNat (value / 256))).toNat = value := by
  rw [toNat_leWord, UInt8.toNat_ofNat', UInt8.toNat_ofNat']
  omega

/-- The header and the data of a frame that lies at `p`. -/
structure Frame.LiesAt (f : Frame) (mem : Nat → UInt8) (p : Nat) : Prop where
  next : (wordAt ringNext mem p).toNat = ringNext^[f.size] p
  count : (wordAt ringNext mem (ringNext^[2] p)).toNat = f.count
  status : wordAt ringNext mem (ringNext^[4] p) = leWord f.statusLow f.statusHigh
  data : ∀ len ≤ f.data.length, readFrom ringNext mem (ringNext^[6] p) len = f.data.take len

theorem Frame.liesAt_of_read {f : Frame} {mem : Nat → UInt8} {p : Nat} (hp : p < ringSize)
    (hcount : f.count < 65536)
    (h : readFrom ringNext mem p (frameCells p f).length = frameCells p f) : f.LiesAt mem p := by
  have hnext : ringNext^[f.size] p < 65536 := by
    rw [ringNext_iterate hp]
    exact Nat.lt_trans (Nat.mod_lt _ (by decide)) (by decide)
  unfold frameCells at h
  rw [Frame.length_cells, readFrom_add] at h
  obtain ⟨hhead, hdata⟩ := List.append_inj h (length_readFrom p 6)
  simp only [readFrom, Frame.word16, List.cons_append, List.nil_append, List.cons.injEq, and_true]
    at hhead
  obtain ⟨h0, h1, h2, h3, h4, h5⟩ := hhead
  refine ⟨?_, ?_, ?_, ?_⟩
  · unfold wordAt
    rw [h0, h1, toNat_leWord_ofNat hnext]
  · change (leWord (mem (ringNext (ringNext p))) (mem (ringNext (ringNext (ringNext p))))).toNat = _
    rw [h2, h3, toNat_leWord_ofNat hcount]
  · change leWord (mem (ringNext (ringNext (ringNext (ringNext p)))))
      (mem (ringNext (ringNext (ringNext (ringNext (ringNext p)))))) = _
    rw [h4, h5]
  · intro len hlen
    have hle : len ≤ f.count := by
      unfold Frame.count
      omega
    rw [← take_readFrom _ hle, hdata, List.take_append_of_le_length hlen]

/-- The received-OK bit is bit 7 of the first status byte. -/
theorem leWord_ok_bit (low high : UInt8) : leWord low high &&& 0x80 = 0 ↔ low &&& 0x80 = 0 := by
  have hsplit : leWord low high &&& (0x80 : UInt32) =
      (low.toUInt32 &&& (0x80 : UInt32)) ||| ((high.toUInt32 <<< 8) &&& (0x80 : UInt32)) := by
    rw [← UInt32.toBitVec_inj]
    exact BitVec.and_or_distrib_right
  have hhigh : (high.toUInt32 <<< 8) &&& 0x80 = 0 :=
    forall_uint8 (P := fun b => (b.toUInt32 <<< 8) &&& 0x80 = 0) (by decide +kernel) high
  have hlow : low.toUInt32 &&& 0x80 = 0 ↔ low &&& 0x80 = 0 :=
    forall_uint8 (P := fun b => b.toUInt32 &&& 0x80 = 0 ↔ b &&& 0x80 = 0) (by decide +kernel) low
  rw [hsplit, hhigh, UInt32.or_zero, hlow]

/-- What is copied of a frame that lies at `p` is what the queue delivers. -/
theorem Frame.LiesAt.copied {f : Frame} (hring : c.HasRing) {p : Nat} (h : f.LiesAt c.mem p)
    {maxlen : UInt32} (hmax : 1 ≤ maxlen) {result : UInt32 × List UInt8}
    (hresult : result = Enc28j60.copied c (ringNext^[6] p) (wordAt ringNext c.mem (ringNext^[2] p))
      (wordAt ringNext c.mem (ringNext^[4] p)) maxlen) :
    (result.1.toNat, result.2) = f.delivered maxlen := by
  have hcount : 4 ≤ wordAt ringNext c.mem (ringNext^[2] p) := by
    change 4 ≤ (wordAt ringNext c.mem (ringNext^[2] p)).toNat
    rw [h.count]
    exact Nat.le_add_left 4 _
  have hlen := toNat_copyLen hcount hmax
  rw [h.count] at hlen
  have hle : min (f.count - 4) (maxlen.toNat - 1) ≤ f.data.length := by
    unfold Frame.count
    omega
  rw [hresult]
  unfold Enc28j60.copied Frame.delivered
  rw [h.status, hring.afterRead]
  by_cases hok : f.statusLow &&& 0x80 = 0
  · rw [if_pos ((leWord_ok_bit _ _).mpr hok), if_pos hok]
    rfl
  · rw [if_neg (mt (leWord_ok_bit _ _).mp hok), if_neg hok]
    simp only [hlen]
    rw [h.data _ hle]

theorem Fifo.pop_eq {f : Frame} {rest : List Frame} (h : q.unread = f :: rest) :
    q.pop = ⟨q.consumed ++ [f], rest⟩ := by
  simp only [Fifo.pop, h]

/-- The place behind the oldest frame is where the next one lies. -/
theorem Fifo.start_pop {f : Frame} {rest : List Frame} (h : q.unread = f :: rest) :
    q.pop.start = ringNext^[f.size] q.start := by
  rw [ringNext_iterate q.start_lt, Fifo.pop_eq h]
  unfold Fifo.start
  rw [totalSize_append, totalSize_cons, totalSize_nil, Nat.add_zero, Nat.mod_add_mod]

/-- Releasing the oldest frame pops it. -/
theorem Represents.release {f : Frame} {rest : List Frame} (h : Represents c n q)
    (hunread : q.unread = f :: rest) {ptr : UInt32} (hptr : ptr.toNat = ringNext^[f.size] q.start)
    (p : Nat) : Represents ((c.readAt p).release ptr) ptr q.pop := by
  obtain ⟨x, hrelease⟩ := Chip.release_eq (c.readAt p) ptr
  have hstart := Fifo.start_pop hunread
  have hlt : ptr.toNat < 65536 := by
    rw [hptr, ← hstart]
    exact Nat.lt_trans q.pop.start_lt (by decide)
  have hpair {low high : UInt8} (hne : (low ≠ epktcnt ∧ high ≠ epktcnt) ∧
      (low ≠ econ2 ∧ high ≠ econ2)) :
      Chip.pair ((c.readAt p).release ptr).regs low high =
        Chip.pair (Chip.setPair (c.readAt p).regs erxrdptl erxrdpth ptr.toNat) low high := by
    rw [hrelease]
    exact (Chip.pair_update_of_ne _ _ hne.1).trans (Chip.pair_update_of_ne _ _ hne.2)
  have hcount : ((c.readAt p).release ptr).regs epktcnt = c.regs epktcnt - 1 := by
    rw [hrelease]
    simp only [Function.update_self]
    rfl
  have hunread' : q.pop.unread = rest := by rw [Fifo.pop_eq hunread]
  have hfits := h.fits
  have hlen := h.count
  have hqueued := h.queued
  have hwrpt := h.wrpt
  rw [hunread, totalSize_cons] at hfits hwrpt
  rw [hunread, List.length_cons] at hlen
  rw [hunread] at hqueued
  refine ⟨⟨?_, ?_⟩, ?_, ?_, ?_, ?_, ?_, ?_, ?_⟩
  · rw [hpair (by decide), Chip.pair_setPair_of_ne _ _ (by decide)]
    exact (Chip.pair_setPair_of_ne _ _ (by decide)).trans h.ring.start
  · rw [hpair (by decide), Chip.pair_setPair_of_ne _ _ (by decide)]
    exact (Chip.pair_setPair_of_ne _ _ (by decide)).trans h.ring.stop
  · rw [hrelease]
    exact h.rxen
  · rw [hptr, hstart]
  · rw [hpair (by decide), Chip.pair_setPair _ (by decide) hlt, hptr, hstart]
  · have hone : 1 ≤ c.regs epktcnt := by
      change 1 ≤ (c.regs epktcnt).toNat
      omega
    rw [hcount, hunread', UInt8.toNat_sub_of_le _ _ hone, hlen]
    rfl
  · rw [hstart, hunread', ringNext_iterate q.start_lt, Nat.mod_add_mod, Nat.add_assoc, ← hwrpt,
      hrelease]
    rfl
  · rw [hunread']
    omega
  · rw [hstart, hunread', hrelease]
    exact hqueued.2

/-- A call that finds a frame takes it from the front of the queue. -/
theorem Represents.receive {f : Frame} {rest : List Frame} (h : Represents c n q)
    (hunread : q.unread = f :: rest) {maxlen : UInt32} (hmax : 1 ≤ maxlen)
    {E : Driver Chip → Prop} :
    Triple (Driver.Shows c n) (enc28j60PacketReceive maxlen)
      (fun result d => (∃ c' n', d.Shows c' n' ∧ Represents c' n' q.pop) ∧
        (result.1.toNat, result.2) = f.delivered maxlen) E := by
  have hstart := q.start_lt
  have hfits := h.fits
  have hqueued := h.queued
  rw [hunread, totalSize_cons] at hfits
  rw [hunread] at hqueued
  have hcount : f.count < 65536 := by
    unfold Frame.size ringSize at hfits
    omega
  have hlies := Frame.liesAt_of_read hstart hcount hqueued.1
  have hpending : c.regs epktcnt ≠ 0 := by
    rw [Ne, h.pending_iff, hunread]
    exact List.cons_ne_nil f rest
  have hn : n.toNat < 65536 := by
    rw [h.ptr]
    exact Nat.lt_trans hstart (by decide)
  apply (packetReceive_shows maxlen hpending hn).post
  rintro result d ⟨⟨p, hd⟩, hresult⟩
  rw [h.ring.afterRead, h.ptr] at hd hresult
  exact ⟨⟨_, _, hd, h.release hunread hlies.next p⟩, hlies.copied h.ring hmax hresult⟩

/-- A call that finds no frame delivers nothing. -/
theorem Represents.receive_none (h : Represents c n q) (hunread : q.unread = []) (maxlen : UInt32)
    {E : Driver Chip → Prop} :
    Triple (Driver.Shows c n) (enc28j60PacketReceive maxlen)
      (fun result d => d.Shows c n ∧ result = (0, [])) E :=
  packetReceive_shows_none maxlen (h.pending_iff.mpr hunread)

-- ============================================================================
-- The ring after `enc28j60Init`
-- ============================================================================

/-- The ring is set up and empty. -/
structure Chip.Fresh (c : Chip) : Prop where
  ring : c.HasRing
  released : Chip.pair c.regs erxrdptl erxrdpth = 0
  count : c.regs epktcnt = 0
  wrpt : c.wrpt = 0

/-- The driver before reception is switched on. -/
def SetUp (d : Driver Chip) : Prop :=
  d.Synced ∧ d.chip.flat.Fresh ∧ d.nextPacketPtr = 0

/-- The registers of the ring, and those a write of which does more than store. -/
def ringRegs : List UInt8 :=
  [erxstl, erxsth, erxndl, erxndh, erxrdptl, erxrdpth, epktcnt, econ1, econ2]

theorem Chip.Fresh.store (h : c.Fresh) {loc : UInt8} (hloc : loc ∉ ringRegs) (data : UInt8) :
    (c.store loc data).Fresh := by
  simp only [ringRegs, List.mem_cons, List.not_mem_nil, or_false, not_or] at hloc
  obtain ⟨hstl, hsth, hndl, hndh, hrdl, hrdh, hcnt, hecon1, hecon2⟩ := hloc
  have hstore : c.store loc data = { c with regs := Function.update c.regs loc data } := by
    unfold Chip.store Chip.storeRegs
    rw [if_neg hecon1, if_neg (fun hst => hst.elim hstl hsth), if_neg (fun hdec => hecon2 hdec.1)]
  rw [hstore]
  refine ⟨⟨?_, ?_⟩, ?_, ?_, h.wrpt⟩
  · exact (Chip.pair_update_of_ne _ _ ⟨Ne.symm hstl, Ne.symm hsth⟩).trans h.ring.start
  · exact (Chip.pair_update_of_ne _ _ ⟨Ne.symm hndl, Ne.symm hndh⟩).trans h.ring.stop
  · exact (Chip.pair_update_of_ne _ _ ⟨Ne.symm hrdl, Ne.symm hrdh⟩).trans h.released
  · exact (Function.update_of_ne (Ne.symm hcnt) _ _).trans h.count

theorem setup_plain {address : UInt8} (h : address ∈ setupRegs) :
    Plain address ∧ named address ∉ ringRegs := by
  have hall := forall_uint8 (P := fun a => a ∈ setupRegs → named a ≠ econ1 ∧
    named a ∉ Chip.statusLocs ∧ Chip.answersLate (named a) = (a &&& 0x80 != 0) ∧
    named a ∉ ringRegs) (by decide +kernel) address h
  exact ⟨⟨hall.1, hall.2.1, hall.2.2.1⟩, hall.2.2.2⟩

theorem SetUp.shows {d : Driver Chip} (h : SetUp d) : d.Shows d.chip.flat 0 :=
  ⟨h.1, rfl, h.2.2⟩

theorem SetUp.of_shows {d : Driver Chip} (h : d.Shows c 0) (hc : c.Fresh) : SetUp d :=
  ⟨h.1, h.2.1 ▸ hc, h.2.2⟩

/-- The set-up of the MAC and the PHY leaves the ring alone. -/
theorem undisturbed_setUp : Undisturbed SetUp where
  read address := by
    apply Triple.choose
    intro d hd
    have hhas : Keeps (Driver.Has d.chip.flat 0) (enc28j60Read address) := read_has address
    refine ⟨_, ⟨hd.1.switchable address, hd.shows.2⟩, ((read_synced address).and hhas).post
      fun _ s h => SetUp.of_shows h hd.2.1⟩
  setBank address := by
    apply Triple.choose
    intro d hd
    exact ⟨_, hd.shows, (setBank_shows address).post
      fun _ s h => SetUp.of_shows ⟨h.1.1, h.2⟩ hd.2.1⟩
  write hmem data := by
    apply Triple.choose
    intro d hd
    refine ⟨_, hd.shows, (write_shows (ne_econ1_of_setup hmem) data).post ?_⟩
    exact fun _ s h => ⟨SetUp.of_shows h.1 (hd.2.1.store (setup_plain hmem).2 data), h.2⟩
  fieldSet hmem data := by
    apply Triple.choose
    rintro d ⟨hd, hreach⟩
    refine ⟨_, ⟨hd.shows, hreach⟩, (bitFieldSet_shows (ne_econ1_of_setup hmem)
      (setup_plain hmem).1 data).post ?_⟩
    exact fun _ s h => SetUp.of_shows h (hd.2.1.store (setup_plain hmem).2 _)

theorem initBuffers_setUp {E : Driver Chip → Prop} :
    Triple (fun d => d.Synced ∧ d.chip.regs epktcnt = 0) initBuffers (fun _ => SetUp) E := by
  apply Triple.choose
  rintro d ⟨hd, hcount⟩
  refine ⟨Driver.Shows d.chip.flat d.nextPacketPtr, ⟨hd, rfl, rfl⟩, ?_⟩
  unfold initBuffers
  refine Triple.bind (nextPacketPtr_shows rxstartInit) fun _ => ?_
  iterate 9 apply write_then_shows (by decide)
  apply (write_shows (by decide) _).post
  intro _ s h
  exact SetUp.of_shows h.1 ⟨⟨rfl, rfl⟩, rfl, hcount, rfl⟩

theorem initReset_epktcnt (polls : Nat) :
    Triple (fun _ => True) (initReset polls) (fun _ (d : Driver Chip) => d.chip.regs epktcnt = 0)
      (fun _ => True) := by
  unfold initReset
  refine Triple.bind Triple.trivial fun _ => ?_
  refine Triple.bind (Q := fun _ (d : Driver Chip) => d.chip.regs epktcnt = 0)
    (fun d _ => ?_) fun _ => ?_
  · exact Function.update_self epktcnt (0 : UInt8) d.chip.powerOn
  · apply Triple.choose
    intro d hd
    refine ⟨Driver.Has d.chip.flat d.nextPacketPtr, ⟨rfl, rfl⟩, ?_⟩
    apply (pollUntil_has _ _ _).ignore_stop.post
    intro _ s hs
    have hregs := congrArg Chip.regs hs.1
    exact (congrFun hregs epktcnt).trans hd

/-- Switching reception on, with the ring set up, leaves the empty queue. -/
theorem rxen_represents {d : Driver Chip} (hd : SetUp d) :
    Meets (fun _ d' => ∃ c n, d'.Shows c n ∧ Represents c n ⟨[], []⟩) (fun _ => True)
      ((enc28j60WriteOp .bitFieldSet econ1 econ1Rxen : Drive Chip Unit).run d) := by
  have hkeeps : Keeps Driver.Synced (enc28j60WriteOp .bitFieldSet econ1 econ1Rxen : Drive Chip _) :=
    econ1_set_keeps (by decide)
  have hon : ((d.chip.econ1 ||| econ1Rxen) &&& ~~~(3 : UInt8)) &&& econ1Rxen ≠ 0 :=
    forall_uint8 (P := fun b => ((b ||| econ1Rxen) &&& ~~~(3 : UInt8)) &&& econ1Rxen ≠ 0)
      (by decide +kernel) d.chip.econ1
  obtain ⟨hfresh, hptr⟩ := hd.2
  refine ⟨_, _, ⟨hkeeps d hd.1, rfl, rfl⟩, ?_⟩
  exact ⟨⟨hfresh.ring.start, hfresh.ring.stop⟩, hon, congrArg UInt32.toNat hptr, hfresh.released,
    congrArg UInt8.toNat hfresh.count, hfresh.wrpt, Nat.zero_le _, trivial⟩

theorem init_represents (polls : Nat) (macaddr : Vector UInt8 6) :
    Triple (fun d : Driver Chip => d.switching = false ∧ ∀ a ∈ d.accesses, a.Right)
      (enc28j60Init polls macaddr)
      (fun _ d => ∃ c n, d.Shows c n ∧ Represents c n ⟨[], []⟩) (fun _ => True) := by
  have hmac := undisturbed_setUp
  unfold enc28j60Init
  have hreset := ((initReset_synced (σ := Chip) polls).and (initReset_epktcnt polls)).ignore_stop
  refine Triple.bind (hreset.pre fun _ h => ⟨h, trivial⟩) fun _ => ?_
  refine Triple.bind initBuffers_setUp fun _ => ?_
  refine Triple.bind hmac.initFilter.ignore_stop fun _ => ?_
  refine Triple.bind hmac.initMac.ignore_stop fun _ => ?_
  refine Triple.bind (hmac.initMaadr macaddr).ignore_stop fun _ => ?_
  refine Triple.bind (hmac.phyWrite polls _ _).ignore_stop fun _ => ?_
  refine Triple.bind (hmac.phyWrite polls _ _).ignore_stop fun _ => ?_
  unfold initEnable
  refine Triple.bind (hmac.setBank _).ignore_stop fun _ => ?_
  refine Triple.bind ((hmac.fieldSet (by decide) _).pre
    fun d h => ⟨h, Driver.reaches_of_common (by decide) d⟩).ignore_stop fun _ => ?_
  exact fun d hd => rxen_represents hd

-- ============================================================================
-- Every interleaving of arrivals and calls
-- ============================================================================

theorem Chip.flat_arrive (c : Chip) (f : Frame) : (c.arrive f).flat = c.flat.arrive f := by
  have hbit : (c.econ1 &&& ~~~(3 : UInt8)) &&& econ1Rxen = c.econ1 &&& econ1Rxen :=
    forall_uint8 (P := fun b => (b &&& ~~~(3 : UInt8)) &&& econ1Rxen = b &&& econ1Rxen)
      (by decide +kernel) c.econ1
  have hacc : c.flat.Accepts f ↔ c.Accepts f := by
    unfold Chip.Accepts
    change (c.econ1 &&& ~~~(3 : UInt8)) &&& econ1Rxen ≠ 0 ∧ _ ↔ _
    rw [hbit]
    rfl
  unfold Chip.arrive
  by_cases h : c.Accepts f
  · rw [if_pos h, if_pos (hacc.mpr h)]
    rfl
  · rw [if_neg h, if_neg (mt hacc.mp h)]

theorem Driver.Synced.arrive {d : Driver Chip} (h : d.Synced) (f : Frame) :
    ({ d with chip := d.chip.arrive f } : Driver Chip).Synced := by
  refine ⟨h.settled, ?_, h.right⟩
  have hecon1 : (d.chip.arrive f).econ1 = d.chip.econ1 := by
    unfold Chip.arrive
    split
    · rfl
    · rfl
  change d.enc28j60Bank.toNat = 0x20 * ((d.chip.arrive f).econ1 &&& 3).toNat
  rw [hecon1]
  exact h.cached

/-- The driver and the queue have delivered the same, and the one represents the
    other. -/
def Tracks (s : Receiver) (t : Spec) : Prop :=
  s.delivered = t.delivered ∧ ∃ c n, s.driver.Shows c n ∧ Represents c n t.fifo

/-- Calls with `maxlen >= 1`. -/
def Event.Allowed : Event → Prop
  | .arrive _ => True
  | .receive maxlen => 1 ≤ maxlen

instance : DecidablePred Event.Allowed
  | .arrive _ => isTrue trivial
  | .receive maxlen => inferInstanceAs (Decidable (1 ≤ maxlen))

/-- The step lemma: an arrival is a push, a call is a pop. -/
theorem Tracks.step {s : Receiver} {t : Spec} (h : Tracks s t) {e : Event} (he : e.Allowed) :
    Tracks (s.step e) (t.step e) := by
  obtain ⟨hout, c, n, hshows, hrep⟩ := h
  cases e with
  | arrive f =>
      refine ⟨hout, c.arrive f, n, ⟨hshows.1.arrive f, ?_, hshows.2.2⟩, hrep.arrive f⟩
      rw [← hshows.2.1]
      exact Chip.flat_arrive s.driver.chip f
  | receive maxlen =>
      cases hunread : t.fifo.unread with
      | nil =>
          obtain ⟨result, d, hrun, hd, rfl⟩ := (hrep.receive_none hunread maxlen).returns hshows
          have hpop : t.fifo.pop = t.fifo := by simp only [Fifo.pop, hunread]
          have hfront : t.fifo.front maxlen = (0, []) := by simp only [Fifo.front, hunread]
          unfold Receiver.step Spec.step Tracks
          simp only [hrun, hpop, hfront, hout, Receiver.ofResult]
          exact ⟨rfl, c, n, hd, hrep⟩
      | cons f rest =>
          obtain ⟨result, d, hrun, ⟨c', n', hd, hrep'⟩, hresult⟩ :=
            (hrep.receive hunread he).returns hshows
          have hfront : t.fifo.front maxlen = f.delivered maxlen := by
            simp only [Fifo.front, hunread]
          unfold Receiver.step Spec.step Tracks
          simp only [hrun, hfront, hout, Receiver.ofResult, hresult]
          exact ⟨trivial, c', n', hd, hrep'⟩

theorem Session.returned_of_not_waiting {r : EStateM.Result Unit (Driver Chip) Unit}
    (h : (Session.ofResult r).waiting = false) : ∃ d, r = .ok () d := by
  cases r with
  | ok _ d => exact ⟨d, rfl⟩
  | error _ d => exact Bool.noConfusion h

/-- **The receive ring is a FIFO.**  After `enc28j60Init`, from any chip and any
    values of the static variables, every interleaving of arrivals and calls
    delivers what the queue delivers; `NextPacketPtr` and `ERXRDPT` are the place
    of the oldest unread frame, from where the unread frames lie one behind the
    other, and `EPKTCNT` is their number.  From any state of the chip, whatever
    headers its memory holds, a call returns and stores nothing behind the `maxlen`
    cells of its buffer. -/
theorem receive_ring_fifo {chip : Chip} {cache : UInt8} {ptr : UInt32} {polls : Nat}
    {macaddr : Vector UInt8 6} {d : Driver Chip}
    (hinit : (enc28j60Init polls macaddr).run ⟨chip, cache, ptr, false, []⟩ = .ok () d) :
    (∀ events : List Event, (∀ e ∈ events, e.Allowed) →
      let s := run Receiver.step ⟨d, []⟩ events
      let t := run Spec.step ⟨⟨[], []⟩, []⟩ events
      s.delivered = t.delivered ∧ s.driver.nextPacketPtr.toNat = t.fifo.start ∧
        Chip.pair s.driver.chip.regs erxrdptl erxrdpth = t.fifo.start ∧
        (s.driver.chip.regs epktcnt).toNat = t.fifo.unread.length ∧
        Queued ringNext frameCells Frame.size s.driver.chip.mem t.fifo.start t.fifo.unread) ∧
    ∀ maxlen : UInt32, 1 ≤ maxlen → ∀ d : Driver Chip, ∃ result d',
      (enc28j60PacketReceive maxlen).run d = .ok result d' ∧
        result.2.length ≤ maxlen.toNat := by
  constructor
  · intro events hallowed s t
    have hstart := init_represents polls macaddr (⟨chip, cache, ptr, false, []⟩ : Driver Chip)
      ⟨rfl, fun a ha => absurd ha List.not_mem_nil⟩
    rw [hinit] at hstart
    have h0 : Tracks ⟨d, []⟩ ⟨⟨[], []⟩, []⟩ := ⟨rfl, hstart⟩
    have htracks : Tracks s t := run_related (fun _ _ _ h => h.step) h0 hallowed
    obtain ⟨hout, c, n, ⟨_, rfl, rfl⟩, hrep⟩ := htracks
    exact ⟨hout, hrep.ptr, hrep.released, hrep.count, hrep.queued⟩
  · intro maxlen hmax d
    obtain ⟨result, d', hrun, hlen⟩ := (packetReceive_length hmax).returns (s := d) trivial
    exact ⟨result, d', hrun, hlen⟩

/-- The header of the second frame lies across the end of the ring. -/
theorem receive_ring_fifo_wraps :
    let first : Frame := ⟨[1, 2], #v[0, 0, 0, 0], 0x80, 0, 6640⟩
    let second : Frame := ⟨[5, 6, 7], #v[0, 0, 0, 0], 0x80, 0, 1⟩
    let events := [.arrive first, .receive 1500, .arrive second, .receive 3, .receive 3]
    ∃ d, (enc28j60Init 0 #v[2, 0, 0, 0, 0, 1]).run ⟨Chip.ready, 0x40, 9, false, []⟩ = .ok () d ∧
      (run Receiver.step ⟨d, []⟩ events).delivered =
        [(2, [1, 2, 0]), (2, [5, 6, 0]), (0, [])] ∧
      (run Receiver.step ⟨d, []⟩ events).driver.nextPacketPtr = 11 := by
  intro first second events
  have hdone : (Session.ofResult ((enc28j60Init 0 #v[2, 0, 0, 0, 0, 1]).run
      ⟨Chip.ready, 0x40, 9, false, []⟩)).waiting = false := by decide +kernel
  obtain ⟨d, hd⟩ := Session.returned_of_not_waiting hdone
  have hfifo := (receive_ring_fifo hd).1 events (by decide)
  refine ⟨d, hd, hfifo.1.trans (by decide), ?_⟩
  exact UInt32.toNat_inj.mp (hfifo.2.1.trans (by decide))

end McuFirmware.Enc28j60
