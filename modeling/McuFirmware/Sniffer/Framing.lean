/-
  McuFirmware.Sniffer.Framing

  How the receiver depends on the cuts of the byte stream.

  A stream of well-formed frames arrives in segments.  `framing_iff` says for
  which frame and segment lengths every stream is decoded frame by frame: the
  rest of a segment behind a frame end is lost, and so is what came when
  exactly two bytes of a frame have arrived.  That no other cuts work is shown
  with frames filled with nines, where a reader that lost its place finds no
  header it could complete.
-/

import Mathlib.Data.List.GetD
import Mathlib.Data.List.SplitLengths
import McuFirmware.Lib.Cuts
import McuFirmware.Sniffer.Recv

namespace McuFirmware.Sniffer

open McuFirmware.Lib McuFirmware.Mcu

-- ============================================================================
-- Frames
-- ============================================================================

/-- A frame as the controller sends it: its header is its length. -/
structure McFrame where
  bytes : List UInt8
  formed : WellFormed bytes
  size : digitsValue [bytes.getD 0 0, bytes.getD 1 0, bytes.getD 2 0, bytes.getD 3 0]
    = bytes.length
  fits : bytes.length ≤ revcBufLen

/-- The bytes of consecutive frames. -/
def streamOf (frames : List McFrame) : List UInt8 := frames.flatMap McFrame.bytes

def frameLengths (frames : List McFrame) : List Nat := frames.map fun f => f.bytes.length

/-- What the client does for a frame. -/
def frameEvents (input : InputData) (f : McFrame) : List Event :=
  [.decoded (fieldValues f.bytes), .reply (mcuGetSendString input)]

/-- The decodings and replies of a history. -/
def shown (log : List Event) : List Event :=
  log.filter fun
    | .recved _ => false
    | _ => true

/-- Delivering `segs` decodes exactly `frames`, in order, with one reply each,
    and leaves the receiver at a frame boundary. -/
def DecodesAs (s : Link) (frames : List McFrame) (segs : List (List UInt8)) : Prop :=
  ∃ s', run deliver (some s) segs = some s' ∧ s'.recv.flagPosRecv = 0 ∧
    shown s'.log = shown s.log ++ frames.flatMap (frameEvents s.input)

namespace McFrame

theorem eleven_le (f : McFrame) : 11 ≤ f.bytes.length := by
  rw [← f.size]
  exact f.formed.size

theorem headerSize_eq (f : McFrame) : headerSize f.bytes = f.bytes.length := by
  rw [headerSize_digits f.formed.header, f.size]

/-- The beginning of a frame looks complete only when it is all of it. -/
theorem completes_take (f : McFrame) (k : Nat) :
    Completes (f.bytes.take k) ↔ f.bytes.length ≤ k := by
  have hlen := f.eleven_le
  have hsize := f.headerSize_eq
  constructor
  · rintro ⟨hfour, hle⟩
    rw [List.length_take] at hfour hle
    have hheader : headerSize (f.bytes.take k) = headerSize f.bytes := headerSize_take (by omega)
    omega
  · intro hle
    rw [List.take_of_length_le hle]
    exact ⟨by omega, by omega⟩

theorem isFrame (f : McFrame) : IsFrame f.bytes := ⟨f.formed, Nat.le_of_eq f.size⟩

end McFrame

-- ============================================================================
-- Cuts that work
-- ============================================================================

/-- The bytes held are a proper beginning of the next frame. -/
def InFrame (bs : List UInt8) : List McFrame → Prop
  | [] => bs = []
  | f :: _ => bs.length < f.bytes.length

section Forward

variable {s s' : Link} {bs p : List UInt8} {len : Nat}

theorem shown_append (l l' : List Event) : shown (l ++ l') = shown l ++ shown l' :=
  List.filter_append l l'

theorem Received.shown_waiting (h : Received s len bs s') (hcomp : ¬ Completes bs) :
    shown s'.log = shown s.log := by
  rw [h.log, if_neg hcomp, shown_append]
  simp [shown]

theorem Received.shown_completes (h : Received s len bs s') (hcomp : Completes bs) :
    shown s'.log
      = shown s.log ++ [.decoded s'.recv.output, .reply (mcuGetSendString s.input)] := by
  rw [h.log, if_pos hcomp, shown_append]
  simp [shown]

theorem inFrame_nil (frames : List McFrame) : InFrame [] frames := by
  cases frames with
  | nil => rfl
  | cons f frames =>
      have hlen := f.eleven_le
      change 0 < f.bytes.length
      omega

/-- What has arrived inside the first frame of the stream is its beginning. -/
theorem prefix_of_stream {f : McFrame} {rest tail : List UInt8}
    (h : bs ++ (p ++ tail) = f.bytes ++ rest) (hle : bs.length + p.length ≤ f.bytes.length) :
    bs ++ p = f.bytes.take (bs.length + p.length) ∧
      tail = f.bytes.drop (bs.length + p.length) ++ rest := by
  rw [← List.append_assoc] at h
  have hlen : (bs ++ p).length = bs.length + p.length := List.length_append
  constructor
  · have htake := congrArg (List.take (bs.length + p.length)) h
    rw [List.take_left' hlen, List.take_append_of_le_length hle] at htake
    exact htake
  · have hdrop := congrArg (List.drop (bs.length + p.length)) h
    rw [List.drop_left' hlen, List.drop_append_of_le_length hle] at hdrop
    exact hdrop

/-- **Step lemma.**  A segment that ends inside the frame begun is kept, unless
    this leaves two bytes. -/
theorem recv_inside {f : McFrame} (hholds : Holds s.recv bs)
    (hbegin : bs ++ p = f.bytes.take (bs.length + p.length))
    (hless : bs.length + p.length < f.bytes.length) (htwo : bs.length + p.length ≠ 2) :
    ∃ s', tcpSnifferRecv s p = some s' ∧ Holds s'.recv (bs ++ p) ∧ s'.input = s.input ∧
      shown s'.log = shown s.log := by
  have hmax := f.fits
  have htake : p.take pBufLen = p := List.take_of_length_le (by rw [pBufLen_eq]; omega)
  obtain ⟨s', hs', hrecv⟩ := recv_fits (p := p) hholds (by rw [htake]; omega)
  rw [htake] at hrecv
  have hwait : ¬ Completes (bs ++ p) := by
    rw [hbegin, f.completes_take]
    omega
  have hnext := hrecv.processed.holds
  rw [pendingOf_waiting hwait (by rw [List.length_append]; exact htwo)] at hnext
  exact ⟨s', hs', hnext, hrecv.input, hrecv.shown_waiting hwait⟩

/-- **Step lemma.**  A segment that ends with the frame begun has it decoded and
    answered. -/
theorem recv_end {f : McFrame} (hholds : Holds s.recv bs) (hwhole : bs ++ p = f.bytes) :
    ∃ s', tcpSnifferRecv s p = some s' ∧ Holds s'.recv [] ∧ s'.input = s.input ∧
      shown s'.log = shown s.log ++ frameEvents s.input f := by
  have hmax := f.fits
  have hlen : bs.length + p.length = f.bytes.length := by
    rw [← hwhole, List.length_append]
  have htake : p.take pBufLen = p := List.take_of_length_le (by rw [pBufLen_eq]; omega)
  obtain ⟨s', hs', hrecv⟩ := recv_fits (p := p) hholds (by rw [htake]; omega)
  rw [htake, hwhole] at hrecv
  have hcomp : Completes f.bytes := by
    have hall := (f.completes_take f.bytes.length).mpr (Nat.le_refl _)
    rwa [List.take_length] at hall
  have hnext := hrecv.processed.holds
  rw [pendingOf_completes hcomp] at hnext
  refine ⟨s', hs', hnext, hrecv.input, ?_⟩
  rw [hrecv.shown_completes hcomp, hrecv.processed.output_frame hcomp f.isFrame]
  rfl

theorem frameLengths_pos (frames : List McFrame) : ∀ n ∈ frameLengths frames, 0 < n := by
  intro n hn
  obtain ⟨f, -, rfl⟩ := List.mem_map.mp hn
  have hlen := f.eleven_le
  omega

theorem lengths_pos {segs : List (List UInt8)} (hne : ∀ p ∈ segs, p ≠ []) :
    ∀ m ∈ segs.map List.length, 0 < m := by
  intro m hm
  obtain ⟨p, hp, rfl⟩ := List.mem_map.mp hm
  exact List.length_pos_iff.mpr (hne p hp)

/-- **Run lemma.**  Segments that end at every frame end and never two bytes into
    a frame are decoded frame by frame.  The induction is on the segments; the
    bytes held are the beginning of the first remaining frame. -/
theorem decodesAs_of_respects (segs : List (List UInt8)) (hne : ∀ p ∈ segs, p ≠ [])
    (s : Link) (frames : List McFrame) (bs : List UInt8) (start : Nat) (hholds : Holds s.recv bs)
    (hin : InFrame bs frames) (hstream : bs ++ segs.flatten = streamOf frames)
    (hcuts : Respects 2 start (frameLengths frames) (start + bs.length) (segs.map List.length)) :
    DecodesAs s frames segs := by
  induction segs generalizing s frames bs start with
  | nil =>
      have hnil : frames = [] := by
        cases frames with
        | nil => rfl
        | cons f frames =>
            have hlen := congrArg List.length hstream
            simp only [List.flatten_nil, List.append_nil, streamOf, List.flatMap_cons,
              List.length_append] at hlen
            have hlt : bs.length < f.bytes.length := hin
            omega
      subst hnil
      obtain rfl : bs = [] := hin
      exact ⟨s, rfl, hholds.position, by simp⟩
  | cons p segs ih =>
      have hp : 0 < p.length := List.length_pos_iff.mpr (hne p List.mem_cons_self)
      have hne' : ∀ q ∈ segs, q ≠ [] := fun q hq => hne q (List.mem_cons_of_mem p hq)
      cases frames with
      | nil =>
          have hlen := congrArg List.length hstream
          simp only [List.flatten_cons, List.length_append, streamOf, List.flatMap_nil,
            List.length_nil] at hlen
          omega
      | cons f frames =>
          have hlt : bs.length < f.bytes.length := hin
          have heleven := f.eleven_le
          change Respects 2 start (f.bytes.length :: frameLengths frames) (start + bs.length)
            (p.length :: segs.map List.length) at hcuts
          rw [respects_cons_iff (by omega) (by omega) (by omega) (frameLengths_pos frames)
            (lengths_pos hne')] at hcuts
          obtain ⟨hle, htwo, hend, hinside⟩ := hcuts
          have hfit : bs.length + p.length ≤ f.bytes.length := by omega
          obtain ⟨hbegin, htail⟩ := prefix_of_stream (by simpa [streamOf] using hstream) hfit
          rcases Nat.lt_or_eq_of_le hfit with hless | heq
          · -- the segment ends inside the frame
            obtain ⟨s₁, hs₁, hnext, hinput, hshown⟩ :=
              recv_inside hholds hbegin hless (by omega)
            have hlen : (bs ++ p).length = bs.length + p.length := List.length_append
            obtain ⟨s', hs', hpos, hlog⟩ := ih hne' s₁ (f :: frames) (bs ++ p) start hnext
              (show (bs ++ p).length < f.bytes.length by omega)
              (by simpa using hstream)
              (by rw [hlen, ← Nat.add_assoc]; exact hinside (by omega))
            refine ⟨s', (run_deliver_cons hs₁ segs).trans hs', hpos, ?_⟩
            rw [hlog, hshown, hinput]
          · -- the segment ends with the frame
            rw [heq, List.take_length] at hbegin
            rw [heq, List.drop_length, List.nil_append] at htail
            obtain ⟨s₁, hs₁, hnext, hinput, hshown⟩ := recv_end hholds hbegin
            have hrest := hend (by omega)
            rw [Nat.add_assoc, heq] at hrest
            obtain ⟨s', hs', hpos, hlog⟩ := ih hne' s₁ frames [] (start + f.bytes.length) hnext
              (inFrame_nil frames) htail hrest
            refine ⟨s', (run_deliver_cons hs₁ segs).trans hs', hpos, ?_⟩
            rw [hlog, hshown, hinput, List.append_assoc]
            rfl

end Forward

-- ============================================================================
-- Frames of nines
-- ============================================================================

/-- The lengths a frame can have. -/
def FrameLength (n : Nat) : Prop := 11 ≤ n ∧ n ≤ revcBufLen

instance (n : Nat) : Decidable (FrameLength n) := inferInstanceAs (Decidable (_ ∧ _))

/-- A frame of `n` bytes filled with nines. -/
def nineBytes (n : Nat) : List UInt8 :=
  [0x30, 0x30, UInt8.ofNat (0x30 + n / 10), UInt8.ofNat (0x30 + n % 10)]
    ++ List.replicate (n - 4) 0x39

def nineStream (ns : List Nat) : List UInt8 := ns.flatMap nineBytes

section Nines

variable {n j : Nat} {ns : List Nat}

theorem length_nineBytes (hn : FrameLength n) : (nineBytes n).length = n := by
  have hle := hn.1
  simp only [nineBytes, List.length_append, List.length_cons, List.length_nil,
    List.length_replicate]
  omega

theorem nineBytes_digits (hn : FrameLength n) : ∀ b ∈ nineBytes n, IsDigit b := by
  have hmax : n ≤ 64 := hn.2
  intro b hb
  rcases List.mem_append.mp hb with hb | hb
  · simp only [List.mem_cons, List.not_mem_nil, or_false] at hb
    rcases hb with rfl | rfl | rfl | rfl
    · decide
    · decide
    · exact isDigit_ofNat (by omega) (by omega)
    · exact isDigit_ofNat (by omega) (by omega)
  · rw [List.eq_of_mem_replicate hb]
    decide

theorem length_nineStream (hns : ∀ n ∈ ns, FrameLength n) : (nineStream ns).length = ns.sum := by
  induction ns with
  | nil => rfl
  | cons n ns ih =>
      have hrest : (nineStream ns).length = ns.sum :=
        ih fun m hm => hns m (List.mem_cons_of_mem n hm)
      have hfirst := length_nineBytes (hns n List.mem_cons_self)
      change (nineBytes n ++ nineStream ns).length = _
      rw [List.length_append, hfirst, hrest, List.sum_cons]

theorem nineStream_digits (hns : ∀ n ∈ ns, FrameLength n) : ∀ b ∈ nineStream ns, IsDigit b := by
  intro b hb
  obtain ⟨n, hn, hb⟩ := List.mem_flatMap.mp hb
  exact nineBytes_digits (hns n hn) b hb

theorem getD_digit {l : List UInt8} (h : ∀ b ∈ l, IsDigit b) {i : Nat} (hi : i < l.length) :
    IsDigit (l.getD i 0) := by
  rw [List.getD_eq_getElem?_getD, List.getElem?_eq_getElem hi, Option.getD_some]
  exact h _ (List.getElem_mem hi)

/-- The value of four digits. -/
theorem digitsValue_four (a b c d : UInt8) :
    digitsValue [a, b, c, d] = 1000 * (a.toNat - 0x30) + 100 * (b.toNat - 0x30)
      + 10 * (c.toNat - 0x30) + (d.toNat - 0x30) := by
  simp only [digitsValue, List.foldl_cons, List.foldl_nil]
  omega

/-- The header of a frame of nines is its length. -/
theorem nineBytes_size (hn : FrameLength n) :
    digitsValue [(nineBytes n).getD 0 0, (nineBytes n).getD 1 0, (nineBytes n).getD 2 0,
      (nineBytes n).getD 3 0] = n := by
  have hmax : n ≤ 64 := hn.2
  change digitsValue [0x30, 0x30, UInt8.ofNat (0x30 + n / 10), UInt8.ofNat (0x30 + n % 10)] = n
  rw [digitsValue_four, toNat_digit (by omega), toNat_digit (by omega)]
  simp only [UInt8.reduceToNat]
  omega

/-- The frame of `n` nines. -/
def nineFrame (n : Nat) (hn : FrameLength n) : McFrame where
  bytes := nineBytes n
  formed := by
    have hlen := length_nineBytes hn
    have hle := hn.1
    refine ⟨fun i hi => getD_digit (nineBytes_digits hn) (by omega), ?_,
      fun i hi _ => getD_digit (nineBytes_digits hn) (by omega)⟩
    rw [nineBytes_size hn]
    exact hle
  size := by
    rw [nineBytes_size hn, length_nineBytes hn]
  fits := by
    rw [length_nineBytes hn]
    exact hn.2

theorem nineBytes_getD_nine (hj : 4 ≤ j) (hjn : j < n) :
    (nineBytes n).getD j 0 = 0x39 := by
  rw [nineBytes, List.getD_append_right _ _ _ _ (by simpa using hj)]
  rw [List.getD_replicate]
  simp only [List.length_cons, List.length_nil]
  omega

/-- Four bytes read anywhere inside a frame of nines make a number no frame
    length reaches. -/
theorem header_inside (hn : FrameLength n) (hj : 0 < j) (hjn : j < n) {x : UInt8}
    (hx : j < 4 → x = (nineBytes n).getD (j + 1) 0) (a b : UInt8) :
    revcBufLen < digitsValue [(nineBytes n).getD j 0, x, a, b] := by
  have hle := hn.1
  have hmax : n ≤ 64 := hn.2
  rw [digitsValue_four, revcBufLen]
  have hnine {i : Nat} (hi : 4 ≤ i) (hin : i < n) : ((nineBytes n).getD i 0).toNat = 0x39 := by
    rw [nineBytes_getD_nine hi hin]
    rfl
  have htens : ((nineBytes n).getD 2 0).toNat = 0x30 + n / 10 := toNat_digit (by omega)
  by_cases hfour : 4 ≤ j
  · rw [hnine hfour hjn]
    omega
  · rw [hx (by omega)]
    obtain rfl | rfl | rfl : j = 1 ∨ j = 2 ∨ j = 3 := by omega
    · rw [htens]
      omega
    · rw [htens]
      omega
    · rw [hnine (Nat.le_refl 4) (by omega)]
      omega

/-- What is left of a frame of nines after some of it was lost. -/
def CutFrame (r : List UInt8) : Prop :=
  ∃ n j, FrameLength n ∧ 0 < j ∧ j < n ∧ r = (nineBytes n).drop j

/-- The end of a stream of nines in which at most `k` frames start. -/
def TailOf (k : Nat) (st : List UInt8) : Prop :=
  ∃ r ns, (r = [] ∨ CutFrame r) ∧ (∀ n ∈ ns, FrameLength n) ∧ st = r ++ nineStream ns ∧
    ns.length ≤ k

theorem tailOf_mono {k k' : Nat} {st : List UInt8} (h : TailOf k st) (hk : k ≤ k') :
    TailOf k' st := by
  obtain ⟨r, ns, hr, hns, hst, hlen⟩ := h
  exact ⟨r, ns, hr, hns, hst, by omega⟩

theorem tailOf_stream (hns : ∀ n ∈ ns, FrameLength n) : TailOf ns.length (nineStream ns) :=
  ⟨[], ns, .inl rfl, hns, rfl, Nat.le_refl _⟩

/-- A reader that loses anything loses the start of a frame. -/
theorem tailOf_stream_drop (hns : ∀ n ∈ ns, FrameLength n) {d : Nat} (hd : 0 < d) :
    TailOf (ns.length - 1) ((nineStream ns).drop d) := by
  induction ns generalizing d with
  | nil => exact ⟨[], [], .inl rfl, hns, List.drop_nil, Nat.le_refl _⟩
  | cons n ns ih =>
      have hn : FrameLength n := hns n List.mem_cons_self
      have hns' : ∀ m ∈ ns, FrameLength m := fun m hm => hns m (List.mem_cons_of_mem n hm)
      have hlen := length_nineBytes hn
      change TailOf ns.length ((nineBytes n ++ nineStream ns).drop d)
      rw [List.drop_append, hlen]
      by_cases hin : d < n
      · refine ⟨(nineBytes n).drop d, ns, .inr ⟨n, d, hn, hd, hin, rfl⟩, hns', ?_, Nat.le_refl _⟩
        rw [Nat.sub_eq_zero_of_le (Nat.le_of_lt hin), List.drop_zero]
      · rw [List.drop_of_length_le (by omega), List.nil_append]
        rcases Nat.eq_zero_or_pos (d - n) with hzero | hpos
        · rw [hzero, List.drop_zero]
          exact tailOf_stream hns'
        · exact tailOf_mono (ih hns' hpos) (Nat.sub_le _ _)

theorem tailOf_drop {k : Nat} {st : List UInt8} (h : TailOf k st) (d : Nat) :
    TailOf k (st.drop d) := by
  obtain ⟨r, ns, hr, hns, rfl, hlen⟩ := h
  have hstream (e : Nat) : TailOf k ((nineStream ns).drop e) := by
    rcases Nat.eq_zero_or_pos e with rfl | hpos
    · exact tailOf_mono (tailOf_stream hns) hlen
    · exact tailOf_mono (tailOf_stream_drop hns hpos) (by omega)
  rcases hr with rfl | ⟨n, j, hn, hj, hjn, rfl⟩
  · exact hstream d
  · have hlen' : ((nineBytes n).drop j).length = n - j := by
      rw [List.length_drop, length_nineBytes hn]
    rw [List.drop_append, hlen', List.drop_drop]
    by_cases hin : j + d < n
    · refine ⟨_, ns, .inr ⟨n, j + d, hn, by omega, hin, rfl⟩, hns, ?_, hlen⟩
      rw [Nat.sub_eq_zero_of_le (by omega), List.drop_zero]
    · rw [List.drop_of_length_le (by rw [length_nineBytes hn]; omega), List.nil_append]
      exact hstream _

/-- A reader inside a frame of nines never completes a frame. -/
theorem cutFrame_not_completes {r rest : List UInt8} (hr : CutFrame r)
    (hrest : ∀ b ∈ rest, IsDigit b) {k : Nat} (hk : k ≤ revcBufLen) :
    ¬ Completes ((r ++ rest).take k) := by
  obtain ⟨n, j, hn, hj, hjn, rfl⟩ := hr
  rintro ⟨hfour, hle⟩
  have hlen : (((nineBytes n).drop j ++ rest).take k).length ≤ k := List.length_take_le _ _
  have hbyte {i : Nat} (hi : i < 4) (hin : j + i < n) :
      (((nineBytes n).drop j ++ rest).take k).getD i 0 = (nineBytes n).getD (j + i) 0 := by
    have hleft : i < ((nineBytes n).drop j).length := by
      rw [List.length_drop, length_nineBytes hn]
      omega
    rw [List.getD_eq_getElem?_getD, List.getElem?_take_of_lt (by omega),
      List.getElem?_append_left hleft, List.getElem?_drop, ← List.getD_eq_getElem?_getD]
  have hdigits : ∀ b ∈ ((nineBytes n).drop j ++ rest).take k, IsDigit b := by
    intro b hb
    rcases List.mem_append.mp (List.mem_of_mem_take hb) with hb | hb
    · exact nineBytes_digits hn b (List.mem_of_mem_drop hb)
    · exact hrest b hb
  rw [headerSize_digits fun i hi => getD_digit hdigits (by omega), hbyte (by omega) hjn,
    Nat.add_zero] at hle
  have hbig := header_inside hn hj hjn (x := (((nineBytes n).drop j ++ rest).take k).getD 1 0)
    (fun hsmall => hbyte (by omega) (by have := hn.1; omega))
    ((((nineBytes n).drop j ++ rest).take k).getD 2 0)
    ((((nineBytes n).drop j ++ rest).take k).getD 3 0)
  omega

/-- A reader of a stream of nines completes a frame only from its start on. -/
theorem TailOf.completes {k m : Nat} {st : List UInt8} (h : TailOf k st) (hm : m ≤ revcBufLen)
    (hcomp : Completes (st.take m)) :
    ∃ n ns, (∀ i ∈ n :: ns, FrameLength i) ∧ st = nineStream (n :: ns) ∧ n ≤ m ∧
      ns.length + 1 ≤ k := by
  obtain ⟨r, ns, hr, hns, rfl, hlen⟩ := h
  rcases hr with rfl | hcut
  · cases ns with
    | nil =>
        have hfour := hcomp.1
        simp [nineStream] at hfour
    | cons n ns =>
        refine ⟨n, ns, hns, rfl, ?_, hlen⟩
        by_contra hshort
        have hn : FrameLength n := hns n List.mem_cons_self
        have htake : (nineStream (n :: ns)).take m = (nineBytes n).take m :=
          List.take_append_of_le_length (by rw [length_nineBytes hn]; omega)
        rw [List.nil_append, htake] at hcomp
        have hle := ((nineFrame n hn).completes_take m).mp hcomp
        change (nineBytes n).length ≤ m at hle
        rw [length_nineBytes hn] at hle
        exact hshort hle
  · exact absurd hcomp (cutFrame_not_completes hcut (nineStream_digits hns) hm)

theorem completes_stream_take {m : Nat} (hn : FrameLength n) (hm : n ≤ m) :
    Completes ((nineStream (n :: ns)).take m) := by
  have hlow := hn.1
  have hlen := length_nineBytes hn
  have htotal : (nineStream (n :: ns)).length = n + (nineStream ns).length := by
    rw [nineStream, List.flatMap_cons, List.length_append, hlen]
    rfl
  have hheader : headerSize ((nineStream (n :: ns)).take m) = headerSize (nineBytes n) := by
    rw [headerSize_take (by omega)]
    apply headerSize_congr
    exact List.take_append_of_le_length (by omega)
  have hsize : headerSize (nineBytes n) = (nineBytes n).length := (nineFrame n hn).headerSize_eq
  rw [Completes, hheader, hsize, hlen, List.length_take, htotal]
  omega

theorem drop_first {d : Nat} (hn : FrameLength n) (hd : n ≤ d) :
    (nineStream (n :: ns)).drop d = (nineStream ns).drop (d - n) := by
  have hlen := length_nineBytes hn
  change (nineBytes n ++ nineStream ns).drop d = _
  rw [List.drop_append, hlen, List.drop_of_length_le (by omega), List.nil_append]

end Nines

-- ============================================================================
-- No other cuts work
-- ============================================================================

section Backward

variable {s s' : Link} {bs p : List UInt8} {segs : List (List UInt8)}

/-- The bytes a segment leaves in the receiver begin the stream. -/
theorem held_take (bs p tail : List UInt8) (k : Nat) :
    bs ++ p.take k = (bs ++ (p ++ tail)).take (bs.length + (p.take k).length) := by
  rw [List.take_length_add_append, List.length_take,
    List.take_append_of_le_length (Nat.min_le_right _ _)]
  rcases Nat.le_total k p.length with hk | hk
  · rw [Nat.min_eq_left hk]
  · rw [Nat.min_eq_right hk, List.take_length, List.take_of_length_le hk]

theorem drop_held (bs p tail : List UInt8) :
    tail = (bs ++ (p ++ tail)).drop (bs.length + p.length) := by
  rw [← List.append_assoc]
  exact (List.drop_left' List.length_append).symm

/-- A full receiver takes no further segment. -/
theorem run_full (h : Holds s.recv bs) (hfull : bs.length = revcBufLen)
    (hne : ∀ p ∈ segs, p ≠ []) (hrun : run deliver (some s) segs = some s') : s' = s := by
  cases segs with
  | nil => exact (Option.some.inj hrun).symm
  | cons p segs =>
      obtain ⟨s₁, hs₁, -⟩ := run_cons_some hrun
      have hfit := (received_of_some h hs₁).1
      have hp : 0 < p.length := List.length_pos_iff.mpr (hne p List.mem_cons_self)
      rw [List.length_take, pBufLen_eq, hfull] at hfit
      have hbuf : 0 < revcBufLen := by decide
      omega

/-- **Run lemma.**  From a stream of nines in which `k` frames still start, at
    most `k` frames are decoded. -/
theorem shown_le_of_tail {k : Nat} (hne : ∀ p ∈ segs, p ≠ []) (hholds : Holds s.recv bs)
    (htail : TailOf k (bs ++ segs.flatten)) (hrun : run deliver (some s) segs = some s') :
    (shown s'.log).length ≤ (shown s.log).length + 2 * k := by
  induction segs generalizing s bs k with
  | nil =>
      obtain rfl : s = s' := Option.some.inj hrun
      exact Nat.le_add_right _ _
  | cons p segs ih =>
      have hne' : ∀ q ∈ segs, q ≠ [] := fun q hq => hne q (List.mem_cons_of_mem p hq)
      obtain ⟨s₁, hs₁, hrun₁⟩ := run_cons_some hrun
      obtain ⟨hfit, hrecv⟩ := received_of_some hholds hs₁
      rw [List.flatten_cons] at htail
      have hheld := held_take bs p segs.flatten pBufLen
      have hrest := drop_held bs p segs.flatten
      have hnext := hrecv.processed.holds
      by_cases hcomp : Completes (bs ++ p.take pBufLen)
      · -- a frame is decoded: it was the first of the tail
        rw [pendingOf_completes hcomp] at hnext
        rw [hheld] at hcomp
        obtain ⟨n, ns, hns, hst, hle, hk⟩ := htail.completes hfit hcomp
        rw [← hheld] at hcomp
        have hpos : 0 < bs.length + p.length := by
          have hfour := hcomp.1
          rw [List.length_append, List.length_take] at hfour
          omega
        have hlast := tailOf_stream_drop hns hpos
        rw [← hst, ← hrest] at hlast
        have hbound := ih hne' hnext (by simpa using hlast) hrun₁
        rw [hrecv.shown_completes hcomp, List.length_append] at hbound
        simp only [List.length_cons, List.length_nil] at hbound
        omega
      · rw [← hrecv.shown_waiting hcomp]
        by_cases htwo : (bs ++ p.take pBufLen).length = 2
        · -- two bytes are dropped
          rw [pendingOf_two htwo] at hnext
          have hlast := tailOf_drop htail (bs.length + p.length)
          rw [← hrest] at hlast
          exact ih hne' hnext (by simpa using hlast) hrun₁
        · rw [pendingOf_waiting hcomp htwo] at hnext
          by_cases hshort : p.length ≤ pBufLen
          · rw [List.take_of_length_le hshort] at hnext
            exact ih hne' hnext (by simpa using htail) hrun₁
          · -- the rest of a long segment is dropped, and the buffer is full
            have hfull : (bs ++ p.take pBufLen).length = revcBufLen := by
              rw [List.length_append, List.length_take, pBufLen_eq] at *
              omega
            rw [run_full hnext hfull hne' hrun₁]
            exact Nat.le_add_right _ _

/-- **Step lemma.**  If all frames of a stream of nines are decoded, the next
    segment stays inside the frame begun and does not end two bytes into it. -/
theorem segment_inside {n : Nat} {ns : List Nat} (hns : ∀ i ∈ n :: ns, FrameLength i)
    (hne : ∀ q ∈ p :: segs, q ≠ []) (hholds : Holds s.recv bs)
    (hstream : bs ++ (p :: segs).flatten = nineStream (n :: ns))
    (hrun : run deliver (some s) (p :: segs) = some s')
    (hall : (shown s'.log).length = (shown s.log).length + 2 * (n :: ns).length) :
    bs.length + p.length ≤ n ∧ bs.length + p.length ≠ 2 := by
  have hn : FrameLength n := hns n List.mem_cons_self
  have hlow := hn.1
  have hmax := hn.2
  have hp : 0 < p.length := List.length_pos_iff.mpr (hne p List.mem_cons_self)
  have hne' : ∀ q ∈ segs, q ≠ [] := fun q hq => hne q (List.mem_cons_of_mem p hq)
  obtain ⟨s₁, hs₁, hrun₁⟩ := run_cons_some hrun
  obtain ⟨hfit, hrecv⟩ := received_of_some hholds hs₁
  have hnext := hrecv.processed.holds
  rw [List.flatten_cons] at hstream
  have hrest := drop_held bs p segs.flatten
  have hheld := held_take bs p segs.flatten pBufLen
  rw [hstream] at hrest hheld
  rw [List.length_take, pBufLen_eq] at hfit
  have hlen : (bs ++ p.take pBufLen).length = bs.length + min revcBufLen p.length := by
    rw [List.length_append, List.length_take, pBufLen_eq]
  simp only [List.length_cons] at hall
  constructor
  · -- otherwise one frame is decoded here, and the start of the next is lost
    by_contra hover
    have hcomp : Completes (bs ++ p.take pBufLen) := by
      rw [hheld]
      apply completes_stream_take hn
      rw [List.length_take, pBufLen_eq]
      omega
    rw [pendingOf_completes hcomp] at hnext
    have hns' : ∀ i ∈ ns, FrameLength i := fun i hi => hns i (List.mem_cons_of_mem n hi)
    have hlast := tailOf_stream_drop hns' (show 0 < bs.length + p.length - n by omega)
    rw [← drop_first hn (by omega), ← hrest] at hlast
    have hbound := shown_le_of_tail hne' hnext (by simpa using hlast) hrun₁
    rw [hrecv.shown_completes hcomp, List.length_append] at hbound
    simp only [List.length_cons, List.length_nil] at hbound
    have hmore : 0 < ns.length := by
      apply List.length_pos_of_ne_nil
      rintro rfl
      have htotal := congrArg List.length hstream
      simp only [List.length_append, nineStream, List.flatMap_cons, List.flatMap_nil,
        List.append_nil, length_nineBytes hn] at htotal
      omega
    omega
  · -- otherwise these two bytes are lost
    intro htwo
    have hshort : (bs ++ p.take pBufLen).length = 2 := by
      omega
    have hwait : ¬ Completes (bs ++ p.take pBufLen) := by
      rintro ⟨hfour, -⟩
      omega
    rw [pendingOf_two hshort] at hnext
    have hlast := tailOf_stream_drop hns (show 0 < bs.length + p.length by omega)
    rw [← hrest] at hlast
    have hbound := shown_le_of_tail hne' hnext (by simpa using hlast) hrun₁
    rw [hrecv.shown_waiting hwait] at hbound
    omega

/-- **Run lemma.**  Only segments that respect the frames decode all frames of a
    stream of nines. -/
theorem respects_of_decoded {ns : List Nat} (hns : ∀ n ∈ ns, FrameLength n)
    (hne : ∀ p ∈ segs, p ≠ []) (hholds : Holds s.recv bs)
    (hin : ∀ n ∈ ns.head?, bs.length < n) (hstream : bs ++ segs.flatten = nineStream ns)
    (hrun : run deliver (some s) segs = some s')
    (hall : (shown s'.log).length = (shown s.log).length + 2 * ns.length) (start : Nat) :
    Respects 2 start ns (start + bs.length) (segs.map List.length) := by
  induction segs generalizing s bs ns start with
  | nil =>
      cases ns with
      | nil => exact respects_nil _ _ _ _
      | cons n ns =>
          have hlen := congrArg List.length hstream
          have hlt := hin n rfl
          simp only [List.flatten_nil, List.append_nil, nineStream, List.flatMap_cons,
            List.length_append, length_nineBytes (hns n List.mem_cons_self)] at hlen
          omega
  | cons p segs ih =>
      have hp : 0 < p.length := List.length_pos_iff.mpr (hne p List.mem_cons_self)
      have hne' : ∀ q ∈ segs, q ≠ [] := fun q hq => hne q (List.mem_cons_of_mem p hq)
      cases ns with
      | nil => exact respects_nil _ _ _ _
      | cons n ns =>
          have hn : FrameLength n := hns n List.mem_cons_self
          have hlow := hn.1
          have hmax := hn.2
          have hns' : ∀ i ∈ ns, FrameLength i := fun i hi => hns i (List.mem_cons_of_mem n hi)
          have hlt : bs.length < n := hin n rfl
          obtain ⟨hle, htwo⟩ := segment_inside hns hne hholds hstream hrun hall
          have hframe : (nineFrame n hn).bytes.length = n := length_nineBytes hn
          have hsplit : bs ++ (p ++ segs.flatten) = (nineFrame n hn).bytes ++ nineStream ns :=
            hstream
          obtain ⟨hbegin, htail⟩ := prefix_of_stream hsplit (by omega)
          have hpos (k : Nat) (hk : k ∈ ns) : 0 < k := by
            have hlow' := (hns' k hk).1
            omega
          rw [List.map_cons, respects_cons_iff (by omega) (by omega) (by omega) hpos
            (lengths_pos hne')]
          refine ⟨by omega, by omega, ?_, ?_⟩
          · intro hend
            have heq : bs.length + p.length = (nineFrame n hn).bytes.length := by omega
            rw [heq, List.take_length] at hbegin
            rw [heq, List.drop_length, List.nil_append] at htail
            obtain ⟨s₁, hs₁, hnext, -, hshown⟩ := recv_end hholds hbegin
            rw [run_deliver_cons hs₁] at hrun
            have hcount := congrArg List.length hshown
            rw [List.length_append] at hcount
            simp only [frameEvents, List.length_cons, List.length_nil] at hcount hall
            have hih := ih hns' hne' hnext (fun k hk => hpos k (List.mem_of_mem_head? hk)) htail
              hrun (by omega) (start + n)
            rw [show start + bs.length + p.length = start + n + [].length by simp; omega]
            exact hih
          · intro hinside
            obtain ⟨s₁, hs₁, hnext, -, hshown⟩ :=
              recv_inside hholds hbegin (by omega) (by omega)
            rw [run_deliver_cons hs₁] at hrun
            have hlen : (bs ++ p).length = bs.length + p.length := List.length_append
            have hih := ih hns hne' hnext
              (by
                intro k hk
                obtain rfl : n = k := Option.some.inj hk
                omega)
              (by rw [List.append_assoc]; exact hstream) hrun (by rw [hshown]; exact hall) start
            rw [hlen, ← Nat.add_assoc] at hih
            exact hih

end Backward

/-- The frames of nines of lengths `ns`. -/
theorem exists_nineFrames {ns : List Nat} (hns : ∀ n ∈ ns, FrameLength n) :
    ∃ frames, frameLengths frames = ns ∧ streamOf frames = nineStream ns := by
  induction ns with
  | nil => exact ⟨[], rfl, rfl⟩
  | cons n ns ih =>
      have hn : FrameLength n := hns n List.mem_cons_self
      obtain ⟨frames, hlens, hstream⟩ := ih fun m hm => hns m (List.mem_cons_of_mem n hm)
      refine ⟨nineFrame n hn :: frames, ?_, ?_⟩
      · rw [frameLengths, List.map_cons]
        exact congrArg₂ List.cons (length_nineBytes hn) hlens
      · rw [streamOf, List.flatMap_cons]
        exact congrArg (nineBytes n ++ ·) hstream

theorem length_frameEvents (input : InputData) (frames : List McFrame) :
    (frames.flatMap (frameEvents input)).length = 2 * frames.length := by
  induction frames with
  | nil => rfl
  | cons f frames ih =>
      rw [List.flatMap_cons, List.length_append, ih, List.length_cons]
      change 2 + _ = _
      omega

/-- **Framing and segmentation.**  Streams of frames of lengths `ns`, delivered in
    segments of lengths `ms` to a receiver at a frame boundary, are all decoded
    frame by frame exactly when a segment ends with every frame and none ends
    two bytes into a frame. -/
theorem framing_iff (s : Link) (h0 : s.recv.flagPosRecv = 0) (ns ms : List Nat)
    (hns : ∀ n ∈ ns, FrameLength n) (hms : ∀ m ∈ ms, 0 < m) (hsum : ms.sum = ns.sum) :
    (∀ frames segs, frameLengths frames = ns → segs.map List.length = ms →
        segs.flatten = streamOf frames → DecodesAs s frames segs) ↔
      (∀ e ∈ endsFrom 0 ns, e ∈ endsFrom 0 ms) ∧ ∀ b ∈ startsFrom 0 ns, b + 2 ∉ endsFrom 0 ms := by
  have hnonempty {segs : List (List UInt8)} (hlens : segs.map List.length = ms) :
      ∀ p ∈ segs, p ≠ [] := by
    rintro p hp rfl
    have hzero := hms 0 (hlens ▸ List.mem_map.mpr ⟨[], hp, rfl⟩)
    omega
  constructor
  · intro hall
    obtain ⟨frames, hframes, hstream⟩ := exists_nineFrames hns
    have htotal : (nineStream ns).length = ms.sum := by
      rw [length_nineStream hns, hsum]
    have hlens : (ms.splitLengths (nineStream ns)).map List.length = ms :=
      List.map_splitLengths_length _ _ (by omega)
    have hflat : (ms.splitLengths (nineStream ns)).flatten = nineStream ns :=
      List.flatten_splitLengths _ _ (by omega)
    obtain ⟨s', hs', -, hlog⟩ := hall frames _ hframes hlens (hflat.trans hstream.symm)
    have hcount := congrArg List.length hlog
    have hnumber : frames.length = ns.length := by
      rw [← hframes, frameLengths, List.length_map]
    rw [List.length_append, length_frameEvents, hnumber] at hcount
    have hcuts := respects_of_decoded hns (hnonempty hlens) (holds_nil h0)
      (fun n hn => by have := (hns n (List.mem_of_mem_head? hn)).1; simp; omega)
      hflat hs' hcount 0
    rw [hlens] at hcuts
    exact hcuts
  · rintro hcuts frames segs rfl rfl hstream
    exact decodesAs_of_respects segs (hnonempty rfl) s frames [] 0 (holds_nil h0)
      (inFrame_nil frames) hstream hcuts

/-- The client after a cold start. -/
def coldStart : Link := ⟨Receiver.init, ⟨0, 0⟩, []⟩

/-- Mode 3, error 42. -/
def sampleFrame : McFrame :=
  ⟨[0x30, 0x30, 0x31, 0x31, 0x33, 0x30, 0x30, 0x30, 0x30, 0x34, 0x32],
    ⟨by decide, by decide, by decide⟩, by decide, by decide⟩

/-- Two frames, the first one in two segments. -/
theorem framing_three_segments :
    DecodesAs coldStart [sampleFrame, sampleFrame]
      [sampleFrame.bytes.take 5, sampleFrame.bytes.drop 5, sampleFrame.bytes] :=
  (framing_iff coldStart rfl [11, 11] [5, 6, 11] (by decide) (by decide) rfl).mpr (by decide)
    _ _ rfl rfl rfl

/-- Two frames in one segment: the second is lost. -/
theorem second_frame_lost :
    (∃ s', run deliver (some coldStart) [streamOf [sampleFrame, sampleFrame]] = some s' ∧
        shown s'.log = frameEvents ⟨0, 0⟩ sampleFrame) ∧
      ¬ DecodesAs coldStart [sampleFrame, sampleFrame] [streamOf [sampleFrame, sampleFrame]] := by
  have hrun : ∃ s', run deliver (some coldStart) [streamOf [sampleFrame, sampleFrame]] = some s' ∧
      shown s'.log = frameEvents ⟨0, 0⟩ sampleFrame := ⟨_, rfl, by decide⟩
  refine ⟨hrun, ?_⟩
  obtain ⟨s', hs', hlog⟩ := hrun
  rintro ⟨t, ht, -, htlog⟩
  obtain rfl : s' = t := Option.some.inj (hs'.symm.trans ht)
  rw [hlog] at htlog
  exact absurd htlog (by decide)

end McuFirmware.Sniffer
