/-
  McuFirmware.Tftp.RequestLine

  The request line: `request_recv_callback` up to its call of `fop.open`, with
  the two character arrays the file name and the mode are copied into.

  `Line p f m rest` is the grammar `f NUL m NUL rest` of the bytes behind the
  opcode, however the datagram is cut into pbufs.  The bounds the callback tests
  are u16 differences of the two offsets `pbuf_memfind` returns; the value
  `0xFFFF` for "not found" has to fail them by its size alone.  The opcode itself
  is read through `p->payload`, without a look at `p->len`.
-/

import McuFirmware.Tftp.Request

namespace McuFirmware.Tftp

open McuFirmware.Lib McuFirmware.Lwip

/-- The arguments of a call of `fop.open`. -/
structure OpenCall where
  filename : CBuffer UInt8 tftpServerMaxFilenameLen
  mode : CBuffer UInt8 tftpServerMaxModeLen
  write : Bool

/-- The character arrays of the callback, the number of bytes stored into each
    through `pbuf_copy_partial`, and the call of `fop.open` if it is reached. -/
structure LineState where
  filename : CBuffer UInt8 tftpServerMaxFilenameLen
  mode : CBuffer UInt8 tftpServerMaxModeLen
  filenameStored : Nat
  modeStored : Nat
  call : Option OpenCall

/-- `request_recv_callback` up to `fop.open`; `filename` and `mode` are what the
    stack holds in the two arrays. -/
def requestLine (e : ReqEnv) (p : Pbuf) (filename : CBuffer UInt8 tftpServerMaxFilenameLen)
    (mode : CBuffer UInt8 tftpServerMaxModeLen) : LineState :=
  let s : LineState := ⟨filename, mode, 0, 0, none⟩
  let opcode := p.u16 0
  if opcode ≠ tftpRrq ∧ opcode ≠ tftpWrq then s
  else if FilenameTooLong p then s
  else
    let s := { s with
      filename := s.filename.memcpy 0 (filenameBytes p)
      filenameStored := (filenameBytes p).length }
    if ModeTooLong p then s
    else
      let s := { s with
        mode := s.mode.memcpy 0 (modeBytes p)
        modeStored := (modeBytes p).length }
      match e.argMalloc with
      | none => s
      | some _ => { s with call := some ⟨s.filename, s.mode, decide (opcode = tftpWrq)⟩ }

/-- `request_recv_callback` from the return of `fop.open` on: what it leaves of
    the connection. -/
def afterOpen (e : ReqEnv) (opcode : UInt16) (addr : UInt32) (port : UInt16) :
    Bool × Conn → Conn
  | (opened, c) =>
      if ¬ opened then c.memFreeArg
      else
        let c := c.initArgs opcode addr port
        if ¬ e.udpNew then c.derefArg.tftpFileClose.memFreeArg
        else
          let c := (c.udpConnect e.localPort addr port).sysTimeout.derefArg
          if c.arg.op = tftpWrq then c.tftpSendAck (e.lib.pbufAlloc 0) 0
          else c.tftpSendData e.lib

-- ============================================================================
-- The grammar
-- ============================================================================

/-- The bytes behind the opcode are `f NUL m NUL rest`. -/
structure Line (p : Pbuf) (f m rest : List UInt8) : Prop where
  bytes : p.payload.drop 2 = f ++ 0 :: (m ++ 0 :: rest)
  filename : 0 ∉ f
  mode : 0 ∉ m

section Offsets

variable {p : Pbuf} {f m r rest : List UInt8}

/-- The payload, when something stands behind the opcode. -/
theorem payload_split {l : List UInt8} (h : p.payload.drop 2 = l) (hl : l ≠ []) :
    ∃ head, p.payload = head ++ l ∧ head.length = 2 := by
  refine ⟨p.payload.take 2, ?_, ?_⟩
  · rw [← h, List.take_append_drop]
  · have hlen : 0 < (p.payload.drop 2).length := by
      rw [h]
      exact List.length_pos_iff.mpr hl
    rw [List.length_drop] at hlen
    rw [List.length_take]
    omega

theorem filenameEndOffset_found (h : p.payload.drop 2 = f ++ 0 :: r) (hf : 0 ∉ f) :
    (filenameEndOffset p).toNat = 2 + f.length := by
  obtain ⟨head, hp, hhead⟩ := payload_split h (by simp)
  rw [filenameEndOffset, Pbuf.memfind_byte_found hp (by rw [hhead]; rfl) hf, hhead]

/-- Where the search for the end of the mode starts. -/
theorem modeStart (h : p.payload.drop 2 = f ++ 0 :: r) (hf : 0 ∉ f) :
    (filenameEndOffset p + 1).toNat = 3 + f.length ∧ p.payload.drop (3 + f.length) = r := by
  have hlen := p.payload_lt
  have hend := filenameEndOffset_found h hf
  have hlength := congrArg List.length h
  simp only [List.length_drop, List.length_append, List.length_cons] at hlength
  constructor
  · rw [UInt16.toNat_add, hend]
    change (2 + f.length + 1) % 2 ^ 16 = _
    omega
  · rw [show 3 + f.length = 2 + (f.length + 1) by omega, ← List.drop_drop, h,
      List.drop_append, List.drop_eq_nil_of_le (by omega), Nat.add_sub_cancel_left]
    rfl

theorem modeEndOffset_found (h : Line p f m rest) :
    (modeEndOffset p).toNat = 3 + f.length + m.length := by
  obtain ⟨hstart, hdrop⟩ := modeStart h.bytes h.filename
  have hlength := congrArg List.length h.bytes
  simp only [List.length_drop, List.length_append, List.length_cons] at hlength
  have hskipped : (p.payload.take (3 + f.length)).length = 3 + f.length := by
    rw [List.length_take]
    omega
  have hp : p.payload = p.payload.take (3 + f.length) ++ (m ++ 0 :: rest) := by
    rw [← hdrop, List.take_append_drop]
  rw [modeEndOffset, Pbuf.memfind_byte_found hp (by rw [hstart, hskipped]) h.mode, hskipped]

/-- The length of the copy into `filename`: the name and its NUL. -/
theorem filenameLen (h : p.payload.drop 2 = f ++ 0 :: r) (hf : 0 ∉ f) :
    (filenameEndOffset p - 2 + 1).toNat = f.length + 1 := by
  have hend := filenameEndOffset_found h hf
  have hlt := (filenameEndOffset p).toNat_lt
  have hle : 2 ≤ filenameEndOffset p := by
    rw [UInt16.le_iff_toNat_le, hend]
    change 2 ≤ _
    omega
  rw [UInt16.toNat_add, UInt16.toNat_sub_of_le _ _ hle, hend]
  change (2 + f.length - 2 + 1) % 2 ^ 16 = _
  omega

/-- The length of the copy into `mode`: the mode and its NUL. -/
theorem modeLen (h : Line p f m rest) :
    (modeEndOffset p - filenameEndOffset p).toNat = m.length + 1 := by
  have hend := filenameEndOffset_found h.bytes h.filename
  have hmode := modeEndOffset_found h
  have hle : filenameEndOffset p ≤ modeEndOffset p := by
    rw [UInt16.le_iff_toNat_le, hend, hmode]
    omega
  rw [UInt16.toNat_sub_of_le _ _ hle, hend, hmode]
  omega

/-- The file name test, once the name is known to end. -/
theorem filenameTooLong_iff (h : p.payload.drop 2 = f ++ 0 :: r) (hf : 0 ∉ f) :
    FilenameTooLong p ↔ 31 < f.length := by
  rw [FilenameTooLong, filenameLen h hf, tftpServerMaxFilenameLen]
  omega

/-- Without a NUL the end offset is `0xFFFF`, and the u16 difference is too large. -/
theorem filenameTooLong_of_missing (h : 0 ∉ p.payload.drop 2) : FilenameTooLong p := by
  have hend : filenameEndOffset p = 0xFFFF := Pbuf.memfind_byte_missing h
  rw [FilenameTooLong, hend]
  decide

/-- The mode test, once the mode is known to end. -/
theorem modeTooLong_iff (h : Line p f m rest) : ModeTooLong p ↔ 15 < m.length := by
  rw [ModeTooLong, modeLen h, tftpServerMaxModeLen]
  omega

theorem modeTooLong_of_missing (h : p.payload.drop 2 = f ++ 0 :: r) (hf : 0 ∉ f)
    (hshort : f.length ≤ 31) (hr : 0 ∉ r) : ModeTooLong p := by
  have hend := filenameEndOffset_found h hf
  obtain ⟨hstart, hdrop⟩ := modeStart h hf
  have hmode : modeEndOffset p = 0xFFFF := by
    apply Pbuf.memfind_byte_missing
    rw [hstart, hdrop]
    exact hr
  have hle : filenameEndOffset p ≤ 0xFFFF := by
    rw [UInt16.le_iff_toNat_le, hend]
    change _ ≤ 65535
    omega
  rw [ModeTooLong, hmode, UInt16.toNat_sub_of_le _ _ hle, hend, tftpServerMaxModeLen]
  change 16 < 65535 - (2 + f.length)
  omega

/-- The bytes copied into `filename` are the name and its NUL. -/
theorem filenameBytes_line (h : Line p f m rest) : filenameBytes p = f ++ [0] := by
  rw [filenameBytes, Pbuf.copyPartial_eq, filenameLen h.bytes h.filename]
  change List.take _ (p.payload.drop 2) = _
  rw [h.bytes, List.take_append, List.take_of_length_le (by omega), Nat.add_sub_cancel_left]
  rfl

/-- The bytes copied into `mode` are the mode and its NUL. -/
theorem modeBytes_line (h : Line p f m rest) : modeBytes p = m ++ [0] := by
  obtain ⟨hstart, hdrop⟩ := modeStart h.bytes h.filename
  rw [modeBytes, Pbuf.copyPartial_eq, modeLen h, hstart, hdrop, List.take_append,
    List.take_of_length_le (by omega), Nat.add_sub_cancel_left]
  rfl

/-- The two tests accept exactly the lines with a short name and a short mode. -/
theorem exists_line_iff :
    (¬ FilenameTooLong p ∧ ¬ ModeTooLong p) ↔
      ∃ f m rest, Line p f m rest ∧ f.length ≤ 31 ∧ m.length ≤ 15 := by
  constructor
  · rintro ⟨hname, hmode⟩
    have hmem : 0 ∈ p.payload.drop 2 := by
      by_contra hmissing
      exact hname (filenameTooLong_of_missing hmissing)
    obtain ⟨f, r, hr, hf⟩ := List.eq_append_cons_of_mem hmem
    rw [filenameTooLong_iff hr hf, Nat.not_lt] at hname
    have hmem' : 0 ∈ r := by
      by_contra hmissing
      exact hmode (modeTooLong_of_missing hr hf hname hmissing)
    obtain ⟨m, rest, hrest, hm⟩ := List.eq_append_cons_of_mem hmem'
    have hline : Line p f m rest := ⟨by rw [hr, hrest], hf, hm⟩
    rw [modeTooLong_iff hline, Nat.not_lt] at hmode
    exact ⟨f, m, rest, hline, hname, hmode⟩
  · rintro ⟨f, m, rest, hline, hname, hmode⟩
    rw [filenameTooLong_iff hline.bytes hline.filename, modeTooLong_iff hline]
    omega

/-- A copy that passed its test fits the array. -/
theorem length_filenameBytes (h : ¬ FilenameTooLong p) : (filenameBytes p).length ≤ 32 := by
  rw [filenameBytes, Pbuf.copyPartial_eq]
  exact (List.length_take_le _ _).trans (Nat.not_lt.mp h)

theorem length_modeBytes (h : ¬ ModeTooLong p) : (modeBytes p).length ≤ 16 := by
  rw [modeBytes, Pbuf.copyPartial_eq]
  exact (List.length_take_le _ _).trans (Nat.not_lt.mp h)

end Offsets

-- ============================================================================
-- The call of fop.open
-- ============================================================================

section Call

variable (e : ReqEnv) (p : Pbuf) (filename : CBuffer UInt8 tftpServerMaxFilenameLen)
  (mode : CBuffer UInt8 tftpServerMaxModeLen)

/-- The opcode the callback reads is one of the two requests. -/
def IsRequest (p : Pbuf) : Prop := p.u16 0 = tftpRrq ∨ p.u16 0 = tftpWrq

/-- When `fop.open` is called and with what: the tests in front of it passed and
    the argument block was allocated. -/
theorem requestLine_call_iff (call : OpenCall) :
    (requestLine e p filename mode).call = some call ↔
      (IsRequest p ∧ (¬ FilenameTooLong p ∧ ¬ ModeTooLong p) ∧ e.argMalloc ≠ none) ∧
        call = ⟨filename.memcpy 0 (filenameBytes p), mode.memcpy 0 (modeBytes p),
          decide (p.u16 0 = tftpWrq)⟩ := by
  simp only [requestLine]
  by_cases hop : p.u16 0 ≠ tftpRrq ∧ p.u16 0 ≠ tftpWrq
  · rw [if_pos hop]
    exact iff_of_false nofun fun h => h.1.1.elim hop.1 hop.2
  have hrq : IsRequest p := by
    by_contra hcon
    exact hop (not_or.mp hcon)
  rw [if_neg hop]
  by_cases hname : FilenameTooLong p
  · rw [if_pos hname]
    exact iff_of_false nofun fun h => h.1.2.1.1 hname
  rw [if_neg hname]
  by_cases hmode : ModeTooLong p
  · rw [if_pos hmode]
    exact iff_of_false nofun fun h => h.1.2.1.2 hmode
  rw [if_neg hmode]
  cases e.argMalloc with
  | none => exact iff_of_false nofun fun h => h.1.2.2 rfl
  | some stale =>
      simp only [Option.some.injEq]
      constructor
      · rintro rfl
        exact ⟨⟨hrq, ⟨hname, hmode⟩, nofun⟩, rfl⟩
      · rintro ⟨-, rfl⟩
        rfl

/-- Whatever is received, the copies stay inside the two arrays. -/
theorem requestLine_stored :
    (requestLine e p filename mode).filenameStored ≤ 32 ∧
      (requestLine e p filename mode).modeStored ≤ 16 := by
  simp only [requestLine]
  split
  · exact ⟨Nat.zero_le _, Nat.zero_le _⟩
  · split
    · exact ⟨Nat.zero_le _, Nat.zero_le _⟩
    · rename_i hname
      have hf : (filenameBytes p).length ≤ 32 := length_filenameBytes hname
      split
      · exact ⟨hf, Nat.zero_le _⟩
      · rename_i hmode
        have hm : (modeBytes p).length ≤ 16 := length_modeBytes hmode
        split <;> exact ⟨hf, hm⟩

/-- The strings `fop.open` is called with. -/
theorem strings_of_line {f m rest : List UInt8} (h : Line p f m rest) (hf : f.length ≤ 31)
    (hm : m.length ≤ 15) :
    (filename.memcpy 0 (filenameBytes p)).cString = f ∧
      (mode.memcpy 0 (modeBytes p)).cString = m := by
  rw [filenameBytes_line h, modeBytes_line h]
  exact ⟨CBuffer.cString_memcpy h.filename (by rw [tftpServerMaxFilenameLen]; omega),
    CBuffer.cString_memcpy h.mode (by rw [tftpServerMaxModeLen]; omega)⟩

/-- **The callback opens the file of the call.**  `request_recv_callback` is its
    request line followed by `fop.open` and what comes behind it. -/
theorem request_conn_eq (addr : UInt32) (port : UInt16) :
    (requestRecvCallback e p addr port).conn
      = (requestLine e p filename mode).call.bind fun call => e.argMalloc.map fun stale =>
          afterOpen e (p.u16 0) addr port
            ((Conn.allocated stale).tftpFileOpen e call.filename.cString call.write) := by
  by_cases hreach : IsRequest p ∧ (¬ FilenameTooLong p ∧ ¬ ModeTooLong p) ∧ e.argMalloc ≠ none
  · have hcall := (requestLine_call_iff e p filename mode _).mpr ⟨hreach, rfl⟩
    obtain ⟨hrq, ⟨hname, hmode⟩, hmem⟩ := hreach
    obtain ⟨stale, hstale⟩ := Option.ne_none_iff_exists'.mp hmem
    obtain ⟨f, m, rest, hline, hf, hm⟩ := exists_line_iff.mp ⟨hname, hmode⟩
    have hop : ¬ (p.u16 0 ≠ tftpRrq ∧ p.u16 0 ≠ tftpWrq) := fun h => hrq.elim h.1 h.2
    -- the name `f_open` sees is the string in the array
    have hstring : (filenameBytes p).takeWhile (· ≠ 0)
        = (filename.memcpy 0 (filenameBytes p)).cString := by
      rw [(strings_of_line p filename mode hline hf hm).1, filenameBytes_line hline,
        List.takeWhile_append_of_pos fun x hx => by
          rw [decide_eq_true_eq]
          exact fun hx0 => hline.filename (hx0 ▸ hx)]
      simp
    rw [hcall]
    simp only [Option.bind_some, hstale, Option.map_some, requestRecvCallback, if_neg hop,
      if_neg hname, if_neg hmode, ← hstring, afterOpen]
    split
    · rfl
    · split <;> rfl
  · have hcall : (requestLine e p filename mode).call = none := by
      cases hc : (requestLine e p filename mode).call with
      | none => rfl
      | some call => exact absurd ((requestLine_call_iff e p filename mode call).mp hc).1 hreach
    rw [hcall, Option.bind_none]
    simp only [requestRecvCallback]
    by_cases hop : p.u16 0 ≠ tftpRrq ∧ p.u16 0 ≠ tftpWrq
    · rw [if_pos hop]
    rw [if_neg hop]
    by_cases hname : FilenameTooLong p
    · rw [if_pos hname]
    rw [if_neg hname]
    by_cases hmode : ModeTooLong p
    · rw [if_pos hmode]
    rw [if_neg hmode]
    cases hstale : e.argMalloc with
    | none => rfl
    | some stale =>
        have hrq : IsRequest p := by
          by_contra hcon
          exact hop (not_or.mp hcon)
        have hmem : e.argMalloc ≠ none := by
          rw [hstale]
          exact Option.some_ne_none stale
        exact absurd ⟨hrq, ⟨hname, hmode⟩, hmem⟩ hreach

end Call

/-- The request for the file `f` in mode `o`, with the opcode given, in two pbufs:
    the first holds `n` bytes, and `behind` stands behind it. -/
def cutRq (opcode : UInt16) (n : Nat) (behind : UInt8) : Pbuf where
  first := (storeU16 (ppHtons opcode) ++ [0x66, 0, 0x6f, 0]).take n
  next := [(storeU16 (ppHtons opcode) ++ [0x66, 0, 0x6f, 0]).drop n]
  beyond i := if i = 1 then behind else 0
  len_lt := by
    rw [List.flatten_singleton, List.take_append_drop, List.length_append, length_storeU16]
    decide

theorem line_cutRq (opcode : UInt16) (n : Nat) (behind : UInt8) :
    Line (cutRq opcode n behind) [0x66] [0x6f] [] := by
  refine ⟨?_, by decide, by decide⟩
  rw [Pbuf.payload, cutRq, List.flatten_singleton, List.take_append_drop]
  rfl

end McuFirmware.Tftp
