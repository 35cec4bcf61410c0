/-
  McuFirmware.FatFs.Volume

  Several open files on one volume, with their calls in any order.

  To its user a file is a byte array with a position (`Doc`).  The files share the FAT,
  the window and the free clusters; what a call on one of them touches (`Reach`) is its
  own or free, so that the others stay what they are.
-/

import McuFirmware.FatFs.Seeking
import McuFirmware.FatFs.Table
import McuFirmware.FatFs.Truncating
import McuFirmware.FatFs.Writing

namespace McuFirmware.FatFs

open McuFirmware.Lib

-- ============================================================================
-- Byte arrays
-- ============================================================================

/-- A file to its user. -/
structure Doc where
  content : List UInt8
  pos : Nat
  readable : Bool
  writable : Bool

/-- A call on an open file. -/
inductive FileCall
  | read (btr : Nat)
  | write (buff : List UInt8)
  | lseek (ofs : Nat)
  | truncate

/-- What a call returns: the result, the bytes read, and `*br` or `*bw`. -/
structure Reply where
  res : FResult
  bytes : List UInt8
  count : Nat
deriving DecidableEq

namespace Doc

/-- What the array answers, and what it is then; a write gets `n` bytes in. -/
def answer (d : Doc) (n : Nat) : FileCall → Reply × Doc
  | .read btr =>
      if d.readable then
        let bs := (d.content.drop d.pos).take btr
        (⟨.ok, bs, bs.length⟩, { d with pos := d.pos + bs.length })
      else (⟨.denied, [], 0⟩, d)
  | .write buff =>
      if d.writable then
        (⟨.ok, [], n⟩, { d with
          content := overwrite d.content d.pos (buff.take n)
          pos := d.pos + (buff.take n).length })
      else (⟨.denied, [], 0⟩, d)
  | .lseek ofs => (⟨.ok, [], 0⟩, { d with pos := min ofs d.content.length })
  | .truncate =>
      if d.writable then (⟨.ok, [], 0⟩, { d with content := d.content.take d.pos })
      else (⟨.denied, [], 0⟩, d)

/-- Lengths are 32-bit numbers, and no seek goes behind the end of a file that is open for
    writing: the bytes in between would be those left on the drive. -/
def May (d : Doc) : FileCall → Prop
  | .write buff => buff.length < 2 ^ 32
  | .lseek ofs => ofs ≤ d.content.length ∨ d.writable = false
  | _ => True

instance (d : Doc) : (c : FileCall) → Decidable (d.May c)
  | .read _ => isTrue trivial
  | .write buff => inferInstanceAs (Decidable (buff.length < 2 ^ 32))
  | .lseek ofs => inferInstanceAs (Decidable (ofs ≤ d.content.length ∨ d.writable = false))
  | .truncate => isTrue trivial

end Doc

-- ============================================================================
-- One file
-- ============================================================================

/-- The call on the file object. -/
def call (g : Geometry) (fs : Fs) (fp : Fil) : FileCall → Reply × Fs × Fil
  | .read btr =>
      match fRead g fs fp btr with
      | (res, bs, fs, fp) => (⟨res, bs, bs.length⟩, fs, fp)
  | .write buff =>
      match fWrite g fs fp buff with
      | (res, bw, fs, fp) => (⟨res, [], bw⟩, fs, fp)
  | .lseek ofs =>
      match fLseek g fs fp ofs with
      | (res, fs, fp) => (⟨res, [], 0⟩, fs, fp)
  | .truncate =>
      match fTruncate g fs fp with
      | (res, fs, fp) => (⟨res, [], 0⟩, fs, fp)

/-- The file object, with its chain, is the array. -/
structure Held (g : Geometry) (dirs : List Nat) (fs : Fs) (fp : Fil) (ch : List Nat) (d : Doc) :
    Prop where
  owns : Owns g dirs fs ch
  stored : Stored g fs fp ch d.content
  pointed : Pointed g fp ch
  pos : fp.fptr = d.pos
  readable : fp.read = d.readable
  writable : fp.write = d.writable
  err : fp.err = .ok

/-- A write falls short only where the volume is full or the file too long. -/
def Enough (g : Geometry) (fs' : Fs) (d : Doc) (n : Nat) (c : FileCall) : Prop :=
  ∀ buff, c = .write buff → d.writable = true → n ≤ buff.length ∧
    (n < buff.length → d.pos + buff.length < 2 ^ 32 → ∀ x, g.Valid x → fs'.fat g x ≠ 0)

section One

variable {g : Geometry} {dirs : List Nat} {fs fs' : Fs} {fp : Fil} {ch ch' : List Nat} {d : Doc}

/-- A call on the file object is the call on the array. -/
theorem call_spec (h : Held g dirs fs fp ch d) (c : FileCall) (hmay : d.May c) :
    ∃ reply fs' fp' ch', call g fs fp c = (reply, fs', fp') ∧
      reply = (d.answer reply.count c).1 ∧ Held g dirs fs' fp' ch' (d.answer reply.count c).2 ∧
      (∀ x ∈ ch', Reach g fs ch x) ∧ Touched g dirs (Reach g fs ch) fs fs' ∧
      Enough g fs' d reply.count c ∧ fp'.dirSect = fp.dirSect ∧ fp'.dirPtr = fp.dirPtr := by
  have hptr := h.pos
  have herr := h.err
  -- a call that is refused leaves everything
  have hsame : ∀ x ∈ ch, Reach g fs ch x := fun x hx => .inl hx
  have hrefl : Touched g dirs (Reach g fs ch) fs fs := .refl h.owns.ready.windowed _
  cases c with
  | read btr =>
      have henough (n : Nat) (fs' : Fs) : Enough g fs' d n (.read btr) :=
        fun buff heq => FileCall.noConfusion heq
      rw [call]
      cases hmode : d.readable with
      | true =>
          obtain ⟨fs', fp', hcall, ho', h', hp', hend, hkept, ht⟩ :=
            fRead_spec h.owns h.stored h.pointed herr (h.readable.trans hmode) btr
          rw [hcall]
          refine ⟨_, fs', fp', ch, rfl, ?_, ?_, hsame, ht.reach, henough _ _,
            hkept.dirSect, hkept.dirPtr⟩
          · rw [Doc.answer, if_pos hmode, hptr]
          · rw [Doc.answer, if_pos hmode]
            exact ⟨ho', h', hp', by rw [hend, hptr], hkept.read.trans h.readable,
              hkept.write.trans h.writable, hkept.err.trans herr⟩
      | false =>
          have hdenied : fRead g fs fp btr = (.denied, [], fs, fp) := by
            rw [fRead, if_neg (not_not_intro herr), if_pos (h.readable.trans hmode)]
          rw [hdenied]
          refine ⟨_, fs, fp, ch, rfl, ?_, ?_, hsame, hrefl, henough _ _, rfl, rfl⟩
          · simp [Doc.answer, hmode]
          · simpa [Doc.answer, hmode] using h
  | write buff =>
      rw [call]
      cases hmode : d.writable with
      | true =>
          obtain ⟨n, fs', fp', new, hcall, hle, hw, hfull⟩ :=
            fWrite_spec h.owns h.stored h.pointed herr (h.writable.trans hmode) hmay
          rw [hcall]
          refine ⟨_, fs', fp', ch ++ new, rfl, ?_, ?_, hw.reach, hw.touched, ?_,
            hw.marked.dirSect, hw.marked.dirPtr⟩
          · rw [Doc.answer, if_pos hmode]
          · have hstored := hw.stored
            rw [hptr] at hstored
            rw [Doc.answer, if_pos hmode]
            exact ⟨hw.owns, hstored, hw.pointed, by rw [hw.fptr, hptr],
              hw.marked.read.trans h.readable, hw.marked.write.trans h.writable,
              hw.marked.err.trans herr⟩
          · intro buff' heq _
            cases heq
            rw [hptr] at hfull
            exact ⟨hle, hfull⟩
      | false =>
          have hdenied : fWrite g fs fp buff = (.denied, 0, fs, fp) := by
            rw [fWrite, if_neg (not_not_intro herr), if_pos (h.writable.trans hmode)]
          rw [hdenied]
          refine ⟨_, fs, fp, ch, rfl, ?_, ?_, hsame, hrefl, ?_, rfl, rfl⟩
          · simp [Doc.answer, hmode]
          · simpa [Doc.answer, hmode] using h
          · intro _ _ hwrite
            rw [hmode] at hwrite
            cases hwrite
  | lseek ofs =>
      obtain ⟨fs', fp', hcall, ho', h', hp', hend, hkept, ht⟩ :=
        fLseek_spec h.owns h.stored h.pointed herr
          (hmay.imp_right h.writable.trans : ofs ≤ d.content.length ∨ fp.write = false)
      rw [call, hcall]
      exact ⟨_, fs', fp', ch, rfl, rfl, ⟨ho', h', hp', hend, hkept.read.trans h.readable,
        hkept.write.trans h.writable, hkept.err.trans herr⟩, hsame, ht.reach,
        fun buff heq => FileCall.noConfusion heq, hkept.dirSect, hkept.dirPtr⟩
  | truncate =>
      have henough (n : Nat) (fs' : Fs) : Enough g fs' d n .truncate :=
        fun buff heq => FileCall.noConfusion heq
      rw [call]
      cases hmode : d.writable with
      | true =>
          obtain ⟨k, fs', fp', hcall, ho', h', hp', hend, herr', hread, hwrite, hsect, hdir, ht⟩ :=
            fTruncate_spec h.owns h.stored h.pointed herr (h.writable.trans hmode)
          rw [hcall]
          refine ⟨_, fs', fp', ch.take k, rfl, ?_, ?_, fun x hx => .inl (List.mem_of_mem_take hx),
            ht.reach, henough _ _, hsect, hdir⟩
          · rw [Doc.answer, if_pos hmode]
          · rw [hptr] at h'
            rw [Doc.answer, if_pos hmode]
            exact ⟨ho', h', hp', hend.trans hptr, hread.trans h.readable, hwrite.trans h.writable,
              herr'⟩
      | false =>
          have hdenied : fTruncate g fs fp = (.denied, fs, fp) := by
            rw [fTruncate, if_neg (not_not_intro herr), if_pos (h.writable.trans hmode)]
          rw [hdenied]
          refine ⟨_, fs, fp, ch, rfl, ?_, ?_, hsame, hrefl, henough _ _, rfl, rfl⟩
          · simp [Doc.answer, hmode]
          · simpa [Doc.answer, hmode] using h

/-- A call on another file leaves this one. -/
theorem Held.other {fp₀ : Fil} {d₀ : Doc} {ch₀ ch₁ : List Nat} (h : Held g dirs fs fp ch d)
    (h₀ : Held g dirs fs fp₀ ch₀ d₀) (ho₁ : Owns g dirs fs' ch₁) (hapart : ∀ c ∈ ch, c ∉ ch₀)
    (ht : Touched g dirs (Reach g fs ch₀) fs fs') : Held g dirs fs' fp ch d := by
  have hS : ∀ c ∈ ch, ¬ Reach g fs ch₀ c := by
    rintro c hc (hin | hfree)
    · exact hapart c hc hin
    · exact h.owns.fat_ne_zero hc hfree
  have hdirs : ∀ c ∈ dirs, ¬ Reach g fs ch₀ c := by
    rintro c hc (hin | hfree)
    · exact h₀.owns.apart c hc hin
    · exact h.owns.used c hc hfree
  exact ⟨h.owns.frame ht hS hdirs ho₁.proper, h.stored.touched h.owns ht hS, h.pointed, h.pos,
    h.readable, h.writable, h.err⟩

end One

-- ============================================================================
-- Any order of calls
-- ============================================================================

/-- `m` open files on a volume, and the arrays that they should be. -/
structure World (m : Nat) where
  fs : Fs
  files : Fin m → Fil
  docs : Fin m → Doc

namespace World

variable {m : Nat}

/-- A call on file `i`; its array follows what the call reports. -/
def step (g : Geometry) (w : World m) (e : Fin m × FileCall) : World m :=
  match call g w.fs (w.files e.1) e.2 with
  | (reply, fs, fp) =>
      ⟨fs, Function.update w.files e.1 fp,
        Function.update w.docs e.1 ((w.docs e.1).answer reply.count e.2).2⟩

/-- The reply to a call. -/
def reply (g : Geometry) (w : World m) (e : Fin m × FileCall) : Reply :=
  (call g w.fs (w.files e.1) e.2).1

/-- The arrays allow the call. -/
def May (w : World m) (e : Fin m × FileCall) : Prop := (w.docs e.1).May e.2

instance (w : World m) (e : Fin m × FileCall) : Decidable (w.May e) :=
  inferInstanceAs (Decidable ((w.docs e.1).May e.2))

/-- The files hold their arrays, in chains that have no cluster in common. -/
def Inv (g : Geometry) (dirs : List Nat) (w : World m) : Prop :=
  ∃ chains : Fin m → List Nat, (∀ i, Held g dirs w.fs (w.files i) (chains i) (w.docs i)) ∧
    ∀ i j, i ≠ j → ∀ c ∈ chains i, c ∉ chains j

variable {g : Geometry} {dirs : List Nat} {w : World m} {e : Fin m × FileCall}

/-- A call is answered as the array answers it, and the files hold their arrays again. -/
theorem step_spec (h : w.Inv g dirs) (hmay : w.May e) :
    (w.step g e).Inv g dirs ∧
      w.reply g e = ((w.docs e.1).answer (w.reply g e).count e.2).1 ∧
      Enough g (w.step g e).fs (w.docs e.1) (w.reply g e).count e.2 ∧
      ∀ j, ((w.step g e).files j).dirSect = (w.files j).dirSect ∧
        ((w.step g e).files j).dirPtr = (w.files j).dirPtr := by
  obtain ⟨chains, hheld, hapart⟩ := h
  obtain ⟨i, c⟩ := e
  obtain ⟨reply, fs', fp', ch', hcall, hreply, hnew, hreach, ht, henough, hdir⟩ :=
    call_spec (hheld i) c hmay
  have hstep : w.step g (i, c) = ⟨fs', Function.update w.files i fp',
      Function.update w.docs i ((w.docs i).answer reply.count c).2⟩ := by
    rw [step, hcall]
  have hsame : w.reply g (i, c) = reply := by rw [World.reply, hcall]
  rw [hstep, hsame]
  -- a cluster the file has got was free, and so no other file's
  have hfresh (j : Fin m) (hj : j ≠ i) : ∀ x ∈ ch', x ∉ chains j := by
    intro x hx hin
    rcases hreach x hx with hown | hfree
    · exact hapart i j hj.symm x hown hin
    · exact (hheld j).owns.fat_ne_zero hin hfree
  refine ⟨⟨Function.update chains i ch', fun j => ?_, fun j k hjk => ?_⟩, hreply, henough,
    fun j => ?_⟩
  · by_cases hj : j = i
    · subst hj
      simp only [Function.update_self]
      exact hnew
    · simp only [Function.update_of_ne hj]
      exact (hheld j).other (hheld i) hnew.owns (hapart j i hj) ht
  · by_cases hj : j = i
    · have hk : k ≠ i := fun hk => hjk (hj.trans hk.symm)
      subst hj
      rw [Function.update_self, Function.update_of_ne hk]
      exact hfresh k hk
    · rw [Function.update_of_ne hj]
      by_cases hk : k = i
      · subst hk
        rw [Function.update_self]
        exact fun x hx hin => hfresh j hj x hin hx
      · rw [Function.update_of_ne hk]
        exact hapart j k hjk
  · by_cases hj : j = i
    · subst hj
      simp only [Function.update_self]
      exact hdir
    · simp only [Function.update_of_ne hj, and_self]

theorem run_inv_of_may {events : List (Fin m × FileCall)} (h : w.Inv g dirs)
    (hmay : StepsMeet (step g) May w events) : (run (step g) w events).Inv g dirs :=
  run_inv (C := May) (fun _ _ hinv hok => (step_spec hinv hok).1) h hmay

/-- **Files are byte arrays.**  Whatever calls on the files of a volume have come before, in
    whatever order: `f_read`, `f_write`, `f_lseek` and `f_truncate` on a file report what
    they would on a byte array of its own, and a write that stops early has left no free
    cluster, or reached the greatest size of a file. -/
theorem files_are_byte_arrays (g : Geometry) (dirs : List Nat) (w : World m)
    (events : List (Fin m × FileCall)) (i : Fin m) (c : FileCall) (h : w.Inv g dirs)
    (hmay : StepsMeet (step g) May w (events ++ [(i, c)])) :
    let w' := run (step g) w events
    let n := (w'.reply g (i, c)).count
    w'.reply g (i, c) = ((w'.docs i).answer n c).1 ∧
      ∀ buff, c = .write buff → (w'.docs i).writable = true → n ≤ buff.length ∧
        (n < buff.length → (w'.docs i).pos + buff.length < 2 ^ 32 →
          ∀ x, g.Valid x → (w'.step g (i, c)).fs.fat g x ≠ 0) := by
  obtain ⟨hbefore, hlast⟩ := (stepsMeet_concat w events (i, c)).mp hmay
  obtain ⟨-, hreply, henough, -⟩ := step_spec (run_inv_of_may h hbefore) hlast
  exact ⟨hreply, henough⟩

/-- Two files that are new, on a volume that is empty; the first two entries of the
    root directory are theirs. -/
def twoFiles : World 2 where
  fs := Ledger.blankFs []
  files i := ⟨0, 0, true, true, false, false, .ok, 0, 0, 0, 13, 32 * i.val, fun _ => 0⟩
  docs _ := ⟨[], 0, true, true⟩

theorem fat_blankFs (g : Geometry) (outcomes : List (Option Memory)) (c : Nat) :
    (Ledger.blankFs outcomes).fat g c = 0 := by
  have hview : (Ledger.blankFs outcomes).view = fun _ => 0 := by
    funext a
    exact if_neg fun h => Bool.false_ne_true h.1
  rw [Fs.fat, hview, entry]
  cases g.fsType with
  | fat12 | fat16 | fat32 => simp [Memory.getLE]

theorem inv_twoFiles (g : Geometry) : twoFiles.Inv g [] := by
  have howns : Owns g [] twoFiles.fs [] := by
    refine ⟨⟨Ledger.windowed_blankFs g [] [], rfl, fun c hc => absurd hc List.not_mem_nil⟩,
      fun c hc => absurd hc List.not_mem_nil, List.nodup_nil, trivial,
      fun c hc => absurd hc List.not_mem_nil, fun c hc => absurd hc List.not_mem_nil,
      fun c _ => ?_⟩
    rw [twoFiles, fat_blankFs]
    exact Nat.zero_ne_one
  have hstored (i : Fin 2) :
      Stored g twoFiles.fs (twoFiles.files i) [] (twoFiles.docs i).content :=
    ⟨rfl, rfl, Nat.two_pow_pos 32, Nat.zero_le _, fun j hj => absurd hj (Nat.not_lt_zero j),
      Nat.two_pow_pos 32, fun hd => absurd hd Bool.false_ne_true,
      fun _ k hk => absurd hk (Nat.not_lt_zero _)⟩
  have hpointed (i : Fin 2) : Pointed g (twoFiles.files i) [] :=
    ⟨Nat.le_refl _, fun hpos => absurd hpos (Nat.lt_irrefl 0), fun hmod => absurd rfl hmod⟩
  exact ⟨fun _ => [], fun i => ⟨howns, hstored i, hpointed i, rfl, rfl, rfl, rfl⟩,
    fun _ _ _ c hc => absurd hc List.not_mem_nil⟩

/-- The files share the free clusters; the second one spills over its first cluster. -/
theorem files_are_byte_arrays_two :
    let events : List (Fin 2 × FileCall) := [(0, .write [1, 2, 3]), (1, .write [9, 9]),
      (0, .lseek 1), (0, .write [7]), (1, .write (List.replicate 520 8)), (1, .lseek 515),
      (1, .truncate), (0, .lseek 0)]
    let w := run (step Ledger.floppy) twoFiles events
    (w.docs 0).content = [1, 7, 3] ∧ w.reply Ledger.floppy (0, .read 5) =
      ((w.docs 0).answer (w.reply Ledger.floppy (0, .read 5)).count (.read 5)).1 :=
  ⟨by decide +kernel, (files_are_byte_arrays Ledger.floppy [] twoFiles _ 0 (.read 5)
    (inv_twoFiles Ledger.floppy) (by decide +kernel)).1⟩

end World

end McuFirmware.FatFs
