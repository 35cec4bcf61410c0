/-
  McuFirmware.FatFs.Storage

  What a file object stands for: a list of bytes, in the sectors of a chain of clusters
  and in the sector that the file object holds.

  `Owns` is about the chain on the volume, `Stored` about the bytes, `Pointed` about the
  read/write pointer.  `Touched` says for which clusters a call may have changed
  anything; all other files keep what they hold.
-/

import McuFirmware.FatFs.File

namespace McuFirmware.FatFs

open McuFirmware.Lib

-- ============================================================================
-- The sectors of a chain
-- ============================================================================

/-- Sector `k` of the file with the clusters `ch`. -/
def sectorOf (g : Geometry) (ch : List Nat) (k : Nat) : Nat :=
  g.start (ch.getD (k / g.csize) 0) + k % g.csize

section Sectors

variable {g : Geometry} {ch ch' : List Nat} {c k j : Nat}

theorem and_csize (g : Geometry) (x : Nat) : x &&& (g.csize - 1) = x % g.csize := by
  obtain ⟨n, hn⟩ := g.csize_pow
  rw [hn, Nat.and_two_pow_sub_one_eq_mod]

theorem sectorOf_eq (h : ch[k / g.csize]? = some c) :
    sectorOf g ch k = g.start c + k % g.csize := by
  rw [sectorOf, List.getD_eq_getElem?_getD, h, Option.getD_some]

theorem inCluster_sectorOf (h : ch[k / g.csize]? = some c) : g.InCluster c (sectorOf g ch k) := by
  have hlt := Nat.mod_lt k g.csize_pos
  rw [sectorOf_eq h]
  exact ⟨by omega, by omega⟩

theorem exists_cluster (h : k < ch.length * g.csize) :
    ∃ c ∈ ch, ch[k / g.csize]? = some c := by
  have hlt : k / g.csize < ch.length := Nat.div_lt_of_lt_mul (by rwa [Nat.mul_comm])
  exact ⟨ch[k / g.csize], List.getElem_mem hlt, List.getElem?_eq_getElem hlt⟩

/-- The sectors of a file are different ones. -/
theorem sectorOf_inj (hvalid : ∀ c ∈ ch, g.Valid c) (hnodup : ch.Nodup)
    (hk : k < ch.length * g.csize) (hj : j < ch.length * g.csize)
    (heq : sectorOf g ch k = sectorOf g ch j) : k = j := by
  obtain ⟨c, hc, hck⟩ := exists_cluster hk
  obtain ⟨d, hd, hdj⟩ := exists_cluster hj
  have hin := inCluster_sectorOf hck
  have hin' := inCluster_sectorOf hdj
  rw [heq] at hin
  obtain rfl := hin.eq hin' (hvalid c hc) (hvalid d hd)
  have hdiv : k / g.csize = j / g.csize := by
    have hk' : k / g.csize < ch.length := Nat.div_lt_of_lt_mul (by rwa [Nat.mul_comm])
    exact (List.getElem?_inj hk' hnodup).mp (hck.trans hdj.symm)
  have hmod : k % g.csize = j % g.csize := by
    rw [sectorOf_eq hck, sectorOf_eq hdj] at heq
    omega
  rw [← Nat.div_add_mod k g.csize, hdiv, hmod, Nat.div_add_mod]

/-- Stretching a chain leaves its sectors. -/
theorem sectorOf_append (h : k < ch.length * g.csize) :
    sectorOf g (ch ++ ch') k = sectorOf g ch k := by
  obtain ⟨c, -, hc⟩ := exists_cluster h
  have hlt : k / g.csize < ch.length := Nat.div_lt_of_lt_mul (by rwa [Nat.mul_comm])
  rw [sectorOf_eq hc, sectorOf_eq (by rw [List.getElem?_append_left hlt]; exact hc)]

end Sectors

-- ============================================================================
-- Frames
-- ============================================================================

/-- Only the clusters in `S` are touched: their entries, and their sectors. -/
structure Touched (g : Geometry) (dirs : List Nat) (S : Nat → Prop) (fs fs' : Fs) : Prop where
  windowed : fs'.Windowed g dirs
  sound : fs.Sound → fs'.Sound
  mirrored : fs.Sound → fs.Mirrored g → fs'.Mirrored g
  bytes : ∀ a, ¬ g.InWindow dirs (a / 512) → (∀ c, g.Valid c → S c → ¬ g.InCluster c (a / 512)) →
    fs'.disk.bytes a = fs.disk.bytes a
  fat_eq : ∀ c, g.Valid c → ¬ S c → fs'.fat g c = fs.fat g c
  rest : ∀ a, ¬ g.InFat (a / 512) → ¬ g.InCopies (a / 512) →
    (∀ c, g.Valid c → S c → ¬ g.InCluster c (a / 512)) → fs'.view a = fs.view a

section Frames

variable {g : Geometry} {dirs : List Nat} {S S' : Nat → Prop} {fs fs' fs'' : Fs} {f : Nat → Nat}

theorem Touched.trans (h : Touched g dirs S fs fs') (h' : Touched g dirs S fs' fs'') :
    Touched g dirs S fs fs'' where
  windowed := h'.windowed
  sound hs := h'.sound (h.sound hs)
  mirrored hs hm := h'.mirrored (h.sound hs) (h.mirrored hs hm)
  bytes a hw hS := (h'.bytes a hw hS).trans (h.bytes a hw hS)
  fat_eq c hc hS := (h'.fat_eq c hc hS).trans (h.fat_eq c hc hS)
  rest a hf hc hS := (h'.rest a hf hc hS).trans (h.rest a hf hc hS)

theorem Touched.mono (h : Touched g dirs S fs fs') (hle : ∀ c, g.Valid c → S c → S' c) :
    Touched g dirs S' fs fs' where
  windowed := h.windowed
  sound := h.sound
  mirrored := h.mirrored
  bytes a hw hS := h.bytes a hw fun c hc hin => hS c hc (hle c hc hin)
  fat_eq c hc hS := h.fat_eq c hc fun hin => hS (hle c hc hin)
  rest a hf hcopy hS := h.rest a hf hcopy fun c hc hin => hS c hc (hle c hc hin)

theorem Touched.ready (h : Touched g dirs S fs fs') (hr : fs.Ready g dirs) : fs'.Ready g dirs :=
  ⟨h.windowed, h.sound hr.sound, hr.dirs_valid⟩

theorem changed_touched (h : Fs.Changed g dirs fs fs' f)
    (hf : ∀ c, g.Valid c → ¬ S c → f c = fs.fat g c) : Touched g dirs S fs fs' where
  windowed := h.windowed
  sound := h.sound
  mirrored := h.mirrored
  bytes a hw _ := h.data a hw
  fat_eq c hc hS := (h.fat_eq c hc).trans (hf c hc hS)
  rest a hfat hcopy _ := h.rest a hfat hcopy

theorem moved_touched (h : Fs.Moved g dirs fs fs') (S : Nat → Prop) : Touched g dirs S fs fs' :=
  changed_touched h.changed fun _ _ _ => rfl

theorem Touched.refl (h : fs.Windowed g dirs) (S : Nat → Prop) : Touched g dirs S fs fs :=
  moved_touched (.refl h) S

end Frames

-- ============================================================================
-- Files
-- ============================================================================

/-- The chain `ch` on the volume. -/
structure Owns (g : Geometry) (dirs : List Nat) (fs : Fs) (ch : List Nat) : Prop where
  ready : fs.Ready g dirs
  valid : ∀ c ∈ ch, g.Valid c
  nodup : ch.Nodup
  linked : Chained (fs.fat g) g.IsEnd ch
  apart : ∀ c ∈ dirs, c ∉ ch
  used : ∀ c ∈ dirs, fs.fat g c ≠ 0
  proper : ∀ c, g.Valid c → fs.fat g c ≠ 1

/-- Byte `i` of the file, which may be in the sector of the file object. -/
def byteOf (g : Geometry) (fs : Fs) (fp : Fil) (ch : List Nat) (i : Nat) : UInt8 :=
  if fp.dirty = true ∧ fp.sect = sectorOf g ch (i / 512) then fp.buf (i % 512)
  else fs.disk.bytes (sectorOf g ch (i / 512) * 512 + i % 512)

/-- The file holds `content`. -/
structure Stored (g : Geometry) (fs : Fs) (fp : Fil) (ch : List Nat) (content : List UInt8) :
    Prop where
  start : fp.sclust = ch.headD 0
  size : fp.objsize = content.length
  short : content.length < 2 ^ 32
  room : content.length ≤ ch.length * g.csize * 512
  data : ∀ i < content.length, content.getD i 0 = byteOf g fs fp ch i
  sect_lt : fp.sect < 2 ^ 32
  dirty : fp.dirty = true → ∃ k, k * 512 < content.length ∧ fp.sect = sectorOf g ch k
  clean : fp.dirty = false → ∀ k, k * 512 < content.length → fp.sect = sectorOf g ch k →
    ∀ i < 512, fp.buf i = fs.disk.bytes (fp.sect * 512 + i)

/-- The read/write pointer, the cluster behind which it stands and the sector it is in. -/
structure Pointed (g : Geometry) (fp : Fil) (ch : List Nat) : Prop where
  ptr : fp.fptr ≤ fp.objsize
  clust : 0 < fp.fptr → ch[(fp.fptr - 1) / 512 / g.csize]? = some fp.clust
  sect : fp.fptr % 512 ≠ 0 → fp.sect = sectorOf g ch (fp.fptr / 512)

section Files

variable {g : Geometry} {dirs : List Nat} {S : Nat → Prop} {fs fs' : Fs} {fp : Fil}
  {ch : List Nat} {content : List UInt8} {c s count k i a : Nat}

/-- The window does not get into clusters other than those of directories. -/
theorem not_inWindow_of_notMem (hr : fs.Ready g dirs) (hc : g.Valid c) (hd : c ∉ dirs)
    (hs : g.InCluster c s) : ¬ g.InWindow dirs s := by
  rintro (hlt | ⟨d, hd', hin⟩)
  · exact absurd hs.database_le (Nat.not_le.mpr hlt)
  · obtain rfl := hs.eq hin hc (hr.dirs_valid d hd')
    exact hd hd'

theorem Owns.not_inWindow (h : Owns g dirs fs ch) (hc : c ∈ ch) (hs : g.InCluster c s) :
    ¬ g.InWindow dirs s :=
  not_inWindow_of_notMem h.ready (h.valid c hc) (fun hd => h.apart c hd hc) hs

/-- The entries of a chain are not 0. -/
theorem Owns.fat_ne_zero (h : Owns g dirs fs ch) (hc : c ∈ ch) : fs.fat g c ≠ 0 := by
  have hentries := g.entries
  obtain ⟨j, hj, rfl⟩ := List.mem_iff_getElem.mp hc
  by_cases hlast : j + 1 = ch.length
  · have hend : g.nFatent ≤ fs.fat g ch[j] := h.linked.last (List.getElem?_eq_getElem hj) hlast
    omega
  · have hnext : j + 1 < ch.length := by omega
    rw [h.linked.step (List.getElem?_eq_getElem hj) (List.getElem?_eq_getElem hnext)]
    have hlow := (h.valid _ (List.getElem_mem hnext)).1
    omega

/-- What touches none of its clusters leaves a chain. -/
theorem Owns.frame (h : Owns g dirs fs ch) (ht : Touched g dirs S fs fs')
    (hS : ∀ c ∈ ch, ¬ S c) (hdirs : ∀ c ∈ dirs, ¬ S c)
    (hproper : ∀ c, g.Valid c → fs'.fat g c ≠ 1) :
    Owns g dirs fs' ch where
  ready := ht.ready h.ready
  valid := h.valid
  nodup := h.nodup
  linked := h.linked.congr fun c hc => ht.fat_eq c (h.valid c hc) (hS c hc)
  apart := h.apart
  used c hc := by
    rw [ht.fat_eq c (h.ready.dirs_valid c hc) (hdirs c hc)]
    exact h.used c hc
  proper := hproper

/-- The bytes of a file rest on the sectors of its chain. -/
theorem Stored.frame (h : Stored g fs fp ch content)
    (heq : ∀ k < ch.length * g.csize, ∀ i < 512, fs'.disk.bytes (sectorOf g ch k * 512 + i) =
      fs.disk.bytes (sectorOf g ch k * 512 + i)) : Stored g fs' fp ch content where
  start := h.start
  size := h.size
  short := h.short
  room := h.room
  data i hi := by
    have hroom := h.room
    rw [h.data i hi, byteOf, byteOf, heq (i / 512) (by omega) (i % 512) (by omega)]
  sect_lt := h.sect_lt
  dirty := h.dirty
  clean hclean k hk hsect i hi := by
    have hroom := h.room
    rw [h.clean hclean k hk hsect i hi, hsect, heq k (by omega) i hi]

/-- What touches none of its clusters leaves a file. -/
theorem Stored.touched (h : Stored g fs fp ch content) (ho : Owns g dirs fs ch)
    (ht : Touched g dirs S fs fs') (hS : ∀ c ∈ ch, ¬ S c) : Stored g fs' fp ch content := by
  refine h.frame fun k hk i hi => ?_
  obtain ⟨c, hc, hck⟩ := exists_cluster hk
  have hdiv : (sectorOf g ch k * 512 + i) / 512 = sectorOf g ch k := by omega
  have hin := inCluster_sectorOf hck
  refine ht.bytes _ (by rw [hdiv]; exact ho.not_inWindow hc hin) fun d hd hSd hind => hS c hc ?_
  rw [hdiv] at hind
  rwa [hin.eq hind (ho.valid c hc) hd]

/-- Changes in the window leave a file. -/
theorem Stored.steady (h : Stored g fs fp ch content) (ho : Owns g dirs fs ch)
    (hs : Fs.Steady g dirs fs fs') : Stored g fs' fp ch content := by
  refine h.frame fun k hk i hi => ?_
  obtain ⟨c, hc, hck⟩ := exists_cluster hk
  have hdiv : (sectorOf g ch k * 512 + i) / 512 = sectorOf g ch k := by omega
  refine hs.data _ ?_
  rw [hdiv]
  exact ho.not_inWindow hc (inCluster_sectorOf hck)

/-- In its own sector the file object has the bytes. -/
theorem Stored.byteOf_eq (h : Stored g fs fp ch content) (hi : i < content.length)
    (hsect : fp.sect = sectorOf g ch (i / 512)) : byteOf g fs fp ch i = fp.buf (i % 512) := by
  cases hflag : fp.dirty with
  | true => rw [byteOf, if_pos ⟨hflag, hsect⟩]
  | false =>
      rw [byteOf, if_neg (fun hd => Bool.false_ne_true (hflag.symm.trans hd.1)),
        h.clean hflag (i / 512) (by omega) hsect _ (Nat.mod_lt _ (by decide)), hsect]

theorem byteOf_of_ne (h : fp.sect ≠ sectorOf g ch (i / 512)) :
    byteOf g fs fp ch i = fs.disk.bytes (sectorOf g ch (i / 512) * 512 + i % 512) :=
  if_neg fun hd => h hd.2

theorem byteOf_of_clean (h : fp.dirty = false) :
    byteOf g fs fp ch i = fs.disk.bytes (sectorOf g ch (i / 512) * 512 + i % 512) :=
  if_neg fun hd => Bool.false_ne_true (h.symm.trans hd.1)

/-- The volume with other bytes on the drive. -/
def written (fs : Fs) (s count : Nat) (src : Memory) : Fs :=
  { fs with disk := ⟨fs.disk.bytes.blit (s * 512) (count * 512) src, []⟩ }

theorem bytes_written_of_ne (hs : a / 512 < s ∨ s + count ≤ a / 512) (src : Memory) :
    (written fs s count src).disk.bytes a = fs.disk.bytes a :=
  Memory.blit_apply_of_outside (by omega)

theorem bytes_written (hi : i < count * 512) (src : Memory) :
    (written fs s count src).disk.bytes (s * 512 + i) = src i := by
  have hat : fs.disk.bytes.blit (s * 512) (count * 512) src (s * 512 + i) =
      src (s * 512 + i - s * 512) :=
    Memory.blit_apply_of_inside (by omega) (by omega)
  rw [Nat.add_sub_cancel_left] at hat
  exact hat

/-- A write to sectors of a cluster leaves the volume as it is otherwise. -/
theorem Owns.write_cluster (ho : Owns g dirs fs ch) (hc : g.Valid c) (hcd : c ∉ dirs)
    (hlow : g.start c ≤ s) (hhigh : s + count ≤ g.start c + g.csize) (src : Memory) :
    Owns g dirs (written fs s count src) ch ∧
      Touched g dirs (· = c) fs (written fs s count src) ∧
      ∀ d, g.Valid d → (written fs s count src).fat g d = fs.fat g d := by
  -- a byte that the window may show is not written
  have hwin (a : Nat) (ha : g.InWindow dirs (a / 512)) :
      (written fs s count src).disk.bytes a = fs.disk.bytes a := by
    refine bytes_written_of_ne ?_ src
    by_cases hbelow : a / 512 < s
    · exact .inl hbelow
    · refine .inr (Nat.le_of_not_lt fun hlt => ?_)
      exact not_inWindow_of_notMem ho.ready hc hcd ⟨by omega, by omega⟩ ha
  have hw := ho.ready.windowed
  have hwindowed : (written fs s count src).Windowed g dirs := by
    refine ⟨hw.place, hw.dirty, fun hclean hsect hinfo i hi => ?_⟩
    have hsector : (fs.winsect * 512 + i) / 512 = fs.winsect := by omega
    refine (hw.clean hclean hsect hinfo i hi).trans (hwin _ ?_).symm
    rw [hsector]
    exact (hw.place hsect).1
  have hview (a : Nat) (h : (written fs s count src).disk.bytes a = fs.disk.bytes a) :
      (written fs s count src).view a = fs.view a := by
    rw [Fs.view, Fs.view, h]
    rfl
  have hfat (d : Nat) (hd : g.Valid d) : (written fs s count src).fat g d = fs.fat g d :=
    entry_congr hd fun a ha => hview a (hwin a ha.inWindow)
  have hother (a : Nat) (h : ∀ d, g.Valid d → d = c → ¬ g.InCluster d (a / 512)) :
      (written fs s count src).disk.bytes a = fs.disk.bytes a := by
    refine bytes_written_of_ne ?_ src
    by_cases hbelow : a / 512 < s
    · exact .inl hbelow
    · refine .inr (Nat.le_of_not_lt fun hlt => h c hc rfl ⟨by omega, by omega⟩)
  have htouched : Touched g dirs (· = c) fs (written fs s count src) := by
    refine ⟨hwindowed, fun _ => rfl, fun _ hm a ha k hk => ?_, fun a _ h => hother a h,
      fun d hd _ => hfat d hd, fun a _ _ h => hview a (hother a h)⟩
    have hdiv : (a + k * (g.fsize * 512)) / 512 = a / 512 + k * g.fsize := by
      rw [← Nat.mul_assoc, Nat.add_mul_div_right _ _ (by decide)]
    have hcopy : g.InWindow dirs ((a + k * (g.fsize * 512)) / 512) := by
      rw [hdiv]
      by_cases hzero : k = 0
      · rw [hzero, Nat.zero_mul, Nat.add_zero]
        exact ha.inWindow
      · exact (Fs.inCopies_of_reflect ha (by omega) (by omega)).inWindow
    rw [hwin _ hcopy, hwin _ ha.inWindow]
    exact hm a ha k hk
  refine ⟨⟨⟨hwindowed, rfl, ho.ready.dirs_valid⟩, ho.valid, ho.nodup,
    ho.linked.congr fun d hd => hfat d (ho.valid d hd), ho.apart, fun d hd => ?_, fun d hd => ?_⟩,
    htouched, hfat⟩
  · rw [hfat d (ho.ready.dirs_valid d hd)]
    exact ho.used d hd
  · rw [hfat d hd]
    exact ho.proper d hd

theorem Owns.write (ho : Owns g dirs fs ch) (hc : c ∈ ch) (hlow : g.start c ≤ s)
    (hhigh : s + count ≤ g.start c + g.csize) (src : Memory) :
    Owns g dirs (written fs s count src) ch ∧
      Touched g dirs (· ∈ ch) fs (written fs s count src) := by
  obtain ⟨ho', ht, -⟩ :=
    ho.write_cluster (ho.valid c hc) (fun hd => ho.apart c hd hc) hlow hhigh src
  refine ⟨ho', ht.mono ?_⟩
  rintro d - rfl
  exact hc

/-- A covered sector of the file lies in one of its clusters. -/
theorem Stored.covered (h : Stored g fs fp ch content) (hk : k * 512 < content.length) :
    k < ch.length * g.csize := by
  have hroom := h.room
  omega

/-- The volume with the dirty sector on the drive. -/
def flushed (fs : Fs) (fp : Fil) : Fs :=
  if fp.dirty then written fs fp.sect 1 fp.buf else fs

theorem flush_of_sound (hs : fs.Sound) (fp : Fil) :
    flush fs fp = (true, flushed fs fp, { fp with dirty := false }) := by
  rw [flush, flushed]
  cases hflag : fp.dirty with
  | false =>
      have hsame : { fp with dirty := false } = fp := by rw [← hflag]
      rw [hsame]
      rfl
  | true =>
      rw [if_pos rfl, if_pos rfl, diskWrite_of_sound hs]
      rfl

/-- The bytes of the file stay. -/
theorem Stored.flushed (h : Stored g fs fp ch content) :
    Stored g (FatFs.flushed fs fp) { fp with dirty := false } ch content := by
  rw [FatFs.flushed]
  cases hflag : fp.dirty with
  | false =>
      have hsame : { fp with dirty := false } = fp := by rw [← hflag]
      rw [hsame]
      exact h
  | true =>
      rw [if_pos rfl]
      have hat (i : Nat) (hi : i < 512) :
          (written fs fp.sect 1 fp.buf).disk.bytes (fp.sect * 512 + i) = fp.buf i :=
        bytes_written (by omega) _
      refine ⟨h.start, h.size, h.short, h.room, fun i hi => ?_, h.sect_lt,
        fun hd => absurd hd Bool.false_ne_true, fun _ j hj hjs i hi => (hat i hi).symm⟩
      rw [byteOf_of_clean rfl, h.data i hi]
      by_cases hsame : fp.sect = sectorOf g ch (i / 512)
      · rw [h.byteOf_eq hi hsame, ← hsame, hat _ (Nat.mod_lt _ (by decide))]
      · rw [byteOf_of_ne hsame, bytes_written_of_ne]
        omega

/-- The sector may be in a cluster `ch` that the chain `ch'` no longer has. -/
theorem Owns.flushed {ch' : List Nat} (ho : Owns g dirs fs ch') (h : Stored g fs fp ch content)
    (hch : ∀ c ∈ ch, g.Valid c ∧ c ∉ dirs) :
    Owns g dirs (FatFs.flushed fs fp) ch' ∧ Touched g dirs (· ∈ ch) fs (FatFs.flushed fs fp) ∧
      ∀ d, g.Valid d → (FatFs.flushed fs fp).fat g d = fs.fat g d := by
  rw [FatFs.flushed]
  cases hflag : fp.dirty with
  | false => exact ⟨ho, .refl ho.ready.windowed _, fun _ _ => rfl⟩
  | true =>
      obtain ⟨k, hk, hsect⟩ := h.dirty hflag
      obtain ⟨c, hc, hck⟩ := exists_cluster (h.covered hk)
      have hin := inCluster_sectorOf hck
      rw [← hsect] at hin
      have hlow := hin.1
      have hhigh := hin.2
      obtain ⟨hvalid, hcd⟩ := hch c hc
      obtain ⟨ho', ht, hfat⟩ := ho.write_cluster hvalid hcd hlow (by omega : fp.sect + 1 ≤ _) fp.buf
      rw [if_pos rfl]
      refine ⟨ho', ht.mono ?_, hfat⟩
      rintro d - rfl
      exact hc

/-- The dirty sector is written back; the bytes of the file stay. -/
theorem flush_spec (ho : Owns g dirs fs ch) (h : Stored g fs fp ch content) :
    ∃ fs', flush fs fp = (true, fs', { fp with dirty := false }) ∧ Owns g dirs fs' ch ∧
      Stored g fs' { fp with dirty := false } ch content ∧ Touched g dirs (· ∈ ch) fs fs' := by
  obtain ⟨ho', ht, -⟩ := ho.flushed h fun c hc => ⟨ho.valid c hc, fun hd => ho.apart c hd hc⟩
  exact ⟨_, flush_of_sound ho.ready.sound fp, ho', h.flushed, ht⟩

end Files

end McuFirmware.FatFs
