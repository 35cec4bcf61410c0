/-
  McuFirmware.FatFs.Syncing

  `f_sync` brings the directory entry of a file up to date and leaves nothing in the
  window.  Whoever mounts the volume afterwards and opens the entry gets the file back.
-/

import McuFirmware.FatFs.Volume

namespace McuFirmware.FatFs

open McuFirmware.Lib

variable {g : Geometry} {dirs : List Nat} {fs fs' : Fs} {fp fp' : Fil} {ch : List Nat}
  {content : List UInt8}

-- ============================================================================
-- The directory entry
-- ============================================================================

section Entry

variable {m : Memory} {a b n k v : Nat}

theorem getLE_of_below (h : a + n ≤ b) : (m.setLE a n v).getLE b k = m.getLE b k :=
  Memory.getLE_congr (Memory.setLE_agree_above h _)

theorem getLE_of_above (h : b + k ≤ a) : (m.setLE a n v).getLE b k = m.getLE b k :=
  Memory.getLE_congr (Memory.setLE_agree_below h _)

/-- The size in the entry. -/
theorem getLE_objsize (g : Geometry) (win : Memory) (dir : Nat) (hsize : fp.objsize < 256 ^ 4) :
    (updateEntry g win dir fp).getLE (dir + 28) 4 = fp.objsize := by
  rw [updateEntry, getLE_of_below (by omega), getLE_of_below (by omega),
    Memory.getLE_setLE_of_lt hsize]

/-- The low half of the start cluster. -/
theorem getLE_sclust (g : Geometry) (win : Memory) (dir : Nat) :
    (updateEntry g win dir fp).getLE (dir + 26) 2 = fp.sclust % 256 ^ 2 := by
  rw [updateEntry, getLE_of_below (by omega), getLE_of_below (by omega), getLE_of_above (by omega)]
  split
  · rw [getLE_of_below (by omega), Memory.getLE_setLE]
  · rw [Memory.getLE_setLE]

/-- The high half, on a volume of FAT32. -/
theorem getLE_sclust_high (win : Memory) (dir : Nat) (htype : g.fsType = .fat32) :
    (updateEntry g win dir fp).getLE (dir + 20) 2 = fp.sclust / 2 ^ 16 % 256 ^ 2 := by
  rw [updateEntry, getLE_of_below (by omega), getLE_of_above (by omega), getLE_of_above (by omega),
    if_pos htype, Memory.getLE_setLE]

/-- `ld_clust` of what `st_clust` stores. -/
theorem sclust_eq (g : Geometry) (win : Memory) (dir : Nat)
    (hclust : fp.sclust = 0 ∨ g.Valid fp.sclust) :
    (updateEntry g win dir fp).getLE (dir + 26) 2 +
      (if g.fsType = .fat32 then 2 ^ 16 * (updateEntry g win dir fp).getLE (dir + 20) 2 else 0) =
      fp.sclust := by
  have hlim := g.limit
  have hbound : fp.sclust < g.fsType.maxEntries := by
    have hentries := g.entries
    rcases hclust with hzero | ⟨-, hlt⟩
    · omega
    · omega
  rw [getLE_sclust]
  cases htype : g.fsType with
  | fat12 | fat16 =>
      rw [htype] at hbound
      rw [if_neg FsType.noConfusion]
      simp only [FsType.maxEntries] at hbound
      omega
  | fat32 =>
      rw [htype] at hbound
      rw [if_pos rfl, getLE_sclust_high win dir htype]
      simp only [FsType.maxEntries] at hbound
      omega

end Entry

-- ============================================================================
-- What is on the drive
-- ============================================================================

/-- The place of a directory entry. -/
structure Placed (g : Geometry) (dirs : List Nat) (sect dir : Nat) : Prop where
  inWindow : g.InWindow dirs sect
  not_inFat : ¬ g.InFat sect
  not_inCopies : ¬ g.InCopies sect
  not_isFsInfo : ¬ g.IsFsInfo sect
  fits : dir + 32 ≤ 512

/-- `sync_fs` leaves on the drive what the window has shown, FSInfo apart. -/
theorem syncFs_spec (hr : fs.Ready g dirs) :
    ∃ fs', syncFs g fs = (.ok, fs') ∧ fs'.Sound ∧
      (∀ a, ¬ g.InCopies (a / 512) → ¬ g.IsFsInfo (a / 512) → fs'.disk.bytes a = fs.view a) ∧
      ∀ a, ¬ g.InWindow dirs (a / 512) → fs'.disk.bytes a = fs.disk.bytes a := by
  rcases hsync : syncWindow g fs with ⟨res, fs₁⟩
  obtain ⟨hm, -, ⟨rfl, hclean⟩ | ⟨-, hfail⟩⟩ :=
    Fs.syncWindow_spec hr.windowed hr.dirs_valid hsync
  · have hsound := hm.sound hr.sound
    have hview (a : Nat) (ha : ¬ g.InCopies (a / 512)) : fs₁.disk.bytes a = fs.view a := by
      rw [← Fs.view_of_clean hclean, hm.view a ha]
    rw [syncFs, hsync]
    dsimp only
    by_cases hinfo : g.fsType = .fat32 ∧ fs₁.fsiFlag = some true
    · -- FSInfo is written over
      have hres := g.fsinfo hinfo.1
      have hend := g.fatEnd
      rw [if_pos hinfo, diskWrite_of_sound hsound]
      refine ⟨_, rfl, rfl, fun a hcopy hne => ?_, fun a hwin => ?_⟩
      · rw [← hview a hcopy]
        refine Memory.blit_apply_of_outside ?_
        have hsect : a / 512 ≠ g.volbase + 1 := fun heq => hne ⟨hinfo.1, heq⟩
        omega
      · rw [← hm.data a hwin]
        refine Memory.blit_apply_of_outside ?_
        have hsect : ¬ a / 512 < g.database := fun hlt => hwin (.inl hlt)
        omega
    · rw [if_neg hinfo]
      exact ⟨fs₁, rfl, hsound, fun a hcopy _ => hview a hcopy, hm.data⟩
  · exact absurd hr.sound hfail

/-- `f_sync` of a file that was changed: its clusters, its links and its entry are on the
    drive. -/
theorem fSync_spec (ho : Owns g dirs fs ch) (h : Stored g fs fp ch content)
    (hp : Placed g dirs fp.dirSect fp.dirPtr) (hmod : fp.modified = true) :
    ∃ fs' win, fSync g fs fp = (.ok, fs', { fp with dirty := false, modified := false }) ∧
      fs'.Sound ∧
      (∀ c, g.Valid c → entry g fs'.disk.bytes c = fs.fat g c) ∧
      (∀ k < ch.length * g.csize, ∀ i < 512, fs'.disk.bytes (sectorOf g ch k * 512 + i) =
        (flushed fs fp).disk.bytes (sectorOf g ch k * 512 + i)) ∧
      ∀ i < 512, fs'.disk.bytes (fp.dirSect * 512 + i) = updateEntry g win fp.dirPtr fp i := by
  obtain ⟨ho₁, -, hfat⟩ := ho.flushed h fun c hc => ⟨ho.valid c hc, fun hd => ho.apart c hd hc⟩
  rw [fSync, if_pos hmod, flush_of_sound ho.ready.sound]
  dsimp only
  generalize flushed fs fp = fs₁ at ho₁ hfat
  rcases hmove : moveWindow g fs₁ fp.dirSect with ⟨res, fs₂⟩
  obtain ⟨hm, ⟨rfl, hsect⟩ | ⟨-, hfail⟩⟩ := Fs.moveWindow_spec ho₁.ready.windowed
    ho₁.ready.dirs_valid hp.inWindow hp.not_inCopies hmove
  · have hlt := Fs.lt_noSector_of_inWindow ho₁.ready.dirs_valid hp.inWindow
    have hne : fs₂.winsect ≠ noSector := by
      rw [hsect]
      exact Nat.ne_of_lt hlt
    have hr₂ := hm.toSteady.ready ho₁.ready
    have hstore := hr₂.windowed.store_steady hne (updateEntry g fs₂.win fp.dirPtr fp)
    obtain ⟨fs₃, hcall, hsound, hview, hdata⟩ := syncFs_spec (hstore.ready hr₂)
    have hupdate : updateEntry g fs₂.win fp.dirPtr { fp with dirty := false } =
        updateEntry g fs₂.win fp.dirPtr fp := rfl
    dsimp only
    rw [hupdate, hcall]
    refine ⟨fs₃, fs₂.win, rfl, hsound, fun c hc => ?_, fun k hk i hi => ?_, fun i hi => ?_⟩
    · rw [← hfat c hc]
      refine entry_congr hc fun a ha => ?_
      have hother : a / 512 ≠ fs₂.winsect := by
        rw [hsect]
        rintro heq
        exact hp.not_inFat (heq ▸ ha)
      rw [hview a ha.not_inCopies ha.not_isFsInfo, Fs.view_store, if_neg hother,
        hm.view a ha.not_inCopies]
    · obtain ⟨c, hc, hck⟩ := exists_cluster hk
      have hdiv : (sectorOf g ch k * 512 + i) / 512 = sectorOf g ch k := by omega
      have hwin : ¬ g.InWindow dirs ((sectorOf g ch k * 512 + i) / 512) := by
        rw [hdiv]
        exact ho.not_inWindow hc (inCluster_sectorOf hck)
      exact (hdata _ hwin).trans (hm.data _ hwin)
    · have hdiv : (fp.dirSect * 512 + i) / 512 = fp.dirSect := by omega
      have hmodi : (fp.dirSect * 512 + i) % 512 = i := by omega
      rw [hview _ (by rw [hdiv]; exact hp.not_inCopies) (by rw [hdiv]; exact hp.not_isFsInfo),
        Fs.view_store, if_pos (by rw [hdiv, hsect]), hmodi]
  · exact absurd ho₁.ready.sound hfail

-- ============================================================================
-- Mounting and opening again
-- ============================================================================

/-- The file system object of a volume that is mounted: the window holds nothing yet. -/
def mounted (disk : Disk) (lastClst freeClst : Nat) (fsiFlag : Option Bool) (win : Memory) : Fs :=
  ⟨lastClst, freeClst, fsiFlag, noSector, win, false, disk⟩

/-- `f_sync`, and the entry opened after the volume was mounted again. -/
theorem Held.reopened {d : Doc} (h : Held g dirs fs fp ch d)
    (hp : Placed g dirs fp.dirSect fp.dirPtr) (hmod : fp.modified = true) (last free : Nat)
    (flag : Option Bool) (win : Memory) (read write : Bool) :
    ∃ fs₁ fp₁ fs₂, fSync g fs fp = (.ok, fs₁, fp₁) ∧
      moveWindow g (mounted fs₁.disk last free flag win) fp.dirSect = (.ok, fs₂) ∧
      Held g dirs fs₂ (openEntry g fs₂ fp.dirPtr read write) ch ⟨d.content, 0, read, write⟩ := by
  have ho := h.owns
  obtain ⟨fs₁, old, hsync, hsound, hfat, hbytes, hentry⟩ := fSync_spec ho h.stored hp hmod
  generalize hR : mounted fs₁.disk last free flag win = R
  have hview : R.view = fs₁.disk.bytes := by
    funext a
    rw [← hR]
    exact Fs.view_of_clean rfl a
  have hready : R.Ready g dirs := by
    rw [← hR]
    exact ⟨⟨fun hne => absurd rfl hne, fun hd => absurd hd Bool.false_ne_true,
      fun _ hne => absurd rfl hne⟩, hsound, ho.ready.dirs_valid⟩
  have hfatR (c : Nat) (hc : g.Valid c) : R.fat g c = fs.fat g c := by
    rw [Fs.fat, hview, hfat c hc]
  have hoR : Owns g dirs R ch := by
    refine ⟨hready, ho.valid, ho.nodup, ho.linked.congr fun c hc => hfatR c (ho.valid c hc),
      ho.apart, fun c hc => ?_, fun c hc => ?_⟩
    · rw [hfatR c (ho.ready.dirs_valid c hc)]
      exact ho.used c hc
    · rw [hfatR c hc]
      exact ho.proper c hc
  have hstoredR : Stored g R { fp with dirty := false } ch d.content := by
    refine h.stored.flushed.frame fun k hk i hi => ?_
    rw [← hR]
    exact hbytes k hk i hi
  -- the entry is found in the window
  rcases hmove : moveWindow g R fp.dirSect with ⟨res, fs₂⟩
  obtain ⟨hm, ⟨rfl, hsect⟩ | ⟨-, hfail⟩⟩ :=
    Fs.moveWindow_spec hready.windowed hready.dirs_valid hp.inWindow hp.not_inCopies hmove
  · refine ⟨fs₁, _, fs₂, hsync, by rw [hR, hmove], ?_⟩
    have hlt := Fs.lt_noSector_of_inWindow hready.dirs_valid hp.inWindow
    have hwin (i : Nat) (hi : i < 512) : fs₂.win i = updateEntry g old fp.dirPtr fp i := by
      have hdiv : (fs₂.winsect * 512 + i) / 512 = fp.dirSect := by omega
      rw [← hm.windowed.view_eq (by rw [hsect]; exact Nat.ne_of_lt hlt)
        (by rw [hsect]; exact hp.not_isFsInfo) hi,
        hm.view _ (by rw [hdiv]; exact hp.not_inCopies), hview, hsect, hentry i hi]
    have hget (j n : Nat) (hj : j + n ≤ 32) : fs₂.win.getLE (fp.dirPtr + j) n =
        (updateEntry g old fp.dirPtr fp).getLE (fp.dirPtr + j) n := by
      have hfits := hp.fits
      exact Memory.getLE_shift fun i hi => hwin _ (by omega)
    have hlong := h.stored.short
    have hclust : fp.sclust = 0 ∨ g.Valid fp.sclust := by
      rw [h.stored.start]
      cases ch with
      | nil => exact .inl rfl
      | cons c cs => exact .inr (ho.valid c List.mem_cons_self)
    have hstart : (openEntry g fs₂ fp.dirPtr read write).sclust = fp.sclust := by
      rw [openEntry]
      dsimp only
      rw [hget 26 2 (by decide), hget 20 2 (by decide), sclust_eq g old fp.dirPtr hclust]
    have hsize : (openEntry g fs₂ fp.dirPtr read write).objsize = fp.objsize := by
      rw [openEntry]
      dsimp only
      rw [hget 28 4 (by decide), getLE_objsize g old fp.dirPtr]
      rw [h.stored.size]
      omega
    have hturn :
        Stored g fs₂ { fp with dirty := false, buf := fun _ => 0, sect := 0 } ch d.content :=
      (hstoredR.moved hoR hm).turn rfl (Nat.two_pow_pos 32) fun k hk hks => by
        obtain ⟨c, hc, hck⟩ := h.stored.cluster hk
        have hlow := (inCluster_sectorOf hck).database_le
        have hres := g.reserved
        have hend := g.fatEnd
        omega
    exact ⟨hoR.moved hm, hturn.of_kept hstart hsize rfl rfl rfl,
      ⟨Nat.zero_le _, fun hpos => absurd hpos (Nat.lt_irrefl 0), fun hne => absurd rfl hne⟩,
      rfl, rfl, rfl, rfl⟩
  · exact absurd hready.sound hfail

namespace World

variable {m : Nat}

/-- No call moves a directory entry. -/
theorem run_placed {w : World m} {events : List (Fin m × FileCall)} {i : Fin m}
    (h : w.Inv g dirs) (hp : Placed g dirs (w.files i).dirSect (w.files i).dirPtr)
    (hmay : StepsMeet (step g) May w events) :
    let w' := run (step g) w events
    w'.Inv g dirs ∧ Placed g dirs (w'.files i).dirSect (w'.files i).dirPtr := by
  refine run_inv (C := May)
    (I := fun w => w.Inv g dirs ∧ Placed g dirs (w.files i).dirSect (w.files i).dirPtr)
    (fun w e hinv hok => ?_) ⟨h, hp⟩ hmay
  obtain ⟨hnext, -, -, hdir⟩ := step_spec hinv.1 hok
  rw [(hdir i).1, (hdir i).2]
  exact ⟨hnext, hinv.2⟩

/-- **A synced file survives.**  Whatever the calls on the files of the volume before, once
    `f_sync` of a changed file has returned the volume may be mounted anew: the directory
    entry leads to the bytes the file had, whatever the other files have not synced. -/
theorem synced_file_survives (g : Geometry) (dirs : List Nat) (w : World m)
    (events : List (Fin m × FileCall)) (i : Fin m) (btr last free : Nat) (flag : Option Bool)
    (win : Memory) (h : w.Inv g dirs)
    (hp : Placed g dirs (w.files i).dirSect (w.files i).dirPtr)
    (hmay : StepsMeet (step g) May w events)
    (hmod : ((run (step g) w events).files i).modified = true) :
    let w' := run (step g) w events
    let synced := fSync g w'.fs (w'.files i)
    let opened := moveWindow g (mounted synced.2.1.disk last free flag win) (w'.files i).dirSect
    let found := fRead g opened.2 (openEntry g opened.2 (w'.files i).dirPtr true false) btr
    synced.1 = .ok ∧ opened.1 = .ok ∧ found.1 = .ok ∧
      found.2.1 = (w'.docs i).content.take btr := by
  obtain ⟨⟨chains, hheld, -⟩, hplace⟩ := run_placed h hp hmay
  obtain ⟨fs₁, fp₁, fs₂, hsync, hmove, hopen⟩ :=
    (hheld i).reopened hplace hmod last free flag win true false
  obtain ⟨fs₃, fp₃, hread, -⟩ := fRead_spec hopen.owns hopen.stored hopen.pointed hopen.err rfl btr
  dsimp only
  rw [hsync]
  dsimp only
  rw [hmove]
  dsimp only
  rw [hread]
  exact ⟨rfl, rfl, rfl, rfl⟩

/-- The second file, of three clusters, after the first one was cut. -/
theorem synced_file_survives_two :
    let events : List (Fin 2 × FileCall) := [(0, .write (List.replicate 600 4)),
      (1, .write (List.replicate 520 8)), (0, .lseek 3), (0, .truncate),
      (1, .write (List.replicate 700 9))]
    let w := run (step Ledger.floppy) twoFiles events
    let synced := fSync Ledger.floppy w.fs (w.files 1)
    let opened := moveWindow Ledger.floppy (mounted synced.2.1.disk 2 0xFFFFFFFF none fun _ => 5)
      (w.files 1).dirSect
    let found := fRead Ledger.floppy opened.2
      (openEntry Ledger.floppy opened.2 (w.files 1).dirPtr true false) 522
    (w.docs 1).content.length = 1220 ∧ synced.1 = .ok ∧ opened.1 = .ok ∧ found.1 = .ok ∧
      found.2.1 = (w.docs 1).content.take 522 :=
  ⟨by decide +kernel, synced_file_survives Ledger.floppy [] twoFiles _ 1 522 2 0xFFFFFFFF none
    (fun _ => 5) (inv_twoFiles Ledger.floppy)
    ⟨.inl (by decide), by decide, by decide, by decide, by decide⟩ (by decide +kernel)
    (by decide +kernel)⟩

end World

end McuFirmware.FatFs
