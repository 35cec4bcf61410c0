/-
  McuFirmware.FatFs.Reading

  `f_read` returns the bytes of the file from the pointer on, whether they come from the
  drive in whole sectors or from the sector of the file object, dirty or not.
-/

import McuFirmware.FatFs.Storage

namespace McuFirmware.FatFs

open McuFirmware.Lib

variable {g : Geometry} {dirs : List Nat} {fs fs' : Fs} {fp fp' : Fil} {ch : List Nat}
  {content : List UInt8} {c k n btr : Nat}

/-- What the transfers leave of a file object. -/
structure Kept (fp fp' : Fil) : Prop where
  read : fp'.read = fp.read
  write : fp'.write = fp.write
  modified : fp'.modified = fp.modified
  err : fp'.err = fp.err
  dirSect : fp'.dirSect = fp.dirSect
  dirPtr : fp'.dirPtr = fp.dirPtr

theorem Kept.refl (fp : Fil) : Kept fp fp := ⟨rfl, rfl, rfl, rfl, rfl, rfl⟩

theorem Kept.trans {fp'' : Fil} (h : Kept fp fp') (h' : Kept fp' fp'') : Kept fp fp'' :=
  ⟨h'.read.trans h.read, h'.write.trans h.write, h'.modified.trans h.modified, h'.err.trans h.err,
    h'.dirSect.trans h.dirSect, h'.dirPtr.trans h.dirPtr⟩

/-- The other fields may differ. -/
theorem Kept.of_eq {fp₀ : Fil} (h : Kept fp fp') (hread : fp.read = fp₀.read)
    (hwrite : fp.write = fp₀.write) (hmod : fp.modified = fp₀.modified) (herr : fp.err = fp₀.err)
    (hsect : fp.dirSect = fp₀.dirSect) (hptr : fp.dirPtr = fp₀.dirPtr) : Kept fp₀ fp' :=
  ⟨h.read.trans hread, h.write.trans hwrite, h.modified.trans hmod, h.err.trans herr,
    h.dirSect.trans hsect, h.dirPtr.trans hptr⟩

theorem Owns.moved (h : Owns g dirs fs ch) (hm : Fs.Moved g dirs fs fs') : Owns g dirs fs' ch :=
  h.frame (moved_touched hm fun _ => False) (fun _ _ => id) (fun _ _ => id) fun d hd => by
    rw [hm.fat_eq hd]
    exact h.proper d hd

theorem Stored.moved (h : Stored g fs fp ch content) (ho : Owns g dirs fs ch)
    (hm : Fs.Moved g dirs fs fs') : Stored g fs' fp ch content :=
  h.steady ho hm.toSteady

/-- The bytes do not depend on the cluster and the pointer. -/
theorem Stored.of_kept (h : Stored g fs fp ch content) (hs : fp'.sclust = fp.sclust)
    (ho : fp'.objsize = fp.objsize) (hd : fp'.dirty = fp.dirty) (hsect : fp'.sect = fp.sect)
    (hb : fp'.buf = fp.buf) : Stored g fs fp' ch content := by
  obtain ⟨sclust, objsize, read, write, modified, dirty, err, fptr, clust, sect, dirSect, dirPtr,
    buf⟩ := fp'
  dsimp only at hs ho hd hsect hb
  subst hs ho hd hsect hb
  exact ⟨h.start, h.size, h.short, h.room, h.data, h.sect_lt, h.dirty, h.clean⟩

-- ============================================================================
-- Places in the chain
-- ============================================================================

section Places

theorem pred_div_of_mod_ne {x m : Nat} (h : x % m ≠ 0) : (x - 1) / m = x / m := by
  rcases Nat.eq_zero_or_pos m with hm | hm
  · simp [hm]
  · have hx := Nat.div_add_mod x m
    have hlt := Nat.mod_lt x hm
    have hcomm : m * (x / m) = x / m * m := Nat.mul_comm ..
    apply Nat.div_eq_of_lt_le
    · omega
    · rw [Nat.succ_mul]
      omega

theorem pred_div_of_mod_eq {x m : Nat} (hm : 0 < m) (hx : 0 < x) (h : x % m = 0) :
    (x - 1) / m + 1 = x / m := by
  have hdiv := Nat.div_add_mod x m
  have hcomm : m * (x / m) = x / m * m := Nat.mul_comm ..
  have hpos : 0 < x / m := Nat.div_pos (Nat.le_of_dvd hx (Nat.dvd_of_mod_eq_zero h)) hm
  have hpred : (x / m - 1) * m + m = x / m * m := by
    rw [← Nat.succ_mul, Nat.succ_eq_add_one, Nat.sub_add_cancel hpos]
  have heq : (x - 1) / m = x / m - 1 := by
    apply Nat.div_eq_of_lt_le
    · omega
    · rw [Nat.succ_mul]
      omega
  omega

theorem csectOf_eq (g : Geometry) (fp : Fil) : csectOf g fp = fp.fptr / 512 % g.csize :=
  and_csize g _

/-- A sector further on in the same cluster. -/
theorem sectorOf_add (ch : List Nat) (h : k % g.csize + n < g.csize) :
    sectorOf g ch (k + n) = sectorOf g ch k + n ∧ (k + n) / g.csize = k / g.csize := by
  have hx := Nat.div_add_mod k g.csize
  have hcomm : g.csize * (k / g.csize) = k / g.csize * g.csize := Nat.mul_comm ..
  have hdiv : (k + n) / g.csize = k / g.csize := by
    apply Nat.div_eq_of_lt_le
    · omega
    · rw [Nat.succ_mul]
      omega
  have hmod : (k + n) % g.csize = k % g.csize + n := by
    have hx' := Nat.div_add_mod (k + n) g.csize
    rw [hdiv] at hx'
    omega
  refine ⟨?_, hdiv⟩
  rw [sectorOf, sectorOf, hdiv, hmod]
  omega

/-- Not on a cluster boundary the cluster is the one at hand. -/
theorem Pointed.cluster (h : Pointed g fp ch) (hpos : fp.fptr / 512 % g.csize ≠ 0)
    (hbound : fp.fptr % 512 = 0) : ch[fp.fptr / 512 / g.csize]? = some fp.clust := by
  have hne : fp.fptr / 512 ≠ 0 := fun hzero => hpos (by rw [hzero, Nat.zero_mod])
  have hclust := h.clust (by omega)
  have hpred : (fp.fptr - 1) / 512 = fp.fptr / 512 - 1 := by omega
  rwa [hpred, pred_div_of_mod_ne hpos] at hclust

end Places

/-- Every sector in front of the end of the file has its cluster. -/
theorem Stored.cluster (h : Stored g fs fp ch content) (hk : k * 512 < content.length) :
    ∃ c ∈ ch, ch[k / g.csize]? = some c :=
  exists_cluster (h.covered hk)

theorem Owns.clust2sect_eq (ho : Owns g dirs fs ch) (hc : ch[k / g.csize]? = some c) :
    clust2sect g c ≠ 0 ∧ clust2sect g c + k % g.csize = sectorOf g ch k := by
  have hvalid := ho.valid c (List.mem_of_getElem? hc)
  have hres := g.reserved
  have hend := g.fatEnd
  rw [sectorOf_eq hc, Geometry.clust2sect_eq hvalid]
  refine ⟨?_, rfl⟩
  rw [Geometry.start]
  omega

-- ============================================================================
-- A round
-- ============================================================================

/-- On a cluster boundary the next cluster of the chain is entered. -/
theorem enterRead_spec (ho : Owns g dirs fs ch) (h : Stored g fs fp ch content)
    (hp : Pointed g fp ch) (hbound : fp.fptr % 512 = 0) (hcluster : fp.fptr / 512 % g.csize = 0)
    (hlt : fp.fptr < content.length) :
    ∃ fs' c, enterRead g fs fp = (.ok (), fs', { fp with clust := c }) ∧
      ch[fp.fptr / 512 / g.csize]? = some c ∧ Fs.Moved g dirs fs fs' := by
  obtain ⟨c, hc, hck⟩ := h.cluster (k := fp.fptr / 512) (by omega)
  have hvalid := ho.valid c hc
  have hcall : ∃ fs', (if fp.fptr = 0 then (fp.sclust, fs) else getFat g fs fp.clust) = (c, fs') ∧
      Fs.Moved g dirs fs fs' := by
    by_cases hzero : fp.fptr = 0
    · rw [if_pos hzero, h.start]
      rw [hzero, Nat.zero_div] at hck
      refine ⟨fs, ?_, .refl ho.ready.windowed⟩
      rw [List.headD_eq_head?_getD, List.head?_eq_getElem?, hck, Option.getD_some]
    · have hprev := hp.clust (by omega)
      have hpred : (fp.fptr - 1) / 512 = fp.fptr / 512 - 1 := by omega
      have hstep := pred_div_of_mod_eq g.csize_pos (by omega : 0 < fp.fptr / 512) hcluster
      rw [hpred] at hprev
      rw [← hstep] at hck
      obtain ⟨fs', hget, hm⟩ := ho.ready.getFat (ho.valid _ (List.mem_of_getElem? hprev))
      rw [ho.linked.step hprev hck] at hget
      exact ⟨fs', by rw [if_neg hzero, hget], hm⟩
  obtain ⟨fs', hcall, hm⟩ := hcall
  obtain ⟨hlow, hhigh⟩ := hvalid
  have hlim := g.nFatent_le
  refine ⟨fs', c, ?_, hck, hm⟩
  rw [enterRead, hcall]
  dsimp only
  rw [if_neg (by omega), if_neg (by omega)]

/-- The bytes of the rest of a sector. -/
theorem readPart_spec (h : Stored g fs fp ch content)
    (hsect : fp.sect = sectorOf g ch (fp.fptr / 512)) (hbtr : fp.fptr + btr ≤ content.length) :
    readPart fp btr =
      (content.drop fp.fptr).take (min (512 - fp.fptr % 512) btr) := by
  refine Memory.slice_eq (by omega) fun i hi => ?_
  have hdiv : (fp.fptr + i) / 512 = fp.fptr / 512 := by omega
  have hmod : (fp.fptr + i) % 512 = fp.fptr % 512 + i := by omega
  rw [h.data _ (by omega), h.byteOf_eq (by omega) (by rw [hdiv]; exact hsect), hmod]

theorem clip_le (g : Geometry) (csect cc : Nat) (hcsect : csect < g.csize) (hcc : 0 < cc) :
    0 < clip g csect cc ∧ clip g csect cc ≤ cc ∧ csect + clip g csect cc ≤ g.csize := by
  rw [clip]
  split <;> omega

/-- Whole sectors, with the dirty one from the file object. -/
theorem readDirect_spec (ho : Owns g dirs fs ch) (h : Stored g fs fp ch content)
    (hbound : fp.fptr % 512 = 0) (hn : 0 < n) (hfit : fp.fptr / 512 % g.csize + n ≤ g.csize)
    (hlen : fp.fptr + 512 * n ≤ content.length) :
    readDirect fs fp (sectorOf g ch (fp.fptr / 512)) n =
      (.ok ((content.drop fp.fptr).take (512 * n)), fs, fp) := by
  generalize hk : fp.fptr / 512 = k at *
  obtain ⟨c, hc, hck⟩ := h.cluster (k := k) (by omega)
  have hin := inCluster_sectorOf hck
  have hmax := Geometry.start_add_csize_le (ho.valid c hc)
  have hsectors := g.sectors
  have hhere : sectorOf g ch k = g.start c + k % g.csize := sectorOf_eq hck
  have hrange : sub32 fp.sect (sectorOf g ch k) < n ↔
      sectorOf g ch k ≤ fp.sect ∧ fp.sect < sectorOf g ch k + n :=
    sub32_lt_iff h.sect_lt (by omega)
  rw [readDirect, diskRead_of_sound ho.ready.sound]
  dsimp only
  congr 2
  refine Memory.slice_eq hlen fun i hi => ?_
  have hj : k % g.csize + i / 512 < g.csize := by omega
  have hdiv : (fp.fptr + i) / 512 = k + i / 512 := by omega
  have hmod : (fp.fptr + i) % 512 = i % 512 := by omega
  obtain ⟨hsector, -⟩ := sectorOf_add ch hj
  rw [h.data _ (by omega), Nat.zero_add]
  by_cases hown : fp.dirty = true ∧ fp.sect = sectorOf g ch k + i / 512
  · -- the byte is in the sector that was laid over
    obtain ⟨hflag, hsect⟩ := hown
    have hsub : sub32 fp.sect (sectorOf g ch k) = i / 512 := by
      rw [sub32_eq (by omega) h.sect_lt]
      omega
    have hbyte : byteOf g fs fp ch (fp.fptr + i) = fp.buf (i % 512) := by
      rw [byteOf, hdiv, hsector, hmod, if_pos ⟨hflag, hsect⟩]
    have hoff : i - i / 512 * 512 = i % 512 := by omega
    rw [hbyte, hsub, if_pos ⟨hflag, by omega⟩, Memory.blit_apply_of_inside (by omega) (by omega),
      hoff]
  · have hbyte : byteOf g fs fp ch (fp.fptr + i) =
        fs.disk.bytes (sectorOf g ch k * 512 + i) := by
      have haddr : (sectorOf g ch k + i / 512) * 512 + i % 512 = sectorOf g ch k * 512 + i := by
        omega
      rw [byteOf, hdiv, hsector, hmod, if_neg hown, haddr]
    rw [hbyte]
    by_cases hlaid : fp.dirty = true ∧ sub32 fp.sect (sectorOf g ch k) < n
    · obtain ⟨hflag, hlt⟩ := hlaid
      obtain ⟨hlow, hhigh⟩ := hrange.mp hlt
      rw [if_pos ⟨hflag, hlt⟩, sub32_eq hlow h.sect_lt, Memory.blit_apply_of_outside]
      have hne : fp.sect ≠ sectorOf g ch k + i / 512 := fun heq => hown ⟨hflag, heq⟩
      omega
    · rw [if_neg hlaid]

theorem sectorOf_lt (hvalid : ∀ c ∈ ch, g.Valid c) (hk : k < ch.length * g.csize) :
    sectorOf g ch k < 2 ^ 32 := by
  obtain ⟨c, hc, hck⟩ := exists_cluster hk
  have hmax := Geometry.start_add_csize_le (hvalid c hc)
  have hlt := (inCluster_sectorOf hck).2
  have hsectors := g.sectors
  omega

/-- A clean file object may change to another sector, with the bytes of that sector where
    the file has some there. -/
theorem Stored.turn {buf : Memory} {sect : Nat} (h : Stored g fs fp ch content)
    (hflag : fp.dirty = false) (hlt : sect < 2 ^ 32)
    (hbuf : ∀ k, k * 512 < content.length → sect = sectorOf g ch k →
      ∀ i < 512, buf i = fs.disk.bytes (sect * 512 + i)) :
    Stored g fs { fp with buf := buf, sect := sect } ch content where
  start := h.start
  size := h.size
  short := h.short
  room := h.room
  data i hi := by
    rw [h.data i hi, byteOf_of_clean hflag, byteOf_of_clean]
    exact hflag
  sect_lt := hlt
  dirty hd := absurd (hflag.symm.trans hd) Bool.false_ne_true
  clean _ := hbuf

theorem fill_of_sound (hs : fs.Sound) (fp : Fil) (sect : Nat) :
    fill fs fp sect =
      (true, fs, { fp with buf := fun i => fs.disk.bytes (sect * 512 + i) }) := by
  rw [fill, diskRead_of_sound hs]

theorem loadRead_spec (ho : Owns g dirs fs ch) (h : Stored g fs fp ch content)
    (hk : k < ch.length * g.csize) :
    ∃ fs' fp', loadRead fs fp (sectorOf g ch k) = (true, fs', fp') ∧ Owns g dirs fs' ch ∧
      Stored g fs' { fp' with sect := sectorOf g ch k } ch content ∧ Kept fp fp' ∧
      fp'.fptr = fp.fptr ∧ fp'.clust = fp.clust ∧ Touched g dirs (· ∈ ch) fs fs' := by
  by_cases hsame : fp.sect = sectorOf g ch k
  · refine ⟨fs, fp, ?_, ho, ?_, .refl fp, rfl, rfl, .refl ho.ready.windowed _⟩
    · rw [loadRead, if_neg (not_not_intro hsame)]
    · rw [← hsame]
      exact h
  · obtain ⟨fs₁, hflush, ho₁, h₁, ht⟩ := flush_spec ho h
    refine ⟨fs₁, { fp with
      dirty := false
      buf := fun i => fs₁.disk.bytes (sectorOf g ch k * 512 + i) }, ?_, ho₁, ?_,
      ⟨rfl, rfl, rfl, rfl, rfl, rfl⟩, rfl, rfl, ht⟩
    · rw [loadRead, if_pos hsame, hflush]
      exact fill_of_sound ho₁.ready.sound _ _
    · exact h₁.turn rfl (sectorOf_lt ho.valid hk) fun _ _ _ _ _ => rfl

/-- The pointer moved on in the sector, or in the cluster. -/
theorem pointed_advance (hclust : ch[(fp.fptr + n - 1) / 512 / g.csize]? = some fp.clust)
    (hle : fp.fptr + n ≤ fp.objsize)
    (hsect : (fp.fptr + n) % 512 ≠ 0 → fp.sect = sectorOf g ch ((fp.fptr + n) / 512)) :
    Pointed g { fp with fptr := fp.fptr + n } ch :=
  ⟨hle, fun _ => hclust, hsect⟩

/-- One round of `f_read` gives the next bytes of the file. -/
theorem readRound_spec (ho : Owns g dirs fs ch) (h : Stored g fs fp ch content)
    (hp : Pointed g fp ch) (hpos : 0 < btr) (hbtr : fp.fptr + btr ≤ content.length) :
    ∃ n fs' fp', readRound g fs fp btr = (.ok ((content.drop fp.fptr).take n), fs', fp') ∧
      0 < n ∧ n ≤ btr ∧ Owns g dirs fs' ch ∧ Stored g fs' fp' ch content ∧ Kept fp fp' ∧
      fp'.fptr = fp.fptr ∧ Pointed g { fp' with fptr := fp'.fptr + n } ch ∧
      Touched g dirs (· ∈ ch) fs fs' := by
  have hsize := h.size
  by_cases hbound : fp.fptr % 512 = 0
  · have hcsect := Nat.mod_lt (fp.fptr / 512) g.csize_pos
    -- the cluster at hand, after the boundary
    have henter : ∃ fs₁ c, (if csectOf g fp = 0 then enterRead g fs fp else (.ok (), fs, fp)) =
        (.ok (), fs₁, { fp with clust := c }) ∧ ch[fp.fptr / 512 / g.csize]? = some c ∧
        Fs.Moved g dirs fs fs₁ := by
      rw [csectOf_eq]
      by_cases hcluster : fp.fptr / 512 % g.csize = 0
      · rw [if_pos hcluster]
        exact enterRead_spec ho h hp hbound hcluster (by omega)
      · exact ⟨fs, fp.clust, by rw [if_neg hcluster], hp.cluster hcluster hbound,
          .refl ho.ready.windowed⟩
    obtain ⟨fs₁, c, hcall, hck, hm⟩ := henter
    have ho₁ := ho.moved hm
    have h₁ : Stored g fs₁ { fp with clust := c } ch content :=
      (h.moved ho hm).of_kept rfl rfl rfl rfl rfl
    obtain ⟨hne, hsect⟩ := ho₁.clust2sect_eq hck
    rw [readRound, if_pos hbound, hcall]
    dsimp only
    rw [if_neg hne, csectOf_eq, hsect]
    by_cases hwhole : btr / 512 = 0
    · obtain ⟨fs₂, fp₂, hload, ho₂, h₂, hkept, hfptr, hclust, ht⟩ := loadRead_spec ho₁ h₁
        (h₁.covered (k := fp.fptr / 512) (by omega))
      dsimp only at hfptr
      have hmin : min (512 - fp.fptr % 512) btr = btr := by omega
      have hpart : readPart fp₂ btr = (content.drop fp.fptr).take btr := by
        have hread := readPart_spec h₂ (by dsimp only; rw [hfptr])
          (by dsimp only; omega : _ + btr ≤ content.length)
        change readPart fp₂ btr = (content.drop fp₂.fptr).take (min (512 - fp₂.fptr % 512) btr)
          at hread
        rw [hread, hfptr, hmin]
      rw [if_neg (not_not_intro hwhole), hload]
      refine ⟨btr, fs₂, { fp₂ with sect := sectorOf g ch (fp.fptr / 512) }, by rw [← hpart], hpos,
        Nat.le_refl _, ho₂, h₂, ⟨hkept.read, hkept.write, hkept.modified, hkept.err, hkept.dirSect,
        hkept.dirPtr⟩, hfptr, ?_, (moved_touched hm _).trans ht⟩
      have hobj : fp₂.objsize = content.length := h₂.size
      refine pointed_advance ?_ (by dsimp only; omega) fun _ => ?_
      · have hdiv : (fp₂.fptr + btr - 1) / 512 = fp.fptr / 512 := by omega
        dsimp only
        rw [hdiv, hck, hclust]
      · have hdiv : (fp₂.fptr + btr) / 512 = fp.fptr / 512 := by omega
        dsimp only
        rw [hdiv]
    · obtain ⟨hn, hle, hfit⟩ := clip_le g (fp.fptr / 512 % g.csize) (btr / 512) hcsect (by omega)
      generalize clip g (fp.fptr / 512 % g.csize) (btr / 512) = n at hn hle hfit
      have hread := readDirect_spec ho₁ h₁ hbound hn hfit (by dsimp only; omega)
      dsimp only at hread
      rw [if_pos hwhole, hread]
      refine ⟨512 * n, fs₁, _, rfl, by omega, by omega, ho₁, h₁, ⟨rfl, rfl, rfl, rfl, rfl, rfl⟩,
        rfl, pointed_advance ?_ (by dsimp only; omega) fun hmod => ?_, moved_touched hm _⟩
      · have hdiv : (fp.fptr + 512 * n - 1) / 512 = fp.fptr / 512 + (n - 1) := by omega
        obtain ⟨-, hsame⟩ := sectorOf_add (g := g) (k := fp.fptr / 512) (n := n - 1) ch
          (by omega)
        dsimp only
        rw [hdiv, hsame]
        exact hck
      · dsimp only at hmod
        omega
  · -- in the middle of a sector
    have hsect := hp.sect hbound
    have hclust := hp.clust (by omega)
    refine ⟨min (512 - fp.fptr % 512) btr, fs, fp, ?_, by omega, by omega, ho, h, .refl fp, rfl,
      pointed_advance ?_ (by omega) fun hmod => ?_, .refl ho.ready.windowed _⟩
    · rw [readRound, if_neg hbound, readPart_spec h hsect hbtr]
    · have hdiv : (fp.fptr + min (512 - fp.fptr % 512) btr - 1) / 512 = (fp.fptr - 1) / 512 := by
        omega
      rw [hdiv]
      exact hclust
    · have hdiv : (fp.fptr + min (512 - fp.fptr % 512) btr) / 512 = fp.fptr / 512 := by omega
      rw [hdiv]
      exact hsect

-- ============================================================================
-- f_read
-- ============================================================================

/-- The loop of `f_read` reads all the bytes. -/
theorem readLoop_spec (fuel btr : Nat) (out : List UInt8) (ho : Owns g dirs fs ch)
    (h : Stored g fs fp ch content) (hp : Pointed g fp ch)
    (hbtr : fp.fptr + btr ≤ content.length) (hfuel : btr ≤ fuel) :
    ∃ fs' fp', readLoop g fuel btr out fs fp =
        (.ok, out ++ (content.drop fp.fptr).take btr, fs', fp') ∧
      Owns g dirs fs' ch ∧ Stored g fs' fp' ch content ∧ Pointed g fp' ch ∧
      fp'.fptr = fp.fptr + btr ∧ Kept fp fp' ∧ Touched g dirs (· ∈ ch) fs fs' := by
  induction fuel generalizing btr out fs fp with
  | zero =>
      obtain rfl : btr = 0 := by omega
      refine ⟨fs, fp, ?_, ho, h, hp, rfl, .refl fp, .refl ho.ready.windowed _⟩
      rw [readLoop, List.take_zero, List.append_nil]
  | succ fuel ih =>
      by_cases hzero : btr = 0
      · refine ⟨fs, fp, ?_, ho, h, hp, by omega, .refl fp, .refl ho.ready.windowed _⟩
        rw [readLoop, if_pos hzero, hzero, List.take_zero, List.append_nil]
      · obtain ⟨n, fs₁, fp₁, hround, hn, hle, ho₁, h₁, hkept, hfptr, hp₁, ht⟩ :=
          readRound_spec ho h hp (by omega) hbtr
        have hlen : ((content.drop fp.fptr).take n).length = n := by
          rw [List.length_take, List.length_drop]
          omega
        have h₁' : Stored g fs₁ { fp₁ with fptr := fp₁.fptr + n } ch content :=
          h₁.of_kept rfl rfl rfl rfl rfl
        obtain ⟨fs₂, fp₂, hloop, ho₂, h₂, hp₂, hend, hkept₂, ht₂⟩ :=
          ih (btr - n) (out ++ (content.drop fp.fptr).take n) ho₁ h₁' hp₁ (by dsimp only; omega)
            (by omega)
        refine ⟨fs₂, fp₂, ?_, ho₂, h₂, hp₂, ?_, ?_, ht.trans ht₂⟩
        · rw [readLoop, if_neg hzero, hround]
          dsimp only
          rw [hlen, hloop]
          dsimp only
          rw [hfptr, List.append_assoc, ← List.drop_drop, ← List.take_add,
            Nat.add_sub_cancel' hle]
        · rw [hend]
          dsimp only
          omega
        · exact hkept.trans (hkept₂.of_eq rfl rfl rfl rfl rfl rfl)

/-- `f_read` returns the bytes from the pointer on, as many as there are. -/
theorem fRead_spec (ho : Owns g dirs fs ch) (h : Stored g fs fp ch content) (hp : Pointed g fp ch)
    (herr : fp.err = .ok) (hmode : fp.read = true) (btr : Nat) :
    ∃ fs' fp', fRead g fs fp btr = (.ok, (content.drop fp.fptr).take btr, fs', fp') ∧
      Owns g dirs fs' ch ∧ Stored g fs' fp' ch content ∧ Pointed g fp' ch ∧
      fp'.fptr = fp.fptr + ((content.drop fp.fptr).take btr).length ∧ Kept fp fp' ∧
      Touched g dirs (· ∈ ch) fs fs' := by
  have hsize := h.size
  have hptr := hp.ptr
  obtain ⟨fs', fp', hloop, ho', h', hp', hend, hkept, ht⟩ := readLoop_spec
    (min (content.length - fp.fptr) btr) (min (content.length - fp.fptr) btr) [] ho h hp
    (by omega) (Nat.le_refl _)
  have hmin : (if fp.objsize - fp.fptr < btr then fp.objsize - fp.fptr else btr) =
      min (content.length - fp.fptr) btr := by
    rw [hsize]
    split <;> omega
  have htake : (content.drop fp.fptr).take (min (content.length - fp.fptr) btr) =
      (content.drop fp.fptr).take btr := by
    rw [← List.length_drop, List.take_eq_take_iff]
    omega
  rw [List.nil_append, htake] at hloop
  refine ⟨fs', fp', ?_, ho', h', hp', ?_, hkept, ht⟩
  · rw [fRead, if_neg (not_not_intro herr), if_neg (by rw [hmode]; exact Bool.noConfusion)]
    dsimp only
    rw [hmin]
    exact hloop
  · rw [hend, List.length_take, List.length_drop, Nat.min_comm]

end McuFirmware.FatFs
