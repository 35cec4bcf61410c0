/-
  McuFirmware.FatFs.Window

  The drive below FatFs and the window of `ff.c`: the one sector of FAT and
  directories that `move_window` keeps in memory and `sync_window` writes back,
  together with the further copies of the FAT.

  `Fs.view` is the drive as the callers of `move_window` see it, the window laid over
  the sectors.  Moving the window changes no byte of it, also where transfers fail.
-/

import McuFirmware.Lib.Memory
import McuFirmware.Lib.Word32

namespace McuFirmware.FatFs

open McuFirmware.Lib

-- ============================================================================
-- The drive
-- ============================================================================

/-- `FRESULT`, as far as it is returned here. -/
inductive FResult
  | ok
  | diskErr
  | intErr
  | denied
  | notEnoughCore
deriving DecidableEq

/-- The drive.  `outcomes` says how the next transfers end: `none` is a success, and a
    failed transfer leaves the given bytes at its destination.  Once the list is used
    up, all succeed. -/
structure Disk where
  bytes : Memory
  outcomes : List (Option Memory)

/-- `disk_read`: whether it succeeds, and what it leaves in the buffer. -/
def diskRead (d : Disk) (sector : Nat) : Bool × Memory × Disk :=
  match d.outcomes.head?.join with
  | some junk => (false, junk, { d with outcomes := d.outcomes.tail })
  | none => (true, fun i => d.bytes (sector * 512 + i), { d with outcomes := d.outcomes.tail })

/-- `disk_write` of `count` sectors. -/
def diskWrite (d : Disk) (buff : Memory) (sector count : Nat) : Bool × Disk :=
  match d.outcomes.head?.join with
  | some junk => (false, ⟨d.bytes.blit (sector * 512) (count * 512) junk, d.outcomes.tail⟩)
  | none => (true, ⟨d.bytes.blit (sector * 512) (count * 512) buff, d.outcomes.tail⟩)

-- ============================================================================
-- The volume
-- ============================================================================

/-- `fs_type`, without exFAT. -/
inductive FsType
  | fat12
  | fat16
  | fat32
deriving DecidableEq

/-- `n_fatent` of the largest volume of the type. -/
def FsType.maxEntries : FsType → Nat
  | .fat12 => 0xFF7
  | .fat16 => 0xFFF7
  | .fat32 => 0x0FFFFFF7

/-- `szbfat`, the bytes of a table with `n` entries. -/
def FsType.tableBytes (n : Nat) : FsType → Nat
  | .fat12 => n * 3 / 2 + n % 2
  | .fat16 => n * 2
  | .fat32 => n * 4

/-- What `find_volume` puts into the file system object and nothing changes later, with
    what it has checked there; and of a sound volume what it does not check: the limit
    on the entries of FAT32, that the sector of the FSINFO is in front of the table
    (`fsinfo`), and that the sectors have numbers below 2^32 (`sectors`). -/
structure Geometry where
  fsType : FsType
  csize : Nat
  nFats : Nat
  nFatent : Nat
  fsize : Nat
  volbase : Nat
  fatbase : Nat
  database : Nat
  csize_pow : ∃ k, csize = 2 ^ k
  csize_le : csize ≤ 128
  fats : nFats = 1 ∨ nFats = 2
  entries : 2 < nFatent
  limit : nFatent ≤ fsType.maxEntries
  fits : fsType.tableBytes nFatent ≤ fsize * 512
  reserved : volbase < fatbase
  fsinfo : fsType = .fat32 → volbase + 1 < fatbase
  fatEnd : fatbase + nFats * fsize ≤ database
  sectors : database + (nFatent - 2) * csize < 2 ^ 32

/-- The part of `FATFS` that changes: the allocation hints and the window. -/
structure Fs where
  lastClst : Nat
  freeClst : Nat
  /-- Bit 0 of `fsi_flag`, none where bit 7 is set. -/
  fsiFlag : Option Bool
  winsect : Nat
  win : Memory
  wflag : Bool
  disk : Disk

/-- The `winsect` of a window without a sector. -/
def noSector : Nat := 0xFFFFFFFF

section Code

variable (g : Geometry)

/-- The loop of `sync_window` over the further copies of the FAT. -/
def reflect (win : Memory) : Nat → Nat → Disk → Disk
  | 0, _, d => d
  | nf + 1, wsect, d =>
      reflect win nf (wsect + g.fsize) (diskWrite d win (wsect + g.fsize) 1).2

def syncWindow (fs : Fs) : FResult × Fs :=
  if fs.wflag then
    match diskWrite fs.disk fs.win fs.winsect 1 with
    | (false, d) => (.diskErr, { fs with disk := d })
    | (true, d) =>
        (.ok, { fs with
          wflag := false
          disk :=
            if sub32 fs.winsect g.fatbase < g.fsize then
              reflect g fs.win (g.nFats - 1) fs.winsect d
            else d })
  else (.ok, fs)

def moveWindow (fs : Fs) (sector : Nat) : FResult × Fs :=
  if sector ≠ fs.winsect then
    match syncWindow g fs with
    | (.ok, fs) =>
        match diskRead fs.disk sector with
        | (true, win, d) => (.ok, { fs with win := win, winsect := sector, disk := d })
        | (false, win, d) => (.diskErr, { fs with win := win, winsect := noSector, disk := d })
    | (res, fs) => (res, fs)
  else (.ok, fs)

/-- `clust2sect`: the first sector of a cluster, 0 where there is none. -/
def clust2sect (clst : Nat) : Nat :=
  if sub32 clst 2 < g.nFatent - 2 then sub32 clst 2 * g.csize + g.database else 0

end Code

-- ============================================================================
-- Sectors
-- ============================================================================

namespace Geometry

variable (g : Geometry)

/-- The first copy of the FAT. -/
def InFat (s : Nat) : Prop := g.fatbase ≤ s ∧ s < g.fatbase + g.fsize

/-- The further copies. -/
def InCopies (s : Nat) : Prop :=
  g.fatbase + g.fsize ≤ s ∧ s < g.fatbase + g.nFats * g.fsize

def IsFsInfo (s : Nat) : Prop := g.fsType = .fat32 ∧ s = g.volbase + 1

/-- The first sector of cluster `c`. -/
def start (c : Nat) : Nat := (c - 2) * g.csize + g.database

def InCluster (c s : Nat) : Prop := g.start c ≤ s ∧ s < g.start c + g.csize

/-- A cluster number. -/
def Valid (c : Nat) : Prop := 2 ≤ c ∧ c < g.nFatent

/-- The sectors that the window may show: those in front of the clusters and those of
    the clusters `dirs`. -/
def InWindow (dirs : List Nat) (s : Nat) : Prop := s < g.database ∨ ∃ c ∈ dirs, g.InCluster c s

instance (s : Nat) : Decidable (g.InFat s) := inferInstanceAs (Decidable (_ ∧ _))

instance (s : Nat) : Decidable (g.InCopies s) := inferInstanceAs (Decidable (_ ∧ _))

instance (s : Nat) : Decidable (g.IsFsInfo s) := inferInstanceAs (Decidable (_ ∧ _))

instance (c : Nat) : Decidable (g.Valid c) := inferInstanceAs (Decidable (_ ∧ _))

instance (c s : Nat) : Decidable (g.InCluster c s) := inferInstanceAs (Decidable (_ ∧ _))

instance (dirs : List Nat) (s : Nat) : Decidable (g.InWindow dirs s) :=
  inferInstanceAs (Decidable (_ ∨ _))

variable {g : Geometry} {c d s : Nat} {dirs : List Nat}

theorem csize_pos (g : Geometry) : 0 < g.csize := by
  obtain ⟨k, hk⟩ := g.csize_pow
  rw [hk]
  exact Nat.two_pow_pos k

theorem fsize_le (g : Geometry) : g.fatbase + g.fsize ≤ g.fatbase + g.nFats * g.fsize := by
  rcases g.fats with h | h <;> rw [h] <;> omega

theorem start_add_csize_le (h : g.Valid c) :
    g.start c + g.csize ≤ g.database + (g.nFatent - 2) * g.csize := by
  have hstep : (c - 2 + 1) * g.csize ≤ (g.nFatent - 2) * g.csize :=
    Nat.mul_le_mul_right _ (by have := h.1; have := h.2; omega)
  rw [Nat.succ_mul] at hstep
  rw [start]
  omega

theorem InCluster.lt_noSector (h : g.InCluster c s) (hc : g.Valid c) : s < noSector := by
  have hle := start_add_csize_le hc
  have hmax := g.sectors
  have hlt := h.2
  rw [noSector]
  omega

theorem InCluster.database_le (h : g.InCluster c s) : g.database ≤ s := by
  have hle := h.1
  rw [start] at hle
  omega

/-- A sector lies in one cluster. -/
theorem InCluster.eq (h : g.InCluster c s) (h' : g.InCluster d s) (hc : g.Valid c)
    (hd : g.Valid d) : c = d := by
  have hdiv {e : Nat} (he : g.InCluster e s) : (s - g.database) / g.csize = e - 2 := by
    have hle := he.1
    have hlt := he.2
    rw [start] at hle hlt
    apply Nat.div_eq_of_lt_le
    · omega
    · rw [Nat.succ_mul]
      omega
  have heq : c - 2 = d - 2 := (hdiv h).symm.trans (hdiv h')
  have := hc.1
  have := hd.1
  omega

theorem clust2sect_eq (h : g.Valid c) : clust2sect g c = g.start c := by
  have hlim : g.nFatent ≤ 0x0FFFFFF7 := by
    have hmax := g.limit
    cases htype : g.fsType <;> rw [htype] at hmax <;> simp only [FsType.maxEntries] at hmax <;> omega
  obtain ⟨hlow, hhigh⟩ := h
  have hsub : sub32 c 2 = c - 2 := sub32_eq hlow (by omega)
  rw [clust2sect, hsub, if_pos (by omega), start]

theorem InFat.inWindow (h : g.InFat s) : g.InWindow dirs s := by
  have hend := g.fatEnd
  have hle := g.fsize_le
  have hlt := h.2
  exact .inl (by omega)

theorem InCopies.inWindow (h : g.InCopies s) : g.InWindow dirs s := by
  have hend := g.fatEnd
  have hlt := h.2
  exact .inl (by omega)

theorem InFat.not_inCopies (h : g.InFat s) : ¬ g.InCopies s := fun hc => by
  have hlt := h.2
  have hle := hc.1
  omega

theorem InFat.not_isFsInfo (h : g.InFat s) : ¬ g.IsFsInfo s := by
  rintro ⟨htype, heq⟩
  have hres := g.fsinfo htype
  have hle := h.1
  omega

end Geometry

-- ============================================================================
-- Transfers
-- ============================================================================

section Transfers

variable {d : Disk} {buff win m : Memory} {sector count a s : Nat}

theorem blit_sector (m src : Memory) (s a : Nat) :
    m.blit (s * 512) (1 * 512) src a = if a / 512 = s then src (a % 512) else m a := by
  have hiff : (s * 512 ≤ a ∧ a < s * 512 + 1 * 512) ↔ a / 512 = s := by omega
  rw [Memory.blit]
  simp only [hiff]
  split
  next h =>
    congr 1
    omega
  next => rfl

theorem diskRead_of_sound (h : d.outcomes = []) :
    diskRead d sector = (true, fun i => d.bytes (sector * 512 + i), d) := by
  obtain ⟨bytes, outcomes⟩ := d
  dsimp only at h
  rw [h]
  rfl

theorem diskWrite_of_sound (h : d.outcomes = []) :
    diskWrite d buff sector count =
      (true, ⟨d.bytes.blit (sector * 512) (count * 512) buff, []⟩) := by
  obtain ⟨bytes, outcomes⟩ := d
  dsimp only at h
  rw [h]
  rfl

theorem diskRead_cases (d : Disk) (sector : Nat) : ∃ d' : Disk, d'.bytes = d.bytes ∧
    (d.outcomes = [] → d'.outcomes = []) ∧
    (diskRead d sector = (true, fun i => d.bytes (sector * 512 + i), d') ∨
      (d.outcomes ≠ [] ∧ ∃ junk, diskRead d sector = (false, junk, d'))) := by
  refine ⟨{ d with outcomes := d.outcomes.tail }, rfl, fun h => by rw [h]; rfl, ?_⟩
  rw [diskRead]
  cases hnext : d.outcomes.head?.join with
  | none => exact .inl rfl
  | some junk =>
      refine .inr ⟨fun h => ?_, junk, rfl⟩
      rw [h] at hnext
      cases hnext

theorem diskWrite_cases (d : Disk) (buff : Memory) (sector count : Nat) :
    ∃ (stored : Memory) (rest : List (Option Memory)), (d.outcomes = [] → rest = []) ∧
      ((diskWrite d buff sector count =
          (true, ⟨d.bytes.blit (sector * 512) (count * 512) buff, rest⟩)) ∨
        (d.outcomes ≠ [] ∧ diskWrite d buff sector count =
          (false, ⟨d.bytes.blit (sector * 512) (count * 512) stored, rest⟩))) := by
  rw [diskWrite]
  cases hnext : d.outcomes.head?.join with
  | none => exact ⟨buff, d.outcomes.tail, fun h => by rw [h]; rfl, .inl rfl⟩
  | some junk =>
      refine ⟨junk, d.outcomes.tail, fun h => by rw [h]; rfl, .inr ⟨fun h => ?_, rfl⟩⟩
      rw [h] at hnext
      cases hnext

end Transfers

section Reflect

variable {g : Geometry} {win : Memory} {nf wsect a j : Nat} {d : Disk}

theorem outcomes_reflect (h : d.outcomes = []) : (reflect g win nf wsect d).outcomes = [] := by
  induction nf generalizing wsect d with
  | zero => exact h
  | succ nf ih =>
      rw [reflect, diskWrite_of_sound h]
      exact ih rfl

/-- Only the sectors of the copies are written. -/
theorem reflect_other (h : ∀ j, 1 ≤ j → j ≤ nf → a / 512 ≠ wsect + j * g.fsize) :
    (reflect g win nf wsect d).bytes a = d.bytes a := by
  induction nf generalizing wsect d with
  | zero => rfl
  | succ nf ih =>
      have hfirst : a / 512 ≠ wsect + g.fsize := by simpa using h 1 (by omega) (by omega)
      have hlater : ∀ j, 1 ≤ j → j ≤ nf → a / 512 ≠ wsect + g.fsize + j * g.fsize := by
        intro j hj hle heq
        refine h (j + 1) (by omega) (by omega) ?_
        rw [heq, Nat.succ_mul]
        omega
      rw [reflect, ih hlater]
      obtain ⟨stored, rest, -, hcall | ⟨-, hcall⟩⟩ := diskWrite_cases d win (wsect + g.fsize) 1
      all_goals
        rw [hcall]
        dsimp only
        rw [blit_sector, if_neg hfirst]

theorem reflect_copy (hsize : 0 < g.fsize) (hd : d.outcomes = []) (hj : 1 ≤ j) (hle : j ≤ nf)
    (ha : a / 512 = wsect + j * g.fsize) :
    (reflect g win nf wsect d).bytes a = win (a % 512) := by
  induction nf generalizing wsect d j with
  | zero => omega
  | succ nf ih =>
      rw [reflect, diskWrite_of_sound hd]
      by_cases hone : j = 1
      · rw [hone, Nat.one_mul] at ha
        have hbehind : ∀ i, 1 ≤ i → i ≤ nf → a / 512 ≠ wsect + g.fsize + i * g.fsize := by
          intro i hi _ heq
          have hpos := Nat.mul_le_mul_right g.fsize hi
          omega
        rw [reflect_other hbehind]
        dsimp only
        rw [blit_sector, if_pos ha]
      · refine ih rfl (by omega : 1 ≤ j - 1) (by omega) ?_
        have hstep : j * g.fsize = (j - 1) * g.fsize + g.fsize := by
          rw [← Nat.succ_mul, Nat.succ_eq_add_one, Nat.sub_add_cancel hj]
        omega

end Reflect

-- ============================================================================
-- The view through the window
-- ============================================================================

namespace Fs

/-- The drive with the window laid over it. -/
def view (fs : Fs) : Memory := fun a =>
  if fs.wflag = true ∧ a / 512 = fs.winsect then fs.win (a % 512) else fs.disk.bytes a

/-- No transfer fails any more. -/
def Sound (fs : Fs) : Prop := fs.disk.outcomes = []

/-- The window shows a sector that it may show, and where it is not dirty, what the
    sector holds.  `sync_fs` does not look whether the write of FSInfo succeeds. -/
structure Windowed (g : Geometry) (dirs : List Nat) (fs : Fs) : Prop where
  place : fs.winsect ≠ noSector → g.InWindow dirs fs.winsect ∧ ¬ g.InCopies fs.winsect
  dirty : fs.wflag = true → fs.winsect ≠ noSector
  clean : fs.wflag = false → fs.winsect ≠ noSector → ¬ g.IsFsInfo fs.winsect →
    ∀ i < 512, fs.win i = fs.disk.bytes (fs.winsect * 512 + i)

/-- The copies of the FAT on the drive are the same. -/
def Mirrored (g : Geometry) (fs : Fs) : Prop :=
  ∀ a, g.InFat (a / 512) → ∀ k < g.nFats,
    fs.disk.bytes (a + k * (g.fsize * 512)) = fs.disk.bytes a

/-- What every call for FAT and directories keeps. -/
structure Steady (g : Geometry) (dirs : List Nat) (fs fs' : Fs) : Prop where
  windowed : fs'.Windowed g dirs
  data : ∀ a, ¬ g.InWindow dirs (a / 512) → fs'.disk.bytes a = fs.disk.bytes a
  sound : fs.Sound → fs'.Sound
  mirrored : fs.Sound → fs.Mirrored g → fs'.Mirrored g

/-- What a call keeps that only moves the window. -/
structure Moved (g : Geometry) (dirs : List Nat) (fs fs' : Fs) : Prop
    extends Steady g dirs fs fs' where
  view : ∀ a, ¬ g.InCopies (a / 512) → fs'.view a = fs.view a
  last : fs'.lastClst = fs.lastClst
  free : fs'.freeClst = fs.freeClst
  flag : fs'.fsiFlag = fs.fsiFlag

variable {g : Geometry} {dirs : List Nat} {fs fs' fs'' : Fs} {res : FResult} {sector a i : Nat}

theorem Steady.trans (h : Steady g dirs fs fs') (h' : Steady g dirs fs' fs'') :
    Steady g dirs fs fs'' where
  windowed := h'.windowed
  data a ha := (h'.data a ha).trans (h.data a ha)
  sound hs := h'.sound (h.sound hs)
  mirrored hs hm := h'.mirrored (h.sound hs) (h.mirrored hs hm)

theorem Steady.refl (h : fs.Windowed g dirs) : Steady g dirs fs fs :=
  ⟨h, fun _ _ => rfl, id, fun _ hm => hm⟩

theorem Moved.refl (h : fs.Windowed g dirs) : Moved g dirs fs fs :=
  ⟨.refl h, fun _ _ => rfl, rfl, rfl, rfl⟩

theorem Moved.trans (h : Moved g dirs fs fs') (h' : Moved g dirs fs' fs'') :
    Moved g dirs fs fs'' where
  toSteady := h.toSteady.trans h'.toSteady
  view a ha := (h'.view a ha).trans (h.view a ha)
  last := h'.last.trans h.last
  free := h'.free.trans h.free
  flag := h'.flag.trans h.flag

theorem view_of_clean (h : fs.wflag = false) (a : Nat) : fs.view a = fs.disk.bytes a :=
  if_neg fun hc => Bool.false_ne_true (h.symm.trans hc.1)

/-- In its own sector the view is the window. -/
theorem Windowed.view_eq (h : fs.Windowed g dirs) (hsect : fs.winsect ≠ noSector)
    (hinfo : ¬ g.IsFsInfo fs.winsect) (hi : i < 512) :
    fs.view (fs.winsect * 512 + i) = fs.win i := by
  have hdiv : (fs.winsect * 512 + i) / 512 = fs.winsect := by omega
  have hmod : (fs.winsect * 512 + i) % 512 = i := by omega
  cases hflag : fs.wflag with
  | true => rw [view, hdiv, hmod, if_pos ⟨hflag, rfl⟩]
  | false => rw [view_of_clean hflag, h.clean hflag hsect hinfo i hi]

theorem lt_noSector_of_inWindow (hdirs : ∀ c ∈ dirs, g.Valid c) (h : g.InWindow dirs sector) :
    sector < noSector := by
  rcases h with hlt | ⟨c, hc, hin⟩
  · have hmax := g.sectors
    rw [noSector]
    omega
  · exact hin.lt_noSector (hdirs c hc)

/-- The sectors that the write-back of a sector of the FAT reaches. -/
theorem inCopies_of_reflect {s j : Nat} (hs : g.InFat s) (hj : 1 ≤ j) (hle : j ≤ g.nFats - 1) :
    g.InCopies (s + j * g.fsize) := by
  have hlow := Nat.mul_le_mul_right g.fsize hj
  have hhigh := Nat.mul_le_mul_right g.fsize hle
  have hall : (g.nFats - 1) * g.fsize + g.fsize = g.nFats * g.fsize := by
    rw [← Nat.succ_mul, Nat.succ_eq_add_one, Nat.sub_add_cancel (by rcases g.fats with h | h <;> omega)]
  obtain ⟨hge, hlt⟩ := hs
  exact ⟨by omega, by omega⟩

/-- The drive once the dirty window is written back. -/
def writtenBack (g : Geometry) (fs : Fs) (rest : List (Option Memory)) : Disk :=
  let d : Disk := ⟨fs.disk.bytes.blit (fs.winsect * 512) (1 * 512) fs.win, rest⟩
  if g.InFat fs.winsect then reflect g fs.win (g.nFats - 1) fs.winsect d else d

section WrittenBack

variable {rest : List (Option Memory)}

theorem writtenBack_other (h : ∀ j < g.nFats, a / 512 ≠ fs.winsect + j * g.fsize) :
    (writtenBack g fs rest).bytes a = fs.disk.bytes a := by
  have hfirst : a / 512 ≠ fs.winsect := by
    simpa using h 0 (by rcases g.fats with h | h <;> omega)
  have hblit : fs.disk.bytes.blit (fs.winsect * 512) (1 * 512) fs.win a = fs.disk.bytes a := by
    rw [blit_sector, if_neg hfirst]
  rw [writtenBack]
  split
  · rw [reflect_other fun j hj hle => h j (by omega)]
    exact hblit
  · exact hblit

theorem writtenBack_first (ha : ¬ g.InCopies (a / 512)) :
    (writtenBack g fs rest).bytes a =
      if a / 512 = fs.winsect then fs.win (a % 512) else fs.disk.bytes a := by
  rw [writtenBack]
  split
  next hfat =>
    rw [reflect_other fun j hj hle heq => ha (heq ▸ inCopies_of_reflect hfat hj hle)]
    exact blit_sector ..
  next => exact blit_sector ..

theorem writtenBack_copy {j : Nat} (hsize : 0 < g.fsize) (hrest : rest = [])
    (hfat : g.InFat fs.winsect) (hj : j < g.nFats) (ha : a / 512 = fs.winsect + j * g.fsize) :
    (writtenBack g fs rest).bytes a = fs.win (a % 512) := by
  by_cases hzero : j = 0
  · rw [hzero, Nat.zero_mul, Nat.add_zero] at ha
    rw [writtenBack_first (ha ▸ hfat.not_inCopies), if_pos ha]
  · rw [writtenBack, if_pos hfat]
    exact reflect_copy hsize hrest (by omega) (by omega) ha

theorem outcomes_writtenBack (h : rest = []) : (writtenBack g fs rest).outcomes = [] := by
  rw [writtenBack]
  split
  · exact outcomes_reflect h
  · exact h

/-- The copies are written together. -/
theorem mirrored_writtenBack {fs' : Fs} (hrest : rest = []) (hplace : ¬ g.InCopies fs.winsect)
    (hm : fs.Mirrored g) (hdisk : fs'.disk = writtenBack g fs rest) : fs'.Mirrored g := by
  intro a ha k hk
  have hsize : 0 < g.fsize := by
    have hge := ha.1
    have hlt := ha.2
    omega
  have hdiv : (a + k * (g.fsize * 512)) / 512 = a / 512 + k * g.fsize := by
    rw [← Nat.mul_assoc, Nat.add_mul_div_right _ _ (by decide)]
  have hmod : (a + k * (g.fsize * 512)) % 512 = a % 512 := by
    rw [← Nat.mul_assoc, Nat.add_mul_mod_self_right]
  rw [hdisk]
  by_cases heq : a / 512 = fs.winsect
  · rw [writtenBack_copy hsize hrest (heq ▸ ha) hk (by rw [hdiv, heq]), hmod,
      writtenBack_first ha.not_inCopies, if_pos heq]
  · rw [writtenBack_first ha.not_inCopies, if_neg heq, ← hm a ha k hk]
    -- the copy of another sector is not among those written
    have hother (j : Nat) (hj : j < g.nFats) :
        g.InFat fs.winsect → (a + k * (g.fsize * 512)) / 512 ≠ fs.winsect + j * g.fsize := by
      rintro ⟨hge, hlt⟩ hsame
      obtain ⟨hge', hlt'⟩ := ha
      rw [hdiv] at hsame
      have hk2 : k = 0 ∨ k = 1 := by rcases g.fats with h | h <;> omega
      have hj2 : j = 0 ∨ j = 1 := by rcases g.fats with h | h <;> omega
      rcases hk2 with rfl | rfl <;> rcases hj2 with rfl | rfl <;> omega
    by_cases hfat : g.InFat fs.winsect
    · exact writtenBack_other fun j hj => hother j hj hfat
    · rw [writtenBack, if_neg hfat]
      dsimp only
      rw [blit_sector, if_neg]
      intro hsame
      rw [hdiv] at hsame
      by_cases hzero : k = 0
      · rw [hzero, Nat.zero_mul, Nat.add_zero] at hsame
        exact heq hsame
      · exact hplace (hsame ▸ inCopies_of_reflect ha (by omega) (by omega))

end WrittenBack

/-- `sync_window`: the view stays, and the window is clean unless the write failed. -/
theorem syncWindow_spec (h : fs.Windowed g dirs) (hdirs : ∀ c ∈ dirs, g.Valid c)
    (hcall : syncWindow g fs = (res, fs')) :
    Moved g dirs fs fs' ∧ fs'.winsect = fs.winsect ∧
      (res = .ok ∧ fs'.wflag = false ∨ res = .diskErr ∧ ¬ fs.Sound) := by
  cases hflag : fs.wflag with
  | false =>
      rw [syncWindow, if_neg (by rw [hflag]; exact Bool.false_ne_true), Prod.mk.injEq] at hcall
      obtain ⟨rfl, rfl⟩ := hcall
      exact ⟨.refl h, rfl, .inl ⟨rfl, hflag⟩⟩
  | true =>
      have hplace := h.place (h.dirty hflag)
      have hlt := lt_noSector_of_inWindow hdirs hplace.1
      have hmax := g.sectors
      have hend := g.fatEnd
      have hcopies := g.fsize_le
      have hfat : sub32 fs.winsect g.fatbase < g.fsize ↔ g.InFat fs.winsect :=
        sub32_lt_iff (by rw [noSector] at hlt; omega) (by omega)
      rw [syncWindow, if_pos hflag] at hcall
      obtain ⟨stored, rest, hrest, hwrite | ⟨hfail, hwrite⟩⟩ :=
        diskWrite_cases fs.disk fs.win fs.winsect 1
      · rw [hwrite] at hcall
        simp only [Prod.mk.injEq, hfat] at hcall
        change FResult.ok = res ∧ { fs with wflag := false, disk := writtenBack g fs rest } = fs'
          at hcall
        obtain ⟨rfl, rfl⟩ := hcall
        have hview (a : Nat) (ha : ¬ g.InCopies (a / 512)) :
            (writtenBack g fs rest).bytes a = fs.view a := by
          rw [writtenBack_first ha, view]
          simp only [hflag, true_and]
        refine ⟨⟨⟨⟨fun _ => hplace, fun hdirty => absurd hdirty Bool.false_ne_true,
          fun _ _ _ i hi => ?_⟩, fun a ha => ?_, fun hs => outcomes_writtenBack (hrest hs),
          fun hs hm => mirrored_writtenBack (hrest hs) hplace.2 hm rfl⟩, fun a ha => ?_, rfl, rfl,
          rfl⟩, rfl, .inl ⟨rfl, rfl⟩⟩
        · have hdiv : (fs.winsect * 512 + i) / 512 = fs.winsect := by omega
          have hmod : (fs.winsect * 512 + i) % 512 = i := by omega
          dsimp only
          rw [writtenBack_first (hdiv.symm ▸ hplace.2), if_pos hdiv, hmod]
        · have hcopy : ¬ g.InCopies (a / 512) := fun hc => ha hc.inWindow
          have hne : a / 512 ≠ fs.winsect := fun heq => ha (heq ▸ hplace.1)
          dsimp only
          rw [writtenBack_first hcopy, if_neg hne]
        · rw [view_of_clean rfl]
          exact hview a ha
      · rw [hwrite] at hcall
        simp only [Prod.mk.injEq] at hcall
        obtain ⟨rfl, rfl⟩ := hcall
        have hbytes (a : Nat) (ha : a / 512 ≠ fs.winsect) :
            fs.disk.bytes.blit (fs.winsect * 512) (1 * 512) stored a = fs.disk.bytes a := by
          rw [blit_sector, if_neg ha]
        refine ⟨⟨⟨⟨h.place, h.dirty, fun hclean => ?_⟩, fun a ha => hbytes a ?_, fun hs => hrest hs,
          fun hs => absurd hs hfail⟩, fun a _ => ?_, rfl, rfl, rfl⟩, rfl, .inr ⟨rfl, hfail⟩⟩
        · exact absurd (hflag.symm.trans hclean) Bool.noConfusion
        · exact fun heq => ha (heq ▸ hplace.1)
        · by_cases ha : a / 512 = fs.winsect
          · simp only [view, hflag, ha, and_self, if_true]
          · simp only [view, ha, and_false, if_false]
            exact hbytes a ha

/-- `move_window`: the view stays, and the window shows the sector unless a transfer
    failed. -/
theorem moveWindow_spec (h : fs.Windowed g dirs) (hdirs : ∀ c ∈ dirs, g.Valid c)
    (hin : g.InWindow dirs sector) (hcopy : ¬ g.InCopies sector)
    (hcall : moveWindow g fs sector = (res, fs')) :
    Moved g dirs fs fs' ∧ (res = .ok ∧ fs'.winsect = sector ∨ res = .diskErr ∧ ¬ fs.Sound) := by
  by_cases hsame : sector = fs.winsect
  · rw [moveWindow, if_neg (not_not_intro hsame), Prod.mk.injEq] at hcall
    obtain ⟨rfl, rfl⟩ := hcall
    exact ⟨.refl h, .inl ⟨rfl, hsame.symm⟩⟩
  rw [moveWindow, if_pos hsame] at hcall
  rcases hsync : syncWindow g fs with ⟨res₁, fs₁⟩
  obtain ⟨hmoved, -, ⟨rfl, hclean⟩ | ⟨rfl, hfail⟩⟩ := syncWindow_spec h hdirs hsync
  · rw [hsync] at hcall
    obtain ⟨d, hbytes, hrest, hread | ⟨hfail, junk, hread⟩⟩ := diskRead_cases fs₁.disk sector
    all_goals
      dsimp only at hcall
      rw [hread, Prod.mk.injEq] at hcall
      obtain ⟨rfl, rfl⟩ := hcall
      have hmirror (hs : fs.Sound) (hm : fs.Mirrored g) (a : Nat) (ha : g.InFat (a / 512)) (k : Nat)
          (hk : k < g.nFats) : d.bytes (a + k * (g.fsize * 512)) = d.bytes a := by
        rw [hbytes]
        exact hmoved.mirrored hs hm a ha k hk
      have hview (a : Nat) (ha : ¬ g.InCopies (a / 512)) : d.bytes a = fs.view a := by
        rw [hbytes, ← view_of_clean hclean, hmoved.view a ha]
      have hdata (a : Nat) (ha : ¬ g.InWindow dirs (a / 512)) : d.bytes a = fs.disk.bytes a := by
        rw [hbytes, hmoved.data a ha]
      have hsound (hs : fs.Sound) : d.outcomes = [] := hrest (hmoved.sound hs)
      have hnot (hdirty : fs₁.wflag = true) : False :=
        Bool.false_ne_true (hclean.symm.trans hdirty)
    · refine ⟨⟨⟨⟨fun _ => ⟨hin, hcopy⟩, fun hdirty => absurd hdirty hnot, fun _ _ _ i _ => ?_⟩,
        hdata, hsound, hmirror⟩, fun a ha => ?_, hmoved.last, hmoved.free, hmoved.flag⟩,
        .inl ⟨rfl, rfl⟩⟩
      · dsimp only
        rw [hbytes]
      · refine (view_of_clean ?_ a).trans (hview a ha)
        exact hclean
    · refine ⟨⟨⟨⟨fun hne => absurd rfl hne, fun hdirty => absurd hdirty hnot,
        fun _ hne => absurd rfl hne⟩, hdata, hsound, hmirror⟩, fun a ha => ?_, hmoved.last,
        hmoved.free, hmoved.flag⟩, .inr ⟨rfl, fun hs => hfail (hmoved.sound hs)⟩⟩
      refine (view_of_clean ?_ a).trans (hview a ha)
      exact hclean
  · rw [hsync, Prod.mk.injEq] at hcall
    obtain ⟨rfl, rfl⟩ := hcall
    exact ⟨hmoved, .inr ⟨rfl, hfail⟩⟩

/-- The window with other bytes, marked as changed. -/
def store (fs : Fs) (win : Memory) : Fs := { fs with win := win, wflag := true }

theorem view_store (fs : Fs) (win : Memory) (a : Nat) :
    (fs.store win).view a = if a / 512 = fs.winsect then win (a % 512) else fs.view a := by
  by_cases ha : a / 512 = fs.winsect
  · simp only [view, store, ha, and_self, if_true]
  · simp only [view, store, ha, and_false, if_false]

theorem Windowed.getLE_win {n : Nat} (h : fs.Windowed g dirs) (hsect : fs.winsect ≠ noSector)
    (hinfo : ¬ g.IsFsInfo fs.winsect) (hi : i + n ≤ 512) :
    fs.win.getLE i n = fs.view.getLE (fs.winsect * 512 + i) n := by
  refine Memory.getLE_shift fun j hj => ?_
  rw [Nat.add_assoc, h.view_eq hsect hinfo (by omega)]

/-- A field stored in the window is stored in the view. -/
theorem Windowed.view_setLE {n v : Nat} (h : fs.Windowed g dirs) (hsect : fs.winsect ≠ noSector)
    (hinfo : ¬ g.IsFsInfo fs.winsect) (hi : i + n ≤ 512) :
    (fs.store (fs.win.setLE i n v)).view = fs.view.setLE (fs.winsect * 512 + i) n v := by
  funext a
  rw [view_store, Memory.setLE_apply, Memory.setLE_apply]
  by_cases ha : a / 512 = fs.winsect
  · have hback : fs.view a = fs.win (a % 512) := by
      rw [← h.view_eq hsect hinfo (Nat.mod_lt a (by decide) : a % 512 < 512)]
      congr 1
      omega
    rw [if_pos ha, ← hback]
    by_cases hin : i ≤ a % 512 ∧ a % 512 < i + n
    · have hsub : a % 512 - i = a - (fs.winsect * 512 + i) := by omega
      rw [if_pos hin, if_pos (by omega), hsub]
    · rw [if_neg hin, if_neg (by omega)]
  · rw [if_neg ha, if_neg (by omega)]

theorem Windowed.store_steady (h : fs.Windowed g dirs) (hsect : fs.winsect ≠ noSector)
    (win : Memory) : Steady g dirs fs (fs.store win) where
  windowed := ⟨h.place, fun _ => hsect, fun hclean => absurd hclean Bool.noConfusion⟩
  data _ _ := rfl
  sound := id
  mirrored _ hm := hm

end Fs

end McuFirmware.FatFs
