/-
  McuFirmware.FatFs.Fat

  `get_fat` and `put_fat`: the entries of the FAT, packed into 12, 16 or 28 bits,
  behind the window.

  An entry of FAT12 shares a byte with its neighbour and may lie across two sectors.
  `entry` reads the table off the view; `put_fat` changes the entry that it is called
  for and no other one, also where a transfer fails on the way.
-/

import McuFirmware.Lib.Run
import McuFirmware.FatFs.Window

namespace McuFirmware.FatFs

open McuFirmware.Lib

-- ============================================================================
-- The code
-- ============================================================================

section Code

variable (g : Geometry)

/-- What `get_fat` returns for a failed transfer. -/
def diskError : Nat := 0xFFFFFFFF

/-- `get_fat`. -/
def getFat (fs : Fs) (clst : Nat) : Nat × Fs :=
  if clst < 2 ∨ g.nFatent ≤ clst then (1, fs)
  else
    match g.fsType with
    | .fat12 =>
        let bc := clst + clst / 2
        match moveWindow g fs (g.fatbase + bc / 512) with
        | (.ok, fs) =>
            let wc := (fs.win (bc % 512)).toNat
            match moveWindow g fs (g.fatbase + (bc + 1) / 512) with
            | (.ok, fs) =>
                let wc := wc + 256 * (fs.win ((bc + 1) % 512)).toNat
                (if clst % 2 = 1 then wc / 16 else wc % 4096, fs)
            | (_, fs) => (diskError, fs)
        | (_, fs) => (diskError, fs)
    | .fat16 =>
        match moveWindow g fs (g.fatbase + clst / 256) with
        | (.ok, fs) => (fs.win.getLE (clst * 2 % 512) 2, fs)
        | (_, fs) => (diskError, fs)
    | .fat32 =>
        match moveWindow g fs (g.fatbase + clst / 128) with
        | (.ok, fs) => (fs.win.getLE (clst * 4 % 512) 4 % 2 ^ 28, fs)
        | (_, fs) => (diskError, fs)

/-- `put_fat`. -/
def putFat (fs : Fs) (clst val : Nat) : FResult × Fs :=
  if 2 ≤ clst ∧ clst < g.nFatent then
    match g.fsType with
    | .fat12 =>
        let bc := clst + clst / 2
        match moveWindow g fs (g.fatbase + bc / 512) with
        | (.ok, fs) =>
            -- an odd entry leaves the low half of its first byte to the entry before
            let p := (fs.win (bc % 512)).toNat
            let fs := fs.store (fs.win.setLE (bc % 512) 1
              (if clst % 2 = 1 then p % 16 + 16 * (val % 16) else val))
            match moveWindow g fs (g.fatbase + (bc + 1) / 512) with
            | (.ok, fs) =>
                let p := (fs.win ((bc + 1) % 512)).toNat
                (.ok, fs.store (fs.win.setLE ((bc + 1) % 512) 1
                  (if clst % 2 = 1 then val / 16 else 16 * (p / 16) + val / 256 % 16)))
            | (res, fs) => (res, fs)
        | (res, fs) => (res, fs)
    | .fat16 =>
        match moveWindow g fs (g.fatbase + clst / 256) with
        | (.ok, fs) => (.ok, fs.store (fs.win.setLE (clst * 2 % 512) 2 val))
        | (res, fs) => (res, fs)
    | .fat32 =>
        match moveWindow g fs (g.fatbase + clst / 128) with
        | (.ok, fs) =>
            let old := fs.win.getLE (clst * 4 % 512) 4
            (.ok, fs.store (fs.win.setLE (clst * 4 % 512) 4
              (val % 2 ^ 28 + 2 ^ 28 * (old / 2 ^ 28))))
        | (res, fs) => (res, fs)
  else (.intErr, fs)

end Code

-- ============================================================================
-- The table
-- ============================================================================

/-- The number of values of an entry. -/
def FsType.span : FsType → Nat
  | .fat12 => 4096
  | .fat16 => 65536
  | .fat32 => 2 ^ 28

/-- Entry `c` of the first copy of the FAT. -/
def entry (g : Geometry) (m : Memory) (c : Nat) : Nat :=
  match g.fsType with
  | .fat12 =>
      let a := g.fatbase * 512 + (c + c / 2)
      if c % 2 = 1 then (m a).toNat / 16 + 16 * (m (a + 1)).toNat
      else (m a).toNat + 256 * ((m (a + 1)).toNat % 16)
  | .fat16 => m.getLE (g.fatbase * 512 + c * 2) 2
  | .fat32 => m.getLE (g.fatbase * 512 + c * 4) 4 % 2 ^ 28

/-- Nothing but entry `c` has changed. -/
structure Only (g : Geometry) (m m' : Memory) (c : Nat) : Prop where
  others : ∀ c', g.Valid c' → c' ≠ c → entry g m' c' = entry g m c'
  rest : ∀ a, ¬ g.InFat (a / 512) → ¬ g.InCopies (a / 512) → m' a = m a

/-- Entry `c` holds `val`, and nothing else has changed. -/
structure Entered (g : Geometry) (m m' : Memory) (c val : Nat) : Prop extends Only g m m' c where
  here : entry g m' c = val % g.fsType.span

section Table

variable {g : Geometry} {m m' : Memory} {c c' val : Nat}

/-- The bytes of an entry lie in the FAT. -/
theorem inFat_of_lt {x : Nat} (h : x < g.fsType.tableBytes g.nFatent) :
    g.InFat ((g.fatbase * 512 + x) / 512) := by
  have hfits := g.fits
  constructor <;> omega

theorem entry_lt (g : Geometry) (m : Memory) (c : Nat) : entry g m c < g.fsType.span := by
  have hbyte (a : Nat) := (m a).toNat_lt
  rw [entry]
  cases g.fsType with
  | fat12 =>
      have h0 := hbyte (g.fatbase * 512 + (c + c / 2))
      have h1 := hbyte (g.fatbase * 512 + (c + c / 2) + 1)
      dsimp only [FsType.span]
      split <;> omega
  | fat16 => exact Memory.getLE_lt m _ 2
  | fat32 => exact Nat.mod_lt _ (by decide)

/-- The last byte of an entry of FAT12. -/
theorem bytes_fat12 {n : Nat} (h : c < n) : c + c / 2 + 1 < n * 3 / 2 + n % 2 := by
  have hsplit (x : Nat) : ∃ k, x = 2 * k ∨ x = 2 * k + 1 := ⟨x / 2, by omega⟩
  obtain ⟨k, rfl | rfl⟩ := hsplit c <;> obtain ⟨j, rfl | rfl⟩ := hsplit n <;> omega

/-- The table depends on the bytes of the first copy only. -/
theorem entry_congr (hc : g.Valid c) (h : ∀ a, g.InFat (a / 512) → m' a = m a) :
    entry g m' c = entry g m c := by
  have hlt := hc.2
  have hat (x : Nat) (hx : x < g.fsType.tableBytes g.nFatent) :
      m' (g.fatbase * 512 + x) = m (g.fatbase * 512 + x) := h _ (inFat_of_lt hx)
  rw [entry, entry]
  cases htype : g.fsType with
  | fat12 =>
      rw [htype] at hat
      simp only [FsType.tableBytes] at hat
      have hlast := bytes_fat12 hlt
      dsimp only
      rw [Nat.add_assoc, hat (c + c / 2) (by omega), hat (c + c / 2 + 1) hlast]
  | fat16 =>
      rw [htype] at hat
      simp only [FsType.tableBytes] at hat
      refine Memory.getLE_shift fun i hi => ?_
      rw [Nat.add_assoc, hat (c * 2 + i) (by omega)]
  | fat32 =>
      rw [htype] at hat
      simp only [FsType.tableBytes] at hat
      dsimp only
      rw [Memory.getLE_shift fun i hi => ?_]
      rw [Nat.add_assoc, hat (c * 4 + i) (by omega)]

theorem setLE_one (m : Memory) (a x v : Nat) :
    (m.setLE a 1 v x).toNat = if x = a then v % 256 else (m x).toNat := by
  have hiff : (a ≤ x ∧ x < a + 1) ↔ x = a := by omega
  rw [Memory.setLE_apply]
  simp only [hiff]
  split
  next h => rw [h, Nat.sub_self, Nat.pow_zero, Nat.div_one, UInt8.toNat_ofNat']
  next => rfl

/-- The first byte of an entry of FAT12 and the other entries. -/
theorem entry_setLE_first (htype : g.fsType = .fat12) (hne : c' ≠ c) {v : Nat}
    (hkeep : c % 2 = 1 → v % 16 = (m (g.fatbase * 512 + (c + c / 2))).toNat % 16) :
    entry g (m.setLE (g.fatbase * 512 + (c + c / 2)) 1 v) c' = entry g m c' := by
  simp only [entry, htype, setLE_one]
  by_cases hodd : c' % 2 = 1
  · rw [if_pos hodd, if_pos hodd, if_neg (by omega), if_neg (by omega)]
  · rw [if_neg hodd, if_neg hodd, if_neg (by omega)]
    by_cases hat : g.fatbase * 512 + (c' + c' / 2) + 1 = g.fatbase * 512 + (c + c / 2)
    · have hlow := hkeep (by omega)
      rw [if_pos hat, hat]
      omega
    · rw [if_neg hat]

/-- The second byte and the other entries. -/
theorem entry_setLE_second (htype : g.fsType = .fat12) (hne : c' ≠ c) {v : Nat}
    (hkeep : c % 2 = 0 → v % 256 / 16 = (m (g.fatbase * 512 + (c + c / 2) + 1)).toNat / 16) :
    entry g (m.setLE (g.fatbase * 512 + (c + c / 2) + 1) 1 v) c' = entry g m c' := by
  simp only [entry, htype, setLE_one]
  by_cases hodd : c' % 2 = 1
  · rw [if_pos hodd, if_pos hodd, if_neg (by omega : ¬ _ + 1 = _ + 1)]
    by_cases hat : g.fatbase * 512 + (c' + c' / 2) = g.fatbase * 512 + (c + c / 2) + 1
    · have hhigh := hkeep (by omega)
      rw [if_pos hat, hat]
      omega
    · rw [if_neg hat]
  · rw [if_neg hodd, if_neg hodd, if_neg (by omega), if_neg (by omega)]

theorem setLE_rest {x n v a : Nat} (hx : x + n ≤ g.fsType.tableBytes g.nFatent)
    (ha : ¬ g.InFat (a / 512)) : m.setLE (g.fatbase * 512 + x) n v a = m a := by
  refine Memory.setLE_apply_of_outside ?_
  by_cases hbelow : a < g.fatbase * 512 + x
  · exact .inl hbelow
  · refine .inr (Nat.le_of_not_lt fun hlt => ha ?_)
    have hin := inFat_of_lt (show a - g.fatbase * 512 < g.fsType.tableBytes g.nFatent by omega)
    rwa [Nat.add_sub_cancel' (by omega)] at hin

theorem Only.trans {m₁ : Memory} (h : Only g m m₁ c) (h' : Only g m₁ m' c) : Only g m m' c where
  others c' hc' hne := (h'.others c' hc' hne).trans (h.others c' hc' hne)
  rest a hfat hcopy := (h'.rest a hfat hcopy).trans (h.rest a hfat hcopy)

/-- The table does not depend on the copies. -/
theorem Only.of_eq (c : Nat) (h : ∀ a, ¬ g.InCopies (a / 512) → m' a = m a) : Only g m m' c where
  others _ hc' _ := entry_congr hc' fun a ha => h a ha.not_inCopies
  rest a _ hcopy := h a hcopy

theorem only_first (htype : g.fsType = .fat12) (hc : g.Valid c) {v : Nat}
    (hkeep : c % 2 = 1 → v % 16 = (m (g.fatbase * 512 + (c + c / 2))).toNat % 16) :
    Only g m (m.setLE (g.fatbase * 512 + (c + c / 2)) 1 v) c where
  others _ _ hne := entry_setLE_first htype hne hkeep
  rest _ ha _ := setLE_rest (by
    have hlast := bytes_fat12 hc.2
    rw [htype, FsType.tableBytes]
    omega) ha

theorem only_second (htype : g.fsType = .fat12) (hc : g.Valid c) {v : Nat}
    (hkeep : c % 2 = 0 → v % 256 / 16 = (m (g.fatbase * 512 + (c + c / 2) + 1)).toNat / 16) :
    Only g m (m.setLE (g.fatbase * 512 + (c + c / 2) + 1) 1 v) c where
  others _ _ hne := entry_setLE_second htype hne hkeep
  rest _ ha _ := by
    rw [Nat.add_assoc]
    refine setLE_rest ?_ ha
    have hlast := bytes_fat12 hc.2
    rw [htype, FsType.tableBytes]
    omega

theorem entered_fat16 (m : Memory) (val : Nat) (htype : g.fsType = .fat16) (hc : g.Valid c) :
    Entered g m (m.setLE (g.fatbase * 512 + c * 2) 2 val) c val where
  here := by
    simp only [entry, htype]
    exact Memory.getLE_setLE
  others c' _ hne := by
    simp only [entry, htype]
    refine Memory.getLE_congr fun x hlow hhigh => Memory.setLE_apply_of_outside ?_
    omega
  rest a ha _ := setLE_rest (by have := hc.2; rw [htype, FsType.tableBytes]; omega) ha

theorem entered_fat32 (m : Memory) (val high : Nat) (htype : g.fsType = .fat32) (hc : g.Valid c) :
    Entered g m (m.setLE (g.fatbase * 512 + c * 4) 4 (val % 2 ^ 28 + 2 ^ 28 * high)) c val where
  here := by
    simp only [entry, htype, Memory.getLE_setLE, FsType.span]
    omega
  others c' _ hne := by
    simp only [entry, htype]
    rw [Memory.getLE_congr fun x hlow hhigh => Memory.setLE_apply_of_outside ?_]
    omega
  rest a ha _ := setLE_rest (by have := hc.2; rw [htype, FsType.tableBytes]; omega) ha

end Table

-- ============================================================================
-- get_fat
-- ============================================================================

namespace Fs

variable {g : Geometry} {dirs : List Nat} {fs fs' : Fs} {res : FResult} {c val v x : Nat}

/-- The window moved to byte `x` of the table. -/
theorem moveFat_spec (h : fs.Windowed g dirs) (hdirs : ∀ c ∈ dirs, g.Valid c)
    (hx : x < g.fsType.tableBytes g.nFatent)
    (hcall : moveWindow g fs (g.fatbase + x / 512) = (res, fs')) :
    Moved g dirs fs fs' ∧ (res = .ok ∧ fs'.winsect = g.fatbase + x / 512 ∨
      res = .diskErr ∧ ¬ fs.Sound) := by
  have hfat : g.InFat (g.fatbase + x / 512) := by
    have hin := inFat_of_lt hx
    rwa [Nat.add_comm (g.fatbase * 512), Nat.add_mul_div_right _ _ (by decide), Nat.add_comm] at hin
  exact moveWindow_spec h hdirs hfat.inWindow hfat.not_inCopies hcall

/-- Where the window stands at the sector of byte `x` of the table. -/
theorem at_fat (hx : x < g.fsType.tableBytes g.nFatent)
    (hsect : fs.winsect = g.fatbase + x / 512) (hdirs : ∀ c ∈ dirs, g.Valid c) :
    fs.winsect ≠ noSector ∧ ¬ g.IsFsInfo fs.winsect ∧
      fs.winsect * 512 + x % 512 = g.fatbase * 512 + x := by
  have hfat : g.InFat fs.winsect := by
    have hin := inFat_of_lt hx
    rw [Nat.add_comm (g.fatbase * 512), Nat.add_mul_div_right _ _ (by decide), Nat.add_comm] at hin
    rwa [hsect]
  exact ⟨Nat.ne_of_lt (lt_noSector_of_inWindow hdirs hfat.inWindow), hfat.not_isFsInfo, by omega⟩

/-- An aligned field of the table, read in the window. -/
theorem getLE_fat {fs₁ : Fs} {n : Nat} (hmoved : Moved g dirs fs fs₁)
    (hsect : fs₁.winsect = g.fatbase + x / 512) (hdirs : ∀ c ∈ dirs, g.Valid c)
    (hx : x + n ≤ g.fsType.tableBytes g.nFatent) (hn : 0 < n) (hfit : x % 512 + n ≤ 512) :
    fs₁.win.getLE (x % 512) n = fs.view.getLE (g.fatbase * 512 + x) n := by
  obtain ⟨hne, hinfo, haddr⟩ := at_fat (by omega) hsect hdirs
  rw [hmoved.windowed.getLE_win hne hinfo hfit, haddr]
  refine Memory.getLE_shift fun i hi => ?_
  rw [Nat.add_assoc, hmoved.view _ (inFat_of_lt (by omega)).not_inCopies]

/-- `get_fat` gives the entry of the view, or reports a failed transfer. -/
theorem getFat_spec (h : fs.Windowed g dirs) (hdirs : ∀ c ∈ dirs, g.Valid c) (hc : g.Valid c)
    (hcall : getFat g fs c = (v, fs')) :
    Moved g dirs fs fs' ∧ (v = entry g fs.view c ∨ v = diskError ∧ ¬ fs.Sound) := by
  obtain ⟨hlow, hhigh⟩ := hc
  have hsame {fs₁ : Fs} (hm : Moved g dirs fs fs₁) (y : Nat)
      (hy : y < g.fsType.tableBytes g.nFatent) :
      fs₁.view (g.fatbase * 512 + y) = fs.view (g.fatbase * 512 + y) :=
    hm.view _ (inFat_of_lt hy).not_inCopies
  rw [getFat, if_neg (by omega)] at hcall
  rw [entry]
  cases htype : g.fsType with
  | fat12 =>
      have hlast := bytes_fat12 hhigh
      have hx : c + c / 2 < g.fsType.tableBytes g.nFatent := by
        rw [htype, FsType.tableBytes]
        omega
      have hx' : c + c / 2 + 1 < g.fsType.tableBytes g.nFatent := by
        rw [htype, FsType.tableBytes]
        exact hlast
      simp only [htype] at hcall
      rcases hmove : moveWindow g fs (g.fatbase + (c + c / 2) / 512) with ⟨res₁, fs₁⟩
      rw [hmove] at hcall
      obtain ⟨hmoved, ⟨rfl, hsect⟩ | ⟨rfl, hfail⟩⟩ := moveFat_spec h hdirs hx hmove
      · dsimp only at hcall
        rcases hmove' : moveWindow g fs₁ (g.fatbase + (c + c / 2 + 1) / 512) with ⟨res₂, fs₂⟩
        rw [hmove'] at hcall
        obtain ⟨hmoved', ⟨rfl, hsect'⟩ | ⟨rfl, hfail⟩⟩ :=
          moveFat_spec hmoved.windowed hdirs hx' hmove'
        · rw [Prod.mk.injEq] at hcall
          obtain ⟨rfl, rfl⟩ := hcall
          obtain ⟨hne, hinfo, haddr⟩ := at_fat hx hsect hdirs
          obtain ⟨hne', hinfo', haddr'⟩ := at_fat hx' hsect' hdirs
          have hbyte : fs₁.win ((c + c / 2) % 512) = fs.view (g.fatbase * 512 + (c + c / 2)) := by
            rw [← hmoved.windowed.view_eq hne hinfo (Nat.mod_lt _ (by decide)), haddr,
              hsame hmoved _ hx]
          have hbyte' : fs₂.win ((c + c / 2 + 1) % 512) =
              fs.view (g.fatbase * 512 + (c + c / 2) + 1) := by
            rw [← hmoved'.windowed.view_eq hne' hinfo' (Nat.mod_lt _ (by decide)), haddr',
              hsame (hmoved.trans hmoved') _ hx', ← Nat.add_assoc (g.fatbase * 512)]
          refine ⟨hmoved.trans hmoved', .inl ?_⟩
          rw [hbyte, hbyte']
          have hlt := (fs.view (g.fatbase * 512 + (c + c / 2))).toNat_lt
          dsimp only
          split <;> omega
        · rw [Prod.mk.injEq] at hcall
          obtain ⟨rfl, rfl⟩ := hcall
          exact ⟨hmoved.trans hmoved', .inr ⟨rfl, fun hs => hfail (hmoved.sound hs)⟩⟩
      · rw [Prod.mk.injEq] at hcall
        obtain ⟨rfl, rfl⟩ := hcall
        exact ⟨hmoved, .inr ⟨rfl, hfail⟩⟩
  | fat16 =>
      have hx : c * 2 + 2 ≤ g.fsType.tableBytes g.nFatent := by
        rw [htype, FsType.tableBytes]
        omega
      have hdiv : c / 256 = c * 2 / 512 := by omega
      simp only [htype, hdiv] at hcall
      rcases hmove : moveWindow g fs (g.fatbase + c * 2 / 512) with ⟨res₁, fs₁⟩
      rw [hmove] at hcall
      obtain ⟨hmoved, ⟨rfl, hsect⟩ | ⟨rfl, hfail⟩⟩ := moveFat_spec h hdirs (by omega) hmove
      all_goals
        rw [Prod.mk.injEq] at hcall
        obtain ⟨rfl, rfl⟩ := hcall
      · refine ⟨hmoved, .inl ?_⟩
        rw [getLE_fat hmoved hsect hdirs hx (by decide) (by omega)]
      · exact ⟨hmoved, .inr ⟨rfl, hfail⟩⟩
  | fat32 =>
      have hx : c * 4 + 4 ≤ g.fsType.tableBytes g.nFatent := by
        rw [htype, FsType.tableBytes]
        omega
      have hdiv : c / 128 = c * 4 / 512 := by omega
      simp only [htype, hdiv] at hcall
      rcases hmove : moveWindow g fs (g.fatbase + c * 4 / 512) with ⟨res₁, fs₁⟩
      rw [hmove] at hcall
      obtain ⟨hmoved, ⟨rfl, hsect⟩ | ⟨rfl, hfail⟩⟩ := moveFat_spec h hdirs (by omega) hmove
      all_goals
        rw [Prod.mk.injEq] at hcall
        obtain ⟨rfl, rfl⟩ := hcall
      · refine ⟨hmoved, .inl ?_⟩
        rw [getLE_fat hmoved hsect hdirs hx (by decide) (by omega)]
      · exact ⟨hmoved, .inr ⟨rfl, hfail⟩⟩

/-- The hints for the allocation are the same. -/
structure SameHints (fs fs' : Fs) : Prop where
  last : fs'.lastClst = fs.lastClst
  free : fs'.freeClst = fs.freeClst
  flag : fs'.fsiFlag = fs.fsiFlag

theorem Moved.sameHints (h : Moved g dirs fs fs') : SameHints fs fs' := ⟨h.last, h.free, h.flag⟩

theorem Moved.only (h : Moved g dirs fs fs') (c : Nat) : Only g fs.view fs'.view c :=
  .of_eq c h.view

/-- An aligned field stored in the window after a move. -/
theorem store_fat {fs₁ : Fs} {n : Nat} (hmoved : Moved g dirs fs fs₁)
    (hsect : fs₁.winsect = g.fatbase + x / 512) (hdirs : ∀ c ∈ dirs, g.Valid c)
    (hx : x < g.fsType.tableBytes g.nFatent) (hfit : x % 512 + n ≤ 512) :
    Steady g dirs fs (fs₁.store (fs₁.win.setLE (x % 512) n v)) ∧
      SameHints fs (fs₁.store (fs₁.win.setLE (x % 512) n v)) ∧
      (fs₁.store (fs₁.win.setLE (x % 512) n v)).view =
        fs₁.view.setLE (g.fatbase * 512 + x) n v := by
  obtain ⟨hne, hinfo, haddr⟩ := at_fat hx hsect hdirs
  refine ⟨hmoved.toSteady.trans (hmoved.windowed.store_steady hne _),
    ⟨hmoved.last, hmoved.free, hmoved.flag⟩, ?_⟩
  rw [hmoved.windowed.view_setLE hne hinfo hfit, haddr]

/-- What `put_fat` comes to: the entry is stored; or a transfer has failed, which can
    spoil this entry, if it has 12 bits, but no other one. -/
def Put (g : Geometry) (fs fs' : Fs) (res : FResult) (c val : Nat) : Prop :=
  res = .ok ∧ Entered g fs.view fs'.view c val ∨
    res = .diskErr ∧ ¬ fs.Sound ∧ Only g fs.view fs'.view c ∧
      (g.fsType ≠ .fat12 → entry g fs'.view c = entry g fs.view c)

theorem Moved.put_failed (h : Moved g dirs fs fs') (hc : g.Valid c) (hfail : ¬ fs.Sound) (val : Nat) :
    Put g fs fs' .diskErr c val :=
  .inr ⟨rfl, hfail, h.only c, fun _ => entry_congr hc fun a ha => h.view a ha.not_inCopies⟩

theorem putFat_fat12 (htype : g.fsType = .fat12) (h : fs.Windowed g dirs)
    (hdirs : ∀ c ∈ dirs, g.Valid c) (hc : g.Valid c) (hcall : putFat g fs c val = (res, fs')) :
    Steady g dirs fs fs' ∧ SameHints fs fs' ∧ Put g fs fs' res c val := by
  have hlast := bytes_fat12 hc.2
  have hx : c + c / 2 < g.fsType.tableBytes g.nFatent := by
    rw [htype, FsType.tableBytes]
    omega
  have hx' : c + c / 2 + 1 < g.fsType.tableBytes g.nFatent := by
    rw [htype, FsType.tableBytes]
    exact hlast
  rw [putFat, if_pos (show 2 ≤ c ∧ c < g.nFatent from hc)] at hcall
  simp only [htype] at hcall
  rcases hmove : moveWindow g fs (g.fatbase + (c + c / 2) / 512) with ⟨res₁, fs₁⟩
  rw [hmove] at hcall
  obtain ⟨hmoved, ⟨rfl, hsect⟩ | ⟨rfl, hfail⟩⟩ := moveFat_spec h hdirs hx hmove
  · dsimp only at hcall
    generalize hfirst : (if c % 2 = 1 then
      (fs₁.win ((c + c / 2) % 512)).toNat % 16 + 16 * (val % 16) else val) = v₁ at hcall
    obtain ⟨hsteady, hhints, hview⟩ := store_fat (v := v₁) hmoved hsect hdirs hx
      (by omega : (c + c / 2) % 512 + 1 ≤ 512)
    obtain ⟨hne, hinfo, haddr⟩ := at_fat hx hsect hdirs
    have hbyte : fs₁.win ((c + c / 2) % 512) = fs₁.view (g.fatbase * 512 + (c + c / 2)) := by
      rw [← hmoved.windowed.view_eq hne hinfo (Nat.mod_lt _ (by decide)), haddr]
    rw [hbyte] at hfirst
    generalize fs₁.store (fs₁.win.setLE ((c + c / 2) % 512) 1 v₁) = fs₂ at *
    have honly : Only g fs.view fs₂.view c := by
      refine (hmoved.only c).trans ?_
      rw [hview]
      refine only_first htype hc fun hodd => ?_
      rw [← hfirst, if_pos hodd]
      omega
    rcases hmove' : moveWindow g fs₂ (g.fatbase + (c + c / 2 + 1) / 512) with ⟨res₂, fs₃⟩
    rw [hmove'] at hcall
    obtain ⟨hmoved', ⟨rfl, hsect'⟩ | ⟨rfl, hfail⟩⟩ :=
      moveFat_spec hsteady.windowed hdirs hx' hmove'
    · dsimp only at hcall
      generalize hsecond : (if c % 2 = 1 then val / 16 else
        16 * ((fs₃.win ((c + c / 2 + 1) % 512)).toNat / 16) + val / 256 % 16) = v₂ at hcall
      obtain ⟨hsteady', hhints', hview'⟩ := store_fat (v := v₂) hmoved' hsect' hdirs hx'
        (by omega : (c + c / 2 + 1) % 512 + 1 ≤ 512)
      obtain ⟨hne', hinfo', haddr'⟩ := at_fat hx' hsect' hdirs
      have hbyte' : fs₃.win ((c + c / 2 + 1) % 512) =
          fs₃.view (g.fatbase * 512 + (c + c / 2) + 1) := by
        rw [← hmoved'.windowed.view_eq hne' hinfo' (Nat.mod_lt _ (by decide)), haddr',
          ← Nat.add_assoc (g.fatbase * 512)]
      rw [hbyte'] at hsecond
      rw [Prod.mk.injEq] at hcall
      obtain ⟨rfl, rfl⟩ := hcall
      rw [← Nat.add_assoc (g.fatbase * 512)] at hview'
      have honly' : Only g fs.view (fs₃.view.setLE (g.fatbase * 512 + (c + c / 2) + 1) 1 v₂) c := by
        refine (honly.trans (hmoved'.only c)).trans (only_second htype hc fun heven => ?_)
        have hlt := (fs₃.view (g.fatbase * 512 + (c + c / 2) + 1)).toNat_lt
        rw [← hsecond, if_neg (by omega)]
        omega
      refine ⟨hsteady.trans hsteady', ⟨hhints'.last.trans hhints.last,
        hhints'.free.trans hhints.free, hhints'.flag.trans hhints.flag⟩, .inl ⟨rfl, ?_⟩⟩
      rw [hview']
      refine ⟨honly', ?_⟩
      -- the first byte is still the one that was stored
      have hkept : (fs₃.view (g.fatbase * 512 + (c + c / 2))).toNat = v₁ % 256 := by
        rw [hmoved'.view _ (inFat_of_lt hx).not_inCopies, hview, setLE_one, if_pos rfl]
      have hapart : g.fatbase * 512 + (c + c / 2) ≠ g.fatbase * 512 + (c + c / 2) + 1 := by omega
      simp only [entry, htype, setLE_one, FsType.span, hkept, hapart, if_true, if_false]
      by_cases hodd : c % 2 = 1
      · rw [if_pos hodd] at hfirst hsecond ⊢
        omega
      · rw [if_neg hodd] at hfirst hsecond ⊢
        omega
    · rw [Prod.mk.injEq] at hcall
      obtain ⟨rfl, rfl⟩ := hcall
      refine ⟨hsteady.trans hmoved'.toSteady, ⟨hmoved'.last.trans hhints.last,
        hmoved'.free.trans hhints.free, hmoved'.flag.trans hhints.flag⟩,
        .inr ⟨rfl, fun hs => hfail (hsteady.sound hs), honly.trans (hmoved'.only c),
          fun hne => absurd htype hne⟩⟩
  · rw [Prod.mk.injEq] at hcall
    obtain ⟨rfl, rfl⟩ := hcall
    exact ⟨hmoved.toSteady, hmoved.sameHints, hmoved.put_failed hc hfail val⟩

theorem putFat_fat16 (htype : g.fsType = .fat16) (h : fs.Windowed g dirs)
    (hdirs : ∀ c ∈ dirs, g.Valid c) (hc : g.Valid c) (hcall : putFat g fs c val = (res, fs')) :
    Steady g dirs fs fs' ∧ SameHints fs fs' ∧ Put g fs fs' res c val := by
  have hx : c * 2 < g.fsType.tableBytes g.nFatent := by
    have hlt := hc.2
    rw [htype, FsType.tableBytes]
    omega
  have hdiv : c / 256 = c * 2 / 512 := by omega
  rw [putFat, if_pos (show 2 ≤ c ∧ c < g.nFatent from hc)] at hcall
  simp only [htype, hdiv] at hcall
  rcases hmove : moveWindow g fs (g.fatbase + c * 2 / 512) with ⟨res₁, fs₁⟩
  rw [hmove] at hcall
  obtain ⟨hmoved, ⟨rfl, hsect⟩ | ⟨rfl, hfail⟩⟩ := moveFat_spec h hdirs hx hmove
  all_goals
    rw [Prod.mk.injEq] at hcall
    obtain ⟨rfl, rfl⟩ := hcall
  · obtain ⟨hsteady, hhints, hview⟩ := store_fat (v := val) hmoved hsect hdirs hx
      (by omega : c * 2 % 512 + 2 ≤ 512)
    have hentered := entered_fat16 fs₁.view val htype hc
    refine ⟨hsteady, hhints, .inl ⟨rfl, ?_⟩⟩
    rw [hview]
    exact ⟨(hmoved.only c).trans hentered.toOnly, hentered.here⟩
  · exact ⟨hmoved.toSteady, hmoved.sameHints, hmoved.put_failed hc hfail val⟩

theorem putFat_fat32 (htype : g.fsType = .fat32) (h : fs.Windowed g dirs)
    (hdirs : ∀ c ∈ dirs, g.Valid c) (hc : g.Valid c) (hcall : putFat g fs c val = (res, fs')) :
    Steady g dirs fs fs' ∧ SameHints fs fs' ∧ Put g fs fs' res c val := by
  have hx : c * 4 < g.fsType.tableBytes g.nFatent := by
    have hlt := hc.2
    rw [htype, FsType.tableBytes]
    omega
  have hdiv : c / 128 = c * 4 / 512 := by omega
  rw [putFat, if_pos (show 2 ≤ c ∧ c < g.nFatent from hc)] at hcall
  simp only [htype, hdiv] at hcall
  rcases hmove : moveWindow g fs (g.fatbase + c * 4 / 512) with ⟨res₁, fs₁⟩
  rw [hmove] at hcall
  obtain ⟨hmoved, ⟨rfl, hsect⟩ | ⟨rfl, hfail⟩⟩ := moveFat_spec h hdirs hx hmove
  all_goals
    rw [Prod.mk.injEq] at hcall
    obtain ⟨rfl, rfl⟩ := hcall
  · generalize fs₁.win.getLE (c * 4 % 512) 4 / 2 ^ 28 = high
    obtain ⟨hsteady, hhints, hview⟩ := store_fat (v := val % 2 ^ 28 + 2 ^ 28 * high) hmoved hsect
      hdirs hx (by omega : c * 4 % 512 + 4 ≤ 512)
    have hentered := entered_fat32 fs₁.view val high htype hc
    refine ⟨hsteady, hhints, .inl ⟨rfl, ?_⟩⟩
    rw [hview]
    exact ⟨(hmoved.only c).trans hentered.toOnly, hentered.here⟩
  · exact ⟨hmoved.toSteady, hmoved.sameHints, hmoved.put_failed hc hfail val⟩

theorem putFat_spec (h : fs.Windowed g dirs) (hdirs : ∀ c ∈ dirs, g.Valid c) (hc : g.Valid c)
    (hcall : putFat g fs c val = (res, fs')) :
    Steady g dirs fs fs' ∧ SameHints fs fs' ∧ Put g fs fs' res c val := by
  cases htype : g.fsType with
  | fat12 => exact putFat_fat12 htype h hdirs hc hcall
  | fat16 => exact putFat_fat16 htype h hdirs hc hcall
  | fat32 => exact putFat_fat32 htype h hdirs hc hcall

end Fs

end McuFirmware.FatFs
