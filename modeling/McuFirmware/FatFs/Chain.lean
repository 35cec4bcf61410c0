/-
  McuFirmware.FatFs.Chain

  `create_chain` and `remove_chain`: cluster chains on the FAT.

  The calls are described by what they make of the table (`Changed`).  The search for
  a free cluster goes round the whole table once, so that 0 means that there is none.
-/

import Mathlib.Data.List.Nodup
import Mathlib.Data.List.Perm.Subperm
import McuFirmware.Lib.Links
import McuFirmware.FatFs.Fat

namespace McuFirmware.FatFs

open McuFirmware.Lib

-- ============================================================================
-- The code
-- ============================================================================

section Code

variable (g : Geometry)

/-- The loop of `create_chain` that looks for a free cluster behind `ncl`: the cluster
    found, or the value that is returned. -/
def findFree (scl : Nat) : Nat → Nat → Fs → Except Nat Nat × Fs
  | 0, _, fs => (.error 0, fs)
  | fuel + 1, ncl, fs =>
      if g.nFatent ≤ ncl + 1 ∧ scl < 2 then (.error 0, fs)
      else
        let ncl := if g.nFatent ≤ ncl + 1 then 2 else ncl + 1
        match getFat g fs ncl with
        | (cs, fs) =>
            if cs = 0 then (.ok ncl, fs)
            else if cs = 1 ∨ cs = diskError then (.error cs, fs)
            else if ncl = scl then (.error 0, fs)
            else findFree scl fuel ncl fs

/-- The hints after an allocation. -/
def noteAllocation (fs : Fs) (ncl : Nat) : Fs :=
  { fs with
    lastClst := ncl
    freeClst := if fs.freeClst < g.nFatent - 2 then sub32 fs.freeClst 1 else fs.freeClst
    fsiFlag := fs.fsiFlag.map fun _ => true }

/-- `create_chain` from the search on. -/
def allocate (fs : Fs) (clst scl : Nat) : Nat × Fs :=
  match findFree g scl g.nFatent scl fs with
  | (.error res, fs) => (res, fs)
  | (.ok ncl, fs) =>
      match putFat g fs ncl 0xFFFFFFFF with
      | (.ok, fs) =>
          match (if clst ≠ 0 then putFat g fs clst ncl else (.ok, fs)) with
          | (.ok, fs) => (ncl, noteAllocation g fs ncl)
          | (res, fs) => (if res = .diskErr then diskError else 1, fs)
      | (res, fs) => (if res = .diskErr then diskError else 1, fs)

/-- `create_chain`: the new cluster behind `clst`, or the first one of a new chain. -/
def createChain (fs : Fs) (clst : Nat) : Nat × Fs :=
  if clst = 0 then
    allocate g fs 0 (if fs.lastClst = 0 ∨ g.nFatent ≤ fs.lastClst then 1 else fs.lastClst)
  else
    match getFat g fs clst with
    | (cs, fs) =>
        if cs < 2 then (1, fs)
        else if cs = diskError then (cs, fs)
        else if cs < g.nFatent then (cs, fs)
        else allocate g fs clst clst

/-- The hints after a cluster was freed. -/
def noteFree (fs : Fs) : Fs :=
  if fs.freeClst ≠ 0xFFFFFFFF then
    { fs with freeClst := fs.freeClst + 1, fsiFlag := fs.fsiFlag.map fun _ => true }
  else fs

/-- The loop of `remove_chain`. -/
def freeChain : Nat → Nat → Fs → FResult × Fs
  | 0, _, fs => (.ok, fs)
  | fuel + 1, clst, fs =>
      match getFat g fs clst with
      | (nxt, fs) =>
          if nxt = 0 then (.ok, fs)
          else if nxt = 1 then (.intErr, fs)
          else if nxt = diskError then (.diskErr, fs)
          else
            match putFat g fs clst 0 with
            | (.ok, fs) =>
                if nxt < g.nFatent then freeChain fuel nxt (noteFree fs) else (.ok, noteFree fs)
            | (res, fs) => (res, fs)

/-- `remove_chain` from `clst` on, which follows `pclst` or is the first of its chain. -/
def removeChain (fs : Fs) (clst pclst : Nat) : FResult × Fs :=
  if clst < 2 ∨ g.nFatent ≤ clst then (.intErr, fs)
  else if pclst ≠ 0 then
    match putFat g fs pclst 0xFFFFFFFF with
    | (.ok, fs) => freeChain g g.nFatent clst fs
    | (res, fs) => (res, fs)
  else freeChain g g.nFatent clst fs

end Code

-- ============================================================================
-- The table as a function
-- ============================================================================

/-- The mark of the last cluster of a chain. -/
def Geometry.eoc (g : Geometry) : Nat := g.fsType.span - 1

/-- What ends a chain: no cluster number. -/
def Geometry.IsEnd (g : Geometry) (v : Nat) : Prop := g.nFatent ≤ v

theorem Geometry.nFatent_le (g : Geometry) : g.nFatent ≤ g.eoc ∧ g.eoc < g.fsType.span ∧
    g.eoc < diskError ∧ 0xFFFFFFFF % g.fsType.span = g.eoc := by
  have hmax := g.limit
  rw [eoc, diskError]
  cases htype : g.fsType with
  | fat12 | fat16 | fat32 =>
      rw [htype] at hmax
      exact ⟨Nat.le_trans hmax (by decide), by decide, by decide, by decide⟩

theorem Geometry.Valid.mod_span {g : Geometry} {c : Nat} (h : g.Valid c) :
    c % g.fsType.span = c := by
  obtain ⟨hle, hlt, -, -⟩ := g.nFatent_le
  have hc := h.2
  exact Nat.mod_eq_of_lt (by omega)

namespace Fs

/-- Entry `c` as the callers see it. -/
def fat (g : Geometry) (fs : Fs) (c : Nat) : Nat := entry g fs.view c

/-- A volume on which no transfer fails. -/
structure Ready (g : Geometry) (dirs : List Nat) (fs : Fs) : Prop where
  windowed : fs.Windowed g dirs
  sound : fs.Sound
  dirs_valid : ∀ c ∈ dirs, g.Valid c

/-- The calls have made `f` of the table, and nothing of the rest. -/
structure Changed (g : Geometry) (dirs : List Nat) (fs fs' : Fs) (f : Nat → Nat) : Prop
    extends Steady g dirs fs fs' where
  fat_eq : ∀ c, g.Valid c → fs'.fat g c = f c
  rest : ∀ a, ¬ g.InFat (a / 512) → ¬ g.InCopies (a / 512) → fs'.view a = fs.view a

variable {g : Geometry} {dirs : List Nat} {fs fs' fs'' : Fs} {res : FResult} {c d v val : Nat}
  {f f' : Nat → Nat}

theorem Steady.ready (h : Steady g dirs fs fs') (hr : fs.Ready g dirs) : fs'.Ready g dirs :=
  ⟨h.windowed, h.sound hr.sound, hr.dirs_valid⟩

theorem Moved.changed (h : Moved g dirs fs fs') : Changed g dirs fs fs' (fs.fat g) where
  toSteady := h.toSteady
  fat_eq _ hc := entry_congr hc fun a ha => h.view a ha.not_inCopies
  rest a _ hcopy := h.view a hcopy

theorem Changed.trans (h : Changed g dirs fs fs' f) (h' : Changed g dirs fs' fs'' f') :
    Changed g dirs fs fs'' f' where
  toSteady := h.toSteady.trans h'.toSteady
  fat_eq := h'.fat_eq
  rest a hfat hcopy := (h'.rest a hfat hcopy).trans (h.rest a hfat hcopy)

theorem Changed.congr (h : Changed g dirs fs fs' f) (heq : ∀ c, g.Valid c → f' c = f c) :
    Changed g dirs fs fs' f' where
  toSteady := h.toSteady
  fat_eq c hc := (h.fat_eq c hc).trans (heq c hc).symm
  rest := h.rest

/-- Changing the hints changes nothing else. -/
theorem Changed.hints (h : Changed g dirs fs fs' f) (hwin : fs''.winsect = fs'.winsect)
    (hbuf : fs''.win = fs'.win) (hflag : fs''.wflag = fs'.wflag) (hdisk : fs''.disk = fs'.disk) :
    Changed g dirs fs fs'' f := by
  obtain ⟨last, free, flag, winsect, win, wflag, disk⟩ := fs''
  dsimp only at hwin hbuf hflag hdisk
  subst hwin hbuf hflag hdisk
  exact ⟨⟨⟨h.windowed.place, h.windowed.dirty, h.windowed.clean⟩, h.data, h.sound, h.mirrored⟩,
    h.fat_eq, h.rest⟩

theorem Ready.getFat (h : fs.Ready g dirs) (hc : g.Valid c) :
    ∃ fs', FatFs.getFat g fs c = (fs.fat g c, fs') ∧ Moved g dirs fs fs' := by
  rcases hcall : FatFs.getFat g fs c with ⟨v, fs'⟩
  obtain ⟨hm, rfl | ⟨-, hfail⟩⟩ := getFat_spec h.windowed h.dirs_valid hc hcall
  · exact ⟨fs', rfl, hm⟩
  · exact absurd h.sound hfail

theorem Ready.putFat (h : fs.Ready g dirs) (hc : g.Valid c) (val : Nat) :
    ∃ fs', FatFs.putFat g fs c val = (.ok, fs') ∧ SameHints fs fs' ∧
      Changed g dirs fs fs' (Function.update (fs.fat g) c (val % g.fsType.span)) := by
  rcases hcall : FatFs.putFat g fs c val with ⟨res, fs'⟩
  obtain ⟨hsteady, hhints, ⟨rfl, hent⟩ | ⟨-, hfail, -⟩⟩ :=
    putFat_spec h.windowed h.dirs_valid hc hcall
  · refine ⟨fs', rfl, hhints, hsteady, fun d hd => ?_, hent.rest⟩
    by_cases hsame : d = c
    · rw [hsame, Function.update_self]
      exact hent.here
    · rw [Function.update_of_ne hsame]
      exact hent.others d hd hsame
  · exact absurd h.sound hfail

theorem fat_lt_diskError (g : Geometry) (fs : Fs) (c : Nat) : fs.fat g c < diskError := by
  obtain ⟨-, hlt, herr, -⟩ := g.nFatent_le
  have hentry := entry_lt g fs.view c
  rw [fat]
  rw [Geometry.eoc] at herr hlt
  omega

theorem Moved.fat_eq (h : Moved g dirs fs fs') (hc : g.Valid c) : fs'.fat g c = fs.fat g c :=
  h.changed.fat_eq c hc

/-- The clusters that the search has seen when it is at `ncl`. -/
def Seen (scl ncl d : Nat) : Prop := if scl ≤ ncl then scl < d ∧ d ≤ ncl else scl < d ∨ d ≤ ncl

/-- The search goes once round the table. -/
theorem findFree_spec {scl ncl : Nat} (fuel : Nat) (h : fs.Ready g dirs)
    (hone : ∀ c, g.Valid c → fs.fat g c ≠ 1) (hscl : 1 ≤ scl) (hncl : 1 ≤ ncl ∧ ncl < g.nFatent)
    (hback : ncl < scl → 2 ≤ ncl) (hlim : scl < g.nFatent)
    (hseen : ∀ c, g.Valid c → Seen scl ncl c → fs.fat g c ≠ 0)
    (hfuel : if scl ≤ ncl then g.nFatent + scl ≤ fuel + ncl + 1 else scl ≤ fuel + ncl) :
    ∃ r fs', findFree g scl fuel ncl fs = (r, fs') ∧ Moved g dirs fs fs' ∧
      (r = .error 0 ∧ (∀ c, g.Valid c → fs.fat g c ≠ 0) ∨
        ∃ c, r = .ok c ∧ g.Valid c ∧ fs.fat g c = 0) := by
  have hentries := g.entries
  induction fuel generalizing ncl fs with
  | zero => split at hfuel <;> omega
  | succ fuel ih =>
      rw [findFree]
      by_cases hend : g.nFatent ≤ ncl + 1 ∧ scl < 2
      · rw [if_pos hend]
        refine ⟨_, _, rfl, .refl h.windowed, .inl ⟨rfl, fun c hc => hseen c hc ?_⟩⟩
        obtain ⟨hlow, hhigh⟩ := hc
        rw [Seen, if_pos (by omega)]
        omega
      · rw [if_neg hend]
        generalize hnext : (if g.nFatent ≤ ncl + 1 then 2 else ncl + 1) = ncl'
        have hcases : g.nFatent ≤ ncl + 1 ∧ ncl' = 2 ∨ ncl + 1 < g.nFatent ∧ ncl' = ncl + 1 := by
          split at hnext <;> omega
        have hvalid : g.Valid ncl' := ⟨by omega, by omega⟩
        obtain ⟨fs₁, hget, hm⟩ := h.getFat hvalid
        dsimp only
        rw [hget]
        dsimp only
        by_cases hzero : fs.fat g ncl' = 0
        · rw [if_pos hzero]
          exact ⟨_, _, rfl, hm, .inr ⟨ncl', rfl, hvalid, hzero⟩⟩
        have hgood : ¬ (fs.fat g ncl' = 1 ∨ fs.fat g ncl' = diskError) := by
          rintro (h1 | herr)
          · exact hone ncl' hvalid h1
          · exact Nat.ne_of_lt (fat_lt_diskError g fs ncl') herr
        rw [if_neg hzero, if_neg hgood]
        -- what has been seen now
        have hseen' : ∀ c, g.Valid c → (Seen scl ncl c ∨ c = ncl') → fs.fat g c ≠ 0 := by
          rintro c hc (hold | rfl)
          · exact hseen c hc hold
          · exact hzero
        by_cases hdone : ncl' = scl
        · rw [if_pos hdone]
          refine ⟨_, _, rfl, hm, .inl ⟨rfl, fun c hc => hseen' c hc ?_⟩⟩
          obtain ⟨hlow, hhigh⟩ := hc
          rw [Seen]
          split <;> omega
        · rw [if_neg hdone]
          have hstep : ∀ c, g.Valid c → Seen scl ncl' c → fs₁.fat g c ≠ 0 := by
            intro c hc hsee
            rw [hm.fat_eq hc]
            refine hseen' c hc ?_
            obtain ⟨hlow, hhigh⟩ := hc
            rw [Seen] at hsee ⊢
            split at hsee <;> split <;> omega
          have hfuel' : if scl ≤ ncl' then g.nFatent + scl ≤ fuel + ncl' + 1
              else scl ≤ fuel + ncl' := by
            split at hfuel <;> split <;> omega
          obtain ⟨r, fs₂, hcall, hm', hres⟩ := ih (hm.toSteady.ready h)
            (fun c hc => by rw [hm.fat_eq hc]; exact hone c hc) ⟨by omega, by omega⟩ (by omega)
            hstep hfuel'
          refine ⟨r, fs₂, hcall, hm.trans hm', ?_⟩
          rcases hres with ⟨rfl, hall⟩ | ⟨c, rfl, hc, hfree⟩
          · exact .inl ⟨rfl, fun c hc => by rw [← hm.fat_eq hc]; exact hall c hc⟩
          · exact .inr ⟨c, rfl, hc, by rw [← hm.fat_eq hc]; exact hfree⟩

/-- The table with the free cluster `ncl` linked behind `clst`, or as a chain of its own
    where `clst` is 0. -/
def grown (g : Geometry) (f : Nat → Nat) (clst ncl c : Nat) : Nat :=
  if c = clst then ncl else if c = ncl then g.eoc else f c

/-- What `create_chain` comes to where it allocates: no cluster is free, or a free one is
    linked. -/
def Allocated (g : Geometry) (dirs : List Nat) (fs fs' : Fs) (clst ncl : Nat) : Prop :=
  ncl = 0 ∧ Moved g dirs fs fs' ∧ (∀ c, g.Valid c → fs.fat g c ≠ 0) ∨
    g.Valid ncl ∧ fs.fat g ncl = 0 ∧ Changed g dirs fs fs' (grown g (fs.fat g) clst ncl) ∧
      fs'.lastClst = ncl ∧ fs'.freeClst =
        (if fs.freeClst < g.nFatent - 2 then sub32 fs.freeClst 1 else fs.freeClst)

theorem Moved.allocated {clst ncl : Nat} (h : Moved g dirs fs fs')
    (ha : Allocated g dirs fs' fs'' clst ncl) : Allocated g dirs fs fs'' clst ncl := by
  rcases ha with ⟨hzero, hm, hfull⟩ | ⟨hvalid, hfree, hch, hlast, hcount⟩
  · exact .inl ⟨hzero, h.trans hm, fun c hc => by rw [← h.fat_eq hc]; exact hfull c hc⟩
  · rw [h.fat_eq hvalid] at hfree
    rw [h.free] at hcount
    refine .inr ⟨hvalid, hfree, (h.changed.trans hch).congr fun c hc => ?_, hlast, hcount⟩
    simp only [grown, h.fat_eq hc]

theorem allocate_spec (clst scl : Nat) (h : fs.Ready g dirs)
    (hone : ∀ c, g.Valid c → fs.fat g c ≠ 1) (hscl : 1 ≤ scl) (hlim : scl < g.nFatent)
    (hclst : clst = 0 ∨ g.Valid clst ∧ fs.fat g clst ≠ 0) :
    ∃ ncl fs', allocate g fs clst scl = (ncl, fs') ∧ Allocated g dirs fs fs' clst ncl := by
  obtain ⟨r, fs₁, hfind, hm, hres⟩ := findFree_spec g.nFatent h hone hscl ⟨hscl, hlim⟩
    (fun hlt => absurd hlt (Nat.lt_irrefl _)) hlim
    (fun c _ hsee => by rw [Seen, if_pos (Nat.le_refl _)] at hsee; omega)
    (by rw [if_pos (Nat.le_refl _)]; omega)
  rw [allocate, hfind]
  rcases hres with ⟨rfl, hfull⟩ | ⟨ncl, rfl, hvalid, hfree⟩
  · exact ⟨0, fs₁, rfl, .inl ⟨rfl, hm, hfull⟩⟩
  obtain ⟨fs₂, hput, hhints, hch⟩ := (hm.toSteady.ready h).putFat hvalid 0xFFFFFFFF
  obtain ⟨-, -, -, heoc⟩ := g.nFatent_le
  rw [heoc] at hch
  dsimp only
  rw [hput]
  dsimp only
  have hhints' : SameHints fs fs₂ := ⟨hhints.last.trans hm.last, hhints.free.trans hm.free,
    hhints.flag.trans hm.flag⟩
  have hch' := hm.changed.trans hch
  by_cases hzero : clst = 0
  · rw [if_neg (not_not_intro hzero)]
    refine ⟨_, _, rfl, .inr ⟨hvalid, hfree, ?_, rfl, ?_⟩⟩
    · refine Changed.hints (hch'.congr fun c hc => ?_) rfl rfl rfl rfl
      have hne : c ≠ clst := by have := hc.1; omega
      rw [grown, if_neg hne]
      by_cases hsame : c = ncl
      · rw [if_pos hsame, hsame, Function.update_self]
      · rw [if_neg hsame, Function.update_of_ne hsame, hm.fat_eq hc]
    · simp only [noteAllocation, hhints'.free]
  · obtain ⟨hval, hused⟩ := hclst.resolve_left hzero
    obtain ⟨fs₃, hput', hhints'', hch''⟩ := (hch'.toSteady.ready h).putFat hval ncl
    rw [hvalid.mod_span] at hch''
    rw [if_pos hzero, hput']
    refine ⟨_, _, rfl, .inr ⟨hvalid, hfree, ?_, rfl, ?_⟩⟩
    · refine Changed.hints ((hch'.trans hch'').congr fun c hc => ?_) rfl rfl rfl rfl
      rw [grown]
      by_cases hsame : c = clst
      · rw [if_pos hsame, hsame, Function.update_self]
      · rw [if_neg hsame, Function.update_of_ne hsame, hch'.fat_eq c hc]
        by_cases hnew : c = ncl
        · rw [if_pos hnew, hnew, Function.update_self]
        · rw [if_neg hnew, Function.update_of_ne hnew, hm.fat_eq hc]
    · simp only [noteAllocation, hhints''.free, hhints'.free]

/-- `create_chain` for a new chain. -/
theorem createChain_new (h : fs.Ready g dirs) (hone : ∀ c, g.Valid c → fs.fat g c ≠ 1) :
    ∃ ncl fs', createChain g fs 0 = (ncl, fs') ∧ Allocated g dirs fs fs' 0 ncl := by
  have hentries := g.entries
  rw [createChain, if_pos rfl]
  refine allocate_spec 0 _ h hone ?_ ?_ (.inl rfl)
  · split <;> omega
  · split <;> omega

/-- `create_chain` behind a cluster that has one behind it. -/
theorem createChain_next (h : fs.Ready g dirs) (hc : g.Valid c) (hnext : g.Valid (fs.fat g c)) :
    ∃ fs', createChain g fs c = (fs.fat g c, fs') ∧ Moved g dirs fs fs' := by
  obtain ⟨fs₁, hget, hm⟩ := h.getFat hc
  have hlow := hc.1
  obtain ⟨hge, hlt⟩ := hnext
  have herr := fat_lt_diskError g fs c
  refine ⟨fs₁, ?_, hm⟩
  rw [createChain, if_neg (by omega), hget]
  dsimp only
  rw [if_neg (by omega), if_neg (by omega), if_pos hlt]

/-- `create_chain` behind the last cluster of a chain. -/
theorem createChain_last (h : fs.Ready g dirs) (hone : ∀ c, g.Valid c → fs.fat g c ≠ 1)
    (hc : g.Valid c) (hend : g.IsEnd (fs.fat g c)) :
    ∃ ncl fs', createChain g fs c = (ncl, fs') ∧ Allocated g dirs fs fs' c ncl := by
  obtain ⟨fs₁, hget, hm⟩ := h.getFat hc
  obtain ⟨hlow, hhigh⟩ := hc
  have hentries := g.entries
  have herr := fat_lt_diskError g fs c
  have hge : g.nFatent ≤ fs.fat g c := hend
  obtain ⟨ncl, fs', hcall, halloc⟩ := allocate_spec c c (hm.toSteady.ready h)
    (fun d hd => by rw [hm.fat_eq hd]; exact hone d hd) (by omega) hhigh
    (.inr ⟨⟨hlow, hhigh⟩, by rw [hm.fat_eq ⟨hlow, hhigh⟩]; omega⟩)
  refine ⟨ncl, fs', ?_, hm.allocated halloc⟩
  rw [createChain, if_neg (by omega), hget]
  dsimp only
  rw [if_neg (by omega), if_neg (by omega), if_neg (by omega)]
  exact hcall

theorem freeClst_noteFree (fs : Fs) : (noteFree fs).freeClst =
    if fs.freeClst = 0xFFFFFFFF then fs.freeClst else fs.freeClst + 1 := by
  rw [noteFree]
  by_cases hunknown : fs.freeClst = 0xFFFFFFFF
  · rw [if_neg (not_not_intro hunknown), if_pos hunknown]
  · rw [if_pos hunknown, if_neg hunknown]

theorem Changed.noteFree (h : Changed g dirs fs fs' f) :
    Changed g dirs fs (FatFs.noteFree fs') f := by
  rw [FatFs.noteFree]
  split
  · exact h.hints rfl rfl rfl rfl
  · exact h

/-- The count of free clusters after `n` more. -/
def Counted (fs fs' : Fs) (n : Nat) : Prop :=
  (fs.freeClst = 0xFFFFFFFF → fs'.freeClst = 0xFFFFFFFF) ∧
    (fs.freeClst + n < 0xFFFFFFFF → fs'.freeClst = fs.freeClst + n)

/-- The loop of `remove_chain` frees the chain to its end. -/
theorem freeChain_spec {cs : List Nat} (fuel : Nat) (h : fs.Ready g dirs)
    (hvalid : ∀ d ∈ c :: cs, g.Valid d) (hnodup : (c :: cs).Nodup)
    (hlinked : Chained (fs.fat g) g.IsEnd (c :: cs)) (hfuel : cs.length < fuel) :
    ∃ fs', freeChain g fuel c fs = (.ok, fs') ∧
      Changed g dirs fs fs' (fun d => if d ∈ c :: cs then 0 else fs.fat g d) ∧
      fs'.lastClst = fs.lastClst ∧ Counted fs fs' (cs.length + 1) := by
  have hentries := g.entries
  induction cs generalizing c fs fuel with
  | nil =>
      obtain ⟨fuel, rfl⟩ : ∃ k, fuel = k + 1 := ⟨fuel - 1, by simp at hfuel; omega⟩
      have hc := hvalid c List.mem_cons_self
      have hend : g.nFatent ≤ fs.fat g c := hlinked
      obtain ⟨fs₁, hget, hm⟩ := h.getFat hc
      obtain ⟨fs₂, hput, hhints, hch⟩ := (hm.toSteady.ready h).putFat hc 0
      have herr := fat_lt_diskError g fs c
      rw [freeChain, hget]
      dsimp only
      rw [if_neg (by omega), if_neg (by omega), if_neg (by omega), hput]
      dsimp only
      rw [if_neg (by omega)]
      refine ⟨_, rfl, ((hm.changed.trans hch).congr fun d hd => ?_).noteFree, ?_, ?_⟩
      · by_cases hsame : d = c
        · rw [hsame, if_pos List.mem_cons_self, Function.update_self, Nat.zero_mod]
        · rw [if_neg (by simpa using hsame), Function.update_of_ne hsame, hm.fat_eq hd]
      · rw [noteFree]
        split
        · exact hhints.last.trans hm.last
        · exact hhints.last.trans hm.last
      · have hfree := hhints.free.trans hm.free
        refine ⟨fun hunknown => ?_, fun hlt => ?_⟩
        · rw [freeClst_noteFree, hfree, if_pos hunknown, hunknown]
        · rw [freeClst_noteFree, hfree, if_neg (by omega)]
          rfl
  | cons d cs ih =>
      obtain ⟨fuel, rfl⟩ : ∃ k, fuel = k + 1 := ⟨fuel - 1, by simp at hfuel; omega⟩
      have hc := hvalid c List.mem_cons_self
      have hd := hvalid d (List.mem_cons_of_mem c List.mem_cons_self)
      obtain ⟨hnext, hrest⟩ := hlinked
      obtain ⟨hout, hnodup'⟩ := List.nodup_cons.mp hnodup
      obtain ⟨fs₁, hget, hm⟩ := h.getFat hc
      obtain ⟨fs₂, hput, hhints, hch⟩ := (hm.toSteady.ready h).putFat hc 0
      have hch' : Changed g dirs fs (FatFs.noteFree fs₂)
          (fun e => if e = c then 0 else fs.fat g e) := by
        refine ((hm.changed.trans hch).congr fun e he => ?_).noteFree
        by_cases hsame : e = c
        · rw [hsame, if_pos rfl, Function.update_self, Nat.zero_mod]
        · rw [if_neg hsame, Function.update_of_ne hsame, hm.fat_eq he]
      have hlinked' : Chained ((FatFs.noteFree fs₂).fat g) g.IsEnd (d :: cs) := by
        refine hrest.congr fun e he => ?_
        rw [hch'.fat_eq e (hvalid e (List.mem_cons_of_mem c he)), if_neg]
        rintro rfl
        exact hout he
      obtain ⟨fs₃, hcall, hch₃, hlast, hknown, hcount⟩ := ih fuel (hch'.toSteady.ready h)
        (fun e he => hvalid e (List.mem_cons_of_mem c he)) hnodup' hlinked'
        (by simpa using hfuel : cs.length < fuel)
      have hlow := hd.1
      have hhigh := hd.2
      have herr := fat_lt_diskError g fs c
      rw [freeChain, hget, hnext]
      rw [hnext] at herr
      dsimp only
      rw [if_neg (by omega), if_neg (by omega), if_neg (by omega), hput]
      dsimp only
      rw [if_pos hhigh, hcall]
      have hfree := hhints.free.trans hm.free
      refine ⟨_, rfl, (hch'.trans hch₃).congr fun e he => ?_, ?_, ?_⟩
      · simp only [List.mem_cons, hch'.fat_eq e he]
        by_cases hsame : e = c
        · simp [hsame]
        · simp [hsame]
      · rw [hlast, FatFs.noteFree]
        split
        · exact hhints.last.trans hm.last
        · exact hhints.last.trans hm.last
      · rw [freeClst_noteFree, hfree] at hknown hcount
        refine ⟨fun hunknown => hknown (by rw [if_pos hunknown, hunknown]), fun hlt => ?_⟩
        rw [List.length_cons] at hlt ⊢
        rw [if_neg (by omega)] at hcount
        rw [hcount (by omega)]
        omega

theorem length_le_nFatent {cs : List Nat} (hvalid : ∀ d ∈ cs, g.Valid d) (hnodup : cs.Nodup) :
    cs.length ≤ g.nFatent := by
  have hsub : cs ⊆ List.range g.nFatent := fun d hd => List.mem_range.mpr (hvalid d hd).2
  have hle := (List.subperm_of_subset hnodup hsub).length_le
  rwa [List.length_range] at hle

/-- `remove_chain` of a whole chain. -/
theorem removeChain_all {cs : List Nat} (h : fs.Ready g dirs)
    (hvalid : ∀ d ∈ c :: cs, g.Valid d) (hnodup : (c :: cs).Nodup)
    (hlinked : Chained (fs.fat g) g.IsEnd (c :: cs)) :
    ∃ fs', removeChain g fs c 0 = (.ok, fs') ∧
      Changed g dirs fs fs' (fun d => if d ∈ c :: cs then 0 else fs.fat g d) ∧
      fs'.lastClst = fs.lastClst ∧ Counted fs fs' (cs.length + 1) := by
  have hlen := length_le_nFatent hvalid hnodup
  obtain ⟨hlow, hhigh⟩ := hvalid c List.mem_cons_self
  rw [List.length_cons] at hlen
  rw [removeChain, if_neg (by omega), if_neg (not_not_intro rfl)]
  exact freeChain_spec _ h hvalid hnodup hlinked (by omega)

/-- `remove_chain` of what follows the cluster `p`. -/
theorem removeChain_behind {p : Nat} {xs cs : List Nat} (h : fs.Ready g dirs)
    (hvalid : ∀ d ∈ xs ++ p :: c :: cs, g.Valid d) (hnodup : (xs ++ p :: c :: cs).Nodup)
    (hlinked : Chained (fs.fat g) g.IsEnd (xs ++ p :: c :: cs)) :
    ∃ fs', removeChain g fs c p = (.ok, fs') ∧
      Changed g dirs fs fs'
        (fun d => if d ∈ c :: cs then 0 else if d = p then g.eoc else fs.fat g d) ∧
      fs'.lastClst = fs.lastClst ∧ Counted fs fs' (cs.length + 1) := by
  have hp : g.Valid p := hvalid p (List.mem_append_right _ List.mem_cons_self)
  have hsuf : ∀ d ∈ c :: cs, d ∈ xs ++ p :: c :: cs := fun d hd =>
    List.mem_append_right _ (List.mem_cons_of_mem p hd)
  have hvalid' : ∀ d ∈ c :: cs, g.Valid d := fun d hd => hvalid d (hsuf d hd)
  obtain ⟨hout, hnodup'⟩ := List.nodup_cons.mp (List.nodup_append.mp hnodup).2.1
  have hlen := length_le_nFatent hvalid' hnodup'
  obtain ⟨fs₁, hput, hhints, hch⟩ := h.putFat hp 0xFFFFFFFF
  obtain ⟨-, -, -, heoc⟩ := g.nFatent_le
  rw [heoc] at hch
  have hlinked' : Chained (fs₁.fat g) g.IsEnd (c :: cs) := by
    refine hlinked.append_right.tail.congr fun d hd => ?_
    rw [hch.fat_eq d (hvalid' d hd), Function.update_of_ne]
    rintro rfl
    exact hout hd
  obtain ⟨fs₂, hcall, hch', hlast, hknown, hcount⟩ := freeChain_spec g.nFatent
    (hch.toSteady.ready h) hvalid' hnodup' hlinked' (by rw [List.length_cons] at hlen; omega)
  obtain ⟨hlow, hhigh⟩ := hvalid' c List.mem_cons_self
  have hpos := hp.1
  rw [removeChain, if_neg (by omega), if_pos (by omega), hput]
  refine ⟨fs₂, hcall, (hch.trans hch').congr fun d hd => ?_, hlast.trans hhints.last, ?_⟩
  · rw [hch.fat_eq d hd]
    by_cases hsame : d = p
    · rw [hsame, Function.update_self, if_pos rfl]
    · rw [Function.update_of_ne hsame, if_neg hsame]
  · rw [hhints.free] at hknown hcount
    exact ⟨hknown, hcount⟩

end Fs

end McuFirmware.FatFs
