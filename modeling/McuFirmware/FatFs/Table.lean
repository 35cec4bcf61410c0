/-
  McuFirmware.FatFs.Table

  The FAT over whole runs of calls: entries read and stored, the window taken to other
  sectors and written there in between, and transfers that fail.

  `Ledger.known` is what the calls that returned `FR_OK` have made of the table.
-/

import McuFirmware.FatFs.Fat

namespace McuFirmware.FatFs

open McuFirmware.Lib

/-- The calls that go through the window. -/
inductive TableCall
  | get (clst : Nat)
  | put (clst val : Nat)
  /-- Another sector is looked at. -/
  | visit (sector : Nat)
  /-- A byte of another sector is changed, as in a directory. -/
  | touch (sector i : Nat) (b : Nat)
  | sync
deriving DecidableEq

/-- Calls for entries of the table and for sectors outside of it. -/
def TableCall.Permitted (g : Geometry) (dirs : List Nat) : TableCall → Prop
  | .get clst => g.Valid clst
  | .put clst _ => g.Valid clst
  | .visit sector => g.InWindow dirs sector ∧ ¬ g.InCopies sector
  | .touch sector _ _ => g.InWindow dirs sector ∧ ¬ g.InCopies sector ∧ ¬ g.InFat sector
  | .sync => True

instance (g : Geometry) (dirs : List Nat) : DecidablePred (TableCall.Permitted g dirs)
  | .get clst => inferInstanceAs (Decidable (g.Valid clst))
  | .put clst _ => inferInstanceAs (Decidable (g.Valid clst))
  | .visit sector => inferInstanceAs (Decidable (g.InWindow dirs sector ∧ ¬ g.InCopies sector))
  | .touch sector _ _ => inferInstanceAs
      (Decidable (g.InWindow dirs sector ∧ ¬ g.InCopies sector ∧ ¬ g.InFat sector))
  | .sync => inferInstanceAs (Decidable True)

/-- The file system object, and what is known of the entries. -/
structure Ledger where
  fs : Fs
  known : Nat → Option Nat

namespace Ledger

section Code

variable (g : Geometry)

/-- A stored entry is known once `put_fat` has returned `FR_OK`.  If it fails, an entry
    of 12 bits may be half written. -/
def step (w : Ledger) : TableCall → Ledger
  | .get clst => { w with fs := (getFat g w.fs clst).2 }
  | .put clst val =>
      match putFat g w.fs clst val with
      | (.ok, fs) => ⟨fs, Function.update w.known clst (some (val % g.fsType.span))⟩
      | (_, fs) =>
          ⟨fs, if g.fsType = .fat12 then Function.update w.known clst none else w.known⟩
  | .visit sector => { w with fs := (moveWindow g w.fs sector).2 }
  | .touch sector i b =>
      match moveWindow g w.fs sector with
      | (.ok, fs) => { w with fs := fs.store (fs.win.setLE i 1 b) }
      | (_, fs) => { w with fs := fs }
  | .sync => { w with fs := (syncWindow g w.fs).2 }

/-- All entries are known. -/
def start (fs : Fs) : Ledger := ⟨fs, fun c => some (entry g fs.view c)⟩

end Code

variable {g : Geometry} {dirs : List Nat} {fs fs' : Fs} {w : Ledger} {e : TableCall}

/-- What is known is what the view holds. -/
structure Inv (g : Geometry) (dirs : List Nat) (w : Ledger) : Prop where
  windowed : w.fs.Windowed g dirs
  right : ∀ c, g.Valid c → ∀ x ∈ w.known c, entry g w.fs.view c = x

theorem Inv.moved (h : w.Inv g dirs) (hm : Fs.Moved g dirs w.fs fs') :
    Inv g dirs { w with fs := fs' } where
  windowed := hm.windowed
  right c hc x hx :=
    (entry_congr hc fun a ha => hm.view a ha.not_inCopies).trans (h.right c hc x hx)

/-- Every call keeps what is known, and is steady. -/
theorem step_spec (hdirs : ∀ c ∈ dirs, g.Valid c) (h : w.Inv g dirs) (hmay : e.Permitted g dirs) :
    (w.step g e).Inv g dirs ∧ Fs.Steady g dirs w.fs (w.step g e).fs := by
  cases e with
  | get clst =>
      rcases hcall : getFat g w.fs clst with ⟨v, fs'⟩
      obtain ⟨hm, -⟩ := Fs.getFat_spec h.windowed hdirs hmay hcall
      rw [step, hcall]
      exact ⟨h.moved hm, hm.toSteady⟩
  | put clst val =>
      rcases hcall : putFat g w.fs clst val with ⟨res, fs'⟩
      obtain ⟨hsteady, -, ⟨rfl, hent⟩ | ⟨rfl, -, honly, hkept⟩⟩ :=
        Fs.putFat_spec h.windowed hdirs hmay hcall
      · rw [step, hcall]
        refine ⟨⟨hsteady.windowed, fun c hc x hx => ?_⟩, hsteady⟩
        dsimp only at hx ⊢
        by_cases hsame : c = clst
        · rw [hsame, Function.update_self, Option.mem_some_iff] at hx
          rw [hsame, hent.here, hx]
        · rw [Function.update_of_ne hsame] at hx
          rw [hent.others c hc hsame, h.right c hc x hx]
      · rw [step, hcall]
        refine ⟨⟨hsteady.windowed, fun c hc x hx => ?_⟩, hsteady⟩
        dsimp only at hx ⊢
        by_cases htype : g.fsType = .fat12
        · rw [if_pos htype] at hx
          by_cases hsame : c = clst
          · rw [hsame, Function.update_self] at hx
            cases hx
          · rw [Function.update_of_ne hsame] at hx
            rw [honly.others c hc hsame, h.right c hc x hx]
        · rw [if_neg htype] at hx
          by_cases hsame : c = clst
          · rw [hsame, hkept htype, ← hsame, h.right c hc x hx]
          · rw [honly.others c hc hsame, h.right c hc x hx]
  | visit sector =>
      rcases hcall : moveWindow g w.fs sector with ⟨res, fs'⟩
      obtain ⟨hm, -⟩ := Fs.moveWindow_spec h.windowed hdirs hmay.1 hmay.2 hcall
      rw [step, hcall]
      exact ⟨h.moved hm, hm.toSteady⟩
  | touch sector i b =>
      obtain ⟨hin, hcopy, hfat⟩ := hmay
      rcases hcall : moveWindow g w.fs sector with ⟨res, fs'⟩
      obtain ⟨hm, ⟨rfl, hsect⟩ | ⟨rfl, -⟩⟩ := Fs.moveWindow_spec h.windowed hdirs hin hcopy hcall
      · rw [step, hcall]
        dsimp only
        have hne : fs'.winsect ≠ noSector :=
          hsect ▸ Nat.ne_of_lt (Fs.lt_noSector_of_inWindow hdirs hin)
        have hsteady := hm.windowed.store_steady hne (fs'.win.setLE i 1 b)
        refine ⟨⟨hsteady.windowed, fun c hc x hx => ?_⟩, hm.toSteady.trans hsteady⟩
        refine (entry_congr hc fun a ha => ?_).trans ((h.moved hm).right c hc x hx)
        rw [Fs.view_store, if_neg]
        intro heq
        exact hfat (hsect ▸ heq ▸ ha)
      · rw [step, hcall]
        exact ⟨h.moved hm, hm.toSteady⟩
  | sync =>
      rcases hcall : syncWindow g w.fs with ⟨res, fs'⟩
      obtain ⟨hm, -⟩ := Fs.syncWindow_spec h.windowed hdirs hcall
      rw [step, hcall]
      exact ⟨h.moved hm, hm.toSteady⟩

theorem start_inv (h : fs.Windowed g dirs) : (start g fs).Inv g dirs where
  windowed := h
  right _ _ _ hx := Option.mem_some_iff.mp hx

theorem run_spec (hdirs : ∀ c ∈ dirs, g.Valid c) (h : fs.Windowed g dirs) {events : List TableCall}
    (hmay : ∀ e ∈ events, e.Permitted g dirs) :
    (run (step g) (start g fs) events).Inv g dirs ∧
      Fs.Steady g dirs fs (run (step g) (start g fs) events).fs := by
  refine run_inv (C := fun _ e => TableCall.Permitted g dirs e)
    (I := fun w : Ledger => w.Inv g dirs ∧ Fs.Steady g dirs fs w.fs) ?_ ⟨start_inv h, .refl h⟩
    (stepsMeet_of_forall (fun e he _ => hmay e he) _)
  rintro w e ⟨hinv, hsteady⟩ hmay
  obtain ⟨hinv', hsteady'⟩ := step_spec hdirs hinv hmay
  exact ⟨hinv', hsteady.trans hsteady'⟩

/-- **Acknowledged entries stay.**  Whatever calls come in between, for the neighbour
    in the same byte too, wherever the window is taken, and whichever transfers fail:
    `get_fat` returns the value for which `put_fat` has last returned `FR_OK`, or that
    of the start, unless it reports a failed transfer of its own.  Only an entry of
    FAT12 for which a later `put_fat` failed is not known any more. -/
theorem acknowledged_entries_stay (g : Geometry) (dirs : List Nat) (fs : Fs)
    (events : List TableCall) (c x : Nat) (hdirs : ∀ c ∈ dirs, g.Valid c)
    (h : fs.Windowed g dirs) (hmay : ∀ e ∈ events, e.Permitted g dirs) (hc : g.Valid c)
    (hx : (run (step g) (start g fs) events).known c = some x) :
    (getFat g (run (step g) (start g fs) events).fs c).1 = x ∨
      (getFat g (run (step g) (start g fs) events).fs c).1 = diskError ∧
        ¬ (run (step g) (start g fs) events).fs.Sound := by
  obtain ⟨hinv, -⟩ := run_spec hdirs h hmay
  generalize run (step g) (start g fs) events = w at hinv hx ⊢
  rcases hcall : getFat g w.fs c with ⟨v, fs'⟩
  obtain ⟨-, hval | hfail⟩ := Fs.getFat_spec hinv.windowed hdirs hc hcall
  · exact .inl (hval.trans (hinv.right c hc x hx))
  · exact .inr hfail

/-- A small volume of FAT12; entry 341 lies across two sectors. -/
def floppy : Geometry where
  fsType := .fat12
  csize := 1
  nFats := 2
  nFatent := 700
  fsize := 3
  volbase := 0
  fatbase := 1
  database := 14
  csize_pow := ⟨0, rfl⟩
  csize_le := by decide
  fats := by decide
  entries := by decide
  limit := by decide
  fits := by decide
  reserved := Nat.zero_lt_one
  fsinfo := by decide
  fatEnd := by decide
  sectors := by decide

/-- The volume after `find_volume` has read its boot sector, all zero elsewhere. -/
def blankFs (outcomes : List (Option Memory)) : Fs :=
  ⟨0xFFFFFFFF, 0xFFFFFFFF, none, noSector, fun _ => 0, false, ⟨fun _ => 0, outcomes⟩⟩

theorem windowed_blankFs (g : Geometry) (dirs : List Nat) (outcomes : List (Option Memory)) :
    (blankFs outcomes).Windowed g dirs :=
  ⟨fun hne => absurd rfl hne, fun hdirty => absurd hdirty Bool.false_ne_true,
    fun _ hne => absurd rfl hne⟩

/-- Three neighbours, with a failed write in between. -/
theorem acknowledged_entries_stay_across :
    let events : List TableCall := [.put 341 0xABC, .put 340 0x123, .visit 9, .put 342 0x456,
      .put 341 0x789, .visit 9, .sync]
    let w := run (step floppy) (start floppy (blankFs [none, none, none, some fun _ => 7])) events
    w.known 341 = some 0x789 ∧ ((getFat floppy w.fs 341).1 = 0x789 ∨
      (getFat floppy w.fs 341).1 = diskError ∧ ¬ w.fs.Sound) :=
  ⟨by decide +kernel, acknowledged_entries_stay floppy [] _ _ 341 0x789 (by decide)
    (windowed_blankFs ..) (by decide +kernel) (by decide) (by decide +kernel)⟩

/-- **Every copy.**  Where no transfer fails and the copies of the FAT agree at the
    start, `sync_window` leaves the acknowledged entries in each of them. -/
theorem every_copy_after_sync (g : Geometry) (dirs : List Nat) (fs : Fs)
    (events : List TableCall) (c x k : Nat) (hdirs : ∀ c ∈ dirs, g.Valid c)
    (h : fs.Windowed g dirs) (hs : fs.Sound) (hm : fs.Mirrored g)
    (hmay : ∀ e ∈ events, e.Permitted g dirs) (hc : g.Valid c) (hk : k < g.nFats)
    (hx : (run (step g) (start g fs) events).known c = some x) :
    entry g (fun a => (syncWindow g (run (step g) (start g fs) events).fs).2.disk.bytes
      (a + k * (g.fsize * 512))) c = x := by
  obtain ⟨hinv, hsteady⟩ := run_spec hdirs h hmay
  generalize run (step g) (start g fs) events = w at hinv hsteady hx ⊢
  have hsound := hsteady.sound hs
  rcases hsync : syncWindow g w.fs with ⟨res, fs'⟩
  obtain ⟨hmoved, -, ⟨-, hclean⟩ | ⟨-, hfail⟩⟩ := Fs.syncWindow_spec hinv.windowed hdirs hsync
  · refine (entry_congr hc fun a ha => ?_).trans (hinv.right c hc x hx)
    rw [hmoved.mirrored hsound (hsteady.mirrored hs hm) a ha k hk, ← Fs.view_of_clean hclean,
      hmoved.view a ha.not_inCopies]
  · exact absurd hsound hfail

/-- The entry that lies across two sectors, in the second copy. -/
theorem every_copy_after_sync_across :
    entry floppy (fun a => (syncWindow floppy (run (step floppy) (start floppy (blankFs []))
      [.put 341 0xABC, .put 340 0x123]).fs).2.disk.bytes (a + 1 * (3 * 512))) 341 = 0xABC :=
  every_copy_after_sync floppy [] (blankFs []) [.put 341 0xABC, .put 340 0x123] 341 0xABC 1
    (by decide) (windowed_blankFs ..) rfl (fun _ _ _ _ => rfl) (by decide +kernel) (by decide)
    (by decide) (by decide +kernel)

end Ledger

end McuFirmware.FatFs
