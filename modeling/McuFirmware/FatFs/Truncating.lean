/-
  McuFirmware.FatFs.Truncating

  `f_truncate` cuts the file at the pointer and frees the clusters behind it.

  The sector of the file object is written back only after that, and may then go to a
  cluster that has just been freed.
-/

import McuFirmware.FatFs.Reading

namespace McuFirmware.FatFs

open McuFirmware.Lib

variable {g : Geometry} {dirs : List Nat} {fs fs' : Fs} {fp fp' : Fil} {ch : List Nat}
  {content : List UInt8} {c j k p : Nat}

-- ============================================================================
-- Shorter chains
-- ============================================================================

/-- The chain that is left when entries of the old one have changed. -/
theorem Owns.remains {ch' : List Nat} {f : Nat → Nat} (ho : Owns g dirs fs ch)
    (hch : Fs.Changed g dirs fs fs' f) (hone : ∀ d ∈ ch, f d ≠ 1)
    (hout : ∀ d, d ∉ ch → f d = fs.fat g d) (hsub : ∀ d ∈ ch', d ∈ ch) (hnodup : ch'.Nodup)
    (hlinked : Chained f g.IsEnd ch') :
    Owns g dirs fs' ch' ∧ Touched g dirs (· ∈ ch) fs fs' := by
  have hvalid : ∀ d ∈ ch', g.Valid d := fun d hd => ho.valid d (hsub d hd)
  refine ⟨⟨hch.toSteady.ready ho.ready, hvalid, hnodup,
    hlinked.congr fun d hd => hch.fat_eq d (hvalid d hd),
    fun d hd hin => ho.apart d hd (hsub d hin), fun d hd => ?_, fun d hd => ?_⟩,
    changed_touched hch fun d _ hd => hout d hd⟩
  · rw [hch.fat_eq d (ho.ready.dirs_valid d hd), hout d (ho.apart d hd)]
    exact ho.used d hd
  · rw [hch.fat_eq d hd]
    by_cases hin : d ∈ ch
    · exact hone d hin
    · rw [hout d hin]
      exact ho.proper d hd

/-- `remove_chain` behind cluster `j` of a chain. -/
theorem Owns.cut_behind (ho : Owns g dirs fs ch) (hc : ch[j]? = some c)
    (hnext : j + 1 < ch.length) :
    ∃ fs', removeChain g fs (fs.fat g c) c = (.ok, fs') ∧ Owns g dirs fs' (ch.take (j + 1)) ∧
      Fs.Steady g dirs fs fs' ∧ Touched g dirs (· ∈ ch) fs fs' := by
  have hlim := g.nFatent_le.1
  have hentries := g.entries
  have hstep := ho.linked.step hc (List.getElem?_eq_getElem hnext)
  have htake : ch.take (j + 1) = ch.take j ++ [c] := by
    rw [List.take_add_one, hc]
    rfl
  have hsplit : ch = ch.take j ++ c :: fs.fat g c :: ch.drop (j + 2) := by
    rw [hstep, ← List.drop_eq_getElem_cons hnext]
    conv_lhs => rw [← List.take_append_drop (j + 1) ch, htake, List.append_assoc]
    rfl
  have hsub : ∀ d ∈ ch.take (j + 1), d ∈ ch := fun d hd => List.mem_of_mem_take hd
  have hnodup := (List.take_sublist (j + 1) ch).nodup ho.nodup
  rw [htake] at hsub hnodup ⊢
  generalize ch.take j = xs at hsplit hsub hnodup
  generalize ch.drop (j + 2) = cs at hsplit
  have hvalid := ho.valid
  have hdup := ho.nodup
  have hlinked := ho.linked
  rw [hsplit] at hvalid hdup hlinked
  obtain ⟨fs', hcall, hch, -, -⟩ := Fs.removeChain_behind ho.ready hvalid hdup hlinked
  obtain ⟨-, hrest, hapart⟩ := List.nodup_append.mp hdup
  have hout : c ∉ fs.fat g c :: cs := (List.nodup_cons.mp hrest).1
  suffices hkeep : Owns g dirs fs' (xs ++ [c]) ∧ Touched g dirs (· ∈ ch) fs fs' from
    ⟨fs', hcall, hkeep.1, hch.toSteady, hkeep.2⟩
  refine ho.remains hch (fun d hd => ?_) (fun d hd => ?_) hsub hnodup ?_
  · split
    · exact Nat.zero_ne_one
    · split
      · omega
      · exact ho.proper d (ho.valid d hd)
  · rw [hsplit] at hd
    rw [if_neg fun hin => hd (List.mem_append_right _ (List.mem_cons_of_mem c hin)), if_neg]
    rintro rfl
    exact hd (List.mem_append_right _ List.mem_cons_self)
  · refine hlinked.cut (fun x hx => ?_) ?_
    · rw [if_neg fun hin => hapart x hx x (List.mem_cons_of_mem c hin) rfl, if_neg]
      rintro rfl
      exact hapart x hx x List.mem_cons_self rfl
    · rw [if_neg hout, if_pos rfl]
      exact hlim

/-- A clean file object with a shorter chain and fewer bytes. -/
theorem Stored.cut {ch' rest : List Nat} (h : Stored g fs fp ch content) (hflag : fp.dirty = false)
    (hch : ch = ch' ++ rest) (hle : p ≤ content.length) (hroom : p ≤ ch'.length * g.csize * 512)
    (hs : fp'.sclust = ch'.headD 0) (ho : fp'.objsize = p) (hd : fp'.dirty = false)
    (hsect : fp'.sect = fp.sect) (hb : fp'.buf = fp.buf) :
    Stored g fs fp' ch' (content.take p) := by
  have hlen : (content.take p).length = p := by
    rw [List.length_take]
    omega
  have hlong := h.short
  have hsame (k : Nat) (hk : k * 512 < p) : sectorOf g ch k = sectorOf g ch' k := by
    rw [hch]
    exact sectorOf_append (by omega)
  refine ⟨hs, by rw [ho, hlen], by omega, by omega, fun i hi => ?_, hsect ▸ h.sect_lt,
    fun hdirty => absurd (hd.symm.trans hdirty) Bool.false_ne_true, fun _ k hk hks i hi => ?_⟩
  · rw [hlen] at hi
    rw [List.getD_eq_getElem?_getD, List.getElem?_take_of_lt hi, ← List.getD_eq_getElem?_getD,
      h.data i (by omega), byteOf_of_clean hflag, byteOf_of_clean hd, hsame _ (by omega)]
  · rw [hlen] at hk
    rw [hb, hsect]
    exact h.clean hflag k (by omega) (by rw [hsame k hk, ← hks, hsect]) i hi

-- ============================================================================
-- f_truncate
-- ============================================================================

/-- The clusters behind the pointer are freed: the first `k` are left. -/
theorem cutChain_spec (ho : Owns g dirs fs ch) (h : Stored g fs fp ch content)
    (hp : Pointed g fp ch) (hlt : fp.fptr < content.length) :
    ∃ k fs', cutChain g fs fp = (.ok, fs', { fp with sclust := (ch.take k).headD 0 }) ∧
      Owns g dirs fs' (ch.take k) ∧ Fs.Steady g dirs fs fs' ∧ Touched g dirs (· ∈ ch) fs fs' ∧
      k ≤ ch.length ∧ fp.fptr ≤ k * g.csize * 512 ∧
      (0 < fp.fptr → (fp.fptr - 1) / 512 / g.csize < k) := by
  have hroom := h.room
  have hentries := g.entries
  have hlim := g.nFatent_le
  rw [cutChain]
  by_cases hzero : fp.fptr = 0
  · cases ch with
    | nil =>
        rw [List.length_nil] at hroom
        omega
    | cons c cs =>
        have hstart : fp.sclust = c := h.start
        obtain ⟨fs', hcall, hch, -, -⟩ := Fs.removeChain_all ho.ready ho.valid ho.nodup ho.linked
        obtain ⟨ho', ht⟩ := ho.remains hch
          (fun d hd => by rw [if_pos hd]; exact Nat.zero_ne_one) (fun d hd => if_neg hd)
          (fun d hd => absurd hd List.not_mem_nil) List.nodup_nil trivial
        refine ⟨0, fs', ?_, ho', hch.toSteady, ht, Nat.zero_le _, by omega, fun hpos => by omega⟩
        rw [if_pos hzero, hstart, hcall]
        rfl
  · have hclust := hp.clust (by omega)
    have hplace : fp.fptr ≤ ((fp.fptr - 1) / 512 / g.csize + 1) * g.csize * 512 := by
      have hdiv := Nat.lt_div_mul_add (a := (fp.fptr - 1) / 512) g.csize_pos
      rw [Nat.succ_mul]
      omega
    generalize (fp.fptr - 1) / 512 / g.csize = j at hclust hplace
    have hvalid := ho.valid _ (List.mem_of_getElem? hclust)
    have hj := (List.getElem?_eq_some_iff.mp hclust).1
    obtain ⟨fs₁, hget, hm⟩ := ho.ready.getFat hvalid
    have herr := Fs.fat_lt_diskError g fs fp.clust
    have htake : ch.take (j + 1) = ch.take j ++ [fp.clust] := by
      rw [List.take_add_one, hclust]
      rfl
    have hhead : fp.sclust = (ch.take (j + 1)).headD 0 := by
      rw [h.start]
      cases ch with
      | nil => rfl
      | cons c cs => rfl
    have hkeep : { fp with sclust := (ch.take (j + 1)).headD 0 } = fp := by rw [← hhead]
    rw [if_neg hzero, hget]
    dsimp only
    by_cases hlast : j + 1 = ch.length
    · have hend : g.nFatent ≤ fs.fat g fp.clust := ho.linked.last hclust hlast
      refine ⟨j + 1, fs₁, ?_, ?_, hm.toSteady, moved_touched hm _, by omega, hplace,
        fun _ => Nat.lt_succ_self j⟩
      · rw [if_neg (by omega), if_neg (by omega), if_neg (by omega), hkeep]
      · rw [hlast, List.take_length]
        exact ho.moved hm
    · have hnext : j + 1 < ch.length := by omega
      obtain ⟨hlow, hhigh⟩ := ho.valid _ (List.getElem_mem hnext)
      have hstep := ho.linked.step hclust (List.getElem?_eq_getElem hnext)
      obtain ⟨fs₂, hcall, ho₂, hs, ht⟩ := (ho.moved hm).cut_behind hclust hnext
      rw [hm.fat_eq hvalid] at hcall
      refine ⟨j + 1, fs₂, ?_, ho₂, hm.toSteady.trans hs, (moved_touched hm _).trans ht, by omega,
        hplace, fun _ => Nat.lt_succ_self j⟩
      rw [if_neg (by omega), if_neg (by omega), if_pos (by omega), hcall, hkeep]

/-- `f_truncate` keeps the bytes in front of the pointer. -/
theorem fTruncate_spec (ho : Owns g dirs fs ch) (h : Stored g fs fp ch content)
    (hp : Pointed g fp ch) (herr : fp.err = .ok) (hmode : fp.write = true) :
    ∃ k fs' fp', fTruncate g fs fp = (.ok, fs', fp') ∧ Owns g dirs fs' (ch.take k) ∧
      Stored g fs' fp' (ch.take k) (content.take fp.fptr) ∧ Pointed g fp' (ch.take k) ∧
      fp'.fptr = fp.fptr ∧ fp'.err = .ok ∧ fp'.read = fp.read ∧ fp'.write = fp.write ∧
      fp'.dirSect = fp.dirSect ∧ fp'.dirPtr = fp.dirPtr ∧ Touched g dirs (· ∈ ch) fs fs' := by
  have hsize := h.size
  have hptr := hp.ptr
  rw [fTruncate, if_neg (not_not_intro herr), if_neg (by rw [hmode]; exact Bool.noConfusion)]
  by_cases hlt : fp.fptr < fp.objsize
  · obtain ⟨k, fs₁, hcut, ho₁, hs, ht, hk, hroom, hplace⟩ := cutChain_spec ho h hp (by omega)
    -- the sector goes back as it would have gone before the cut
    have h₁ := h.steady ho hs
    obtain ⟨ho₂, ht₂, -⟩ := ho₁.flushed h₁ fun c hc =>
      ⟨ho.valid c hc, fun hd => ho.apart c hd hc⟩
    have hlen : (ch.take k).length = k := by
      rw [List.length_take]
      omega
    rw [if_pos hlt, hcut]
    dsimp only
    rw [flush_of_sound ho₁.ready.sound]
    dsimp only
    refine ⟨k, _, _, rfl, ho₂, ?_, ⟨Nat.le_refl _, fun hpos => ?_, fun hmod => ?_⟩, rfl, herr, rfl,
      rfl, rfl, rfl, ht.trans ht₂⟩
    · exact h₁.flushed.cut rfl (List.take_append_drop k ch).symm (by omega) (by rwa [hlen]) rfl rfl
        rfl rfl rfl
    · rw [List.getElem?_take_of_lt (hplace hpos)]
      exact hp.clust hpos
    · have hdiv : (fp.fptr - 1) / 512 = fp.fptr / 512 := by
        dsimp only at hmod
        omega
      have hin := hplace (by dsimp only at hmod; omega)
      rw [hdiv] at hin
      have hcov : fp.fptr / 512 < (ch.take k).length * g.csize := by
        rw [hlen]
        exact (Nat.div_lt_iff_lt_mul g.csize_pos).mp hin
      have hsame : sectorOf g (ch.take k ++ ch.drop k) (fp.fptr / 512) = _ := sectorOf_append hcov
      rw [List.take_append_drop] at hsame
      exact (hp.sect hmod).trans hsame
  · have hall : content.take fp.fptr = content := List.take_of_length_le (by omega)
    rw [if_neg hlt]
    refine ⟨ch.length, fs, fp, rfl, ?_, ?_, ?_, rfl, herr, rfl, rfl, rfl, rfl,
      .refl ho.ready.windowed _⟩
    · rwa [List.take_length]
    · rwa [List.take_length, hall]
    · rwa [List.take_length]

end McuFirmware.FatFs
