/-
  McuFirmware.FatFs.Seeking

  `f_lseek` inside a file: it follows the chain from where the pointer stands or from the
  start of the file, and has the sector of the new place in the file object.
-/

import McuFirmware.FatFs.Reading

namespace McuFirmware.FatFs

open McuFirmware.Lib

variable {g : Geometry} {dirs : List Nat} {fs fs' : Fs} {fp fp' : Fil} {ch : List Nat}
  {content : List UInt8} {c j k n ofs : Nat}

/-- Sector and cluster of a place that lies `ofs` bytes behind the start of cluster `j`. -/
theorem place_eq (g : Geometry) (h : ofs < g.csize * 512) :
    (j * (g.csize * 512) + ofs) / 512 / g.csize = j ∧
      (j * (g.csize * 512) + ofs) / 512 % g.csize = ofs / 512 := by
  have hpos := g.csize_pos
  have hsect : (j * (g.csize * 512) + ofs) / 512 = g.csize * j + ofs / 512 := by
    rw [← Nat.mul_assoc, Nat.add_comm, Nat.add_mul_div_right _ _ (by decide), Nat.add_comm,
      Nat.mul_comm]
  have hlt : ofs / 512 < g.csize := by omega
  rw [hsect, Nat.mul_add_div hpos, Nat.div_eq_of_lt hlt, Nat.mul_add_mod, Nat.mod_eq_of_lt hlt]
  exact ⟨rfl, rfl⟩

/-- The next cluster of the chain, by `create_chain` or `get_fat`. -/
theorem Owns.follow {d : Nat} (ho : Owns g dirs fs ch) (hc : ch[j]? = some c)
    (hd : ch[j + 1]? = some d) (write : Bool) :
    ∃ fs', (if write = true then createChain g fs c else getFat g fs c) = (d, fs') ∧
      Fs.Moved g dirs fs fs' := by
  have hvalid := ho.valid c (List.mem_of_getElem? hc)
  have hnext := ho.linked.step hc hd
  cases write with
  | true =>
      obtain ⟨fs', hcall, hm⟩ := Fs.createChain_next ho.ready hvalid
        (by rw [hnext]; exact ho.valid d (List.mem_of_getElem? hd))
      rw [hnext] at hcall
      exact ⟨fs', hcall, hm⟩
  | false =>
      obtain ⟨fs', hcall, hm⟩ := ho.ready.getFat hvalid
      rw [hnext] at hcall
      exact ⟨fs', hcall, hm⟩

/-- The loop of `f_lseek` ends in the cluster of the new place. -/
theorem seekLoop_spec (fuel : Nat) (ho : Owns g dirs fs ch)
    (hbase : fp.fptr = j * (g.csize * 512)) (hclust : ch[j]? = some fp.clust) (hpos : 0 < ofs)
    (hroom : fp.fptr + ofs ≤ ch.length * (g.csize * 512)) (hfuel : ofs ≤ fuel) :
    ∃ j' rest c fs', seekLoop g fuel ofs fp.clust fs fp =
        (.ok (rest, c), fs', { fp with clust := c, fptr := j' * (g.csize * 512) }) ∧
      ch[j']? = some c ∧ 0 < rest ∧ rest ≤ g.csize * 512 ∧
      j' * (g.csize * 512) + rest = fp.fptr + ofs ∧ Fs.Moved g dirs fs fs' := by
  have hsize := g.csize_pos
  induction fuel generalizing j ofs fs fp with
  | zero => omega
  | succ fuel ih =>
      rw [seekLoop]
      by_cases hmore : g.csize * 512 < ofs
      · have hnext : j + 1 < ch.length := by
          refine Nat.lt_of_not_le fun hge => ?_
          have hle := Nat.mul_le_mul_right (g.csize * 512) hge
          rw [Nat.succ_mul] at hle
          omega
        have hd := List.getElem?_eq_getElem hnext
        obtain ⟨hlow, hhigh⟩ := ho.valid _ (List.getElem_mem hnext)
        have hlim := g.nFatent_le
        obtain ⟨fs₁, hcall, hm⟩ := ho.follow hclust hd fp.write
        have hsucc : (j + 1) * (g.csize * 512) = j * (g.csize * 512) + g.csize * 512 :=
          Nat.succ_mul ..
        have hbase' : ({ fp with clust := ch[j + 1], fptr := fp.fptr + g.csize * 512 } : Fil).fptr =
            (j + 1) * (g.csize * 512) := by
          dsimp only
          omega
        obtain ⟨j', rest, c, fs₂, hloop, hj, hpos', hle, hsum, hm'⟩ := ih (ho.moved hm) hbase' hd
          (show 0 < ofs - g.csize * 512 by omega) (by dsimp only; omega) (by omega)
        dsimp only at hsum
        refine ⟨j', rest, c, fs₂, ?_, hj, hpos', hle, by omega, hm.trans hm'⟩
        rw [if_pos hmore, hcall]
        dsimp only
        rw [if_neg (by omega), if_neg (by omega), if_neg (by omega)]
        exact hloop
      · rw [if_neg hmore]
        refine ⟨j, ofs, fp.clust, fs, ?_, hclust, hpos, by omega, by omega,
          .refl ho.ready.windowed⟩
        rw [← hbase]

/-- Where the loop starts: at the cluster before the pointer, or at the first one. -/
theorem seekStart_spec (ho : Owns g dirs fs ch) (h : Stored g fs fp ch content)
    (hp : Pointed g fp ch) (hpos : 0 < ofs) (hle : ofs ≤ content.length) :
    ∃ j c, seekStart g fs fp ofs =
        (.ok (ofs - j * (g.csize * 512), c), fs,
          { fp with clust := c, fptr := j * (g.csize * 512) }) ∧
      ch[j]? = some c ∧ j * (g.csize * 512) < ofs := by
  have hsize := g.csize_pos
  rw [seekStart]
  dsimp only
  by_cases hfwd : 0 < fp.fptr ∧ (fp.fptr - 1) / (g.csize * 512) ≤ (ofs - 1) / (g.csize * 512)
  · have hclust := hp.clust hfwd.1
    rw [Nat.div_div_eq_div_mul, Nat.mul_comm] at hclust
    refine ⟨(fp.fptr - 1) / (g.csize * 512), fp.clust, by rw [if_pos hfwd], hclust, ?_⟩
    have hbelow := Nat.mul_le_mul_right (g.csize * 512) hfwd.2
    have hdiv := Nat.div_mul_le_self (ofs - 1) (g.csize * 512)
    omega
  · have hroom := h.room
    cases ch with
    | nil =>
        rw [List.length_nil] at hroom
        omega
    | cons c cs =>
        have hlow := (ho.valid c List.mem_cons_self).1
        have hstart : fp.sclust = c := h.start
        refine ⟨0, c, ?_, rfl, by omega⟩
        rw [if_neg hfwd, if_pos (by omega), hstart, Nat.zero_mul, Nat.sub_zero]

/-- The new place: the pointer, its cluster, and its sector off a sector boundary. -/
theorem seekTo_spec (ho : Owns g dirs fs ch) (h : Stored g fs fp ch content)
    (hp : Pointed g fp ch) (hle : ofs ≤ content.length) :
    ∃ nsect fs' c, seekTo g fs fp ofs = (.ok nsect, fs', { fp with clust := c, fptr := ofs }) ∧
      (0 < ofs → ch[(ofs - 1) / 512 / g.csize]? = some c) ∧
      (ofs % 512 ≠ 0 → nsect = sectorOf g ch (ofs / 512)) ∧ Fs.Moved g dirs fs fs' := by
  rw [seekTo]
  by_cases hzero : ofs = 0
  · refine ⟨0, fs, fp.clust, by rw [if_pos hzero, hzero], fun hpos => ?_, fun hmod => ?_,
      .refl ho.ready.windowed⟩
    · omega
    · omega
  · have hsize := g.csize_pos
    have hroom := h.room
    rw [Nat.mul_assoc] at hroom
    obtain ⟨j, c, hstart, hj, hlt⟩ := seekStart_spec ho h hp (by omega) hle
    have hbase : ({ fp with clust := c, fptr := j * (g.csize * 512) } : Fil).fptr =
        j * (g.csize * 512) := rfl
    obtain ⟨j', rest, d, fs', hloop, hd, hpos, hrest, hsum, hm⟩ := seekLoop_spec
      (ofs - j * (g.csize * 512)) ho hbase hj (by omega) (by dsimp only; omega) (Nat.le_refl _)
    dsimp only at hloop hsum
    have hlow := (ho.valid c (List.mem_of_getElem? hj)).1
    have hplace : ofs = j' * (g.csize * 512) + rest := by omega
    rw [if_neg hzero, hstart]
    dsimp only
    rw [if_neg (by omega), hloop]
    dsimp only
    rw [← hplace]
    have hclust : ch[(ofs - 1) / 512 / g.csize]? = some d := by
      have hpred : ofs - 1 = j' * (g.csize * 512) + (rest - 1) := by omega
      rw [hpred, (place_eq g (by omega)).1]
      exact hd
    by_cases hmod : rest % 512 = 0
    · refine ⟨0, fs', d, by rw [if_neg (not_not_intro hmod)], fun _ => hclust, fun hne => ?_, hm⟩
      have hdvd : ofs % 512 = rest % 512 := by
        rw [hplace, ← Nat.mul_assoc, Nat.mul_add_mod_self_right]
      omega
    · obtain ⟨hdiv, hcsect⟩ := place_eq (j := j') g (show rest < g.csize * 512 by omega)
      rw [← hplace] at hdiv hcsect
      obtain ⟨hne, hsect⟩ := ho.clust2sect_eq (by rw [hdiv]; exact hd)
      rw [hcsect] at hsect
      exact ⟨_, fs', d, by rw [if_pos hmod, if_neg hne], fun _ => hclust, fun _ => hsect, hm⟩

/-- `f_lseek` to a place in the file, or to its end: the bytes stay. -/
theorem fLseek_spec (ho : Owns g dirs fs ch) (h : Stored g fs fp ch content)
    (hp : Pointed g fp ch) (herr : fp.err = .ok)
    (hofs : ofs ≤ content.length ∨ fp.write = false) :
    ∃ fs' fp', fLseek g fs fp ofs = (.ok, fs', fp') ∧ Owns g dirs fs' ch ∧
      Stored g fs' fp' ch content ∧ Pointed g fp' ch ∧ fp'.fptr = min ofs content.length ∧
      Kept fp fp' ∧ Touched g dirs (· ∈ ch) fs fs' := by
  have hsize := h.size
  have hmin : (if fp.objsize < ofs ∧ fp.write = false then fp.objsize else ofs) =
      min ofs content.length := by
    rw [hsize]
    by_cases hover : content.length < ofs
    · rw [if_pos ⟨hover, hofs.resolve_left (by omega)⟩]
      omega
    · rw [if_neg (fun hc => hover hc.1)]
      omega
  have hle : min ofs content.length ≤ content.length := Nat.min_le_right ..
  generalize min ofs content.length = p at hmin hle
  obtain ⟨nsect, fs₁, c, hseek, hclust, hsect, hm⟩ := seekTo_spec ho h hp hle
  have ho₁ := ho.moved hm
  have h₁ : Stored g fs₁ { fp with clust := c, fptr := p } ch content :=
    (h.moved ho hm).of_kept rfl rfl rfl rfl rfl
  rw [fLseek, if_neg (not_not_intro herr)]
  dsimp only
  rw [hmin, hseek]
  dsimp only
  by_cases hload : p % 512 ≠ 0 ∧ nsect ≠ fp.sect
  · -- the sector at the new place is loaded
    have hcov : p / 512 < ch.length * g.csize := h.covered (by omega)
    obtain ⟨fs₂, hflush, ho₂, h₂, ht⟩ := flush_spec ho₁ h₁
    rw [if_pos hload, hflush]
    dsimp only
    rw [fill_of_sound ho₂.ready.sound]
    dsimp only
    rw [if_neg (by omega)]
    have hnsect := hsect hload.1
    refine ⟨fs₂, _, rfl, ho₂, h₂.turn rfl ?_ fun _ _ _ _ _ => rfl, ⟨?_, hclust, fun _ => hnsect⟩,
      rfl, ⟨rfl, rfl, rfl, rfl, rfl, rfl⟩, (moved_touched hm _).trans ht⟩
    · rw [hnsect]
      exact sectorOf_lt ho.valid hcov
    · dsimp only
      omega
  · rw [if_neg hload]
    dsimp only
    rw [if_neg (by omega)]
    refine ⟨fs₁, _, rfl, ho₁, h₁, ⟨?_, hclust, fun hmod => ?_⟩, rfl, ⟨rfl, rfl, rfl, rfl, rfl, rfl⟩,
      moved_touched hm _⟩
    · dsimp only
      omega
    · dsimp only at hmod ⊢
      rw [← hsect hmod]
      exact (Classical.byContradiction fun hne => hload ⟨hmod, fun heq => hne heq.symm⟩)

end McuFirmware.FatFs
