/-
  McuFirmware.FatFs.Writing

  `f_write` puts the bytes at the pointer, over those that are there and then behind the
  end of the file, with clusters that were free.  It stops early only where none is free.
-/

import McuFirmware.FatFs.Reading

namespace McuFirmware.FatFs

open McuFirmware.Lib

-- ============================================================================
-- Bytes over bytes
-- ============================================================================

/-- The bytes `bs` laid over the content at `p`. -/
def overwrite (content : List UInt8) (p : Nat) (bs : List UInt8) : List UInt8 :=
  content.take p ++ bs ++ content.drop (p + bs.length)

section Overwrite

variable {content as bs : List UInt8} {p i : Nat}

theorem length_overwrite (hp : p ≤ content.length) :
    (overwrite content p bs).length = max content.length (p + bs.length) := by
  simp only [overwrite, List.length_append, List.length_take, List.length_drop]
  omega

theorem getD_overwrite (hp : p ≤ content.length) : (overwrite content p bs).getD i 0 =
    if p ≤ i ∧ i < p + bs.length then bs.getD (i - p) 0 else content.getD i 0 := by
  have hlen : (content.take p).length = p := by
    rw [List.length_take]
    omega
  simp only [overwrite, List.getD_eq_getElem?_getD, List.append_assoc]
  by_cases hlow : i < p
  · rw [List.getElem?_append_left (by omega), List.getElem?_take_of_lt hlow, if_neg (by omega)]
  · rw [List.getElem?_append_right (by omega), hlen]
    by_cases hhigh : i < p + bs.length
    · rw [List.getElem?_append_left (by omega), if_pos (by omega)]
    · rw [List.getElem?_append_right (by omega), List.getElem?_drop, if_neg (by omega)]
      congr 2
      omega

theorem overwrite_nil (content : List UInt8) (p : Nat) : overwrite content p [] = content := by
  rw [overwrite, List.append_nil, List.length_nil, Nat.add_zero, List.take_append_drop]

/-- One piece after the other. -/
theorem overwrite_overwrite (hp : p ≤ content.length) :
    overwrite (overwrite content p as) (p + as.length) bs = overwrite content p (as ++ bs) := by
  have hlen : (content.take p ++ as).length = p + as.length := by
    rw [List.length_append, List.length_take]
    omega
  have htake : (overwrite content p as).take (p + as.length) = content.take p ++ as := by
    rw [overwrite, List.take_left' hlen]
  have hdrop : (overwrite content p as).drop (p + as.length + bs.length) =
      content.drop (p + (as ++ bs).length) := by
    rw [← List.drop_drop, overwrite, List.drop_left' hlen, List.drop_drop, List.length_append,
      Nat.add_assoc]
  rw [overwrite, htake, hdrop, overwrite, List.append_assoc]
  simp only [List.append_assoc]

end Overwrite

-- ============================================================================
-- Transfers
-- ============================================================================

variable {g : Geometry} {dirs : List Nat} {fs fs' : Fs} {fp fp' : Fil} {ch : List Nat}
  {content data : List UInt8} {c k n : Nat}

theorem objsize_advance (h : fp.objsize = content.length) (hptr : fp.fptr ≤ content.length)
    (hn : n ≤ data.length) :
    (advance fp n).objsize = (overwrite content fp.fptr (data.take n)).length := by
  rw [length_overwrite hptr, List.length_take, advance]
  dsimp only
  rw [h]
  split <;> omega

/-- The rest of a sector goes into the file object. -/
theorem writePart_spec (hvalid : ∀ c ∈ ch, g.Valid c) (hnodup : ch.Nodup)
    (h : Stored g fs fp ch content) (hsect : fp.sect = sectorOf g ch (fp.fptr / 512))
    (hk : fp.fptr / 512 < ch.length * g.csize) (hptr : fp.fptr ≤ content.length)
    (hpos : 0 < n) (hn : n = min (512 - fp.fptr % 512) data.length)
    (hshort : fp.fptr + data.length < 2 ^ 32) :
    ∃ fp', writePart fp (Memory.ofList data) data.length = (n, fp') ∧
      Stored g fs (advance fp' n) ch (overwrite content fp.fptr (data.take n)) ∧ Kept fp fp' ∧
      fp'.fptr = fp.fptr ∧ fp'.clust = fp.clust ∧ fp'.sect = fp.sect := by
  have hlen : (data.take n).length = n := by
    rw [List.length_take]
    omega
  have hroom := h.room
  have hlong := h.short
  have htotal : (overwrite content fp.fptr (data.take n)).length =
      max content.length (fp.fptr + n) := by
    rw [length_overwrite hptr, hlen]
  generalize hbuf : fp.buf.blit (fp.fptr % 512) n (Memory.ofList data) = buf
  refine ⟨{ fp with buf := buf, dirty := true }, by rw [writePart, ← hn, hbuf],
    ⟨h.start, objsize_advance h.size hptr (by omega), by omega, by omega, fun i hi => ?_, h.sect_lt,
      fun _ => ⟨fp.fptr / 512, by omega, hsect⟩, fun hd => absurd hd Bool.noConfusion⟩,
    ⟨rfl, rfl, rfl, rfl, rfl, rfl⟩, rfl, rfl, rfl⟩
  rw [getD_overwrite hptr, hlen]
  by_cases hsame : i / 512 = fp.fptr / 512
  · -- in the sector of the file object
    have hbyte : byteOf g fs (advance { fp with buf := buf, dirty := true } n) ch i =
        buf (i % 512) := by
      rw [byteOf, hsame]
      exact if_pos ⟨rfl, hsect⟩
    rw [hbyte, ← hbuf]
    by_cases hnew : fp.fptr ≤ i ∧ i < fp.fptr + n
    · have hoff : i % 512 - fp.fptr % 512 = i - fp.fptr := by omega
      rw [if_pos hnew, Memory.blit_apply_of_inside (by omega) (by omega), hoff, Memory.ofList,
        List.getD_eq_getElem?_getD, List.getElem?_take_of_lt (by omega),
        ← List.getD_eq_getElem?_getD]
    · rw [if_neg hnew, Memory.blit_apply_of_outside (by omega), h.data i (by omega),
        h.byteOf_eq (by omega) (by rw [hsame]; exact hsect)]
  · have hne : fp.sect ≠ sectorOf g ch (i / 512) := by
      rw [hsect]
      intro heq
      exact hsame (sectorOf_inj hvalid hnodup hk (by omega) heq).symm
    rw [if_neg (by omega), h.data i (by omega), byteOf_of_ne hne, byteOf_of_ne]
    exact hne

/-- `n` whole sectors at `ptr`, in the cluster `c` of the chain, and the bytes for them. -/
structure Direct (g : Geometry) (ch : List Nat) (content data : List UInt8) (ptr n c : Nat) :
    Prop where
  bound : ptr % 512 = 0
  cluster : ch[ptr / 512 / g.csize]? = some c
  fit : ptr / 512 % g.csize + n ≤ g.csize
  inside : ptr ≤ content.length
  enough : 512 * n ≤ data.length
  short : ptr + 512 * n < 2 ^ 32

namespace Direct

variable {ptr i j : Nat}

/-- The sectors lie one behind the other. -/
theorem near (hd : Direct g ch content data ptr n c) (hj : ptr / 512 ≤ j)
    (hlt : j < ptr / 512 + n) :
    sectorOf g ch j = sectorOf g ch (ptr / 512) + (j - ptr / 512) := by
  have hfit := hd.fit
  have hadd := (sectorOf_add (g := g) (k := ptr / 512) (n := j - ptr / 512) ch (by omega)).1
  rwa [Nat.add_sub_cancel' hj] at hadd

theorem room (hd : Direct g ch content data ptr n c) : ptr / 512 + n ≤ ch.length * g.csize := by
  have hfit := hd.fit
  have hlt : ptr / 512 / g.csize < ch.length := (List.getElem?_eq_some_iff.mp hd.cluster).1
  have hle := Nat.mul_le_mul_right g.csize hlt
  have hx := Nat.div_add_mod (ptr / 512) g.csize
  have hcomm : g.csize * (ptr / 512 / g.csize) = ptr / 512 / g.csize * g.csize := Nat.mul_comm ..
  rw [Nat.succ_mul] at hle
  omega

/-- No other sector of the file is among them. -/
theorem far (hd : Direct g ch content data ptr n c) (hvalid : ∀ c ∈ ch, g.Valid c)
    (hnodup : ch.Nodup) (hj : j < ch.length * g.csize)
    (hout : ¬ (ptr / 512 ≤ j ∧ j < ptr / 512 + n)) :
    ¬ (sectorOf g ch (ptr / 512) ≤ sectorOf g ch j ∧
      sectorOf g ch j < sectorOf g ch (ptr / 512) + n) := by
  rintro ⟨hlow, hhigh⟩
  have hroom := hd.room
  have heq := hd.near (j := ptr / 512 + (sectorOf g ch j - sectorOf g ch (ptr / 512))) (by omega)
    (by omega)
  have hj' := sectorOf_inj hvalid hnodup (by omega) hj (by omega : sectorOf g ch
    (ptr / 512 + (sectorOf g ch j - sectorOf g ch (ptr / 512))) = sectorOf g ch j)
  omega

theorem length_eq (hd : Direct g ch content data ptr n c) :
    (overwrite content ptr (data.take (512 * n))).length = max content.length (ptr + 512 * n) := by
  rw [length_overwrite hd.inside, List.length_take, Nat.min_eq_left hd.enough]

/-- The bytes of the file are on the drive, where the file object has none of its own. -/
theorem bytes_eq (hd : Direct g ch content data ptr n c) (ho : Owns g dirs fs ch)
    (h : Stored g fs fp ch content) (hflag : fp.dirty = false)
    (hi : i < max content.length (ptr + 512 * n)) :
    (overwrite content ptr (data.take (512 * n))).getD i 0 =
      (written fs (sectorOf g ch (ptr / 512)) n (Memory.ofList data)).disk.bytes
        (sectorOf g ch (i / 512) * 512 + i % 512) := by
  have hbound := hd.bound
  have hinside := hd.inside
  have hroom := h.room
  rw [getD_overwrite hinside, List.length_take, Nat.min_eq_left hd.enough]
  by_cases hnew : ptr ≤ i ∧ i < ptr + 512 * n
  · have haddr : sectorOf g ch (i / 512) * 512 + i % 512 =
        sectorOf g ch (ptr / 512) * 512 + (i - ptr) := by
      rw [hd.near (by omega : ptr / 512 ≤ i / 512) (by omega)]
      omega
    rw [if_pos hnew, haddr, bytes_written (by omega), Memory.ofList,
      List.getD_eq_getElem?_getD, List.getElem?_take_of_lt (by omega),
      ← List.getD_eq_getElem?_getD]
  · have hout := hd.far ho.valid ho.nodup (by omega : i / 512 < ch.length * g.csize) (by omega)
    rw [if_neg hnew, h.data i (by omega), byteOf_of_clean hflag, bytes_written_of_ne]
    omega

/-- The file after the transfer, with a file object whose sector is the one on the drive. -/
theorem stored (hd : Direct g ch content data fp.fptr n c) (ho : Owns g dirs fs ch)
    (h : Stored g fs fp ch content) (hflag : fp.dirty = false) (buf : Memory)
    (hbuf : ∀ j, j * 512 < max content.length (fp.fptr + 512 * n) → fp.sect = sectorOf g ch j →
      ∀ i < 512, buf i = (written fs (sectorOf g ch (fp.fptr / 512)) n
        (Memory.ofList data)).disk.bytes (fp.sect * 512 + i)) :
    Stored g (written fs (sectorOf g ch (fp.fptr / 512)) n (Memory.ofList data))
      (advance { fp with buf := buf, dirty := false } (512 * n)) ch
      (overwrite content fp.fptr (data.take (512 * n))) := by
  have htotal := hd.length_eq
  have hlong := h.short
  have hroom := h.room
  have hend := hd.room
  have hshort := hd.short
  have hbound := hd.bound
  refine ⟨h.start, objsize_advance h.size hd.inside hd.enough, by omega, by omega,
    fun i hi => ?_, h.sect_lt, fun hdirty => absurd hdirty Bool.false_ne_true,
    fun _ j hj hjs i hi => ?_⟩
  · rw [hd.bytes_eq ho h hflag (by omega)]
    exact (byteOf_of_clean rfl).symm
  · exact hbuf j (by omega) hjs i hi

end Direct

/-- The sector of the file object is one of those written, and is refilled. -/
theorem refilled {sect : Nat} (hlow : sect ≤ fp.sect) (hhigh : fp.sect < sect + n) (k : Nat)
    (hk : k < 512) :
    Memory.ofList data ((fp.sect - sect) * 512 + k) =
      (written fs sect n (Memory.ofList data)).disk.bytes (fp.sect * 512 + k) := by
  have haddr : fp.sect * 512 + k = sect * 512 + ((fp.sect - sect) * 512 + k) := by omega
  rw [haddr, bytes_written (by omega)]

/-- Whole sectors go to the drive, and into the file object where it holds one of them. -/
theorem writeDirect_spec (ho : Owns g dirs fs ch) (h : Stored g fs fp ch content)
    (hflag : fp.dirty = false) (hd : Direct g ch content data fp.fptr n c) :
    ∃ fs' fp', writeDirect fs fp (Memory.ofList data) (sectorOf g ch (fp.fptr / 512)) n =
        (.ok (512 * n), fs', fp') ∧ Owns g dirs fs' ch ∧
      Stored g fs' (advance fp' (512 * n)) ch (overwrite content fp.fptr (data.take (512 * n))) ∧
      Kept fp fp' ∧ fp'.fptr = fp.fptr ∧ fp'.clust = fp.clust ∧
      Touched g dirs (· ∈ ch) fs fs' := by
  have hc := List.mem_of_getElem? hd.cluster
  have hhere := sectorOf_eq hd.cluster
  have hmax := Geometry.start_add_csize_le (ho.valid c hc)
  have hsectors := g.sectors
  have hfit := hd.fit
  have hrange : sub32 fp.sect (sectorOf g ch (fp.fptr / 512)) < n ↔
      sectorOf g ch (fp.fptr / 512) ≤ fp.sect ∧
        fp.sect < sectorOf g ch (fp.fptr / 512) + n :=
    sub32_lt_iff h.sect_lt (by omega)
  obtain ⟨ho', ht⟩ := ho.write hc (by omega : g.start c ≤ sectorOf g ch (fp.fptr / 512))
    (by omega : sectorOf g ch (fp.fptr / 512) + n ≤ _) (Memory.ofList data)
  rw [writeDirect, diskWrite_of_sound ho.ready.sound]
  dsimp only
  by_cases hin : sub32 fp.sect (sectorOf g ch (fp.fptr / 512)) < n
  · obtain ⟨hlow, hhigh⟩ := hrange.mp hin
    rw [if_pos hin, sub32_eq hlow h.sect_lt]
    exact ⟨_, _, rfl, ho', hd.stored ho h hflag _ fun _ _ _ => refilled hlow hhigh,
      ⟨rfl, rfl, rfl, rfl, rfl, rfl⟩, rfl, rfl, ht⟩
  · rw [if_neg hin]
    have hsame : { fp with buf := fp.buf, dirty := false } = fp := by rw [← hflag]
    have hstored := hd.stored ho h hflag fp.buf fun j hj hjs i hi => ?_
    · rw [hsame] at hstored
      exact ⟨_, _, rfl, ho', hstored, .refl fp, rfl, rfl, ht⟩
    · -- the sector is not among those written, so the file has had bytes in it before
      have hbound := hd.bound
      have hinside := hd.inside
      have hout := fun hc => hin (hrange.mpr hc)
      have hold : j * 512 < content.length := by
        refine Nat.lt_of_not_le fun hge => hout ?_
        rw [hjs, hd.near (by omega : fp.fptr / 512 ≤ j) (by omega)]
        omega
      rw [h.clean hflag j hold hjs i hi, bytes_written_of_ne]
      omega

-- ============================================================================
-- Another cluster
-- ============================================================================

/-- The clusters that a call on a file may touch: its own, and the free ones. -/
def Reach (g : Geometry) (fs : Fs) (ch : List Nat) (c : Nat) : Prop := c ∈ ch ∨ fs.fat g c = 0

/-- One call after the other. -/
theorem Touched.grow {fs'' : Fs} {ch' : List Nat} (h : Touched g dirs (Reach g fs ch) fs fs')
    (h' : Touched g dirs (Reach g fs' ch') fs' fs'') (hch : ∀ c ∈ ch', Reach g fs ch c) :
    Touched g dirs (Reach g fs ch) fs fs'' := by
  refine h.trans (h'.mono fun c hc hreach => ?_)
  rcases hreach with hin | hfree
  · exact hch c hin
  · -- what is free now was free or is the file's own
    refine Classical.byContradiction fun hout => hout (.inr ?_)
    rw [← h.fat_eq c hc hout]
    exact hfree

theorem Touched.reach (h : Touched g dirs (· ∈ ch) fs fs') :
    Touched g dirs (Reach g fs ch) fs fs' :=
  h.mono fun _ _ hin => .inl hin

/-- A chain with a free cluster behind its last one, or as its first one. -/
theorem Owns.extend {p ncl : Nat} (ho : Owns g dirs fs ch)
    (hlast : ch = [] ∧ p = 0 ∨ ∃ xs, ch = xs ++ [p]) (hvalid : g.Valid ncl)
    (hfree : fs.fat g ncl = 0) (hch : Fs.Changed g dirs fs fs' (Fs.grown g (fs.fat g) p ncl)) :
    Owns g dirs fs' (ch ++ [ncl]) ∧ Touched g dirs (Reach g fs ch) fs fs' := by
  have hnew : ncl ∉ ch := fun hin => ho.fat_ne_zero hin hfree
  have heoc := g.nFatent_le.1
  have hentries := g.entries
  have hlow := hvalid.1
  have hp (d : Nat) (hd : g.Valid d) (hout : d ∉ ch) : d ≠ p := by
    rintro rfl
    rcases hlast with ⟨-, rfl⟩ | ⟨xs, rfl⟩
    · exact absurd hd.1 (by decide)
    · exact hout (List.mem_append_right _ List.mem_cons_self)
  have hsame (d : Nat) (hd : g.Valid d) (hnp : d ≠ p) (hne : d ≠ ncl) :
      fs'.fat g d = fs.fat g d := by
    rw [hch.fat_eq d hd, Fs.grown, if_neg hnp, if_neg hne]
  have hend : g.IsEnd (fs'.fat g ncl) := by
    rw [hch.fat_eq ncl hvalid, Fs.grown, if_neg (hp ncl hvalid hnew), if_pos rfl]
    exact heoc
  refine ⟨⟨hch.toSteady.ready ho.ready, ?_, ?_, ?_, ?_, ?_, ?_⟩, changed_touched hch ?_⟩
  · intro d hd
    rcases List.mem_append.mp hd with hin | hin
    · exact ho.valid d hin
    · rwa [List.mem_singleton.mp hin]
  · rw [← List.concat_eq_append]
    exact ho.nodup.concat hnew
  · rcases hlast with ⟨rfl, rfl⟩ | ⟨xs, rfl⟩
    · exact hend
    · have hpv := ho.valid p (List.mem_append_right _ List.mem_cons_self)
      refine ho.linked.stretch (fun x hx => ?_) ?_ hend
      · refine hsame x (ho.valid x (List.mem_append_left _ hx)) ?_ ?_
        · rintro rfl
          exact (List.nodup_append.mp ho.nodup).2.2 x hx x List.mem_cons_self rfl
        · rintro rfl
          exact hnew (List.mem_append_left _ hx)
      · rw [hch.fat_eq p hpv, Fs.grown, if_pos rfl]
  · intro d hd hin
    rcases List.mem_append.mp hin with hin | hin
    · exact ho.apart d hd hin
    · exact ho.used d hd (by rwa [List.mem_singleton.mp hin])
  · intro d hd
    have hdv := ho.ready.dirs_valid d hd
    rw [hsame d hdv (hp d hdv (ho.apart d hd)) fun heq => ho.used d hd (by rwa [heq])]
    exact ho.used d hd
  · intro d hd
    rw [hch.fat_eq d hd, Fs.grown]
    split
    · omega
    · split
      · omega
      · exact ho.proper d hd
  · intro d hd hout
    have hnp := hp d hd fun hin => hout (.inl hin)
    rw [Fs.grown, if_neg hnp, if_neg]
    rintro rfl
    exact hout (.inr hfree)

/-- The bytes of a file do not depend on clusters behind those of its content. -/
theorem Stored.stretch {new : List Nat} (h : Stored g fs fp ch content)
    (hs : fp'.sclust = (ch ++ new).headD 0)
    (ho : fp'.objsize = fp.objsize) (hd : fp'.dirty = fp.dirty) (hsect : fp'.sect = fp.sect)
    (hb : fp'.buf = fp.buf) : Stored g fs fp' (ch ++ new) content := by
  have hcov (k : Nat) (hk : k * 512 < content.length) :
      sectorOf g (ch ++ new) k = sectorOf g ch k := sectorOf_append (h.covered hk)
  have hroom : ch.length * g.csize * 512 ≤ (ch ++ new).length * g.csize * 512 := by
    refine Nat.mul_le_mul_right _ (Nat.mul_le_mul_right _ ?_)
    rw [List.length_append]
    omega
  refine ⟨hs, ho.trans h.size, h.short, Nat.le_trans h.room hroom, fun i hi => ?_, ?_,
    fun hdirty => ?_, fun hclean k hk hks i hi => ?_⟩
  · rw [h.data i hi, byteOf, byteOf, hcov _ (by omega), hd, hsect, hb]
  · rw [hsect]
    exact h.sect_lt
  · obtain ⟨k, hk, hks⟩ := h.dirty (hd.symm.trans hdirty)
    exact ⟨k, hk, by rw [hcov k hk, hsect, hks]⟩
  · rw [hcov k hk, hsect] at hks
    rw [hb, hsect]
    exact h.clean (hd.symm.trans hclean) k hk hks i hi

/-- What the loop of `f_write` gets for its next cluster: `v` is behind the chain `ch` or
    in it, or 0, where no cluster is free. -/
def Supplied (g : Geometry) (dirs : List Nat) (fs fs' : Fs) (ch : List Nat) (j v : Nat) : Prop :=
  v = 0 ∧ j = ch.length ∧ Fs.Moved g dirs fs fs' ∧ (∀ d, g.Valid d → fs.fat g d ≠ 0) ∨
    ∃ new, (ch ++ new)[j]? = some v ∧ Owns g dirs fs' (ch ++ new) ∧ Fs.Steady g dirs fs fs' ∧
      (∀ d ∈ ch ++ new, Reach g fs ch d) ∧ Touched g dirs (Reach g fs ch) fs fs'

theorem supplied_of_moved (ho : Owns g dirs fs ch) (hm : Fs.Moved g dirs fs fs')
    (hc : ch[k]? = some c) : Supplied g dirs fs fs' ch k c := by
  refine .inr ⟨[], ?_, ?_, hm.toSteady, fun d hd => .inl ?_, moved_touched hm _⟩
  · rwa [List.append_nil]
  · rw [List.append_nil]
    exact ho.moved hm
  · rwa [List.append_nil] at hd

theorem supplied_of_allocated {p : Nat} (ho : Owns g dirs fs ch)
    (hlast : ch = [] ∧ p = 0 ∨ ∃ xs, ch = xs ++ [p]) (ha : Fs.Allocated g dirs fs fs' p c) :
    Supplied g dirs fs fs' ch ch.length c := by
  rcases ha with ⟨hzero, hm, hfull⟩ | ⟨hvalid, hfree, hch, -, -⟩
  · exact .inl ⟨hzero, rfl, hm, hfull⟩
  · obtain ⟨ho', ht⟩ := ho.extend hlast hvalid hfree hch
    refine .inr ⟨[c], ?_, ho', hch.toSteady, fun d hd => ?_, ht⟩
    · rw [List.getElem?_append_right (Nat.le_refl _), Nat.sub_self]
      rfl
    · rcases List.mem_append.mp hd with hin | hin
      · exact .inl hin
      · exact .inr (by rwa [List.mem_singleton.mp hin])

/-- The cluster behind the one before the pointer, or the first one of the file. -/
theorem supplied (ho : Owns g dirs fs ch) (h : Stored g fs fp ch content) (hp : Pointed g fp ch)
    (hbound : fp.fptr % 512 = 0) (hcluster : fp.fptr / 512 % g.csize = 0) :
    ∃ v fs', (if fp.fptr = 0 then
        if fp.sclust = 0 then createChain g fs 0 else (fp.sclust, fs)
      else createChain g fs fp.clust) = (v, fs') ∧
      Supplied g dirs fs fs' ch (fp.fptr / 512 / g.csize) v := by
  by_cases hzero : fp.fptr = 0
  · rw [if_pos hzero, hzero, Nat.zero_div, h.start]
    cases ch with
    | nil =>
        obtain ⟨v, fs', hcall, ha⟩ := Fs.createChain_new ho.ready ho.proper
        exact ⟨v, fs', by rw [List.headD_nil, if_pos rfl, hcall],
          supplied_of_allocated ho (.inl ⟨rfl, rfl⟩) ha⟩
    | cons c cs =>
        have hlow := (ho.valid c List.mem_cons_self).1
        refine ⟨c, fs, ?_, supplied_of_moved ho (.refl ho.ready.windowed) rfl⟩
        rw [List.headD_cons, if_neg (by omega)]
  · have hprev := hp.clust (by omega)
    have hpred : (fp.fptr - 1) / 512 = fp.fptr / 512 - 1 := by omega
    have hstep := pred_div_of_mod_eq g.csize_pos (by omega : 0 < fp.fptr / 512) hcluster
    have hvalid := ho.valid _ (List.mem_of_getElem? hprev)
    have hlt := (List.getElem?_eq_some_iff.mp hprev).1
    rw [hpred] at hprev hlt
    rw [if_neg hzero, ← hstep]
    generalize (fp.fptr / 512 - 1) / g.csize = j at hprev hlt
    by_cases hlast : j + 1 = ch.length
    · obtain ⟨v, fs', hcall, ha⟩ := Fs.createChain_last ho.ready ho.proper hvalid
        (ho.linked.last hprev hlast)
      have htake : ch = ch.take j ++ [fp.clust] := by
        conv_lhs => rw [← List.take_length (l := ch), ← hlast, List.take_add_one, hprev]
        rfl
      rw [hlast]
      exact ⟨v, fs', hcall, supplied_of_allocated ho (.inr ⟨_, htake⟩) ha⟩
    · have hnext : j + 1 < ch.length := by omega
      have hstep := ho.linked.step hprev (List.getElem?_eq_getElem hnext)
      obtain ⟨fs', hcall, hm⟩ := Fs.createChain_next ho.ready hvalid
        (by rw [hstep]; exact ho.valid _ (List.getElem_mem hnext))
      rw [hstep] at hcall
      exact ⟨_, fs', hcall, supplied_of_moved ho hm (List.getElem?_eq_getElem hnext)⟩

/-- On a cluster boundary `f_write` stops on a full volume, or has its next cluster. -/
theorem enterWrite_spec (ho : Owns g dirs fs ch) (h : Stored g fs fp ch content)
    (hp : Pointed g fp ch) (hbound : fp.fptr % 512 = 0) (hcluster : fp.fptr / 512 % g.csize = 0) :
    (∃ fs', enterWrite g fs fp = (.error none, fs', fp) ∧ fp.fptr / 512 / g.csize = ch.length ∧
      Fs.Moved g dirs fs fs' ∧ ∀ d, g.Valid d → fs.fat g d ≠ 0) ∨
    ∃ fs' c new, enterWrite g fs fp =
        (.ok (), fs', { fp with clust := c, sclust := (ch ++ new).headD 0 }) ∧
      (ch ++ new)[fp.fptr / 512 / g.csize]? = some c ∧ Owns g dirs fs' (ch ++ new) ∧
      Stored g fs' { fp with clust := c, sclust := (ch ++ new).headD 0 } (ch ++ new) content ∧
      (∀ d ∈ ch ++ new, Reach g fs ch d) ∧ Touched g dirs (Reach g fs ch) fs fs' := by
  obtain ⟨v, fs', hcall, ⟨rfl, hlast, hm, hfull⟩ | ⟨new, hv, ho', hs, hreach, ht⟩⟩ :=
    supplied ho h hp hbound hcluster
  · refine .inl ⟨fs', ?_, hlast, hm, hfull⟩
    rw [enterWrite, hcall]
    rfl
  · have hvalid := ho'.valid v (List.mem_of_getElem? hv)
    obtain ⟨hlow, hhigh⟩ := hvalid
    have hlim := g.nFatent_le
    -- a file without clusters gets its first one
    have hhead : (if fp.sclust = 0 then v else fp.sclust) = (ch ++ new).headD 0 := by
      rw [h.start]
      cases ch with
      | nil =>
          have hptr : fp.fptr = 0 := by
            have hle := hp.ptr
            have hroom := h.room
            have hsize := h.size
            rw [List.length_nil] at hroom
            omega
          rw [hptr, Nat.zero_div, List.nil_append] at hv
          rw [List.headD_nil, if_pos rfl, List.nil_append, List.headD_eq_head?_getD,
            List.head?_eq_getElem?, hv, Option.getD_some]
      | cons c cs =>
          have hc := (ho.valid c List.mem_cons_self).1
          rw [List.headD_cons, if_neg (by omega)]
          rfl
    refine .inr ⟨fs', v, new, ?_, hv, ho', (h.steady ho hs).stretch rfl rfl rfl rfl rfl, hreach, ht⟩
    rw [enterWrite, hcall]
    dsimp only
    rw [if_neg (by omega), if_neg (by omega), if_neg (by omega), hhead]

-- ============================================================================
-- A round
-- ============================================================================

/-- The sector is in the file object, or is one behind the end of the file. -/
theorem loadWrite_spec (ho : Owns g dirs fs ch) (h : Stored g fs fp ch content)
    (hflag : fp.dirty = false) (hbound : fp.fptr % 512 = 0)
    (hk : fp.fptr / 512 < ch.length * g.csize) :
    ∃ buf, loadWrite fs fp (sectorOf g ch (fp.fptr / 512)) = (true, fs, { fp with buf := buf }) ∧
      Stored g fs { fp with buf := buf, sect := sectorOf g ch (fp.fptr / 512) } ch content := by
  have hlt := sectorOf_lt ho.valid hk
  rw [loadWrite]
  by_cases hload : fp.sect ≠ sectorOf g ch (fp.fptr / 512) ∧ fp.fptr < fp.objsize
  · rw [if_pos hload, fill_of_sound ho.ready.sound]
    exact ⟨_, rfl, h.turn hflag hlt fun _ _ _ _ _ => rfl⟩
  · rw [if_neg hload]
    refine ⟨fp.buf, rfl, h.turn hflag hlt fun k hkc hks i hi => ?_⟩
    have hsame : k = fp.fptr / 512 :=
      (sectorOf_inj ho.valid ho.nodup hk (h.covered hkc) hks).symm
    have hsize := h.size
    have hsect : fp.sect = sectorOf g ch (fp.fptr / 512) := by
      refine Classical.byContradiction fun hne => hload ⟨hne, ?_⟩
      omega
    rw [← hsect]
    exact h.clean hflag k hkc (by rw [hsect, hks]) i hi

/-- The pointer behind the bytes written. -/
theorem pointed_write (hclust : ch[(fp.fptr + n - 1) / 512 / g.csize]? = some fp.clust)
    (hsect : (fp.fptr + n) % 512 ≠ 0 → fp.sect = sectorOf g ch ((fp.fptr + n) / 512)) :
    Pointed g (advance fp n) ch := by
  refine ⟨?_, fun _ => hclust, hsect⟩
  rw [advance]
  dsimp only
  split <;> omega

/-- The cluster at hand on a sector boundary, after a cluster boundary a new one. -/
theorem boundary_spec (ho : Owns g dirs fs ch) (h : Stored g fs fp ch content)
    (hp : Pointed g fp ch) (hbound : fp.fptr % 512 = 0) :
    (∃ fs', (if fp.fptr / 512 % g.csize = 0 then enterWrite g fs fp else (.ok (), fs, fp)) =
        (.error none, fs', fp) ∧ fp.fptr = ch.length * g.csize * 512 ∧ Fs.Moved g dirs fs fs' ∧
      ∀ d, g.Valid d → fs.fat g d ≠ 0) ∨
    ∃ fs' c new, (if fp.fptr / 512 % g.csize = 0 then enterWrite g fs fp else (.ok (), fs, fp)) =
        (.ok (), fs', { fp with clust := c, sclust := (ch ++ new).headD 0 }) ∧
      (ch ++ new)[fp.fptr / 512 / g.csize]? = some c ∧ Owns g dirs fs' (ch ++ new) ∧
      Stored g fs' { fp with clust := c, sclust := (ch ++ new).headD 0 } (ch ++ new) content ∧
      (∀ d ∈ ch ++ new, Reach g fs ch d) ∧ Touched g dirs (Reach g fs ch) fs fs' := by
  by_cases hcluster : fp.fptr / 512 % g.csize = 0
  · rw [if_pos hcluster]
    rcases enterWrite_spec ho h hp hbound hcluster with ⟨fs', hcall, hlast, hm, hfull⟩ | hok
    · refine .inl ⟨fs', hcall, ?_, hm, hfull⟩
      have hx := Nat.div_add_mod (fp.fptr / 512) g.csize
      rw [hlast, Nat.mul_comm] at hx
      omega
    · exact .inr hok
  · rw [if_neg hcluster]
    refine .inr ⟨fs, fp.clust, [], ?_, ?_, ?_, ?_, fun d hd => .inl ?_,
      .refl ho.ready.windowed _⟩
    · rw [List.append_nil, ← h.start]
    · rw [List.append_nil]
      exact hp.cluster hcluster hbound
    · rwa [List.append_nil]
    · rw [List.append_nil, ← h.start]
      exact h
    · rwa [List.append_nil] at hd

/-- One round of `f_write` puts the next bytes into the file, if there is a cluster. -/
theorem writeRound_spec (ho : Owns g dirs fs ch) (h : Stored g fs fp ch content)
    (hp : Pointed g fp ch) (hpos : 0 < data.length) (hshort : fp.fptr + data.length < 2 ^ 32) :
    (∃ fs', writeRound g fs fp (Memory.ofList data) data.length = (.error none, fs', fp) ∧
      fp.fptr = ch.length * g.csize * 512 ∧ Fs.Moved g dirs fs fs' ∧
      ∀ d, g.Valid d → fs.fat g d ≠ 0) ∨
    ∃ n fs' fp' new, writeRound g fs fp (Memory.ofList data) data.length = (.ok n, fs', fp') ∧
      0 < n ∧ n ≤ data.length ∧ Owns g dirs fs' (ch ++ new) ∧
      Stored g fs' (advance fp' n) (ch ++ new) (overwrite content fp.fptr (data.take n)) ∧
      Kept fp fp' ∧ fp'.fptr = fp.fptr ∧ Pointed g (advance fp' n) (ch ++ new) ∧
      (∀ d ∈ ch ++ new, Reach g fs ch d) ∧ Touched g dirs (Reach g fs ch) fs fs' := by
  have hptr : fp.fptr ≤ content.length := h.size ▸ hp.ptr
  by_cases hbound : fp.fptr % 512 = 0
  · have hcsect := Nat.mod_lt (fp.fptr / 512) g.csize_pos
    rw [writeRound, if_pos hbound, csectOf_eq]
    rcases boundary_spec ho h hp hbound with ⟨fs₁, hcall, hend, hm, hfull⟩ |
      ⟨fs₁, c, new, hcall, hck, ho₁, h₁, hreach, ht₁⟩
    · refine .inl ⟨fs₁, ?_, hend, hm, hfull⟩
      rw [hcall]
    · obtain ⟨fs₂, hflush, ho₂, h₂, ht₂⟩ := flush_spec ho₁ h₁
      obtain ⟨hne, hsect⟩ := ho₂.clust2sect_eq hck
      have ht := ht₁.grow ht₂.reach hreach
      have hk : fp.fptr / 512 < (ch ++ new).length * g.csize := by
        have hlt := (List.getElem?_eq_some_iff.mp hck).1
        rw [Nat.div_lt_iff_lt_mul g.csize_pos] at hlt
        exact hlt
      rw [hcall]
      dsimp only
      rw [hflush]
      dsimp only
      rw [if_neg hne, csectOf_eq, hsect]
      refine .inr ?_
      by_cases hwhole : data.length / 512 = 0
      · obtain ⟨buf, hload, h₃⟩ := loadWrite_spec ho₂ h₂ rfl hbound hk
        obtain ⟨fp₄, hpart, h₄, hkept, hfptr, hclust, hsect₄⟩ :=
          writePart_spec ho₂.valid ho₂.nodup h₃ rfl hk hptr hpos (by dsimp only; omega) hshort
        dsimp only at hload hfptr hclust hsect₄
        rw [if_neg (not_not_intro hwhole), hload]
        dsimp only
        rw [hpart]
        refine ⟨data.length, fs₂, fp₄, new, rfl, hpos, Nat.le_refl _, ho₂, h₄,
          hkept.of_eq rfl rfl rfl rfl rfl rfl, hfptr, pointed_write ?_ fun _ => ?_, hreach, ht⟩
        · have hdiv : (fp₄.fptr + data.length - 1) / 512 = fp.fptr / 512 := by omega
          rw [hdiv, hck, hclust]
        · have hdiv : (fp₄.fptr + data.length) / 512 = fp.fptr / 512 := by omega
          rw [hdiv, hsect₄]
      · obtain ⟨hn, hle, hfit⟩ := clip_le g (fp.fptr / 512 % g.csize) (data.length / 512) hcsect
          (by omega)
        dsimp only
        generalize clip g (fp.fptr / 512 % g.csize) (data.length / 512) = n at hn hle hfit
        obtain ⟨fs₃, fp₃, hwrite, ho₃, h₃, hkept, hfptr, hclust, ht₃⟩ := writeDirect_spec ho₂ h₂ rfl
          ⟨hbound, hck, hfit, hptr, (by omega : 512 * n ≤ data.length), by dsimp only; omega⟩
        dsimp only at hwrite hfptr hclust
        rw [if_pos hwhole, hwrite]
        refine ⟨512 * n, fs₃, fp₃, new, rfl, by omega, by omega, ho₃, h₃,
          hkept.of_eq rfl rfl rfl rfl rfl rfl, hfptr, ?_, hreach, ht.grow ht₃.reach hreach⟩
        refine pointed_write ?_ fun hmod => ?_
        · have hdiv : (fp₃.fptr + 512 * n - 1) / 512 = fp.fptr / 512 + (n - 1) := by omega
          obtain ⟨-, hsame⟩ := sectorOf_add (g := g) (k := fp.fptr / 512) (n := n - 1) (ch ++ new)
            (by omega)
          rw [hdiv, hsame, hclust]
          exact hck
        · omega
  · -- in the middle of a sector
    have hsect := hp.sect hbound
    have hclust := hp.clust (by omega)
    have hdiv₀ : (fp.fptr - 1) / 512 = fp.fptr / 512 := by omega
    have hk : fp.fptr / 512 < ch.length * g.csize := by
      have hlt := (List.getElem?_eq_some_iff.mp hclust).1
      rw [hdiv₀, Nat.div_lt_iff_lt_mul g.csize_pos] at hlt
      exact hlt
    generalize hn : min (512 - fp.fptr % 512) data.length = n
    obtain ⟨fp₁, hpart, h₁, hkept, hfptr, hclust₁, hsect₁⟩ :=
      writePart_spec ho.valid ho.nodup h hsect hk hptr (by omega) hn.symm hshort
    refine .inr ⟨n, fs, fp₁, [], ?_, by omega, by omega, ?_, ?_, hkept, hfptr, ?_,
      fun d hd => .inl ?_, .refl ho.ready.windowed _⟩
    · rw [writeRound, if_neg hbound, hpart]
    · rwa [List.append_nil]
    · rwa [List.append_nil]
    · rw [List.append_nil]
      refine pointed_write ?_ fun hmod => ?_
      · have hdiv : (fp₁.fptr + n - 1) / 512 = (fp.fptr - 1) / 512 := by omega
        rw [hdiv, hclust₁, hclust]
      · have hdiv : (fp₁.fptr + n) / 512 = fp.fptr / 512 := by omega
        rw [hdiv, hsect₁, hsect]
    · rwa [List.append_nil] at hd

-- ============================================================================
-- f_write
-- ============================================================================

/-- What is kept of a file object that is written to. -/
structure Marked (fp fp' : Fil) : Prop where
  read : fp'.read = fp.read
  write : fp'.write = fp.write
  err : fp'.err = fp.err
  modified : fp'.modified = true
  dirSect : fp'.dirSect = fp.dirSect
  dirPtr : fp'.dirPtr = fp.dirPtr

/-- The bytes `bs` were written at the pointer, with the clusters `new`. -/
structure Wrote (g : Geometry) (dirs : List Nat) (ch : List Nat) (content bs : List UInt8)
    (new : List Nat) (fs fs' : Fs) (fp fp' : Fil) : Prop where
  owns : Owns g dirs fs' (ch ++ new)
  stored : Stored g fs' fp' (ch ++ new) (overwrite content fp.fptr bs)
  pointed : Pointed g fp' (ch ++ new)
  fptr : fp'.fptr = fp.fptr + bs.length
  marked : Marked fp fp'
  reach : ∀ d ∈ ch ++ new, Reach g fs ch d
  touched : Touched g dirs (Reach g fs ch) fs fs'

/-- The end of the loop, in whatever way it is reached. -/
theorem wrote_nothing (ho : Owns g dirs fs ch) (h : Stored g fs fp ch content)
    (hp : Pointed g fp ch) (hm : Fs.Moved g dirs fs fs') :
    Wrote g dirs ch content [] [] fs fs' fp { fp with modified := true } := by
  have hstored : Stored g fs' { fp with modified := true } ch content :=
    (h.moved ho hm).of_kept rfl rfl rfl rfl rfl
  refine ⟨?_, ?_, ?_, rfl, ⟨rfl, rfl, rfl, rfl, rfl, rfl⟩, fun d hd => .inl ?_,
    moved_touched hm _⟩
  · rw [List.append_nil]
    exact ho.moved hm
  · rw [List.append_nil, overwrite_nil]
    exact hstored
  · rw [List.append_nil]
    exact ⟨hp.ptr, hp.clust, hp.sect⟩
  · rwa [List.append_nil] at hd

/-- The loop of `f_write` puts all the bytes into the file, or as many as there are free
    clusters for. -/
theorem writeLoop_spec (fuel bw : Nat) (ho : Owns g dirs fs ch) (h : Stored g fs fp ch content)
    (hp : Pointed g fp ch) (hshort : fp.fptr + data.length < 2 ^ 32)
    (hfuel : data.length ≤ fuel) :
    ∃ n fs' fp' new, writeLoop g fuel data bw fs fp = (.ok, bw + n, fs', fp') ∧
      n ≤ data.length ∧ Wrote g dirs ch content (data.take n) new fs fs' fp fp' ∧
      (n < data.length → ∀ d, g.Valid d → fs'.fat g d ≠ 0) := by
  induction fuel generalizing data bw fs fp ch content with
  | zero =>
      obtain rfl : data = [] := List.length_eq_zero_iff.mp (by omega)
      exact ⟨0, fs, _, [], rfl, Nat.le_refl _, wrote_nothing ho h hp (.refl ho.ready.windowed),
        fun hlt => absurd hlt (Nat.lt_irrefl _)⟩
  | succ fuel ih =>
      rw [writeLoop]
      by_cases hnil : data = []
      · rw [if_pos hnil]
        subst hnil
        exact ⟨0, fs, _, [], rfl, Nat.le_refl _, wrote_nothing ho h hp (.refl ho.ready.windowed),
          fun hlt => absurd hlt (Nat.lt_irrefl _)⟩
      · rw [if_neg hnil]
        have hptr : fp.fptr ≤ content.length := h.size ▸ hp.ptr
        rcases writeRound_spec ho h hp (List.length_pos_iff.mpr hnil) hshort with
          ⟨fs₁, hround, -, hm, hfull⟩ |
          ⟨n, fs₁, fp₁, new, hround, hn, hle, ho₁, h₁, hkept, hfptr, hp₁, hreach, ht⟩
        · rw [hround]
          refine ⟨0, fs₁, _, [], rfl, Nat.zero_le _, wrote_nothing ho h hp hm, fun _ d hd => ?_⟩
          rw [hm.fat_eq hd]
          exact hfull d hd
        · rw [hround]
          dsimp only
          have hfptr₁ : (advance fp₁ n).fptr = fp.fptr + n := by
            rw [← hfptr]
            rfl
          have hlen : (data.drop n).length = data.length - n := List.length_drop
          obtain ⟨m, fs₂, fp₂, new₂, hloop, hm, hw, hfull⟩ :=
            ih (bw + n) ho₁ h₁ hp₁
              (show (advance fp₁ n).fptr + (data.drop n).length < 2 ^ 32 by omega) (by omega)
          have htake : (data.take n).length = n := by
            rw [List.length_take]
            omega
          -- the two pieces are one
          have hcontent : overwrite (overwrite content fp.fptr (data.take n)) (advance fp₁ n).fptr
              ((data.drop n).take m) = overwrite content fp.fptr (data.take (n + m)) := by
            rw [hfptr₁, List.take_add, ← overwrite_overwrite hptr, htake]
          have howns := hw.owns
          have hstored := hw.stored
          have hpointed := hw.pointed
          have hmark := hw.marked
          have hend := hw.fptr
          rw [hcontent, List.append_assoc] at hstored
          rw [List.append_assoc] at howns hpointed
          refine ⟨n + m, fs₂, fp₂, new ++ new₂, by rw [hloop, Nat.add_assoc], by omega,
            ⟨howns, hstored, hpointed, ?_, ?_, fun d hd => ?_, ht.grow hw.touched hreach⟩,
            fun hlt => hfull (by omega)⟩
          · rw [hend, hfptr₁, List.take_add, List.length_append, htake, Nat.add_assoc]
          · exact ⟨hmark.read.trans hkept.read, hmark.write.trans hkept.write,
              hmark.err.trans hkept.err, hmark.modified, hmark.dirSect.trans hkept.dirSect,
              hmark.dirPtr.trans hkept.dirPtr⟩
          · rcases hw.reach d (by rwa [List.append_assoc]) with hin | hfree
            · exact hreach d hin
            · refine Classical.byContradiction fun hout => hout (.inr ?_)
              rw [← ht.fat_eq d (howns.valid d hd) hout]
              exact hfree

/-- `f_write` puts the bytes at the pointer.  It puts fewer only where the volume is full
    or the file would reach 4 GiB. -/
theorem fWrite_spec (ho : Owns g dirs fs ch) (h : Stored g fs fp ch content)
    (hp : Pointed g fp ch) (herr : fp.err = .ok) (hmode : fp.write = true)
    (hlen : data.length < 2 ^ 32) :
    ∃ n fs' fp' new, fWrite g fs fp data = (.ok, n, fs', fp') ∧
      n ≤ data.length ∧ Wrote g dirs ch content (data.take n) new fs fs' fp fp' ∧
      (n < data.length → fp.fptr + data.length < 2 ^ 32 →
        ∀ d, g.Valid d → fs'.fat g d ≠ 0) := by
  have hptr : fp.fptr ≤ content.length := h.size ▸ hp.ptr
  have hlong := h.short
  rw [fWrite, if_neg (not_not_intro herr), if_neg (by rw [hmode]; exact Bool.noConfusion)]
  dsimp only
  by_cases hshort : fp.fptr + data.length < 2 ^ 32
  · obtain ⟨n, fs', fp', new, hloop, hle, hw, hfull⟩ :=
      writeLoop_spec data.length 0 ho h hp hshort (Nat.le_refl _)
    refine ⟨n, fs', fp', new, ?_, hle, hw, fun hlt _ => hfull hlt⟩
    rw [if_neg (by omega), hloop, Nat.zero_add]
  · have hcut : (data.take (0xFFFFFFFF - fp.fptr)).length = 0xFFFFFFFF - fp.fptr := by
      rw [List.length_take]
      omega
    obtain ⟨n, fs', fp', new, hloop, hle, hw, -⟩ :=
      writeLoop_spec _ 0 ho h hp
        (show fp.fptr + (data.take (0xFFFFFFFF - fp.fptr)).length < 2 ^ 32 by omega)
        (Nat.le_refl _)
    rw [hcut] at hle
    rw [List.take_take, Nat.min_eq_left hle] at hw
    refine ⟨n, fs', fp', new, ?_, by omega, hw, fun _ hlt => absurd hlt hshort⟩
    rw [if_pos (by omega), hloop, Nat.zero_add]

end McuFirmware.FatFs
