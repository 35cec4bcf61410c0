/-
  McuFirmware.FatFs.File

  The file functions of `ff.c`: `f_read`, `f_write`, `f_lseek`, `f_truncate` and
  `f_sync`, for volumes of FAT12, FAT16 and FAT32 and files without a link map table.

  A file object has a sector of its own (`buf`); whole sectors pass it by.
-/

import McuFirmware.FatFs.Chain

namespace McuFirmware.FatFs

open McuFirmware.Lib

/-- `FIL`, with the bits of `flag` as fields. -/
structure Fil where
  sclust : Nat
  objsize : Nat
  read : Bool
  write : Bool
  modified : Bool
  dirty : Bool
  err : FResult
  fptr : Nat
  clust : Nat
  sect : Nat
  dirSect : Nat
  /-- `dir_ptr`, as an offset in the window. -/
  dirPtr : Nat
  buf : Memory

section Code

variable (g : Geometry)

-- ============================================================================
-- The sector of the file object
-- ============================================================================

/-- The write-back of a dirty sector: whether it succeeds. -/
def flush (fs : Fs) (fp : Fil) : Bool × Fs × Fil :=
  if fp.dirty then
    match diskWrite fs.disk fp.buf fp.sect 1 with
    | (true, d) => (true, { fs with disk := d }, { fp with dirty := false })
    | (false, d) => (false, { fs with disk := d }, fp)
  else (true, fs, fp)

/-- A sector is read into the file object. -/
def fill (fs : Fs) (fp : Fil) (sect : Nat) : Bool × Fs × Fil :=
  match diskRead fs.disk sect with
  | (ok, buf, d) => (ok, { fs with disk := d }, { fp with buf := buf })

/-- The sector in its cluster at which the pointer stands. -/
def csectOf (fp : Fil) : Nat := fp.fptr / 512 &&& (g.csize - 1)

/-- The number of sectors that are transferred at once. -/
def clip (csect cc : Nat) : Nat := if g.csize < csect + cc then g.csize - csect else cc

-- ============================================================================
-- f_read
-- ============================================================================

/-- On a cluster boundary `f_read` follows the chain. -/
def enterRead (fs : Fs) (fp : Fil) : Except FResult Unit × Fs × Fil :=
  match (if fp.fptr = 0 then (fp.sclust, fs) else getFat g fs fp.clust) with
  | (clst, fs) =>
      if clst < 2 then (.error .intErr, fs, fp)
      else if clst = diskError then (.error .diskErr, fs, fp)
      else (.ok (), fs, { fp with clust := clst })

/-- `f_read` of `cc` whole sectors, past the file object unless it holds one of them. -/
def readDirect (fs : Fs) (fp : Fil) (sect cc : Nat) : Except FResult (List UInt8) × Fs × Fil :=
  match diskRead fs.disk sect with
  | (false, _, d) => (.error .diskErr, { fs with disk := d }, fp)
  | (true, rbuff, d) =>
      let rbuff :=
        if fp.dirty = true ∧ sub32 fp.sect sect < cc then
          rbuff.blit (sub32 fp.sect sect * 512) 512 fp.buf
        else rbuff
      (.ok (rbuff.slice 0 (512 * cc)), { fs with disk := d }, fp)

/-- The sector at which a partial transfer starts gets into the file object. -/
def loadRead (fs : Fs) (fp : Fil) (sect : Nat) : Bool × Fs × Fil :=
  if fp.sect ≠ sect then
    match flush fs fp with
    | (true, fs, fp) => fill fs fp sect
    | (false, fs, fp) => (false, fs, fp)
  else (true, fs, fp)

/-- The rest of a sector, from the file object. -/
def readPart (fp : Fil) (btr : Nat) : List UInt8 :=
  fp.buf.slice (fp.fptr % 512) (min (512 - fp.fptr % 512) btr)

/-- One round of the loop of `f_read`: the bytes read, or the error of `ABORT`. -/
def readRound (fs : Fs) (fp : Fil) (btr : Nat) : Except FResult (List UInt8) × Fs × Fil :=
  if fp.fptr % 512 = 0 then
    match (if csectOf g fp = 0 then enterRead g fs fp else (.ok (), fs, fp)) with
    | (.error res, fs, fp) => (.error res, fs, fp)
    | (.ok _, fs, fp) =>
        if clust2sect g fp.clust = 0 then (.error .intErr, fs, fp)
        else
          let csect := csectOf g fp
          let sect := clust2sect g fp.clust + csect
          if btr / 512 ≠ 0 then readDirect fs fp sect (clip g csect (btr / 512))
          else
            match loadRead fs fp sect with
            | (false, fs, fp) => (.error .diskErr, fs, fp)
            | (true, fs, fp) => (.ok (readPart fp btr), fs, { fp with sect := sect })
  else (.ok (readPart fp btr), fs, fp)

/-- The loop of `f_read`, with the bytes read so far. -/
def readLoop : Nat → Nat → List UInt8 → Fs → Fil → FResult × List UInt8 × Fs × Fil
  | 0, _, out, fs, fp => (.ok, out, fs, fp)
  | fuel + 1, btr, out, fs, fp =>
      if btr = 0 then (.ok, out, fs, fp)
      else
        match readRound g fs fp btr with
        | (.error res, fs, fp) => (res, out, fs, { fp with err := res })
        | (.ok bs, fs, fp) =>
            readLoop fuel (btr - bs.length) (out ++ bs) fs { fp with fptr := fp.fptr + bs.length }

/-- `f_read`. -/
def fRead (fs : Fs) (fp : Fil) (btr : Nat) : FResult × List UInt8 × Fs × Fil :=
  if fp.err ≠ .ok then (fp.err, [], fs, fp)
  else if fp.read = false then (.denied, [], fs, fp)
  else
    let btr := if fp.objsize - fp.fptr < btr then fp.objsize - fp.fptr else btr
    readLoop g btr btr [] fs fp

-- ============================================================================
-- f_write
-- ============================================================================

/-- On a cluster boundary `f_write` follows the chain or stretches it; `none` is the end
    of the loop on a full volume. -/
def enterWrite (fs : Fs) (fp : Fil) : Except (Option FResult) Unit × Fs × Fil :=
  match (if fp.fptr = 0 then
      if fp.sclust = 0 then createChain g fs 0 else (fp.sclust, fs)
    else createChain g fs fp.clust) with
  | (clst, fs) =>
      if clst = 0 then (.error none, fs, fp)
      else if clst = 1 then (.error (some .intErr), fs, fp)
      else if clst = diskError then (.error (some .diskErr), fs, fp)
      else (.ok (), fs, { fp with
        clust := clst
        sclust := if fp.sclust = 0 then clst else fp.sclust })

/-- `f_write` of `cc` whole sectors. -/
def writeDirect (fs : Fs) (fp : Fil) (wbuff : Memory) (sect cc : Nat) :
    Except (Option FResult) Nat × Fs × Fil :=
  match diskWrite fs.disk wbuff sect cc with
  | (false, d) => (.error (some .diskErr), { fs with disk := d }, fp)
  | (true, d) =>
      -- the sector in the file object was written as well
      let fp :=
        if sub32 fp.sect sect < cc then
          { fp with buf := fun i => wbuff (sub32 fp.sect sect * 512 + i), dirty := false }
        else fp
      (.ok (512 * cc), { fs with disk := d }, fp)

/-- Behind the end of the file there is nothing to load. -/
def loadWrite (fs : Fs) (fp : Fil) (sect : Nat) : Bool × Fs × Fil :=
  if fp.sect ≠ sect ∧ fp.fptr < fp.objsize then fill fs fp sect else (true, fs, fp)

/-- The rest of a sector, into the file object. -/
def writePart (fp : Fil) (wbuff : Memory) (btw : Nat) : Nat × Fil :=
  let wcnt := min (512 - fp.fptr % 512) btw
  (wcnt, { fp with buf := fp.buf.blit (fp.fptr % 512) wcnt wbuff, dirty := true })

/-- One round of the loop of `f_write`: the number of bytes written. -/
def writeRound (fs : Fs) (fp : Fil) (wbuff : Memory) (btw : Nat) :
    Except (Option FResult) Nat × Fs × Fil :=
  if fp.fptr % 512 = 0 then
    match (if csectOf g fp = 0 then enterWrite g fs fp else (.ok (), fs, fp)) with
    | (.error res, fs, fp) => (.error res, fs, fp)
    | (.ok _, fs, fp) =>
        match flush fs fp with
        | (false, fs, fp) => (.error (some .diskErr), fs, fp)
        | (true, fs, fp) =>
            if clust2sect g fp.clust = 0 then (.error (some .intErr), fs, fp)
            else
              let csect := csectOf g fp
              let sect := clust2sect g fp.clust + csect
              if btw / 512 ≠ 0 then writeDirect fs fp wbuff sect (clip g csect (btw / 512))
              else
                match loadWrite fs fp sect with
                | (false, fs, fp) => (.error (some .diskErr), fs, fp)
                | (true, fs, fp) =>
                    match writePart { fp with sect := sect } wbuff btw with
                    | (wcnt, fp) => (.ok wcnt, fs, fp)
  else
    match writePart fp wbuff btw with
    | (wcnt, fp) => (.ok wcnt, fs, fp)

/-- The pointer behind `wcnt` bytes written. -/
def advance (fp : Fil) (wcnt : Nat) : Fil :=
  { fp with
    fptr := fp.fptr + wcnt
    objsize := if fp.objsize < fp.fptr + wcnt then fp.fptr + wcnt else fp.objsize }

/-- The loop of `f_write`, with the number of bytes written so far. -/
def writeLoop : Nat → List UInt8 → Nat → Fs → Fil → FResult × Nat × Fs × Fil
  | 0, _, bw, fs, fp => (.ok, bw, fs, { fp with modified := true })
  | fuel + 1, data, bw, fs, fp =>
      if data = [] then (.ok, bw, fs, { fp with modified := true })
      else
        match writeRound g fs fp (Memory.ofList data) data.length with
        | (.error none, fs, fp) => (.ok, bw, fs, { fp with modified := true })
        | (.error (some res), fs, fp) => (res, bw, fs, { fp with err := res })
        | (.ok wcnt, fs, fp) => writeLoop fuel (data.drop wcnt) (bw + wcnt) fs (advance fp wcnt)

/-- `f_write`: the number of bytes written. -/
def fWrite (fs : Fs) (fp : Fil) (buff : List UInt8) : FResult × Nat × Fs × Fil :=
  if fp.err ≠ .ok then (fp.err, 0, fs, fp)
  else if fp.write = false then (.denied, 0, fs, fp)
  else
    -- a file is shorter than 4 GiB
    let data :=
      if (fp.fptr + buff.length) % 2 ^ 32 < fp.fptr then buff.take (0xFFFFFFFF - fp.fptr) else buff
    writeLoop g data.length data 0 fs fp

-- ============================================================================
-- f_lseek
-- ============================================================================

/-- The loop of `f_lseek` from cluster to cluster: the offset in the cluster reached, and
    the cluster, 0 where the volume is full. -/
def seekLoop : Nat → Nat → Nat → Fs → Fil → Except FResult (Nat × Nat) × Fs × Fil
  | 0, ofs, clst, fs, fp => (.ok (ofs, clst), fs, fp)
  | fuel + 1, ofs, clst, fs, fp =>
      if g.csize * 512 < ofs then
        match (if fp.write then createChain g fs clst else getFat g fs clst) with
        | (clst, fs) =>
            if fp.write = true ∧ clst = 0 then (.ok (g.csize * 512, clst), fs, fp)
            else if clst = diskError then (.error .diskErr, fs, fp)
            else if clst ≤ 1 ∨ g.nFatent ≤ clst then (.error .intErr, fs, fp)
            else
              seekLoop fuel (ofs - g.csize * 512) clst fs
                { fp with clust := clst, fptr := fp.fptr + g.csize * 512 }
      else (.ok (ofs, clst), fs, fp)

/-- Where `f_lseek` starts to follow the chain for the offset `ofs`: the cluster, at
    `fptr`, and the offset that is left. -/
def seekStart (fs : Fs) (fp : Fil) (ofs : Nat) : Except FResult (Nat × Nat) × Fs × Fil :=
  let bcs := g.csize * 512
  if 0 < fp.fptr ∧ (fp.fptr - 1) / bcs ≤ (ofs - 1) / bcs then
    -- `& ~(bcs - 1)`, as the cluster size is a power of 2
    let base := (fp.fptr - 1) / bcs * bcs
    (.ok (ofs - base, fp.clust), fs, { fp with fptr := base })
  else if fp.sclust ≠ 0 then
    (.ok (ofs, fp.sclust), fs, { fp with fptr := 0, clust := fp.sclust })
  else
    match createChain g fs 0 with
    | (clst, fs) =>
        if clst = 1 then (.error .intErr, fs, { fp with fptr := 0 })
        else if clst = diskError then (.error .diskErr, fs, { fp with fptr := 0 })
        else (.ok (ofs, clst), fs, { fp with fptr := 0, sclust := clst, clust := clst })

/-- The pointer is set: the sector at which it stands, 0 on a boundary. -/
def seekTo (fs : Fs) (fp : Fil) (ofs : Nat) : Except FResult Nat × Fs × Fil :=
  if ofs = 0 then (.ok 0, fs, { fp with fptr := 0 })
  else
    match seekStart g fs fp ofs with
    | (.error res, fs, fp) => (.error res, fs, fp)
    | (.ok (ofs, clst), fs, fp) =>
        if clst = 0 then (.ok 0, fs, fp)
        else
          match seekLoop g ofs ofs clst fs fp with
          | (.error res, fs, fp) => (.error res, fs, fp)
          | (.ok (ofs, clst), fs, fp) =>
              let fp := { fp with fptr := fp.fptr + ofs }
              if ofs % 512 ≠ 0 then
                if clust2sect g clst = 0 then (.error .intErr, fs, fp)
                else (.ok (clust2sect g clst + ofs / 512), fs, fp)
              else (.ok 0, fs, fp)

/-- `f_lseek` without a link map table. -/
def fLseek (fs : Fs) (fp : Fil) (ofs : Nat) : FResult × Fs × Fil :=
  if fp.err ≠ .ok then (fp.err, fs, fp)
  else
    let ofs := if fp.objsize < ofs ∧ fp.write = false then fp.objsize else ofs
    match seekTo g fs fp ofs with
    | (.error res, fs, fp) => (res, fs, { fp with err := res })
    | (.ok nsect, fs, fp) =>
        match
          (if fp.fptr % 512 ≠ 0 ∧ nsect ≠ fp.sect then
            match flush fs fp with
            | (true, fs, fp) =>
                match fill fs fp nsect with
                | (true, fs, fp) => (true, fs, { fp with sect := nsect })
                | (false, fs, fp) => (false, fs, fp)
            | (false, fs, fp) => (false, fs, fp)
          else (true, fs, fp)) with
        | (false, fs, fp) => (.diskErr, fs, { fp with err := .diskErr })
        | (true, fs, fp) =>
            if fp.objsize < fp.fptr then
              (.ok, fs, { fp with objsize := fp.fptr, modified := true })
            else (.ok, fs, fp)

-- ============================================================================
-- f_truncate, f_sync
-- ============================================================================

/-- The clusters behind the pointer are freed. -/
def cutChain (fs : Fs) (fp : Fil) : FResult × Fs × Fil :=
  if fp.fptr = 0 then
    match removeChain g fs fp.sclust 0 with
    | (res, fs) => (res, fs, { fp with sclust := 0 })
  else
    match getFat g fs fp.clust with
    | (ncl, fs) =>
        if ncl = diskError then (.diskErr, fs, fp)
        else if ncl = 1 then (.intErr, fs, fp)
        else if ncl < g.nFatent then
          match removeChain g fs ncl fp.clust with
          | (res, fs) => (res, fs, fp)
        else (.ok, fs, fp)

/-- `f_truncate`. -/
def fTruncate (fs : Fs) (fp : Fil) : FResult × Fs × Fil :=
  if fp.err ≠ .ok then (fp.err, fs, fp)
  else if fp.write = false then (.denied, fs, fp)
  else if fp.fptr < fp.objsize then
    match cutChain g fs fp with
    | (.ok, fs, fp) =>
        match flush fs { fp with objsize := fp.fptr, modified := true } with
        | (true, fs, fp) => (.ok, fs, fp)
        | (false, fs, fp) => (.diskErr, fs, { fp with err := .diskErr })
    | (res, fs, fp) => (res, fs, { fp with objsize := fp.fptr, modified := true, err := res })
  else (.ok, fs, fp)

/-- The FSInfo sector that `sync_fs` makes up. -/
def fsInfo (fs : Fs) : Memory :=
  let win : Memory := fun _ => 0
  let win := win.setLE 510 2 0xAA55
  let win := win.setLE 0 4 0x41615252
  let win := win.setLE 484 4 0x61417272
  let win := win.setLE 488 4 fs.freeClst
  win.setLE 492 4 fs.lastClst

/-- `sync_fs`; `CTRL_SYNC` has nothing to do here. -/
def syncFs (fs : Fs) : FResult × Fs :=
  match syncWindow g fs with
  | (.ok, fs) =>
      if g.fsType = .fat32 ∧ fs.fsiFlag = some true then
        (.ok, { fs with
          win := fsInfo fs
          winsect := g.volbase + 1
          disk := (diskWrite fs.disk (fsInfo fs) (g.volbase + 1) 1).2
          fsiFlag := some false })
      else (.ok, fs)
  | (res, fs) => (res, fs)

/-- The directory entry at `dir` in the window, brought up to date by `f_sync`;
    `get_fattime` returns 0. -/
def updateEntry (win : Memory) (dir : Nat) (fp : Fil) : Memory :=
  let win := win.setLE (dir + 11) 1 ((win (dir + 11)).toNat ||| 0x20)
  let win := win.setLE (dir + 26) 2 fp.sclust
  let win := if g.fsType = .fat32 then win.setLE (dir + 20) 2 (fp.sclust / 2 ^ 16) else win
  let win := win.setLE (dir + 28) 4 fp.objsize
  let win := win.setLE (dir + 22) 4 0
  win.setLE (dir + 18) 2 0

/-- `f_sync`. -/
def fSync (fs : Fs) (fp : Fil) : FResult × Fs × Fil :=
  if fp.modified then
    match flush fs fp with
    | (false, fs, fp) => (.diskErr, fs, fp)
    | (true, fs, fp) =>
        match moveWindow g fs fp.dirSect with
        | (.ok, fs) =>
            match syncFs g (fs.store (updateEntry g fs.win fp.dirPtr fp)) with
            | (res, fs) => (res, fs, { fp with modified := false })
        | (res, fs) => (res, fs, fp)
  else (.ok, fs, fp)

/-- The end of `f_open` for an entry that is found: the file object, from the window. -/
def openEntry (fs : Fs) (dir : Nat) (read write : Bool) : Fil where
  sclust :=
    fs.win.getLE (dir + 26) 2 +
      (if g.fsType = .fat32 then 2 ^ 16 * fs.win.getLE (dir + 20) 2 else 0)
  objsize := fs.win.getLE (dir + 28) 4
  read := read
  write := write
  modified := false
  dirty := false
  err := .ok
  fptr := 0
  clust := 0
  sect := 0
  dirSect := fs.winsect
  dirPtr := dir
  buf := fun _ => 0

end Code

end McuFirmware.FatFs
