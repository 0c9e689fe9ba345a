/-
LiloBoot.XFS.Dir — the directory iteration of `second/fs_xfs.c`: `first_dentry`,
`next_dentry` and the read of a leaf header.

`DirEnv` is what stays fixed while a directory is read, `DirState` the cursors of
`xfs_info` and `xfs_file`, `dirbuf`, and the literal area of the inode, which
`next_dentry` terminates names in. `next_dentry` returns the bytes that its
caller reads at the name, up to the NUL it has put behind it, and the inode
number. Loops take fuel and return `none` when it runs out; an inode of another
format than the three holds no directory and is `none` too.
-/
import LiloBoot.XFS.Xfs

namespace LiloBoot.XFS

/-! ## The state -/

/-- What stays fixed: file system, inode, size of the directory, device and fuel. -/
structure DirEnv where
  geo : Geometry
  dirbsize : Nat
  inode : Inode
  diSize : Nat
  dev : Bytes
  fuel : Nat

/-- The cursors; `sfe` is an offset in `di_c`. -/
structure DirState where
  pos : Nat
  len : Nat
  forw : Nat
  dablk : Nat
  dirpos : Int
  dirmax : Int
  blkoff : Int
  i8param : Nat
  sfe : Nat
  diC : Bytes
  dirbuf : Bytes

/-- An entry as `next_dentry` returns it. -/
structure Dentry where
  name : List UInt8
  ino : Nat
  deriving DecidableEq, Repr

/-- The C string at `start`, with `name[namelen] = 0`. -/
def nameAt (bytes : Bytes) (start namelen : Nat) : List UInt8 :=
  ((List.range namelen).map fun i => bytes (start + i)).takeWhile (· ≠ 0)

def roundup8 (n : Nat) : Nat := (n + 7) / 8 * 8

/-! ## Reads -/

/-- Where the iterator over the extents starts does not matter. -/
def freshCursor : Cursor := ⟨0, 0, 0, 0, 0⟩

/-- `xfs_read_data(dirbuf + off, n)`. -/
def dirRead (env : DirEnv) (off n : Nat) (s : DirState) : Option DirState :=
  (xfsReadData env.geo env.inode env.dev s.len s.pos n env.fuel freshCursor).map fun r =>
    { s with
      pos := r.2.1
      dirbuf := fun i => if off ≤ i then (r.2.2 (i - off)).getD (s.dirbuf i) else s.dirbuf i }

/-- The loop of `xfs_dabread`; inner `none` when no extent holds the block. -/
def dabFind (env : DirEnv) (dablk : Nat) : Nat → Cursor → Option (Option Xad)
  | 0, _ => none
  | fuel + 1, c =>
    match nextExtent env.geo env.inode env.dev c with
    | (none, _) => some none
    | (some e, c) =>
      if isinxt dablk e.offset e.len then some (some e) else dabFind env dablk fuel c

/-- The first 100 bytes of a block of an extent. -/
def dabLoad (env : DirEnv) (s : DirState) (e : Xad) : DirState :=
  let daddr := fsb2daddr env.geo (sub64 (u64 (e.start + s.dablk)) e.offset)
  { s with dirbuf := fun i => if i < 100 then env.dev (diskPos daddr 0 + i) else s.dirbuf i }

/-- `xfs_dabread`. -/
def xfsDabread (env : DirEnv) (s : DirState) : Option DirState :=
  (initExtents env.geo env.inode env.dev env.fuel freshCursor).bind fun c =>
    (dabFind env s.dablk env.fuel c).map fun found => found.elim s (dabLoad env s)

/-! ## Fields of `dirbuf` -/

def dir2BlockMagic : Nat := 0x58443242
def dir2Leaf1Magic : Nat := 0xd2f1
def dir2LeafnMagic : Nat := 0xd2ff
def dir2DataFreeTag : Nat := 0xffff

/-- `sizeof(xfs_dir2_data_hdr_t)`. -/
def dataHdrSize : Nat := 16

/-- `sizeof(xfs_dir2_block_tail_t)`. -/
def blockTailSize : Nat := 8

/-- The counts and the link of the leaf block in `dirbuf`. -/
def leafHeader (s : DirState) : DirState :=
  { s with
    dirmax := (be s.dirbuf 12 2 : Int) - be s.dirbuf 14 2
    forw := be s.dirbuf 0 4 }

/-! ## `next_dentry` -/

/-- The start of `next_dentry`, which goes on with the next leaf; inner `none` at the end. -/
def nextLeaf (env : DirEnv) (s : DirState) : Option (Option DirState) :=
  if s.dirmax ≤ s.dirpos then
    if s.forw = 0 then some none
    else
      (xfsDabread env { s with dablk := s.forw }).map fun s =>
        some { leafHeader s with dirpos := 0 }
  else some (some s)

/-- `usual[0]`. -/
def usual : Bytes := fun i => if i = 0 then 46 else 0

/-- `sf_ino`. -/
def sfIno (s : DirState) (sfe namelen : Nat) : Nat :=
  if s.i8param = 0 then be s.diC (sfe + namelen + 3) 8 else be s.diC (sfe + namelen + 3) 4

/-- `sf_parent_ino`. -/
def sfParentIno (s : DirState) : Nat := if s.i8param = 0 then be s.diC 2 8 else be s.diC 2 4

/-- The short form. -/
def nextShort (s : DirState) : Dentry × DirState :=
  if s.dirpos = -2 then (⟨nameAt usual 0 1, 0⟩, { s with dirpos := s.dirpos + 1 })
  else if s.dirpos = -1 then
    -- both the pointer and the length go up by one
    (⟨nameAt usual 1 2, sfParentIno s⟩,
      { s with dirpos := s.dirpos + 1, sfe := 10 - s.i8param })
  else
    let namelen := (s.diC s.sfe).toNat
    (⟨nameAt s.diC (s.sfe + 3) namelen, sfIno s s.sfe namelen⟩,
      { s with
        dirpos := s.dirpos + 1
        sfe := s.sfe + namelen + 11 - s.i8param
        diC := Function.update s.diC (s.sfe + 3 + namelen) 0 })

/-- The loop over free regions and ends of blocks; behind it four bytes of an entry are in
`dirbuf`. -/
def skipFree (env : DirEnv) : Nat → DirState → Option DirState
  | 0, _ => none
  | fuel + 1, s =>
    let s := if env.dirbsize ≤ s.blkoff then
        { s with
          blkoff := dataHdrSize
          pos := (s.pos &&& (2 ^ 64 - env.dirbsize)) ||| dataHdrSize }
      else s
    (dirRead env 0 4 s).bind fun s =>
      let s := { s with blkoff := s.blkoff + 4 }
      if be s.dirbuf 0 2 = dir2DataFreeTag then
        let toread : Int := (roundup8 (be s.dirbuf 2 2) : Int) - 4
        skipFree env fuel
          { s with blkoff := s.blkoff + toread, pos := ((s.pos + toread) % 2 ^ 64).toNat }
      else some s

/-- An entry of a data block. -/
def nextData (env : DirEnv) (s : DirState) : Option (Dentry × DirState) :=
  (skipFree env env.fuel s).bind fun s =>
    (dirRead env 4 5 s).bind fun s =>
      let ino := be s.dirbuf 0 8
      let namelen := (s.dirbuf 8).toNat
      let toread := roundup8 (namelen + 11) - 9
      (dirRead env 0 toread s).map fun s =>
        (⟨nameAt s.dirbuf 0 namelen, ino⟩,
          { s with
            blkoff := s.blkoff + (toread + 5 : Nat)
            dirpos := s.dirpos + 1
            dirbuf := Function.update s.dirbuf namelen 0 })

/-- `next_dentry`; inner `none` for NULL. -/
def nextDentry (env : DirEnv) (s : DirState) : Option (Option (Dentry × DirState)) :=
  (nextLeaf env s).bind fun next =>
    next.elim (some none) fun s =>
      match env.inode.diFormat with
      | .localFmt => some (some (nextShort s))
      | .extents | .btree => (nextData env s).map some
      | _ => none

/-! ## `first_dentry` -/

/-- The loop of `first_dentry` down to a leaf. -/
def findLeaf (env : DirEnv) : Nat → DirState → Option DirState
  | 0, _ => none
  | fuel + 1, s =>
    (xfsDabread env s).bind fun s =>
      if be s.dirbuf 8 2 = dir2LeafnMagic ∨ be s.dirbuf 8 2 = dir2Leaf1Magic then
        some (leafHeader s)
      else findLeaf env fuel { s with dablk := be s.dirbuf 20 4 }

/-- The counts of a directory in data blocks: from the tail of the one block, or from a leaf. -/
def dataCounts (env : DirEnv) (s : DirState) : Option DirState :=
  (dirRead env 0 dataHdrSize { s with pos := 0, len := env.diSize }).bind fun s =>
    if be s.dirbuf 0 4 = dir2BlockMagic then
      (dirRead env 0 blockTailSize { s with pos := env.dirbsize - blockTailSize }).map fun s =>
        { s with dirmax := s32 (sub32 (be s.dirbuf 0 4) (be s.dirbuf 4 4)) }
    else findLeaf env env.fuel { s with dablk := u32 (2 ^ 35 / 2 ^ env.geo.blklog) }

/-- `first_dentry`. -/
def firstDentry (env : DirEnv) (s : DirState) : Option (Option (Dentry × DirState)) :=
  let s := { s with forw := 0 }
  match env.inode.diFormat with
  | .localFmt =>
    nextDentry env
      { s with
        dirmax := (s.diC 0).toNat
        i8param := if s.diC 1 ≠ 0 then 0 else 4
        dirpos := -2 }
  | .extents | .btree =>
    (dataCounts env s).bind fun s =>
      nextDentry env { s with blkoff := dataHdrSize, pos := dataHdrSize, dirpos := 0 }
  | _ => none

/-- The calls of `next_dentry` up to NULL, at most `calls`. -/
def restDentries (env : DirEnv) : Nat → DirState → Option (List Dentry)
  | 0, _ => none
  | calls + 1, s =>
    (nextDentry env s).bind fun r =>
      r.elim (some []) fun r => (restDentries env calls r.2).map (r.1 :: ·)

/-- `first_dentry` and the calls of `next_dentry` behind it. -/
def dentries (env : DirEnv) (calls : Nat) (s : DirState) : Option (List Dentry) :=
  (firstDentry env s).bind fun r =>
    r.elim (some []) fun r => (restDentries env calls r.2).map (r.1 :: ·)

end LiloBoot.XFS
