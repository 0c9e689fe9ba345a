/-
LiloBoot.XFS.Xfs — the extent iterator and the file read of `second/fs_xfs.c`.

Memory and device are functions from positions to bytes; a position on the
device counts from the start of the partition. XFS and the CPU are both
big-endian, so a field is `be` of its bytes. Reads of the device succeed.

`struct xfs_info` is split in two: `Geometry` is what `xfs_mount` and `di_read`
leave, `Cursor` what the iterator moves. The loop of `init_extents` and the loop
of `xfs_read_data` take fuel and return `none` when it runs out.
-/
import LiloBoot.Basic

namespace LiloBoot.XFS

/-! ## Bytes -/

/-- The big-endian number in the `size` bytes at `pos`. -/
def be (bytes : Bytes) (pos : Nat) : Nat → Nat
  | 0 => 0
  | size + 1 => be bytes pos size * 256 + (bytes (pos + size)).toNat

/-- `mask32lo(n)`. -/
def mask32lo (n : Nat) : Nat := 2 ^ n - 1

/-! ## File system, inode and iterator -/

/-- The fields of `xfs_info` that stay fixed while a file is read. -/
structure Geometry where
  bsize : Nat
  agblocks : Nat
  bdlog : Nat
  blklog : Nat
  agblklog : Nat
  btnodePtr0Off : Nat
  ptr0 : Nat
  deriving DecidableEq, Repr

/-- `xfs_dinode_fmt_t`; `UUID` and `DEV` inodes have no data. -/
inductive DinodeFmt where
  | dev
  | localFmt
  | extents
  | btree
  | uuid
  deriving DecidableEq, Repr

/-- The inode: format, extent count and literal area `di_u`. -/
structure Inode where
  diFormat : DinodeFmt
  diNextents : Nat
  diU : Bytes

/-- `xad_t`. -/
structure Xad where
  offset : Nat
  start : Nat
  len : Nat
  deriving DecidableEq, Repr

/-- The fields of `xfs_info` that the iterator changes; `xt` is an offset in `di_u`. -/
structure Cursor where
  nextents : Nat
  next : Nat
  daddr : Nat
  fpos : Nat
  xt : Nat
  deriving DecidableEq, Repr

/-! ## Addresses -/

/-- The position `read_disk_block` seeks to; `start` is an `int`. -/
def diskPos (block : Nat) (start : Int) : Nat := ((block * 512 + start) % 2 ^ 64).toNat

def agb2daddr (geo : Geometry) (agno agbno : Nat) : Nat :=
  u64 (u64 (agno * geo.agblocks + agbno) * 2 ^ geo.bdlog)

def fsb2daddr (geo : Geometry) (fsbno : Nat) : Nat :=
  agb2daddr geo (u32 (fsbno / 2 ^ geo.agblklog)) (fsbno &&& mask32lo geo.agblklog)

/-! ## Extent records -/

/-- `xfs_bmbt_rec_32_t`. -/
structure BmbtRec32 where
  l0 : Nat
  l1 : Nat
  l2 : Nat
  l3 : Nat
  deriving DecidableEq, Repr

def bmbtRec32 (bytes : Bytes) (pos : Nat) : BmbtRec32 :=
  ⟨be bytes pos 4, be bytes (pos + 4) 4, be bytes (pos + 8) 4, be bytes (pos + 12) 4⟩

def xtStart (r : BmbtRec32) : Nat :=
  ((r.l1 &&& mask32lo 9) <<< 43) ||| (r.l2 <<< 11) ||| (r.l3 >>> 21)

def xtOffset (r : BmbtRec32) : Nat := ((r.l0 &&& mask32lo 31) <<< 23) ||| (r.l1 >>> 9)

def xtLen (r : BmbtRec32) : Nat := r.l3 &&& mask32lo 21

def xad (r : BmbtRec32) : Xad := ⟨xtOffset r, xtStart r, xtLen r⟩

/-! ## The iterator -/

/-- `sizeof(xfs_btree_lblock_t)`, and of `xfs_btree_block_t`. -/
def btreeBlockSize : Nat := 24

def bbLevel (dev : Bytes) (daddr : Nat) : Nat := be dev (diskPos daddr 0 + 4) 2

def bbNumrecs (dev : Bytes) (daddr : Nat) : Nat := be dev (diskPos daddr 0 + 6) 2

def bbLeftsib (dev : Bytes) (daddr : Nat) : Nat := be dev (diskPos daddr 0 + 8) 8

/-- What the iterator takes from the header of a leaf block. -/
def leafCursor (geo : Geometry) (dev : Bytes) (daddr : Nat) (c : Cursor) : Cursor :=
  { c with
    nextents := bbNumrecs dev daddr
    next := fsb2daddr geo (bbLeftsib dev daddr)
    daddr := daddr
    fpos := btreeBlockSize }

/-- The loop of `init_extents` down to a leaf. -/
def initExtentsLoop (geo : Geometry) (dev : Bytes) (c : Cursor) : Nat → Nat → Option Cursor
  | 0, _ => none
  | fuel + 1, ptr0 =>
    let daddr := fsb2daddr geo ptr0
    if bbLevel dev daddr = 0 then some (leafCursor geo dev daddr c)
    else initExtentsLoop geo dev c fuel (be dev (diskPos daddr geo.btnodePtr0Off) 8)

/-- `init_extents`. -/
def initExtents (geo : Geometry) (inode : Inode) (dev : Bytes) (fuel : Nat) (c : Cursor) :
    Option Cursor :=
  match inode.diFormat with
  | .extents => some { c with nextents := inode.diNextents, xt := 0 }
  | .btree => initExtentsLoop geo dev c fuel geo.ptr0
  | _ => some c

/-- `next_extent`; `none` for NULL. -/
def nextExtent (geo : Geometry) (inode : Inode) (dev : Bytes) (c : Cursor) :
    Option Xad × Cursor :=
  match inode.diFormat with
  | .extents =>
    if c.nextents = 0 then (none, c)
    else
      (some (xad (bmbtRec32 inode.diU c.xt)),
        { c with xt := c.xt + 16, nextents := c.nextents - 1 })
  | .btree =>
    if c.nextents = 0 ∧ c.next = 0 then (none, c)
    else
      let c := if c.nextents = 0 then leafCursor geo dev c.next c else c
      (some (xad (bmbtRec32 dev (diskPos c.daddr c.fpos))),
        { c with fpos := c.fpos + 16, nextents := sub32 c.nextents 1 })
  | _ => (none, c)

/-! ## `xfs_read_data` -/

/-- `isinxt`. -/
def isinxt (key offset len : Nat) : Bool := offset ≤ key && key < u64 (offset + len)

/-- The variables of `xfs_read_data`: `pos` is `xfs_file->pos`, `stored` how far `buf` has
moved. -/
structure ReadState where
  pos : Nat
  lenght : Nat
  endofprev : Nat
  stored : Nat
  buf : Buffer

/-- The loop body for one extent. -/
def readStep (geo : Geometry) (dev : Bytes) (endpos : Nat) (s : ReadState) (e : Xad) :
    ReadState :=
  if isinxt (s.pos / 2 ^ geo.blklog) e.offset e.len then
    let endofcur := u64 ((e.offset + e.len) * 2 ^ geo.blklog)
    let toread := if endpos ≤ endofcur then s.lenght else sub64 endofcur s.pos
    -- the second argument of `read_disk_block` is an `int`, so is the third
    let start := s32 (sub64 s.pos (u64 (e.offset * 2 ^ geo.blklog)))
    { pos := u64 (s.pos + toread)
      lenght := sub64 s.lenght toread
      endofprev := u64 (e.offset + e.len)
      stored := s.stored + toread
      buf := s.buf.store s.stored (u32 toread) fun i =>
        dev (diskPos (fsb2daddr geo e.start) start + i) }
  else if s.endofprev < e.offset then
    let toread :=
      if endpos ≤ u64 (e.offset * 2 ^ geo.blklog) then s.lenght
      else u64 ((e.offset - s.endofprev) * 2 ^ geo.blklog)
    { pos := u64 (s.pos + toread)
      lenght := sub64 s.lenght toread
      endofprev := s.endofprev
      stored := s.stored + toread
      buf := s.buf.store s.stored toread fun _ => 0 }
  else { s with endofprev := u64 (e.offset + e.len) }

/-- The loop of `xfs_read_data`. -/
def readLoop (geo : Geometry) (inode : Inode) (dev : Bytes) (endpos : Nat) :
    Nat → Cursor → ReadState → Option (ReadState × Cursor)
  | 0, _, _ => none
  | fuel + 1, c, s =>
    if s.lenght = 0 then some (s, c)
    else
      match nextExtent geo inode dev c with
      | (none, c) => some (s, c)
      | (some e, c) => readLoop geo inode dev endpos fuel c (readStep geo dev endpos s e)

/-- `xfs_read_data(buf, len)` at the file position `pos` of a file of `size` bytes, with an
untouched buffer: the returned `int`, the new position, and the buffer. -/
def xfsReadData (geo : Geometry) (inode : Inode) (dev : Bytes) (size pos : Nat) (len : Int)
    (fuel : Nat) (c : Cursor) : Option (Int × Nat × Buffer) :=
  if inode.diFormat = .localFmt then
    let n := (len % 2 ^ 32).toNat
    some (len, ((pos + len) % 2 ^ 64).toNat,
      Buffer.store (fun _ => none) 0 n fun i => inode.diU (pos + i))
  else
    let want := (len % 2 ^ 64).toNat
    let endpos := if size < want then u64 (pos + size) else u64 (pos + want)
    match initExtents geo inode dev fuel c with
    | none => none
    | some c =>
      match readLoop geo inode dev endpos fuel c
          ⟨pos, sub64 endpos pos, 2 ^ 64 - 1, 0, fun _ => none⟩ with
      | none => none
      | some (s, _) => some (s32 (sub64 s.pos pos), s.pos, s.buf)

end LiloBoot.XFS
