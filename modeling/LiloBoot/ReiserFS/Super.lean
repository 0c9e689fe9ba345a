/-
LiloBoot.ReiserFS.Super — reading the superblock (`reiserfs_read_super` of
`second/fs_reiserfs.c`).

A superblock is its bytes; the fields are read where `struct
reiserfs_super_block` has them. What the device answers is a parameter, and so
is `block_read` behind `journal_init`. The tree and the cache are those of
`Tree`.
-/
import LiloBoot.ReiserFS.Tree
import LiloBoot.DevTree.Memory

namespace LiloBoot.ReiserFS

open LiloBoot.Memory

/-! ## The superblock -/

/-- `REISERFS_SUPER_MAGIC_STRING`. -/
def superMagicString : List UInt8 := [0x52, 0x65, 0x49, 0x73, 0x45, 0x72, 0x46, 0x73]

/-- `REISER2FS_SUPER_MAGIC_STRING`. -/
def super2MagicString : List UInt8 := [0x52, 0x65, 0x49, 0x73, 0x45, 0x72, 0x32, 0x46, 0x73]

/-- `sizeof(struct reiserfs_super_block)`. -/
def superSize : Nat := 204

/-- The fields of a superblock that are used. -/
structure Super where
  sRootBlock : Nat
  sJournalBlock : Nat
  sOrigJournalSize : Nat
  sBlocksize : Nat
  sVersion : Nat
  deriving DecidableEq, Repr

def superAt (bytes : Bytes) : Super where
  sRootBlock := le bytes 8 4
  sJournalBlock := le bytes 12 4
  sOrigJournalSize := le bytes 20 4
  sBlocksize := le bytes 44 2
  sVersion := le bytes 72 2

/-- `super.s_magic` is one of the two magic strings. -/
def hasMagic (bytes : Bytes) : Bool :=
  strcmpEq bytes 52 super2MagicString || strcmpEq bytes 52 superMagicString

/-- The device while the superblock is read: the result and the bytes of `read_disk_block` for the
block 16 or 2, and `block_read` for a block, from the bytes in its destination. -/
structure SuperRead where
  disk : Nat → Nat × Bytes
  block : Nat → Bytes → Int × Bytes

/-- `REISERFS_OLD_BLOCKSIZE`. -/
def oldBlocksize : Nat := 4096

/-- The superblock that is found, where it is, and its bytes. -/
def findSuper (io : SuperRead) : Option (Super × Nat × Bytes) :=
  let (n, bytes) := io.disk 16
  if n ≠ superSize then none
  else if hasMagic bytes then some (superAt bytes, 16, bytes)
  else
    -- the old position
    let (n, bytes) := io.disk 2
    if n ≠ superSize then none
    else if hasMagic bytes then some (superAt bytes, 2, bytes)
    else if strcmpEq bytes 20 superMagicString then
      some ({ superAt bytes with sBlocksize := oldBlocksize, sJournalBlock := 0, sVersion := 0 }, 2,
        bytes)
    else none

/-! ## `reiserfs_read_super` -/

/-- The loop of `reiserfs_log2` from `i` on. For a `word` of 1 it goes on to shifts that are not
defined. -/
def log2Loop (word : Nat) : Nat → Nat → Nat
  | 0, i => i
  | fuel + 1, i => if word / 2 ^ (i + 1) % 2 = 0 then log2Loop word fuel (i + 1) else i + 1

/-- `reiserfs_log2`: the lowest bit that is set, bit 0 apart. -/
def reiserfsLog2 (word : Nat) : Nat := if word = 0 then 0 else log2Loop word 31 0

/-- `is_power_of_two`. -/
def isPowerOfTwo (word : Nat) : Bool := word &&& u32 (2 ^ 32 - word) = word

/-- `REISERFS_MAX_SUPPORTED_VERSION`. -/
def maxSupportedVersion : Nat := 2

/-- `FSYSREISER_MIN_BLOCKSIZE`. -/
def minBlocksize : Nat := 512

/-- `FSYSREISER_MAX_BLOCKSIZE`. -/
def maxBlocksize : Nat := fsysreiserCacheSize / 3

/-- `REISERFS_MAX_TREE_HEIGHT`. -/
def maxTreeHeight : Nat := 7

/-- What `reiserfs_read_super` leaves in `reiserfs_state`. -/
structure SuperInfo where
  version : Nat
  blocksize : Nat
  blocksizeShift : Nat
  journalBlock : Nat
  journalBlockCount : Nat
  cachedSlots : Nat
  treeDepth : Nat
  deriving DecidableEq, Repr

/-- The fields before the checks; the depth is not known yet. -/
def superInfo (super : Super) : SuperInfo where
  version := super.sVersion
  blocksize := super.sBlocksize
  blocksizeShift := reiserfsLog2 super.sBlocksize
  journalBlock := super.sJournalBlock
  journalBlockCount := super.sOrigJournalSize
  cachedSlots := u16 (fsysreiserCacheSize / 2 ^ reiserfsLog2 super.sBlocksize + (2 ^ 16 - 1))
  treeDepth := 0

/-- `reiserfs_read_super`; `none` for 0. -/
def reiserfsReadSuper (io : SuperRead) : Option SuperInfo :=
  match findSuper io with
  | none => none
  | some (super, superblock, bytes) =>
    let info := superInfo super
    if info.version > maxSupportedVersion then none
    else if info.blocksize < minBlocksize ∨ info.blocksize > maxBlocksize then none
    else if info.journalBlock ≠ 0 ∧ isPowerOfTwo info.journalBlockCount = false then none
    else
      -- with a journal the superblock is read again, and only its root block is used
      let root :=
        if info.journalBlock ≠ 0 then (superAt (io.block superblock bytes).2).sRootBlock
        else super.sRootBlock
      let (n, node) := io.block root fun _ => 0
      if n = 0 then none
      else if blkhLevel node ≥ maxTreeHeight then none
      else some { info with treeDepth := blkhLevel node }

end LiloBoot.ReiserFS
