/-
LiloBoot.ReiserFS.ReadData — reading a file (`reiserfs_read_data` of
`second/fs_reiserfs.c`).

The bytes of a file lie in the items behind its stat data: an indirect item is
a list of block numbers, a direct item is the bytes themselves. The reader
stands on an item, copies what the item has from the position on, and goes to
the next item for the rest. `search_stat` and `next_key` are those of the tree;
what `block_read` delivers for a block of the file is a parameter.

`buf` is the destination, `stored` how far the source's pointer into it has
moved. The two loops have fuel.
-/
import LiloBoot.ReiserFS.Tree

namespace LiloBoot.ReiserFS

/-! ## Item headers -/

/-- `ih_version(ih)`; 0 is `ITEM_VERSION_1`. -/
def ihVersion (leaf : Bytes) (ih : Nat) : Nat := le leaf (ih + 22) 2

/-- The union of a key as the 64-bit number of `offset_v2`. -/
def offsetV2 (key : Key) : Nat := key.offset + 2 ^ 32 * key.uniqueness

/-- Whether the key of an item is of the old form. -/
def isOldKey (version : Nat) (leaf : Bytes) (ih : Nat) : Bool :=
  version < 2 || ihVersion leaf ih = 0

/-- `IH_KEY_OFFSET(ih)`. -/
def ihKeyOffset (version : Nat) (leaf : Bytes) (ih : Nat) : Nat :=
  if isOldKey version leaf ih then (ihKey leaf ih).offset
  else offsetV2 (ihKey leaf ih) % 2 ^ 60

/-- The types that `IH_KEY_ISTYPE` is asked for, as `V1_TYPE_x` and `V2_TYPE_x`. -/
structure ItemType where
  v1 : Nat
  v2 : Nat

def typeIndirect : ItemType := ⟨0xfffffffe, 1⟩

def typeDirect : ItemType := ⟨0xffffffff, 2⟩

/-- `IH_KEY_ISTYPE(ih, type)`. -/
def ihKeyIsType (version : Nat) (leaf : Bytes) (ih : Nat) (type : ItemType) : Bool :=
  if isOldKey version leaf ih then (ihKey leaf ih).uniqueness = type.v1
  else offsetV2 (ihKey leaf ih) / 2 ^ 60 = type.v2

/-! ## State -/

/-- The fields of `INFO` that stay while a file is read: those of the tree, the version, and
the key of the file. -/
structure OpenFile where
  tree : TreeInfo
  version : Nat
  dirId : Nat
  objectid : Nat

/-- `block_read` for the data of a file: from the number of the read, block, start and length
the bytes that come, and how many. -/
abbrev DataRead := Nat → Nat → Nat → Nat → Nat × Bytes

/-- The tree state, `INFO->file->pos`, `len`, and the buffer. -/
structure ReadState where
  tree : TreeState
  pos : Nat
  len : Nat
  stored : Nat
  buf : Buffer
  dataReads : Nat

/-- The leaf under the cursor. -/
def ReadState.leaf (s : ReadState) : Bytes := s.tree.slots 1

/-- The code behind the label `update_buf_len` up to the test of `len`. -/
def updateBufLen (toRead : Nat) (s : ReadState) : ReadState :=
  { s with
    len := sub32 s.len toRead
    stored := s.stored + toRead
    pos := u64 (s.pos + toRead) }

/-! ## `reiserfs_read_data` -/

/-- `block_read(blocknr, blk_offset, to_read, buf)`, or `memset` for a hole. -/
def readOrClear (read : DataRead) (blocknr blkOffset toRead : Nat) (s : ReadState) : ReadState :=
  if blocknr ≠ 0 then
    let (n, bytes) := read s.dataReads blocknr blkOffset toRead
    { s with buf := s.buf.store s.stored n bytes, dataReads := s.dataReads + 1 }
  else { s with buf := s.buf.store s.stored toRead fun _ => 0 }

/-- The loop over the blocks of an indirect item; `true` when it leaves for `done`. -/
def readBlocks (read : DataRead) (shift blocksize : Nat) :
    Nat → Nat → ReadState → Option (Bool × ReadState)
  | 0, _, _ => none
  | fuel + 1, offset, s =>
    if offset < blocksize then
      let blocknr := le s.leaf (s.tree.currentItem + 4 * (offset >>> shift)) 4
      let blkOffset := offset &&& (2 ^ shift - 1)
      let toRead := if 2 ^ shift - blkOffset > s.len then s.len else 2 ^ shift - blkOffset
      let s := updateBufLen toRead (readOrClear read blocknr blkOffset toRead s)
      if s.len = 0 then some (true, s)
      else readBlocks read shift blocksize fuel (u32 (offset + toRead)) s
    else some (false, s)

/-- The turn of the main loop for the item under the cursor, up to `get_next_key`; `true` when
it leaves for `done`. -/
def readItem (read : DataRead) (f : OpenFile) (fuel : Nat) (s : ReadState) :
    Option (Bool × ReadState) :=
  let ih := s.tree.currentIh
  let offset := u32 (u64 (sub64 s.pos (ihKeyOffset f.version s.leaf ih) + 1))
  let blocksize := ihItemLen s.leaf ih
  if ihKeyIsType f.version s.leaf ih typeDirect ∧ offset < blocksize then
    let toRead := if blocksize - offset > s.len then s.len else blocksize - offset
    let leaf := s.leaf
    let item := s.tree.currentItem
    let s := updateBufLen toRead
      { s with buf := s.buf.store s.stored toRead fun i => leaf (item + offset + i) }
    -- the jump to `update_buf_len` ends in the loop over the blocks
    if s.len = 0 then some (true, s)
    else readBlocks read f.tree.blocksizeShift blocksize fuel (u32 (offset + toRead)) s
  else if ihKeyIsType f.version s.leaf ih typeIndirect then
    let blocksize := u32 ((blocksize >>> 2) <<< f.tree.blocksizeShift)
    readBlocks read f.tree.blocksizeShift blocksize (blocksize + 1) offset s
  else some (false, s)

/-- `next_key()` with its result ignored. -/
def getNextKey (io : NodeRead) (f : OpenFile) (s : ReadState) : ReadState :=
  { s with tree := (nextKey io f.tree s.tree).1 }

/-- The main loop. -/
def readLoop (io : NodeRead) (read : DataRead) (f : OpenFile) : Nat → ReadState → Option ReadState
  | 0, _ => none
  | fuel + 1, s =>
    if s.tree.errnum ≠ 0 then some s
    else if (ihKey s.leaf s.tree.currentIh).objectid ≠ f.objectid then some s
    else
      match readItem read f (fuel + 1) s with
      | none => none
      | some (true, s) => some s
      | some (false, s) => readLoop io read f fuel (getNextKey io f s)

/-- `reiserfs_read_data(buf, len)` from the tree state and the position of the file: the value
that is returned, and the state. -/
def reiserfsReadData (io : NodeRead) (read : DataRead) (f : OpenFile) (fuel len pos : Nat)
    (tree : TreeState) : Option (Nat × ReadState) :=
  let s : ReadState := ⟨{ tree with errnum := 0 }, pos, len, 0, fun _ => none, 0⟩
  let s :=
    if (ihKey s.leaf s.tree.currentIh).objectid ≠ f.objectid
        ∨ ihKeyOffset f.version s.leaf s.tree.currentIh > u64 (s.pos + 1) then
      getNextKey io f
        { s with tree := (searchStat io f.tree f.dirId f.objectid s.tree).1 }
    else s
  (readLoop io read f fuel s).map fun s => (if s.tree.errnum ≠ 0 then 0 else s.stored, s)

end LiloBoot.ReiserFS
