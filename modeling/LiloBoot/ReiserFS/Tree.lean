/-
LiloBoot.ReiserFS.Tree — the tree of items (`second/fs_reiserfs.c`,
`include/reiserfs.h`).

A node of the tree is a block, and a block is its bytes; `blkhLevel`, `keyNr`,
`dcBlockNumber` and the others read the fields that the macros of the header
read. All integers on disk are little-endian and come as the CPU sees them
behind `le16_to_cpu` and `le32_to_cpu`.

The node cache is a function from slots to blocks: slot 0 is `ROOT`, slot 1 is
`LEAF`, `CACHE(i)` is slot `i`. A pointer into `LEAF` is an offset. What
`block_read` does is a parameter: for every read of a node the result and what
it leaves in the slot.
-/
import LiloBoot.ReiserFS.Journal

namespace LiloBoot.ReiserFS

/-! ## Blocks -/

/-- The little-endian number in the `size` bytes at `pos`. -/
def le (bytes : Bytes) (pos : Nat) : Nat → Nat
  | 0 => 0
  | size + 1 => (bytes pos).toNat + 256 * le bytes (pos + 1) size

/-- `sizeof(struct block_head)`. -/
def blkhSize : Nat := 24

/-- `KEY_SIZE`. -/
def keySize : Nat := 16

/-- `IH_SIZE`. -/
def ihSize : Nat := 24

/-- `DC_SIZE`. -/
def dcSize : Nat := 8

/-- `BLKH_LEVEL_LEAF`. -/
def blkhLevelLeaf : Nat := 1

def blkhLevel (block : Bytes) : Nat := le block 0 2

def blkhNrItem (block : Bytes) : Nat := le block 2 2

/-- Where `blk_right_delim_key` lies. -/
def blkRightDelimKey : Nat := 8

/-- `struct key`, with the union as `k_offset_v1`. -/
structure Key where
  dirId : Nat
  objectid : Nat
  offset : Nat
  uniqueness : Nat
  deriving DecidableEq, Repr

/-- The key at `pos`. -/
def keyAt (block : Bytes) (pos : Nat) : Key :=
  ⟨le block pos 4, le block (pos + 4) 4, le block (pos + 8) 4, le block (pos + 12) 4⟩

/-- `KEY(cache)[i]`. -/
def keyNr (block : Bytes) (i : Nat) : Key := keyAt block (blkhSize + keySize * i)

/-- `dc_block_number(&(DC(cache)[i]))`; the children stand behind `nrItem` keys. -/
def dcBlockNumber (block : Bytes) (nrItem i : Nat) : Nat :=
  le block (blkhSize + keySize * nrItem + dcSize * i) 4

/-- `&ITEMHEAD[i]`. -/
def itemHead (i : Nat) : Nat := blkhSize + ihSize * i

/-- `ih->ih_key`. -/
def ihKey (leaf : Bytes) (ih : Nat) : Key := keyAt leaf ih

/-- `ih_item_len(ih)`. -/
def ihItemLen (leaf : Bytes) (ih : Nat) : Nat := le leaf (ih + 18) 2

/-- `ih_location(ih)`. -/
def ihLocation (leaf : Bytes) (ih : Nat) : Nat := le leaf (ih + 20) 2

/-! ## State -/

/-- `FILE_ERR_BAD_FSYS`. -/
def fileErrBadFsys : Int := -8

/-- What `reiserfs_read_super` leaves in `reiserfs_state` for the tree. -/
structure TreeInfo where
  blocksizeShift : Nat
  treeDepth : Nat
  deriving DecidableEq, Repr

/-- `FSYSREISER_CACHE_SIZE`. -/
def fsysreiserCacheSize : Nat := 7 * 4096

/-- `INFO->cached_slots`. -/
def TreeInfo.cachedSlots (info : TreeInfo) : Nat :=
  fsysreiserCacheSize / 2 ^ info.blocksizeShift - 1

/-- The cache, the fields of `reiserfs_state` that move with it, and `errnum`. `reads` counts
the calls of `block_read`. -/
structure TreeState where
  slots : Nat → Bytes
  blocks : Nat → Nat
  nextKeyNr : Nat → Nat
  currentIh : Nat
  currentItem : Nat
  errnum : Int
  reads : Nat

/-- `INFO->next_key_nr[depth] = nr`. -/
def TreeState.setNext (s : TreeState) (depth nr : Nat) : TreeState :=
  { s with nextKeyNr := Function.update s.nextKeyNr depth nr }

/-- `block_read` for a node: from the number of the read, the block and the old content of the
slot, the result and the new content. -/
abbrev NodeRead := Nat → Nat → Bytes → Int × Bytes

/-! ## `read_tree_node` -/

/-- `read_tree_node`: the slot with the node, `none` for 0. -/
def readTreeNode (io : NodeRead) (info : TreeInfo) (blockNr depth : Nat) (s : TreeState) :
    TreeState × Option Nat :=
  let s := { s with errnum := 0 }
  if depth < info.cachedSlots ∧ blockNr = s.blocks depth then (s, some depth)
  else
    let slot := if depth < info.cachedSlots then depth else info.cachedSlots
    let (n, content) := io s.reads blockNr (s.slots slot)
    let s := { s with slots := Function.update s.slots slot content, reads := s.reads + 1 }
    if n = 0 then (s, none)
    else if blkhLevel content ≠ depth then ({ s with errnum := fileErrBadFsys }, none)
    else ({ s with blocks := Function.update s.blocks depth blockNr }, some slot)

/-! ## `next_key` -/

/-- `INFO->current_ih = ih`, and the item that it heads. -/
def setCurrent (ih : Nat) (s : TreeState) : TreeState :=
  { s with currentIh := ih, currentItem := ihLocation (s.slots 1) ih }

/-- The first loop: the level to go on from, `none` at the end of the tree. `depth` is a `u16`,
so it comes to `tree_depth` in 2^16 steps. -/
def climb (treeDepth : Nat) (nextKeyNr : Nat → Nat) : Nat → Nat → Option Nat
  | 0, _ => none
  | fuel + 1, depth =>
    if depth = treeDepth then none
    else if nextKeyNr (u16 (depth + 1)) = 0 then climb treeDepth nextKeyNr fuel (u16 (depth + 1))
    else some (u16 (depth + 1))

/-- The second loop, from the node in `slot` at level `depth` down to a leaf. -/
def descend (io : NodeRead) (info : TreeInfo) : Nat → Nat → TreeState → TreeState × Bool
  | 0, _, s => (s, false)
  | depth + 1, slot, s =>
    let nrItem := blkhNrItem (s.slots slot)
    let nr := s.nextKeyNr (depth + 1)
    let block := dcBlockNumber (s.slots slot) nrItem nr
    match readTreeNode io info block depth
      (s.setNext (depth + 1) (if nr = nrItem then 0 else nr + 1)) with
    | (s, none) => (s, false)
    | (s, some slot) =>
      if blkhLevelLeaf < depth then descend io info depth slot s else (s, true)

/-- The node that the second loop starts with: its level, and its slot. -/
def startNode (io : NodeRead) (info : TreeInfo) (depth : Nat) (s : TreeState) :
    TreeState × Option (Nat × Nat) :=
  if depth = info.treeDepth then (s, some (depth, 0))
  else if depth ≤ info.cachedSlots then (s, some (depth, depth))
  else
    -- the level is counted down before the block is looked up
    match readTreeNode io info (s.blocks (depth - 1)) (depth - 1) s with
    | (s, none) => (s, none)
    | (s, some slot) => (s, some (depth - 1, slot))

/-- `next_key`. -/
def nextKey (io : NodeRead) (info : TreeInfo) (s : TreeState) : TreeState × Bool :=
  let ih := s.currentIh + ihSize
  if ih = itemHead (blkhNrItem (s.slots 1)) then
    match climb info.treeDepth s.nextKeyNr (2 ^ 16) blkhLevelLeaf with
    | none => (setCurrent blkRightDelimKey s, true)
    | some depth =>
      match startNode io info depth s with
      | (s, none) => (s, false)
      | (s, some (depth, slot)) =>
        match descend io info depth slot s with
        | (s, false) => (s, false)
        | (s, true) => (setCurrent (itemHead 0) s, true)
  else (setCurrent ih s, true)

/-! ## `search_stat` -/

/-- Whether a key lies behind the stat key of an object. -/
def keyBehind (key : Key) (dirId objectid : Nat) : Bool :=
  dirId < key.dirId
    || key.dirId = dirId && (objectid < key.objectid
      || key.objectid = objectid && !(key.offset = 0 && key.uniqueness = 0))

/-- The index that the search in a node stops at, `n` keys before the last. -/
def searchNode (node : Bytes) (dirId objectid : Nat) : Nat → Nat → Nat
  | 0, i => i
  | n + 1, i =>
    if keyBehind (keyNr node i) dirId objectid then i
    else searchNode node dirId objectid n (i + 1)

/-- The way down to a leaf, from the node in `slot` at level `depth`. -/
def searchDown (io : NodeRead) (info : TreeInfo) (dirId objectid : Nat) :
    Nat → Nat → TreeState → TreeState × Bool
  | 0, _, s => (s, true)
  | depth + 1, slot, s =>
    if depth + 1 ≤ blkhLevelLeaf then (s, true)
    else
      let nrItem := blkhNrItem (s.slots slot)
      let i := searchNode (s.slots slot) dirId objectid nrItem 0
      let block := dcBlockNumber (s.slots slot) nrItem i
      match readTreeNode io info block depth
        (s.setNext (depth + 1) (if i = nrItem then 0 else i + 1)) with
      | (s, none) => (s, false)
      | (s, some slot) => searchDown io info dirId objectid depth slot s

/-- The key of stat data. -/
def statKey (dirId objectid : Nat) : Key := ⟨dirId, objectid, 0, 0⟩

/-- The item in the leaf with the stat key, among the last `n`. -/
def searchLeaf (leaf : Bytes) (dirId objectid : Nat) : Nat → Nat → Option Nat
  | 0, _ => none
  | n + 1, i =>
    if ihKey leaf (itemHead i) = statKey dirId objectid then some (itemHead i)
    else searchLeaf leaf dirId objectid n (i + 1)

/-- `search_stat`. -/
def searchStat (io : NodeRead) (info : TreeInfo) (dirId objectid : Nat) (s : TreeState) :
    TreeState × Bool :=
  let s := { s with errnum := 0 }
  match searchDown io info dirId objectid info.treeDepth 0 s with
  | (s, false) => (s, false)
  | (s, true) =>
    match searchLeaf (s.slots 1) dirId objectid (blkhNrItem (s.slots 1)) 0 with
    | some ih => (setCurrent ih s, true)
    | none => ({ s with errnum := fileErrBadFsys }, false)

end LiloBoot.ReiserFS
