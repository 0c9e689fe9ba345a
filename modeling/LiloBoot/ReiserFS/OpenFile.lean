/-
LiloBoot.ReiserFS.OpenFile — looking a file up (`reiserfs_open_file` of
`second/fs_reiserfs.c`).

The name is in the caller's buffer at first and in `linkbuf` behind a link, and
`dirname` goes through it. The NUL that the source puts behind a component is gone
again before the name is read on, so a component is a list here; the NUL that it
puts behind the name of an entry is a byte of the leaf for the time of the
`strcmp`. The loops take fuel, and the result is `none` when it runs out.
-/
import LiloBoot.ReiserFS.ReadData
import LiloBoot.DevTree.Memory

namespace LiloBoot.ReiserFS

open LiloBoot.Memory

/-! ## Constants -/

def fileErrNotfound : Int := -2

def fileIoerr : Int := -4

def fileErrBadType : Int := -6

def fileErrNotdir : Int := -7

def fileErrSymlinkLoop : Int := -9

def fileErrLength : Int := -10

/-- `PATH_MAX`, the size of `linkbuf`. -/
def pathMax : Nat := 1024

/-- `MAX_LINK_COUNT`. -/
def maxLinkCount : Nat := 5

/-! ## Stat data and directory entries -/

/-- `sd_mode(sdp)`. -/
def sdMode (leaf : Bytes) (sd : Nat) : Nat := le leaf sd 2

/-- `sd_size(ih, sdp)`; 1 is `ITEM_VERSION_2`. -/
def sdSize (leaf : Bytes) (ih sd : Nat) : Nat :=
  if ihVersion leaf ih = 1 then le leaf (sd + 8) 8 else le leaf (sd + 8) 4

/-- `S_ISREG(mode)`. -/
def isReg (mode : Nat) : Bool := mode &&& 0o170000 = 0o100000

/-- `S_ISDIR(mode)`. -/
def isDir (mode : Nat) : Bool := mode &&& 0o170000 = 0o040000

/-- `S_ISLNK(mode)`. -/
def isLnk (mode : Nat) : Bool := mode &&& 0o170000 = 0o120000

/-- `ih_entry_count(ih)`. -/
def ihEntryCount (leaf : Bytes) (ih : Nat) : Nat := le leaf (ih + 16) 2

/-- `DEH_SIZE`. -/
def dehSize : Nat := 16

def dehDirId (leaf : Bytes) (deHead : Nat) : Nat := le leaf (deHead + 4) 4

def dehObjectid (leaf : Bytes) (deHead : Nat) : Nat := le leaf (deHead + 8) 4

def dehLocation (leaf : Bytes) (deHead : Nat) : Nat := le leaf (deHead + 12) 2

def dehState (leaf : Bytes) (deHead : Nat) : Nat := le leaf (deHead + 14) 2

/-- `deh_state(de_head) & (1 << DEH_Visible)`. -/
def dehVisible (leaf : Bytes) (deHead : Nat) : Bool := dehState leaf deHead &&& 4 ≠ 0

/-! ## Names -/

/-- `isspace`, by the mask `_S` of `lib/ctype.c`. -/
def isspace (c : UInt8) : Bool := c = 32 || 9 ≤ c && c ≤ 13 || c = 160

/-- `'/'`. -/
def slash : UInt8 := 47

/-- Whether nothing is left: `!*dirname || isspace(*dirname)`. -/
def atEnd (path : List UInt8) : Bool := (path.head?.map isspace).getD true

/-- How long the remaining name is, `while (dirname[len] && !isspace(dirname[len]))`. -/
def nameLength (path : List UInt8) : Nat := (path.takeWhile fun c => !isspace c).length

/-- `while (*dirname == '/')`. -/
def slashes (path : List UInt8) : List UInt8 := path.takeWhile (· = slash)

/-- From `dirname` to `rest`. -/
def component (path : List UInt8) : List UInt8 :=
  (path.dropWhile (· = slash)).takeWhile fun c => !isspace c && c ≠ slash

/-- The C string at `off`, in an area that ends at `bound`. -/
def textAt (mem : Bytes) (off bound : Nat) : List UInt8 :=
  ((List.range (bound - off)).map fun i => mem (off + i)).takeWhile (· ≠ 0)

/-! ## State -/

/-- The variables of `reiserfs_open_file`, with `INFO->fileinfo` and `INFO->file`. `inLink` says
where `dirname` points. -/
structure OpenState where
  tree : TreeState
  fileinfo : Nat × Nat
  pos : Nat
  len : Nat
  linkbuf : Bytes
  inLink : Bool
  dirname : Nat
  dirId : Nat
  objectid : Nat
  parentDirId : Nat
  parentObjectid : Nat
  linkCount : Nat

/-- `errnum = err; return 0`. -/
def OpenState.fail (err : Int) (s : OpenState) : Option (Bool × OpenState) :=
  some (false, { s with tree := { s.tree with errnum := err } })

/-- `dirname[i]`. -/
def OpenState.char (buffer : List UInt8) (s : OpenState) (i : Nat) : UInt8 :=
  if s.inLink then s.linkbuf (s.dirname + i) else buffer.getD (s.dirname + i) 0

/-- The name from `dirname` on. -/
def OpenState.path (buffer : List UInt8) (s : OpenState) : List UInt8 :=
  if s.inLink then textAt s.linkbuf s.dirname pathMax else buffer.drop s.dirname

/-! ## A directory -/

/-- The loop over the last `n` entries of an item: the object that the name stands for. -/
def scanEntries (leaf : Bytes) (item : Nat) (name : List UInt8) :
    Nat → Nat → Nat → Option (Nat × Nat)
  | 0, _, _ => none
  | n + 1, deHead, nameEnd =>
    let filename := item + dehLocation leaf deHead
    if dehVisible leaf deHead ∧ strcmpEq (Function.update leaf nameEnd 0) filename name then
      some (dehDirId leaf deHead, dehObjectid leaf deHead)
    else scanEntries leaf item name n (deHead + dehSize) filename

/-- What the search in a directory ends with. -/
inductive Lookup where
  | failed
  | notfound
  | found (dirId objectid : Nat)
  deriving DecidableEq, Repr

/-- The loop over the items of a directory. -/
def scanDir (io : NodeRead) (info : TreeInfo) (objectid : Nat) (name : List UInt8) :
    Nat → TreeState → Option (Lookup × TreeState)
  | 0, _ => none
  | fuel + 1, s =>
    match nextKey io info s with
    | (s, false) => some (.failed, s)
    | (s, true) =>
      let leaf := s.slots 1
      if (ihKey leaf s.currentIh).objectid ≠ objectid then some (.notfound, s)
      else
        match scanEntries leaf s.currentItem name (ihEntryCount leaf s.currentIh) s.currentItem
          (s.currentItem + ihItemLen leaf s.currentIh) with
        | some (d, o) => some (.found d o, s)
        | none => scanDir io info objectid name fuel s

/-- The state behind the label `found`. -/
def OpenState.enter (buffer : List UInt8) (dirId objectid : Nat) (s : OpenState) : OpenState :=
  let path := s.path buffer
  { s with
    dirname := s.dirname + (slashes path).length + (component path).length
    parentDirId := s.dirId
    parentObjectid := s.objectid
    dirId := dirId
    objectid := objectid }

/-! ## A link -/

/-- `REISERFS_ROOT_PARENT_OBJECTID` and `REISERFS_ROOT_OBJECTID`. -/
def rootDir : Nat × Nat := (1, 2)

/-- `linkbuf` behind the `memmove` that saves the remaining name for a target of `size` bytes. -/
def OpenState.saved (buffer : List UInt8) (size : Nat) (s : OpenState) : Bytes := fun i =>
  if size ≤ i ∧ i < size + (nameLength (s.path buffer) + 1) then s.char buffer (i - size)
  else s.linkbuf i

/-- The state behind the read of the target. -/
def OpenState.follow (buffer : List UInt8) (size : Nat) (r : ReadState) (s : OpenState) :
    OpenState :=
  let linkbuf := fun i => (r.buf i).getD (s.saved buffer size i)
  { s with
    tree := r.tree
    fileinfo := (s.dirId, s.objectid)
    pos := r.pos
    len := size
    linkbuf := linkbuf
    inLink := true
    dirname := 0
    dirId := if linkbuf 0 = slash then rootDir.1 else s.parentDirId
    objectid := if linkbuf 0 = slash then rootDir.2 else s.parentObjectid
    linkCount := s.linkCount + 1 }

/-! ## `reiserfs_open_file` -/

/-- What does not change while a name is looked up: the disk, the tree, the name in the caller's
buffer, and the fuel of the inner loops. -/
structure Mounted where
  io : NodeRead
  read : DataRead
  info : TreeInfo
  version : Nat
  buffer : List UInt8
  fuel : Nat

/-- The loop of `reiserfs_open_file`: the value that is returned, and the state. -/
def openFileLoop (m : Mounted) : Nat → OpenState → Option (Bool × OpenState)
  | 0, _ => none
  | fuel + 1, s =>
    match searchStat m.io m.info s.dirId s.objectid s.tree with
    | (tree, false) => some (false, { s with tree := tree })
    | (tree, true) =>
      let s := { s with tree := tree }
      let leaf := tree.slots 1
      let mode := sdMode leaf tree.currentItem
      let size := sdSize leaf tree.currentIh tree.currentItem
      let path := s.path m.buffer
      if isLnk mode then
        if maxLinkCount < s.linkCount + 1 then s.fail fileErrSymlinkLoop
        else if pathMax - 1 < u64 (size + nameLength path) then s.fail fileErrLength
        else
          match nextKey m.io m.info tree with
          | (tree, false) => { s with tree := tree }.fail fileIoerr
          | (tree, true) =>
            match reiserfsReadData m.io m.read ⟨m.info, m.version, s.dirId, s.objectid⟩ m.fuel
              (u32 size) 0 tree with
            | none => none
            | some (n, r) =>
              if n ≠ size then { s with tree := r.tree }.fail fileIoerr
              else openFileLoop m fuel (s.follow m.buffer size r)
      else if atEnd path then
        if isReg mode then
          let next := nextKey m.io m.info tree
          some (next.2, { s with
            tree := next.1, pos := 0, len := size, fileinfo := (s.dirId, s.objectid) })
        else s.fail fileErrBadType
      else if isDir mode then
        match scanDir m.io m.info s.objectid (component path) m.fuel tree with
        | none => none
        | some (.failed, tree) => some (false, { s with tree := tree })
        | some (.notfound, tree) => { s with tree := tree }.fail fileErrNotfound
        | some (.found d o, tree) => openFileLoop m fuel ({ s with tree := tree }.enter m.buffer d o)
      else s.fail fileErrNotdir

/-- `reiserfs_open_file(dirname)`; `linkbuf` is not initialised, nor are the fields of `INFO` that
it sets. -/
def reiserfsOpenFile (m : Mounted) (fuel : Nat) (linkbuf : Bytes) (fileinfo : Nat × Nat)
    (pos len : Nat) (tree : TreeState) : Option (Bool × OpenState) :=
  openFileLoop m fuel ⟨{ tree with errnum := 0 }, fileinfo, pos, len, linkbuf, false, 0, rootDir.1,
    rootDir.2, 0, 0, 0⟩

end LiloBoot.ReiserFS
