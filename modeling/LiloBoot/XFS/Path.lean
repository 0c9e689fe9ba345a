/-
LiloBoot.XFS.Path — the path resolution of `second/fs_xfs.c` (`xfs_dir`).

The tree is what `di_read`, `first_dentry`, `next_dentry` and `xfs_read_data` make
of the disk: a directory is the list of entries that the iteration yields, a link
the bytes of its target. `dirname` is a pointer into the caller's copy of the
path or into `linkbuf`; the NUL that `xfs_dir` puts behind a name is gone again
before the next one is read, and is not modelled. The loop takes fuel and returns
`none` when it runs out.
-/
import LiloBoot.Basic

namespace LiloBoot.XFS

/-! ## The tree -/

/-- What an inode number stands for, by `IFMT`. An entry with inode number 0 stands for its own
directory. -/
inductive Node where
  | reg
  | dir (entries : List (CStr × Nat))
  | lnk (target : CStr)
  | other
  deriving DecidableEq, Repr

/-- A mounted file system. -/
structure Tree where
  rootino : Nat
  bsize : Nat
  node : Nat → Node

/-- The values of `errnum`. -/
inductive FileErr where
  | notfound
  | badType
  | notdir
  | symlinkLoop
  | length
  deriving DecidableEq, Repr

def maxLinkCount : Nat := 8

/-! ## Characters -/

/-- The NUL behind a string. -/
def eos : Char := '\x00'

/-- `isspace`, by the mask `_S` of `lib/ctype.c`. -/
def isspace (c : Char) : Bool := c.toNat = 32 || 9 ≤ c.toNat && c.toNat ≤ 13 || c.toNat = 160

/-- The C string at `off`, in an area that ends at `bound`. -/
def cstrAt (mem : Nat → Char) (off bound : Nat) : CStr :=
  ((List.range (bound - off)).map fun i => mem (off + i)).takeWhile (· ≠ eos)

/-! ## The state of the loop -/

/-- The variables of `xfs_dir`; `buffer` is the argument, `inLink` says where `dirname` points. -/
structure PathState where
  ino : Nat
  parentIno : Nat
  linkCount : Nat
  buffer : CStr
  linkbuf : Nat → Char
  inLink : Bool
  dirname : Nat

/-- `*dirname`. -/
def PathState.char (s : PathState) (linkbuf : Nat → Char) (i : Nat) : Char :=
  if s.inLink then linkbuf i else s.buffer.getD i eos

/-- What is still to be read. -/
def PathState.path (t : Tree) (s : PathState) : CStr :=
  if s.inLink then cstrAt s.linkbuf s.dirname t.bsize else s.buffer.drop s.dirname

/-! ## A link -/

/-- `xfs_read_data(linkbuf, xfs_file->len)`. -/
def readLink (target : CStr) (linkbuf : Nat → Char) : Nat → Char := fun i =>
  if i < target.length then target.getD i eos else linkbuf i

/-- `while (n < bsize - 1 && (linkbuf[n++] = *dirname++));` with `room = bsize - 1 - n`. -/
def copyRest (s : PathState) : Nat → (Nat → Char) → Nat → Nat → (Nat → Char) × Nat
  | 0, linkbuf, n, _ => (linkbuf, n)
  | room + 1, linkbuf, n, dirname =>
    let c := s.char linkbuf dirname
    let linkbuf := Function.update linkbuf n c
    if c = eos then (linkbuf, n + 1) else copyRest s room linkbuf (n + 1) (dirname + 1)

/-- The target in `linkbuf`, and the rest of the path behind it. -/
def spliceLink (t : Tree) (target : CStr) (s : PathState) : Nat → Char :=
  let n := target.length
  let r := copyRest s (t.bsize - 1 - n) (readLink target s.linkbuf) n s.dirname
  Function.update r.1 r.2 eos

/-- The branch for a link. -/
def followLink (t : Tree) (target : CStr) (s : PathState) : PathState :=
  { s with
    ino := if readLink target s.linkbuf 0 = '/' then t.rootino else s.parentIno
    linkCount := s.linkCount + 1
    linkbuf := spliceLink t target s
    inLink := true
    dirname := 0 }

/-! ## A name -/

/-- The loop over the entries; an empty name is equal to none. -/
def findDentry (name : CStr) (entries : List (CStr × Nat)) : Option Nat :=
  (entries.find? fun e => name ≠ [] && e.1 = name).map (·.2)

/-- The name that is read, and the slashes before it. -/
def slashes (path : CStr) : CStr := path.takeWhile (· = '/')

def firstName (path : CStr) : CStr :=
  (path.dropWhile (· = '/')).takeWhile fun c => !isspace c && c ≠ '/'

/-- The branch for a directory, in which the name was found. -/
def enterEntry (newIno : Nat) (path : CStr) (s : PathState) : PathState :=
  { s with
    parentIno := s.ino
    ino := if newIno ≠ 0 then newIno else s.ino
    dirname := s.dirname + (slashes path).length + (firstName path).length }

/-! ## `xfs_dir` -/

/-- Whether nothing is left to read: `!*dirname || isspace(*dirname)`. -/
def atEnd (path : CStr) : Bool := (path.head?.map isspace).getD true

/-- The loop of `xfs_dir`: the inode that `xfs_file` is left at, or `errnum`. -/
def xfsDirLoop (t : Tree) : Nat → PathState → Option (Except FileErr Nat)
  | 0, _ => none
  | fuel + 1, s =>
    match t.node s.ino with
    | .lnk target =>
      if maxLinkCount < s.linkCount + 1 then some (.error .symlinkLoop)
      else if target.length < t.bsize - 1 then xfsDirLoop t fuel (followLink t target s)
      else some (.error .length)
    | node =>
      let path := s.path t
      if atEnd path then if node = .reg then some (.ok s.ino) else some (.error .badType)
      else
        match node with
        | .dir entries =>
          match findDentry (firstName path) entries with
          | some newIno => xfsDirLoop t fuel (enterEntry newIno path s)
          | none => some (.error .notfound)
        | _ => some (.error .notdir)

/-- `xfs_dir`; `linkbuf` is not initialised. -/
def xfsDir (t : Tree) (fuel : Nat) (linkbuf : Nat → Char) (dirname : CStr) :
    Option (Except FileErr Nat) :=
  xfsDirLoop t fuel ⟨t.rootino, t.rootino, 0, dirname, linkbuf, false, 0⟩

end LiloBoot.XFS
