/-
LiloBoot.DevTree.FlatTree — the flattened device tree of the PS3 boot header
(`bootheader/ps3/flatdevtree.c`).

A context points into the memory; the memory is a field of it here. Addresses
are naturals. A pointer or an unsigned value plus a signed `int` is `addInt`,
which wraps as the 32-bit code does: the string anchor is used with offsets of
either sign. The words of the blob are big-endian, and so is the processor.

What a loop over the structure block does is a recursion with as much fuel as
the address space has bytes. `genealogy` is left out here, since only `ft_get_parent`
reads it; `DevTree.Parent` adds it.
-/
import LiloBoot.DevTree.Memory

namespace LiloBoot.DevTree

open LiloBoot.Memory

/-! ## Types -/

def ofDtBeginNode : Nat := 1

def ofDtEndNode : Nat := 2

def ofDtProp : Nat := 3

def ofDtNop : Nat := 4

def ofDtEnd : Nat := 9

/-- A pointer or an unsigned number of 32 bits plus an `int`. -/
def addInt (n : Nat) (d : Int) : Nat := ((n + d) % 2 ^ 32).toNat

/-- `_ALIGN(x, al)`; `al` is a power of two. -/
def align (x al : Nat) : Nat := u32 (x + (al - 1)) / al * al

/-- `enum ft_rgn_id`. -/
inductive FtRgnId where
  | rsvmap
  | struct
  | strings
  deriving DecidableEq, Repr

structure FtRegion where
  start : Nat
  size : Nat
  deriving DecidableEq, Repr

def FtRegion.stop (r : FtRegion) : Nat := r.start + r.size

/-- `struct ft_cxt`, and the memory. `nodeTbl` holds the used entries of `node_tbl` from index 1
on. -/
structure FtCxt where
  mem : Bytes
  bph : Nat
  maxSize : Nat
  isordered : Bool
  strAnchor : Nat
  p : Nat
  rgn : FtRgnId → FtRegion
  nodeTbl : List Nat
  nodeMax : Nat

def FtCxt.setStart (cxt : FtCxt) (r : FtRgnId) (start : Nat) : FtCxt :=
  { cxt with rgn := Function.update cxt.rgn r ⟨start, (cxt.rgn r).size⟩ }

def FtCxt.setSize (cxt : FtCxt) (r : FtRgnId) (size : Nat) : FtCxt :=
  { cxt with rgn := Function.update cxt.rgn r ⟨(cxt.rgn r).start, size⟩ }

/-- `realloc_fn(old, size)`: the address and the memory behind the call. The argument between the
two is what an allocator knows, the size of the block `old`. The address 0 is NULL, and a context
without the function is one where it always fails. -/
abbrev Realloc := Bytes → Nat → Nat → Nat → Option (Nat × Bytes)

/-! ## The header -/

/-- `sizeof(struct boot_param_header)`. -/
def bphSize : Nat := 36

/-- `HDR_SIZE`. -/
def hdrSize : Nat := 40

/-- `EXPAND_INCR`. -/
def expandIncr : Nat := 1024

def totalsizeAt : Nat := 4

def offDtStructAt : Nat := 8

def offDtStringsAt : Nat := 12

def offMemRsvmapAt : Nat := 16

def versionAt : Nat := 20

def dtStringsSizeAt : Nat := 32

/-! ## Node pointers -/

def ftRootNode (cxt : FtCxt) : Nat := (cxt.rgn .struct).start

/-- `ft_get_phandle`; `none` is NULL. -/
def ftGetPhandle (cxt : FtCxt) (node : Option Nat) : Option Nat × FtCxt :=
  match node with
  | none => (none, cxt)
  | some node =>
    match cxt.nodeTbl.idxOf? node with
    | some i => (some (i + 1), cxt)
    | none =>
      if cxt.nodeTbl.length + 1 < cxt.nodeMax then
        (some (cxt.nodeTbl.length + 1), { cxt with nodeTbl := cxt.nodeTbl ++ [node] })
      else (none, cxt)

/-- `ft_node_ph2node`; entry 0 of the table is NULL. -/
def ftNodePh2node (cxt : FtCxt) (phandle : Nat) : Option Nat :=
  if phandle = 0 then none else cxt.nodeTbl[phandle - 1]?

def ftNodeUpdateBefore (addr : Nat) (shift : Int) (cxt : FtCxt) : FtCxt :=
  if shift = 0 then cxt
  else { cxt with
    nodeTbl := cxt.nodeTbl.map fun node => if node < addr then addInt node shift else node }

def ftNodeUpdateAfter (addr : Nat) (shift : Int) (cxt : FtCxt) : FtCxt :=
  if shift = 0 then cxt
  else { cxt with
    nodeTbl := cxt.nodeTbl.map fun node => if addr ≤ node then addInt node shift else node }

/-! ## `ft_next` -/

/-- What `ft_next` returns in a `struct ft_atom`: the tag, and the fields that go with it. -/
inductive FtAtom where
  | beginNode (name data : Nat)
  | prop (name data size : Nat)
  | endNode
  | nop
  deriving DecidableEq, Repr

/-- `ft_next`: the address of the next atom, and this one. -/
def ftNext (cxt : FtCxt) (p : Nat) : Option (Nat × FtAtom) :=
  if p ≥ (cxt.rgn .struct).stop then none
  else if word cxt.mem p = ofDtBeginNode then
    some (p + 4 + align (strlen cxt.mem (p + 4) + 1) 4, .beginNode (p + 4) p)
  else if word cxt.mem p = ofDtProp then
    let sz := word cxt.mem (p + 4)
    some (p + 4 + (8 + align sz 4),
      .prop (addInt cxt.strAnchor (word cxt.mem (p + 8))) (p + 12) sz)
  else if word cxt.mem p = ofDtEndNode then some (p + 4, .endNode)
  else if word cxt.mem p = ofDtNop then some (p + 4, .nop)
  else none

/-! ## Making space -/

/-- `ft_reorder`. -/
def ftReorder (realloc : Realloc) (nextra : Int) (cxt : FtCxt) : Option FtCxt :=
  let rsvmap := cxt.rgn .rsvmap
  let struct := cxt.rgn .struct
  let strings := cxt.rgn .strings
  let tot := hdrSize + expandIncr + rsvmap.size + struct.size + strings.size
  let tot := align (if nextra > 0 then tot + nextra.toNat else tot) 8
  match realloc cxt.mem 0 0 tot with
  | none => none
  | some (p, mem) =>
    let mem := memmove mem p cxt.bph bphSize
    let newRsvmap := p + hdrSize
    let mem := memmove mem newRsvmap rsvmap.start rsvmap.size
    let newStruct := newRsvmap + rsvmap.size
    let mem := memmove mem newStruct struct.start struct.size
    let shift := (newStruct : Int) - struct.start
    let newStrings := p + tot - strings.size
    let mem := memmove mem newStrings strings.start strings.size
    let stroff := (cxt.strAnchor : Int) - strings.start
    let cxt := ftNodeUpdateAfter struct.start shift cxt
    some { cxt with
      mem := mem
      bph := p
      maxSize := tot
      isordered := true
      p := addInt cxt.p shift
      strAnchor := addInt newStrings stroff
      rgn := fun r =>
        match r with
        | .rsvmap => ⟨newRsvmap, rsvmap.size⟩
        | .struct => ⟨newStruct, struct.size⟩
        | .strings => ⟨newStrings, strings.size⟩ }

/-- `prev_end`. -/
def prevEnd (cxt : FtCxt) : FtRgnId → Nat
  | .rsvmap => cxt.bph + hdrSize
  | .struct => (cxt.rgn .rsvmap).stop
  | .strings => (cxt.rgn .struct).stop

/-- `next_start`. -/
def nextStart (cxt : FtCxt) : FtRgnId → Nat
  | .rsvmap => (cxt.rgn .struct).start
  | .struct => (cxt.rgn .strings).start
  | .strings => cxt.bph + cxt.maxSize

/-- `ft_shuffle`: `*pp` and the context, `none` for 0. -/
def ftShuffle (pp : Nat) (rgn : FtRgnId) (nextra : Int) (cxt : FtCxt) : Option (Nat × FtCxt) :=
  let rgnStart := (cxt.rgn rgn).start
  let rgnEnd := (cxt.rgn rgn).stop
  let size := addInt (cxt.rgn rgn).size nextra
  if nextra ≤ 0 ∨ addInt rgnEnd nextra ≤ nextStart cxt rgn then
    -- move following stuff
    let cxt :=
      if pp < rgnEnd then
        let mem :=
          if nextra < 0 then memmove cxt.mem pp (addInt pp (-nextra)) (addInt (rgnEnd - pp) nextra)
          else memmove cxt.mem (addInt pp nextra) pp (rgnEnd - pp)
        let cxt := { cxt with mem := mem }
        if rgn = .struct then ftNodeUpdateAfter pp nextra cxt else cxt
      else cxt
    let cxt := cxt.setSize rgn size
    -- strings are only added at the beginning
    let cxt :=
      if rgn = .strings then { cxt with strAnchor := addInt cxt.strAnchor nextra } else cxt
    some (pp, cxt)
  else if prevEnd cxt rgn ≤ addInt rgnStart (-nextra) then
    -- move preceding stuff
    let cxt :=
      if pp > rgnStart then
        let mem := memmove cxt.mem (addInt rgnStart (-nextra)) rgnStart (pp - rgnStart)
        let cxt := { cxt with mem := mem }
        if rgn = .struct then ftNodeUpdateBefore pp (-nextra) cxt else cxt
      else cxt
    some (addInt pp (-nextra), (cxt.setStart rgn (addInt rgnStart (-nextra))).setSize rgn size)
  else none

/-- The strings moved to `str`. -/
def moveStrings (str : Nat) (cxt : FtCxt) : FtCxt :=
  let strings := cxt.rgn .strings
  let cxt := cxt.setStart .strings str
  { cxt with
    mem := memmove cxt.mem str strings.start strings.size
    strAnchor := addInt cxt.strAnchor ((str : Int) - strings.start) }

/-- The sum of the gaps behind the regions from `rgn` on, as `ft_make_space` forms it. -/
def followingSpace (cxt : FtCxt) : FtRgnId → Nat
  | .rsvmap =>
    u32 (sub32 (nextStart cxt .rsvmap) (cxt.rgn .rsvmap).stop
      + sub32 (nextStart cxt .rsvmap) (cxt.rgn .struct).stop)
  | .struct => sub32 (nextStart cxt .struct) (cxt.rgn .struct).stop
  | .strings => 0

/-- The code of `ft_make_space` that has to reallocate: `*pp` and the context, `none` when
`realloc` fails. -/
def growBlob (realloc : Realloc) (pp nextra tot : Nat) (cxt : FtCxt) : Option (Nat × FtCxt) :=
  let size := align (cxt.maxSize + (nextra - tot) + expandIncr) 8
  match realloc cxt.mem cxt.bph cxt.maxSize size with
  | none => none
  | some (newp, mem) =>
    let shift := (newp : Int) - cxt.bph
    let cxt := { cxt with mem := mem, maxSize := size }
    let (pp, cxt) :=
      if shift ≠ 0 then
        let cxt := ftNodeUpdateAfter (cxt.rgn .struct).start shift cxt
        (addInt pp shift, { cxt with
          bph := newp
          rgn := fun r => ⟨addInt (cxt.rgn r).start shift, (cxt.rgn r).size⟩
          strAnchor := addInt cxt.strAnchor shift })
      else (pp, cxt)
    some (pp, moveStrings (newp + size - (cxt.rgn .strings).size) cxt)

/-- The end of `ft_make_space`: it must be `FT_RSVMAP`, and `FT_STRUCT` is moved up. -/
def moveStruct (pp : Nat) (rgn : FtRgnId) (nextra : Int) (cxt : FtCxt) : Bool × Nat × FtCxt :=
  if rgn = .rsvmap then
    let next := addInt (cxt.rgn .rsvmap).stop nextra
    let struct := cxt.rgn .struct
    if next + struct.size ≥ (cxt.rgn .strings).start then (false, pp, cxt)
    else
      let cxt := { cxt with mem := memmove cxt.mem next struct.start struct.size }
      let cxt := (ftNodeUpdateAfter struct.start nextra cxt).setStart .struct next
      match ftShuffle pp rgn nextra cxt with
      | some (pp, cxt) => (true, pp, cxt)
      | none => (false, pp, cxt)
  else (false, pp, cxt)

/-- The code of `ft_make_space` behind the test for order. -/
def makeOrderedSpace (realloc : Realloc) (pp : Nat) (rgn : FtRgnId) (nextra : Int) (cxt : FtCxt) :
    Bool × Nat × FtCxt :=
  match ftShuffle pp rgn nextra cxt with
  | some (pp, cxt) => (true, pp, cxt)
  | none =>
    -- see if there is space after the strings section
    let after := (cxt.rgn .strings).stop < cxt.bph + cxt.maxSize
    let cxt :=
      if after then moveStrings (cxt.bph + cxt.maxSize - (cxt.rgn .strings).size) cxt else cxt
    match (if after ∧ rgn ≠ .rsvmap then ftShuffle pp rgn nextra cxt else none) with
    | some (pp, cxt) => (true, pp, cxt)
    | none =>
      let tot := followingSpace cxt rgn
      if tot < nextra.toNat then
        match growBlob realloc pp nextra.toNat tot cxt with
        | none => (false, pp, cxt)
        | some (pp, cxt) =>
          match ftShuffle pp rgn nextra cxt with
          | some (pp, cxt) => (true, pp, cxt)
          | none => moveStruct pp rgn nextra cxt
      else moveStruct pp rgn nextra cxt

/-- `ft_make_space`: whether it succeeds, `*pp`, and the context. -/
def ftMakeSpace (realloc : Realloc) (pp : Nat) (rgn : FtRgnId) (nextra : Int) (cxt : FtCxt) :
    Bool × Nat × FtCxt :=
  if cxt.isordered then makeOrderedSpace realloc pp rgn nextra cxt
  else
    match ftReorder realloc nextra cxt with
    | none => (false, pp, cxt)
    | some ordered =>
      makeOrderedSpace realloc (addInt (ordered.rgn rgn).start ((pp : Int) - (cxt.rgn rgn).start))
        rgn nextra ordered

/-! ## Writing the structure block -/

def ftPutWord (v : Nat) (cxt : FtCxt) : FtCxt :=
  { cxt with mem := storeWord cxt.mem cxt.p v, p := cxt.p + 4 }

def ftPutBin (data : List UInt8) (cxt : FtCxt) : FtCxt :=
  let sza := align data.length 4
  let mem := if data.length < sza then storeWord cxt.mem (cxt.p + sza - 4) 0 else cxt.mem
  { cxt with mem := store mem cxt.p data, p := cxt.p + sza }

/-- `ft_begin_node`; `none` is NULL. -/
def ftBeginNode (realloc : Realloc) (name : List UInt8) (cxt : FtCxt) : Option Nat × FtCxt :=
  match ftMakeSpace realloc cxt.p .struct (8 + align (name.length + 1) 4 : Nat) cxt with
  | (false, p, cxt) => (none, { cxt with p := p })
  | (true, p, cxt) =>
    (some p, ftPutBin (name ++ [0]) (ftPutWord ofDtBeginNode { cxt with p := p }))

def ftEndNode (cxt : FtCxt) : FtCxt := ftPutWord ofDtEndNode cxt

/-- `NO_STRING`. -/
def noString : Nat := 0x7fffffff

/-- The loop of `lookup_string`. -/
def lookupFrom (cxt : FtCxt) (name : List UInt8) : Nat → Nat → Nat
  | 0, _ => noString
  | fuel + 1, p =>
    if p < (cxt.rgn .strings).stop then
      if strcmpEq cxt.mem p name then addInt p (-cxt.strAnchor)
      else lookupFrom cxt name fuel (p + (strlen cxt.mem p + 1))
    else noString

def lookupString (cxt : FtCxt) (name : List UInt8) : Nat :=
  lookupFrom cxt name (2 ^ 32) (cxt.rgn .strings).start

/-- `map_string`. -/
def mapString (realloc : Realloc) (name : List UInt8) (cxt : FtCxt) : Nat × FtCxt :=
  let off := lookupString cxt name
  if off ≠ noString then (off, cxt)
  else
    match ftMakeSpace realloc (cxt.rgn .strings).start .strings (name.length + 1 : Nat) cxt with
    | (false, _, cxt) => (noString, cxt)
    | (true, p, cxt) =>
      (addInt p (-cxt.strAnchor), { cxt with mem := store cxt.mem p (name ++ [0]) })

/-- `ft_prop`; `false` is -1. -/
def ftProp (realloc : Realloc) (name data : List UInt8) (cxt : FtCxt) : Bool × FtCxt :=
  let (off, cxt) := mapString realloc name cxt
  if off = noString then (false, cxt)
  else
    match ftMakeSpace realloc cxt.p .struct (12 + align data.length 4 : Nat) cxt with
    | (false, p, cxt) => (false, { cxt with p := p })
    | (true, p, cxt) =>
      (true, ftPutBin data (ftPutWord off (ftPutWord data.length
        (ftPutWord ofDtProp { cxt with p := p }))))

/-! ## Opening and closing -/

/-- The entry of the reserve map at `p` is the last one. -/
def lastReserve (mem : Bytes) (p : Nat) : Bool :=
  word mem p = 0 ∧ word mem (p + 4) = 0 ∧ word mem (p + 8) = 0 ∧ word mem (p + 12) = 0

/-- The loop of `rsvmap_size`: the address of the last entry. -/
def rsvmapLast (mem : Bytes) : Nat → Nat → Nat
  | 0, res => res
  | fuel + 1, res => if lastReserve mem res then res else rsvmapLast mem fuel (res + 16)

def rsvmapSize (cxt : FtCxt) : Nat :=
  rsvmapLast cxt.mem (2 ^ 32) (cxt.rgn .rsvmap).start + 16 - (cxt.rgn .rsvmap).start

/-- The loop of `struct_size`: the address of the last atom. -/
def lastAtom (cxt : FtCxt) : Nat → Nat → Nat
  | 0, p => p
  | fuel + 1, p =>
    match ftNext cxt p with
    | some (next, _) => lastAtom cxt fuel next
    | none => p

def structSize (cxt : FtCxt) : Nat :=
  let p := (cxt.rgn .struct).start
  let cxt := if (cxt.rgn .struct).size = 0 then cxt.setSize .struct (0xffffffff - p) else cxt
  lastAtom cxt (2 ^ 32) p + 4 - p

/-- The loop of `adjust_string_offsets`. -/
def adjustFrom (adj : Int) : Nat → Nat → FtCxt → FtCxt
  | 0, _, cxt => cxt
  | fuel + 1, p, cxt =>
    match ftNext cxt p with
    | none => cxt
    | some (next, .prop ..) =>
      adjustFrom adj fuel next
        { cxt with mem := storeWord cxt.mem (p + 8) (addInt (word cxt.mem (p + 8)) adj) }
    | some (next, _) => adjustFrom adj fuel next cxt

def adjustStringOffsets (adj : Int) (cxt : FtCxt) : FtCxt :=
  adjustFrom adj (2 ^ 32) (cxt.rgn .struct).start cxt

/-- `ft_open` where the table of node pointers has been allocated; `none` for -1. -/
def ftOpen (mem : Bytes) (blob maxSize maxFindDevice : Nat) : Option FtCxt :=
  if word mem (blob + versionAt) < 16 then none
  else
    let cxt : FtCxt := ⟨mem, blob, maxSize, false, 0, 0, fun _ => ⟨0, 0⟩, [], maxFindDevice + 1⟩
    let cxt := cxt.setStart .rsvmap (blob + word mem (blob + offMemRsvmapAt))
    let cxt := cxt.setSize .rsvmap (rsvmapSize cxt)
    let cxt := cxt.setStart .struct (blob + word mem (blob + offDtStructAt))
    let cxt := cxt.setSize .struct (structSize cxt)
    let cxt := cxt.setStart .strings (blob + word mem (blob + offDtStringsAt))
    let cxt := cxt.setSize .strings (word mem (blob + dtStringsSizeAt))
    some { cxt with
      p := (cxt.rgn .struct).start
      strAnchor := (cxt.rgn .strings).start }

/-- `ft_end_tree`. -/
def ftEndTree (cxt : FtCxt) : FtCxt :=
  if cxt.isordered then
    let oldstr := (cxt.rgn .strings).start
    let adj := (cxt.strAnchor : Int) - oldstr
    let cxt := if adj ≠ 0 then adjustStringOffsets adj cxt else cxt
    -- strings end on an 8-byte boundary
    let ssize := (cxt.rgn .strings).size
    let endp := align ((cxt.rgn .struct).stop + ssize) 8
    let str := endp - ssize
    let cxt := { cxt.setStart .strings str with
      mem := memmove cxt.mem str oldstr ssize
      strAnchor := str }
    let p := cxt.bph
    let mem := storeWord cxt.mem (p + totalsizeAt) (endp - p)
    let mem := storeWord mem (p + offMemRsvmapAt) ((cxt.rgn .rsvmap).start - p)
    let mem := storeWord mem (p + offDtStructAt) ((cxt.rgn .struct).start - p)
    let mem := storeWord mem (p + offDtStringsAt) ((cxt.rgn .strings).start - p)
    let mem := storeWord mem (p + dtStringsSizeAt) ssize
    { cxt with mem := mem }
  else cxt

/-! ## Looking up -/

/-- `FT_MAX_DEPTH`. -/
def ftMaxDepth : Nat := 50

/-- `strncmp(p, s, n) == 0`. -/
def strncmpEq (mem : Bytes) : Nat → Nat → List UInt8 → Bool
  | 0, _, _ => true
  | n + 1, p, s => mem p = s.headD 0 && (s.headD 0 = 0 || strncmpEq mem n (p + 1) s.tail)

/-- The index of the first character from `cp` on that is not a slash. -/
def skipSlashes (path : List UInt8) (cp : Nat) : Nat :=
  cp + ((path.drop cp).takeWhile (· = 47)).length

/-- The length of the component at `cp`. -/
def componentLength (path : List UInt8) (cp : Nat) : Nat :=
  ((path.drop cp).takeWhile (· ≠ 47)).length

/-- `while (cl > 0 && cp[cl - 1] == '/') --cl;` -/
def dropSlashes (path : List UInt8) (cp : Nat) : Nat → Nat
  | 0 => 0
  | cl + 1 => if path.getD (cp + cl) 0 = 47 then dropSlashes path cp cl else cl + 1

/-- The local variables of `ft_find_descendent`: `depth` counted from one, indices into the
path for `cp` and `path_comp`. -/
structure FindState where
  depth : Nat
  dmatch : Nat
  cp : Nat
  cl : Nat
  pathComp : Nat → Nat

/-- The name of a node is the component at `cp`. -/
def nameMatches (cxt : FtCxt) (path : List UInt8) (s : FindState) (name : Nat) : Bool :=
  strncmpEq cxt.mem s.cl name (path.drop s.cp)
    && (cxt.mem (name + s.cl) = 47 || cxt.mem (name + s.cl) = 0 || cxt.mem (name + s.cl) = 64)

/-- The loop of `ft_find_descendent`: `none` when an array is left, else the node or NULL. -/
def findLoop (cxt : FtCxt) (path : List UInt8) : Nat → Nat → FindState → Option (Option Nat)
  | 0, _, _ => some none
  | fuel + 1, p, s =>
    match ftNext cxt p with
    | none => some none
    | some (next, .beginNode name data) =>
      let s := { s with depth := s.depth + 1 }
      -- `depth` is one more than that of the source
      if s.depth ≠ s.dmatch + 1 then findLoop cxt path fuel next s
      else if s.dmatch ≥ ftMaxDepth then none
      else if s.dmatch ≠ 0 ∧ nameMatches cxt path s name = false then
        findLoop cxt path fuel next s
      else
        let cp := skipSlashes path (s.cp + s.cl)
        if path.getD cp 0 = 0 then some (some data)
        else
          findLoop cxt path fuel next { s with
            pathComp := Function.update s.pathComp s.dmatch s.cp
            cp := cp
            cl := componentLength path cp
            dmatch := s.dmatch + 1 }
    | some (next, .endNode) =>
      if s.depth ≤ 1 then some none
      else if s.dmatch ≥ s.depth then
        let comp := s.pathComp (s.dmatch - 1)
        findLoop cxt path fuel next { s with
          dmatch := s.dmatch - 1
          cl := dropSlashes path comp (s.cp - comp - 1)
          cp := comp
          depth := s.depth - 1 }
      else findLoop cxt path fuel next { s with depth := s.depth - 1 }
    | some (next, _) => findLoop cxt path fuel next s

def ftFindDescendent (cxt : FtCxt) (top : Nat) (path : List UInt8) : Option (Option Nat) :=
  findLoop cxt path (2 ^ 32) top ⟨0, 0, 0, 0, fun _ => 0⟩

/-- `ft_find_device`; `none` when an array is left. -/
def ftFindDevice (cxt : FtCxt) (top : Option Nat) (path : List UInt8) :
    Option (Option Nat × FtCxt) :=
  match top with
  | none => (ftFindDescendent cxt (ftRootNode cxt) path).map fun node => ftGetPhandle cxt node
  | some phandle =>
    match ftNodePh2node cxt phandle with
    | none => some (none, cxt)
    | some node => (ftFindDescendent cxt node path).map fun node => ftGetPhandle cxt node

/-- The loop of `__ft_get_prop`: the address and the size of the value. -/
def getPropLoop (cxt : FtCxt) (propname : List UInt8) : Nat → Nat → Int → Option (Nat × Nat)
  | 0, _, _ => none
  | fuel + 1, node, depth =>
    match ftNext cxt node with
    | none => none
    | some (next, .beginNode ..) => getPropLoop cxt propname fuel next (depth + 1)
    | some (next, .prop name data size) =>
      if depth ≠ 1 ∨ strcmpEq cxt.mem name propname = false then
        getPropLoop cxt propname fuel next depth
      else some (data, size)
    | some (next, .endNode) =>
      if depth - 1 ≤ 0 then none else getPropLoop cxt propname fuel next (depth - 1)
    | some (next, .nop) => getPropLoop cxt propname fuel next depth

/-- `ft_get_prop`: the size that is returned and the bytes that are copied, `none` for -1. -/
def ftGetProp (cxt : FtCxt) (phandle : Nat) (propname : List UInt8) (buflen : Nat) :
    Option (Nat × List UInt8) :=
  match ftNodePh2node cxt phandle with
  | none => none
  | some node =>
    (getPropLoop cxt propname (2 ^ 32) node 0).map fun (data, size) =>
      (size, (List.range (min size buflen)).map fun i => cxt.mem (data + i))

/-! ## Editing -/

/-- What `ft_set_prop` does with a property that it has found. -/
def overwriteProp (realloc : Realloc) (buf : List UInt8) (data size : Nat) (cxt : FtCxt) :
    Bool × FtCxt :=
  let nextra := (align buf.length 4 : Int) - align size 4
  let cxt := { cxt with p := data }
  match (if nextra ≠ 0 then ftMakeSpace realloc cxt.p .struct nextra cxt
      else (true, cxt.p, cxt)) with
  | (false, p, cxt) => (false, { cxt with p := p })
  | (true, p, cxt) =>
    (true, ftPutBin buf { cxt with mem := storeWord cxt.mem (p - 8) buf.length, p := p })

/-- The loop of `ft_set_prop`. -/
def setPropLoop (realloc : Realloc) (propname buf : List UInt8) :
    Nat → Nat → FtCxt → Bool × FtCxt
  | 0, _, cxt => (false, cxt)
  | fuel + 1, p, cxt =>
    match ftNext cxt p with
    | none => (false, cxt)
    | some (_, .beginNode ..) | some (_, .endNode) =>
      -- the property is not there: insert it here
      ftProp realloc propname buf { cxt with p := p }
    | some (next, .prop name data size) =>
      if strcmpEq cxt.mem name propname = false then setPropLoop realloc propname buf fuel next cxt
      else overwriteProp realloc buf data size cxt
    | some (next, .nop) => setPropLoop realloc propname buf fuel next cxt

/-- `ft_set_prop`; `false` is -1. -/
def ftSetProp (realloc : Realloc) (phandle : Nat) (propname buf : List UInt8) (cxt : FtCxt) :
    Bool × FtCxt :=
  match ftNodePh2node cxt phandle with
  | none => (false, cxt)
  | some node =>
    match ftNext cxt node with
    | some (next, .beginNode ..) => setPropLoop realloc propname buf (2 ^ 32) next cxt
    | _ => (false, cxt)

/-- The loop of `ft_create_node`. -/
def createNodeLoop (realloc : Realloc) (name : List UInt8) :
    Nat → Nat → Int → FtCxt → Option Nat × FtCxt
  | 0, _, _, cxt => (none, cxt)
  | fuel + 1, p, depth, cxt =>
    match ftNext cxt p with
    | none => (none, cxt)
    | some (next, .beginNode nodeName _) =>
      if depth + 1 = 1 ∧ strcmpEq cxt.mem nodeName name then (none, cxt)
      else createNodeLoop realloc name fuel next (depth + 1) cxt
    | some (next, .endNode) =>
      if depth - 1 > 0 then createNodeLoop realloc name fuel next (depth - 1) cxt
      else
        -- end of node, insert here
        let (ret, cxt) := ftBeginNode realloc name { cxt with p := p }
        ftGetPhandle (ftEndNode cxt) ret
    | some (next, _) => createNodeLoop realloc name fuel next depth cxt

/-- `ft_create_node`; `none` is NULL. -/
def ftCreateNode (realloc : Realloc) (parent : Option Nat) (name : List UInt8) (cxt : FtCxt) :
    Option Nat × FtCxt :=
  match parent with
  | none => createNodeLoop realloc name (2 ^ 32) (ftRootNode cxt) 0 cxt
  | some phandle =>
    match ftNodePh2node cxt phandle with
    | none => (none, cxt)
    | some node => createNodeLoop realloc name (2 ^ 32) node 0 cxt

end LiloBoot.DevTree
