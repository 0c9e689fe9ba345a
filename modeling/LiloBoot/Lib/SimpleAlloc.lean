/-
LiloBoot.Lib.SimpleAlloc — the heap of the zImage
(`lilo/bootheader/ps3/simple_alloc.c`).

A table of entries hands out one memory area. The first time an entry is used
it gets the next bytes of the area for good; later it can be freed and used
again with the same base and size. The two flag bits are two fields, pointers
are 32-bit addresses with 0 for `NULL`, and what the program asked for and
has not given back (`live`) is kept beside the heap.
-/
import LiloBoot.Lib.Malloc

namespace LiloBoot.SimpleAlloc

open Malloc (setBytes Block Op)

/-! ## The allocator -/

/-- `struct alloc_info`; the flags are `ENTRY_BEEN_USED` and `ENTRY_IN_USE`. -/
structure AllocInfo where
  beenUsed : Bool
  inUse : Bool
  base : Nat
  size : Nat
  deriving DecidableEq

/-- `sizeof(struct alloc_info)`. -/
def sizeofAllocInfo : Nat := 12

/-- Memory and the static variables of the allocator; `tbl_entries` is the length of the table. -/
structure Heap where
  mem : Bytes
  allocTbl : List AllocInfo
  allocMin : Nat
  nextBase : Nat
  spaceLeft : Nat

/-- `_ALIGN_UP`. -/
def alignUp (addr size : Nat) : Nat :=
  u32 (addr + sub32 size 1) &&& (2 ^ 32 - 1 - sub32 size 1)

/-- What the loop of `simple_malloc` found: the base it returns and the variables after it. -/
structure Found where
  base : Nat
  allocTbl : List AllocInfo
  nextBase : Nat
  spaceLeft : Nat

/-- The loop of `simple_malloc` over the table, for a size that is rounded up; `none` for
`err_out`. -/
def scanTable (size nextBase spaceLeft : Nat) : List AllocInfo → Option Found
  | [] => none
  | p :: rest =>
    if p.beenUsed = false then
      if size ≤ spaceLeft then
        some ⟨nextBase, ⟨true, true, nextBase, size⟩ :: rest, u32 (nextBase + size),
          spaceLeft - size⟩
      else none
    else if p.inUse = false ∧ size ≤ p.size then
      some ⟨p.base, { p with inUse := true } :: rest, nextBase, spaceLeft⟩
    else
      (scanTable size nextBase spaceLeft rest).map fun f => { f with allocTbl := p :: f.allocTbl }

/-- `simple_malloc`. -/
def simpleMalloc (size : Nat) (h : Heap) : Nat × Heap :=
  if size = 0 then (0, h)
  else
    match scanTable (alignUp size h.allocMin) h.nextBase h.spaceLeft h.allocTbl with
    | none => (0, h)
    | some f =>
      (f.base, { h with allocTbl := f.allocTbl, nextBase := f.nextBase, spaceLeft := f.spaceLeft })

/-- `simple_find_entry`. -/
def simpleFindEntry (ptr : Nat) : List AllocInfo → Option AllocInfo
  | [] => none
  | p :: rest =>
    if p.beenUsed = false then none
    else if p.inUse = true ∧ p.base = ptr then some p
    else simpleFindEntry ptr rest

/-- The table after the entry that `simple_find_entry` finds has lost `ENTRY_IN_USE`. -/
def clearInUse (ptr : Nat) : List AllocInfo → List AllocInfo
  | [] => []
  | p :: rest =>
    if p.beenUsed = false then p :: rest
    else if p.inUse = true ∧ p.base = ptr then { p with inUse := false } :: rest
    else p :: clearInUse ptr rest

/-- `simple_free`. -/
def simpleFree (ptr : Nat) (h : Heap) : Heap :=
  { h with allocTbl := clearInUse ptr h.allocTbl }

/-- `simple_realloc`. -/
def simpleRealloc (ptr size : Nat) (h : Heap) : Nat × Heap :=
  if size = 0 then (0, simpleFree ptr h)
  else if ptr = 0 then simpleMalloc size h
  else
    match simpleFindEntry ptr h.allocTbl with
    | none => (0, h)
    | some p =>
      if size ≤ p.size then (ptr, h)
      else
        let (new, h) := simpleMalloc size h
        -- `memcpy` and `simple_free` without a look at `new`
        let mem := setBytes h.mem new p.size fun i => h.mem (ptr + i)
        (new, simpleFree ptr { h with mem := mem })

/-- `simple_alloc_init`: the address after the heap, and the heap with a table of zeros. -/
def simpleAllocInit (mem : Bytes) (base heapSize granularity maxAllocs : Nat) : Nat × Heap :=
  let heapSize := alignUp heapSize granularity
  let allocTbl := alignUp base 8
  let tblSize := u32 (maxAllocs * sizeofAllocInfo)
  let heapBase := alignUp (u32 (allocTbl + tblSize)) granularity
  (u32 (heapBase + heapSize),
    { mem := setBytes mem allocTbl tblSize fun _ => 0
      allocTbl := List.replicate maxAllocs ⟨false, false, 0, 0⟩
      allocMin := granularity
      nextBase := heapBase
      spaceLeft := heapSize })

/-! ## The program that uses it -/

structure State where
  heap : Heap
  live : List Block

/-- One call, with the pointer it returns (0 for `free`). A `realloc` to size 0 gives the block
back; one that returns `NULL` for another size does not. -/
def step (s : State) : Op → Nat × State
  | .malloc size =>
    match simpleMalloc size s.heap with
    | (0, h) => (0, { s with heap := h })
    | (r + 1, h) => (r + 1, ⟨h, ⟨r + 1, size⟩ :: s.live⟩)
  | .realloc ptr size =>
    match simpleRealloc ptr size s.heap with
    | (0, h) =>
      (0, { heap := h, live := if size = 0 then s.live.filter (·.addr ≠ ptr) else s.live })
    | (r + 1, h) => (r + 1, ⟨h, ⟨r + 1, size⟩ :: s.live.filter (·.addr ≠ ptr)⟩)
  | .free ptr => (0, ⟨simpleFree ptr s.heap, s.live.filter (·.addr ≠ ptr)⟩)

/-- The calls a program may make: any size, and `realloc` and `free` of `NULL` or of a live
block. -/
def Allowed (s : State) : Op → Prop
  | .malloc size => size < 2 ^ 32
  | .realloc ptr size => size < 2 ^ 32 ∧ (ptr = 0 ∨ ∃ b ∈ s.live, b.addr = ptr)
  | .free ptr => ptr = 0 ∨ ∃ b ∈ s.live, b.addr = ptr

end LiloBoot.SimpleAlloc
