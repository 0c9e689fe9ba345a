/-
LiloBoot.Lib.Malloc — the heap of the second stage (`lib/malloc.c`).

One pointer moves up through a memory area, and every block is preceded by
its size as an `int`. The only block that can be given back or resized in
place is the last one. Pointers are 32-bit addresses with 0 for `NULL`, so
pointer arithmetic wraps; memory is a function on addresses. What the
program asked for and has not given back (`live`) is kept beside the heap:
the code has no such list.
-/
import LiloBoot.Basic

namespace LiloBoot.Malloc

/-! ## Memory -/

/-- Memory after `n` bytes `f 0`, `f 1`, … have been written from `addr` on. -/
def setBytes (mem : Bytes) (addr n : Nat) (f : Nat → UInt8) : Bytes :=
  fun a => if addr ≤ a ∧ a < addr + n then f (a - addr) else mem a

/-- `*(int *)addr = v` on the big-endian machine. -/
def storeInt (mem : Bytes) (addr v : Nat) : Bytes :=
  setBytes mem addr 4 fun i => UInt8.ofNat (v / 256 ^ (3 - i))

/-- `*(int *)addr`. -/
def loadInt (mem : Bytes) (addr : Nat) : Nat :=
  (mem addr).toNat * 256 ^ 3 + (mem (addr + 1)).toNat * 256 ^ 2 + (mem (addr + 2)).toNat * 256
    + (mem (addr + 3)).toNat

/-! ## The allocator -/

/-- `sizeof(int)`. -/
def sizeofInt : Nat := 4

/-- Memory and the static variables of the allocator. -/
structure Heap where
  mem : Bytes
  mallocPtr : Nat
  mallocTop : Nat
  lastAlloc : Nat

/-- `malloc_init`; `last_alloc` is still `NULL`, as all static variables are at the start. -/
def mallocInit (mem : Bytes) (bottom size : Nat) : Heap where
  mem := setBytes mem bottom size fun _ => 65
  mallocPtr := bottom
  mallocTop := u32 (bottom + size)
  lastAlloc := 0

/-- `malloc`. -/
def malloc (size : Nat) (h : Heap) : Nat × Heap :=
  if h.mallocPtr = 0 then (0, h)
  else if u32 (h.mallocPtr + size + sizeofInt) > h.mallocTop then (0, h)
  else
    let caddr := u32 (h.mallocPtr + sizeofInt)
    (caddr,
      { mem := setBytes (storeInt h.mem h.mallocPtr size) caddr size fun _ => 90
        -- the next block starts at a multiple of 4
        mallocPtr := u32 (u32 (h.mallocPtr + size + sizeofInt) + 3) / 4 * 4
        mallocTop := h.mallocTop
        lastAlloc := caddr })

/-- `realloc`. -/
def realloc (ptr size : Nat) (h : Heap) : Nat × Heap :=
  if h.mallocPtr = 0 then (0, h)
  else if ptr = h.lastAlloc then
    if u32 (ptr + size) > h.mallocTop then (0, h)
    else
      (ptr, { h with
        mem := storeInt h.mem (sub32 ptr sizeofInt) size
        mallocPtr := u32 (ptr + size) })
  else
    let (caddr, h) := malloc size h
    if caddr ≠ 0 ∧ ptr ≠ 0 then
      -- `memcpy` of as many bytes as the old block has
      (caddr, { h with
        mem := setBytes h.mem caddr (loadInt h.mem (sub32 ptr sizeofInt)) fun i =>
          h.mem (ptr + i) })
    else (caddr, h)

/-- `free`. -/
def free (m : Nat) (h : Heap) : Heap :=
  if h.mallocPtr = 0 then h
  else if m = h.lastAlloc then { h with mallocPtr := sub32 h.lastAlloc sizeofInt }
  else h

/-! ## The program that uses it -/

/-- A block the program has got and not given back; the header is in front of `addr`. -/
structure Block where
  addr : Nat
  size : Nat
  deriving DecidableEq

structure State where
  heap : Heap
  live : List Block

inductive Op where
  | malloc (size : Nat)
  | realloc (ptr size : Nat)
  | free (ptr : Nat)

/-- One call, with the pointer it returns (0 for `free`). -/
def step (s : State) : Op → Nat × State
  | .malloc size =>
    match malloc size s.heap with
    | (0, h) => (0, { s with heap := h })
    | (r + 1, h) => (r + 1, ⟨h, ⟨r + 1, size⟩ :: s.live⟩)
  | .realloc ptr size =>
    match realloc ptr size s.heap with
    | (0, h) => (0, { s with heap := h })
    | (r + 1, h) => (r + 1, ⟨h, ⟨r + 1, size⟩ :: s.live.filter (·.addr ≠ ptr)⟩)
  | .free ptr => (0, ⟨free ptr s.heap, s.live.filter (·.addr ≠ ptr)⟩)

/-- The calls a program may make: `realloc` and `free` of `NULL` or of a live block. -/
def Op.Allowed (s : State) : Op → Prop
  | .malloc size => size < 2 ^ 32
  | .realloc ptr size => size < 2 ^ 32 ∧ (ptr = 0 ∨ ∃ b ∈ s.live, b.addr = ptr)
  | .free ptr => ptr = 0 ∨ ∃ b ∈ s.live, b.addr = ptr

/-- The pointer a call is about. -/
def Op.target : Op → Nat
  | .malloc _ => 0
  | .realloc ptr _ => ptr
  | .free ptr => ptr

end LiloBoot.Malloc
