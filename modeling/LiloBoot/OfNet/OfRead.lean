/-
LiloBoot.OfNet.OfRead — reading a file from the firmware (`of_read` of
`second/fs_of.c`, `prom_read` of `second/prom.c`).

The firmware is a sequence of answers to its `read` method: the cell that it
returns, and what it stores in the area it is offered. Addresses count from the
buffer of the caller. Every `prom_read` and every call of the firmware is noted,
with what it was offered.
-/
import LiloBoot.Basic

namespace LiloBoot.OfNet

/-- One answer of the firmware: the cell it returns, -1 being 2^32 - 1, and the bytes it stores
in the offered area. -/
structure FwRead where
  result : Nat
  stores : Nat → Option UInt8

/-- A `prom_read`: what it is offered, its result as an `unsigned int`, and what stands in the
offered area behind it. -/
structure PromRead where
  p : Nat
  n : Nat
  result : Nat
  bytes : List UInt8
  deriving DecidableEq, Repr

/-- The memory from the buffer on, the number of firmware calls so far with the areas they were
offered, and the reads so far. -/
structure ReadLog where
  mem : Bytes
  calls : Nat
  offered : List (Nat × Nat)
  reads : List PromRead

/-- The call of the `read` method. -/
def fwCall (fw : Nat → FwRead) (p n : Nat) (s : ReadLog) : ReadLog :=
  { s with
    mem := fun a => if p ≤ a ∧ a < p + n then ((fw s.calls).stores (a - p)).getD (s.mem a)
      else s.mem a
    calls := s.calls + 1
    offered := s.offered ++ [(p, n)] }

/-- The loop of `prom_read`. -/
def promReadLoop (fw : Nat → FwRead) (p n : Nat) : Nat → ReadLog → Nat × ReadLog
  | 0, s => (0, s)
  | retries + 1, s =>
    let result := u32 (fw s.calls).result
    if result ≠ 0 then (result, fwCall fw p n s)
    else promReadLoop fw p n retries (fwCall fw p n s)

/-- `prom_read`; `while (--retries)` from 10 on makes nine turns. -/
def promRead (fw : Nat → FwRead) (p n : Nat) (s : ReadLog) : Nat × ReadLog :=
  let (result, s) := if n = 0 then (0, s) else promReadLoop fw p n 9 s
  (result, { s with
    reads := s.reads ++ [⟨p, n, result, (List.range n).map fun i => s.mem (p + i)⟩] })

/-- The `do` loop of `of_read`, with `count`. `none` when the fuel is used up. -/
def ofReadLoop (fw : Nat → FwRead) : Nat → Nat → Nat → Nat → Nat → ReadLog → Option (Nat × ReadLog)
  | 0, _, _, _, _, _ => none
  | fuel + 1, i, size, p, count, s =>
    let (sizeRead, s) := promRead fw p size s
    if sizeRead = 0 then
      if i > 5 then some (count, s)
      else if size > 0 then ofReadLoop fw fuel (i + 1) size p count s
      else some (count, s)
    else if sizeRead > 0 ∧ sizeRead ≤ size then
      let size := size - sizeRead
      if size > 0 then ofReadLoop fw fuel 0 size (p + sizeRead) (u32 (count + sizeRead)) s
      else some (u32 (count + sizeRead), s)
    else
      if i > 5 then some (count, s)
      else if size > 0 then ofReadLoop fw fuel (i + 1) size p count s
      else some (count, s)

/-- `of_read`: the result, `file->pos`, and the log. -/
def ofRead (fw : Nat → FwRead) (size pos : Nat) (mem : Bytes) (fuel : Nat) :
    Option (Int × Nat × ReadLog) :=
  (ofReadLoop fw fuel 5 size 0 0 ⟨mem, 0, [], []⟩).map fun (count, s) =>
    (s32 count, u64 (pos + count), s)

end LiloBoot.OfNet
