/-
LiloBoot.Ext2.Read — reading an ext2 file (`second/fs_ext2.c`).

`ext2_read` hands `read_iterator` to `ext2fs_block_iterate`, which calls it
for every allocated block of the file in order, until a call returns
`BLOCK_ABORT`. The iterator does not read a block when it sees it: it
collects contiguous blocks in a range and reads the range when the next
block does not continue it. The file-scope variables of the reader are the
fields of `ReadState`, under the source's names; `stored` is how far
`read_buffer` has moved.

The second half of the file is the reader it is compared with: one logical
block at a time.
-/
import LiloBoot.Basic

namespace LiloBoot.Ext2

/-! ## The reader's surroundings -/

/-- `BLOCK_ABORT` of `ext2fs.h`. -/
def blockAbort : Int := 2

/-- `FILE_IOERR` of `errors.h`. -/
def fileIoerr : Int := -4

/-- `MAX_READ_RANGE`. -/
def maxReadRange : Nat := 256

/-- What stays fixed while a file is read: `opened`, `bs`, the result of
`io_channel_read_blk` for a first block and a count (0 when the read succeeds), and what
`ext2fs_block_iterate` returns when its iterator aborts. -/
structure Filsys where
  opened : Bool
  bs : Nat
  readBlk : Nat → Nat → Int
  iterateAborted : Int

/-- The static variables of the reader, with `read_cur_file->pos`. -/
structure ReadState where
  readRangeStart : Nat
  readRangeCount : Nat
  readLastLogical : Nat
  readTotal : Nat
  readMax : Nat
  readResult : Int
  pos : Nat
  stored : Nat
  buf : Buffer

/-- The bookkeeping after `n` bytes have been put at `read_buffer`. -/
def ReadState.deliver (s : ReadState) (n : Nat) (bytes : Nat → UInt8) : ReadState :=
  { s with
    buf := s.buf.store s.stored n bytes
    stored := s.stored + n
    readMax := sub32 s.readMax n
    readTotal := u32 (s.readTotal + n)
    pos := u64 (s.pos + n) }

/-! ## `read_dump_range` -/

/-- The whole blocks of the range. The product is an `int` in the source too: a range has at
most 256 blocks. -/
def dumpBlocks (fs : Filsys) (disk : Bytes) (count : Nat) (s : ReadState) : ReadState × Bool :=
  if count = 0 then (s, false)
  else if fs.readBlk s.readRangeStart count ≠ 0 then
    ({ s with readResult := fs.readBlk s.readRangeStart count }, true)
  else
    ({ s.deliver (u32 (count * fs.bs)) (fun i => disk (s.readRangeStart * fs.bs + i)) with
        readResult := 0
        readRangeCount := sub32 s.readRangeCount count
        readRangeStart := u32 (s.readRangeStart + count)
        readLastLogical := u32 (s.readLastLogical + count) }, false)

/-- The remaining block, through `block_buffer`; `read_buffer` stays where it is. -/
def dumpRemaining (fs : Filsys) (disk : Bytes) (s : ReadState) : ReadState × Bool :=
  if s.readMax = 0 ∨ s.readRangeCount = 0 then (s, false)
  else if fs.readBlk s.readRangeStart 1 ≠ 0 then
    ({ s with readResult := fs.readBlk s.readRangeStart 1 }, true)
  else
    ({ s.deliver s.readMax (fun i => disk (s.readRangeStart * fs.bs + i)) with
        readResult := 0
        stored := s.stored }, false)

/-- `read_dump_range`; the flag is `BLOCK_ABORT`. -/
def readDumpRange (fs : Filsys) (disk : Bytes) (s : ReadState) : ReadState × Bool :=
  let count :=
    if u32 (s.readRangeCount * fs.bs) > s.readMax then s.readRangeCount - 1
    else s.readRangeCount
  match dumpBlocks fs disk count s with
  | (s, true) => (s, true)
  | (s, false) =>
    match dumpRemaining fs disk s with
    | (s, true) => (s, true)
    | (s, false) =>
      ({ s with readRangeCount := 0, readRangeStart := 0 }, decide (s.readMax = 0))

/-! ## `read_iterator` -/

/-- In a hole, the rest of the block the file position lies in. -/
def holePartial (fs : Filsys) (s : ReadState) : ReadState × Bool :=
  if s.pos % fs.bs = 0 then (s, false)
  else
    let size := min (fs.bs - s.pos % fs.bs) s.readMax
    let s := { s.deliver size (fun _ => 0) with
                readLastLogical := u32 (s.readLastLogical + 1) }
    (s, decide (s.readMax = 0))

/-- In a hole, the blocks up to `lgBlock`. -/
def holeBlocks (fs : Filsys) (lgBlock : Nat) (s : ReadState) : ReadState × Bool :=
  let nzero := u32 (sub32 lgBlock s.readLastLogical * fs.bs)
  if nzero = 0 then ({ s with readLastLogical := lgBlock }, false)
  else
    let t := s.deliver (min nzero s.readMax) (fun _ => 0)
    if t.readMax = 0 then (t, true) else ({ t with readLastLogical := lgBlock }, false)

/-- The holes in the file. -/
def readHole (fs : Filsys) (lgBlock : Nat) (s : ReadState) : ReadState × Bool :=
  if lgBlock = 0 ∨ lgBlock = s.readLastLogical then (s, false)
  else
    match holePartial fs s with
    | (s, true) => (s, true)
    | (s, false) => holeBlocks fs lgBlock s

/-- The block itself: read at once if the position is not aligned, else the first block of a
new range. -/
def readBlock (fs : Filsys) (disk : Bytes) (blocknr lgBlock : Nat) (s : ReadState) :
    ReadState × Bool :=
  if s.pos % fs.bs ≠ 0 then
    if fs.readBlk blocknr 1 ≠ 0 then ({ s with readResult := fs.readBlk blocknr 1 }, true)
    else
      let offset := s.pos % fs.bs
      let size := min (fs.bs - offset) s.readMax
      let s := { s.deliver size (fun i => disk (blocknr * fs.bs + offset + i)) with
                  readResult := 0
                  readLastLogical := u32 (lgBlock + 1) }
      (s, decide (s.readMax = 0))
  else if blocknr ≠ 0 then
    ({ s with readRangeStart := blocknr, readRangeCount := 1 }, decide (s.readMax ≤ fs.bs))
  else (s, false)

/-- What the iterator does with a block that does not extend the range. -/
def readOther (fs : Filsys) (disk : Bytes) (blocknr lgBlock : Nat) (s : ReadState) :
    ReadState × Bool :=
  match (if s.readRangeStart ≠ 0 then readDumpRange fs disk s else (s, false)) with
  | (s, true) => (s, true)
  | (s, false) =>
    match readHole fs lgBlock s with
    | (s, true) => (s, true)
    | (s, false) => readBlock fs disk blocknr lgBlock s

/-- `read_iterator`; the flag is `BLOCK_ABORT`. -/
def readIterator (fs : Filsys) (disk : Bytes) (blocknr : Nat) (lg : Int) (s : ReadState) :
    ReadState × Bool :=
  if lg < 0 then (s, false)
  else
    let lgBlock := lg.toNat
    if lgBlock < s.pos / fs.bs then (s, false)
    else if s.readRangeStart ≠ 0 ∧ s.readRangeCount < maxReadRange
        ∧ blocknr = u32 (s.readRangeStart + s.readRangeCount)
        ∧ lgBlock = u32 (s.readLastLogical + s.readRangeCount) then
      ({ s with readRangeCount := s.readRangeCount + 1 },
        decide (s.readMax ≤ u32 ((s.readRangeCount + 1) * fs.bs)))
    else readOther fs disk blocknr lgBlock s

/-! ## `ext2_read` -/

/-- `ext2fs_block_iterate` over the pairs (physical, logical) it reports. -/
def ext2fsBlockIterate {σ : Type} (func : Nat → Int → σ → σ × Bool) :
    List (Nat × Int) → σ → σ × Bool
  | [], s => (s, false)
  | (blocknr, lg) :: rest, s =>
    match func blocknr lg s with
    | (s, true) => (s, true)
    | (s, false) => ext2fsBlockIterate func rest s

/-- The state in which `ext2_read` starts the iteration. -/
def readStart (fs : Filsys) (pos size : Nat) : ReadState where
  readRangeStart := 0
  readRangeCount := 0
  readLastLogical := u32 (pos / fs.bs)
  readTotal := 0
  readMax := size
  readResult := 0
  pos := pos
  stored := 0
  buf := fun _ => none

/-- The end of `ext2_read`: an open range is read unless an error came up. -/
def readFinish (fs : Filsys) (disk : Bytes) (s : ReadState) (aborted : Bool) : ReadState :=
  let retval := if aborted then fs.iterateAborted else 0
  let retval := if retval = blockAbort then s.readResult else retval
  if retval = 0 ∧ s.readRangeStart ≠ 0 then (readDumpRange fs disk s).1 else s

/-- `ext2_read` at file position `pos`: the returned `int`, the new position, the buffer. -/
def ext2Read (fs : Filsys) (disk : Bytes) (blocks : List (Nat × Int)) (pos size : Nat) :
    Int × Nat × Buffer :=
  if fs.opened then
    let r := ext2fsBlockIterate (readIterator fs disk) blocks (readStart fs pos size)
    let s := readFinish fs disk r.1 r.2
    (s32 s.readTotal, s.pos, s.buf)
  else (fileIoerr, pos, fun _ => none)

/-! ## The naive reader -/

/-- The data blocks among the reported pairs. -/
def dataBlocks (blocks : List (Nat × Int)) : List (Nat × Nat) :=
  blocks.filterMap fun b => if b.2 < 0 then none else some (b.1, b.2.toNat)

/-- The physical block of a logical one; `none` if it is not allocated. -/
def physical (blocks : List (Nat × Nat)) (lg : Nat) : Option Nat :=
  (blocks.find? fun b => b.2 == lg).map Prod.fst

/-- Byte `i` of a logical block. -/
def blockByte (bs : Nat) (disk : Bytes) (blocks : List (Nat × Nat)) (lg i : Nat) : UInt8 :=
  match physical blocks lg with
  | some blocknr => disk (blocknr * bs + i)
  | none => 0

/-- The number of logical blocks up to the last allocated one. -/
def blockCount (blocks : List (Nat × Nat)) : Nat :=
  match blocks.getLast? with
  | some (_, lg) => lg + 1
  | none => 0

structure NaiveState where
  pos : Nat
  rest : Nat
  total : Nat
  buf : Buffer

/-- Take what is wanted of the logical block `lg`. -/
def naiveStep (bs : Nat) (disk : Bytes) (blocks : List (Nat × Nat)) (lg : Nat)
    (s : NaiveState) : NaiveState :=
  let offset := s.pos % bs
  let size := min (bs - offset) s.rest
  { pos := s.pos + size
    rest := s.rest - size
    total := s.total + size
    buf := s.buf.store s.total size fun i => blockByte bs disk blocks lg (offset + i) }

/-- Walk `n` logical blocks from `lg` on, as long as bytes are wanted. -/
def naiveLoop (bs : Nat) (disk : Bytes) (blocks : List (Nat × Nat)) :
    Nat → Nat → NaiveState → NaiveState
  | 0, _, s => s
  | n + 1, lg, s =>
    if s.rest = 0 then s
    else naiveLoop bs disk blocks n (lg + 1) (naiveStep bs disk blocks lg s)

/-- The reader without ranges. -/
def naiveRead (bs : Nat) (disk : Bytes) (blocks : List (Nat × Nat)) (pos size : Nat) :
    Int × Nat × Buffer :=
  let s := naiveLoop bs disk blocks (blockCount blocks - pos / bs) (pos / bs)
    ⟨pos, size, 0, fun _ => none⟩
  (s32 s.total, s.pos, s.buf)

end LiloBoot.Ext2
