/-
LiloBoot.Partition.Lookup — the partition tables (`second/partition.c`).

`partitions_lookup` reads the first two blocks of the disk, decides on one of
five formats and returns the list of `add_new_partition` calls that got
memory, the last one first. `block_buffer` and the local `buffer` of
`msdos_parse_extended` are memories that a read overwrites as far as it
delivers; what lies behind them is whatever it is. A chain of extended
records can go on for ever, so the two chain walks have fuel.
-/
import LiloBoot.Basic

namespace LiloBoot.Partition

/-! ## Fields -/

/-- The big-endian number of `n` bytes at `pos`. -/
def be (b : Bytes) (pos : Nat) : Nat → Nat
  | 0 => 0
  | n + 1 => be b pos n * 256 + (b (pos + n)).toNat

/-- The little-endian number of `n` bytes at `pos`. -/
def le (b : Bytes) (pos : Nat) : Nat → Nat
  | 0 => 0
  | n + 1 => (b (pos + n)).toNat * 256 ^ n + le b pos n

/-- `amiga_block[i]`. -/
def amigaBlock (b : Bytes) (i : Nat) : Nat := be b (4 * i) 4

/-! ## The disk -/

/-- An open disk: `prom_getblksize`, whether a seek gives 1, and what a read of a number of
bytes at a position answers and stores. -/
structure Disk where
  blksize : Nat
  seek : Nat → Bool
  read : Nat → Nat → Int × Buffer

/-- A block size of 0 or 1 stands for 512. -/
def Disk.promBlksize (disk : Disk) : Nat := if disk.blksize ≤ 1 then 512 else disk.blksize

/-- `prom_readblocks(disk, blockNum, blockCount, buf) == 1`, and the buffer afterwards. The
block number is an `int`. -/
def promReadblocks (disk : Disk) (blockNum blockCount : Nat) (buf : Bytes) : Bool × Bytes :=
  let pos := (s32 blockNum * disk.promBlksize % 2 ^ 64).toNat
  if !disk.seek pos then (false, buf)
  else
    let size := u32 (blockCount * disk.promBlksize)
    let answer := disk.read pos size
    (answer.1 == size, fun i => if i < size then (answer.2 i).getD (buf i) else buf i)

/-! ## The list -/

inductive DiskLabel where
  | mac
  | msdos
  | amiga
  | iso9660
  | gpt
  deriving DecidableEq, Repr

/-- `struct partition_t`. -/
structure PartitionT where
  partNumber : Nat
  partStart : Nat
  partSize : Nat
  label : DiskLabel
  blocksize : Nat
  sysInd : Nat
  deriving DecidableEq, Repr

/-- What a lookup meets besides the disk: the results of `malloc` for the entry a primary slot
(0 outside MSDOS) adds under a number, and for `used`; the memory at `used`; the uninitialised
`buffer` for each extended slot; and whether a Mac disk has been looked up before. -/
structure Env where
  malloc : Nat → Nat → Bool
  mallocUsed : Bool
  heap : Int → Nat
  stack : Nat → Bytes
  macWriteOnce : Bool

/-- `add_new_partition`. -/
def addNewPartition (part : Bool) (p : PartitionT) (list : List PartitionT) : List PartitionT :=
  if part then p :: list else list

/-! ## Mac -/

/-- `MAC_DRIVER_MAGIC`. -/
def macMagicPresent (buf : Bytes) : Bool := be buf 0 2 == 0x4552

/-- `MAC_PARTITION_MAGIC`. -/
def macPartitionMagic : Nat := 0x504d

/-- The `lilo -R` command line behind the driver list is taken off block 0 once. -/
def clearLiloOnce (buf : Bytes) : Bytes :=
  let liloOnceString := 18 + be buf 16 2 * 8
  if liloOnceString < 512 ∧ 0x20 ≤ buf liloOnceString ∧ buf liloOnceString ≤ 0x7e then
    fun i => if liloOnceString ≤ i ∧ i < 512 then 0 else buf i
  else buf

/-- The entry of `block`. -/
def macPartition (blocksize block : Nat) (buf : Bytes) : PartitionT where
  partNumber := block
  partStart := u32 (be buf 8 4 + be buf 80 4)
  partSize := be buf 84 4
  label := .mac
  blocksize := blocksize
  sysInd := 0

/-- The loop of `partition_mac_lookup`: `left` blocks of the map from `block` on. Block 1 says
how many there are. -/
def macLoop (env : Env) (disk : Disk) (blocksize : Nat) :
    Nat → Nat → Bytes → List PartitionT → List PartitionT
  | 0, _, _, list => list
  | left + 1, block, buf, list =>
    let (ok, buf) := promReadblocks disk block 1 buf
    if !ok then list
    else if be buf 0 2 ≠ macPartitionMagic then list
    else
      macLoop env disk blocksize left (block + 1) buf
        (addNewPartition (env.malloc 0 block) (macPartition blocksize block buf) list)

def partitionMacLookup (env : Env) (disk : Disk) (buf : Bytes) : List PartitionT :=
  let ptableBlockSize := be buf 2 2
  let buf := if env.macWriteOnce then buf else clearLiloOnce buf
  let (ok, buf) := promReadblocks disk 1 1 buf
  if !ok then []
  else if be buf 0 2 ≠ macPartitionMagic then []
  else
    let mapSize := s32 (be buf 4 4)
    macLoop env disk ptableBlockSize (mapSize - 1).toNat 2 buf
      (addNewPartition (env.malloc 0 1) (macPartition ptableBlockSize 1 buf) [])

/-! ## MSDOS -/

def msdosMagicPresent (buf : Bytes) : Bool := buf 510 == 0x55 && buf 511 == 0xaa

/-- `MSDOS_FAT16`. -/
def msdosIsFatPartition (sysInd : Nat) : Bool := sysInd == 0x06

/-- `LINUX_NATIVE`, `LINUX_RAID`. -/
def msdosIsLinuxPartition (sysInd : Nat) : Bool := sysInd == 0x83 || sysInd == 0xfd

/-- `EXTENDED`, `WIN98_EXTENDED`, `LINUX_EXTENDED`. -/
def msdosIsExtendedPartition (sysInd : Nat) : Bool :=
  sysInd == 0x05 || sysInd == 0x0f || sysInd == 0x85

/-- `struct msdos_partition`, as far as it is read. -/
structure MsdosPartition where
  sysInd : Nat
  start : Nat
  size : Nat
  deriving DecidableEq, Repr

/-- The `i`-th entry of the table in a boot record. -/
def msdosPartition (buf : Bytes) (i : Nat) : MsdosPartition where
  sysInd := (buf (0x1be + 16 * i + 4)).toNat
  start := le buf (0x1be + 16 * i + 8) 4
  size := le buf (0x1be + 16 * i + 12) 4

/-- Whether the first loop of `msdos_parse_extended` gets past its `continue`s. -/
def isLogical (partitionStart partitionSize i : Nat) (part : MsdosPartition) : Bool :=
  let next := u32 (partitionStart + part.start)
  if part.size = 0 ∨ msdosIsExtendedPartition part.sysInd then false
  else if 2 ≤ i then
    !(partitionSize < u32 (part.start + part.size)) && !(next < partitionStart)
      && !(u32 (partitionStart + partitionSize) < u32 (next + part.size))
  else true

/-- An entry of an extended record: the number of the next partition, and the list. -/
def extendedEntry (env : Env) (slot blksize partitionStart partitionSize : Nat) (buf : Bytes)
    (s : Nat × List PartitionT) (i : Nat) : Nat × List PartitionT :=
  let part := msdosPartition buf i
  if !isLogical partitionStart partitionSize i part then s
  else
    let list :=
      if msdosIsLinuxPartition part.sysInd then
        addNewPartition (env.malloc slot s.1)
          ⟨s.1, u32 (partitionStart + part.start), part.size, .msdos, blksize, part.sysInd⟩ s.2
      else s.2
    (s.1 + 1, list)

/-- The entry that links to the next extended record. -/
def extendedLink (buf : Bytes) : Option MsdosPartition :=
  ((List.range 4).map (msdosPartition buf)).find? fun part =>
    part.size ≠ 0 && msdosIsExtendedPartition part.sysInd

/-- The body of the `while` loop of `msdos_parse_extended`: the number of the next partition and
the list, and where the loop goes on from, if it does: the linking entry and the buffer. -/
def extendedRecord (env : Env) (disk : Disk) (slot start size blksize partitionStart
    partitionSize : Nat) (buf : Bytes) (s : Nat × List PartitionT) :
    (Nat × List PartitionT) × Option (MsdosPartition × Bytes) :=
  if u32 (start + size) ≤ partitionStart then (s, none)
  else
    let (ok, buf) := promReadblocks disk partitionStart 1 buf
    if !ok then (s, none)
    else if !msdosMagicPresent buf then (s, none)
    else
      ((List.range 4).foldl (extendedEntry env slot blksize partitionStart partitionSize buf) s,
        (extendedLink buf).map fun part => (part, buf))

/-- The `while` loop; `none` when the fuel is used up. -/
def msdosExtendedLoop (env : Env) (disk : Disk) (slot start size blksize : Nat) :
    Nat → Nat → Nat → Bytes → Nat × List PartitionT → Option (List PartitionT)
  | 0, _, _, _, _ => none
  | fuel + 1, partitionStart, partitionSize, buf, s =>
    match extendedRecord env disk slot start size blksize partitionStart partitionSize buf s with
    | (s, none) => some s.2
    | (s, some (part, buf)) =>
      msdosExtendedLoop env disk slot start size blksize fuel (u32 (start + part.start))
        part.size buf s

def msdosParseExtended (env : Env) (disk : Disk) (fuel slot start size blksize : Nat)
    (list : List PartitionT) : Option (List PartitionT) :=
  msdosExtendedLoop env disk slot start size blksize fuel start size (env.stack slot) (5, list)

/-- A primary slot, 1 to 4. -/
def msdosSlot (env : Env) (disk : Disk) (fuel blksize : Nat) (buf : Bytes)
    (list : List PartitionT) (partition : Nat) : Option (List PartitionT) :=
  let part := msdosPartition buf (partition - 1)
  if msdosIsLinuxPartition part.sysInd || msdosIsFatPartition part.sysInd then
    some (addNewPartition (env.malloc partition partition)
      ⟨partition, part.start, part.size, .msdos, blksize, part.sysInd⟩ list)
  else if msdosIsExtendedPartition part.sysInd then
    msdosParseExtended env disk fuel partition part.start part.size blksize list
  else some list

def partitionMsdosLookup (env : Env) (disk : Disk) (fuel blksize : Nat) (buf : Bytes) :
    Option (List PartitionT) :=
  [1, 2, 3, 4].foldlM (msdosSlot env disk fuel blksize buf) []

/-! ## GPT -/

/-- `GPT_HEADER_SIGNATURE`. -/
def gptMagicPresent (buf : Bytes) (blksize : Nat) : Bool :=
  le buf blksize 8 == 0x5452415020494645

/-- `GPT_BASIC_DATA`, `GPT_LINUX_NATIVE` and `GPT_LINUX_RAID`, as they stand on the disk. -/
def gptTypes : List (List UInt8) :=
  [[0xa2, 0xa0, 0xd0, 0xeb, 0xe5, 0xb9, 0x33, 0x44,
    0x87, 0xc0, 0x68, 0xb6, 0xb7, 0x26, 0x99, 0xc7],
   [0xaf, 0x3d, 0xc6, 0x0f, 0x83, 0x84, 0x72, 0x47,
    0x8e, 0x79, 0x3d, 0x69, 0xd8, 0x47, 0x7d, 0xe4],
   [0x0f, 0x88, 0x9d, 0xa1, 0xfc, 0x05, 0x3b, 0x4d,
    0xa0, 0x06, 0x74, 0x3f, 0x0f, 0x84, 0x91, 0x1e]]

/-- The entry at `part`, `sizeof(struct gpt_partition)` bytes behind the one before. -/
def gptEntry (env : Env) (blksize : Nat) (buf : Bytes) (list : List PartitionT) (partition : Nat) :
    List PartitionT :=
  let part := 128 * (partition - 1)
  if (List.range 16).map (fun i => buf (part + i)) ∈ gptTypes then
    addNewPartition (env.malloc 0 partition)
      ⟨partition, le buf (part + 32) 8,
        u64 (sub64 (le buf (part + 40) 8) (le buf (part + 32) 8) + 1), .gpt, blksize, 1⟩ list
  else list

def partitionGptLookup (env : Env) (disk : Disk) (blksize : Nat) (buf : Bytes) :
    List PartitionT :=
  let (ok, buf) := promReadblocks disk (u32 (le buf (blksize + 72) 8)) 1 buf
  if !ok then []
  else (List.range' 1 (le buf (blksize + 80) 4)).foldl (gptEntry env blksize buf) []

/-! ## ISO 9660 -/

/-- `ISO_STANDARD_ID`. -/
def isoStandardId : List UInt8 := [0x43, 0x44, 0x30, 0x30, 0x31]

/-- The loop of `identify_iso_fs`: the root block if one is found, and the buffer. -/
def isoLoop (disk : Disk) : Nat → Nat → Bytes → Option Nat × Bytes
  | 0, _, buf => (none, buf)
  | left + 1, block, buf =>
    let (ok, buf) := promReadblocks disk block 1 buf
    if !ok then (none, buf)
    else if (List.range 5).map (fun i => buf (1 + i)) = isoStandardId then (some block, buf)
    else isoLoop disk left (block + 1) buf

def identifyIsoFs (disk : Disk) (buf : Bytes) : Option Nat × Bytes :=
  isoLoop disk (100 - 16) 16 buf

/-! ## Amiga -/

def amigaChecksum (buf : Bytes) (blkSize : Nat) : Nat :=
  let words := min (amigaBlock buf 1) blkSize
  (List.range' 1 (words - 1)).foldl (fun sum i => u32 (sum + amigaBlock buf i)) (amigaBlock buf 0)

/-- The loop of `_amiga_find_rdb`, from block `i` on; at the end block 0 is read again. -/
def amigaFindRdbLoop (disk : Disk) (blksize : Nat) : Nat → Nat → Bytes → Bool × Bytes
  | 0, _, buf => (false, (promReadblocks disk 0 1 buf).2)
  | left + 1, i, buf =>
    let (ok, buf) := if i ≠ 0 then promReadblocks disk i 1 buf else (true, buf)
    if !ok then (false, (promReadblocks disk 0 1 buf).2)
    else if amigaBlock buf 0 = 0x5244534B ∧ amigaChecksum buf blksize = 0 then (true, buf)
    else amigaFindRdbLoop disk blksize left (i + 1) buf

def amigaFindRdb (disk : Disk) (blksize : Nat) (buf : Bytes) : Bool × Bytes :=
  amigaFindRdbLoop disk blksize 16 0 buf

/-- `0x1 << (part % 32)`; a negative shift count gives 0, as the shift instruction has it. -/
def usedBit (part : Nat) : Nat :=
  let shift := (s32 part).tmod 32
  if shift < 0 then 0 else 1 <<< shift.toNat

/-- The loop of `partition_amiga_lookup`; `none` when the fuel is used up. -/
def amigaLoop (env : Env) (disk : Disk) (blksize blockspercyl : Nat) :
    Nat → Nat → Nat → (Int → Nat) → Bytes → List PartitionT → Option (List PartitionT)
  | 0, _, _, _, _, _ => none
  | fuel + 1, part, partition, used, buf, list =>
    if part = 0xffffffff then some list
    else
      let (ok, buf) := promReadblocks disk part 1 buf
      if !ok then some list
      else
        let word := (s32 part).tdiv 32
        if amigaBlock buf 0 = 0x50415254 ∧ amigaChecksum buf blksize = 0
            ∧ used word &&& usedBit part = 0 then
          let low := amigaBlock buf 41
          let high := amigaBlock buf 42
          amigaLoop env disk blksize blockspercyl fuel (amigaBlock buf 4) (partition + 1)
            (fun w => if w = word then used w ||| usedBit part else used w) buf
            (addNewPartition (env.malloc 0 partition)
              ⟨partition, u32 (blockspercyl * low),
                u32 (blockspercyl * u32 (sub32 high low + 1)), .amiga, blksize, 0⟩ list)
        else some list

def partitionAmigaLookup (env : Env) (disk : Disk) (fuel blksize : Nat) (buf : Bytes) :
    Option (List PartitionT) :=
  let blockspercyl := u32 (amigaBlock buf 17 * amigaBlock buf 18)
  let possible := amigaBlock buf 33 / 32 + 1
  if !env.mallocUsed then some []
  else
    amigaLoop env disk blksize blockspercyl fuel (amigaBlock buf 7) 1
      (fun w => if 0 ≤ w ∧ w < possible then 0 else env.heap w) buf []

/-! ## The lookup -/

/-- `MAX_BLOCK_SIZE`. -/
def maxBlockSize : Nat := 4096

/-- `partitions_lookup`, with the result of the open and what is in `block_buffer` then. -/
def partitionsLookup (env : Env) (disk : Option Disk) (fuel : Nat) (buf : Bytes) :
    Option (List PartitionT) :=
  match disk with
  | none => some []
  | some disk =>
    let blksize := disk.promBlksize
    if maxBlockSize < blksize then some []
    else
      let (ok, buf) := promReadblocks disk 0 2 buf
      if !ok then some []
      else if macMagicPresent buf then some (partitionMacLookup env disk buf)
      else if gptMagicPresent buf blksize then some (partitionGptLookup env disk blksize buf)
      else if msdosMagicPresent buf then partitionMsdosLookup env disk fuel blksize buf
      else
        let iso := if blksize = 2048 then identifyIsoFs disk buf else (none, buf)
        match iso.1 with
        | some root => some (addNewPartition (env.malloc 0 0) ⟨0, root, 0, .iso9660, blksize, 0⟩ [])
        -- the result of the search is -1 for nothing, so every disk that gets here is an Amiga disk
        | none => partitionAmigaLookup env disk fuel blksize (amigaFindRdb disk blksize iso.2).2

end LiloBoot.Partition
