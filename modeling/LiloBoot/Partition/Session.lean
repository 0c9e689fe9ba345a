/-
LiloBoot.Partition.Session — `partitions_lookup` at the firmware (`second/partition.c`,
`second/prom.c`).

In `Lookup` a disk answers a read by its position alone. Here it has contents and stands
somewhere, every call of the firmware gets an answer of its own, and what the loader keeps from
one lookup to the next is a state: the latch `mac_write_once`, `lilo_once_cmdline`, and the
writes so far. The walks are those of `Lookup`; only the Mac one writes.
-/
import LiloBoot.Partition.Lookup

namespace LiloBoot.Partition.Session

/-! ## The firmware -/

/-- The answer to a "seek": its status, and where the disk stands if it did not go there. -/
structure SeekAnswer where
  status : Int
  lost : Nat

/-- The answer to a "read": its status, and how many bytes came if that is no count. -/
structure ReadAnswer where
  status : Int
  came : Nat

/-- What the firmware answers to the calls of a run, which are numbered: to a seek to a position;
to a read of a number of bytes at a position, with so many tries left; to a write, with the number
of bytes that get to the disk (its status is only printed). -/
structure Answers where
  seek : Nat → Nat → SeekAnswer
  read : Nat → Nat → Nat → Nat → ReadAnswer
  write : Nat → Nat

/-- A call of `prom_write`. -/
structure Write where
  disk : Nat
  position : Nat
  bytes : List UInt8
  deriving DecidableEq, Repr

/-- The loader and its disks between two calls. The position is that of the open disk. -/
structure Machine where
  calls : Nat
  position : Nat
  disks : Nat → Bytes
  macWriteOnce : Nat
  liloOnceCmdline : Bytes
  writes : List Write

/-- What a device name was opened as, and its `prom_getblksize`. -/
structure Device where
  disk : Nat
  blksize : Nat

/-- A block size of 0 or 1 stands for 512. -/
def Device.promBlksize (dev : Device) : Nat := if dev.blksize ≤ 1 then 512 else dev.blksize

def promSeek (answers : Answers) (pos : Nat) (m : Machine) : Bool × Machine :=
  let answer := answers.seek m.calls pos
  let done := answer.status == 0 || answer.status == 1
  (done, { m with calls := m.calls + 1, position := if done then pos else answer.lost })

/-- The loop of `prom_read`: another try as long as the answer is 0. -/
def promReadLoop (answers : Answers) (disk n : Nat) :
    Nat → Bytes → Machine → Int × Bytes × Machine
  | 0, buf, m => (0, buf, { m with calls := m.calls + 1 })
  | retries + 1, buf, m =>
    let answer := answers.read m.calls retries m.position n
    if answer.status = 0 then promReadLoop answers disk n retries buf m
    else
      let stored := min n (if 0 ≤ answer.status then answer.status.toNat else answer.came)
      (answer.status, fun i => if i < stored then m.disks disk (m.position + i) else buf i,
        { m with calls := m.calls + 1, position := m.position + stored })

def promRead (answers : Answers) (disk n : Nat) (buf : Bytes) (m : Machine) :
    Int × Bytes × Machine :=
  if n = 0 then (0, buf, m) else promReadLoop answers disk n 9 buf m

def promWrite (answers : Answers) (disk : Nat) (buf : Bytes) (n : Nat) (m : Machine) : Machine :=
  let taken := min n (answers.write m.calls)
  { m with
    calls := m.calls + 1
    position := m.position + taken
    disks := fun d p =>
      if d = disk ∧ m.position ≤ p ∧ p < m.position + taken then buf (p - m.position)
      else m.disks d p
    writes := m.writes ++ [⟨disk, m.position, (List.range n).map buf⟩] }

/-- `prom_readblocks(dev, blockNum, blockCount, buf) == 1`, and the buffer afterwards. -/
def promReadblocks (answers : Answers) (dev : Device) (blockNum blockCount : Nat) (buf : Bytes)
    (m : Machine) : Bool × Bytes × Machine :=
  let (done, m) := promSeek answers (s32 blockNum * dev.promBlksize % 2 ^ 64).toNat m
  if !done then (false, buf, m)
  else
    let size := u32 (blockCount * dev.promBlksize)
    let (status, buf, m) := promRead answers dev.disk size buf m
    (status == size, buf, m)

/-! ## Mac -/

/-- Where the line of `lilo -R` is in block 0. -/
def liloOnceString (buf : Bytes) : Nat := 18 + be buf 16 2 * 8

/-- Whether there is a line. -/
def onceLine (buf : Bytes) : Bool :=
  liloOnceString buf < 512 && 0x20 ≤ buf (liloOnceString buf) && buf (liloOnceString buf) ≤ 0x7e

/-- The line is taken off block 0: `memcpy`, `memset`, `prom_seek`, `prom_write`. -/
def cleanLine (answers : Answers) (dev : Device) (buf : Bytes) (m : Machine) : Bytes × Machine :=
  let line := liloOnceString buf
  let m := { m with
    liloOnceCmdline := fun i => if i < 512 - line then buf (line + i) else m.liloOnceCmdline i }
  let buf := fun i => if line ≤ i ∧ i < 512 then 0 else buf i
  let m := (promSeek answers 0 m).2
  (buf, promWrite answers dev.disk buf 512 m)

/-- `if (!mac_write_once++)`. -/
def macOnce (answers : Answers) (dev : Device) (buf : Bytes) (m : Machine) : Bytes × Machine :=
  let once := m.macWriteOnce
  let m := { m with macWriteOnce := u32 (once + 1) }
  if once = 0 ∧ onceLine buf = true then cleanLine answers dev buf m else (buf, m)

/-- The loop of `partition_mac_lookup` from `block` on. -/
def macLoop (answers : Answers) (env : Env) (dev : Device) (blocksize : Nat) :
    Nat → Nat → Bytes → List PartitionT → Machine → List PartitionT × Machine
  | 0, _, _, list, m => (list, m)
  | left + 1, block, buf, list, m =>
    let (ok, buf, m) := promReadblocks answers dev block 1 buf m
    if !ok then (list, m)
    else if be buf 0 2 ≠ macPartitionMagic then (list, m)
    else
      macLoop answers env dev blocksize left (block + 1) buf
        (addNewPartition (env.malloc 0 block) (macPartition blocksize block buf) list) m

def partitionMacLookup (answers : Answers) (env : Env) (dev : Device) (buf : Bytes)
    (m : Machine) : List PartitionT × Machine :=
  let ptableBlockSize := be buf 2 2
  let (buf, m) := macOnce answers dev buf m
  let (ok, buf, m) := promReadblocks answers dev 1 1 buf m
  if !ok then ([], m)
  else if be buf 0 2 ≠ macPartitionMagic then ([], m)
  else
    let mapSize := s32 (be buf 4 4)
    macLoop answers env dev ptableBlockSize (mapSize - 1).toNat 2 buf
      (addNewPartition (env.malloc 0 1) (macPartition ptableBlockSize 1 buf) []) m

/-! ## MSDOS -/

/-- The body of the `while` loop of `msdos_parse_extended`: the number of the next partition and
the list, and the linking entry with the buffer if the loop goes on. -/
def extendedRecord (answers : Answers) (env : Env) (dev : Device)
    (slot start size partitionStart partitionSize : Nat) (buf : Bytes)
    (s : Nat × List PartitionT) (m : Machine) :
    (Nat × List PartitionT) × Option (MsdosPartition × Bytes) × Machine :=
  if u32 (start + size) ≤ partitionStart then (s, none, m)
  else
    let (ok, buf, m) := promReadblocks answers dev partitionStart 1 buf m
    if !ok then (s, none, m)
    else if !msdosMagicPresent buf then (s, none, m)
    else
      ((List.range 4).foldl
          (extendedEntry env slot dev.promBlksize partitionStart partitionSize buf) s,
        (extendedLink buf).map fun part => (part, buf), m)

/-- The `while` loop; no list when the fuel is used up. -/
def msdosExtendedLoop (answers : Answers) (env : Env) (dev : Device) (slot start size : Nat) :
    Nat → Nat → Nat → Bytes → Nat × List PartitionT → Machine →
    Option (List PartitionT) × Machine
  | 0, _, _, _, _, m => (none, m)
  | fuel + 1, partitionStart, partitionSize, buf, s, m =>
    match extendedRecord answers env dev slot start size partitionStart partitionSize buf s m with
    | (s, none, m) => (some s.2, m)
    | (s, some (part, buf), m) =>
      msdosExtendedLoop answers env dev slot start size fuel (u32 (start + part.start))
        part.size buf s m

/-- A primary slot, 1 to 4. -/
def msdosSlot (answers : Answers) (env : Env) (dev : Device) (fuel : Nat) (buf : Bytes)
    (partition : Nat) (list : List PartitionT) (m : Machine) :
    Option (List PartitionT) × Machine :=
  let part := msdosPartition buf (partition - 1)
  if msdosIsLinuxPartition part.sysInd || msdosIsFatPartition part.sysInd then
    (some (addNewPartition (env.malloc partition partition)
      ⟨partition, part.start, part.size, .msdos, dev.promBlksize, part.sysInd⟩ list), m)
  else if msdosIsExtendedPartition part.sysInd then
    msdosExtendedLoop answers env dev partition part.start part.size fuel part.start part.size
      (env.stack partition) (5, list) m
  else (some list, m)

def msdosSlots (answers : Answers) (env : Env) (dev : Device) (fuel : Nat) (buf : Bytes) :
    List Nat → List PartitionT → Machine → Option (List PartitionT) × Machine
  | [], list, m => (some list, m)
  | partition :: rest, list, m =>
    match msdosSlot answers env dev fuel buf partition list m with
    | (none, m) => (none, m)
    | (some list, m) => msdosSlots answers env dev fuel buf rest list m

def partitionMsdosLookup (answers : Answers) (env : Env) (dev : Device) (fuel : Nat)
    (buf : Bytes) (m : Machine) : Option (List PartitionT) × Machine :=
  msdosSlots answers env dev fuel buf [1, 2, 3, 4] [] m

/-! ## GPT -/

def partitionGptLookup (answers : Answers) (env : Env) (dev : Device) (buf : Bytes)
    (m : Machine) : List PartitionT × Machine :=
  let blksize := dev.promBlksize
  let (ok, buf, m) := promReadblocks answers dev (u32 (le buf (blksize + 72) 8)) 1 buf m
  if !ok then ([], m)
  else ((List.range' 1 (le buf (blksize + 80) 4)).foldl (gptEntry env blksize buf) [], m)

/-! ## ISO 9660 -/

/-- The loop of `identify_iso_fs`: the root block if one is found, and the buffer. -/
def isoLoop (answers : Answers) (dev : Device) :
    Nat → Nat → Bytes → Machine → Option Nat × Bytes × Machine
  | 0, _, buf, m => (none, buf, m)
  | left + 1, block, buf, m =>
    let (ok, buf, m) := promReadblocks answers dev block 1 buf m
    if !ok then (none, buf, m)
    else if (List.range 5).map (fun i => buf (1 + i)) = isoStandardId then (some block, buf, m)
    else isoLoop answers dev left (block + 1) buf m

def identifyIsoFs (answers : Answers) (dev : Device) (buf : Bytes) (m : Machine) :
    Option Nat × Bytes × Machine :=
  isoLoop answers dev (100 - 16) 16 buf m

/-! ## Amiga -/

/-- The loop of `_amiga_find_rdb`, from block `i` on; at the end block 0 is read again. -/
def amigaFindRdbLoop (answers : Answers) (dev : Device) :
    Nat → Nat → Bytes → Machine → Bool × Bytes × Machine
  | 0, _, buf, m => (false, (promReadblocks answers dev 0 1 buf m).2)
  | left + 1, i, buf, m =>
    let (ok, buf, m) := if i ≠ 0 then promReadblocks answers dev i 1 buf m else (true, buf, m)
    if !ok then (false, (promReadblocks answers dev 0 1 buf m).2)
    else if amigaBlock buf 0 = 0x5244534B ∧ amigaChecksum buf dev.promBlksize = 0 then
      (true, buf, m)
    else amigaFindRdbLoop answers dev left (i + 1) buf m

def amigaFindRdb (answers : Answers) (dev : Device) (buf : Bytes) (m : Machine) :
    Bool × Bytes × Machine :=
  amigaFindRdbLoop answers dev 16 0 buf m

/-- The loop of `partition_amiga_lookup`; no list when the fuel is used up. -/
def amigaLoop (answers : Answers) (env : Env) (dev : Device) (blockspercyl : Nat) :
    Nat → Nat → Nat → (Int → Nat) → Bytes → List PartitionT → Machine →
    Option (List PartitionT) × Machine
  | 0, _, _, _, _, _, m => (none, m)
  | fuel + 1, part, partition, used, buf, list, m =>
    if part = 0xffffffff then (some list, m)
    else
      let (ok, buf, m) := promReadblocks answers dev part 1 buf m
      if !ok then (some list, m)
      else
        let word := (s32 part).tdiv 32
        if amigaBlock buf 0 = 0x50415254 ∧ amigaChecksum buf dev.promBlksize = 0
            ∧ used word &&& usedBit part = 0 then
          let low := amigaBlock buf 41
          let high := amigaBlock buf 42
          amigaLoop answers env dev blockspercyl fuel (amigaBlock buf 4) (partition + 1)
            (fun w => if w = word then used w ||| usedBit part else used w) buf
            (addNewPartition (env.malloc 0 partition)
              ⟨partition, u32 (blockspercyl * low),
                u32 (blockspercyl * u32 (sub32 high low + 1)), .amiga, dev.promBlksize, 0⟩ list) m
        else (some list, m)

def partitionAmigaLookup (answers : Answers) (env : Env) (dev : Device) (fuel : Nat)
    (buf : Bytes) (m : Machine) : Option (List PartitionT) × Machine :=
  let blockspercyl := u32 (amigaBlock buf 17 * amigaBlock buf 18)
  let possible := amigaBlock buf 33 / 32 + 1
  if !env.mallocUsed then (some [], m)
  else
    amigaLoop answers env dev blockspercyl fuel (amigaBlock buf 7) 1
      (fun w => if 0 ≤ w ∧ w < possible then 0 else env.heap w) buf [] m

/-! ## The lookup -/

/-- The part of `partitions_lookup` behind the read of the boot blocks. -/
def labelLookup (answers : Answers) (env : Env) (dev : Device) (fuel : Nat) (buf : Bytes)
    (m : Machine) : Option (List PartitionT) × Machine :=
  let blksize := dev.promBlksize
  if macMagicPresent buf then
    let mac := partitionMacLookup answers env dev buf m
    (some mac.1, mac.2)
  else if gptMagicPresent buf blksize then
    let gpt := partitionGptLookup answers env dev buf m
    (some gpt.1, gpt.2)
  else if msdosMagicPresent buf then partitionMsdosLookup answers env dev fuel buf m
  else
    let iso := if blksize = 2048 then identifyIsoFs answers dev buf m else (none, buf, m)
    match iso.1 with
    | some root =>
      (some (addNewPartition (env.malloc 0 0) ⟨0, root, 0, .iso9660, blksize, 0⟩ []), iso.2.2)
    | none =>
      -- the result of the search is -1 for nothing, so every disk that gets here is an Amiga disk
      let rdb := amigaFindRdb answers dev iso.2.1 iso.2.2
      partitionAmigaLookup answers env dev fuel rdb.2.1 rdb.2.2

/-- `partitions_lookup`, with the result of the open and what is in `block_buffer` then. -/
def partitionsLookup (answers : Answers) (env : Env) (dev : Option Device) (fuel : Nat)
    (buf : Bytes) (m : Machine) : Option (List PartitionT) × Machine :=
  match dev with
  | none => (some [], m)
  | some dev =>
    let m := { m with position := 0 }
    if maxBlockSize < dev.promBlksize then (some [], m)
    else
      let boot := promReadblocks answers dev 0 2 buf m
      if !boot.1 then (some [], boot.2.2)
      else labelLookup answers env dev fuel boot.2.1 boot.2.2

/-! ## A run of the loader -/

/-- What a run does that concerns the lookups: a lookup, the value of `boot-last-label` put into
`lilo_once_cmdline`, and the line taken from there (`get_params`). -/
inductive Event where
  | lookup (env : Env) (dev : Option Device) (fuel : Nat) (buf : Bytes)
  | bootLastLabel (label : List UInt8)
  | lineTaken

def Event.act (answers : Answers) (m : Machine) : Event → Machine
  | .lookup env dev fuel buf => (partitionsLookup answers env dev fuel buf m).2
  | .bootLastLabel label =>
    { m with
      liloOnceCmdline := fun i =>
        if i < min 512 label.length then label.getD i 0 else m.liloOnceCmdline i }
  | .lineTaken =>
    { m with liloOnceCmdline := fun i => if i = 0 then 0 else m.liloOnceCmdline i }

/-- The loader as it starts: nothing written, `lilo_once_cmdline` and the latch zero. -/
def Machine.start (disks : Nat → Bytes) : Machine where
  calls := 0
  position := 0
  disks := disks
  macWriteOnce := 0
  liloOnceCmdline := fun _ => 0
  writes := []

end LiloBoot.Partition.Session
