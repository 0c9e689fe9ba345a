/-
LiloBoot.Partition.Geometry — what the fields of a partition table say.

The fields are 32-bit numbers; what they say about a partition is a number
without a bound. `Source` goes through the tables the way the lookups do and
pairs each entry that is added with the fields it is made of, and `ChainCheck`
collects the bound checks on the chain of an extended partition.
-/
import LiloBoot.Partition.NumberTheorems

namespace LiloBoot.Partition

/-! ## Fields -/

/-- The fields that an entry is made of. A logical partition starts `offset` blocks behind the
record that is `link` blocks behind the start of the extended partition. -/
inductive Fields where
  | mac (startBlock dataStart dataCount : Nat)
  | primary (start size : Nat)
  | logical (start link offset length : Nat)
  | amiga (sect heads lowcyl highcyl : Nat)
  deriving DecidableEq, Repr

/-- The first block of the partition. -/
def Fields.start : Fields → Int
  | .mac startBlock dataStart _ => startBlock + dataStart
  | .primary start _ => start
  | .logical start link offset _ => start + link + offset
  | .amiga sect heads lowcyl _ => sect * heads * lowcyl

/-- The number of its blocks. -/
def Fields.size : Fields → Int
  | .mac _ _ dataCount => dataCount
  | .primary _ size => size
  | .logical _ _ _ length => length
  | .amiga sect heads lowcyl highcyl => sect * heads * ((highcyl : Int) - lowcyl + 1)

/-- A number of 32 bits. -/
def FitsWord (x : Int) : Prop := 0 ≤ x ∧ x < 2 ^ 32

/-- Both numbers are of 32 bits. -/
def Fields.Fits (fields : Fields) : Prop := FitsWord fields.start ∧ FitsWord fields.size

/-! ## Mac -/

/-- An entry that `macLoop` adds, with `left` blocks of the map from `block` on. -/
inductive MacSource (env : Env) (disk : Disk) (blocksize : Nat) :
    Nat → Nat → Bytes → Fields → PartitionT → Prop where
  | here {left block : Nat} {before buf : Bytes}
      (read : promReadblocks disk block 1 before = (true, buf))
      (magic : be buf 0 2 = macPartitionMagic) (memory : env.malloc 0 block = true) :
      MacSource env disk blocksize (left + 1) block before
        (.mac (be buf 8 4) (be buf 80 4) (be buf 84 4)) (macPartition blocksize block buf)
  | next {left block : Nat} {before buf : Bytes} {fields : Fields} {p : PartitionT}
      (read : promReadblocks disk block 1 before = (true, buf))
      (magic : be buf 0 2 = macPartitionMagic)
      (rest : MacSource env disk blocksize left (block + 1) buf fields p) :
      MacSource env disk blocksize (left + 1) block before fields p

/-- Block 0, without the `lilo -R` command line. -/
def macBoot (env : Env) (boot : Bytes) : Bytes :=
  if env.macWriteOnce then boot else clearLiloOnce boot

/-- The blocks of the map, as block 1 has them; block 1 itself is one of them in any case. -/
def macMapSize (env : Env) (disk : Disk) (boot : Bytes) : Nat :=
  (s32 (be (promReadblocks disk 1 1 (macBoot env boot)).2 4 4) - 1).toNat + 1

/-! ## MSDOS -/

/-- An entry that the chain from the record at `link` on adds, with `number` as the next part
number. -/
inductive LogicalSource (env : Env) (disk : Disk) (slot start size blksize : Nat) :
    Nat → Nat → Nat → Bytes → Fields → PartitionT → Prop where
  | here {number link partitionSize i : Nat} {before buf : Bytes}
      (record : Record disk start size (u32 (start + link)) before buf) (entry : i < 4)
      (logical : isLogical (u32 (start + link)) partitionSize i (msdosPartition buf i) = true)
      (linux : msdosIsLinuxPartition (msdosPartition buf i).sysInd = true)
      (memory : env.malloc slot (number + (recordLogicals (u32 (start + link)) partitionSize buf
        (List.range i)).length) = true) :
      LogicalSource env disk slot start size blksize number link partitionSize before
        (.logical start link (msdosPartition buf i).start (msdosPartition buf i).size)
        ⟨number + (recordLogicals (u32 (start + link)) partitionSize buf (List.range i)).length,
          u32 (u32 (start + link) + (msdosPartition buf i).start), (msdosPartition buf i).size,
          .msdos, blksize, (msdosPartition buf i).sysInd⟩
  | next {number link partitionSize : Nat} {before buf : Bytes} {part : MsdosPartition}
      {fields : Fields} {p : PartitionT}
      (record : Record disk start size (u32 (start + link)) before buf)
      (linked : extendedLink buf = some part)
      (rest : LogicalSource env disk slot start size blksize
        (number + (recordLogicals (u32 (start + link)) partitionSize buf (List.range 4)).length)
        part.start part.size buf fields p) :
      LogicalSource env disk slot start size blksize number link partitionSize before fields p

/-- The chain from the record at `link` on comes to the bound check for the record at `link'`. -/
inductive ChainCheck (disk : Disk) (start size : Nat) : Nat → Bytes → Nat → Prop where
  | here {link : Nat} {before : Bytes} : ChainCheck disk start size link before link
  | next {link link' : Nat} {before buf : Bytes} {part : MsdosPartition}
      (record : Record disk start size (u32 (start + link)) before buf)
      (linked : extendedLink buf = some part)
      (rest : ChainCheck disk start size part.start buf link') :
      ChainCheck disk start size link before link'

/-- `partition_start >= start + size`, for the record at `link`. -/
def chainRejects (start size link : Nat) : Bool := u32 (start + size) ≤ u32 (start + link)

/-! ## Amiga -/

/-- The partition block `part` is read, is one, has a good checksum and is not in use yet. -/
structure AmigaBlock (disk : Disk) (blksize part : Nat) (used : Int → Nat) (before buf : Bytes) :
    Prop where
  listed : part ≠ 0xffffffff
  read : promReadblocks disk part 1 before = (true, buf)
  good : amigaBlock buf 0 = 0x50415254 ∧ amigaChecksum buf blksize = 0
    ∧ used ((s32 part).tdiv 32) &&& usedBit part = 0

/-- `used` with the block `part` in it. -/
def useBlock (used : Int → Nat) (part : Nat) : Int → Nat :=
  fun w => if w = (s32 part).tdiv 32 then used w ||| usedBit part else used w

/-- The entry of a partition block. -/
def amigaPartition (blksize sect heads partition : Nat) (buf : Bytes) : PartitionT where
  partNumber := partition
  partStart := u32 (u32 (sect * heads) * amigaBlock buf 41)
  partSize := u32 (u32 (sect * heads) * u32 (sub32 (amigaBlock buf 42) (amigaBlock buf 41) + 1))
  label := .amiga
  blocksize := blksize
  sysInd := 0

/-- An entry that `amigaLoop` adds, from the block `part` on. -/
inductive AmigaSource (env : Env) (disk : Disk) (blksize sect heads : Nat) :
    Nat → Nat → (Int → Nat) → Bytes → Fields → PartitionT → Prop where
  | here {part partition : Nat} {used : Int → Nat} {before buf : Bytes}
      (block : AmigaBlock disk blksize part used before buf)
      (memory : env.malloc 0 partition = true) :
      AmigaSource env disk blksize sect heads part partition used before
        (.amiga sect heads (amigaBlock buf 41) (amigaBlock buf 42))
        (amigaPartition blksize sect heads partition buf)
  | next {part partition : Nat} {used : Int → Nat} {before buf : Bytes} {fields : Fields}
      {p : PartitionT} (block : AmigaBlock disk blksize part used before buf)
      (rest : AmigaSource env disk blksize sect heads (amigaBlock buf 4) (partition + 1)
        (useBlock used part) buf fields p) :
      AmigaSource env disk blksize sect heads part partition used before fields p

/-! ## The lookup -/

/-- The boot blocks are read into `boot`. -/
structure BootRead (disk : Disk) (buf boot : Bytes) : Prop where
  blksize : disk.promBlksize ≤ maxBlockSize
  read : promReadblocks disk 0 2 buf = (true, boot)

/-- What is in `block_buffer` when no ISO file system is found, and whether one is. -/
def isoSearch (disk : Disk) (boot : Bytes) : Option Nat × Bytes :=
  if disk.promBlksize = 2048 then identifyIsoFs disk boot else (none, boot)

/-- What is in it at the start of `partition_amiga_lookup`. -/
def amigaBoot (disk : Disk) (boot : Bytes) : Bytes :=
  (amigaFindRdb disk disk.promBlksize (isoSearch disk boot).2).2

/-- None of the three formats with a magic number, no ISO file system, and memory for `used`. -/
structure AmigaDisk (env : Env) (disk : Disk) (buf boot : Bytes) : Prop extends
    BootRead disk buf boot where
  mac : macMagicPresent boot = false
  gpt : gptMagicPresent boot disk.promBlksize = false
  msdos : msdosMagicPresent boot = false
  iso : (isoSearch disk boot).1 = none
  memory : env.mallocUsed = true

/-- The block numbers in use at the start: those in memory that was not cleared. -/
def amigaUsed (env : Env) (boot : Bytes) : Int → Nat :=
  fun w => if 0 ≤ w ∧ w < (amigaBlock boot 33 / 32 + 1 : Nat) then 0 else env.heap w

/-- An entry of a Mac, MSDOS or Amiga disk, and its fields. -/
inductive Source (env : Env) (disk : Disk) (buf : Bytes) : Fields → PartitionT → Prop where
  | mac {boot : Bytes} {fields : Fields} {p : PartitionT} (read : BootRead disk buf boot)
      (magic : macMagicPresent boot = true)
      (source : MacSource env disk (be boot 2 2) (macMapSize env disk boot) 1 (macBoot env boot)
        fields p) :
      Source env disk buf fields p
  | primary {boot : Bytes} {slot : Nat} (msdos : MsdosDisk disk buf boot)
      (place : slot ∈ [1, 2, 3, 4])
      (kind : (msdosIsLinuxPartition (msdosPartition boot (slot - 1)).sysInd
        || msdosIsFatPartition (msdosPartition boot (slot - 1)).sysInd) = true)
      (memory : env.malloc slot slot = true) :
      Source env disk buf
        (.primary (msdosPartition boot (slot - 1)).start (msdosPartition boot (slot - 1)).size)
        ⟨slot, (msdosPartition boot (slot - 1)).start, (msdosPartition boot (slot - 1)).size, .msdos,
          disk.promBlksize, (msdosPartition boot (slot - 1)).sysInd⟩
  | logical {boot : Bytes} {slot : Nat} {fields : Fields} {p : PartitionT}
      (msdos : MsdosDisk disk buf boot) (place : slot ∈ [1, 2, 3, 4])
      (extended : msdosIsExtendedPartition (msdosPartition boot (slot - 1)).sysInd = true)
      (source : LogicalSource env disk slot (msdosPartition boot (slot - 1)).start
        (msdosPartition boot (slot - 1)).size disk.promBlksize 5 0
        (msdosPartition boot (slot - 1)).size (env.stack slot) fields p) :
      Source env disk buf fields p
  | amiga {boot : Bytes} {fields : Fields} {p : PartitionT} (disk' : AmigaDisk env disk buf boot)
      (source : AmigaSource env disk disk.promBlksize (amigaBlock (amigaBoot disk boot) 17)
        (amigaBlock (amigaBoot disk boot) 18) (amigaBlock (amigaBoot disk boot) 7) 1
        (amigaUsed env (amigaBoot disk boot)) (amigaBoot disk boot) fields p) :
      Source env disk buf fields p

/-- A bound check of the lookup: the extended partition, and the link to the record. -/
inductive BoundCheck (env : Env) (disk : Disk) (buf : Bytes) : Nat → Nat → Nat → Prop where
  | intro {boot : Bytes} {slot link : Nat} (msdos : MsdosDisk disk buf boot)
      (place : slot ∈ [1, 2, 3, 4])
      (extended : msdosIsExtendedPartition (msdosPartition boot (slot - 1)).sysInd = true)
      (check : ChainCheck disk (msdosPartition boot (slot - 1)).start
        (msdosPartition boot (slot - 1)).size 0 (env.stack slot) link) :
      BoundCheck env disk buf (msdosPartition boot (slot - 1)).start
        (msdosPartition boot (slot - 1)).size link

/-- The labels that the geometry is about. -/
def hasGeometry (label : DiskLabel) : Bool :=
  label == .mac || label == .msdos || label == .amiga

/-- Every entry has the start and the size that its fields give, and the bound check rejects just
the chain blocks outside `[start, start + size)`. -/
structure ExactGeometry (env : Env) (disk : Disk) (buf : Bytes) (list : List PartitionT) :
    Prop where
  listed : ∀ p ∈ list, hasGeometry p.label = true → ∃ fields, Source env disk buf fields p
  exact : ∀ p ∈ list, ∀ fields, Source env disk buf fields p →
    (p.partStart : Int) = fields.start ∧ (p.partSize : Int) = fields.size
  bound : ∀ start size link, BoundCheck env disk buf start size link →
    (chainRejects start size link = true ↔ ¬ start + link < start + size)

/-- The numbers that the fields give are of 32 bits; the ends of an extended partition and of
what stands before a record in it overflow together or not at all. -/
structure GeometryFits (env : Env) (disk : Disk) (buf : Bytes) : Prop where
  fields : ∀ fields p, Source env disk buf fields p → fields.Fits
  bound : ∀ start size link, BoundCheck env disk buf start size link →
    (start + size < 2 ^ 32 ↔ start + link < 2 ^ 32)

end LiloBoot.Partition
