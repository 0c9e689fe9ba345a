/-
LiloBoot.Elf.Load — `load_elf32` and `load_elf64` of `second/yaboot.c`.

The two loaders are one text over two header layouts, so they are `loadElf` at
two values of `ElfClass`. They differ in three places besides the layouts:
`load_elf64` leaves its scan at the first loadable header where `load_elf32`
runs on to the last one, it passes 0 where `load_elf32` passes a variable that
nothing has set, and it compares the result of a read with a 64-bit size.

A kernel file is its bytes. A read stores as many of the requested bytes as the
file has and returns their number as an `int`; whether a seek succeeds is up to
the file system. `load_elf32` and `load_elf64` return 0 or 1; a model run
returns `none`, or the `loadinfo` together with the bytes the copy loop stored.
-/
import LiloBoot.Prom.Memory

namespace LiloBoot.Elf

/-! ## Headers -/

/-- The value of a big-endian field. -/
def beNat (bytes : List UInt8) : Nat := bytes.foldl (fun n b => n * 256 + b.toNat) 0

/-- The field of `size` bytes at `offset`. -/
def field (bytes : List UInt8) (offset size : Nat) : Nat :=
  beNat ((bytes.drop offset).take size)

/-- Conversion of a 16-bit field to `s16`. -/
def s16 (n : Nat) : Int := if n < 2 ^ 15 then n else (n : Int) - 2 ^ 16

/-- The fields of `Elf32_Ehdr` and `Elf64_Ehdr` that the loaders read. -/
structure Ehdr where
  eEntry : Nat
  ePhoff : Nat
  ePhnum : Int
  deriving DecidableEq, Repr

/-- The fields of `Elf32_Phdr` and `Elf64_Phdr` that the loaders read. -/
structure Phdr where
  pType : Nat
  pOffset : Nat
  pVaddr : Nat
  pFilesz : Nat
  pMemsz : Nat
  deriving DecidableEq, Repr

def elf32Ehdr (b : List UInt8) : Ehdr := ⟨field b 24 4, field b 28 4, field b 44 2⟩

/-- `e_phnum` is an `Elf64_SHalf`, a signed field. -/
def elf64Ehdr (b : List UInt8) : Ehdr := ⟨field b 24 8, field b 32 8, s16 (field b 56 2)⟩

def elf32Phdr (b : List UInt8) : Phdr where
  pType := field b 0 4
  pOffset := field b 4 4
  pVaddr := field b 8 4
  pFilesz := field b 16 4
  pMemsz := field b 20 4

def elf64Phdr (b : List UInt8) : Phdr where
  pType := field b 0 4
  pOffset := field b 8 8
  pVaddr := field b 16 8
  pFilesz := field b 32 8
  pMemsz := field b 40 8

inductive ElfClass where
  | elf32
  | elf64
  deriving DecidableEq, Repr

def ElfClass.ehdrSize : ElfClass → Nat
  | .elf32 => 52
  | .elf64 => 64

def ElfClass.phdrSize : ElfClass → Nat
  | .elf32 => 32
  | .elf64 => 56

def ElfClass.ehdr : ElfClass → List UInt8 → Ehdr
  | .elf32 => elf32Ehdr
  | .elf64 => elf64Ehdr

def ElfClass.phdr : ElfClass → List UInt8 → Phdr
  | .elf32 => elf32Phdr
  | .elf64 => elf64Phdr

/-- The width of `p_filesz`, in which `j != p->p_filesz` is compared. -/
def ElfClass.wordBits : ElfClass → Nat
  | .elf32 => 32
  | .elf64 => 64

/-- Whether the scan over the program headers ends in `break`. -/
def ElfClass.scanBreaks : ElfClass → Bool
  | .elf32 => false
  | .elf64 => true

/-- `sizeof(Elf_Ident)`: `e_ident`, `e_type` and `e_machine`. -/
def elfIdentSize : Nat := 20

/-- What `is_elf32` and `is_elf64` test. -/
def isElf (c : ElfClass) (b : List UInt8) : Bool :=
  b.take 4 == [0x7f, 0x45, 0x4c, 0x46]
    && field b 4 1 == (match c with | .elf32 => 1 | .elf64 => 2)
    && field b 5 1 == 2
    && (field b 16 2 == 2 || field b 16 2 == 3)
    && field b 18 2 == (match c with | .elf32 => 20 | .elf64 => 21)

/-! ## The file -/

/-- The open kernel file. -/
structure BootFile where
  content : List UInt8
  seek : Nat → Bool

/-- What a read of `size` bytes at `pos` stores. -/
def BootFile.read (f : BootFile) (pos size : Nat) : List UInt8 := (f.content.drop pos).take size

/-! ## The loaders -/

/-- `loadinfo_t` behind its `elf` union. -/
structure LoadInfo where
  base : Nat
  memsize : Nat
  filesize : Nat
  offset : Nat
  loadLoc : Nat
  entry : Nat
  deriving DecidableEq, Repr

/-- Bytes stored from `addr` on. -/
structure Write where
  addr : Nat
  bytes : List UInt8
  deriving DecidableEq, Repr

def maxHeaders : Int := 32

/-- The test both loops make; the others are skipped with `continue`. -/
def loadable (p : Phdr) : Bool := p.pType == 1 && p.pOffset != 0

/-- `_ALIGN(n, 1 << 20)` on an `unsigned long`. -/
def align1M (n : Nat) : Nat := u32 (n + (2 ^ 20 - 1)) / 2 ^ 20 * 2 ^ 20

/-- The program header table as the read leaves it in `ph`. -/
def phdrs (c : ElfClass) (table : List UInt8) : Nat → List Phdr
  | 0 => []
  | n + 1 => c.phdr table :: phdrs c (table.drop c.phdrSize) n

/-- The scan for the segment that size and address are taken from. -/
def scan (breaks : Bool) (li : LoadInfo) : List Phdr → LoadInfo
  | [] => li
  | p :: rest =>
    if !loadable p then scan breaks li rest
    else
      let li := { li with
        offset := u32 p.pOffset
        memsize := u32 p.pMemsz
        filesize := u32 p.pFilesz
        loadLoc := u32 p.pVaddr }
      if breaks then li else scan breaks li rest

/-- The copy loop; `none` after a failed seek or a short read. -/
def loadSegments (c : ElfClass) (file : BootFile) (li : LoadInfo) :
    List Phdr → Option (List Write)
  | [] => some []
  | p :: rest =>
    if !loadable p then loadSegments c file li rest
    else if !file.seek p.pOffset then none
    else
      let offset := sub32 (u32 p.pVaddr) li.loadLoc
      let bytes := file.read p.pOffset (u32 p.pFilesz)
      let j := s32 bytes.length
      if j % 2 ^ c.wordBits ≠ p.pFilesz then none
      else (loadSegments c file li rest).map (⟨u32 (li.base + offset), bytes⟩ :: ·)

/-- `load_elf32` or `load_elf64`, entered behind the `Elf_Ident` that the caller has
read. `malloc` is the outcome of the only allocation, `loadaddr` the value of the
variable of that name, `loadLoc` what the caller left in `load_loc`. -/
def loadElf (c : ElfClass) (malloc : Bool) (claim : Nat → Nat → Option Nat) (loadaddr : Nat)
    (file : BootFile) (loadLoc : Nat) : Option (LoadInfo × List Write) :=
  let size := c.ehdrSize - elfIdentSize
  if (file.read elfIdentSize size).length < size then none
  else
    let e := c.ehdr (file.content.take c.ehdrSize)
    if maxHeaders < e.ePhnum then none
    else if !malloc then none
    else if !file.seek e.ePhoff then none
    else
      -- a negative `e_phnum` makes the size of the table a huge unsigned number
      let tableSize := (c.phdrSize * e.ePhnum % 2 ^ 32).toNat
      let table := file.read e.ePhoff tableSize
      if table.length ≠ tableSize then none
      else
        let ph := phdrs c table e.ePhnum.toNat
        let li := scan c.scanBreaks ⟨0, 0, 0, 0, loadLoc, u32 e.eEntry⟩ ph
        if li.memsize = 0 then none
        else
          let memsize := u32 (align1M li.memsize + 0x100000)
          match promClaimChunk claim loadaddr memsize with
          | none => none
          | some base =>
            let li := { li with base := base, memsize := memsize }
            (loadSegments c file li ph).map (li, ·)

/-- `load_elf32`; its `loadaddr` is an uninitialised variable. -/
def loadElf32 (malloc : Bool) (claim : Nat → Nat → Option Nat) (uninit : Nat)
    (file : BootFile) (loadLoc : Nat) : Option (LoadInfo × List Write) :=
  loadElf .elf32 malloc claim uninit file loadLoc

/-- `load_elf64`. -/
def loadElf64 (malloc : Bool) (claim : Nat → Nat → Option Nat) (file : BootFile)
    (loadLoc : Nat) : Option (LoadInfo × List Write) :=
  loadElf .elf64 malloc claim 0 file loadLoc

/-- `kernel_entry` as `yaboot_text_ui` computes it. -/
def kernelEntry (li : LoadInfo) : Nat := sub32 (u32 (li.base + li.entry)) li.loadLoc

end LiloBoot.Elf
