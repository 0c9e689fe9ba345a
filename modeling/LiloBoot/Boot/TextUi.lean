/-
LiloBoot.Boot.TextUi — one round of the boot loop (`second/yaboot.c`).

A round begins when `get_params` has returned `GET_PARAMS_OK` and ends back
at the prompt or in the kernel. It opens and loads the kernel, then the
ramdisk if one was asked for. What the environment answers in a round is in
its `Script`: the results of opens, seeks, reads, allocations and claims, in
the order of the calls where one call site runs more than once. The claimed
regions go through the round as a list; the memory is a function on 32-bit
addresses.
-/
import LiloBoot.Elf.Load

namespace LiloBoot.Boot

open LiloBoot.Elf

/-- Conversion of an `int` to `unsigned long`. -/
def u32OfInt (i : Int) : Nat := (i % 2 ^ 32).toNat

/-- Memory after `n` bytes of `f` have been stored from `addr` on; addresses wrap. -/
def storeBytes (mem : Bytes) (addr n : Nat) (f : Nat → UInt8) : Bytes :=
  fun a => if sub32 a addr < n then f (sub32 a addr) else mem a

/-! ## The kernel -/

/-- The environment while the kernel is loaded. `segSeek i` and `segRead i` answer for the
`i`-th program header. -/
structure KernelScript where
  openOk : Bool
  identRead : Int
  elf32 : Bool
  elf64 : Bool
  headerRead : Int
  ehdr : Ehdr
  malloc : Bool
  phSeek : Bool
  phRead : Int
  phdrs : List Phdr
  claim : Nat → Nat → Option Nat
  segSeek : Nat → Bool
  segRead : Nat → Int

/-- The copy loop of `load_elf32` and `load_elf64`, from the `i`-th header on: whether every
segment is read whole. -/
def segmentsRead (c : ElfClass) (k : KernelScript) : Nat → List Phdr → Bool
  | _, [] => true
  | i, p :: rest =>
    if !loadable p then segmentsRead c k (i + 1) rest
    else if !k.segSeek i then false
    else if k.segRead i % 2 ^ c.wordBits ≠ p.pFilesz then false
    else segmentsRead c k (i + 1) rest

/-- `load_elf32` or `load_elf64` as far as memory goes. -/
def loadElfMemory (c : ElfClass) (k : KernelScript) (loadaddr loadLoc : Nat)
    (claimed : List Region) : Option LoadInfo × List Region :=
  if k.headerRead < ((c.ehdrSize - elfIdentSize : Nat) : Int) then (none, claimed)
  else if maxHeaders < k.ehdr.ePhnum then (none, claimed)
  else if !k.malloc then (none, claimed)
  else if !k.phSeek then (none, claimed)
  else if u32OfInt k.phRead ≠ (c.phdrSize * k.ehdr.ePhnum % 2 ^ 32).toNat then (none, claimed)
  else
    let ph := k.phdrs.take k.ehdr.ePhnum.toNat
    let li := scan c.scanBreaks ⟨0, 0, 0, 0, loadLoc, u32 k.ehdr.eEntry⟩ ph
    if li.memsize = 0 then (none, claimed)
    else
      let memsize := u32 (align1M li.memsize + 0x100000)
      match promClaimChunk k.claim loadaddr memsize with
      | none => (none, claimed)
      | some base =>
        let claimed := ⟨base, memsize⟩ :: claimed
        if segmentsRead c k 0 ph then (some { li with base := base, memsize := memsize }, claimed)
        -- a failed seek or read releases the chunk
        else (none, promRelease ⟨base, memsize⟩ claimed)

/-- From `open_file(kernel)` to the close of the kernel file. `loadaddr` is the uninitialised
variable of `load_elf32`. -/
def loadKernel (k : KernelScript) (loadaddr loadLoc : Nat) (claimed : List Region) :
    Option LoadInfo × List Region :=
  if !k.openOk then (none, claimed)
  -- `read` returns an `int`, `sizeof` is unsigned: a negative result is a large number
  else if u32OfInt k.identRead < elfIdentSize then (none, claimed)
  else if k.elf32 then loadElfMemory .elf32 k loadaddr loadLoc claimed
  else if k.elf64 then loadElfMemory .elf64 k 0 loadLoc claimed
  else (none, claimed)

/-! ## The ramdisk -/

/-- `strstr`: the string from the first occurrence on. -/
def strstr (s needle : CStr) : Option CStr := s.tails.find? (needle.isPrefixOf ·)

/-- `"initrd="`. -/
def initrdOption : CStr := ['i', 'n', 'i', 't', 'r', 'd', '=']

/-- The ramdisk path given in the arguments, up to a space. -/
def argsInitrd (args : CStr) : Option CStr :=
  (strstr args initrdOption).map fun p => (p.drop initrdOption.length).takeWhile (· ≠ ' ')

/-- The path `get_params` parses; the one from the arguments is lost when `strdup` fails. -/
def initrdPath (args : CStr) (strdup : Bool) (cfgInitrd : Option CStr) : Option CStr :=
  match argsInitrd args with
  | some p => if strdup then some p else none
  | none => cfgInitrd

/-- `path_filename(rd)` when `get_params` returns; `parse` is what
`imagepath_to_path_description` leaves there, whether it succeeds or not. -/
def rdFilename (parse : CStr → Option CStr) (path : Option CStr) : Option CStr :=
  match path with
  | some (c :: cs) => parse (c :: cs)
  | _ => none

/-- An open ramdisk file: its bytes, the answer of `ino_size` if the driver has it, and what
the `k`-th read would return if the request and the rest of the file allow it. -/
structure RdFile where
  content : List UInt8
  inoSize : Option Nat
  result : Nat → Int

/-- What the `k`-th read returns, at `pos` for `size` bytes: an error code, or a count. -/
def RdFile.read (f : RdFile) (k pos size : Nat) : Int :=
  if f.result k < 0 then f.result k
  else min (f.result k) (min (2 ^ 31 - 1) (min size (f.content.length - pos) : Nat))

/-- The environment while the ramdisk is loaded: the open, the search for the first chunk,
and the answer to the `k`-th further claim. -/
structure RdScript where
  file : Option RdFile
  claim : Nat → Nat → Option Nat
  claimAt : Nat → Option Nat

/-- `INITRD_CHUNKSIZE`. -/
def initrdChunksize : Nat := 0x100000

/-- `chunksize`, as the unsigned number every use makes of it. -/
def chunksize (initrdsize : Int) (inoSize : Option Nat) : Nat :=
  match inoSize with
  | some (n + 1) => u32 (n + 1 + 0x1000)
  | _ => if initrdsize ≠ 0 then u32OfInt (initrdsize + 0x1000) else initrdChunksize

/-- What the ramdisk code works on: the end of the chunk read last, the size so far, the result
of the last read, the file position, memory and claims. -/
structure RdState where
  more : Nat
  size : Nat
  read : Nat
  pos : Nat
  mem : Bytes
  claimed : List Region

/-- A read into `addr`. -/
def readChunk (f : RdFile) (chunk k addr : Nat) (s : RdState) : RdState :=
  let r := f.read k s.pos chunk
  { s with
    more := addr
    size := u32 (s.size + u32OfInt r)
    read := u32OfInt r
    pos := s.pos + r.toNat
    mem := storeBytes s.mem addr r.toNat fun i => f.content.getD (s.pos + i) 0 }

/-- The `while` loop; `k` counts the reads made. `none` when the fuel is used up. -/
def readMore (f : RdFile) (claimAt : Nat → Option Nat) (chunk : Nat) :
    Nat → Nat → RdState → Option RdState
  | 0, _, _ => none
  | fuel + 1, k, s =>
    if s.read ≠ chunk then some s
    else
      let want := u32 (s.more + chunk)
      let claimed :=
        match claimAt k with
        | some a => ⟨a, chunk⟩ :: s.claimed
        | none => s.claimed
      -- a failed claim is the address -1
      if (claimAt k).getD (2 ^ 32 - 1) ≠ want then some { s with claimed := claimed }
      else readMore f claimAt chunk fuel (k + 1)
        (readChunk f chunk k want { s with claimed := claimed })

/-- How a round ends. -/
inductive Outcome where
  | prompt
  | enter (initrdBase initrdSize : Nat)
  deriving DecidableEq

/-- The ramdisk part of a round, with `path_filename(rd)` set. -/
def loadRamdisk (rd : RdScript) (claimBase : Nat) (initrdsize : Int) (fuel : Nat) (mem : Bytes)
    (claimed : List Region) : Option (Outcome × Bytes × List Region) :=
  match rd.file with
  | none => some (.prompt, mem, claimed)
  | some f =>
    let chunk := chunksize initrdsize f.inoSize
    match promClaimChunk rd.claim claimBase chunk with
    | none => some (.prompt, mem, claimed)
    | some found =>
      let base := u32 found
      let s := readChunk f chunk 0 base ⟨base, 0, 0, 0, mem, ⟨base, chunk⟩ :: claimed⟩
      let initrdBase := if s.size = 0 then 0 else base
      match readMore f rd.claimAt chunk fuel 1 { s with more := initrdBase } with
      | none => none
      | some s =>
        if initrdBase = 0 then some (.prompt, s.mem, s.claimed)
        else some (.enter initrdBase s.size, s.mem, s.claimed)

/-! ## The round -/

/-- What is fixed in a round before the kernel is opened, and the environment's answers. -/
structure Script where
  cpu64 : Bool
  args : CStr
  strdup : Bool
  cfgInitrd : Option CStr
  parse : CStr → Option CStr
  initrdsize : Int
  loadaddr : Nat
  loadLoc : Nat
  kernel : KernelScript
  rd : RdScript

/-- `claim_base`. -/
def claimBase (cpu64 : Bool) (li : LoadInfo) : Nat :=
  if cpu64 then li.memsize else 32 * 1024 * 1024

/-- The ramdisk file name of a round. -/
def Script.rdFilename (sc : Script) : Option CStr :=
  Boot.rdFilename sc.parse (initrdPath sc.args sc.strdup sc.cfgInitrd)

/-- One round of the loop of `yaboot_text_ui`. -/
def round (sc : Script) (fuel : Nat) (mem : Bytes) (claimed : List Region) :
    Option (Outcome × Bytes × List Region) :=
  match loadKernel sc.kernel sc.loadaddr sc.loadLoc claimed with
  | (none, claimed) => some (.prompt, mem, claimed)
  | (some li, claimed) =>
    match sc.rdFilename with
    | none => some (.enter 0 0, mem, claimed)
    | some _ => loadRamdisk sc.rd (claimBase sc.cpu64 li) sc.initrdsize fuel mem claimed

end LiloBoot.Boot
