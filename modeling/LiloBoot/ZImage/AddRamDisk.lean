/-
LiloBoot.ZImage.AddRamDisk — the tool that puts a ramdisk behind a kernel.

`main` of `lilo/bootheader/utils/iseries-addRamDisk.c` writes the kernel and
the ramdisk in pages of 4096 bytes and records the place and the size of the
ramdisk in the kernel's naca. The host is a 64-bit PowerPC, as the byte order
of the fields it reads and `unsigned long` need it: a length is a `long`, and
what is computed from it wraps at 64 bits. `inbuf` is on the stack, behind 56
bytes of something else.
-/
import LiloBoot.Elf.Load
import LiloBoot.ZImage.Addnote

namespace LiloBoot.ZImage

open Elf

/-! ## §1 Files -/

/-- The bytes of a file, whose length is a `long`. -/
abbrev HostFile := { bytes : List UInt8 // bytes.length < 2 ^ 63 }

/-- What lies on the stack in front of `inbuf`. -/
abbrev StackBefore := { bytes : List UInt8 // bytes.length = 56 }

/-- `ElfHeaderSize`. -/
def elfHeaderSize : Nat := 64 * 1024

/-- `ElfPages`. -/
def elfPages : Nat := elfHeaderSize / 4096

/-- `get4k`: a page of a file, filled up with zeros. -/
def get4k (file : List UInt8) (pos : Nat) : List UInt8 :=
  let page := (file.drop pos).take 4096
  page ++ List.replicate (4096 - page.length) 0

/-- A loop of `get4k` and `put4k`, from a place on. -/
def copyPages (file : List UInt8) : Nat → Nat → List UInt8
  | 0, _ => []
  | n + 1, pos => get4k file pos ++ copyPages file n (pos + 4096)

/-- The loop that writes pages of zeros. -/
def zeroPages (n : Nat) : List UInt8 := List.replicate (n * 4096) 0

/-! ## §2 The layout -/

/-- `check_elf64(inbuf, sizeof(inbuf), &vmlinux)` for `vmlinux.memsize`, the
    size the first program header gives. A large `e_phoff` leads to the bytes in
    front of `inbuf`. -/
def checkElf64Memsize (before : StackBefore) (inbuf : List UInt8) : Option Nat :=
  if isElf .elf64 inbuf = false then none
  else
    let end' := u64 (field inbuf 32 8 + 56)
    if 4096 < end' then none else some (field (before.val ++ inbuf) (end' + 40) 8)

/-- `roundedKernelLen`. -/
def roundedKernelLen (kernelLen : Nat) : Nat :=
  let actual := sub64 kernelLen elfHeaderSize
  let round := actual % 4096
  if round ≠ 0 then u64 (actual + (4096 - round)) else actual

/-- `_ALIGN_UP(memsize, 4096)`. -/
def alignUp (memsize : Nat) : Nat := u64 (memsize + 4095) / 4096 * 4096

/-- `padPages` and `offset_end`, by the sign of the difference of the pages as
    a `long`. -/
def padAndEnd (kernelLen memsize : Nat) : Nat × Nat :=
  let rounded := roundedKernelLen kernelLen
  let pad := sub64 (alignUp memsize / 4096) (rounded / 4096)
  if 2 ^ 63 ≤ pad then (0, rounded) else (pad, alignUp memsize)

/-- `ramPages`: there is always something to round up. -/
def ramPages (ramFileLen : Nat) : Nat := u32 (u64 (ramFileLen + (4096 - ramFileLen % 4096)) / 4096)

/-- What is written before the naca is changed. -/
def image (kernel ramdisk : List UInt8) (memsize : Nat) : List UInt8 :=
  copyPages kernel elfPages 0 ++
    copyPages kernel (roundedKernelLen kernel.length / 4096) elfHeaderSize ++
    zeroPages (padAndEnd kernel.length memsize).1 ++
    copyPages ramdisk (ramPages ramdisk.length) 0

/-! ## §3 The naca -/

def eyeCatcher : List UInt8 := [0xc8, 0xa5, 0xd9, 0xc4]

/-- The place of the naca in what was written, through the pointer to the
    `hvReleaseData`. The places are sums of 32 bits, and `KERNELBASE` has no
    bits there. `none` where a read comes to the end of the file, the
    `hvReleaseData` is not one or a ramdisk is recorded already. -/
def findNaca (out : List UInt8) : Option Nat :=
  match get32 out (elfHeaderSize + 0x24) with
  | none => none
  | some hvReleaseData =>
    let hv := u32 (elfHeaderSize + hvReleaseData)
    if out.length < hv + 0x40 ∨ ¬ MarkerAt eyeCatcher out hv then none
    else
      match get32 out (hv + 0x0c) with
      | none => none
      | some pointer =>
        let naca := u32 (elfHeaderSize + pointer)
        if out.length < naca + 0x18 then none
        else if get32 out (naca + 0x0c) = some 0 ∧ get32 out (naca + 0x14) = some 0 then some naca
        else none

/-- `xRamDisk` and `xRamDiskSize` of the naca are filled in. -/
def fillNaca (out : List UInt8) (naca xRamDisk xRamDiskSize : Nat) : List UInt8 :=
  patch (patch out (naca + 0x0c) (be32 xRamDisk)) (naca + 0x14) (be32 xRamDiskSize)

/-- The file written, and where its naca is. -/
structure Attached where
  out : List UInt8
  naca : Nat

/-- `main`; `none` where it gives up. -/
def addRamDisk (before : StackBefore) (kernel ramdisk : HostFile) : Option Attached :=
  let inbuf := kernel.val.take 4096
  if inbuf.length < 4096 then none
  else
    match checkElf64Memsize before inbuf with
    | none => none
    | some memsize =>
      let out := image kernel.val ramdisk.val memsize
      let offsetEnd := (padAndEnd kernel.val.length memsize).2
      match findNaca out with
      | none => none
      | some naca => some ⟨fillNaca out naca (u32 offsetEnd) (ramPages ramdisk.val.length), naca⟩

end LiloBoot.ZImage
