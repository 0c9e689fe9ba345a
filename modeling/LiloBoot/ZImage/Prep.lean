/-
LiloBoot.ZImage.Prep — the zImage of a PReP machine and its boot records.

`decompress_kernel` of `lilo/bootheader/prep/main.c` puts the boot records
behind the place of the kernel, and moves the initrd away where it thinks they
would meet. The zImage links itself to 8 MB, which is also the size of the
buffer for the kernel; the initrd is a part of the zImage, and the buffer that
Open Firmware gives is behind it. The machine's addresses have 32 bits. The
zImage's own variables are apart from the memory that is written here.
-/
import LiloBoot.ZImage.BootInfo

namespace LiloBoot.ZImage

open Memory

/-! ## §1 The zImage -/

/-- `VMLINUX_SIZE`. -/
def vmlinuxSize : Nat := 8 * 1024 * 1024

/-- Where the initrd and the buffer for the kernel are, 0 without Open Firmware. -/
structure PrepImage where
  initrdStart : Nat
  initrdSize : Nat
  vmlinuxBuf : Nat
  linked : 0x00800000 ≤ initrdStart
  initrdEnd : initrdStart + initrdSize < 2 ^ 32
  claimed : vmlinuxBuf = 0 ∨ initrdStart + initrdSize ≤ vmlinuxBuf

/-- What `gunzip` makes of the kernel, no more than its buffer. -/
abbrev PrepKernel := { bytes : List UInt8 // bytes.length ≤ vmlinuxSize }

/-- `_builtin_cmd_line.string`, of 512 bytes with the NUL. -/
abbrev BuiltinCmdLine := { s : List UInt8 // s.length < 512 ∧ 0 ∉ s }

/-! ## §2 The code -/

/-- `_ALIGN(addr, size)`. -/
def alignTo (addr size : Nat) : Nat := u32 (addr + (size - 1)) / size * size

/-- `bootinfo_addr`. -/
def bootinfoAddr (offset : Nat) : Nat := alignTo (u32 (offset + 2 ^ 20 - 1)) (2 ^ 20)

/-- Where an initrd is moved to. -/
def movedInitrd (zimageSize : Nat) : Nat := alignTo (u32 (zimageSize + 2 ^ 21 - 1)) (2 ^ 21)

/-- The boot records are taken to be in the middle of the initrd. -/
def InTheMiddle (img : PrepImage) (recLoc : Nat) : Prop :=
  img.initrdSize ≠ 0 ∧ img.initrdStart < recLoc ∧ recLoc < u32 (img.initrdStart + img.initrdSize)

instance (img : PrepImage) (recLoc : Nat) : Decidable (InTheMiddle img recLoc) :=
  inferInstanceAs (Decidable (_ ∧ _))

/-- Where the initrd is in the end. -/
def initrdPlace (img : PrepImage) (zimageSize : Nat) : Nat :=
  if InTheMiddle img (bootinfoAddr zimageSize) then movedInitrd zimageSize else img.initrdStart

/-- The memory before the boot records are built: the kernel is in its buffer,
    the initrd at its place. -/
def beforeRecords (mem : Bytes) (img : PrepImage) (kernel : List UInt8) : Bytes :=
  let mem := Memory.store mem img.vmlinuxBuf kernel
  if InTheMiddle img (bootinfoAddr kernel.length) then
    memmove mem (movedInitrd kernel.length) img.initrdStart img.initrdSize
  else mem

/-- The memory in the end, the boot records' place and that of the initrd. -/
structure Decompressed where
  mem : Bytes
  birec : Nat
  initrdLoc : Nat

/-- The records that follow `BI_FIRST`. -/
def bootRecords (totalMemory : Nat) (cmdline : List UInt8) (initrdLoc initrdSize : Nat) :
    List BiRecord :=
  (if totalMemory ≠ 0 then [⟨biMemsize, wordBytes totalMemory⟩] else []) ++
    ⟨biCmdLine, cmdline ++ [0]⟩ ::
    (if initrdSize ≠ 0 then [⟨biInitrd, wordBytes initrdLoc ++ wordBytes initrdSize⟩] else [])

/-- A `bootinfo_append` under an `if`. -/
def appendIf (cond : Prop) [Decidable cond] (mem : Bytes) (birec tag : Nat) (data : List UInt8) :
    Option Bytes :=
  if cond then bootinfoAppend mem birec tag data else some mem

/-- `decompress_kernel`; `none` if the boot records have no end. -/
def decompressKernel (mem : Bytes) (img : PrepImage) (kernel : PrepKernel)
    (cmdline : BuiltinCmdLine) (totalMemory : Nat) : Option Decompressed :=
  let zimageSize := kernel.val.length
  let birec := bootinfoAddr zimageSize
  let initrdLoc := initrdPlace img zimageSize
  let mem := bootinfoInit (beforeRecords mem img kernel.val) birec
  (appendIf (totalMemory ≠ 0) mem birec biMemsize (wordBytes totalMemory)).bind fun mem =>
    (bootinfoAppend mem birec biCmdLine (cmdline.val ++ [0])).bind fun mem =>
      (appendIf (img.initrdSize ≠ 0) mem birec biInitrd
        (wordBytes initrdLoc ++ wordBytes img.initrdSize)).map fun mem =>
          let mem := if img.vmlinuxBuf ≠ 0 then memmove mem 0 img.vmlinuxBuf zimageSize else mem
          ⟨mem, birec, initrdLoc⟩

/-! ## §3 The boot records in the end -/

/-- The boot records are complete; what they say of the initrd is an area of
    memory, apart from them, that has the initrd's bytes. -/
def BootInfoApart (mem : Bytes) (img : PrepImage) (cmdline : List UInt8) (totalMemory : Nat)
    (d : Decompressed) : Prop :=
  BootInfoAt d.mem d.birec (bootRecords totalMemory cmdline d.initrdLoc img.initrdSize) ∧
    (img.initrdSize ≠ 0 → d.initrdLoc + img.initrdSize ≤ 2 ^ 32 ∧
      (d.birec + recordsSize (bootInfo
          (bootRecords totalMemory cmdline d.initrdLoc img.initrdSize)) ≤ d.initrdLoc ∨
        d.initrdLoc + img.initrdSize ≤ d.birec) ∧
      Carried mem img.initrdStart d.mem d.initrdLoc img.initrdSize)

/-- The bytes of the list for an initrd. -/
def bootInfoBytes (totalMemory : Nat) (cmdline : List UInt8) : Nat :=
  16 + (if totalMemory ≠ 0 then 12 else 0) + (8 + (cmdline.length + 1)) + 16

/-- The initrd begins behind the boot records, or in front of their place; then
    it ends there or there is room for it where it is moved to. -/
def InitrdApart (img : PrepImage) (zimageSize totalMemory : Nat) (cmdline : List UInt8) : Prop :=
  img.initrdSize = 0 ∨
    bootinfoAddr zimageSize + bootInfoBytes totalMemory cmdline ≤ img.initrdStart ∨
    (img.initrdStart < bootinfoAddr zimageSize ∧
      (img.initrdStart + img.initrdSize ≤ bootinfoAddr zimageSize ∨
        movedInitrd zimageSize + img.initrdSize ≤ 2 ^ 32))

section Apart

variable {mem : Bytes} {img : PrepImage} {kernel : PrepKernel} {cmdline : BuiltinCmdLine}
  {totalMemory initrdLoc zimageSize birec : Nat} {d : Decompressed} {rs : List BiRecord}

theorem bootInfo_size (hsize : img.initrdSize ≠ 0) (s : List UInt8) :
    recordsSize (bootInfo (bootRecords totalMemory s initrdLoc img.initrdSize)) =
      bootInfoBytes totalMemory s := by
  rw [recordsSize_bootInfo, bootRecords, recordsSize_append, recordsSize_cons, if_pos hsize,
    bootInfoBytes]
  by_cases htotal : totalMemory ≠ 0
  · rw [if_pos htotal, if_pos htotal]
    simp only [recordsSize, BiRecord.size, List.length_append, List.length_cons, List.length_nil,
      wordBytes_length, List.map_cons, List.map_nil, List.sum_cons, List.sum_nil]
    omega
  · rw [if_neg htotal, if_neg htotal]
    simp only [recordsSize, BiRecord.size, List.length_append, List.length_cons, List.length_nil,
      wordBytes_length, List.map_cons, List.map_nil, List.sum_cons, List.sum_nil]
    omega

theorem bootInfoBytes_le (cmdline : BuiltinCmdLine) :
    bootInfoBytes totalMemory cmdline.val ≤ 564 := by
  have hlen := cmdline.property.1
  rw [bootInfoBytes]
  split
  · omega
  · omega

/-- Where the boot records are and where an initrd is moved to. -/
theorem places (h : zimageSize ≤ vmlinuxSize) :
    zimageSize + 2 ^ 20 ≤ bootinfoAddr zimageSize + 1 ∧ bootinfoAddr zimageSize ≤ 0x900000 ∧
      bootinfoAddr zimageSize % 2 ^ 20 = 0 ∧ movedInitrd zimageSize % 2 ^ 21 = 0 ∧
      (0x800000 < bootinfoAddr zimageSize → movedInitrd zimageSize = 0xa00000) := by
  rw [vmlinuxSize] at h
  simp only [bootinfoAddr, movedInitrd, alignTo, u32]
  omega

/-- A record more or not. -/
theorem appendIf_spec {cond : Prop} [Decidable cond] {r : BiRecord} (h : BootInfoAt mem birec rs)
    (hpos : 0 < birec) (hn : rs.length < 4) (hr : r.Fits) :
    ∃ mem', appendIf cond mem birec r.tag r.data = some mem' ∧
      BootInfoAt mem' birec (rs ++ if cond then [r] else []) ∧
      ∀ x, x < birec ∨ birec + recordsSize (bootInfo (rs ++ if cond then [r] else [])) ≤ x →
        mem' x = mem x := by
  by_cases hc : cond
  · rw [appendIf, if_pos hc, if_pos hc]
    exact bootinfoAppend_spec h hpos (by omega) hr
  · rw [appendIf, if_neg hc, if_neg hc, List.append_nil]
    exact ⟨mem, rfl, h, fun _ _ => rfl⟩

theorem memsize_fits (totalMemory : Nat) :
    (⟨biMemsize, wordBytes totalMemory⟩ : BiRecord).Fits :=
  ⟨(by decide : 8 + 4 < 2 ^ 32), (by decide : biMemsize < 2 ^ 32), (by decide : biMemsize ≠ biLast)⟩

theorem cmdLine_fits (cmdline : BuiltinCmdLine) :
    (⟨biCmdLine, cmdline.val ++ [0]⟩ : BiRecord).Fits := by
  refine ⟨?_, (by decide : biCmdLine < 2 ^ 32), (by decide : biCmdLine ≠ biLast)⟩
  have hlen := cmdline.property.1
  simp only [BiRecord.size, List.length_append, List.length_cons, List.length_nil]
  omega

theorem initrd_fits (initrdLoc initrdSize : Nat) :
    (⟨biInitrd, wordBytes initrdLoc ++ wordBytes initrdSize⟩ : BiRecord).Fits :=
  ⟨(by decide : 8 + 8 < 2 ^ 32), (by decide : biInitrd < 2 ^ 32), (by decide : biInitrd ≠ biLast)⟩

/-- The boot records are complete. Apart from them, and from where the kernel
    is moved to, nothing has changed since they were begun. -/
theorem decompressKernel_spec (mem : Bytes) (img : PrepImage) (kernel : PrepKernel)
    (cmdline : BuiltinCmdLine) (totalMemory : Nat) :
    ∃ d, decompressKernel mem img kernel cmdline totalMemory = some d ∧
      d.birec = bootinfoAddr kernel.val.length ∧ d.initrdLoc = initrdPlace img kernel.val.length ∧
      BootInfoAt d.mem d.birec (bootRecords totalMemory cmdline.val d.initrdLoc img.initrdSize) ∧
      ∀ x, kernel.val.length ≤ x → x < d.birec ∨ d.birec + recordsSize (bootInfo
          (bootRecords totalMemory cmdline.val d.initrdLoc img.initrdSize)) ≤ x →
        d.mem x = beforeRecords mem img kernel.val x := by
  obtain ⟨hplace, -⟩ := places kernel.property
  have hpos : 0 < bootinfoAddr kernel.val.length := by omega
  obtain ⟨hinit, hframe0⟩ := bootinfoInit_spec (beforeRecords mem img kernel.val)
    (bootinfoAddr kernel.val.length)
  obtain ⟨mem1, hrun1, hat1, hframe1⟩ := @appendIf_spec _ _ _ (totalMemory ≠ 0) _ _ hinit hpos
    (by decide) (memsize_fits totalMemory)
  obtain ⟨mem2, hrun2, hat2, hframe2⟩ := bootinfoAppend_spec hat1 hpos
    (by split <;> simp) (cmdLine_fits cmdline)
  obtain ⟨mem3, hrun3, hat3, hframe3⟩ := @appendIf_spec _ _ _ (img.initrdSize ≠ 0) _ _ hat2 hpos
    (by split <;> simp) (initrd_fits (initrdPlace img kernel.val.length) img.initrdSize)
  have hrecords : [] ++ (if totalMemory ≠ 0 then [⟨biMemsize, wordBytes totalMemory⟩] else []) ++
      [⟨biCmdLine, cmdline.val ++ [0]⟩] ++ (if img.initrdSize ≠ 0 then
        [⟨biInitrd, wordBytes (initrdPlace img kernel.val.length) ++ wordBytes img.initrdSize⟩]
        else []) =
      bootRecords totalMemory cmdline.val (initrdPlace img kernel.val.length) img.initrdSize := by
    rw [bootRecords, List.nil_append, List.append_assoc, List.singleton_append]
  have hle1 := recordsSize_bootInfo_le []
    (if totalMemory ≠ 0 then [⟨biMemsize, wordBytes totalMemory⟩] else [])
  have hle2 := recordsSize_bootInfo_le
    ([] ++ if totalMemory ≠ 0 then [⟨biMemsize, wordBytes totalMemory⟩] else [])
    [⟨biCmdLine, cmdline.val ++ [0]⟩]
  have hle3 := recordsSize_bootInfo_le
    ([] ++ (if totalMemory ≠ 0 then [⟨biMemsize, wordBytes totalMemory⟩] else []) ++
      [⟨biCmdLine, cmdline.val ++ [0]⟩])
    (if img.initrdSize ≠ 0 then
      [⟨biInitrd, wordBytes (initrdPlace img kernel.val.length) ++ wordBytes img.initrdSize⟩] else [])
  rw [hrecords] at hat3 hframe3 hle3
  have hkernel : ∀ x, kernel.val.length ≤ x →
      (if img.vmlinuxBuf ≠ 0 then memmove mem3 0 img.vmlinuxBuf kernel.val.length else mem3) x =
        mem3 x := by
    intro x hx
    split
    · exact memmove_out (by omega)
    · rfl
  refine ⟨⟨if img.vmlinuxBuf ≠ 0 then memmove mem3 0 img.vmlinuxBuf kernel.val.length else mem3,
    bootinfoAddr kernel.val.length, initrdPlace img kernel.val.length⟩, ?_, rfl, rfl,
    hat3.carried fun i hi => hkernel _ (by omega), fun x hx hout => ?_⟩
  · unfold decompressKernel
    dsimp only
    rw [hrun1, Option.bind_some, hrun2, Option.bind_some, hrun3]
    rfl
  · dsimp only at hout ⊢
    rw [hkernel x hx, hframe3 x hout, hframe2 x (by omega), hframe1 x (by omega),
      hframe0 x (by omega)]

/-- The initrd's bytes are where it is in the end. -/
theorem beforeRecords_carried (mem : Bytes) (img : PrepImage) (kernel : PrepKernel) :
    Carried mem img.initrdStart (beforeRecords mem img kernel.val)
      (initrdPlace img kernel.val.length) img.initrdSize := by
  have hlen : kernel.val.length ≤ 0x800000 := kernel.property
  have hlinked := img.linked
  -- the kernel's buffer is below the link address or behind the initrd
  have hgunzip : Carried mem img.initrdStart (Memory.store mem img.vmlinuxBuf kernel.val)
      img.initrdStart img.initrdSize := by
    refine carried_store ?_
    rcases img.claimed with h | h
    · exact Or.inr (by omega)
    · exact Or.inl h
  rw [beforeRecords, initrdPlace]
  by_cases hmiddle : InTheMiddle img (bootinfoAddr kernel.val.length)
  · rw [if_pos hmiddle, if_pos hmiddle]
    exact hgunzip.trans (memmove_carried _ _ _ _)
  · rw [if_neg hmiddle, if_neg hmiddle]
    exact hgunzip

/-- An initrd of a byte at 9 MB. -/
def nineMegabytes : PrepImage := ⟨0x900000, 1, 0, by decide, by decide, Or.inl rfl⟩

end Apart

end LiloBoot.ZImage
