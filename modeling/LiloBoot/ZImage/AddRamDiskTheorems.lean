/-
LiloBoot.ZImage.AddRamDiskTheorems — where the ramdisk ends up.

The ramdisk begins at the larger of the kernel's file size behind the ELF
header and its memory size, both rounded up (§2). The place is recorded in 32
bits, as is the number of pages; where both fit, the header is where the file
says and the naca is not in the ramdisk, the record is right (§3).
-/
import LiloBoot.ZImage.AddRamDisk
import LiloBoot.ZImage.AddnoteTheorems

namespace LiloBoot.ZImage

open Elf

/-! ## §1 Pages -/

section Pages

variable {file : List UInt8} {n pos i : Nat}

theorem get4k_length : (get4k file pos).length = 4096 := by
  simp only [get4k, List.length_append, List.length_take, List.length_replicate]
  omega

theorem getElem?_get4k (hi : i < 4096) : (get4k file pos)[i]? = some (file.getD (pos + i) 0) := by
  have hpage : ((file.drop pos).take 4096).length = min 4096 (file.length - pos) := by
    rw [List.length_take, List.length_drop]
  rw [get4k, List.getD_eq_getElem?_getD]
  by_cases hin : pos + i < file.length
  · rw [List.getElem?_append_left (by omega), List.getElem?_take, if_pos hi, List.getElem?_drop,
      List.getElem?_eq_getElem hin]
    rfl
  · rw [List.getElem?_append_right (by omega), List.getElem?_replicate, if_pos (by omega),
      List.getElem?_eq_none (by omega)]
    rfl

theorem copyPages_length (n pos : Nat) : (copyPages file n pos).length = n * 4096 := by
  induction n generalizing pos with
  | zero => rw [copyPages, List.length_nil, Nat.zero_mul]
  | succ n ih =>
    rw [copyPages, List.length_append, get4k_length, ih]
    omega

/-- The bytes of the pages are those of the file, and zeros behind its end. -/
theorem getElem?_copyPages (hi : i < n * 4096) :
    (copyPages file n pos)[i]? = some (file.getD (pos + i) 0) := by
  induction n generalizing pos i with
  | zero => omega
  | succ n ih =>
    rw [copyPages]
    by_cases hlow : i < 4096
    · rw [List.getElem?_append_left (by rw [get4k_length]; exact hlow), getElem?_get4k hlow]
    · rw [List.getElem?_append_right (by rw [get4k_length]; omega), get4k_length, ih (by omega),
        show pos + 4096 + (i - 4096) = pos + i by omega]

/-- The whole file and zeros, where there are enough pages. -/
theorem copyPages_whole (hroom : file.length ≤ n * 4096) :
    copyPages file n 0 = file ++ List.replicate (n * 4096 - file.length) 0 := by
  refine List.ext_getElem? fun i => ?_
  by_cases hi : i < n * 4096
  · rw [getElem?_copyPages hi, Nat.zero_add, List.getD_eq_getElem?_getD]
    by_cases hin : i < file.length
    · rw [List.getElem?_append_left hin, List.getElem?_eq_getElem hin]
      rfl
    · rw [List.getElem?_append_right (by omega), List.getElem?_replicate, if_pos (by omega),
        List.getElem?_eq_none (by omega)]
      rfl
  · rw [List.getElem?_eq_none (by rw [copyPages_length]; omega), List.getElem?_eq_none]
    rw [List.length_append, List.length_replicate]
    omega

end Pages

/-! ## §2 The layout -/

section Layout

variable {kernel ramdisk : List UInt8} {memsize kernelLen : Nat}

theorem roundedKernelLen_spec (hlen : kernelLen < 2 ^ 63) :
    roundedKernelLen kernelLen % 4096 = 0 ∧ roundedKernelLen kernelLen < 2 ^ 64 ∧
      (61440 < kernelLen → kernelLen ≤ elfHeaderSize + roundedKernelLen kernelLen ∧
        elfHeaderSize + roundedKernelLen kernelLen < max kernelLen elfHeaderSize + 4096) ∧
      (kernelLen ≤ 61440 → 2 ^ 63 ≤ roundedKernelLen kernelLen) := by
  have hactual : sub64 kernelLen elfHeaderSize =
      if 65536 ≤ kernelLen then kernelLen - 65536 else kernelLen + (2 ^ 64 - 65536) := by
    simp only [sub64, u64, elfHeaderSize]
    by_cases h : 65536 ≤ kernelLen
    · rw [if_pos h]
      omega
    · rw [if_neg h]
      omega
  rw [roundedKernelLen, hactual]
  simp only [u64, elfHeaderSize]
  by_cases hlow : 65536 ≤ kernelLen
  · simp only [if_pos hlow]
    by_cases hround : (kernelLen - 65536) % 4096 ≠ 0
    · rw [if_pos hround]
      omega
    · rw [if_neg hround]
      omega
  · simp only [if_neg hlow]
    by_cases hround : (kernelLen + (2 ^ 64 - 65536)) % 4096 ≠ 0
    · rw [if_pos hround]
      omega
    · rw [if_neg hround]
      omega

/-- The ramdisk begins where the kernel ends, in the file or in memory. -/
theorem padAndEnd_spec (memsize : Nat) (hlen : kernelLen < 2 ^ 63) :
    (padAndEnd kernelLen memsize).2 =
        roundedKernelLen kernelLen + (padAndEnd kernelLen memsize).1 * 4096 ∧
      alignUp memsize ≤ (padAndEnd kernelLen memsize).2 ∧
      ((padAndEnd kernelLen memsize).2 = roundedKernelLen kernelLen ∨
        (padAndEnd kernelLen memsize).2 = alignUp memsize) := by
  obtain ⟨hmod, hlt, -, -⟩ := roundedKernelLen_spec hlen
  have halign : alignUp memsize % 4096 = 0 ∧ alignUp memsize < 2 ^ 64 := by
    simp only [alignUp, u64]
    omega
  rw [padAndEnd]
  generalize roundedKernelLen kernelLen = rounded at hmod hlt ⊢
  generalize alignUp memsize = aligned at halign ⊢
  obtain ⟨k, rfl⟩ := Nat.dvd_of_mod_eq_zero hmod
  obtain ⟨a, rfl⟩ := Nat.dvd_of_mod_eq_zero halign.1
  have hdiv : ∀ n, 4096 * n / 4096 = n := fun n => Nat.mul_div_cancel_left n (by decide)
  have hpad : sub64 a k = if k ≤ a then a - k else 2 ^ 64 - (k - a) := by
    simp only [sub64, u64]
    by_cases h : k ≤ a
    · rw [if_pos h]
      omega
    · rw [if_neg h]
      omega
  by_cases h : k ≤ a
  · rw [if_pos h] at hpad
    simp only [hdiv, hpad]
    rw [if_neg (by omega)]
    simp only [or_true, le_refl, and_true]
    omega
  · rw [if_neg h] at hpad
    simp only [hdiv, hpad]
    rw [if_pos (by omega)]
    simp only [true_or, and_true]
    omega

theorem image_length (ramdisk : List UInt8) (memsize : Nat) (hlen : kernel.length < 2 ^ 63) :
    (image kernel ramdisk memsize).length =
      elfHeaderSize + (padAndEnd kernel.length memsize).2 + ramPages ramdisk.length * 4096 := by
  obtain ⟨hmod, -⟩ := roundedKernelLen_spec hlen
  rw [image, List.length_append, List.length_append, List.length_append, copyPages_length,
    copyPages_length, copyPages_length, zeroPages, List.length_replicate,
    (padAndEnd_spec memsize hlen).1]
  simp only [elfPages, elfHeaderSize]
  omega

/-- The kernel's bytes are where they were. -/
theorem getElem?_image_kernel {i : Nat} (hlen : kernel.length < 2 ^ 63)
    (hlow : 61440 < kernel.length) (hi : i < kernel.length) :
    (image kernel ramdisk memsize)[i]? = kernel[i]? := by
  obtain ⟨hmod, -, hroom, -⟩ := roundedKernelLen_spec hlen
  have hsome : some (kernel.getD i 0) = kernel[i]? := by
    rw [List.getD_eq_getElem?_getD, List.getElem?_eq_getElem hi]
    rfl
  have hroom := (hroom hlow).1
  rw [image, List.append_assoc, List.append_assoc, ← hsome]
  simp only [elfHeaderSize] at hroom ⊢
  by_cases hheader : i < 65536
  · rw [List.getElem?_append_left (by rw [copyPages_length, elfPages, elfHeaderSize]; omega),
      getElem?_copyPages (by rw [elfPages, elfHeaderSize]; omega), Nat.zero_add]
  · have hfront : (copyPages kernel elfPages 0).length = 65536 := by
      rw [copyPages_length]
      rfl
    rw [List.getElem?_append_right (by omega), hfront,
      List.getElem?_append_left (by rw [copyPages_length]; omega), getElem?_copyPages (by omega),
      show 65536 + (i - 65536) = i by omega]

/-- The ramdisk's pages end the file. -/
theorem image_drop (hlen : kernel.length < 2 ^ 63) :
    (image kernel ramdisk memsize).drop (elfHeaderSize + (padAndEnd kernel.length memsize).2) =
      copyPages ramdisk (ramPages ramdisk.length) 0 := by
  have hfront : (copyPages kernel elfPages 0 ++
      copyPages kernel (roundedKernelLen kernel.length / 4096) elfHeaderSize ++
      zeroPages (padAndEnd kernel.length memsize).1).length =
      elfHeaderSize + (padAndEnd kernel.length memsize).2 := by
    have hall := image_length ramdisk memsize hlen
    rw [image, List.length_append, copyPages_length] at hall
    omega
  rw [image, List.drop_left' hfront]

/-- The ramdisk and zeros, where its pages fit 32 bits. -/
theorem copyPages_ramdisk (hlen : ramdisk.length < 2 ^ 44 - 4096) :
    ramdisk.length ≤ ramPages ramdisk.length * 4096 ∧
      copyPages ramdisk (ramPages ramdisk.length) 0 =
        ramdisk ++ List.replicate (ramPages ramdisk.length * 4096 - ramdisk.length) 0 := by
  have hpages : ramPages ramdisk.length = ramdisk.length / 4096 + 1 := by
    simp only [ramPages, u64, u32]
    omega
  have hroom : ramdisk.length ≤ ramPages ramdisk.length * 4096 := by omega
  exact ⟨hroom, copyPages_whole hroom⟩

end Layout

/-! ## §3 The naca -/

section Naca

variable {out : List UInt8} {naca x s i : Nat}

theorem get32_zero_bytes {off : Nat} (h : get32 out off = some 0) :
    ∀ j < 4, out[off + j]? = some 0 := by
  have hbytes : ∀ o, get16 out o = some 0 → out[o]? = some 0 ∧ out[o + 1]? = some 0 := by
    intro o ho
    rw [get16] at ho
    split at ho
    next a b ha hb =>
      have hsum : a.toNat * 2 ^ 8 + b.toNat = 0 := Option.some.inj ho
      have ha0 : a = 0 := UInt8.toNat_inj.mp (by rw [UInt8.toNat_zero]; omega)
      have hb0 : b = 0 := UInt8.toNat_inj.mp (by rw [UInt8.toNat_zero]; omega)
      rw [ha, hb, ha0, hb0]
      exact ⟨rfl, rfl⟩
    · cases ho
  rw [get32] at h
  split at h
  next a b ha hb =>
    have hsum : a * 2 ^ 16 + b = 0 := Option.some.inj h
    obtain rfl : a = 0 := by omega
    obtain rfl : b = 0 := by omega
    intro j hj
    obtain ⟨h0, h1⟩ := hbytes off ha
    obtain ⟨h2, h3⟩ := hbytes (off + 2) hb
    interval_cases j
    · exact h0
    · exact h1
    · exact h2
    · exact h3
  · cases h

theorem findNaca_spec (h : findNaca out = some naca) :
    naca + 0x18 ≤ out.length ∧ get32 out (naca + 0x0c) = some 0 ∧
      get32 out (naca + 0x14) = some 0 := by
  unfold findNaca at h
  dsimp only at h
  split at h
  · cases h
  split at h
  · cases h
  split at h
  · cases h
  split at h
  · cases h
  next hroom =>
    split at h
    next hzero =>
      cases h
      exact ⟨by omega, hzero⟩
    · cases h

theorem findNaca_of {hvReleaseData hv pointer : Nat}
    (hrelease : get32 out (elfHeaderSize + 0x24) = some hvReleaseData)
    (hhv : u32 (elfHeaderSize + hvReleaseData) = hv) (hlen : hv + 0x40 ≤ out.length)
    (hmarker : MarkerAt eyeCatcher out hv) (hpointer : get32 out (hv + 0x0c) = some pointer)
    (hnaca : u32 (elfHeaderSize + pointer) = naca) (hroom : naca + 0x18 ≤ out.length)
    (hzero : get32 out (naca + 0x0c) = some 0 ∧ get32 out (naca + 0x14) = some 0) :
    findNaca out = some naca := by
  subst hhv hnaca
  unfold findNaca
  rw [hrelease]
  dsimp only
  rw [if_neg (by rw [not_or, not_not]; exact ⟨by omega, hmarker⟩), hpointer]
  dsimp only
  rw [if_neg (by omega), if_pos hzero]

/-- The bytes after the naca is filled in. -/
theorem getElem?_fillNaca (hroom : naca + 0x18 ≤ out.length) :
    (fillNaca out naca x s)[i]? =
      if naca + 0x14 ≤ i ∧ i < naca + 0x18 then (be32 s)[i - (naca + 0x14)]?
      else if naca + 0x0c ≤ i ∧ i < naca + 0x10 then (be32 x)[i - (naca + 0x0c)]?
      else out[i]? := by
  have hx : naca + 0x0c + (be32 x).length ≤ out.length := by
    rw [be32_length]
    omega
  have hs : naca + 0x14 + (be32 s).length ≤ (patch out (naca + 0x0c) (be32 x)).length := by
    rw [be32_length, patch_length hx]
    omega
  rw [fillNaca, getElem?_patch hs, getElem?_patch hx, be32_length, be32_length]

theorem fillNaca_length (hroom : naca + 0x18 ≤ out.length) :
    (fillNaca out naca x s).length = out.length := by
  have hx : naca + 0x0c + (be32 x).length ≤ out.length := by
    rw [be32_length]
    omega
  rw [fillNaca, patch_length, patch_length hx]
  rw [be32_length, patch_length hx]
  omega

theorem get32_fillNaca (hroom : naca + 0x18 ≤ out.length) (hx : x < 2 ^ 32) (hs : s < 2 ^ 32) :
    get32 (fillNaca out naca x s) (naca + 0x0c) = some x ∧
      get32 (fillNaca out naca x s) (naca + 0x14) = some s := by
  constructor
  · refine get32_of_marker (markerAt_iff.mpr fun i hi => ?_) hx
    rw [be32_length] at hi
    rw [getElem?_fillNaca hroom, if_neg (by omega), if_pos (by omega), Nat.add_sub_cancel_left]
  · refine get32_of_marker (markerAt_iff.mpr fun i hi => ?_) hs
    rw [be32_length] at hi
    rw [getElem?_fillNaca hroom, if_pos (by omega), Nat.add_sub_cancel_left]

end Naca

/-! ## §4 The output -/

/-- A length in whole pages. -/
def roundPage (n : Nat) : Nat := (n + 4095) / 4096 * 4096

/-- The memory size that the kernel's first program header gives, if the header
    is among the bytes that are looked at. -/
def kernelMemsize (kernel : List UInt8) : Option Nat :=
  let phoff := field kernel 32 8
  if phoff + 56 ≤ 4096 then some (field kernel (phoff + 40) 8) else none

/-- Not one of the eight bytes of the two fields. -/
def NotInFields (naca i : Nat) : Prop :=
  ¬ (naca + 0x0c ≤ i ∧ i < naca + 0x10) ∧ ¬ (naca + 0x14 ≤ i ∧ i < naca + 0x18)

/-- The output is right: the kernel is there but for the two fields of the
    naca, the ramdisk with zeros behind it is what follows the place the naca
    gives, in as many pages, and that place is behind the kernel's memory. -/
def RamDiskPlaced (kernel ramdisk : List UInt8) (r : Attached) : Prop :=
  ∃ x s, get32 r.out (r.naca + 0x0c) = some x ∧ get32 r.out (r.naca + 0x14) = some s ∧
    (∀ i < kernel.length, NotInFields r.naca i → r.out[i]? = kernel[i]?) ∧
    ramdisk.length ≤ s * 4096 ∧
    r.out.drop (elfHeaderSize + x) =
      ramdisk ++ List.replicate (s * 4096 - ramdisk.length) 0 ∧
    ∃ m, kernelMemsize kernel = some m ∧ roundPage m ≤ x

/-- Where the ramdisk begins, behind the ELF header. -/
def ramDiskStart (kernelLen memsize : Nat) : Nat :=
  max (roundPage (kernelLen - elfHeaderSize)) (roundPage memsize)

/-- No byte but zeros is written into what begins at `start`. -/
def SparesRamDisk (start naca x s : Nat) : Prop :=
  ∀ j < 4, (start ≤ naca + 0x0c + j → (be32 x)[j]? = some 0) ∧
    (start ≤ naca + 0x14 + j → (be32 s)[j]? = some 0)

/-- The sizes fit: the kernel has its ELF header, file and memory end below
    4 GiB, the number of pages is one of 32 bits, the first program header is
    among the bytes that are looked at, and the naca is not in the ramdisk. -/
def RamDiskFits (kernel ramdisk : List UInt8) : Prop :=
  61440 < kernel.length ∧ kernel.length ≤ 2 ^ 32 + 61440 ∧ ramdisk.length < 2 ^ 44 - 4096 ∧
    ∃ m, kernelMemsize kernel = some m ∧ m ≤ 2 ^ 32 - 4096 ∧
      ∀ naca, findNaca (image kernel ramdisk m) = some naca →
        SparesRamDisk (elfHeaderSize + ramDiskStart kernel.length m) naca
          (ramDiskStart kernel.length m) (ramdisk.length / 4096 + 1)

section Output

variable {before : StackBefore} {kernel ramdisk : HostFile} {r : Attached}
  {out bytes : List UInt8} {naca p x s m memsize kernelLen : Nat}

theorem addRamDisk_some (h : addRamDisk before kernel ramdisk = some r) :
    ∃ memsize, 4096 ≤ kernel.val.length ∧
      checkElf64Memsize before (kernel.val.take 4096) = some memsize ∧
      findNaca (image kernel.val ramdisk.val memsize) = some r.naca ∧
      r.out = fillNaca (image kernel.val ramdisk.val memsize) r.naca
        (u32 (padAndEnd kernel.val.length memsize).2) (ramPages ramdisk.val.length) := by
  unfold addRamDisk at h
  simp only at h
  split at h
  · cases h
  next hpage =>
    split at h
    · cases h
    next memsize hcheck =>
      split at h
      · cases h
      next naca hnaca =>
        cases h
        rw [List.length_take] at hpage
        exact ⟨memsize, by omega, hcheck, hnaca, rfl⟩

theorem addRamDisk_of (hpage : 4096 ≤ kernel.val.length)
    (hcheck : checkElf64Memsize before (kernel.val.take 4096) = some memsize)
    (hnaca : findNaca (image kernel.val ramdisk.val memsize) = some naca) :
    addRamDisk before kernel ramdisk =
      some ⟨fillNaca (image kernel.val ramdisk.val memsize) naca
        (u32 (padAndEnd kernel.val.length memsize).2) (ramPages ramdisk.val.length), naca⟩ := by
  unfold addRamDisk
  dsimp only
  rw [if_neg (by rw [List.length_take]; omega), hcheck]
  dsimp only
  rw [hnaca]

theorem checkElf64Memsize_of {e : Nat} (helf : isElf .elf64 bytes = true)
    (hend : u64 (field bytes 32 8 + 56) = e) (hin : e ≤ 4096)
    (hmem : field (before.val ++ bytes) (e + 40) 8 = memsize) :
    checkElf64Memsize before bytes = some memsize := by
  subst hend
  unfold checkElf64Memsize
  rw [helf, if_neg (by decide)]
  dsimp only
  rw [if_neg (by omega), hmem]

theorem field_take {n off size : Nat} (h : off + size ≤ n) :
    field (bytes.take n) off size = field bytes off size := by
  rw [field, field, List.drop_take, List.take_take, Nat.min_eq_left (by omega)]

/-- Where the first program header is among the bytes that are looked at, its
    memory size is what the tool takes. -/
theorem checkElf64Memsize_eq (hcheck : checkElf64Memsize before (bytes.take 4096) = some memsize)
    (hm : kernelMemsize bytes = some m) : m = memsize := by
  simp only [kernelMemsize] at hm
  split at hm
  next hin =>
    simp only [checkElf64Memsize] at hcheck
    split at hcheck
    · cases hcheck
    · have hend : u64 (field (bytes.take 4096) 32 8 + 56) = field bytes 32 8 + 56 := by
        rw [field_take (by decide), u64, Nat.mod_eq_of_lt (by omega)]
      rw [hend] at hcheck
      split at hcheck
      · cases hcheck
      · have hmem : field (before.val ++ bytes.take 4096) (field bytes 32 8 + 56 + 40) 8 =
            field bytes (field bytes 32 8 + 40) 8 := by
          rw [field, List.drop_append, List.drop_eq_nil_of_le (by rw [before.property]; omega),
            List.nil_append, before.property,
            show field bytes 32 8 + 56 + 40 - 56 = field bytes 32 8 + 40 by omega]
          exact field_take (by omega)
        rw [hmem] at hcheck
        exact Option.some.inj (hm.symm.trans hcheck)
  · cases hm

/-- What is filled in leaves the rest of the file alone if the bytes that are
    written there are zeros, as those before them were. -/
theorem fillNaca_drop_iff (hnaca : findNaca out = some naca) :
    (fillNaca out naca x s).drop p = out.drop p ↔ SparesRamDisk p naca x s := by
  obtain ⟨hroom, hx, hs⟩ := findNaca_spec hnaca
  constructor
  · intro h j hj
    have hat : ∀ i, p ≤ i → (fillNaca out naca x s)[i]? = out[i]? := by
      intro i hi
      have hdrop := congrArg (fun l => l[i - p]?) h
      simp only [List.getElem?_drop] at hdrop
      rwa [Nat.add_sub_cancel' hi] at hdrop
    constructor
    · intro hp
      have hbyte := hat _ hp
      rwa [getElem?_fillNaca hroom, if_neg (by omega), if_pos (by omega), Nat.add_sub_cancel_left,
        get32_zero_bytes hx j hj] at hbyte
    · intro hp
      have hbyte := hat _ hp
      rwa [getElem?_fillNaca hroom, if_pos (by omega), Nat.add_sub_cancel_left,
        get32_zero_bytes hs j hj] at hbyte
  · intro h
    refine List.ext_getElem? fun i => ?_
    rw [List.getElem?_drop, List.getElem?_drop, getElem?_fillNaca hroom]
    split
    next hin =>
      obtain ⟨j, hj⟩ := Nat.exists_eq_add_of_le hin.1
      rw [hj, Nat.add_sub_cancel_left, get32_zero_bytes hs j (by omega)]
      exact (h j (by omega)).2 (by omega)
    · split
      next hin =>
        obtain ⟨j, hj⟩ := Nat.exists_eq_add_of_le hin.1
        rw [hj, Nat.add_sub_cancel_left, get32_zero_bytes hx j (by omega)]
        exact (h j (by omega)).1 (by omega)
      · rfl

/-- Where the sizes fit, the ramdisk begins behind both ends of the kernel. -/
theorem padAndEnd_fits (hlow : 61440 < kernelLen) (hhigh : kernelLen ≤ 2 ^ 32 + 61440)
    (hm : m ≤ 2 ^ 32 - 4096) :
    (padAndEnd kernelLen m).2 = ramDiskStart kernelLen m ∧ ramDiskStart kernelLen m < 2 ^ 32 := by
  obtain ⟨hmod, hlt, hroom, -⟩ := roundedKernelLen_spec (show kernelLen < 2 ^ 63 by omega)
  obtain ⟨hsum, hge, hor⟩ := padAndEnd_spec m (show kernelLen < 2 ^ 63 by omega)
  have hrounded : roundedKernelLen kernelLen = roundPage (kernelLen - elfHeaderSize) := by
    have hroom := hroom hlow
    simp only [roundPage, elfHeaderSize] at hroom ⊢
    omega
  have halign : alignUp m = roundPage m := by
    rw [alignUp, u64, Nat.mod_eq_of_lt (by omega), roundPage]
  rw [hrounded] at hsum hor
  rw [halign] at hge hor
  have hkernel : roundPage (kernelLen - elfHeaderSize) < 2 ^ 32 := by
    simp only [roundPage, elfHeaderSize]
    omega
  have hmem : roundPage m < 2 ^ 32 := by
    simp only [roundPage]
    omega
  rw [ramDiskStart]
  omega

/-- Only where the sizes fit can the output be right: the length of what
    follows the place recorded is that of the recorded pages. -/
theorem fits_of_placed (h : addRamDisk before kernel ramdisk = some r)
    (hplaced : RamDiskPlaced kernel.val ramdisk.val r) : RamDiskFits kernel.val ramdisk.val := by
  obtain ⟨memsize, hpage, hcheck, hnaca, hout⟩ := addRamDisk_some h
  obtain ⟨x, s, hx, hs, -, hfit, hdrop, m, hm, hmx⟩ := hplaced
  obtain rfl := checkElf64Memsize_eq hcheck hm
  have hklen := kernel.property
  have hrlen := ramdisk.property
  obtain ⟨hroom, hzero⟩ := findNaca_spec hnaca
  obtain ⟨hmod, -, hkernel, hsmall⟩ := roundedKernelLen_spec hklen
  obtain ⟨hsum, -, -⟩ := padAndEnd_spec m hklen
  have hlen := image_length ramdisk.val m hklen
  obtain ⟨hgetx, hgets⟩ := get32_fillNaca hroom
    (Nat.mod_lt (padAndEnd kernel.val.length m).2 (by decide : 0 < 2 ^ 32))
    (Nat.mod_lt (u64 (ramdisk.val.length + (4096 - ramdisk.val.length % 4096)) / 4096)
      (by decide : 0 < 2 ^ 32))
  have hx : u32 (padAndEnd kernel.val.length m).2 = x := by
    rw [hout] at hx
    exact Option.some.inj (hgetx.symm.trans hx)
  have hs : ramPages ramdisk.val.length = s := by
    rw [hout] at hs
    exact Option.some.inj (hgets.symm.trans hs)
  -- the ramdisk's pages are the end of the file, so the place is that of their beginning
  have hlengths := congrArg List.length hdrop
  rw [hout, List.length_drop, fillNaca_length hroom, hlen, List.length_append,
    List.length_replicate, hs] at hlengths
  have hlt : x < 2 ^ 32 := by
    rw [← hx]
    exact Nat.mod_lt _ (by decide)
  have hle : x ≤ (padAndEnd kernel.val.length m).2 := by
    rw [← hx]
    exact Nat.mod_le _ _
  have hstart : (padAndEnd kernel.val.length m).2 = x := by omega
  have hlow : 61440 < kernel.val.length := by
    by_contra hnot
    have hsmall := hsmall (by omega)
    omega
  have hhigh : kernel.val.length ≤ 2 ^ 32 + 61440 := by
    have hkernel := (hkernel hlow).1
    simp only [elfHeaderSize] at hkernel
    omega
  have hpages : ramdisk.val.length < 2 ^ 44 - 4096 := by
    rw [← hs] at hfit
    simp only [ramPages, u64, u32] at hfit
    omega
  have hmem : m ≤ 2 ^ 32 - 4096 := by
    simp only [roundPage] at hmx
    omega
  obtain ⟨hbegin, -⟩ := padAndEnd_fits hlow hhigh hmem
  obtain ⟨-, hcopy⟩ := copyPages_ramdisk hpages
  refine ⟨hlow, hhigh, hpages, m, hm, hmem, fun naca hat => ?_⟩
  obtain rfl : r.naca = naca := Option.some.inj (hnaca.symm.trans hat)
  have hsize : ramPages ramdisk.val.length = ramdisk.val.length / 4096 + 1 := by
    simp only [ramPages, u64, u32]
    omega
  rw [← hbegin, ← hsize]
  refine (fillNaca_drop_iff hnaca).mp ?_
  rw [image_drop hklen, hcopy, hs, ← hdrop, hout, hx, hstart, hs]

theorem placed_of_fits (h : addRamDisk before kernel ramdisk = some r)
    (hfits : RamDiskFits kernel.val ramdisk.val) : RamDiskPlaced kernel.val ramdisk.val r := by
  obtain ⟨memsize, hpage, hcheck, hnaca, hout⟩ := addRamDisk_some h
  obtain ⟨hlow, hhigh, hpages, m, hm, hmem, hspares⟩ := hfits
  obtain rfl := checkElf64Memsize_eq hcheck hm
  have hklen := kernel.property
  obtain ⟨hroom, hzero⟩ := findNaca_spec hnaca
  obtain ⟨hbegin, hlt⟩ := padAndEnd_fits hlow hhigh hmem
  have hsize : ramPages ramdisk.val.length = ramdisk.val.length / 4096 + 1 := by
    simp only [ramPages, u64, u32]
    omega
  obtain ⟨hfit, hcopy⟩ := copyPages_ramdisk hpages
  rw [hbegin, u32_of_lt hlt] at hout
  obtain ⟨hgetx, hgets⟩ := get32_fillNaca hroom hlt
    (show ramPages ramdisk.val.length < 2 ^ 32 by omega)
  refine ⟨_, _, by rw [hout]; exact hgetx, by rw [hout]; exact hgets, fun i hi hnot => ?_, hfit, ?_,
    m, hm, le_max_right _ _⟩
  · rw [hout, getElem?_fillNaca hroom, if_neg hnot.2, if_neg hnot.1,
      getElem?_image_kernel hklen hlow hi]
  · have hspares := hspares r.naca hnaca
    rw [← hsize] at hspares
    show r.out.drop (elfHeaderSize + ramDiskStart kernel.val.length m) = _
    rw [hout, (fillNaca_drop_iff hnaca).mpr hspares, ← hbegin, image_drop hklen, hcopy]

/-- **The ramdisk is where the naca says exactly if the sizes fit.** What does
    not fit is recorded all the same. -/
theorem addRamDisk_iff (before : StackBefore) (kernel ramdisk : HostFile) :
    (∀ r, addRamDisk before kernel ramdisk = some r → RamDiskPlaced kernel.val ramdisk.val r) ↔
      ((addRamDisk before kernel ramdisk).isSome → RamDiskFits kernel.val ramdisk.val) := by
  constructor
  · intro hall haccepted
    obtain ⟨r, hr⟩ := Option.isSome_iff_exists.mp haccepted
    exact fits_of_placed hr (hall r hr)
  · intro hfits r hr
    exact placed_of_fits hr (hfits (by rw [hr]; rfl))

/-! ### A kernel of 4 GiB of memory -/

/-- An `Elf64_Ehdr` and an `Elf64_Phdr` whose memory size is 4 GiB. -/
def largeHeader : List UInt8 :=
  [0x7f, 0x45, 0x4c, 0x46, 2, 2, 1] ++ List.replicate 9 0 ++ [0, 2, 0, 21] ++
    List.replicate 19 0 ++ [64] ++ List.replicate 24 0 ++
    (List.replicate 43 0 ++ [1] ++ List.replicate 12 0)

/-- The first page of a kernel, with an `hvReleaseData` and a naca. -/
def firstPage : List UInt8 :=
  List.replicate 0x24 0 ++ [0, 0, 0, 0x40] ++ List.replicate 24 0 ++ eyeCatcher ++
    List.replicate 8 0 ++ [0, 0, 0, 0x80] ++ List.replicate 0x30 0

/-- A kernel of two parts of 64K and of a page. -/
def largeKernel : HostFile :=
  ⟨(largeHeader ++ List.replicate (65536 - 120) 0) ++
    (firstPage ++ List.replicate (4096 - 128) 0), by
    simp only [List.length_append, List.length_replicate, largeHeader, firstPage, eyeCatcher]
    decide⟩

theorem largeKernel_length : largeKernel.val.length = 69632 := by
  simp only [largeKernel, List.length_append, List.length_replicate, largeHeader, firstPage,
    eyeCatcher]
  rfl

theorem getElem?_largeKernel (i : Nat) :
    largeKernel.val[65536 + i]? = (firstPage ++ List.replicate (4096 - 128) 0)[i]? := by
  have hfront : (largeHeader ++ List.replicate (65536 - 120) (0 : UInt8)).length = 65536 := by
    rw [List.length_append, List.length_replicate]
    rfl
  rw [largeKernel, List.getElem?_append_right (by omega), hfront, Nat.add_sub_cancel_left]

theorem findNaca_largeKernel (memsize : Nat) :
    findNaca (image largeKernel.val [] memsize) = some 65664 := by
  have hlen := image_length [] memsize largeKernel.property
  have hroom : 69632 ≤ (image largeKernel.val [] memsize).length := by
    obtain ⟨-, -, hrounded, -⟩ := roundedKernelLen_spec largeKernel.property
    have hspec := (padAndEnd_spec memsize largeKernel.property).1
    have hrounded := (hrounded (by rw [largeKernel_length]; decide)).1
    rw [hspec] at hlen
    rw [largeKernel_length] at hrounded hlen
    omega
  have hbyte : ∀ i < 4096, (image largeKernel.val [] memsize)[65536 + i]? =
      (firstPage ++ List.replicate (4096 - 128) 0)[i]? := by
    intro i hi
    rw [getElem?_image_kernel largeKernel.property (by rw [largeKernel_length]; decide)
      (by rw [largeKernel_length]; omega), getElem?_largeKernel]
  generalize image largeKernel.val [] memsize = out at hroom hbyte
  have hword : ∀ i, i + 4 ≤ 4096 →
      get32 out (65536 + i) = get32 (firstPage ++ List.replicate (4096 - 128) 0) i := by
    intro i hi
    simp only [get32, get16, Nat.add_assoc]
    rw [hbyte _ (by omega), hbyte _ (by omega), hbyte _ (by omega), hbyte _ (by omega)]
  have hpointer : get32 out (elfHeaderSize + 0x24) = some 0x40 := (hword 0x24 (by decide)).trans rfl
  have hmarker : MarkerAt eyeCatcher out 65600 := by
    refine markerAt_iff.mpr fun i hi => ?_
    have hi : i < 4 := hi
    rw [show 65600 + i = 65536 + (64 + i) by omega, hbyte _ (by omega)]
    interval_cases i
    · rfl
    · rfl
    · rfl
    · rfl
  have hnaca : get32 out (65600 + 0x0c) = some 0x80 := (hword 0x4c (by decide)).trans rfl
  have hzero : get32 out (65664 + 0x0c) = some 0 ∧ get32 out (65664 + 0x14) = some 0 :=
    ⟨(hword 0x8c (by decide)).trans rfl, (hword 0x94 (by decide)).trans rfl⟩
  have hhv : u32 (elfHeaderSize + 0x40) = 65600 := u32_of_lt (by decide : 65600 < 2 ^ 32)
  have hplace : u32 (elfHeaderSize + 0x80) = 65664 := u32_of_lt (by decide : 65664 < 2 ^ 32)
  exact findNaca_of hpointer hhv (by omega) hmarker hnaca hplace (by omega) hzero

def zeroStack : StackBefore := ⟨List.replicate 56 0, List.length_replicate⟩

def emptyRamDisk : HostFile := ⟨[], by decide⟩

/-- The kernel is accepted and the ramdisk's place is recorded as 0. -/
theorem largeKernel_misplaced :
    ∃ r, addRamDisk zeroStack largeKernel emptyRamDisk = some r ∧
      ¬ RamDiskPlaced largeKernel.val emptyRamDisk.val r := by
  have hcheck : checkElf64Memsize zeroStack (largeKernel.val.take 4096) = some 4294967296 := by
    have hphoff : field (largeKernel.val.take 4096) 32 8 = 64 := by decide +kernel
    have hend : u64 (field (largeKernel.val.take 4096) 32 8 + 56) = 120 := by
      rw [hphoff]
      exact u64_of_lt (by decide)
    exact checkElf64Memsize_of (by decide +kernel) hend (by decide) (by decide +kernel)
  have haccepted : addRamDisk zeroStack largeKernel emptyRamDisk = some _ :=
    addRamDisk_of (by rw [largeKernel_length]; decide) hcheck (findNaca_largeKernel _)
  refine ⟨_, haccepted, fun hplaced => ?_⟩
  obtain ⟨-, -, -, m, hm, hmem, -⟩ := fits_of_placed haccepted hplaced
  have hsize : kernelMemsize largeKernel.val = some 4294967296 := by decide +kernel
  rw [hsize] at hm
  cases hm
  omega

end Output

end LiloBoot.ZImage
