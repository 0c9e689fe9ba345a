/-
LiloBoot.ZImage.AddSystemMapTheorems — where the System.map ends up.

The System.map begins at a page, the offset that is stored is the address of
`_end` itself. The two are one where the kernel's file is larger than the
address or the address is that of a page (§3); a System.map is never found
twice, a few bytes apart, with zeros behind it (§1).
-/
import LiloBoot.ZImage.AddSystemMap
import LiloBoot.ZImage.AddRamDiskTheorems

namespace LiloBoot.ZImage

/-! ## §1 The System.map -/

/-- A text that is found again a few places behind its beginning, with zeros
    behind it, has nothing but zeros. -/
theorem zeros_of_shifted {l : List UInt8} {d k : Nat} (hd : 0 < d)
    (h : ((l ++ List.replicate k 0).drop d).take l.length = l) : ∀ c ∈ l, c = 0 := by
  -- from the end of the text on: each byte is the one `d` places behind it
  have hall : ∀ n i, l.length - i ≤ n → i < l.length → l[i]? = some 0 := by
    intro n
    induction n with
    | zero =>
      intro i hn hi
      omega
    | succ n ih =>
      intro i hn hi
      have hbyte := congrArg (fun l => l[i]?) h
      simp only [List.getElem?_take, if_pos hi, List.getElem?_drop] at hbyte
      by_cases hin : d + i < l.length
      · rw [List.getElem?_append_left hin, ih (d + i) (by omega) hin] at hbyte
        exact hbyte.symm
      · rw [List.getElem?_append_right (by omega), List.getElem?_replicate,
          List.getElem?_eq_getElem hi] at hbyte
        split at hbyte
        · rw [List.getElem?_eq_getElem hi]
          exact hbyte.symm
        · cases hbyte
  intro c hc
  obtain ⟨i, hi, rfl⟩ := List.mem_iff_getElem.mp hc
  have hzero := hall l.length i (by omega) hi
  rw [List.getElem?_eq_getElem hi] at hzero
  exact Option.some.inj hzero

theorem lastLine_subset (text : List UInt8) : ∀ c ∈ lastLine text, c ∈ text := by
  intro c hc
  rw [lastLine] at hc
  have hbody := List.mem_reverse.mp ((List.takeWhile_prefix _).subset (List.mem_reverse.mp hc))
  split at hbody
  · exact List.mem_of_mem_dropLast hbody
  · exact hbody

theorem SystemMap.not_zeros (sysmap : SystemMap) : ¬ ∀ c ∈ sysmap.val, c = 0 := by
  intro hzero
  have hline : (0x5f : UInt8) ∈ lastLine sysmap.val :=
    sysmap.property.2.subset (by decide : (0x5f : UInt8) ∈ endSymbol)
  exact absurd (hzero _ (lastLine_subset _ _ hline)) (by decide)

theorem sysmapPages_eq {len : Nat} (h : len < 2 ^ 63) : sysmapPages len = len / 4096 + 1 := by
  rw [sysmapPages, u64_of_lt (by omega)]
  omega

theorem sysmapEnd_lt {front : StackInFront} {sysmap : List UInt8} {address : Nat}
    (h : sysmapEnd front sysmap = some address) : address < 2 ^ 32 := by
  rw [sysmapEnd] at h
  obtain ⟨pos, -, rfl⟩ := Option.map_eq_some_iff.mp h
  omega

/-! ## §2 The layout -/

section Layout

variable {kernel sysmap page rest : List UInt8} {start end' pad n address : Nat}

theorem be64_length (v : Nat) : (be64 v).length = 8 := rfl

/-- Eight bytes from 0x3c and from 0x44 on. -/
theorem storeOffsets_spec (hpage : 0x4c ≤ page.length) :
    (storeOffsets start end' page).length = page.length ∧
      MarkerAt (be64 start) (storeOffsets start end' page) 0x3c ∧
      MarkerAt (be64 end') (storeOffsets start end' page) 0x44 ∧
      ∀ i, i < 0x3c ∨ 0x4c ≤ i → (storeOffsets start end' page)[i]? = page[i]? := by
  obtain ⟨hlen, hfound, hrest⟩ := @patches_apart _ page
    [(0x3c, be64 start), (0x44, be64 end')]
    (by
      simp only [List.forall_mem_cons, be64_length, List.not_mem_nil, false_implies, implies_true,
        and_true]
      omega)
    (by
      rw [List.pairwise_cons]
      refine ⟨fun w hw => ?_, List.pairwise_singleton _ _⟩
      rw [List.mem_singleton.mp hw]
      exact Or.inl (by rw [be64_length]))
  refine ⟨hlen, hfound (0x3c, be64 start) List.mem_cons_self,
    hfound (0x44, be64 end') (List.mem_cons_of_mem _ List.mem_cons_self), fun i hi => ?_⟩
  refine hrest i ?_
  simp only [List.forall_mem_cons, be64_length, List.not_mem_nil, false_implies, implies_true,
    and_true]
  omega

theorem storeOffsets_append (hpage : 0x4c ≤ page.length) :
    storeOffsets start end' (page ++ rest) = storeOffsets start end' page ++ rest := by
  have hfirst : 0x3c + (be64 start).length ≤ page.length := by
    rw [be64_length]
    omega
  rw [storeOffsets, storeOffsets, patch_append hfirst, patch_append]
  rw [patch_length hfirst, be64_length]
  omega

/-- The loop over the kernel's pages stores the offsets in what it copies. -/
theorem copyKernel_eq (hn : 0 < n) : copyKernel start end' kernel n =
    storeOffsets start end' (copyPages kernel n elfHeaderSize) := by
  cases n with
  | zero => omega
  | succ n =>
    rw [copyKernel, copyPages, storeOffsets_append]
    rw [get4k_length]
    decide

theorem copyKernel_length (n : Nat) : (copyKernel start end' kernel n).length = n * 4096 := by
  cases n with
  | zero => rfl
  | succ n =>
    rw [copyKernel_eq (Nat.succ_pos n), (storeOffsets_spec _).1, copyPages_length]
    rw [copyPages_length]
    omega

theorem embed_length (hlen : kernel.length < 2 ^ 63) :
    (embed kernel sysmap start end' pad).length =
      elfHeaderSize + roundedKernelLen kernel.length + pad * 4096 +
        sysmapPages sysmap.length * 4096 := by
  obtain ⟨hmod, -⟩ := roundedKernelLen_spec hlen
  rw [embed, List.length_append, List.length_append, List.length_append, copyPages_length,
    copyKernel_length, copyPages_length, zeroPages, List.length_replicate]
  simp only [elfPages, elfHeaderSize]
  omega

/-- The System.map's pages end the file. -/
theorem embed_drop (hlen : kernel.length < 2 ^ 63) :
    (embed kernel sysmap start end' pad).drop
        (elfHeaderSize + roundedKernelLen kernel.length + pad * 4096) =
      copyPages sysmap (sysmapPages sysmap.length) 0 := by
  have hfront : (copyPages kernel elfPages 0 ++
      copyKernel start end' kernel (roundedKernelLen kernel.length / 4096) ++
      zeroPages pad).length = elfHeaderSize + roundedKernelLen kernel.length + pad * 4096 := by
    have hall : (embed kernel sysmap start end' pad).length = _ := embed_length hlen
    rw [embed, List.length_append, copyPages_length] at hall
    omega
  rw [embed, List.drop_left' hfront]

theorem getElem?_embed_page {j : Nat} (hj : j < roundedKernelLen kernel.length / 4096 * 4096) :
    (embed kernel sysmap start end' pad)[elfHeaderSize + j]? =
      (storeOffsets start end'
        (copyPages kernel (roundedKernelLen kernel.length / 4096) elfHeaderSize))[j]? := by
  have hfront : (copyPages kernel elfPages 0).length = elfHeaderSize := by
    rw [copyPages_length]
    rfl
  rw [embed, List.append_assoc, List.append_assoc, List.getElem?_append_right (by omega), hfront,
    Nat.add_sub_cancel_left, List.getElem?_append_left (by rw [copyKernel_length]; exact hj),
    copyKernel_eq (by omega)]

/-- A kernel of more than its header has the offsets in its first page and is
    otherwise what it was. -/
theorem embed_kernel (hlen : kernel.length < 2 ^ 63) (hlow : elfHeaderSize < kernel.length) :
    MarkerAt (be64 start) (embed kernel sysmap start end' pad) (elfHeaderSize + 0x3c) ∧
      MarkerAt (be64 end') (embed kernel sysmap start end' pad) (elfHeaderSize + 0x44) ∧
      ∀ i < kernel.length, i < elfHeaderSize + 0x3c ∨ elfHeaderSize + 0x4c ≤ i →
        (embed kernel sysmap start end' pad)[i]? = kernel[i]? := by
  obtain ⟨hmod, -, hroom, -⟩ := roundedKernelLen_spec hlen
  have hroom := (hroom (by rw [elfHeaderSize] at hlow; omega)).1
  have hpages : roundedKernelLen kernel.length / 4096 * 4096 = roundedKernelLen kernel.length := by
    omega
  have hfirst : 0x4c ≤ (copyPages kernel (roundedKernelLen kernel.length / 4096)
      elfHeaderSize).length := by
    rw [copyPages_length]
    omega
  obtain ⟨-, hstart, hend, hrest⟩ := @storeOffsets_spec _ start end' hfirst
  have hcopied : ∀ i, i < kernel.length → some (kernel.getD i 0) = kernel[i]? := by
    intro i hi
    rw [List.getD_eq_getElem?_getD, List.getElem?_eq_getElem hi]
    rfl
  refine ⟨markerAt_iff.mpr fun i hi => ?_, markerAt_iff.mpr fun i hi => ?_, fun i hi hnot => ?_⟩
  · rw [be64_length] at hi
    rw [Nat.add_assoc, getElem?_embed_page (by omega)]
    exact markerAt_iff.mp hstart i hi
  · rw [be64_length] at hi
    rw [Nat.add_assoc, getElem?_embed_page (by omega)]
    exact markerAt_iff.mp hend i hi
  · rw [← hcopied i hi]
    by_cases hheader : i < elfHeaderSize
    · have hin : i < elfPages * 4096 := hheader
      rw [embed, List.append_assoc, List.append_assoc,
        List.getElem?_append_left (by rw [copyPages_length]; exact hin), getElem?_copyPages hin,
        Nat.zero_add]
    · obtain ⟨j, rfl⟩ := Nat.exists_eq_add_of_le (Nat.le_of_not_lt hheader)
      rw [getElem?_embed_page (by omega), hrest j (by omega), getElem?_copyPages (by omega)]

/-- The System.map begins at the first page behind the kernel's file that is
    not below the address's. -/
theorem padAndStart_spec (hlen : kernel.length < 2 ^ 63) (haddress : address < 2 ^ 32) :
    padAndStart kernel.length address =
      if address < roundedKernelLen kernel.length then (0, roundedKernelLen kernel.length)
      else (address / 4096 - roundedKernelLen kernel.length / 4096, address) := by
  obtain ⟨hmod, hlt, -, -⟩ := roundedKernelLen_spec hlen
  rw [padAndStart]
  generalize roundedKernelLen kernel.length = rounded at hmod hlt ⊢
  have hpad : sub64 (address / 4096) (rounded / 4096) =
      if rounded ≤ address then address / 4096 - rounded / 4096
      else 2 ^ 64 - (rounded / 4096 - address / 4096) := by
    simp only [sub64, u64]
    by_cases h : rounded ≤ address
    · rw [if_pos h]
      omega
    · rw [if_neg h]
      omega
  by_cases h : address < rounded
  · rw [if_neg (by omega)] at hpad
    simp only [hpad]
    rw [if_pos (by omega), if_pos h]
  · rw [if_pos (by omega)] at hpad
    simp only [hpad]
    rw [if_neg (by omega), if_neg h]

end Layout

/-! ## §3 The output -/

/-- The output is right: the first page has two offsets, behind the ELF header
    they are the ends of the System.map's bytes, and the kernel is otherwise
    what it was. The output is a file, shorter than the largest `long`. -/
def SysmapPlaced (kernel sysmap : List UInt8) (r : Embedded) : Prop :=
  ∃ a b, r.stored = some (a, b) ∧ MarkerAt (be64 a) r.out (elfHeaderSize + 0x3c) ∧
    MarkerAt (be64 b) r.out (elfHeaderSize + 0x44) ∧ b = a + sysmap.length ∧
    (r.out.drop (elfHeaderSize + a)).take sysmap.length = sysmap ∧
    (∀ i < kernel.length, i < elfHeaderSize + 0x3c ∨ elfHeaderSize + 0x4c ≤ i →
      r.out[i]? = kernel[i]?) ∧
    r.out.length < 2 ^ 63

/-- The kernel is more than its ELF header, the address that the System.map
    gives to `_end` is below the end of the kernel's file or that of a page,
    and all of it makes a file. -/
def SysmapFits (front : StackInFront) (kernel sysmap : List UInt8) : Prop :=
  elfHeaderSize < kernel.length ∧ ∃ address, sysmapEnd front sysmap = some address ∧
    (address < roundPage (kernel.length - elfHeaderSize) ∨ address % 4096 = 0) ∧
    elfHeaderSize + max (roundPage (kernel.length - elfHeaderSize)) address +
      (sysmap.length / 4096 + 1) * 4096 < 2 ^ 63

section Output

variable {front : StackInFront} {kernel : HostFile} {sysmap : SystemMap} {r : Embedded}

theorem roundedKernelLen_eq {kernelLen : Nat} (hlen : kernelLen < 2 ^ 63)
    (hlow : elfHeaderSize < kernelLen) :
    roundedKernelLen kernelLen = roundPage (kernelLen - elfHeaderSize) ∧
      4096 ≤ roundPage (kernelLen - elfHeaderSize) := by
  obtain ⟨hmod, -, hroom, -⟩ := roundedKernelLen_spec hlen
  simp only [elfHeaderSize] at hroom hlow
  have hroom := hroom (by omega)
  simp only [roundPage, elfHeaderSize]
  omega

theorem addSystemMap_some (h : addSystemMap front kernel sysmap = some r) :
    ∃ address, sysmapEnd front sysmap.val = some address ∧
      r.out = embed kernel.val sysmap.val (padAndStart kernel.val.length address).2
        (u64 ((padAndStart kernel.val.length address).2 + sysmap.val.length))
        (padAndStart kernel.val.length address).1 ∧
      r.stored = if 0 < roundedKernelLen kernel.val.length / 4096 then
        some ((padAndStart kernel.val.length address).2,
          u64 ((padAndStart kernel.val.length address).2 + sysmap.val.length)) else none := by
  unfold addSystemMap at h
  split at h
  · cases h
  · obtain ⟨address, haddress, rfl⟩ := Option.map_eq_some_iff.mp h
    exact ⟨address, haddress, rfl, rfl⟩

theorem fits_of_sysmapPlaced (h : addSystemMap front kernel sysmap = some r)
    (hplaced : SysmapPlaced kernel.val sysmap.val r) : SysmapFits front kernel.val sysmap.val := by
  obtain ⟨address, haddress, hout, hstored⟩ := addSystemMap_some h
  obtain ⟨a, b, hab, -, -, hb, hfound, -, hfile⟩ := hplaced
  have hklen := kernel.property
  have hslen := sysmap.property.1
  obtain ⟨hmod, -, hroom, hsmall⟩ := roundedKernelLen_spec hklen
  have haddr := sysmapEnd_lt haddress
  have hspec := padAndStart_spec hklen haddr
  rw [hout, embed_length hklen, sysmapPages_eq hslen] at hfile
  have hstart : 0 < roundedKernelLen kernel.val.length / 4096 ∧
      a = (padAndStart kernel.val.length address).2 := by
    rw [hstored] at hab
    split at hab
    next hpages =>
      cases hab
      exact ⟨hpages, rfl⟩
    · cases hab
  have hlow : elfHeaderSize < kernel.val.length := by
    by_contra hnot
    simp only [elfHeaderSize] at hnot hroom
    by_cases hhigh : 61440 < kernel.val.length
    · have hroom := hroom hhigh
      omega
    · have hsmall := hsmall (by omega)
      omega
  obtain ⟨hrounded, hfirst⟩ := roundedKernelLen_eq hklen hlow
  rw [hrounded] at hspec hfile hmod
  have hfits : address < roundPage (kernel.val.length - elfHeaderSize) ∨ address % 4096 = 0 := by
    by_contra hnot
    rw [not_or] at hnot
    rw [if_neg hnot.1] at hspec
    -- the place is that of the address's page, the offset is behind it
    have hpad : (padAndStart kernel.val.length address).1 =
        address / 4096 - roundPage (kernel.val.length - elfHeaderSize) / 4096 := by rw [hspec]
    have hoffset : (padAndStart kernel.val.length address).2 = address := by rw [hspec]
    have hbegin : elfHeaderSize + a = elfHeaderSize + roundedKernelLen kernel.val.length +
        (padAndStart kernel.val.length address).1 * 4096 + address % 4096 := by
      rw [hstart.2, hrounded, hpad, hoffset]
      omega
    rw [hbegin, ← List.drop_drop, hout, embed_drop hklen, sysmapPages_eq hslen,
      copyPages_whole (by omega)] at hfound
    exact sysmap.not_zeros (zeros_of_shifted (by omega) hfound)
  refine ⟨hlow, address, haddress, hfits, ?_⟩
  split at hspec
  next hbelow =>
    have hpad : (padAndStart kernel.val.length address).1 = 0 := by rw [hspec]
    rw [hpad, Nat.zero_mul, Nat.add_zero] at hfile
    rw [max_eq_left (Nat.le_of_lt hbelow)]
    exact hfile
  next hbelow =>
    have hpad : (padAndStart kernel.val.length address).1 =
        address / 4096 - roundPage (kernel.val.length - elfHeaderSize) / 4096 := by rw [hspec]
    rw [hpad] at hfile
    rw [max_eq_right (Nat.le_of_not_lt hbelow)]
    omega

theorem sysmapPlaced_of_fits (hfits : SysmapFits front kernel.val sysmap.val) :
    ∃ r, addSystemMap front kernel sysmap = some r ∧ SysmapPlaced kernel.val sysmap.val r := by
  obtain ⟨hlow, address, haddress, hor, hfile⟩ := hfits
  have hklen := kernel.property
  have hslen := sysmap.property.1
  have hspec := padAndStart_spec hklen (sysmapEnd_lt haddress)
  obtain ⟨hmod, -⟩ := roundedKernelLen_spec hklen
  obtain ⟨hrounded, hfirst⟩ := roundedKernelLen_eq hklen hlow
  rw [hrounded] at hspec hmod
  -- the offset is that of the page where the System.map begins
  have hplace : elfHeaderSize + (padAndStart kernel.val.length address).2 =
      elfHeaderSize + roundedKernelLen kernel.val.length +
        (padAndStart kernel.val.length address).1 * 4096 ∧
      (padAndStart kernel.val.length address).2 =
        max (roundPage (kernel.val.length - elfHeaderSize)) address := by
    split at hspec
    next hbelow =>
      rw [hspec, hrounded, Nat.zero_mul, Nat.add_zero]
      exact ⟨rfl, (max_eq_left (Nat.le_of_lt hbelow)).symm⟩
    next hbelow =>
      have hpage : address % 4096 = 0 := hor.resolve_left hbelow
      have hpad : (padAndStart kernel.val.length address).1 =
          address / 4096 - roundPage (kernel.val.length - elfHeaderSize) / 4096 := by rw [hspec]
      have hoffset : (padAndStart kernel.val.length address).2 = address := by rw [hspec]
      rw [hoffset, hpad, hrounded]
      exact ⟨by omega, (max_eq_right (Nat.le_of_not_lt hbelow)).symm⟩
  obtain ⟨hplace, hoffset⟩ := hplace
  rw [← hoffset] at hfile
  have hend : u64 ((padAndStart kernel.val.length address).2 + sysmap.val.length) =
      (padAndStart kernel.val.length address).2 + sysmap.val.length := u64_of_lt (by omega)
  have haccepted : addSystemMap front kernel sysmap = some
      { out := embed kernel.val sysmap.val (padAndStart kernel.val.length address).2
          (u64 ((padAndStart kernel.val.length address).2 + sysmap.val.length))
          (padAndStart kernel.val.length address).1,
        stored := if 0 < roundedKernelLen kernel.val.length / 4096 then
          some ((padAndStart kernel.val.length address).2,
            u64 ((padAndStart kernel.val.length address).2 + sysmap.val.length)) else none } := by
    unfold addSystemMap
    rw [if_neg (by omega), haddress]
    rfl
  obtain ⟨hstart, hstop, hkernel⟩ := embed_kernel hklen hlow
  refine ⟨_, haccepted, _, _, if_pos (by rw [hrounded]; omega), hstart, hstop, hend, ?_, hkernel, ?_⟩
  · dsimp only
    rw [hplace, embed_drop hklen, sysmapPages_eq hslen, copyPages_whole (by omega),
      List.take_left' rfl]
  · dsimp only
    rw [embed_length hklen, ← hplace, sysmapPages_eq hslen]
    exact hfile

/-- **The stored offsets are the System.map's exactly if the sizes fit.** An
    address inside a page behind the kernel's file is stored as it is. -/
theorem addSystemMap_iff (front : StackInFront) (kernel : HostFile) (sysmap : SystemMap) :
    (∃ r, addSystemMap front kernel sysmap = some r ∧ SysmapPlaced kernel.val sysmap.val r) ↔
      SysmapFits front kernel.val sysmap.val := by
  constructor
  · rintro ⟨r, hr, hplaced⟩
    exact fits_of_sysmapPlaced hr hplaced
  · exact sysmapPlaced_of_fits

/-- `00001800 A _end`. -/
def insidePage : SystemMap :=
  ⟨[0x30, 0x30, 0x30, 0x30, 0x31, 0x38, 0x30, 0x30, 0x20, 0x41, 0x20, 0x5f, 0x65, 0x6e, 0x64, 0x0a],
    by decide, by decide⟩

/-- A kernel of its ELF header and a page. -/
def onePageKernel : HostFile := ⟨List.replicate 69632 0, by rw [List.length_replicate]; decide⟩

def zeroFront : StackInFront := ⟨List.replicate 10 0, List.length_replicate⟩

/-- The System.map is at 0x1000, what is stored is 0x1800. -/
theorem insidePage_misplaced :
    ¬ ∃ r, addSystemMap zeroFront onePageKernel insidePage = some r ∧
      SysmapPlaced onePageKernel.val insidePage.val r := by
  rintro ⟨r, hr, hplaced⟩
  obtain ⟨-, address, haddress, hor, -⟩ := fits_of_sysmapPlaced hr hplaced
  have hread : lastRead [] insidePage.val = insidePage.val := by
    rw [lastRead, dif_neg (by decide), lastRead, dif_pos (by decide)]
    decide
  have hend : sysmapEnd zeroFront insidePage.val = some 0x1800 := by
    rw [sysmapEnd, hread]
    decide +kernel
  have hlength : onePageKernel.val.length = 69632 := List.length_replicate
  rw [hend] at haddress
  cases haddress
  rw [hlength] at hor
  exact absurd hor (by decide)

end Output

end LiloBoot.ZImage
