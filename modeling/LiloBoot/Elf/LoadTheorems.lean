/-
LiloBoot.Elf.LoadTheorems — when a loaded kernel stays inside its memory chunk.

The loaders size the chunk after one segment and place every segment by its
distance from that one, so the bytes of another segment can land anywhere.
`loadElf_staysInside_iff` gives the exact condition on the headers of the file:
every segment, and the entry point if it lies in a segment, is close enough
behind the segment the size was taken from. `ascending32_leaves` is an ordinary
two-segment ELF32 kernel that fails it.
-/
import LiloBoot.Elf.Load

namespace LiloBoot.Elf

/-! ## §1 What the file says -/

/-- The ELF header of a file. -/
def BootFile.ehdr (file : BootFile) (c : ElfClass) : Ehdr :=
  c.ehdr (file.content.take c.ehdrSize)

/-- The program headers of a file. -/
def BootFile.phdrs (file : BootFile) (c : ElfClass) : List Phdr :=
  let e := file.ehdr c
  Elf.phdrs c (file.read e.ePhoff (c.phdrSize * e.ePhnum % 2 ^ 32).toNat) e.ePhnum.toNat

/-- The segments the loaders load. -/
def BootFile.segments (file : BootFile) (c : ElfClass) : List Phdr :=
  (file.phdrs c).filter loadable

/-- The segment that the size of the chunk is taken from: the last one of an ELF32
file and the first one of an ELF64 file. -/
def sizing : ElfClass → List Phdr → Option Phdr
  | .elf32, segments => segments.getLast?
  | .elf64, segments => segments.head?

/-- How far behind the start of `s` an address lies, in the 32-bit address circle. -/
def distance (s : Phdr) (vaddr : Nat) : Nat := sub32 (u32 vaddr) (u32 s.pVaddr)

/-- The size of the chunk claimed after `s`. -/
def room (s : Phdr) : Nat := u32 (align1M (u32 s.pMemsz) + 0x100000)

/-- The file bytes of `p` end within the room behind the start of `s`. -/
def Phdr.FitsBehind (s p : Phdr) : Prop :=
  u32 p.pFilesz = 0 ∨ distance s p.pVaddr + u32 p.pFilesz ≤ room s

/-- `addr` is an address of the segment `p`. -/
def Phdr.Covers (p : Phdr) (addr : Nat) : Prop := p.pVaddr ≤ addr ∧ addr < p.pVaddr + p.pMemsz

instance (s p : Phdr) : Decidable (s.FitsBehind p) :=
  inferInstanceAs (Decidable (_ ∨ _))

instance (p : Phdr) (addr : Nat) : Decidable (p.Covers addr) :=
  inferInstanceAs (Decidable (_ ∧ _))

/-- All segments fit behind `s`, and so does an entry point that lies in one of them. -/
def FitsBehind (s : Phdr) (segments : List Phdr) (entry : Nat) : Prop :=
  (∀ p ∈ segments, s.FitsBehind p)
    ∧ ((∃ p ∈ segments, p.Covers entry) → distance s entry < room s)

instance (s : Phdr) (segments : List Phdr) (entry : Nat) :
    Decidable (FitsBehind s segments entry) :=
  inferInstanceAs (Decidable ((∀ p ∈ segments, s.FitsBehind p) ∧ ((∃ p ∈ segments, _) → _)))

/-- An address of the chunk. -/
def LoadInfo.Contains (li : LoadInfo) (addr : Nat) : Prop :=
  li.base ≤ addr ∧ addr < li.base + li.memsize

/-- Every byte was stored in the chunk, and the kernel is entered in the chunk if
`e_entry` lies in a segment. -/
def StaysInside (segments : List Phdr) (entry : Nat) (li : LoadInfo) (writes : List Write) :
    Prop :=
  (∀ w ∈ writes, ∀ i < w.bytes.length, li.Contains (u32 (w.addr + i)))
    ∧ ((∃ p ∈ segments, p.Covers entry) → li.Contains (kernelEntry li))

/-- The firmware claims memory that exists: a chunk ends within the address space. -/
def ClaimsMemory (claim : Nat → Nat → Option Nat) : Prop :=
  ∀ addr size base, claim addr size = some base → base + size ≤ 2 ^ 32

/-! ## §2 The scan and the copy loop -/

/-- The `loadinfo` with a segment's numbers in it. -/
def LoadInfo.sized (li : LoadInfo) (s : Phdr) : LoadInfo :=
  { li with
    offset := u32 s.pOffset
    memsize := u32 s.pMemsz
    filesize := u32 s.pFilesz
    loadLoc := u32 s.pVaddr }

theorem scan_first (li : LoadInfo) (ph : List Phdr) :
    scan true li ph = ((ph.filter loadable).head?.map li.sized).getD li := by
  induction ph with
  | nil => rfl
  | cons p rest ih =>
    cases h : loadable p with
    | true => simp [scan, h, LoadInfo.sized]
    | false => simp [scan, h, ih]

theorem scan_last (li : LoadInfo) (ph : List Phdr) :
    scan false li ph = ((ph.filter loadable).getLast?.map li.sized).getD li := by
  induction ph generalizing li with
  | nil => rfl
  | cons p rest ih =>
    cases h : loadable p with
    | true =>
      simp only [scan, h, Bool.not_true, Bool.false_eq_true, if_false, List.filter_cons, if_true,
        List.getLast?_cons]
      rw [ih]
      -- a later segment overwrites all that this one has set
      cases (rest.filter loadable).getLast? with
      | none => rfl
      | some s => rfl
    | false => simp [scan, h, ih]

theorem scan_eq (c : ElfClass) (li : LoadInfo) (ph : List Phdr) :
    scan c.scanBreaks li ph = ((sizing c (ph.filter loadable)).map li.sized).getD li := by
  cases c with
  | elf32 => exact scan_last li ph
  | elf64 => exact scan_first li ph

/-- What the copy loop stores for one segment. -/
def segmentWrite (file : BootFile) (li : LoadInfo) (p : Phdr) : Write :=
  ⟨u32 (li.base + sub32 (u32 p.pVaddr) li.loadLoc), file.read p.pOffset (u32 p.pFilesz)⟩

/-- A full read is `p_filesz` bytes long, modulo the type of the size argument. -/
theorem full_read {c : ElfClass} {n size filesz : Nat} (hn : n ≤ size) (hsize : size < 2 ^ 32)
    (h : s32 n % 2 ^ c.wordBits = (filesz : Int)) : n = u32 filesz := by
  have hlt : n % 2 ^ 32 = n := Nat.mod_eq_of_lt (by omega)
  simp only [s32, hlt] at h
  simp only [u32]
  cases c with
  | elf32 => simp only [ElfClass.wordBits] at h; split at h <;> omega
  | elf64 => simp only [ElfClass.wordBits] at h; split at h <;> omega

theorem read_length_le (file : BootFile) (pos size : Nat) :
    (file.read pos size).length ≤ size := by
  simp only [BootFile.read, List.length_take]
  omega

/-- The copy loop stores every segment in full. -/
theorem loadSegments_eq {c : ElfClass} {file : BootFile} {li : LoadInfo} (ph : List Phdr)
    {writes : List Write} (h : loadSegments c file li ph = some writes) :
    writes = (ph.filter loadable).map (segmentWrite file li)
      ∧ ∀ p ∈ ph.filter loadable,
          (file.read p.pOffset (u32 p.pFilesz)).length = u32 p.pFilesz := by
  induction ph generalizing writes with
  | nil => simpa [loadSegments] using h.symm
  | cons p rest ih =>
    cases hp : loadable p with
    | false =>
      simp only [loadSegments, hp, Bool.not_false, if_true] at h
      simpa [hp] using ih h
    | true =>
      simp only [loadSegments, hp, Bool.not_true, Bool.false_eq_true, if_false] at h
      split at h
      · simp at h
      · split at h
        · simp at h
        next hfull =>
          obtain ⟨tail, htail, rfl⟩ := Option.map_eq_some_iff.mp h
          obtain ⟨hws, hlen⟩ := ih htail
          have hread := full_read (read_length_le file p.pOffset (u32 p.pFilesz)) (u32_lt _)
            (Decidable.not_not.mp hfull)
          constructor
          · simp [hp, segmentWrite, hws]
          · intro q hq
            rw [List.filter_cons_of_pos hp, List.mem_cons] at hq
            rcases hq with rfl | hq
            · exact hread
            · exact hlen q hq

/-! ## §3 A whole load -/

theorem promClaimLoop_claims {claim : Nat → Nat → Option Nat} (hc : ClaimsMemory claim)
    {size base : Nat} : ∀ {n addr : Nat}, promClaimLoop claim size n addr = some base →
      base + size ≤ 2 ^ 32 := by
  intro n
  induction n with
  | zero => intro addr h; simp [promClaimLoop] at h
  | succ n ih =>
    intro addr h
    rw [promClaimLoop] at h
    cases hcl : claim addr size with
    | none => exact ih (by simpa [hcl] using h)
    | some found =>
      have hfound : found = base := by simpa [hcl] using h
      exact hfound ▸ hc addr size found hcl

theorem promClaimChunk_claims {claim : Nat → Nat → Option Nat} (hc : ClaimsMemory claim)
    {virt size base : Nat} (h : promClaimChunk claim virt size = some base) :
    base + size ≤ 2 ^ 32 := by
  unfold promClaimChunk at h
  split at h
  · exact promClaimLoop_claims hc h
  · simp at h

/-- What an accepted file leaves: a chunk sized after the sizing segment and holding
what the copy loop stores. -/
theorem loadElf_spec {c : ElfClass} {malloc : Bool} {claim : Nat → Nat → Option Nat}
    (hc : ClaimsMemory claim) {loadaddr loadLoc : Nat} {file : BootFile} {li : LoadInfo}
    {writes : List Write}
    (h : loadElf c malloc claim loadaddr file loadLoc = some (li, writes)) :
    ∃ s, sizing c (file.segments c) = some s
      ∧ li.memsize = room s ∧ li.loadLoc = u32 s.pVaddr
      ∧ li.entry = u32 (file.ehdr c).eEntry
      ∧ li.base + li.memsize ≤ 2 ^ 32
      ∧ writes = (file.segments c).map (segmentWrite file li)
      ∧ ∀ p ∈ file.segments c,
          (file.read p.pOffset (u32 p.pFilesz)).length = u32 p.pFilesz := by
  unfold loadElf at h
  simp only at h
  rw [← BootFile.ehdr] at h
  split at h
  · simp at h
  split at h
  · simp at h
  split at h
  · simp at h
  split at h
  · simp at h
  split at h
  · simp at h
  have hseg : (Elf.phdrs c (file.read (file.ehdr c).ePhoff
      (c.phdrSize * (file.ehdr c).ePhnum % 2 ^ 32).toNat)
      (file.ehdr c).ePhnum.toNat).filter loadable = file.segments c := rfl
  rw [scan_eq, hseg] at h
  cases hs : sizing c (file.segments c) with
  | none =>
    -- nothing to size the chunk after: `memsize` is still 0
    simp [hs] at h
  | some s =>
    rw [hs] at h
    simp only [Option.map_some, Option.getD_some] at h
    split at h
    · simp at h
    split at h
    · simp at h
    next base hbase =>
      obtain ⟨ws, hws, hpair⟩ := Option.map_eq_some_iff.mp h
      obtain ⟨rfl, rfl⟩ := Prod.mk.inj hpair
      obtain ⟨hwrites, hread⟩ := loadSegments_eq _ hws
      exact ⟨s, rfl, rfl, rfl, rfl, promClaimChunk_claims hc hbase, hwrites, hread⟩

/-! ## §4 Inside the chunk -/

/-- Going `d` and `i` further from the base of a chunk is inside it if the sum is
below the size: nothing wraps back into it. -/
theorem contains_iff {li : LoadInfo} (hend : li.base + li.memsize ≤ 2 ^ 32) (d : Nat) :
    li.Contains (u32 (li.base + d)) ↔ d % 2 ^ 32 < li.memsize := by
  simp only [LoadInfo.Contains, u32]
  omega

/-- A block of `n` bytes is inside the chunk if its end is. -/
theorem block_contains_iff {li : LoadInfo} (hend : li.base + li.memsize ≤ 2 ^ 32)
    (hsize : li.memsize < 2 ^ 32) {d : Nat} (hd : d < 2 ^ 32) (n : Nat) :
    (∀ i < n, li.Contains (u32 (u32 (li.base + d) + i))) ↔ n = 0 ∨ d + n ≤ li.memsize := by
  have hstep : ∀ i, u32 (u32 (li.base + d) + i) = u32 (li.base + (d + i)) := by
    intro i
    simp only [u32]
    omega
  simp only [hstep, contains_iff hend]
  constructor
  · intro h
    by_contra hno
    -- the first byte that is not covered: the block's own first one, or the chunk's end
    by_cases hfirst : li.memsize ≤ d
    · have := h 0 (by omega)
      omega
    · have := h (li.memsize - d) (by omega)
      omega
  · rintro (rfl | h) i hi
    · omega
    · omega

theorem kernelEntry_eq {li : LoadInfo} {s : Phdr} {entry : Nat}
    (hloc : li.loadLoc = u32 s.pVaddr) (hentry : li.entry = u32 entry) :
    kernelEntry li = u32 (li.base + distance s entry) := by
  simp only [kernelEntry, distance, hloc, hentry, sub32, u32]
  omega

/-- **When a kernel stays inside its chunk**: for every file the loaders accept, the
stored bytes and the entry point are inside the chunk exactly if all segments fit
behind the one the size was taken from. -/
theorem loadElf_staysInside_iff (c : ElfClass) (malloc : Bool)
    (claim : Nat → Nat → Option Nat) (hc : ClaimsMemory claim) (loadaddr loadLoc : Nat)
    (file : BootFile) (li : LoadInfo) (writes : List Write)
    (h : loadElf c malloc claim loadaddr file loadLoc = some (li, writes)) :
    StaysInside (file.segments c) (file.ehdr c).eEntry li writes
      ↔ ∃ s, sizing c (file.segments c) = some s
          ∧ FitsBehind s (file.segments c) (file.ehdr c).eEntry := by
  obtain ⟨s, hs, hsize, hloc, hentry, hend, rfl, hread⟩ := loadElf_spec hc h
  have hlt : li.memsize < 2 ^ 32 := by
    rw [hsize]
    exact u32_lt _
  have hwrite : ∀ p ∈ file.segments c,
      ((∀ i < (segmentWrite file li p).bytes.length,
          li.Contains (u32 ((segmentWrite file li p).addr + i))) ↔ s.FitsBehind p) := by
    intro p hp
    simp only [segmentWrite, hread p hp, hloc]
    rw [block_contains_iff hend hlt (sub32_lt _ _), hsize]
    rfl
  have hent : li.Contains (kernelEntry li) ↔ distance s (file.ehdr c).eEntry < room s := by
    have hmod : distance s (file.ehdr c).eEntry % 2 ^ 32 = distance s (file.ehdr c).eEntry :=
      Nat.mod_eq_of_lt (sub32_lt _ _)
    rw [kernelEntry_eq hloc hentry, contains_iff hend, hmod, hsize]
  simp only [StaysInside, FitsBehind, hs, Option.some.injEq, exists_eq_left', hent,
    List.forall_mem_map]
  constructor
  · rintro ⟨hw, he⟩
    exact ⟨fun p hp => (hwrite p hp).mp (hw p hp), he⟩
  · rintro ⟨hf, he⟩
    exact ⟨fun p hp => (hwrite p hp).mpr (hf p hp), he⟩

/-! ## §5 Two kernels -/

/-- An ELF32 file with these program headers and 8 bytes of segment data behind them,
entered at 0x10000. -/
def elf32File (phdrs : List (List UInt8)) : BootFile where
  content :=
    [0x7f, 0x45, 0x4c, 0x46, 1, 2, 1, 0, 0, 0, 0, 0, 0, 0, 0, 0, 0, 2, 0, 20, 0, 0, 0, 1,
     0, 1, 0, 0, 0, 0, 0, 52, 0, 0, 0, 0, 0, 0, 0, 0, 0, 52, 0, 32, 0, phdrs.length.toUInt8,
     0, 0, 0, 0, 0, 0]
    ++ phdrs.flatten ++ [1, 2, 3, 4, 5, 6, 7, 8]
  seek := fun _ => true

/-- A `PT_LOAD` header with four bytes at `offset` for the address `vaddr * 0x10000`. -/
def loadHeader (offset vaddr : UInt8) : List UInt8 :=
  [0, 0, 0, 1, 0, 0, 0, offset, 0, vaddr, 0, 0, 0, vaddr, 0, 0, 0, 0, 0, 4, 0, 0, 0, 4,
   0, 0, 0, 5, 0, 0, 0, 4]

/-- Firmware with 128 MiB of free memory. -/
def lowMemory (addr size : Nat) : Option Nat :=
  if addr + size ≤ 0x8000000 then some addr else none

theorem lowMemory_claims : ClaimsMemory lowMemory := by
  intro addr size base h
  unfold lowMemory at h
  split at h
  · have hbase : addr = base := by simpa using h
    omega
  · simp at h

/-- One segment, at 0x10000. -/
def single32 : BootFile := elf32File [loadHeader 84 1]

theorem single32_staysInside :
    StaysInside (single32.segments .elf32) 0x10000
      ⟨0x2000000, 0x200000, 4, 84, 0x10000, 0x10000⟩ [⟨0x2000000, [1, 2, 3, 4]⟩] :=
  (loadElf_staysInside_iff .elf32 true lowMemory lowMemory_claims 0x2000000 0 single32 _ _
    rfl).mpr ⟨elf32Phdr (loadHeader 84 1), by decide, by decide⟩

/-- Text at 0x10000 and data at 0x400000, in ascending order. -/
def ascending32 : BootFile := elf32File [loadHeader 116 1, loadHeader 120 0x40]

/-- `load_elf32` accepts the file and stores its text below the chunk. -/
theorem ascending32_leaves :
    isElf .elf32 ascending32.content = true ∧ ClaimsMemory lowMemory
      ∧ ∃ li writes, loadElf32 true lowMemory 0x2000000 ascending32 0 = some (li, writes)
          ∧ ¬ StaysInside (ascending32.segments .elf32) (ascending32.ehdr .elf32).eEntry
              li writes := by
  refine ⟨by decide, lowMemory_claims, ⟨0x2000000, 0x200000, 4, 120, 0x400000, 0x10000⟩,
    [⟨0x1c10000, [1, 2, 3, 4]⟩, ⟨0x2000000, [5, 6, 7, 8]⟩], rfl, ?_⟩
  rintro ⟨hwrites, -⟩
  have hfirst := hwrites ⟨0x1c10000, [1, 2, 3, 4]⟩ (by decide) 0 (by decide)
  exact absurd hfirst.1 (by decide)

end LiloBoot.Elf
