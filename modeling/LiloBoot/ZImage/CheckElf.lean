/-
LiloBoot.ZImage.CheckElf — `check_elf32` and `check_elf64` of the zImage.

Both look at `elfheader`, a copy of the first 256 bytes of the kernel
(`lilo/bootheader/chrp/main.c`), and are one text over two layouts. The place
and the number of the program headers come from the file, so a read can be
anywhere in memory: an address is its distance from `elfheader`, modulo the
32-bit address space, and every read is kept with its size.
-/
import LiloBoot.Elf.Load
import LiloBoot.Partition.Lookup

namespace LiloBoot.ZImage

open Elf
open LiloBoot.Partition (be)

/-! ## §1 The two checks -/

/-- `sizeof(elfheader)`. -/
def elfheaderSize : Nat := 256

/-- A field in memory: its distance from `elfheader` and its size. -/
abbrev Place := Nat × Nat

/-- The value of a field. -/
def value (mem : Bytes) (p : Place) : Nat := be (fun i => mem (u32 i)) p.1 p.2

section Layout

variable (cls : ElfClass)

def ePhoff : Place :=
  match cls with
  | .elf32 => (28, 4)
  | .elf64 => (32, 8)

def ePhnum : Place :=
  match cls with
  | .elf32 => (44, 2)
  | .elf64 => (56, 2)

/-- `p_offset` of the program header at `ph`. -/
def pOffset (ph : Nat) : Place :=
  match cls with
  | .elf32 => (u32 (ph + 4), 4)
  | .elf64 => (u32 (ph + 8), 8)

/-- `p_memsz` of the program header at `ph`. -/
def pMemsz (ph : Nat) : Place :=
  match cls with
  | .elf32 => (u32 (ph + 20), 4)
  | .elf64 => (u32 (ph + 40), 8)

/-- The fields of the ELF header that are compared, with the values accepted:
    magic, class, data encoding, type and machine. -/
def identity : List (Place × List Nat) :=
  [((0, 1), [0x7f]), ((1, 1), [0x45]), ((2, 1), [0x4c]), ((3, 1), [0x46]),
    ((4, 1), [match cls with | .elf32 => 1 | .elf64 => 2]), ((5, 1), [2]), ((16, 2), [2, 3]),
    ((18, 2), [match cls with | .elf32 => 20 | .elf64 => 21])]

/-- What a check returns for an accepted header. -/
def bits : Nat :=
  match cls with
  | .elf32 => 32
  | .elf64 => 64

end Layout

/-- The comparisons up to the first that fails, with the fields read. -/
def compare (mem : Bytes) : List (Place × List Nat) → Bool × List Place
  | [] => (true, [])
  | (p, accepted) :: rest =>
    if value mem p ∈ accepted then
      let (ok, reads) := compare mem rest
      (ok, p :: reads)
    else (false, [p])

/-- The loop over the program headers: the one it ends at, which is that
    behind the last where none is loadable. -/
def scanPhdrs (cls : ElfClass) (mem : Bytes) : Nat → Nat → Nat × List Place
  | 0, ph => (ph, [])
  | n + 1, ph =>
    if value mem (ph, 4) = 1 then
      if value mem (pOffset cls ph) ≠ 0 then (ph, [(ph, 4), pOffset cls ph])
      else
        let (last, reads) := scanPhdrs cls mem n (u32 (ph + cls.phdrSize))
        (last, (ph, 4) :: pOffset cls ph :: reads)
    else
      let (last, reads) := scanPhdrs cls mem n (u32 (ph + cls.phdrSize))
      (last, (ph, 4) :: reads)

/-- The two fields of `vmlinux` that a check sets. -/
structure AddrRange where
  memsize : Nat
  offset : Nat

structure Checked where
  ret : Nat
  vmlinux : AddrRange
  reads : List Place

/-- `check_elf32` and `check_elf64`: 0, or the kernel's width and the size and
    offset of the program header the loop ended at. -/
def checkElf (cls : ElfClass) (mem : Bytes) (vmlinux : AddrRange) : Checked :=
  match compare mem (identity cls) with
  | (false, reads) => ⟨0, vmlinux, reads⟩
  | (true, reads) =>
    let (ph, scanned) :=
      scanPhdrs cls mem (value mem (ePhnum cls)) (u32 (value mem (ePhoff cls)))
    { ret := bits cls
      vmlinux := ⟨u32 (value mem (pMemsz cls ph)), u32 (value mem (pOffset cls ph))⟩
      reads := reads ++ [ePhoff cls, ePhnum cls] ++ scanned ++ [pMemsz cls ph, pOffset cls ph] }

def checkElf32 : Bytes → AddrRange → Checked := checkElf .elf32

def checkElf64 : Bytes → AddrRange → Checked := checkElf .elf64

/-! ## §2 The program headers -/

section Headers

variable {cls : ElfClass} {mem : Bytes} {vmlinux : AddrRange}

/-- The table's place for a program header, as far as the numbers go. -/
def phdrAt (cls : ElfClass) (mem : Bytes) (i : Nat) : Nat :=
  value mem (ePhoff cls) + i * cls.phdrSize

/-- The field lies among the 256 bytes. -/
def Inside (p : Place) : Prop := p.1 + p.2 ≤ elfheaderSize

instance (p : Place) : Decidable (Inside p) := inferInstanceAs (Decidable (p.1 + p.2 ≤ elfheaderSize))

/-- `PT_LOAD` with a nonzero offset. -/
def Loadable (cls : ElfClass) (mem : Bytes) (ph : Nat) : Prop :=
  value mem (ph, 4) = 1 ∧ value mem (pOffset cls ph) ≠ 0

/-- Behind `p_memsz`, the last field that is read. -/
def fieldsEnd (cls : ElfClass) (ph : Nat) : Nat :=
  match cls with
  | .elf32 => ph + 24
  | .elf64 => ph + 48

/-- The first loadable program header of the table, among the 256 bytes. -/
def FirstLoad (cls : ElfClass) (mem : Bytes) (i : Nat) : Prop :=
  i < value mem (ePhnum cls) ∧ fieldsEnd cls (phdrAt cls mem i) ≤ elfheaderSize ∧
    Loadable cls mem (phdrAt cls mem i) ∧ ∀ j < i, ¬ Loadable cls mem (phdrAt cls mem j)

/-- The check reads inside the 256 bytes only, and accepts only with the size
    and offset of the first loadable program header there. -/
def ChecksHeader (cls : ElfClass) (mem : Bytes) (vmlinux : AddrRange) : Prop :=
  (∀ p ∈ (checkElf cls mem vmlinux).reads, Inside p) ∧
    ((checkElf cls mem vmlinux).ret ≠ 0 → ∃ i, FirstLoad cls mem i ∧
      (checkElf cls mem vmlinux).vmlinux =
        ⟨value mem (pMemsz cls (phdrAt cls mem i)), value mem (pOffset cls (phdrAt cls mem i))⟩)

/-- The fields of the ELF header are among the 256 bytes. -/
theorem compare_inside {l : List (Place × List Nat)} (hl : ∀ q ∈ l, Inside q.1) :
    ∀ p ∈ (compare mem l).2, Inside p := by
  induction l with
  | nil => simp [compare]
  | cons q l ih =>
    have hq : Inside q.1 := hl q List.mem_cons_self
    have hrest := ih fun r hr => hl r (List.mem_cons_of_mem _ hr)
    rw [compare]
    split
    · exact List.forall_mem_cons.mpr ⟨hq, hrest⟩
    · exact List.forall_mem_cons.mpr ⟨hq, List.forall_mem_nil _⟩

theorem identity_inside : ∀ q ∈ identity cls, Inside q.1 := by
  cases cls <;> decide

/-- The fields of a program header whose read fields are all inside. -/
theorem fields_inside {ph : Nat} (h : fieldsEnd cls ph ≤ elfheaderSize) :
    u32 ph = ph ∧ Inside (ph, 4) ∧ Inside (pOffset cls ph) ∧ Inside (pMemsz cls ph) := by
  cases cls
  · simp only [fieldsEnd, elfheaderSize] at h
    simp only [Inside, pOffset, pMemsz, elfheaderSize, u32]
    omega
  · simp only [fieldsEnd, elfheaderSize] at h
    simp only [Inside, pOffset, pMemsz, elfheaderSize, u32]
    omega

/-- The loop ends at the first loadable header, having read no further. -/
theorem scanPhdrs_first {n i base : Nat} (hi : i < n)
    (hend : fieldsEnd cls (base + i * cls.phdrSize) ≤ elfheaderSize)
    (hload : Loadable cls mem (base + i * cls.phdrSize))
    (hbefore : ∀ j < i, ¬ Loadable cls mem (base + j * cls.phdrSize)) :
    (scanPhdrs cls mem n base).1 = base + i * cls.phdrSize ∧
      ∀ p ∈ (scanPhdrs cls mem n base).2, Inside p := by
  induction i generalizing n base with
  | zero =>
    obtain ⟨n, rfl⟩ := Nat.exists_eq_succ_of_ne_zero (Nat.ne_of_gt hi)
    simp only [Nat.zero_mul, Nat.add_zero] at hend hload ⊢
    obtain ⟨-, htype, hoff, -⟩ := fields_inside hend
    rw [scanPhdrs, if_pos hload.1, if_pos hload.2]
    simp [htype, hoff]
  | succ i ih =>
    obtain ⟨n, rfl⟩ := Nat.exists_eq_succ_of_ne_zero (Nat.ne_of_gt (Nat.zero_lt_of_lt hi))
    have hnext : ∀ k, base + (k + 1) * cls.phdrSize = base + cls.phdrSize + k * cls.phdrSize :=
      fun k => by rw [Nat.add_mul, Nat.one_mul, Nat.add_assoc, Nat.add_comm (k * _)]
    have hhere : fieldsEnd cls base ≤ elfheaderSize := by
      cases cls <;> simp only [fieldsEnd] at hend ⊢ <;> omega
    have hstep : fieldsEnd cls (base + cls.phdrSize) ≤ elfheaderSize := by
      rw [hnext] at hend
      cases cls <;> simp only [fieldsEnd] at hend ⊢ <;> omega
    obtain ⟨-, htype, hoff, -⟩ := fields_inside hhere
    have hlow : u32 (base + cls.phdrSize) = base + cls.phdrSize := (fields_inside hstep).1
    obtain ⟨hlast, hreads⟩ := @ih n (base + cls.phdrSize) (Nat.lt_of_succ_lt_succ hi)
      (by rw [← hnext]; exact hend) (by rw [← hnext]; exact hload)
      (fun j hj => by rw [← hnext]; exact hbefore (j + 1) (Nat.succ_lt_succ hj))
    have hnot : ¬ Loadable cls mem base := by simpa using hbefore 0 (Nat.succ_pos i)
    rw [scanPhdrs, hlow, hnext]
    split
    next h1 =>
      rw [if_neg (fun h2 => hnot ⟨h1, h2⟩)]
      exact ⟨hlast, List.forall_mem_cons.mpr ⟨htype, List.forall_mem_cons.mpr ⟨hoff, hreads⟩⟩⟩
    · exact ⟨hlast, List.forall_mem_cons.mpr ⟨htype, hreads⟩⟩

/-- **What a check accepts.** A check is right exactly if it refuses the
    identity of the file, or the first loadable program header is among the
    256 bytes, with a size and an offset of 32 bits. -/
theorem checkElf_iff (cls : ElfClass) (mem : Bytes) (vmlinux : AddrRange) :
    ChecksHeader cls mem vmlinux ↔ (compare mem (identity cls)).1 = false ∨
      ∃ i, FirstLoad cls mem i ∧ value mem (pMemsz cls (phdrAt cls mem i)) < 2 ^ 32 ∧
        value mem (pOffset cls (phdrAt cls mem i)) < 2 ^ 32 := by
  have hidentity := @compare_inside mem _ (@identity_inside cls)
  unfold ChecksHeader checkElf
  rcases hcmp : compare mem (identity cls) with ⟨ok, reads⟩
  rw [hcmp] at hidentity
  cases ok with
  | false => simpa using hidentity
  | true =>
    have hbits : bits cls ≠ 0 := by cases cls <;> decide
    simp only [Bool.true_eq_false, false_or]
    constructor
    · rintro ⟨-, haccept⟩
      obtain ⟨i, hfirst, hfields⟩ := haccept hbits
      rw [AddrRange.mk.injEq] at hfields
      exact ⟨i, hfirst, hfields.1 ▸ u32_lt _, hfields.2 ▸ u32_lt _⟩
    · rintro ⟨i, hfirst, hmemsz, hoffset⟩
      obtain ⟨hi, hend, hload, hbefore⟩ := hfirst
      have hbase : u32 (value mem (ePhoff cls)) = value mem (ePhoff cls) := by
        refine u32_of_lt ?_
        have : value mem (ePhoff cls) ≤ elfheaderSize := by
          cases cls <;> simp only [fieldsEnd, phdrAt] at hend <;> omega
        exact lt_of_le_of_lt this (by decide)
      obtain ⟨hlast, hscanned⟩ := scanPhdrs_first hi hend hload hbefore
      obtain ⟨-, -, hoff, hmem⟩ := fields_inside hend
      rw [hbase, hlast, ← phdrAt, u32_of_lt hmemsz, u32_of_lt hoffset]
      refine ⟨fun p hp => ?_, fun _ => ⟨i, ⟨hi, hend, hload, hbefore⟩, rfl⟩⟩
      simp only [List.mem_append, List.mem_cons, List.not_mem_nil, or_false] at hp
      rcases hp with ((hp | rfl | rfl) | hp) | rfl | rfl
      · exact hidentity p hp
      · cases cls <;> decide
      · cases cls <;> decide
      · exact hscanned p hp
      · exact hmem
      · exact hoff

end Headers

/-! ## §3 A header without program headers -/

/-- A 32-bit PowerPC executable, every field behind `e_machine` 0. -/
def emptyElf32 : Bytes := fun i =>
  [0x7f, 0x45, 0x4c, 0x46, 1, 2, 0, 0, 0, 0, 0, 0, 0, 0, 0, 0, 0, 2, 0, 20].getD i 0

/-- The loop has no pass, and the ELF header is taken for a program header. -/
theorem emptyElf32_accepted :
    (checkElf32 emptyElf32 ⟨0, 0⟩).ret = 32 ∧ ¬ ChecksHeader .elf32 emptyElf32 ⟨0, 0⟩ := by
  have hret : (checkElf32 emptyElf32 ⟨0, 0⟩).ret = 32 := by decide +kernel
  refine ⟨hret, fun h => ?_⟩
  obtain ⟨i, ⟨hi, -⟩, -⟩ := h.2 (by rw [checkElf32] at hret; rw [hret]; decide)
  have hnone : value emptyElf32 (ePhnum .elf32) = 0 := by decide +kernel
  rw [hnone] at hi
  exact absurd hi (Nat.not_lt_zero i)

end LiloBoot.ZImage
