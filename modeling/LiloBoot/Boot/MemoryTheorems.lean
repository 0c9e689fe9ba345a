/-
LiloBoot.Boot.MemoryTheorems — what failed boot attempts leave claimed.

`load_elf32` and `load_elf64` release their chunk on every failure after the
claim. The ramdisk part releases nothing: not its own chunks, and not the
kernel's. So the exits that give everything back are those before the kernel
is loaded, and every attempt that gets further leaves at least the kernel's
region behind.
-/
import LiloBoot.Boot.TextUi

namespace LiloBoot.Boot

open LiloBoot.Elf

/-! ## §1 When a kernel loads -/

/-- What the scan over the program headers gives. -/
def scanned (c : ElfClass) (k : KernelScript) (loadLoc : Nat) : LoadInfo :=
  scan c.scanBreaks ⟨0, 0, 0, 0, loadLoc, u32 k.ehdr.eEntry⟩ (k.phdrs.take k.ehdr.ePhnum.toNat)

/-- No call of `load_elf32` or `load_elf64` fails. -/
structure ElfLoads (c : ElfClass) (k : KernelScript) (loadaddr loadLoc : Nat) : Prop where
  header : ((c.ehdrSize - elfIdentSize : Nat) : Int) ≤ k.headerRead
  headers : k.ehdr.ePhnum ≤ maxHeaders
  malloc : k.malloc = true
  phSeek : k.phSeek = true
  phRead : u32OfInt k.phRead = (c.phdrSize * k.ehdr.ePhnum % 2 ^ 32).toNat
  memsize : (scanned c k loadLoc).memsize ≠ 0
  claim : ∃ base, promClaimChunk k.claim loadaddr
    (u32 (align1M (scanned c k loadLoc).memsize + 0x100000)) = some base
  segments : segmentsRead c k 0 (k.phdrs.take k.ehdr.ePhnum.toNat) = true

/-- No call made for the kernel fails. -/
def KernelLoads (sc : Script) : Prop :=
  sc.kernel.openOk = true ∧ elfIdentSize ≤ u32OfInt sc.kernel.identRead
    ∧ ((sc.kernel.elf32 = true ∧ ElfLoads .elf32 sc.kernel sc.loadaddr sc.loadLoc)
      ∨ (sc.kernel.elf32 = false ∧ sc.kernel.elf64 = true
        ∧ ElfLoads .elf64 sc.kernel 0 sc.loadLoc))

/-- An attempt at loading keeps its region exactly if it succeeds. -/
theorem loadElfMemory_claimed (c : ElfClass) (k : KernelScript) (loadaddr loadLoc : Nat)
    (claimed : List Region) :
    (ElfLoads c k loadaddr loadLoc
      ∧ ∃ li r, loadElfMemory c k loadaddr loadLoc claimed = (some li, r :: claimed))
    ∨ (¬ ElfLoads c k loadaddr loadLoc
      ∧ loadElfMemory c k loadaddr loadLoc claimed = (none, claimed)) := by
  by_cases hheader : k.headerRead < ((c.ehdrSize - elfIdentSize : Nat) : Int)
  · exact .inr ⟨fun h => absurd h.header (by omega), by rw [loadElfMemory, if_pos hheader]⟩
  by_cases hheaders : maxHeaders < k.ehdr.ePhnum
  · refine .inr ⟨fun h => absurd h.headers (by omega), ?_⟩
    rw [loadElfMemory, if_neg hheader, if_pos hheaders]
  by_cases hmalloc : k.malloc = true
  swap
  · refine .inr ⟨fun h => hmalloc h.malloc, ?_⟩
    simp only [loadElfMemory, hheader, hheaders, hmalloc, if_false]
    rfl
  by_cases hseek : k.phSeek = true
  swap
  · refine .inr ⟨fun h => hseek h.phSeek, ?_⟩
    simp only [loadElfMemory, hheader, hheaders, hmalloc, hseek, if_false]
    rfl
  by_cases hread : u32OfInt k.phRead = (c.phdrSize * k.ehdr.ePhnum % 2 ^ 32).toNat
  swap
  · refine .inr ⟨fun h => hread h.phRead, ?_⟩
    simp only [loadElfMemory, hheader, hheaders, hmalloc, hseek, hread, if_false, ne_eq,
      not_false_eq_true, if_true]
    rfl
  have hscan : scan c.scanBreaks ⟨0, 0, 0, 0, loadLoc, u32 k.ehdr.eEntry⟩
      (k.phdrs.take k.ehdr.ePhnum.toNat) = scanned c k loadLoc := rfl
  by_cases hmemsize : (scanned c k loadLoc).memsize = 0
  · refine .inr ⟨fun h => h.memsize hmemsize, ?_⟩
    simp only [loadElfMemory, hheader, hheaders, hmalloc, hseek, hread, hscan, hmemsize, if_false,
      if_true, ne_eq, not_true_eq_false, Bool.not_true, Bool.false_eq_true]
  cases hclaim : promClaimChunk k.claim loadaddr
      (u32 (align1M (scanned c k loadLoc).memsize + 0x100000)) with
  | none =>
    refine .inr ⟨fun h => ?_, ?_⟩
    · obtain ⟨base, hbase⟩ := h.claim
      rw [hclaim] at hbase
      cases hbase
    · simp only [loadElfMemory, hheader, hheaders, hmalloc, hseek, hread, hscan, hmemsize, hclaim,
        if_false, ne_eq, not_true_eq_false, Bool.not_true, Bool.false_eq_true]
  | some base =>
    by_cases hsegments : segmentsRead c k 0 (k.phdrs.take k.ehdr.ePhnum.toNat) = true
    · refine .inl ⟨⟨by omega, by omega, hmalloc, hseek, hread, hmemsize, ⟨base, hclaim⟩,
        hsegments⟩, ?_⟩
      simp only [loadElfMemory, hheader, hheaders, hmalloc, hseek, hread, hscan, hmemsize, hclaim,
        hsegments, if_false, if_true, ne_eq, not_true_eq_false, Bool.not_true, Bool.false_eq_true]
      exact ⟨_, _, rfl⟩
    · refine .inr ⟨fun h => hsegments h.segments, ?_⟩
      simp only [loadElfMemory, hheader, hheaders, hmalloc, hseek, hread, hscan, hmemsize, hclaim,
        hsegments, if_false, ne_eq, not_true_eq_false, Bool.not_true, Bool.false_eq_true,
        promRelease_cons]

/-- The kernel keeps its region exactly if it loads; otherwise nothing stays claimed. -/
theorem loadKernel_claimed (sc : Script) (claimed : List Region) :
    (KernelLoads sc ∧ ∃ li r,
      loadKernel sc.kernel sc.loadaddr sc.loadLoc claimed = (some li, r :: claimed))
    ∨ (¬ KernelLoads sc
      ∧ loadKernel sc.kernel sc.loadaddr sc.loadLoc claimed = (none, claimed)) := by
  by_cases hopen : sc.kernel.openOk = true
  swap
  · refine .inr ⟨fun h => hopen h.1, ?_⟩
    simp only [loadKernel, hopen]
    rfl
  by_cases hident : u32OfInt sc.kernel.identRead < elfIdentSize
  · refine .inr ⟨fun h => absurd h.2.1 (Nat.not_le.mpr hident), ?_⟩
    simp only [loadKernel, hopen, hident]
    rfl
  cases h32 : sc.kernel.elf32 with
  | true =>
    have hload : loadKernel sc.kernel sc.loadaddr sc.loadLoc claimed
        = loadElfMemory .elf32 sc.kernel sc.loadaddr sc.loadLoc claimed := by
      simp only [loadKernel, hopen, hident, h32]
      rfl
    rw [hload]
    rcases loadElfMemory_claimed .elf32 sc.kernel sc.loadaddr sc.loadLoc claimed with
      ⟨hok, hres⟩ | ⟨hno, hres⟩
    · exact .inl ⟨⟨hopen, Nat.not_lt.mp hident, .inl ⟨h32, hok⟩⟩, hres⟩
    · refine .inr ⟨fun h => ?_, hres⟩
      rcases h.2.2 with ⟨-, hok⟩ | ⟨hfalse, -, -⟩
      · exact hno hok
      · rw [h32] at hfalse
        cases hfalse
  | false =>
    cases h64 : sc.kernel.elf64 with
    | true =>
      have hload : loadKernel sc.kernel sc.loadaddr sc.loadLoc claimed
          = loadElfMemory .elf64 sc.kernel 0 sc.loadLoc claimed := by
        simp only [loadKernel, hopen, hident, h32, h64]
        rfl
      rw [hload]
      rcases loadElfMemory_claimed .elf64 sc.kernel 0 sc.loadLoc claimed with
        ⟨hok, hres⟩ | ⟨hno, hres⟩
      · exact .inl ⟨⟨hopen, Nat.not_lt.mp hident, .inr ⟨h32, h64, hok⟩⟩, hres⟩
      · refine .inr ⟨fun h => ?_, hres⟩
        rcases h.2.2 with ⟨htrue, -⟩ | ⟨-, -, hok⟩
        · rw [h32] at htrue
          cases htrue
        · exact hno hok
    | false =>
      refine .inr ⟨fun h => ?_, ?_⟩
      · rcases h.2.2 with ⟨htrue, -⟩ | ⟨-, htrue, -⟩
        · rw [h32] at htrue
          cases htrue
        · rw [h64] at htrue
          cases htrue
      · simp only [loadKernel, hopen, hident, h32, h64]
        rfl

/-! ## §2 The ramdisk gives nothing back -/

/-- The loop only adds regions. -/
theorem readMore_claimed {f : RdFile} {claimAt : Nat → Option Nat} {chunk : Nat} (fuel : Nat) :
    ∀ k s t, readMore f claimAt chunk fuel k s = some t →
      s.claimed.length ≤ t.claimed.length := by
  induction fuel with
  | zero =>
    intro k s t h
    cases h
  | succ fuel ih =>
    intro k s t h
    rw [readMore] at h
    split at h
    · cases h
      exact Nat.le_refl _
    · cases hclaim : claimAt k with
      | none =>
        simp only [hclaim] at h
        split at h
        · cases h
          exact Nat.le_refl _
        · have hrest := ih _ _ _ h
          exact hrest
      | some a =>
        simp only [hclaim] at h
        split at h
        · cases h
          exact Nat.le_succ _
        · have hrest := ih _ _ _ h
          exact Nat.le_trans (Nat.le_succ _) hrest

theorem loadRamdisk_claimed {rd : RdScript} {base : Nat} {initrdsize : Int} {fuel : Nat}
    {mem mem' : Bytes} {claimed claimed' : List Region} {out : Outcome}
    (h : loadRamdisk rd base initrdsize fuel mem claimed = some (out, mem', claimed')) :
    claimed.length ≤ claimed'.length := by
  simp only [loadRamdisk] at h
  split at h
  · cases h
    exact Nat.le_refl _
  · split at h
    · cases h
      exact Nat.le_refl _
    · split at h
      · cases h
      · rename_i t hrun
        have hlen := readMore_claimed fuel _ _ _ hrun
        simp only [readChunk, List.length_cons] at hlen
        -- the size read first decides on the base, the base on the outcome
        split at h
        all_goals
          split at h
          · cases h
            omega
          · cases h
            omega

/-! ## §3 One attempt, any number of attempts -/

/-- An attempt that goes back to the prompt leaves memory as it was, or its kernel was loaded
and more is claimed than before. -/
theorem round_prompt {sc : Script} {fuel : Nat} {mem mem' : Bytes}
    {claimed claimed' : List Region}
    (h : round sc fuel mem claimed = some (.prompt, mem', claimed')) :
    (¬ KernelLoads sc ∧ claimed' = claimed)
      ∨ (KernelLoads sc ∧ claimed.length < claimed'.length) := by
  rw [round] at h
  rcases loadKernel_claimed sc claimed with ⟨hloads, li, r, hkernel⟩ | ⟨hno, hkernel⟩
  · rw [hkernel] at h
    simp only at h
    cases hname : sc.rdFilename with
    | none =>
      rw [hname] at h
      cases h
    | some name =>
      rw [hname] at h
      exact .inr ⟨hloads, loadRamdisk_claimed h⟩
  · rw [hkernel] at h
    cases h
    exact .inl ⟨hno, rfl⟩

/-- A run of attempts that all go back to the prompt, from one list of claimed regions to
another. Memory may change between them. -/
inductive FailedAttempts : List Region → List Script → List Region → Prop where
  | nil (claimed : List Region) : FailedAttempts claimed [] claimed
  | cons {sc : Script} {rest : List Script} {fuel : Nat} {mem mem' : Bytes}
      {claimed claimed' claimed'' : List Region}
      (attempt : round sc fuel mem claimed = some (.prompt, mem', claimed'))
      (run : FailedAttempts claimed' rest claimed'') :
      FailedAttempts claimed (sc :: rest) claimed''

theorem failedAttempts_length {claimed claimed' : List Region} {scs : List Script}
    (h : FailedAttempts claimed scs claimed') : claimed.length ≤ claimed'.length := by
  induction h with
  | nil => exact Nat.le_refl _
  | cons attempt run ih =>
    rcases round_prompt attempt with ⟨-, rfl⟩ | ⟨-, hmore⟩
    · exact ih
    · exact Nat.le_trans (Nat.le_of_lt hmore) ih

/-- **What failed attempts leave claimed**: after any run of them the regions are those from
before exactly if no kernel of the run was loaded. -/
theorem failedAttempts_release_iff {claimed claimed' : List Region} {scs : List Script}
    (h : FailedAttempts claimed scs claimed') :
    claimed'.Perm claimed ↔ ∀ sc ∈ scs, ¬ KernelLoads sc := by
  induction h with
  | nil => exact ⟨fun _ sc hsc => absurd hsc List.not_mem_nil, fun _ => .refl _⟩
  | @cons sc rest fuel mem mem' claimed claimed' claimed'' attempt run ih =>
    rw [List.forall_mem_cons]
    rcases round_prompt attempt with ⟨hno, rfl⟩ | ⟨hloads, hmore⟩
    · exact ih.trans ⟨fun hrest => ⟨hno, hrest⟩, fun hall => hall.2⟩
    · constructor
      · intro hperm
        have hrun := failedAttempts_length run
        have hlen := hperm.length_eq
        omega
      · rintro ⟨hno, -⟩
        exact absurd hloads hno

/-- A kernel that loads at 32 MiB, and a ramdisk that does not open. -/
def noRamdisk : Script where
  cpu64 := false
  args := ['i', 'n', 'i', 't', 'r', 'd', '=', 'r', 'd']
  strdup := true
  cfgInitrd := none
  parse := some
  initrdsize := 0
  loadaddr := 0x2000000
  loadLoc := 0
  kernel :=
    { openOk := true, identRead := 20, elf32 := true, elf64 := false, headerRead := 32
      ehdr := ⟨0x10000, 52, 1⟩, malloc := true, phSeek := true, phRead := 32
      phdrs := [⟨1, 84, 0x10000, 4, 4⟩], claim := fun addr _ => some addr
      segSeek := fun _ => true, segRead := fun _ => 4 }
  rd := ⟨none, fun addr _ => some addr, fun _ => none⟩

/-- The same with a kernel file that does not open. -/
def noKernel : Script := { noRamdisk with kernel := { noRamdisk.kernel with openOk := false } }

theorem noKernel_round (claimed : List Region) :
    round noKernel 0 (fun _ => 0) claimed = some (.prompt, fun _ => 0, claimed) := rfl

theorem noKernel_releases :
    ([] : List Region).Perm [] ↔ ∀ sc ∈ [noKernel, noKernel], ¬ KernelLoads sc :=
  failedAttempts_release_iff (.cons (noKernel_round []) (.cons (noKernel_round []) (.nil [])))

theorem noRamdisk_round :
    round noRamdisk 0 (fun _ => 0) [] = some (.prompt, fun _ => 0, [⟨0x2000000, 0x200000⟩]) := rfl

/-- The attempt fails at the ramdisk, and the 2 MiB of the kernel stay claimed. -/
theorem noRamdisk_keeps_kernel :
    FailedAttempts [] [noRamdisk] [⟨0x2000000, 0x200000⟩]
      ∧ ¬ ([⟨0x2000000, 0x200000⟩] : List Region).Perm [] :=
  ⟨.cons noRamdisk_round (.nil _), fun h => by cases h.length_eq⟩

end LiloBoot.Boot
