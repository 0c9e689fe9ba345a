/-
LiloBoot.Partition.SteadyTheorems — the disk of `Lookup` is a disk with steady firmware.

Where the answers to a call depend on its position alone and nothing is written, a lookup at the
firmware returns the list that `Lookup` returns, so what is proved of that list holds of it.
-/
import LiloBoot.Partition.SessionTheorems

namespace LiloBoot.Partition.Session

/-! ## §1 The disk -/

/-- The answers depend on what is asked for, not on when it is asked. -/
structure Answers.Steady (answers : Answers) : Prop where
  seek : ∀ k pos, answers.seek k pos = answers.seek 0 pos
  read : ∀ k tries pos n, answers.read k tries pos n = answers.read 0 0 pos n

/-- The number of bytes a read stores. -/
def ReadAnswer.stored (answer : ReadAnswer) (n : Nat) : Nat :=
  if answer.status = 0 then 0
  else min n (if 0 ≤ answer.status then answer.status.toNat else answer.came)

/-- A device with its contents, as `Lookup` has it. -/
def Device.steady (dev : Device) (answers : Answers) (contents : Bytes) : Disk where
  blksize := dev.blksize
  seek pos := (answers.seek 0 pos).status == 0 || (answers.seek 0 pos).status == 1
  read pos n :=
    let answer := answers.read 0 0 pos n
    (answer.status, fun i => if i < answer.stored n then some (contents (pos + i)) else none)

section Steady

variable {answers : Answers} {env : Env} {dev : Device} {contents : Bytes}

theorem steady_promBlksize : (dev.steady answers contents).promBlksize = dev.promBlksize := rfl

theorem promReadLoop_steady (hsteady : answers.Steady) {disk n : Nat} (buf : Bytes) {m : Machine}
    (hcontents : m.disks disk = contents) (retries : Nat) :
    let r := promReadLoop answers disk n (retries + 1) buf m
    let answer := answers.read 0 0 m.position n
    r.1 = answer.status
      ∧ r.2.1 = fun i => if i < answer.stored n then contents (m.position + i) else buf i := by
  induction retries with
  | zero =>
    unfold promReadLoop
    simp only [hsteady.read m.calls]
    by_cases hzero : (answers.read 0 0 m.position n).status = 0
    · simp only [hzero, if_true, promReadLoop, ReadAnswer.stored, Nat.not_lt_zero, if_false,
        and_self]
    · simp only [hzero, if_false, ReadAnswer.stored, hcontents, and_self]
  | succ retries ih =>
    unfold promReadLoop
    simp only [hsteady.read m.calls]
    by_cases hzero : (answers.read 0 0 m.position n).status = 0
    · simpa only [hzero, if_true] using ih
    · simp only [hzero, if_false, ReadAnswer.stored, hcontents, and_self]

theorem ReadAnswer.stored_le (answer : ReadAnswer) (n : Nat) : answer.stored n ≤ n := by
  unfold stored
  split
  · exact Nat.zero_le n
  · exact Nat.min_le_left n _

/-- `prom_read` as a read of the disk. -/
theorem promRead_steady (hsteady : answers.Steady) {n : Nat} (hn : 0 < n) (buf : Bytes)
    {m : Machine} (hcontents : m.disks dev.disk = contents) :
    (promRead answers dev.disk n buf m).1
        = ((dev.steady answers contents).read m.position n).1
      ∧ (promRead answers dev.disk n buf m).2.1 = fun i =>
        if i < n then (((dev.steady answers contents).read m.position n).2 i).getD (buf i)
        else buf i := by
  obtain ⟨hstatus, hbuf⟩ := promReadLoop_steady hsteady (n := n) buf hcontents 8
  unfold promRead
  rw [if_neg (Nat.ne_of_gt hn)]
  refine ⟨hstatus, hbuf.trans ?_⟩
  funext i
  have hle := (answers.read 0 0 m.position n).stored_le n
  by_cases hi : i < (answers.read 0 0 m.position n).stored n
  · simp only [Device.steady, hi, if_true, Option.getD_some, if_pos (Nat.lt_of_lt_of_le hi hle)]
  · simp only [Device.steady, hi, if_false, Option.getD_none, ite_self]

/-- A read of blocks is the read of the disk. -/
theorem promReadblocks_steady (hsteady : answers.Steady) (blockNum : Nat) {blockCount : Nat}
    (hsize : 0 < u32 (blockCount * dev.promBlksize)) (buf : Bytes) {m : Machine}
    (hcontents : m.disks dev.disk = contents) :
    ∃ m', promReadblocks answers dev blockNum blockCount buf m
        = ((Partition.promReadblocks (dev.steady answers contents) blockNum blockCount buf).1,
          (Partition.promReadblocks (dev.steady answers contents) blockNum blockCount buf).2, m')
      ∧ m'.disks dev.disk = contents := by
  have hkept : Kept m (promReadblocks answers dev blockNum blockCount buf m).2.2 :=
    promReadblocks_kept blockNum blockCount buf m
  refine ⟨_, ?_, (congrFun hkept.disks _).trans hcontents⟩
  unfold promReadblocks Partition.promReadblocks
  rw [steady_promBlksize]
  generalize (s32 blockNum * (dev.promBlksize : Int) % 2 ^ 64).toNat = pos
  have hseek : (promSeek answers pos m).1 = (dev.steady answers contents).seek pos := by
    simp only [promSeek, Device.steady, hsteady.seek m.calls]
  cases hs : promSeek answers pos m with
  | mk done m₁ =>
    rw [hs] at hseek
    simp only at hseek
    simp only [← hseek]
    cases done with
    | false => rfl
    | true =>
      have hposition : m₁.position = pos := by
        simp only [promSeek, Prod.mk.injEq] at hs
        obtain ⟨hdone, hm₁⟩ := hs
        rw [← hm₁]
        exact if_pos hdone
      have hm₁ : m₁.disks dev.disk = contents := by
        have hkept : Kept m (promSeek answers pos m).2 := promSeek_kept pos m
        rw [hs] at hkept
        rw [hkept.disks, hcontents]
      obtain ⟨hstatus, hbuf⟩ := promRead_steady hsteady hsize buf hm₁
      rw [hposition] at hstatus hbuf
      cases hr : promRead answers dev.disk (u32 (blockCount * dev.promBlksize)) buf m₁ with
      | mk status rest =>
        rw [hr] at hstatus hbuf
        simp only at hstatus hbuf
        simp only [Bool.not_true, Bool.false_eq_true, if_false, hstatus, hbuf]

/-! ## §2 The walks -/

variable (hsteady : answers.Steady) (hmax : dev.promBlksize ≤ maxBlockSize)

theorem promBlksize_pos : 0 < dev.promBlksize := by
  unfold Device.promBlksize
  split
  · decide
  · omega

include hmax in
theorem size_pos {blockCount : Nat} (hcount : 0 < blockCount) (hfew : blockCount ≤ 2) :
    0 < u32 (blockCount * dev.promBlksize) := by
  have hmax : dev.promBlksize ≤ 4096 := hmax
  have hblksize : 0 < dev.promBlksize := promBlksize_pos
  have hle : blockCount * dev.promBlksize ≤ 2 * 4096 := Nat.mul_le_mul hfew hmax
  rw [u32_of_lt (by omega)]
  exact Nat.mul_pos hcount hblksize

include hsteady hmax

/-- A read of one block. -/
theorem readblock_steady (blockNum : Nat) (buf : Bytes) {m : Machine}
    (hcontents : m.disks dev.disk = contents) :
    ∃ m', promReadblocks answers dev blockNum 1 buf m
        = ((Partition.promReadblocks (dev.steady answers contents) blockNum 1 buf).1,
          (Partition.promReadblocks (dev.steady answers contents) blockNum 1 buf).2, m')
      ∧ m'.disks dev.disk = contents :=
  promReadblocks_steady hsteady blockNum (size_pos hmax (by decide) (by decide)) buf hcontents

theorem macLoop_steady {blocksize : Nat} (left block : Nat) (buf : Bytes)
    (list : List PartitionT) {m : Machine} (hcontents : m.disks dev.disk = contents) :
    (macLoop answers env dev blocksize left block buf list m).1
      = Partition.macLoop env (dev.steady answers contents) blocksize left block buf list := by
  induction left generalizing block buf list m with
  | zero => rfl
  | succ left ih =>
    obtain ⟨m', hread, hm'⟩ := readblock_steady hsteady hmax block buf hcontents
    simp only [macLoop, Partition.macLoop, hread]
    split
    · rfl
    · split
      · rfl
      · exact ih _ _ _ hm'

theorem extendedRecord_steady (env : Env)
    (slot start size partitionStart partitionSize : Nat) (buf : Bytes)
    (s : Nat × List PartitionT) {m : Machine} (hcontents : m.disks dev.disk = contents) :
    ∃ m', extendedRecord answers env dev slot start size partitionStart partitionSize buf s m
        = ((Partition.extendedRecord env (dev.steady answers contents) slot start size
              dev.promBlksize partitionStart partitionSize buf s).1,
          (Partition.extendedRecord env (dev.steady answers contents) slot start size
              dev.promBlksize partitionStart partitionSize buf s).2, m')
      ∧ m'.disks dev.disk = contents := by
  obtain ⟨m', hread, hm'⟩ := readblock_steady hsteady hmax partitionStart buf hcontents
  unfold extendedRecord Partition.extendedRecord
  split
  · exact ⟨m, rfl, hcontents⟩
  · simp only [hread]
    split
    · exact ⟨m', rfl, hm'⟩
    · split
      · exact ⟨m', rfl, hm'⟩
      · exact ⟨m', rfl, hm'⟩

theorem msdosExtendedLoop_steady {slot start size : Nat}
    (fuel partitionStart partitionSize : Nat) (buf : Bytes) (s : Nat × List PartitionT)
    {m : Machine} (hcontents : m.disks dev.disk = contents) :
    (msdosExtendedLoop answers env dev slot start size fuel partitionStart partitionSize
        buf s m).1
      = Partition.msdosExtendedLoop env (dev.steady answers contents) slot start size
        dev.promBlksize fuel partitionStart partitionSize buf s := by
  induction fuel generalizing partitionStart partitionSize buf s m with
  | zero => rfl
  | succ fuel ih =>
    obtain ⟨m', hrecord, hm'⟩ := extendedRecord_steady hsteady hmax env slot start size
      partitionStart partitionSize buf s hcontents
    simp only [msdosExtendedLoop, Partition.msdosExtendedLoop, hrecord]
    generalize Partition.extendedRecord env (dev.steady answers contents) slot start size
      dev.promBlksize partitionStart partitionSize buf s = record
    obtain ⟨s', link⟩ := record
    cases link with
    | none => rfl
    | some next => exact ih _ _ _ _ hm'

theorem msdosSlot_steady (env : Env) (fuel partition : Nat) (buf : Bytes) (list : List PartitionT)
    {m : Machine} (hcontents : m.disks dev.disk = contents) :
    (msdosSlot answers env dev fuel buf partition list m).1
      = Partition.msdosSlot env (dev.steady answers contents) fuel dev.promBlksize buf list
        partition := by
  unfold msdosSlot Partition.msdosSlot Partition.msdosParseExtended
  simp only []
  split
  · rfl
  · split
    · exact msdosExtendedLoop_steady hsteady hmax _ _ _ _ _ hcontents
    · rfl

theorem msdosSlots_steady {fuel : Nat} (buf : Bytes) (slots : List Nat)
    (list : List PartitionT) {m : Machine} (hcontents : m.disks dev.disk = contents) :
    (msdosSlots answers env dev fuel buf slots list m).1
      = slots.foldlM (Partition.msdosSlot env (dev.steady answers contents) fuel
        dev.promBlksize buf) list := by
  induction slots generalizing list m with
  | nil => rfl
  | cons partition rest ih =>
    have hslot := msdosSlot_steady hsteady hmax env fuel partition buf list hcontents
    have hkept : Kept m (msdosSlot answers env dev fuel buf partition list m).2 :=
      msdosSlot_kept buf list m
    rw [List.foldlM_cons, ← hslot]
    unfold msdosSlots
    cases hs : msdosSlot answers env dev fuel buf partition list m with
    | mk result m' =>
      rw [hs] at hkept
      cases result with
      | none => rfl
      | some list' => exact ih list' ((congrFun hkept.disks _).trans hcontents)

theorem partitionGptLookup_steady (buf : Bytes) {m : Machine}
    (hcontents : m.disks dev.disk = contents) :
    (partitionGptLookup answers env dev buf m).1
      = Partition.partitionGptLookup env (dev.steady answers contents) dev.promBlksize buf := by
  obtain ⟨m', hread, -⟩ := readblock_steady hsteady hmax
    (u32 (le buf (dev.promBlksize + 72) 8)) buf hcontents
  simp only [partitionGptLookup, Partition.partitionGptLookup, hread]
  split
  · rfl
  · rfl

theorem isoLoop_steady (left block : Nat) (buf : Bytes) {m : Machine}
    (hcontents : m.disks dev.disk = contents) :
    ∃ m', isoLoop answers dev left block buf m
        = ((Partition.isoLoop (dev.steady answers contents) left block buf).1,
          (Partition.isoLoop (dev.steady answers contents) left block buf).2, m')
      ∧ m'.disks dev.disk = contents := by
  induction left generalizing block buf m with
  | zero => exact ⟨m, rfl, hcontents⟩
  | succ left ih =>
    obtain ⟨m', hread, hm'⟩ := readblock_steady hsteady hmax block buf hcontents
    simp only [isoLoop, Partition.isoLoop, hread]
    split
    · exact ⟨m', rfl, hm'⟩
    · split
      · exact ⟨m', rfl, hm'⟩
      · exact ih _ _ hm'

theorem amigaFindRdbLoop_steady (left i : Nat) (buf : Bytes) {m : Machine}
    (hcontents : m.disks dev.disk = contents) :
    ∃ m', amigaFindRdbLoop answers dev left i buf m
        = ((Partition.amigaFindRdbLoop (dev.steady answers contents) dev.promBlksize left i
              buf).1,
          (Partition.amigaFindRdbLoop (dev.steady answers contents) dev.promBlksize left i
              buf).2, m')
      ∧ m'.disks dev.disk = contents := by
  induction left generalizing i buf m with
  | zero =>
    obtain ⟨m', hread, hm'⟩ := readblock_steady hsteady hmax 0 buf hcontents
    exact ⟨m', by simp only [amigaFindRdbLoop, Partition.amigaFindRdbLoop, hread], hm'⟩
  | succ left ih =>
    obtain ⟨m₁, hblock, hm₁⟩ : ∃ m₁, (if i ≠ 0 then promReadblocks answers dev i 1 buf m
          else (true, buf, m))
        = ((if i ≠ 0 then Partition.promReadblocks (dev.steady answers contents) i 1 buf
            else (true, buf)).1,
          (if i ≠ 0 then Partition.promReadblocks (dev.steady answers contents) i 1 buf
            else (true, buf)).2, m₁)
        ∧ m₁.disks dev.disk = contents := by
      by_cases hi : i ≠ 0
      · simp only [if_pos hi]
        exact readblock_steady hsteady hmax i buf hcontents
      · simp only [if_neg hi]
        exact ⟨m, rfl, hcontents⟩
    unfold amigaFindRdbLoop Partition.amigaFindRdbLoop
    simp only [hblock]
    generalize (if i ≠ 0 then Partition.promReadblocks (dev.steady answers contents) i 1 buf
      else (true, buf)) = block
    obtain ⟨ok, buf'⟩ := block
    obtain ⟨m₂, hread, hm₂⟩ := readblock_steady hsteady hmax 0 buf' hm₁
    simp only []
    split
    · exact ⟨m₂, by simp only [hread], hm₂⟩
    · split
      · exact ⟨m₁, rfl, hm₁⟩
      · exact ih _ _ hm₁

theorem amigaLoop_steady {blockspercyl : Nat} (fuel part partition : Nat) (used : Int → Nat)
    (buf : Bytes) (list : List PartitionT) {m : Machine}
    (hcontents : m.disks dev.disk = contents) :
    (amigaLoop answers env dev blockspercyl fuel part partition used buf list m).1
      = Partition.amigaLoop env (dev.steady answers contents) dev.promBlksize blockspercyl fuel
        part partition used buf list := by
  induction fuel generalizing part partition used buf list m with
  | zero => rfl
  | succ fuel ih =>
    unfold amigaLoop Partition.amigaLoop
    split
    · rfl
    · obtain ⟨m', hread, hm'⟩ := readblock_steady hsteady hmax part buf hcontents
      simp only [hread]
      split
      · rfl
      · split
        · exact ih _ _ _ _ _ hm'
        · rfl

/-! ## §3 The lookup -/

theorem partitionMacLookup_steady (buf : Bytes) {m : Machine} (henv : env.macWriteOnce = true)
    (hlatch : m.macWriteOnce ≠ 0) (hcontents : m.disks dev.disk = contents) :
    (partitionMacLookup answers env dev buf m).1
      = Partition.partitionMacLookup env (dev.steady answers contents) buf := by
  have honce : macOnce answers dev buf m
      = (buf, { m with macWriteOnce := u32 (m.macWriteOnce + 1) }) := by
    unfold macOnce
    simp only []
    rw [if_neg fun h => hlatch h.1]
  obtain ⟨m', hread, hm'⟩ := readblock_steady hsteady hmax 1 buf
    (show ({ m with macWriteOnce := u32 (m.macWriteOnce + 1) } : Machine).disks dev.disk
      = contents from hcontents)
  simp only [partitionMacLookup, Partition.partitionMacLookup, honce, hread, henv, if_true]
  split
  · rfl
  · split
    · rfl
    · exact macLoop_steady hsteady hmax _ _ _ _ hm'

theorem labelLookup_steady {fuel : Nat} (buf : Bytes) {m : Machine}
    (henv : env.macWriteOnce = true) (hlatch : m.macWriteOnce ≠ 0)
    (hcontents : m.disks dev.disk = contents) :
    (labelLookup answers env dev fuel buf m).1
      = if macMagicPresent buf then
          some (Partition.partitionMacLookup env (dev.steady answers contents) buf)
        else if gptMagicPresent buf dev.promBlksize then
          some (Partition.partitionGptLookup env (dev.steady answers contents) dev.promBlksize buf)
        else if msdosMagicPresent buf then
          Partition.partitionMsdosLookup env (dev.steady answers contents) fuel dev.promBlksize buf
        else
          let iso := if dev.promBlksize = 2048
            then Partition.identifyIsoFs (dev.steady answers contents) buf else (none, buf)
          iso.1.elim
            (Partition.partitionAmigaLookup env (dev.steady answers contents) fuel dev.promBlksize
              (Partition.amigaFindRdb (dev.steady answers contents) dev.promBlksize iso.2).2)
            fun root => some (addNewPartition (env.malloc 0 0)
              ⟨0, root, 0, .iso9660, dev.promBlksize, 0⟩ []) := by
  unfold labelLookup
  simp only []
  split
  · rw [partitionMacLookup_steady hsteady hmax buf henv hlatch hcontents]
  · split
    · rw [partitionGptLookup_steady hsteady hmax buf hcontents]
    · split
      · exact msdosSlots_steady hsteady hmax buf [1, 2, 3, 4] [] hcontents
      · obtain ⟨m₁, hiso, hm₁⟩ : ∃ m₁, (if dev.promBlksize = 2048
              then identifyIsoFs answers dev buf m else (none, buf, m))
            = ((if dev.promBlksize = 2048
                then Partition.identifyIsoFs (dev.steady answers contents) buf
                else (none, buf)).1,
              (if dev.promBlksize = 2048
                then Partition.identifyIsoFs (dev.steady answers contents) buf
                else (none, buf)).2, m₁)
            ∧ m₁.disks dev.disk = contents := by
          by_cases hcd : dev.promBlksize = 2048
          · simp only [if_pos hcd]
            exact isoLoop_steady hsteady hmax _ _ buf hcontents
          · simp only [if_neg hcd]
            exact ⟨m, rfl, hcontents⟩
        rw [hiso]
        generalize (if dev.promBlksize = 2048
          then Partition.identifyIsoFs (dev.steady answers contents) buf
          else (none, buf)) = iso
        obtain ⟨root, buf'⟩ := iso
        cases root with
        | some root => rfl
        | none =>
          obtain ⟨m₂, hrdb, hm₂⟩ : ∃ m₂, amigaFindRdb answers dev buf' m₁
              = ((Partition.amigaFindRdb (dev.steady answers contents) dev.promBlksize buf').1,
                (Partition.amigaFindRdb (dev.steady answers contents) dev.promBlksize buf').2, m₂)
              ∧ m₂.disks dev.disk = contents := amigaFindRdbLoop_steady hsteady hmax 16 0 buf' hm₁
          simp only [hrdb, Option.elim_none]
          generalize (Partition.amigaFindRdb (dev.steady answers contents) dev.promBlksize
            buf').2 = buf₂
          unfold partitionAmigaLookup Partition.partitionAmigaLookup
          simp only []
          split
          · rfl
          · exact amigaLoop_steady hsteady hmax _ _ _ _ _ _ hm₂

omit hmax in
/-- **A steady disk is a disk.** With nothing left to write, the lookup of a disk whose firmware
always gives the same answers returns the list that the lookup of its contents returns. -/
theorem partitionsLookup_steady {fuel : Nat} (buf : Bytes) {m : Machine}
    (henv : env.macWriteOnce = true) (hlatch : m.macWriteOnce ≠ 0)
    (hcontents : m.disks dev.disk = contents) :
    (partitionsLookup answers env (some dev) fuel buf m).1
      = Partition.partitionsLookup env (some (dev.steady answers contents)) fuel buf := by
  unfold partitionsLookup Partition.partitionsLookup
  simp only []
  by_cases hbig : maxBlockSize < dev.promBlksize
  · have hbig' : maxBlockSize < (dev.steady answers contents).promBlksize := hbig
    rw [if_pos hbig, if_pos hbig']
  · have hbig' : ¬ maxBlockSize < (dev.steady answers contents).promBlksize := hbig
    have hmax : dev.promBlksize ≤ maxBlockSize := Nat.not_lt.mp hbig
    obtain ⟨m', hread, hm'⟩ := promReadblocks_steady hsteady 0
      (size_pos hmax (show 0 < 2 by decide) (by decide)) buf
      (show ({ m with position := 0 } : Machine).disks dev.disk = contents from hcontents)
    have hkept : Kept { m with position := 0 } m' := kept_of_read hread
    rw [if_neg hbig, if_neg hbig']
    simp only [hread]
    generalize Partition.promReadblocks (dev.steady answers contents) 0 2 buf = boot
    obtain ⟨ok, buf'⟩ := boot
    cases ok with
    | false => rfl
    | true =>
      simp only [Bool.not_true, Bool.false_eq_true, if_false]
      rw [labelLookup_steady hsteady hmax buf' henv (by rw [hkept.once]; exact hlatch) hm']
      by_cases hcd : dev.promBlksize = 2048
      · have hcd' : (dev.steady answers contents).promBlksize = 2048 := hcd
        simp only [if_pos hcd, if_pos hcd']
        cases (Partition.identifyIsoFs (dev.steady answers contents) buf').1 with
        | none => rfl
        | some root => rfl
      · have hcd' : ¬ (dev.steady answers contents).promBlksize = 2048 := hcd
        simp only [if_neg hcd, if_neg hcd', Option.elim_none]
        rfl

end Steady

end LiloBoot.Partition.Session
