/-
LiloBoot.Partition.SessionTheorems — what the lookups of a run write to the disks.

Only `partition_mac_lookup` writes, once in a run: block 0 of a Mac disk goes back without the
line of `lilo -R`. It goes to where the seek before it left the disk, and nothing looks at the
result of that seek; so a seek that fails sends block 0 to another place. The lookups of a run
keep the disks as far as each first read of a Mac disk leaves the write in order.
-/
import LiloBoot.Partition.NumberTheorems
import LiloBoot.Partition.Session

namespace LiloBoot.Partition.Session

/-! ## §1 Reading -/

/-- What a read leaves alone. -/
structure Kept (m m' : Machine) : Prop where
  disks : m'.disks = m.disks
  once : m'.macWriteOnce = m.macWriteOnce
  cmdline : m'.liloOnceCmdline = m.liloOnceCmdline
  writes : m'.writes = m.writes

namespace Kept

theorem refl (m : Machine) : Kept m m := ⟨rfl, rfl, rfl, rfl⟩

theorem trans {m m' m'' : Machine} (h : Kept m m') (h' : Kept m' m'') : Kept m m'' where
  disks := h'.disks.trans h.disks
  once := h'.once.trans h.once
  cmdline := h'.cmdline.trans h.cmdline
  writes := h'.writes.trans h.writes

end Kept

section Reading

variable {answers : Answers} {env : Env} {dev : Device}

theorem promSeek_kept (pos : Nat) (m : Machine) : Kept m (promSeek answers pos m).2 :=
  ⟨rfl, rfl, rfl, rfl⟩

theorem promReadLoop_kept {disk n : Nat} (retries : Nat) (buf : Bytes) (m : Machine) :
    Kept m (promReadLoop answers disk n retries buf m).2.2 := by
  induction retries with
  | zero => exact ⟨rfl, rfl, rfl, rfl⟩
  | succ retries ih =>
    unfold promReadLoop
    by_cases hzero : (answers.read m.calls retries m.position n).status = 0
    · rw [if_pos hzero]
      exact ih
    · rw [if_neg hzero]
      exact ⟨rfl, rfl, rfl, rfl⟩

theorem promRead_kept {disk n : Nat} (buf : Bytes) (m : Machine) :
    Kept m (promRead answers disk n buf m).2.2 := by
  unfold promRead
  split
  · exact Kept.refl m
  · exact promReadLoop_kept 9 buf m

theorem promReadblocks_kept (blockNum blockCount : Nat) (buf : Bytes) (m : Machine) :
    Kept m (promReadblocks answers dev blockNum blockCount buf m).2.2 := by
  have hseek : Kept m (promSeek answers (s32 blockNum * dev.promBlksize % 2 ^ 64).toNat m).2 :=
    promSeek_kept _ m
  unfold promReadblocks
  cases hs : promSeek answers (s32 blockNum * dev.promBlksize % 2 ^ 64).toNat m with
  | mk done m' =>
    rw [hs] at hseek
    cases done with
    | false => exact hseek
    | true => exact hseek.trans (promRead_kept buf m')

/-- The machine behind a read, when the read is named. -/
theorem kept_of_read {blockNum blockCount : Nat} {buf buf' : Bytes} {m m' : Machine} {ok : Bool}
    (h : promReadblocks answers dev blockNum blockCount buf m = (ok, buf', m')) : Kept m m' := by
  have hkept : Kept m (promReadblocks answers dev blockNum blockCount buf m).2.2 :=
    promReadblocks_kept blockNum blockCount buf m
  rwa [h] at hkept

/-- An answer that counts all the bytes has stored them. -/
theorem promReadLoop_stored {disk n : Nat} (hn : 0 < n) {buf buf' : Bytes} {m m' : Machine} :
    ∀ retries, promReadLoop answers disk n retries buf m = ((n : Int), buf', m') →
      buf' = fun i => if i < n then m.disks disk (m.position + i) else buf i := by
  intro retries
  induction retries with
  | zero =>
    intro h
    simp only [promReadLoop, Prod.mk.injEq] at h
    omega
  | succ retries ih =>
    intro h
    unfold promReadLoop at h
    by_cases hzero : (answers.read m.calls retries m.position n).status = 0
    · exact ih (by simpa only [hzero, if_true] using h)
    · rw [if_neg hzero] at h
      simp only [Prod.mk.injEq] at h
      obtain ⟨hstatus, hbuf, -⟩ := h
      rw [← hbuf, hstatus]
      simp

/-- A read of blocks that comes out right has stored the bytes of its place. -/
theorem promReadblocks_stored {blockNum blockCount : Nat} {buf block : Bytes} {m m' : Machine}
    (hsize : 0 < u32 (blockCount * dev.promBlksize))
    (h : promReadblocks answers dev blockNum blockCount buf m = (true, block, m')) (i : Nat) :
    block i =
      if i < u32 (blockCount * dev.promBlksize) then
        m.disks dev.disk ((s32 blockNum * dev.promBlksize % 2 ^ 64).toNat + i)
      else buf i := by
  unfold promReadblocks at h
  cases hseek : promSeek answers (s32 blockNum * dev.promBlksize % 2 ^ 64).toNat m with
  | mk done m₁ =>
    rw [hseek] at h
    cases done with
    | false => simp at h
    | true =>
      have hposition : m₁.position = (s32 blockNum * dev.promBlksize % 2 ^ 64).toNat
          ∧ m₁.disks = m.disks := by
        simp only [promSeek, Prod.mk.injEq] at hseek
        obtain ⟨hdone, hm₁⟩ := hseek
        rw [← hm₁]
        exact ⟨by rw [hdone]; rfl, rfl⟩
      cases hread : promRead answers dev.disk (u32 (blockCount * dev.promBlksize)) buf m₁ with
      | mk status rest =>
        simp only [Bool.not_true, Bool.false_eq_true, if_false, hread, Prod.mk.injEq,
          beq_iff_eq] at h
        obtain ⟨hstatus, hblock, -⟩ := h
        rw [promRead, if_neg (by omega), hstatus] at hread
        have hstored := promReadLoop_stored hsize 9
          (show _ = (_, rest.1, rest.2) from hread)
        rw [← hblock, hstored, hposition.1, hposition.2]

/-! ## §2 The walks only read -/

theorem macLoop_kept {blocksize : Nat} (left block : Nat) (buf : Bytes)
    (list : List PartitionT) (m : Machine) :
    Kept m (macLoop answers env dev blocksize left block buf list m).2 := by
  induction left generalizing block buf list m with
  | zero => exact Kept.refl m
  | succ left ih =>
    cases hread : promReadblocks answers dev block 1 buf m with
    | mk ok rest =>
      have hkept : Kept m rest.2 := kept_of_read hread
      simp only [macLoop, hread]
      split
      · exact hkept
      · split
        · exact hkept
        · exact hkept.trans (ih _ _ _ _)

theorem extendedRecord_kept {slot start size partitionStart partitionSize : Nat} (buf : Bytes)
    (s : Nat × List PartitionT) (m : Machine) :
    Kept m (extendedRecord answers env dev slot start size partitionStart partitionSize
      buf s m).2.2 := by
  unfold extendedRecord
  split
  · exact Kept.refl m
  · cases hread : promReadblocks answers dev partitionStart 1 buf m with
    | mk ok rest =>
      have hkept : Kept m rest.2 := kept_of_read hread
      cases ok with
      | false => exact hkept
      | true =>
        simp only [Bool.not_true, Bool.false_eq_true, if_false]
        split
        · exact hkept
        · exact hkept

theorem msdosExtendedLoop_kept {slot start size : Nat} (fuel partitionStart partitionSize : Nat)
    (buf : Bytes) (s : Nat × List PartitionT) (m : Machine) :
    Kept m (msdosExtendedLoop answers env dev slot start size fuel partitionStart partitionSize
      buf s m).2 := by
  induction fuel generalizing partitionStart partitionSize buf s m with
  | zero => exact Kept.refl m
  | succ fuel ih =>
    have hrecord : Kept m (extendedRecord answers env dev slot start size partitionStart
        partitionSize buf s m).2.2 := extendedRecord_kept buf s m
    unfold msdosExtendedLoop
    cases hr : extendedRecord answers env dev slot start size partitionStart partitionSize
        buf s m with
    | mk s' rest =>
      rw [hr] at hrecord
      obtain ⟨link, m'⟩ := rest
      cases link with
      | none => exact hrecord
      | some next => exact hrecord.trans (ih _ _ _ _ m')

theorem msdosSlot_kept {fuel partition : Nat} (buf : Bytes) (list : List PartitionT)
    (m : Machine) : Kept m (msdosSlot answers env dev fuel buf partition list m).2 := by
  unfold msdosSlot
  simp only []
  split
  · exact Kept.refl m
  · split
    · exact msdosExtendedLoop_kept _ _ _ _ _ m
    · exact Kept.refl m

theorem msdosSlots_kept {fuel : Nat} (buf : Bytes) (slots : List Nat) (list : List PartitionT)
    (m : Machine) : Kept m (msdosSlots answers env dev fuel buf slots list m).2 := by
  induction slots generalizing list m with
  | nil => exact Kept.refl m
  | cons partition rest ih =>
    have hslot : Kept m (msdosSlot answers env dev fuel buf partition list m).2 :=
      msdosSlot_kept buf list m
    unfold msdosSlots
    cases hs : msdosSlot answers env dev fuel buf partition list m with
    | mk result m' =>
      rw [hs] at hslot
      cases result with
      | none => exact hslot
      | some list' => exact hslot.trans (ih list' m')

theorem partitionMsdosLookup_kept {fuel : Nat} (buf : Bytes) (m : Machine) :
    Kept m (partitionMsdosLookup answers env dev fuel buf m).2 := by
  unfold partitionMsdosLookup
  exact msdosSlots_kept buf _ _ m

theorem partitionGptLookup_kept (buf : Bytes) (m : Machine) :
    Kept m (partitionGptLookup answers env dev buf m).2 := by
  cases hread : promReadblocks answers dev (u32 (le buf (dev.promBlksize + 72) 8)) 1 buf m with
  | mk ok rest =>
    have hkept : Kept m rest.2 := kept_of_read hread
    simp only [partitionGptLookup, hread]
    split
    · exact hkept
    · exact hkept

theorem isoLoop_kept (left block : Nat) (buf : Bytes) (m : Machine) :
    Kept m (isoLoop answers dev left block buf m).2.2 := by
  induction left generalizing block buf m with
  | zero => exact Kept.refl m
  | succ left ih =>
    cases hread : promReadblocks answers dev block 1 buf m with
    | mk ok rest =>
      have hkept : Kept m rest.2 := kept_of_read hread
      simp only [isoLoop, hread]
      split
      · exact hkept
      · split
        · exact hkept
        · exact hkept.trans (ih _ _ _)

theorem identifyIsoFs_kept (buf : Bytes) (m : Machine) :
    Kept m (identifyIsoFs answers dev buf m).2.2 := by
  unfold identifyIsoFs
  exact isoLoop_kept _ _ buf m

theorem amigaFindRdbLoop_kept (left i : Nat) (buf : Bytes) (m : Machine) :
    Kept m (amigaFindRdbLoop answers dev left i buf m).2.2 := by
  induction left generalizing i buf m with
  | zero => exact promReadblocks_kept 0 1 buf m
  | succ left ih =>
    unfold amigaFindRdbLoop
    have hblock : Kept m (if i ≠ 0 then promReadblocks answers dev i 1 buf m
        else (true, buf, m)).2.2 := by
      split
      · exact promReadblocks_kept i 1 buf m
      · exact Kept.refl m
    cases hread : (if i ≠ 0 then promReadblocks answers dev i 1 buf m else (true, buf, m)) with
    | mk ok rest =>
      rw [hread] at hblock
      simp only []
      split
      · exact hblock.trans (promReadblocks_kept 0 1 _ _)
      · split
        · exact hblock
        · exact hblock.trans (ih _ _ _)

theorem amigaLoop_kept {blockspercyl : Nat} (fuel part partition : Nat) (used : Int → Nat)
    (buf : Bytes) (list : List PartitionT) (m : Machine) :
    Kept m (amigaLoop answers env dev blockspercyl fuel part partition used buf list m).2 := by
  induction fuel generalizing part partition used buf list m with
  | zero => exact Kept.refl m
  | succ fuel ih =>
    unfold amigaLoop
    split
    · exact Kept.refl m
    · cases hread : promReadblocks answers dev part 1 buf m with
      | mk ok rest =>
        have hkept : Kept m rest.2 := kept_of_read hread
        simp only []
        split
        · exact hkept
        · split
          · exact hkept.trans (ih _ _ _ _ _ _)
          · exact hkept

theorem amigaFindRdb_kept (buf : Bytes) (m : Machine) :
    Kept m (amigaFindRdb answers dev buf m).2.2 := by
  unfold amigaFindRdb
  exact amigaFindRdbLoop_kept _ _ buf m

theorem partitionAmigaLookup_kept {fuel : Nat} (buf : Bytes) (m : Machine) :
    Kept m (partitionAmigaLookup answers env dev fuel buf m).2 := by
  unfold partitionAmigaLookup
  simp only []
  split
  · exact Kept.refl m
  · exact amigaLoop_kept _ _ _ _ _ _ m

end Reading

/-! ## §3 What a lookup may write -/

/-- The 512 bytes of block 0 without its line. -/
def cleaned (block0 : Bytes) : List UInt8 :=
  (List.range 512).map fun i => if liloOnceString block0 ≤ i then 0 else block0 i

/-- A write that takes the line off a Mac disk and keeps it in `lilo_once_cmdline`. -/
structure CleanWrite (before after : Machine) (w : Write) : Prop where
  position : w.position = 0
  mac : macMagicPresent (before.disks w.disk) = true
  bytes : w.bytes = cleaned (before.disks w.disk)
  held : ∀ i < 512 - liloOnceString (before.disks w.disk),
    after.liloOnceCmdline i = before.disks w.disk (liloOnceString (before.disks w.disk) + i)
  ended : ∃ i < 512, after.liloOnceCmdline i = 0

/-- A step writes nothing, or it makes the first write of the run, a clean one. -/
def StepClean (before after : Machine) : Prop :=
  after.writes = before.writes
    ∨ before.writes = [] ∧ ∃ w, after.writes = [w] ∧ CleanWrite before after w

/-- The disks hold what they held at first, but for zeros in place of one line that has been
written back. -/
def Undamaged (first : Nat → Bytes) (m : Machine) : Prop :=
  m.writes = [] ∧ m.disks = first
    ∨ ∃ w, m.writes = [w] ∧ w.position = 0 ∧ macMagicPresent (first w.disk) = true
        ∧ w.bytes = cleaned (first w.disk)
        ∧ ∀ d p, m.disks d p = first d p
          ∨ d = w.disk ∧ liloOnceString (first d) ≤ p ∧ p < 512 ∧ m.disks d p = 0

/-- A lookup reads the boot blocks of a Mac disk. -/
structure FindsMac (answers : Answers) (dev : Device) (buf : Bytes) (m : Machine)
    (block0 : Bytes) (m' : Machine) : Prop where
  blksize : dev.promBlksize ≤ maxBlockSize
  read : promReadblocks answers dev 0 2 buf { m with position := 0 } = (true, block0, m')
  magic : macMagicPresent block0 = true

/-- What the write of a line needs: the seek takes the disk to its start, the 512 bytes to go back
are those of the disk, and the line ends in block 0 or before the end of `lilo_once_cmdline`. -/
structure WriteInOrder (answers : Answers) (dev : Device) (block0 : Bytes) (m : Machine) :
    Prop where
  seek : (promSeek answers 0 m).2.position = 0
  whole : ∀ i < 512, block0 i = m.disks dev.disk i
  ends : ∃ i < 512, (if i < 512 - liloOnceString block0 then block0 (liloOnceString block0 + i)
    else m.liloOnceCmdline i) = 0

/-- The condition on a step: on a Mac disk the latch does not come round to zero, and if the line
is to be taken off, the write is in order. -/
def SafeStep (answers : Answers) (m : Machine) : Event → Prop
  | .lookup _ (some dev) _ buf => ∀ block0 m', FindsMac answers dev buf m block0 m' →
      m.macWriteOnce + 1 < 2 ^ 32
        ∧ (m.macWriteOnce = 0 → onceLine block0 = true → WriteInOrder answers dev block0 m')
  | _ => True

/-- The runs of the loader from the start whose steps are all safe. -/
inductive SafeRun (answers : Answers) (first : Nat → Bytes) : Machine → Prop where
  | start : SafeRun answers first (Machine.start first)
  | step {m : Machine} {e : Event} (run : SafeRun answers first m)
      (safe : SafeStep answers m e) : SafeRun answers first (e.act answers m)

/-! ## §4 A lookup -/

section Lookup

variable {answers : Answers} {env : Env} {dev : Device} {fuel : Nat}

/-- Behind the boot blocks, a lookup only reads, unless the disk is a Mac disk. -/
theorem labelLookup_kept {buf : Bytes} (hmagic : macMagicPresent buf ≠ true) (m : Machine) :
    Kept m (labelLookup answers env dev fuel buf m).2 := by
  have hiso : Kept m (if dev.promBlksize = 2048 then identifyIsoFs answers dev buf m
      else (none, buf, m)).2.2 := by
    split
    · exact identifyIsoFs_kept buf m
    · exact Kept.refl m
  unfold labelLookup
  simp only []
  rw [if_neg hmagic]
  split
  · exact partitionGptLookup_kept buf m
  · split
    · exact partitionMsdosLookup_kept buf m
    · split
      · exact hiso
      · exact (hiso.trans (amigaFindRdb_kept _ _)).trans (partitionAmigaLookup_kept _ _)

/-- Behind `macOnce`, the Mac lookup only reads. -/
theorem partitionMacLookup_kept (buf : Bytes) (m : Machine) :
    Kept (macOnce answers dev buf m).2 (partitionMacLookup answers env dev buf m).2 := by
  cases honce : macOnce answers dev buf m with
  | mk buf' m' =>
    cases hread : promReadblocks answers dev 1 1 buf' m' with
    | mk ok rest =>
      have hkept : Kept m' rest.2 := kept_of_read hread
      simp only [partitionMacLookup, honce, hread]
      split
      · exact hkept
      · split
        · exact hkept
        · exact hkept.trans (macLoop_kept _ _ _ _ _)

/-- A lookup only reads, or it finds a Mac disk, and reads after `macOnce`. -/
theorem lookup_cases (buf : Bytes) (m : Machine) :
    Kept m (partitionsLookup answers env (some dev) fuel buf m).2
      ∨ ∃ block0 m', FindsMac answers dev buf m block0 m' ∧ Kept m m'
        ∧ Kept (macOnce answers dev block0 m').2
          (partitionsLookup answers env (some dev) fuel buf m).2 := by
  have hopen : Kept m { m with position := 0 } := ⟨rfl, rfl, rfl, rfl⟩
  have hfirst : Kept m (promReadblocks answers dev 0 2 buf { m with position := 0 }).2.2 :=
    hopen.trans (promReadblocks_kept 0 2 buf _)
  unfold partitionsLookup
  simp only []
  split
  · exact .inl ⟨rfl, rfl, rfl, rfl⟩
  · rename_i hblksize
    generalize hread : promReadblocks answers dev 0 2 buf { m with position := 0 } = boot
    rw [hread] at hfirst
    obtain ⟨ok, block0, m'⟩ := boot
    cases ok with
    | false => exact .inl hfirst
    | true =>
      simp only [Bool.not_true, Bool.false_eq_true, if_false]
      by_cases hmagic : macMagicPresent block0 = true
      · refine .inr ⟨block0, m', ⟨Nat.not_lt.mp hblksize, hread, hmagic⟩, hfirst, ?_⟩
        unfold labelLookup
        simp only []
        rw [if_pos hmagic]
        exact partitionMacLookup_kept block0 m'
      · exact .inl (hfirst.trans (labelLookup_kept hmagic m'))

end Lookup

/-! ## §5 The write -/

theorem liloOnceString_congr {b b' : Bytes} (h : ∀ i < 512, b i = b' i) :
    liloOnceString b = liloOnceString b' := by
  simp [liloOnceString, be, h]

/-- Without a line, or with the latch set, the disk is left alone. -/
theorem macOnce_quiet {answers : Answers} {dev : Device} {buf : Bytes} {m : Machine}
    (h : ¬ (m.macWriteOnce = 0 ∧ onceLine buf = true)) :
    (macOnce answers dev buf m).2 = { m with macWriteOnce := u32 (m.macWriteOnce + 1) } := by
  unfold macOnce
  simp only []
  rw [if_neg h]

section Clean

variable {answers : Answers} {dev : Device} {block0 : Bytes} {m : Machine}

/-- The machine that `macOnce` leaves when it takes a line off. -/
theorem macOnce_line (honce : m.macWriteOnce = 0) (hline : onceLine block0 = true) :
    (macOnce answers dev block0 m).2
      = (cleanLine answers dev block0 { m with macWriteOnce := 1 }).2 := by
  unfold macOnce
  simp only []
  rw [if_pos ⟨honce, hline⟩, honce]
  rfl

theorem cleanLine_snd (m : Machine) : (cleanLine answers dev block0 m).2
    = promWrite answers dev.disk
      (fun i => if liloOnceString block0 ≤ i ∧ i < 512 then 0 else block0 i) 512
      (promSeek answers 0 { m with
        liloOnceCmdline := fun i => if i < 512 - liloOnceString block0
          then block0 (liloOnceString block0 + i) else m.liloOnceCmdline i }).2 := rfl

theorem promWrite_writes (disk : Nat) (buf : Bytes) (n : Nat) (m : Machine) :
    (promWrite answers disk buf n m).writes
      = m.writes ++ [⟨disk, m.position, (List.range n).map buf⟩] := rfl

/-- The line, the write and the disks behind a write that is in order. -/
structure LineOff (dev : Device) (block0 : Bytes) (m after : Machine) : Prop where
  once : after.macWriteOnce = m.macWriteOnce
  writes : after.writes = m.writes ++ [⟨dev.disk, 0, cleaned (m.disks dev.disk)⟩]
  cmdline : ∀ i, after.liloOnceCmdline i = if i < 512 - liloOnceString block0
    then block0 (liloOnceString block0 + i) else m.liloOnceCmdline i
  disks : ∀ d p, after.disks d p = m.disks d p
    ∨ d = dev.disk ∧ liloOnceString (m.disks d) ≤ p ∧ p < 512 ∧ after.disks d p = 0

theorem cleanLine_lineOff (h : WriteInOrder answers dev block0 m) :
    LineOff dev block0 m (cleanLine answers dev block0 m).2 := by
  have hsame : liloOnceString block0 = liloOnceString (m.disks dev.disk) :=
    liloOnceString_congr h.whole
  have hbytes : (List.range 512).map
        (fun i => if liloOnceString block0 ≤ i ∧ i < 512 then 0 else block0 i)
      = cleaned (m.disks dev.disk) := by
    unfold cleaned
    refine List.map_congr_left fun i hi => ?_
    have hi : i < 512 := List.mem_range.mp hi
    by_cases hp : liloOnceString (m.disks dev.disk) ≤ i
    · simp only [hsame, hp, hi, and_self, if_true]
    · simp only [hsame, hp, h.whole i hi, false_and, if_false]
  rw [cleanLine_snd]
  have hposition : (promSeek answers 0 { m with
      liloOnceCmdline := fun i => if i < 512 - liloOnceString block0
        then block0 (liloOnceString block0 + i) else m.liloOnceCmdline i }).2.position = 0 := h.seek
  refine ⟨rfl, ?_, fun i => rfl, fun d p => ?_⟩
  · rw [promWrite_writes, hposition, hbytes, (promSeek_kept 0 _).writes]
  · unfold promWrite
    simp only [hposition, Nat.zero_le, Nat.sub_zero, true_and]
    split
    · rename_i hwritten
      obtain ⟨rfl, hp⟩ := hwritten
      have hp : p < 512 := by omega
      rw [hsame]
      by_cases hline : liloOnceString (m.disks dev.disk) ≤ p
      · exact .inr ⟨rfl, hline, hp, if_pos ⟨hline, hp⟩⟩
      · exact .inl ((if_neg fun hin => hline hin.1).trans (h.whole p hp))
    · exact .inl rfl

theorem LineOff.stepClean {after : Machine} (h : LineOff dev block0 m after)
    (horder : WriteInOrder answers dev block0 m) (hnone : m.writes = [])
    (hmagic : macMagicPresent block0 = true) : StepClean m after := by
  have hsame : liloOnceString block0 = liloOnceString (m.disks dev.disk) :=
    liloOnceString_congr horder.whole
  have hwrites := h.writes
  rw [hnone, List.nil_append] at hwrites
  refine .inr ⟨hnone, _, hwrites, rfl, ?_, by simp only, ?_, ?_⟩
  · simpa [macMagicPresent, be, horder.whole] using hmagic
  · intro i hi
    simp only [← hsame] at hi ⊢
    rw [h.cmdline, if_pos hi, horder.whole _ (by omega)]
  · obtain ⟨i, hi, hzero⟩ := horder.ends
    exact ⟨i, hi, by rw [h.cmdline, hzero]⟩

theorem LineOff.undamaged {first : Nat → Bytes} {after : Machine}
    (h : LineOff dev block0 m after) (horder : WriteInOrder answers dev block0 m)
    (hnone : m.writes = []) (hmagic : macMagicPresent block0 = true) (hfirst : m.disks = first) :
    Undamaged first after := by
  subst hfirst
  have hwrites := h.writes
  rw [hnone, List.nil_append] at hwrites
  refine .inr ⟨_, hwrites, rfl, ?_, by simp only, h.disks⟩
  simpa [macMagicPresent, be, horder.whole] using hmagic

/-- The condition is exact: a write that takes a line off is clean only if it is in order. -/
theorem cleanLine_clean_iff (hnone : m.writes = []) (hmagic : macMagicPresent block0 = true) :
    StepClean m (cleanLine answers dev block0 m).2 ↔ WriteInOrder answers dev block0 m := by
  refine ⟨fun hclean => ?_, fun h => (cleanLine_lineOff h).stepClean h hnone hmagic⟩
  have hwrites : (cleanLine answers dev block0 m).2.writes
      = [⟨dev.disk, (promSeek answers 0 m).2.position, (List.range 512).map
        fun i => if liloOnceString block0 ≤ i ∧ i < 512 then 0 else block0 i⟩] := by
    rw [cleanLine_snd, promWrite_writes, (promSeek_kept 0 _).writes, hnone, List.nil_append]
    simp only [promSeek]
  obtain hsame | ⟨-, w, hw, hclean⟩ := hclean
  · rw [hwrites, hnone] at hsame
    cases hsame
  · rw [hwrites] at hw
    obtain ⟨rfl, -⟩ := List.cons.inj hw
    have hbyte : ∀ i < 512, (if liloOnceString block0 ≤ i then 0 else block0 i)
        = if liloOnceString (m.disks dev.disk) ≤ i then 0 else m.disks dev.disk i := by
      have hbytes := hclean.bytes
      simp only [cleaned, List.map_inj_left, List.mem_range] at hbytes
      intro i hi
      simpa only [hi, and_true] using hbytes i hi
    have hbefore : ∀ b : Bytes, ∀ i < 18, (if liloOnceString b ≤ i then 0 else b i) = b i := by
      intro b i hi
      rw [if_neg (by simp only [liloOnceString]; omega)]
    have hsame : liloOnceString block0 = liloOnceString (m.disks dev.disk) := by
      have h16 := hbyte 16 (by decide)
      have h17 := hbyte 17 (by decide)
      rw [hbefore _ _ (by decide), hbefore _ _ (by decide)] at h16 h17
      simp [liloOnceString, be, h16, h17]
    refine ⟨hclean.position, fun i hi => ?_, hclean.ended⟩
    by_cases hline : liloOnceString block0 ≤ i
    · have hheld := hclean.held (i - liloOnceString block0) (by simp only [← hsame]; omega)
      simp only [← hsame] at hheld
      rw [show liloOnceString block0 + (i - liloOnceString block0) = i by omega] at hheld
      rw [← hheld]
      have hline' : (cleanLine answers dev block0 m).2.liloOnceCmdline (i - liloOnceString block0)
          = if i - liloOnceString block0 < 512 - liloOnceString block0
            then block0 (liloOnceString block0 + (i - liloOnceString block0))
            else m.liloOnceCmdline (i - liloOnceString block0) := rfl
      rw [hline', if_pos (by omega), show liloOnceString block0 + (i - liloOnceString block0) = i
        by omega]
    · have hi' := hbyte i hi
      rwa [if_neg hline, if_neg (by rwa [← hsame])] at hi'

end Clean

/-! ## §6 A run -/

/-- What a safe run keeps: the disks are undamaged, and nothing is written before the latch is
set. -/
structure Once (first : Nat → Bytes) (m : Machine) : Prop where
  undamaged : Undamaged first m
  latch : m.macWriteOnce = 0 → m.writes = []

theorem Undamaged.of_kept {first : Nat → Bytes} {m m' : Machine} (h : Undamaged first m)
    (hkept : Kept m m') : Undamaged first m' := by
  simpa only [Undamaged, hkept.writes, hkept.disks] using h

theorem Once.of_kept {first : Nat → Bytes} {m m' : Machine} (h : Once first m)
    (hkept : Kept m m') : Once first m' where
  undamaged := h.undamaged.of_kept hkept
  latch := by
    rw [hkept.once, hkept.writes]
    exact h.latch

theorem Once.disks_eq {first : Nat → Bytes} {m : Machine} (h : Once first m)
    (honce : m.macWriteOnce = 0) : m.disks = first := by
  obtain ⟨-, hdisks⟩ | ⟨w, hw, -⟩ := h.undamaged
  · exact hdisks
  · rw [h.latch honce] at hw
    cases hw

theorem StepClean.of_kept {m m' m'' : Machine} (h : StepClean m m') (hkept : Kept m' m'') :
    StepClean m m'' := by
  obtain hsame | ⟨hnone, w, hw, hclean⟩ := h
  · exact .inl (hkept.writes.trans hsame)
  · refine .inr ⟨hnone, w, hkept.writes.trans hw, ?_⟩
    exact ⟨hclean.position, hclean.mac, hclean.bytes, by rw [hkept.cmdline]; exact hclean.held,
      by rw [hkept.cmdline]; exact hclean.ended⟩

theorem StepClean.of_before {m m' after : Machine} (h : StepClean m' after)
    (hwrites : m'.writes = m.writes) (hdisks : m'.disks = m.disks) : StepClean m after := by
  obtain hsame | ⟨hnone, w, hw, hclean⟩ := h
  · exact .inl (hsame.trans hwrites)
  · refine .inr ⟨hwrites.symm.trans hnone, w, hw, ?_⟩
    exact ⟨hclean.position, by rw [← hdisks]; exact hclean.mac,
      by rw [← hdisks]; exact hclean.bytes, by rw [← hdisks]; exact hclean.held, hclean.ended⟩

/-- The step where a Mac disk is found. -/
theorem macOnce_step {answers : Answers} {first : Nat → Bytes} {dev : Device} {block0 : Bytes}
    {m : Machine} (h : Once first m) (hmagic : macMagicPresent block0 = true)
    (hlatch : m.macWriteOnce + 1 < 2 ^ 32)
    (horder : m.macWriteOnce = 0 → onceLine block0 = true → WriteInOrder answers dev block0 m) :
    Once first (macOnce answers dev block0 m).2
      ∧ StepClean m (macOnce answers dev block0 m).2 := by
  by_cases hwrite : m.macWriteOnce = 0 ∧ onceLine block0 = true
  · obtain ⟨honce, hline⟩ := hwrite
    obtain ⟨hseek, hwhole, hends⟩ := horder honce hline
    have hinorder : WriteInOrder answers dev block0 { m with macWriteOnce := 1 } :=
      ⟨hseek, hwhole, hends⟩
    have hoff := cleanLine_lineOff hinorder
    rw [macOnce_line honce hline]
    refine ⟨⟨hoff.undamaged hinorder (h.latch honce) hmagic (h.disks_eq honce), fun hzero => ?_⟩,
      (hoff.stepClean hinorder (h.latch honce) hmagic).of_before rfl rfl⟩
    rw [hoff.once] at hzero
    cases hzero
  · rw [macOnce_quiet hwrite]
    refine ⟨⟨h.undamaged, fun hzero => ?_⟩, .inl rfl⟩
    simp only [u32_of_lt hlatch] at hzero
    omega

/-- A safe step keeps the disks in order, and what it writes is clean. -/
theorem Once.step {answers : Answers} {first : Nat → Bytes} {m : Machine} {e : Event}
    (h : Once first m) (safe : SafeStep answers m e) :
    Once first (e.act answers m) ∧ StepClean m (e.act answers m) := by
  cases e with
  | bootLastLabel label => exact ⟨⟨h.undamaged, h.latch⟩, .inl rfl⟩
  | lineTaken => exact ⟨⟨h.undamaged, h.latch⟩, .inl rfl⟩
  | lookup env dev fuel buf =>
    cases dev with
    | none => exact ⟨h, .inl rfl⟩
    | some dev =>
      have hcases : Kept m (Event.act answers m (.lookup env (some dev) fuel buf))
          ∨ ∃ block0 m', FindsMac answers dev buf m block0 m' ∧ Kept m m'
            ∧ Kept (macOnce answers dev block0 m').2
              (Event.act answers m (.lookup env (some dev) fuel buf)) := lookup_cases buf m
      obtain hkept | ⟨block0, m', hmac, hkept, hrest⟩ := hcases
      · exact ⟨h.of_kept hkept, .inl hkept.writes⟩
      · obtain ⟨hlatch, horder⟩ := safe block0 m' hmac
        obtain ⟨honce, hclean⟩ := macOnce_step (h.of_kept hkept) hmac.magic
          (hkept.once ▸ hlatch) (hkept.once ▸ horder)
        exact ⟨honce.of_kept hrest,
          (hclean.of_before hkept.writes hkept.disks).of_kept hrest⟩

theorem SafeRun.once {answers : Answers} {first : Nat → Bytes} {m : Machine}
    (run : SafeRun answers first m) : Once first m := by
  induction run with
  | start => exact ⟨.inl ⟨rfl, rfl⟩, fun _ => rfl⟩
  | step _ safe ih => exact (ih.step safe).1

/-- **The disks in a safe run.** Whatever the disks hold and the firmware answers: in every state
of a run whose steps are safe, at most one write has been made, of 512 bytes at the start of a Mac
disk, and it has changed nothing there but the line, to zeros; and the step that makes it leaves
the line, ended by a NUL, in `lilo_once_cmdline`. -/
theorem undamaged_of_safe (answers : Answers) (first : Nat → Bytes) (m : Machine)
    (run : SafeRun answers first m) :
    Undamaged first m ∧ ∀ e, SafeStep answers m e → StepClean m (e.act answers m) :=
  ⟨run.once.undamaged, fun _ safe => (run.once.step safe).2⟩

/-- Where every seek succeeds and a block has at least 256 bytes, a lookup is safe as long as the
last byte of `lilo_once_cmdline` is zero. -/
theorem safeStep_of_seeks {answers : Answers} {m : Machine} {env : Env} {dev : Device} {fuel : Nat}
    {buf : Bytes} (hseek : ∀ k pos, (answers.seek k pos).status = 0)
    (hblksize : 256 ≤ dev.promBlksize) (hlast : m.liloOnceCmdline 511 = 0)
    (hlatch : m.macWriteOnce + 1 < 2 ^ 32) :
    SafeStep answers m (.lookup env (some dev) fuel buf) := by
  intro block0 m' hmac
  have hkept : Kept { m with position := 0 } m' := kept_of_read hmac.read
  have hmax : dev.promBlksize ≤ 4096 := hmac.blksize
  have hsize : u32 (2 * dev.promBlksize) = 2 * dev.promBlksize := u32_of_lt (by omega)
  have hstored := promReadblocks_stored (by omega) hmac.read
  refine ⟨hlatch, fun _ _ => ⟨?_, fun i hi => ?_, 511, by decide, ?_⟩⟩
  · simp [promSeek, hseek]
  · have hzero : (s32 0 * (dev.promBlksize : Int) % 2 ^ 64).toNat = 0 := by simp [s32]
    rw [hstored i, if_pos (by omega), hkept.disks, hzero, Nat.zero_add]
  · rw [if_neg (by simp only [liloOnceString]; omega), hkept.cmdline]
    exact hlast

/-! ## §7 Two firmwares -/

/-- A Mac disk with one driver and the line `L` behind it. -/
def lineDisk (_ p : Nat) : UInt8 :=
  if p = 0 then 0x45 else if p = 1 then 0x52 else if p = 2 then 0x02 else if p = 17 then 0x01
  else if p = 26 then 0x4c else 0

/-- Firmware that does what it is asked for, but for seeks under some numbers: they leave a disk
where it is after two blocks. -/
def goodAnswers (deaf : Nat → Bool) : Answers where
  seek k _ := if deaf k then ⟨-1, 1024⟩ else ⟨0, 0⟩
  read _ _ _ n := ⟨n, 0⟩
  write _ := 512

/-- The lookup of `lineDisk`. -/
def lineLookup : Event := .lookup roomyEnv (some ⟨0, 512⟩) 0 fun _ => 0

theorem goodAnswers_safe :
    SafeRun (goodAnswers fun _ => false) lineDisk
      (lineLookup.act (goodAnswers fun _ => false) (Machine.start lineDisk)) :=
  .step .start (safeStep_of_seeks (fun _ _ => rfl) (by decide) rfl (by decide))

/-- Where the seeks succeed, block 0 is written back, and only the line is gone. -/
theorem lineDisk_undamaged :
    (lineLookup.act (goodAnswers fun _ => false) (Machine.start lineDisk)).writes.map (·.position)
        = [0]
      ∧ Undamaged lineDisk
        (lineLookup.act (goodAnswers fun _ => false) (Machine.start lineDisk)) :=
  ⟨by decide +kernel, (undamaged_of_safe _ lineDisk _ goodAnswers_safe).1⟩

/-- Where the seek before the write fails, block 0 goes to block 2, the second entry of the
partition map. -/
theorem failed_seek_misplaces :
    (lineLookup.act (goodAnswers fun k => k == 2) (Machine.start lineDisk)).disks 0 1024
        ≠ lineDisk 0 1024
      ∧ ¬ StepClean (Machine.start lineDisk)
        (lineLookup.act (goodAnswers fun k => k == 2) (Machine.start lineDisk)) := by
  refine ⟨by decide +kernel, ?_⟩
  have hwrites : (lineLookup.act (goodAnswers fun k => k == 2)
      (Machine.start lineDisk)).writes.map (·.position) = [1024] := by decide +kernel
  rintro (hsame | ⟨-, w, hw, hclean⟩)
  · rw [hsame] at hwrites
    cases hwrites
  · rw [hw, List.map_cons, hclean.position] at hwrites
    cases hwrites

end LiloBoot.Partition.Session
