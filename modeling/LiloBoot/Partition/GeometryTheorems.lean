/-
LiloBoot.Partition.GeometryTheorems — starts and sizes.

Each lookup lists just the entries of `Source`, and an entry has the numbers
of its fields reduced modulo 2^32. So the geometry is exact just where the
numbers are of 32 bits, and the bound check where the two sums it compares
overflow together.
-/
import LiloBoot.Partition.Geometry

namespace LiloBoot.Partition

/-! ## §1 Numbers of 32 bits -/

theorem le_lt (b : Bytes) (pos n : Nat) : le b pos n < 256 ^ n := by
  induction n with
  | zero => exact Nat.one_pos
  | succ n ih =>
    have hbyte : (b (pos + n)).toNat ≤ 255 := Nat.le_of_lt_succ (b (pos + n)).toNat_lt
    have hmul := Nat.mul_le_mul_right (256 ^ n) hbyte
    rw [le, Nat.pow_succ]
    omega

theorem be_lt (b : Bytes) (pos n : Nat) : be b pos n < 256 ^ n := by
  induction n with
  | zero => exact Nat.one_pos
  | succ n ih =>
    have hbyte := (b (pos + n)).toNat_lt
    rw [be, Nat.pow_succ]
    omega

theorem emod_eq_self_iff {x : Int} : x % 2 ^ 32 = x ↔ FitsWord x := by
  rw [FitsWord]
  omega

theorem cast_u32 (n : Nat) : ((u32 n : Nat) : Int) = (n : Int) % 2 ^ 32 := by
  rw [u32]
  omega

/-! ## §2 What is listed -/

section Listed

variable {env : Env} {disk : Disk} {blksize : Nat}

theorem mem_addNewPartition {part : Bool} {p q : PartitionT} {list : List PartitionT} :
    q ∈ addNewPartition part p list ↔ q ∈ list ∨ (part = true ∧ q = p) := by
  rw [addNewPartition]
  cases part with
  | false => simp
  | true => simp [or_comm]

theorem macLoop_listed (p : PartitionT) (left : Nat) : ∀ block before list,
    p ∈ macLoop env disk blksize left block before list
      ↔ p ∈ list ∨ ∃ fields, MacSource env disk blksize left block before fields p := by
  induction left with
  | zero =>
    intro block before list
    constructor
    · exact .inl
    · rintro (h | ⟨fields, h⟩)
      · exact h
      · cases h
  | succ left ih =>
    intro block before list
    rw [macLoop]
    rcases hread : promReadblocks disk block 1 before with ⟨ok, buf⟩
    by_cases hok : ok = true ∧ be buf 0 2 = macPartitionMagic
    · obtain ⟨rfl, hmagic⟩ := hok
      simp only [hmagic, Bool.not_true, Bool.false_eq_true, if_false, ne_eq, not_true_eq_false]
      rw [ih, mem_addNewPartition, or_assoc]
      refine or_congr_right ⟨?_, ?_⟩
      · rintro (⟨hmalloc, rfl⟩ | ⟨fields, h⟩)
        · exact ⟨_, .here hread hmagic hmalloc⟩
        · exact ⟨fields, .next hread hmagic h⟩
      · rintro ⟨fields, h⟩
        cases h with
        | here read _ memory =>
          cases hread.symm.trans read
          exact .inl ⟨memory, rfl⟩
        | next read _ rest =>
          cases hread.symm.trans read
          exact .inr ⟨fields, rest⟩
    · have hend : ¬ ∃ fields, MacSource env disk blksize (left + 1) block before fields p := by
        rintro ⟨fields, h⟩
        cases h with
        | here read magic _ =>
          cases hread.symm.trans read
          exact hok ⟨rfl, magic⟩
        | next read magic _ =>
          cases hread.symm.trans read
          exact hok ⟨rfl, magic⟩
      rw [or_iff_left hend]
      cases ok with
      | false => rfl
      | true =>
        have hmagic : be buf 0 2 ≠ macPartitionMagic := fun h => hok ⟨rfl, h⟩
        simp only [hmagic, Bool.not_true, Bool.false_eq_true, if_false, ne_eq, not_false_eq_true,
          if_true]

/-- Block 1 is one turn of the loop like the others. -/
theorem partitionMacLookup_eq (boot : Bytes) : partitionMacLookup env disk boot
    = macLoop env disk (be boot 2 2) (macMapSize env disk boot) 1 (macBoot env boot) [] := by
  rw [macMapSize, macLoop, partitionMacLookup, ← macBoot]

/-- What the first entries of a record add. -/
theorem extendedEntry_listed (slot partitionStart partitionSize : Nat) (buf : Bytes)
    (s : Nat × List PartitionT) (p : PartitionT) (n : Nat) :
    p ∈ ((List.range n).foldl (extendedEntry env slot blksize partitionStart partitionSize buf) s).2
      ↔ p ∈ s.2 ∨ ∃ i < n, isLogical partitionStart partitionSize i (msdosPartition buf i) = true
        ∧ msdosIsLinuxPartition (msdosPartition buf i).sysInd = true
        ∧ env.malloc slot (s.1 + (recordLogicals partitionStart partitionSize buf
            (List.range i)).length) = true
        ∧ p = ⟨s.1 + (recordLogicals partitionStart partitionSize buf (List.range i)).length,
            u32 (partitionStart + (msdosPartition buf i).start), (msdosPartition buf i).size,
            .msdos, blksize, (msdosPartition buf i).sysInd⟩ := by
  induction n with
  | zero =>
    refine ⟨.inl, ?_⟩
    rintro (h | ⟨i, hi, -⟩)
    · exact h
    · exact absurd hi (Nat.not_lt_zero i)
  | succ n ih =>
    have hnumber := (extendedEntry_foldl env slot blksize partitionStart partitionSize buf
      (List.range n) s).1
    have hlast : ∀ {P : Nat → Prop}, (∃ i < n + 1, P i) ↔ (∃ i < n, P i) ∨ P n := by
      intro P
      constructor
      · rintro ⟨i, hi, h⟩
        rcases Nat.lt_or_eq_of_le (Nat.lt_succ_iff.mp hi) with hlt | rfl
        · exact .inl ⟨i, hlt, h⟩
        · exact .inr h
      · rintro (⟨i, hi, h⟩ | h)
        · exact ⟨i, Nat.lt_succ_of_lt hi, h⟩
        · exact ⟨n, Nat.lt_succ_self n, h⟩
    rw [List.range_succ, List.foldl_append, List.foldl_cons, List.foldl_nil, hlast, ← or_assoc, ← ih]
    generalize (List.range n).foldl (extendedEntry env slot blksize partitionStart partitionSize buf) s
      = t at hnumber ⊢
    rw [← hnumber, extendedEntry]
    by_cases hlogical : isLogical partitionStart partitionSize n (msdosPartition buf n) = true
    · by_cases hlinux : msdosIsLinuxPartition (msdosPartition buf n).sysInd = true
      · simp only [hlogical, hlinux, Bool.not_true, Bool.false_eq_true, if_false, if_true, true_and,
          mem_addNewPartition]
      · simp [hlogical, hlinux]
    · simp [hlogical]

/-- The walk along a chain lists the sources on it. -/
theorem msdosExtendedLoop_listed {slot start size : Nat} (p : PartitionT) (fuel : Nat) :
    ∀ link partitionSize before s list',
    msdosExtendedLoop env disk slot start size blksize fuel (u32 (start + link)) partitionSize before
      s = some list' →
    (p ∈ list' ↔ p ∈ s.2 ∨ ∃ fields, LogicalSource env disk slot start size blksize s.1 link
      partitionSize before fields p) := by
  induction fuel with
  | zero =>
    intro link partitionSize before s list' h
    cases h
  | succ fuel ih =>
    intro link partitionSize before s list' h
    rw [msdosExtendedLoop] at h
    rcases extendedRecord_eq env disk slot start size blksize (u32 (start + link)) partitionSize
      before s with ⟨hstep, hno⟩ | ⟨buf, hrec, hstep⟩
    · rw [hstep] at h
      cases h
      refine ⟨.inl, ?_⟩
      rintro (hmem | ⟨fields, hsource⟩)
      · exact hmem
      · cases hsource with
        | here record => exact absurd record (hno _)
        | next record => exact absurd record (hno _)
    · rw [hstep] at h
      have hnumber := (extendedEntry_foldl env slot blksize (u32 (start + link)) partitionSize buf
        (List.range 4) s).1
      have hentries := @extendedEntry_listed env blksize slot (u32 (start + link)) partitionSize buf s p 4
      cases hlink : extendedLink buf with
      | none =>
        rw [hlink] at h
        cases h
        rw [hentries]
        refine or_congr_right ⟨?_, ?_⟩
        · rintro ⟨i, hi, hlogical, hlinux, hmalloc, rfl⟩
          exact ⟨_, .here hrec hi hlogical hlinux hmalloc⟩
        · rintro ⟨fields, hsource⟩
          cases hsource with
          | here record entry logical linux memory =>
            obtain rfl := hrec.unique record
            exact ⟨_, entry, logical, linux, memory, rfl⟩
          | next record linked =>
            obtain rfl := hrec.unique record
            cases hlink.symm.trans linked
      | some part =>
        rw [hlink] at h
        rw [ih _ _ _ _ _ h, hnumber, hentries, or_assoc]
        refine or_congr_right ⟨?_, ?_⟩
        · rintro (⟨i, hi, hlogical, hlinux, hmalloc, rfl⟩ | ⟨fields, hsource⟩)
          · exact ⟨_, .here hrec hi hlogical hlinux hmalloc⟩
          · exact ⟨fields, .next hrec hlink hsource⟩
        · rintro ⟨fields, hsource⟩
          cases hsource with
          | here record entry logical linux memory =>
            obtain rfl := hrec.unique record
            exact .inl ⟨_, entry, logical, linux, memory, rfl⟩
          | next record linked rest =>
            obtain rfl := hrec.unique record
            cases hlink.symm.trans linked
            exact .inr ⟨fields, rest⟩

theorem amigaLoop_listed {sect heads : Nat} (p : PartitionT) (fuel : Nat) :
    ∀ part partition used before list list',
    amigaLoop env disk blksize (u32 (sect * heads)) fuel part partition used before list = some list' →
    (p ∈ list' ↔ p ∈ list ∨ ∃ fields, AmigaSource env disk blksize sect heads part partition used
      before fields p) := by
  induction fuel with
  | zero =>
    intro part partition used before list list' h
    cases h
  | succ fuel ih =>
    intro part partition used before list list' h
    rw [amigaLoop] at h
    by_cases hblock : ∃ buf, AmigaBlock disk blksize part used before buf
    · obtain ⟨buf, hblock⟩ := hblock
      simp only [hblock.listed, hblock.read, hblock.good, and_self, if_true, if_false, Bool.not_true,
        Bool.false_eq_true] at h
      rw [ih _ _ _ _ _ _ h, mem_addNewPartition, or_assoc]
      refine or_congr_right ⟨?_, ?_⟩
      · rintro (⟨hmalloc, rfl⟩ | ⟨fields, hsource⟩)
        · exact ⟨_, .here hblock hmalloc⟩
        · exact ⟨fields, .next hblock hsource⟩
      · rintro ⟨fields, hsource⟩
        cases hsource with
        | here block memory =>
          cases hblock.read.symm.trans block.read
          exact .inl ⟨memory, rfl⟩
        | next block rest =>
          cases hblock.read.symm.trans block.read
          exact .inr ⟨fields, rest⟩
    · have hend : ¬ ∃ fields, AmigaSource env disk blksize sect heads part partition used before
          fields p := by
        rintro ⟨fields, hsource⟩
        cases hsource with
        | here block => exact hblock ⟨_, block⟩
        | next block => exact hblock ⟨_, block⟩
      rw [or_iff_left hend]
      suffices hlist : list = list' by rw [hlist]
      split at h
      · exact Option.some.inj h
      · rename_i hpart
        rcases hread : promReadblocks disk part 1 before with ⟨ok, buf⟩
        rw [hread] at h
        cases ok with
        | false => exact Option.some.inj h
        | true =>
          simp only [Bool.not_true, Bool.false_eq_true, if_false] at h
          rw [if_neg fun hgood => hblock ⟨buf, hpart, hread, hgood⟩] at h
          exact Option.some.inj h

end Listed

/-! ## §3 The lookup -/

section Lookup

variable {env : Env} {disk : Disk} {fuel : Nat} {buf boot : Bytes} {list : List PartitionT}
  {fields : Fields} {p : PartitionT}

theorem msdosPartition_lt (buf : Bytes) (i : Nat) :
    (msdosPartition buf i).start < 2 ^ 32 ∧ (msdosPartition buf i).size < 2 ^ 32 :=
  ⟨le_lt buf _ 4, le_lt buf _ 4⟩

/-- An entry that comes from one of the primary slots. -/
def SlotSource (env : Env) (disk : Disk) (boot : Bytes) (slot : Nat) (fields : Fields)
    (p : PartitionT) : Prop :=
  let part := msdosPartition boot (slot - 1)
  ((msdosIsLinuxPartition part.sysInd || msdosIsFatPartition part.sysInd) = true
      ∧ env.malloc slot slot = true ∧ fields = .primary part.start part.size
      ∧ p = ⟨slot, part.start, part.size, .msdos, disk.promBlksize, part.sysInd⟩)
    ∨ (msdosIsExtendedPartition part.sysInd = true
      ∧ LogicalSource env disk slot part.start part.size disk.promBlksize 5 0 part.size
        (env.stack slot) fields p)

theorem msdosSlot_listed {slot : Nat} {before after : List PartitionT}
    (h : msdosSlot env disk fuel disk.promBlksize boot before slot = some after) (p : PartitionT) :
    p ∈ after ↔ p ∈ before ∨ ∃ fields, SlotSource env disk boot slot fields p := by
  have hstart := (msdosPartition_lt boot (slot - 1)).1
  simp only [msdosSlot, SlotSource] at h ⊢
  generalize msdosPartition boot (slot - 1) = part at h hstart ⊢
  by_cases hprimary : (msdosIsLinuxPartition part.sysInd || msdosIsFatPartition part.sysInd) = true
  · have hextended : msdosIsExtendedPartition part.sysInd ≠ true := fun hext => by
      rw [not_primary_of_extended hext] at hprimary
      cases hprimary
    rw [if_pos hprimary] at h
    cases h
    rw [mem_addNewPartition]
    refine or_congr_right ⟨fun h => ⟨_, .inl ⟨hprimary, h.1, rfl, h.2⟩⟩, ?_⟩
    rintro ⟨fields, ⟨-, hmalloc, -, hp⟩ | ⟨hext, -⟩⟩
    · exact ⟨hmalloc, hp⟩
    · exact absurd hext hextended
  · rw [if_neg hprimary] at h
    by_cases hextended : msdosIsExtendedPartition part.sysInd = true
    · rw [if_pos hextended, msdosParseExtended] at h
      have hzero : u32 (part.start + 0) = part.start := by
        rw [Nat.add_zero]
        exact u32_of_lt hstart
      have hrun : msdosExtendedLoop env disk slot part.start part.size disk.promBlksize fuel
          (u32 (part.start + 0)) part.size (env.stack slot) (5, before) = some after := by
        rw [hzero]
        exact h
      rw [msdosExtendedLoop_listed p fuel 0 part.size _ _ _ hrun]
      refine or_congr_right (exists_congr fun fields => ⟨fun h => .inr ⟨hextended, h⟩, ?_⟩)
      rintro (⟨hkind, -⟩ | ⟨-, h⟩)
      · exact absurd hkind hprimary
      · exact h
    · rw [if_neg hextended] at h
      cases h
      refine ⟨.inl, ?_⟩
      rintro (h | ⟨fields, ⟨hkind, -⟩ | ⟨hext, -⟩⟩)
      · exact h
      · exact absurd hkind hprimary
      · exact absurd hext hextended

theorem foldlM_listed {S : Nat → PartitionT → Prop}
    {step : List PartitionT → Nat → Option (List PartitionT)}
    (hstep : ∀ slot before after, step before slot = some after →
      ∀ p, p ∈ after ↔ p ∈ before ∨ S slot p) (p : PartitionT) (slots : List Nat) :
    ∀ before after, slots.foldlM step before = some after →
      (p ∈ after ↔ p ∈ before ∨ ∃ slot ∈ slots, S slot p) := by
  induction slots with
  | nil =>
    intro before after h
    cases h
    simp
  | cons slot slots ih =>
    intro before after h
    rw [List.foldlM_cons] at h
    obtain ⟨mid, hmid, hrest⟩ := Option.bind_eq_some_iff.mp h
    rw [ih mid after hrest, hstep slot before mid hmid, List.exists_mem_cons_iff, or_assoc]

/-- The sources, format by format. -/
theorem source_iff (hread : BootRead disk buf boot) : Source env disk buf fields p
    ↔ (macMagicPresent boot = true ∧ MacSource env disk (be boot 2 2) (macMapSize env disk boot) 1
          (macBoot env boot) fields p)
      ∨ (macMagicPresent boot = false ∧ gptMagicPresent boot disk.promBlksize = false
          ∧ msdosMagicPresent boot = true ∧ ∃ slot ∈ [1, 2, 3, 4], SlotSource env disk boot slot fields p)
      ∨ (AmigaDisk env disk buf boot
          ∧ AmigaSource env disk disk.promBlksize (amigaBlock (amigaBoot disk boot) 17)
            (amigaBlock (amigaBoot disk boot) 18) (amigaBlock (amigaBoot disk boot) 7) 1
            (amigaUsed env (amigaBoot disk boot)) (amigaBoot disk boot) fields p) := by
  have hsame : ∀ {boot' : Bytes}, promReadblocks disk 0 2 buf = (true, boot') → boot' = boot :=
    fun h => congrArg Prod.snd (h.symm.trans hread.read)
  constructor
  · intro h
    cases h with
    | mac read magic source =>
      obtain rfl := hsame read.read
      exact .inl ⟨magic, source⟩
    | @primary _ slot msdos place kind memory =>
      obtain rfl := hsame msdos.read
      exact .inr (.inl ⟨msdos.mac, msdos.gpt, msdos.magic, slot, place, .inl ⟨kind, memory, rfl, rfl⟩⟩)
    | @logical _ slot _ _ msdos place extended source =>
      obtain rfl := hsame msdos.read
      exact .inr (.inl ⟨msdos.mac, msdos.gpt, msdos.magic, slot, place, .inr ⟨extended, source⟩⟩)
    | amiga disk' source =>
      obtain rfl := hsame disk'.read
      exact .inr (.inr ⟨disk', source⟩)
  · rintro (⟨hmac, hsource⟩ | ⟨hmac, hgpt, hmsdos, slot, hslot, hsource⟩ | ⟨hamiga, hsource⟩)
    · exact .mac hread hmac hsource
    · have hdisk : MsdosDisk disk buf boot := ⟨hread.blksize, hread.read, hmac, hgpt, hmsdos⟩
      rcases hsource with ⟨hkind, hmalloc, rfl, rfl⟩ | ⟨hextended, hsource⟩
      · exact .primary hdisk hslot hkind hmalloc
      · exact .logical hdisk hslot hextended hsource
    · exact .amiga hamiga hsource

theorem Source.bootRead (h : Source env disk buf fields p) : ∃ boot, BootRead disk buf boot := by
  cases h with
  | mac read => exact ⟨_, read⟩
  | primary msdos => exact ⟨_, msdos.blksize, msdos.read⟩
  | logical msdos => exact ⟨_, msdos.blksize, msdos.read⟩
  | amiga disk' => exact ⟨_, disk'.blksize, disk'.read⟩

theorem MacSource.label {blksize left block : Nat} {before : Bytes}
    (h : MacSource env disk blksize left block before fields p) : p.label = .mac := by
  induction h with
  | here => rfl
  | next _ _ _ ih => exact ih

theorem LogicalSource.label {slot start size blksize number link partitionSize : Nat} {before : Bytes}
    (h : LogicalSource env disk slot start size blksize number link partitionSize before fields p) :
    p.label = .msdos := by
  induction h with
  | here => rfl
  | next _ _ _ ih => exact ih

theorem AmigaSource.label {blksize sect heads part partition : Nat} {used : Int → Nat} {before : Bytes}
    (h : AmigaSource env disk blksize sect heads part partition used before fields p) :
    p.label = .amiga := by
  induction h with
  | here => rfl
  | next _ _ ih => exact ih

theorem Source.hasGeometry (h : Source env disk buf fields p) : hasGeometry p.label = true := by
  cases h with
  | mac _ _ source => rw [source.label]; rfl
  | primary => rfl
  | logical _ _ _ source => rw [source.label]; rfl
  | amiga _ source => rw [source.label]; rfl

theorem gptEntries_label {blksize : Nat} (numbers : List Nat) : ∀ before : List PartitionT,
    (∀ q ∈ before, LiloBoot.Partition.hasGeometry q.label = false) →
    ∀ q ∈ numbers.foldl (gptEntry env blksize buf) before,
      LiloBoot.Partition.hasGeometry q.label = false := by
  induction numbers with
  | nil =>
    intro before h
    exact h
  | cons number numbers ih =>
    intro before h
    refine ih _ fun q hq => ?_
    rw [gptEntry] at hq
    split at hq
    · rcases mem_addNewPartition.mp hq with hq | ⟨-, rfl⟩
      · exact h q hq
      · rfl
    · exact h q hq

theorem partitionGptLookup_label {blksize : Nat} {q : PartitionT}
    (hq : q ∈ partitionGptLookup env disk blksize boot) :
    LiloBoot.Partition.hasGeometry q.label = false := by
  rw [partitionGptLookup] at hq
  split at hq
  split at hq
  · exact absurd hq List.not_mem_nil
  · exact gptEntries_label _ [] (fun q hq => absurd hq List.not_mem_nil) q hq

/-- **The Mac, MSDOS and Amiga entries of a lookup are those with a source.** -/
theorem lookup_listed (h : partitionsLookup env (some disk) fuel buf = some list) (p : PartitionT) :
    (p ∈ list ∧ hasGeometry p.label = true) ↔ ∃ fields, Source env disk buf fields p := by
  -- without boot blocks there is neither an entry nor a source
  have hnothing : (∀ boot, ¬ BootRead disk buf boot) → list = [] →
      ((p ∈ list ∧ hasGeometry p.label = true) ↔ ∃ fields, Source env disk buf fields p) := by
    rintro hno rfl
    refine ⟨fun h => absurd h.1 List.not_mem_nil, ?_⟩
    rintro ⟨fields, hsource⟩
    obtain ⟨boot, hboot⟩ := hsource.bootRead
    exact absurd hboot (hno boot)
  simp only [partitionsLookup] at h
  by_cases hsize : maxBlockSize < disk.promBlksize
  · rw [if_pos hsize] at h
    exact hnothing (fun boot hboot => absurd hboot.blksize (Nat.not_le.mpr hsize))
      (Option.some.inj h).symm
  rw [if_neg hsize] at h
  rcases hread : promReadblocks disk 0 2 buf with ⟨ok, boot⟩
  rw [hread] at h
  cases ok with
  | false =>
    refine hnothing (fun boot hboot => ?_) (Option.some.inj h).symm
    cases hread.symm.trans hboot.read
  | true =>
    have hboot : BootRead disk buf boot := ⟨Nat.not_lt.mp hsize, hread⟩
    simp only [Bool.not_true, Bool.false_eq_true, if_false] at h
    -- it is enough to look at the entries, once no other label is among them
    have hlabels : ∀ S : Prop, (p ∈ list ↔ S) → (S → hasGeometry p.label = true) →
        ((p ∈ list ∧ hasGeometry p.label = true) ↔ S) := by
      intro S hiff hlabel
      rw [hiff]
      exact ⟨fun h => h.1, fun h => ⟨h, hlabel h⟩⟩
    have hsource : (∃ fields, Source env disk buf fields p) → hasGeometry p.label = true := by
      rintro ⟨fields, h⟩
      exact h.hasGeometry
    by_cases hmac : macMagicPresent boot = true
    · rw [if_pos hmac, partitionMacLookup_eq] at h
      cases h
      refine hlabels _ ?_ hsource
      rw [macLoop_listed]
      simp only [source_iff hboot, hmac, List.not_mem_nil, false_or, true_and, Bool.true_eq_false,
        false_and]
      refine exists_congr fun fields => ⟨.inl, ?_⟩
      rintro (h | h)
      · exact h
      · exact absurd (hmac.symm.trans h.1.mac) (by decide)
    rw [if_neg hmac] at h
    rw [Bool.not_eq_true] at hmac
    by_cases hgpt : gptMagicPresent boot disk.promBlksize = true
    · rw [if_pos hgpt] at h
      cases h
      constructor
      · rintro ⟨hmem, hgeometry⟩
        rw [partitionGptLookup_label hmem] at hgeometry
        cases hgeometry
      · rintro ⟨fields, h⟩
        rcases (source_iff hboot).mp h with ⟨hmac', -⟩ | ⟨-, hgpt', -⟩ | ⟨hamiga, -⟩
        · rw [hmac] at hmac'
          cases hmac'
        · rw [hgpt] at hgpt'
          cases hgpt'
        · exact absurd (hgpt.symm.trans hamiga.gpt) (by decide)
    rw [if_neg hgpt] at h
    rw [Bool.not_eq_true] at hgpt
    by_cases hmsdos : msdosMagicPresent boot = true
    · rw [if_pos hmsdos] at h
      refine hlabels _ ?_ hsource
      rw [foldlM_listed (fun _ _ _ hs => msdosSlot_listed hs) p _ _ _ h]
      simp only [source_iff hboot, hmac, hgpt, hmsdos, Bool.false_eq_true, List.not_mem_nil, false_or,
        false_and, true_and]
      constructor
      · rintro ⟨slot, hslot, fields, h⟩
        exact ⟨fields, .inl ⟨slot, hslot, h⟩⟩
      · rintro ⟨fields, ⟨slot, hslot, h⟩ | h⟩
        · exact ⟨slot, hslot, fields, h⟩
        · exact absurd (hmsdos.symm.trans h.1.msdos) (by decide)
    rw [if_neg hmsdos] at h
    rw [Bool.not_eq_true] at hmsdos
    rw [show (if disk.promBlksize = 2048 then identifyIsoFs disk boot else (none, boot))
      = isoSearch disk boot from rfl] at h
    simp only [source_iff hboot, hmac, hgpt, hmsdos, Bool.false_eq_true, false_or, false_and, and_false]
    cases hiso : (isoSearch disk boot).1 with
    | some block =>
      rw [hiso] at h
      cases h
      constructor
      · rintro ⟨hmem, hgeometry⟩
        rcases mem_addNewPartition.mp hmem with hmem | ⟨-, rfl⟩
        · exact absurd hmem List.not_mem_nil
        · cases hgeometry
      · rintro ⟨fields, hamiga, -⟩
        exact absurd (hiso.symm.trans hamiga.iso) (by simp)
    | none =>
      rw [hiso] at h
      have h : partitionAmigaLookup env disk fuel disk.promBlksize (amigaBoot disk boot)
          = some list := h
      rw [partitionAmigaLookup] at h
      by_cases hused : env.mallocUsed = true
      · simp only [hused, Bool.not_true, Bool.false_eq_true, if_false] at h
        have hamiga : AmigaDisk env disk buf boot := ⟨hboot, hmac, hgpt, hmsdos, hiso, hused⟩
        have hlisted := amigaLoop_listed p fuel _ _ _ _ _ _ h
        simp only [List.not_mem_nil, false_or] at hlisted
        rw [hlisted]
        constructor
        · rintro ⟨⟨fields, h⟩, -⟩
          exact ⟨fields, hamiga, h⟩
        · rintro ⟨fields, -, h⟩
          exact ⟨⟨fields, h⟩, by rw [h.label]; rfl⟩
      · simp only [hused, Bool.not_false, if_true] at h
        cases h
        constructor
        · rintro ⟨hmem, -⟩
          exact absurd hmem List.not_mem_nil
        · rintro ⟨fields, hamiga, -⟩
          exact absurd hamiga.memory hused

end Lookup

/-! ## §4 Exactness -/

section Exact

variable {env : Env} {disk : Disk} {fuel : Nat} {buf : Bytes} {list : List PartitionT}
  {fields : Fields} {p : PartitionT}

/-- The code's values are the ones of the fields modulo 2^32. -/
def Wrapped (fields : Fields) (p : PartitionT) : Prop :=
  (p.partStart : Int) = fields.start % 2 ^ 32 ∧ (p.partSize : Int) = fields.size % 2 ^ 32

theorem MacSource.wrapped {blksize left block : Nat} {before : Bytes}
    (h : MacSource env disk blksize left block before fields p) : Wrapped fields p := by
  induction h with
  | @here _ _ _ buf =>
    refine ⟨cast_u32 _, (emod_eq_self_iff.mpr ⟨Int.natCast_nonneg _, ?_⟩).symm⟩
    exact_mod_cast be_lt buf 84 4
  | next _ _ _ ih => exact ih

theorem LogicalSource.wrapped {slot start size blksize number link partitionSize : Nat}
    {before : Bytes}
    (h : LogicalSource env disk slot start size blksize number link partitionSize before fields p) :
    Wrapped fields p := by
  induction h with
  | @here _ link _ i _ buf =>
    have hsize := (msdosPartition_lt buf i).2
    constructor
    · show ((u32 (u32 (start + link) + (msdosPartition buf i).start) : Nat) : Int)
        = ((start : Int) + link + (msdosPartition buf i).start) % 2 ^ 32
      simp only [u32]
      omega
    · exact (emod_eq_self_iff.mpr ⟨Int.natCast_nonneg _, by exact_mod_cast hsize⟩).symm
  | next _ _ _ ih => exact ih

theorem AmigaSource.wrapped {blksize sect heads part partition : Nat} {used : Int → Nat}
    {before : Bytes}
    (h : AmigaSource env disk blksize sect heads part partition used before fields p) :
    Wrapped fields p := by
  induction h with
  | @here _ _ _ _ buf =>
    have hlow : amigaBlock buf 41 < 2 ^ 32 := be_lt buf _ 4
    constructor
    · show ((u32 (u32 (sect * heads) * amigaBlock buf 41) : Nat) : Int)
        = ((sect : Int) * heads * amigaBlock buf 41) % 2 ^ 32
      rw [cast_u32, Nat.cast_mul, cast_u32, Int.mul_emod, Int.emod_emod, ← Int.mul_emod, Nat.cast_mul]
    · show ((u32 (u32 (sect * heads) * u32 (sub32 (amigaBlock buf 42) (amigaBlock buf 41) + 1)) : Nat) : Int)
        = ((sect : Int) * heads * ((amigaBlock buf 42 : Int) - amigaBlock buf 41 + 1)) % 2 ^ 32
      have hcount : ((u32 (sub32 (amigaBlock buf 42) (amigaBlock buf 41) + 1) : Nat) : Int)
          = ((amigaBlock buf 42 : Int) - amigaBlock buf 41 + 1) % 2 ^ 32 := by
        simp only [sub32, u32]
        omega
      rw [cast_u32, Nat.cast_mul, hcount, cast_u32, ← Int.mul_emod, Nat.cast_mul]
  | next _ _ ih => exact ih

theorem Source.wrapped (h : Source env disk buf fields p) : Wrapped fields p := by
  cases h with
  | mac _ _ source => exact source.wrapped
  | @primary boot slot =>
    obtain ⟨hstart, hsize⟩ := msdosPartition_lt boot (slot - 1)
    constructor
    · exact (emod_eq_self_iff.mpr ⟨Int.natCast_nonneg _, by exact_mod_cast hstart⟩).symm
    · exact (emod_eq_self_iff.mpr ⟨Int.natCast_nonneg _, by exact_mod_cast hsize⟩).symm
  | logical _ _ _ source => exact source.wrapped
  | amiga _ source => exact source.wrapped

/-- An entry is exact just where its fields give numbers of 32 bits. -/
theorem Source.exact_iff (h : Source env disk buf fields p) :
    ((p.partStart : Int) = fields.start ∧ (p.partSize : Int) = fields.size) ↔ fields.Fits := by
  obtain ⟨hstart, hsize⟩ := h.wrapped
  rw [hstart, hsize, emod_eq_self_iff, emod_eq_self_iff, Fields.Fits]

theorem extendedLink_lt {buf : Bytes} {part : MsdosPartition} (h : extendedLink buf = some part) :
    part.start < 2 ^ 32 := by
  obtain ⟨i, -, rfl⟩ := List.mem_map.mp (List.mem_of_find?_eq_some h)
  exact (msdosPartition_lt buf i).1

theorem ChainCheck.link_lt {start size link link' : Nat} {before : Bytes}
    (h : ChainCheck disk start size link before link') (hlink : link < 2 ^ 32) : link' < 2 ^ 32 := by
  induction h with
  | here => exact hlink
  | next _ linked _ ih => exact ih (extendedLink_lt linked)

/-- The bound check is right just where both sums overflow, or neither. -/
theorem chainRejects_iff {start size link : Nat} (hstart : start < 2 ^ 32) (hsize : size < 2 ^ 32)
    (hlink : link < 2 ^ 32) :
    (chainRejects start size link = true ↔ ¬ start + link < start + size)
      ↔ (start + size < 2 ^ 32 ↔ start + link < 2 ^ 32) := by
  rw [chainRejects, decide_eq_true_eq, u32, u32]
  omega

theorem BoundCheck.exact_iff {start size link : Nat} (h : BoundCheck env disk buf start size link) :
    (chainRejects start size link = true ↔ ¬ start + link < start + size)
      ↔ (start + size < 2 ^ 32 ↔ start + link < 2 ^ 32) := by
  cases h with
  | @intro boot slot _ _ _ _ check =>
    obtain ⟨hstart, hsize⟩ := msdosPartition_lt boot (slot - 1)
    exact chainRejects_iff hstart hsize (check.link_lt (by decide))

/-- **Geometry: the entries of a lookup have the starts and sizes that their fields give, and the
bound check rejects just the chain blocks outside the extended partition, if and only if all these
numbers are of 32 bits and the sums of each bound check overflow together.** -/
theorem exact_geometry_iff (env : Env) (disk : Disk) (fuel : Nat) (buf : Bytes)
    (list : List PartitionT) (h : partitionsLookup env (some disk) fuel buf = some list) :
    ExactGeometry env disk buf list ↔ GeometryFits env disk buf := by
  have hlisted := lookup_listed h
  constructor
  · intro hexact
    refine ⟨fun fields p hsource => ?_, fun start size link hcheck => ?_⟩
    · have hmem := ((hlisted p).mpr ⟨fields, hsource⟩).1
      exact hsource.exact_iff.mp (hexact.exact p hmem fields hsource)
    · exact hcheck.exact_iff.mp (hexact.bound start size link hcheck)
  · intro hfits
    refine ⟨fun p hmem hlabel => (hlisted p).mp ⟨hmem, hlabel⟩, fun p _ fields hsource => ?_,
      fun start size link hcheck => ?_⟩
    · exact hsource.exact_iff.mpr (hfits.fields fields p hsource)
    · exact hcheck.exact_iff.mpr (hfits.bound start size link hcheck)

end Exact

theorem oneExtended_geometry :
    ExactGeometry roomyEnv oneExtended (fun _ => 0) [⟨5, 2, 1, .msdos, 512, 0x83⟩]
      ↔ GeometryFits roomyEnv oneExtended (fun _ => 0) :=
  exact_geometry_iff roomyEnv oneExtended 2 (fun _ => 0) _ (by decide +kernel)

/-- A Mac disk with one partition, whose data start 2 blocks behind block 2^32 - 1. -/
def highMac : Disk :=
  sparseDisk [(0, 0x45), (1, 0x52), (2, 0x02), (512, 0x50), (513, 0x4d), (519, 1), (520, 0xff),
    (521, 0xff), (522, 0xff), (523, 0xff), (595, 2), (599, 1)]

/-- The partition that starts at block 2^32 + 1 is listed as starting at block 1. -/
theorem highMac_start_wraps :
    partitionsLookup roomyEnv (some highMac) 1 (fun _ => 0) = some [⟨1, 1, 1, .mac, 512, 0⟩]
      ∧ ¬ ExactGeometry roomyEnv highMac (fun _ => 0) [⟨1, 1, 1, .mac, 512, 0⟩] := by
  refine ⟨by decide +kernel, fun hexact => ?_⟩
  let boot := (promReadblocks highMac 0 2 fun _ => 0).2
  let entry := (promReadblocks highMac 1 1 (macBoot roomyEnv boot)).2
  have hboot : BootRead highMac (fun _ => 0) boot :=
    ⟨by decide, Prod.ext (by decide +kernel) rfl⟩
  have hread : promReadblocks highMac 1 1 (macBoot roomyEnv boot) = (true, entry) :=
    Prod.ext (by decide +kernel) rfl
  have hsource : Source roomyEnv highMac (fun _ => 0)
      (.mac (be entry 8 4) (be entry 80 4) (be entry 84 4)) (macPartition (be boot 2 2) 1 entry) :=
    .mac hboot (by decide +kernel) (.here hread (by decide +kernel) rfl)
  have hentry : macPartition (be boot 2 2) 1 entry = ⟨1, 1, 1, .mac, 512, 0⟩ := by decide +kernel
  rw [hentry] at hsource
  exact absurd (hexact.exact _ (List.mem_singleton_self _) _ hsource).1 (by decide +kernel)

end LiloBoot.Partition
