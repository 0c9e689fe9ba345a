/-
LiloBoot.Partition.AmigaTheorems — the walk along the Amiga partition blocks.

`partition_amiga_lookup` runs whatever `_amiga_find_rdb` answers, counts the length of a block in
words but bounds it by the block size in bytes, and takes a block number off the disk for an index
of `used[]`. It does what it is for exactly if a rigid disk block is there and the chain of
partition blocks fits: their numbers in the words of `used[]`, their sums in a block.
-/
import LiloBoot.Partition.GeometryTheorems
import LiloBoot.Partition.NumberTheorems

namespace LiloBoot.Partition

/-! ## §1 The chain -/

/-- `AMIGA_ID_RDB`. -/
def amigaIdRdb : Nat := 0x5244534B

/-- `AMIGA_ID_PART`. -/
def amigaIdPart : Nat := 0x50415254

/-- A block of this kind whose own words sum to zero. -/
def BlockSound (id blksize : Nat) (buf : Bytes) : Prop :=
  amigaBlock buf 0 = id ∧ amigaChecksum buf (blksize / 4) = 0

/-- The partition blocks on the chain from `part` on, each with its number, up to the first that
is corrupt or visited already; and the block that is, if the chain does not end or break off. -/
inductive AmigaChain (disk : Disk) (blksize : Nat) :
    List Nat → Nat → Bytes → List (Nat × Bytes) → Option (Nat × Bytes) → Prop where
  | ends {visited : List Nat} {before : Bytes} :
      AmigaChain disk blksize visited 0xffffffff before [] none
  | unread {visited : List Nat} {part : Nat} {before : Bytes} (listed : part ≠ 0xffffffff)
      (read : (promReadblocks disk part 1 before).1 = false) :
      AmigaChain disk blksize visited part before [] none
  | stops {visited : List Nat} {part : Nat} {before buf : Bytes} (listed : part ≠ 0xffffffff)
      (read : promReadblocks disk part 1 before = (true, buf))
      (stop : BlockSound amigaIdPart blksize buf → part ∈ visited) :
      AmigaChain disk blksize visited part before [] (some (part, buf))
  | next {visited : List Nat} {part : Nat} {before buf : Bytes} {blocks : List (Nat × Bytes)}
      {stop : Option (Nat × Bytes)} (listed : part ≠ 0xffffffff)
      (read : promReadblocks disk part 1 before = (true, buf))
      (sound : BlockSound amigaIdPart blksize buf) (new : part ∉ visited)
      (rest : AmigaChain disk blksize (part :: visited) (amigaBlock buf 4) buf blocks stop) :
      AmigaChain disk blksize visited part before ((part, buf) :: blocks) stop

/-- The entries of the blocks, numbered from `first` on, as far as there is memory for them. -/
def amigaEntries (malloc : Nat → Nat → Bool) (blksize sect heads first : Nat)
    (blocks : List (Nat × Bytes)) : List PartitionT :=
  ((blocks.zipIdx first).filter fun b => malloc 0 b.2).map
    fun b => amigaPartition blksize sect heads b.2 b.1.2

/-- A block that the walk of the code reads. -/
inductive AmigaMet (disk : Disk) (blksize : Nat) :
    Nat → (Int → Nat) → Bytes → Nat × Bytes → Prop where
  | here {part : Nat} {used : Int → Nat} {before buf : Bytes} (listed : part ≠ 0xffffffff)
      (read : promReadblocks disk part 1 before = (true, buf)) :
      AmigaMet disk blksize part used before (part, buf)
  | next {part : Nat} {used : Int → Nat} {before buf : Bytes} {b : Nat × Bytes}
      (block : AmigaBlock disk blksize part used before buf)
      (rest : AmigaMet disk blksize (amigaBlock buf 4) (useBlock used part) buf b) :
      AmigaMet disk blksize part used before b

/-- The index `part / 32` is in `used[]`, which has `possible + 1` words. -/
def InUsed (boot : Bytes) (part : Nat) : Prop :=
  0 ≤ (s32 part).tdiv 32 ∧ (s32 part).tdiv 32 ≤ (amigaBlock boot 33 / 32 + 1 : Nat)

/-- The words that are summed up are in the block. -/
def SumInBlock (blksize : Nat) (buf : Bytes) : Prop :=
  4 * max 1 (min (amigaBlock buf 1) blksize) ≤ blksize

/-- The bit of `part` is set in `used[]`. -/
def Marked (used : Int → Nat) (part : Nat) : Prop :=
  used ((s32 part).tdiv 32) &&& usedBit part ≠ 0

/-! ## §2 The lookup -/

/-- `partitions_lookup` gets to `_amiga_find_rdb`, with `boot` read. -/
structure AmigaSearch (disk : Disk) (buf boot : Bytes) : Prop extends
    BootRead disk buf boot where
  mac : macMagicPresent boot = false
  gpt : gptMagicPresent boot disk.promBlksize = false
  msdos : msdosMagicPresent boot = false
  iso : (isoSearch disk boot).1 = none

/-- What the walk is to do: it starts from a rigid disk block, comes to an end and lists the
blocks of the chain, whatever there is memory for; its indices are in `used[]` and its sums in
the blocks. -/
structure AmigaRight (env : Env) (disk : Disk) (buf boot : Bytes) : Prop where
  rdb : (amigaFindRdb disk disk.promBlksize (isoSearch disk boot).2).1 = true
    ∧ BlockSound amigaIdRdb disk.promBlksize (amigaBoot disk boot)
  returns : ∃ blocks stop, AmigaChain disk disk.promBlksize []
      (amigaBlock (amigaBoot disk boot) 7) (amigaBoot disk boot) blocks stop
    ∧ ∀ malloc, ∃ fuel, partitionsLookup { env with malloc := malloc } (some disk) fuel buf
      = some (amigaEntries malloc disk.promBlksize (amigaBlock (amigaBoot disk boot) 17)
        (amigaBlock (amigaBoot disk boot) 18) 1 blocks).reverse
  met : env.mallocUsed = true → ∀ b, AmigaMet disk disk.promBlksize
      (amigaBlock (amigaBoot disk boot) 7) (amigaUsed env (amigaBoot disk boot))
      (amigaBoot disk boot) b →
    InUsed (amigaBoot disk boot) b.1 ∧ SumInBlock disk.promBlksize b.2

/-- The buffer when the block `i` has been read behind the blocks before it. -/
def blocksRead (disk : Disk) (buf : Bytes) : Nat → Option Bytes
  | 0 => some buf
  | i + 1 => (blocksRead disk buf i).bind fun b =>
    if (promReadblocks disk (i + 1) 1 b).1 then some (promReadblocks disk (i + 1) 1 b).2 else none

/-- What `_amiga_find_rdb` takes for a rigid disk block. -/
def RdbTaken (blksize : Nat) (buf : Bytes) : Prop :=
  amigaBlock buf 0 = amigaIdRdb ∧ amigaChecksum buf blksize = 0

/-- The block `i` is the first that is taken for a rigid disk block. -/
structure RdbAt (disk : Disk) (buf : Bytes) (i : Nat) (b : Bytes) : Prop where
  few : i < 16
  read : blocksRead disk buf i = some b
  taken : RdbTaken disk.promBlksize b
  first : ∀ j < i, ∀ b', blocksRead disk buf j = some b' → ¬ RdbTaken disk.promBlksize b'

/-- The blocks of a chain fit `used[]` as it is at the start: the numbers of all that are read
have an index in it, and their sums are in the block; those on the chain are clear there; and the
one that the chain comes back to, if it does, has a bit. -/
structure Fits (blksize : Nat) (boot : Bytes) (start : Int → Nat) (blocks : List (Nat × Bytes))
    (stop : Option (Nat × Bytes)) : Prop where
  inside : ∀ b ∈ blocks ++ stop.toList, InUsed boot b.1 ∧ SumInBlock blksize b.2
  clear : ∀ b ∈ blocks, ¬ Marked start b.1
  noticed : ∀ b ∈ stop, BlockSound amigaIdPart blksize b.2 → usedBit b.1 ≠ 0

/-- The chain behind `boot` fits; without memory for `used[]` there is none. -/
def ChainFits (env : Env) (disk : Disk) (boot : Bytes) : Prop :=
  ∀ blocks stop, AmigaChain disk disk.promBlksize [] (amigaBlock boot 7) boot blocks stop →
    if env.mallocUsed then Fits disk.promBlksize boot (amigaUsed env boot) blocks stop
    else blocks = []

/-! ## §3 The chain is one -/

section Chain

variable {disk : Disk} {blksize : Nat}

theorem AmigaChain.unique {visited : List Nat} {part : Nat} {before : Bytes}
    {blocks blocks' : List (Nat × Bytes)} {stop stop' : Option (Nat × Bytes)}
    (h : AmigaChain disk blksize visited part before blocks stop)
    (h' : AmigaChain disk blksize visited part before blocks' stop') :
    blocks = blocks' ∧ stop = stop' := by
  induction h generalizing blocks' stop' with
  | ends =>
    cases h' with
    | ends => exact ⟨rfl, rfl⟩
    | unread listed => exact absurd rfl listed
    | stops listed => exact absurd rfl listed
    | next listed => exact absurd rfl listed
  | unread listed read =>
    cases h' with
    | ends => exact absurd rfl listed
    | unread => exact ⟨rfl, rfl⟩
    | stops _ read' =>
      rw [read'] at read
      cases read
    | next _ read' =>
      rw [read'] at read
      cases read
  | stops listed read stop =>
    cases h' with
    | ends => exact absurd rfl listed
    | unread _ read' =>
      rw [read] at read'
      cases read'
    | stops _ read' =>
      cases read.symm.trans read'
      exact ⟨rfl, rfl⟩
    | next _ read' sound new =>
      cases read.symm.trans read'
      exact absurd (stop sound) new
  | next listed read sound new _ ih =>
    cases h' with
    | ends => exact absurd rfl listed
    | unread _ read' =>
      rw [read] at read'
      cases read'
    | stops _ read' stop =>
      cases read.symm.trans read'
      exact absurd (stop sound) new
    | next _ read' _ _ rest =>
      cases read.symm.trans read'
      obtain ⟨rfl, rfl⟩ := ih rest
      exact ⟨rfl, rfl⟩

theorem amigaBlock_lt (buf : Bytes) (i : Nat) : amigaBlock buf i < 2 ^ 32 := be_lt buf (4 * i) 4

/-- A chain goes on from a block that is sound and new, and ends at any other. -/
theorem amigaChain_from {visited : List Nat} {part : Nat} (before : Bytes)
    (hnext : part ∉ visited → ∀ buf, ∃ blocks stop,
      AmigaChain disk blksize (part :: visited) (amigaBlock buf 4) buf blocks stop) :
    ∃ blocks stop, AmigaChain disk blksize visited part before blocks stop := by
  by_cases hend : part = 0xffffffff
  · subst hend
    exact ⟨[], none, .ends⟩
  · cases hread : promReadblocks disk part 1 before with
    | mk ok buf =>
      cases ok with
      | false => exact ⟨[], none, .unread hend (by rw [hread])⟩
      | true =>
        by_cases hgood : BlockSound amigaIdPart blksize buf ∧ part ∉ visited
        · obtain ⟨blocks, stop, hrest⟩ := hnext hgood.2 buf
          exact ⟨_, stop, .next hend hread hgood.1 hgood.2 hrest⟩
        · refine ⟨[], _, .stops hend hread fun hsound => ?_⟩
          by_contra hnew
          exact hgood ⟨hsound, hnew⟩

/-- Every chain comes to an end: its block numbers are of 32 bits, and none comes up twice. -/
theorem amigaChain_exists (left : Nat) : ∀ (visited : List Nat) (part : Nat) (before : Bytes),
    visited.Nodup → (∀ v ∈ visited, v < 2 ^ 32) → part < 2 ^ 32 →
    2 ^ 32 ≤ visited.length + left →
    ∃ blocks stop, AmigaChain disk blksize visited part before blocks stop := by
  induction left with
  | zero =>
    intro visited part before hnodup hlt hpart hlength
    -- every number has been visited
    have hsub : visited.toFinset ⊆ Finset.range (2 ^ 32) := fun v hv =>
      Finset.mem_range.mpr (hlt v (List.mem_toFinset.mp hv))
    have hall : visited.toFinset = Finset.range (2 ^ 32) :=
      Finset.eq_of_subset_of_card_le hsub (by
        rw [Finset.card_range, List.toFinset_card_of_nodup hnodup]
        exact hlength)
    have hmem : part ∈ visited := by
      rw [← List.mem_toFinset, hall]
      exact Finset.mem_range.mpr hpart
    exact amigaChain_from before fun hnew => absurd hmem hnew
  | succ left ih =>
    intro visited part before hnodup hlt hpart hlength
    refine amigaChain_from before fun hnew buf => ?_
    refine ih (part :: visited) _ buf (List.nodup_cons.mpr ⟨hnew, hnodup⟩) ?_
      (amigaBlock_lt buf 4) (by rw [List.length_cons]; omega)
    intro v hv
    rcases List.mem_cons.mp hv with rfl | hv
    · exact hpart
    · exact hlt v hv

/-! ## §4 The marks -/

variable {boot : Bytes} {part : Nat}

/-- The only negative numbers with an index in `used[]` are those from -31 on, with the index 0
and no bit. -/
theorem usedBit_of_neg (h : InUsed boot part) (hneg : s32 part < 0) : usedBit part = 0 := by
  have hmod : (s32 part).tmod 32 < 0 := by
    have hdiv := h.1
    have := Int.mul_tdiv_add_tmod (s32 part) 32
    omega
  unfold usedBit
  simp only
  rw [if_pos hmod]

theorem usedBit_of_nonneg (h : 0 ≤ s32 part) : usedBit part = 2 ^ ((s32 part).toNat % 32) := by
  have hmod : (s32 part).tmod 32 = ((s32 part).toNat % 32 : Nat) := by
    rw [Int.tmod_eq_emod_of_nonneg h]
    omega
  unfold usedBit
  simp only
  rw [hmod, if_neg (by omega), Int.toNat_natCast, Nat.one_shiftLeft]

/-- Two numbers with one index share a bit only if they are the same. -/
theorem usedBit_and {v : Nat} (hv : InUsed boot v) (hp : InUsed boot part) (hv' : v < 2 ^ 32)
    (hp' : part < 2 ^ 32) (hword : (s32 v).tdiv 32 = (s32 part).tdiv 32) :
    usedBit v &&& usedBit part ≠ 0 ↔ v = part ∧ usedBit part ≠ 0 := by
  by_cases hvneg : s32 v < 0
  · rw [usedBit_of_neg hv hvneg, Nat.zero_and]
    refine ⟨fun h => absurd rfl h, ?_⟩
    rintro ⟨rfl, hbit⟩
    exact absurd (usedBit_of_neg hv hvneg) hbit
  by_cases hpneg : s32 part < 0
  · rw [usedBit_of_neg hp hpneg, Nat.and_zero]
    exact ⟨fun h => absurd rfl h, fun h => absurd rfl h.2⟩
  have hvnat : s32 v = v := by
    unfold s32 at hvneg ⊢
    split at hvneg <;> omega
  have hpnat : s32 part = part := by
    unfold s32 at hpneg ⊢
    split at hpneg <;> omega
  rw [hvnat, hpnat] at hword
  have hdiv : v / 32 = part / 32 := by
    rw [Int.tdiv_eq_ediv_of_nonneg (by omega), Int.tdiv_eq_ediv_of_nonneg (by omega)] at hword
    omega
  rw [usedBit_of_nonneg (by omega), usedBit_of_nonneg (by omega), hvnat, hpnat,
    Int.toNat_natCast, Int.toNat_natCast]
  by_cases heq : v = part
  · subst heq
    rw [Nat.and_self]
    exact ⟨fun h => ⟨rfl, h⟩, fun h => h.2⟩
  · have hbits : v % 32 ≠ part % 32 := by omega
    rw [Nat.two_pow_and, Nat.testBit_two_pow_of_ne (Ne.symm hbits)]
    simp [heq]

/-- A block sets its own mark and no other. -/
theorem marked_useBlock {v : Nat} (hv : InUsed boot v) (hp : InUsed boot part)
    (hv' : v < 2 ^ 32) (hp' : part < 2 ^ 32) (used : Int → Nat) :
    Marked (useBlock used v) part ↔ Marked used part ∨ v = part ∧ usedBit part ≠ 0 := by
  unfold Marked useBlock
  by_cases hword : (s32 part).tdiv 32 = (s32 v).tdiv 32
  · rw [if_pos hword, Nat.and_or_distrib_right, ← usedBit_and hv hp hv' hp' hword.symm]
    simp only [ne_eq, Nat.or_eq_zero_iff, not_and_or]
  · rw [if_neg hword]
    refine ⟨.inl, ?_⟩
    rintro (h | ⟨rfl, -⟩)
    · exact h
    · exact absurd rfl hword

/-- `used[]` holds what it held at the start, and the visited blocks that have a bit. -/
def Marks (boot : Bytes) (start : Int → Nat) (visited : List Nat) (used : Int → Nat) : Prop :=
  ∀ part < 2 ^ 32, InUsed boot part →
    (Marked used part ↔ Marked start part ∨ part ∈ visited ∧ usedBit part ≠ 0)

theorem Marks.start (used : Int → Nat) : Marks boot used [] used := by
  intro part _ _
  simp

theorem Marks.next {start used : Int → Nat} {visited : List Nat}
    (h : Marks boot start visited used) (hin : InUsed boot part) (hlt : part < 2 ^ 32) :
    Marks boot start (part :: visited) (useBlock used part) := by
  intro q hq hqin
  rw [marked_useBlock hin hqin hlt hq, h q hq hqin, List.mem_cons, or_assoc]
  refine or_congr_right ?_
  rw [← or_and_right, or_comm, eq_comm]

/-- Where the words summed up are in the block, the sum is that of the block. -/
theorem amigaChecksum_eq {buf : Bytes} (h : SumInBlock blksize buf) :
    amigaChecksum buf blksize = amigaChecksum buf (blksize / 4) := by
  have hwords : min (amigaBlock buf 1) blksize = min (amigaBlock buf 1) (blksize / 4) := by
    unfold SumInBlock at h
    omega
  unfold amigaChecksum
  rw [hwords]

theorem amigaBlock_iff {used : Int → Nat} {before buf : Bytes} (listed : part ≠ 0xffffffff)
    (hread : promReadblocks disk part 1 before = (true, buf)) (hsum : SumInBlock blksize buf) :
    AmigaBlock disk blksize part used before buf
      ↔ BlockSound amigaIdPart blksize buf ∧ ¬ Marked used part := by
  unfold BlockSound Marked amigaIdPart
  rw [← amigaChecksum_eq hsum, not_not]
  refine ⟨fun h => ⟨⟨h.good.1, h.good.2.1⟩, h.good.2.2⟩, ?_⟩
  rintro ⟨⟨hid, hsum⟩, hfree⟩
  exact ⟨listed, hread, hid, hsum, hfree⟩

/-! ## §5 The walk -/

variable {env : Env} {sect heads : Nat}

/-- The walk stops at a block that is not good. -/
theorem amigaLoop_stops {used : Int → Nat} {before : Bytes}
    (hblock : ∀ buf, ¬ AmigaBlock disk blksize part used before buf) (fuel partition : Nat)
    (list : List PartitionT) :
    amigaLoop env disk blksize (u32 (sect * heads)) (fuel + 1) part partition used before list
      = some list := by
  rw [amigaLoop]
  split
  · rfl
  · rename_i listed
    cases hread : promReadblocks disk part 1 before with
    | mk ok buf =>
      cases ok with
      | false => rfl
      | true =>
        simp only [Bool.not_true, Bool.false_eq_true, if_false]
        rw [if_neg fun hgood => hblock buf ⟨listed, hread, hgood⟩]

/-- And goes on from a good one. -/
theorem amigaLoop_next {used : Int → Nat} {before buf : Bytes}
    (hblock : AmigaBlock disk blksize part used before buf) (fuel partition : Nat)
    (list : List PartitionT) :
    amigaLoop env disk blksize (u32 (sect * heads)) (fuel + 1) part partition used before list
      = amigaLoop env disk blksize (u32 (sect * heads)) fuel (amigaBlock buf 4) (partition + 1)
        (useBlock used part) buf (addNewPartition (env.malloc 0 partition)
          (amigaPartition blksize sect heads partition buf) list) := by
  rw [amigaLoop]
  simp only [hblock.listed, hblock.read, hblock.good, and_self, if_true, if_false, Bool.not_true,
    Bool.false_eq_true]
  rfl

/-- The loop only adds to the list. -/
theorem amigaLoop_adds (fuel : Nat) :
    ∀ part partition used before list list',
      amigaLoop env disk blksize (u32 (sect * heads)) fuel part partition used before list
        = some list' → ∃ added, list' = added ++ list := by
  induction fuel with
  | zero =>
    intro part partition used before list list' h
    cases h
  | succ fuel ih =>
    intro part partition used before list list' h
    by_cases hblock : ∃ buf, AmigaBlock disk blksize part used before buf
    · obtain ⟨buf, hblock⟩ := hblock
      rw [amigaLoop_next hblock] at h
      obtain ⟨added, rfl⟩ := ih _ _ _ _ _ _ h
      unfold addNewPartition
      split
      · exact ⟨added ++ [_], by rw [List.append_assoc]; rfl⟩
      · exact ⟨added, rfl⟩
    · rw [amigaLoop_stops fun buf hb => hblock ⟨buf, hb⟩] at h
      exact ⟨[], (Option.some.inj h).symm⟩

theorem amigaEntries_cons (malloc : Nat → Nat → Bool) (first : Nat) (b : Nat × Bytes)
    (blocks : List (Nat × Bytes)) (list : List PartitionT) :
    (amigaEntries malloc blksize sect heads first (b :: blocks)).reverse ++ list
      = (amigaEntries malloc blksize sect heads (first + 1) blocks).reverse
        ++ addNewPartition (malloc 0 first) (amigaPartition blksize sect heads first b.2) list := by
  unfold amigaEntries addNewPartition
  rw [List.zipIdx_cons, List.filter_cons]
  split
  · simp
  · rfl

theorem Fits.rest {start : Int → Nat} {b : Nat × Bytes} {blocks : List (Nat × Bytes)}
    {stop : Option (Nat × Bytes)} (h : Fits blksize boot start (b :: blocks) stop) :
    Fits blksize boot start blocks stop where
  inside := fun b' hb' => h.inside b' (List.mem_cons_of_mem b hb')
  clear := fun b' hb' => h.clear b' (List.mem_cons_of_mem b hb')
  noticed := h.noticed

/-- **Along a chain that fits** the code lists the blocks, and reads no others. -/
theorem amigaLoop_right (sect heads : Nat) {start : Int → Nat} {visited : List Nat} {before : Bytes}
    {blocks : List (Nat × Bytes)} {stop : Option (Nat × Bytes)}
    (h : AmigaChain disk blksize visited part before blocks stop) :
    ∀ used, part < 2 ^ 32 → Marks boot start visited used → Fits blksize boot start blocks stop →
      (∀ (env : Env) partition list, ∃ fuel,
        amigaLoop env disk blksize (u32 (sect * heads)) fuel part partition used before list
          = some ((amigaEntries env.malloc blksize sect heads partition blocks).reverse ++ list))
      ∧ ∀ b, AmigaMet disk blksize part used before b → b ∈ blocks ++ stop.toList := by
  induction h with
  | ends =>
    intro used _ _ _
    refine ⟨fun env partition list => ⟨1, rfl⟩, fun b hb => ?_⟩
    cases hb with
    | here listed => exact absurd rfl listed
    | next block => exact absurd rfl block.listed
  | @unread _ part before listed read =>
    intro used _ _ _
    have hblock : ∀ buf, ¬ AmigaBlock disk blksize part used before buf := by
      intro buf hb
      rw [hb.read] at read
      cases read
    refine ⟨fun env partition list => ⟨1, amigaLoop_stops hblock 0 partition list⟩, fun b hb => ?_⟩
    cases hb with
    | here _ read' =>
      rw [read'] at read
      cases read
    | next block => exact absurd block (hblock _)
  | @stops _ part before buf listed read stop =>
    intro used hlt hmarks hfits
    obtain ⟨hin, hsum⟩ := hfits.inside (part, buf) (by simp)
    have hblock : ∀ buf', ¬ AmigaBlock disk blksize part used before buf' := by
      intro buf' hb
      cases read.symm.trans hb.read
      obtain ⟨hsound, hfree⟩ := (amigaBlock_iff listed read hsum).mp hb
      have hnoticed := hfits.noticed (part, buf) (Option.mem_some_self _) hsound
      exact hfree ((hmarks _ hlt hin).mpr (.inr ⟨stop hsound, hnoticed⟩))
    refine ⟨fun env partition list => ⟨1, amigaLoop_stops hblock 0 partition list⟩, fun b hb => ?_⟩
    cases hb with
    | here _ read' =>
      cases read.symm.trans read'
      simp
    | next block => exact absurd block (hblock _)
  | @next _ part before buf _ _ listed read sound new _ ih =>
    intro used hlt hmarks hfits
    obtain ⟨hin, hsum⟩ := hfits.inside (part, buf) (List.mem_cons_self ..)
    have hfree : ¬ Marked used part := by
      rw [hmarks _ hlt hin]
      rintro (hmark | ⟨hvisited, -⟩)
      · exact hfits.clear _ (List.mem_cons_self ..) hmark
      · exact new hvisited
    have hblock := (amigaBlock_iff listed read hsum).mpr ⟨sound, hfree⟩
    obtain ⟨hlists, hmet⟩ := ih _ (amigaBlock_lt _ 4) (hmarks.next hin hlt) hfits.rest
    refine ⟨fun env partition list => ?_, fun b hb => ?_⟩
    · obtain ⟨fuel, hfuel⟩ := hlists env (partition + 1) (addNewPartition (env.malloc 0 partition)
        (amigaPartition blksize sect heads partition _) list)
      exact ⟨fuel + 1, by rw [amigaLoop_next hblock, hfuel, amigaEntries_cons]⟩
    · cases hb with
      | here _ read' =>
        cases read.symm.trans read'
        exact List.mem_cons_self ..
      | next block rest =>
        cases read.symm.trans block.read
        exact List.mem_cons_of_mem _ (hmet b rest)

/-- **And it does so only along a chain that fits.** -/
theorem fits_of_right (env : Env) (sect heads : Nat) {start : Int → Nat} {visited : List Nat} {before : Bytes}
    {blocks : List (Nat × Bytes)} {stop : Option (Nat × Bytes)}
    (hmalloc : ∀ n, env.malloc 0 n = true)
    (h : AmigaChain disk blksize visited part before blocks stop) :
    ∀ used partition list fuel, part < 2 ^ 32 → Marks boot start visited used →
      amigaLoop env disk blksize (u32 (sect * heads)) fuel part partition used before list
        = some ((amigaEntries env.malloc blksize sect heads partition blocks).reverse ++ list) →
      (∀ b, AmigaMet disk blksize part used before b →
        InUsed boot b.1 ∧ SumInBlock blksize b.2) →
      Fits blksize boot start blocks stop := by
  induction h with
  | ends =>
    intro used partition list fuel _ _ _ _
    exact ⟨by simp, by simp, by simp⟩
  | unread =>
    intro used partition list fuel _ _ _ _
    exact ⟨by simp, by simp, by simp⟩
  | @stops _ part before buf listed read stop =>
    intro used partition list fuel hlt hmarks hrun hmet
    obtain ⟨hin, hsum⟩ := hmet _ (.here listed read)
    refine ⟨by simpa using ⟨hin, hsum⟩, by simp, ?_⟩
    intro b hb hsound hbit
    cases Option.mem_some_iff.mp hb
    -- without a bit the block would be listed again
    have hfree : ¬ Marked used part := fun hmark => hmark (by rw [hbit, Nat.and_zero])
    have hblock := (amigaBlock_iff listed read hsum).mpr ⟨hsound, hfree⟩
    cases fuel with
    | zero => cases hrun
    | succ fuel =>
      rw [amigaLoop_next hblock] at hrun
      obtain ⟨added, hadded⟩ := amigaLoop_adds _ _ _ _ _ _ _ hrun
      have hlength := congrArg List.length hadded
      simp [amigaEntries, addNewPartition, hmalloc] at hlength
      omega
  | @next _ part before buf _ _ listed read sound new _ ih =>
    intro used partition list fuel hlt hmarks hrun hmet
    obtain ⟨hin, hsum⟩ := hmet _ (.here listed read)
    cases fuel with
    | zero => cases hrun
    | succ fuel =>
      have hfree : ¬ Marked used part := by
        intro hmark
        have hstops : ∀ buf', ¬ AmigaBlock disk blksize part used before buf' := by
          intro buf' hb
          cases read.symm.trans hb.read
          exact ((amigaBlock_iff listed read hsum).mp hb).2 hmark
        rw [amigaLoop_stops hstops] at hrun
        have hlength := congrArg List.length (Option.some.inj hrun)
        rw [amigaEntries_cons] at hlength
        simp [addNewPartition, hmalloc] at hlength
        omega
      have hblock := (amigaBlock_iff listed read hsum).mpr ⟨sound, hfree⟩
      rw [amigaLoop_next hblock, amigaEntries_cons] at hrun
      have hrest := ih _ _ _ _ (amigaBlock_lt _ 4) (hmarks.next hin hlt) hrun
        fun b hb => hmet b (.next hblock hb)
      refine ⟨?_, ?_, hrest.noticed⟩
      · intro b hb
        rcases List.mem_cons.mp hb with rfl | hb
        · exact ⟨hin, hsum⟩
        · exact hrest.inside b hb
      · intro b hb
        rcases List.mem_cons.mp hb with rfl | hb
        · exact fun hmark => hfree ((hmarks _ hlt hin).mpr (.inl hmark))
        · exact hrest.clear b hb

end Chain

/-! ## §6 The rigid disk block -/

section Rdb

variable {disk : Disk} {buf : Bytes}

/-- The search for block `i`, with what is in the buffer then. -/
def SearchAt (disk : Disk) (buf : Bytes) (i : Nat) (before : Bytes) : Prop :=
  blocksRead disk buf i
    = if (if i ≠ 0 then promReadblocks disk i 1 before else (true, before)).1
      then some (if i ≠ 0 then promReadblocks disk i 1 before else (true, before)).2 else none

theorem SearchAt.start : SearchAt disk buf 0 buf := rfl

theorem SearchAt.next {i : Nat} {b : Bytes} (h : blocksRead disk buf i = some b) :
    SearchAt disk buf (i + 1) b := by
  unfold SearchAt
  simp only [blocksRead, h, Option.bind_some, ne_eq, Nat.succ_ne_zero, not_false_eq_true, if_true]

theorem blocksRead_none {i j : Nat} (h : blocksRead disk buf i = none) (hle : i ≤ j) :
    blocksRead disk buf j = none := by
  induction j, hle using Nat.le_induction with
  | base => exact h
  | succ j _ ih => rw [blocksRead, ih, Option.bind_none]

theorem amigaFindRdbLoop_iff (b : Bytes) (left : Nat) : ∀ i before, SearchAt disk buf i before →
    (amigaFindRdbLoop disk disk.promBlksize left i before = (true, b)
      ↔ ∃ j, i ≤ j ∧ j < i + left ∧ blocksRead disk buf j = some b
        ∧ RdbTaken disk.promBlksize b
        ∧ ∀ k, i ≤ k → k < j → ∀ b', blocksRead disk buf k = some b' →
          ¬ RdbTaken disk.promBlksize b') := by
  induction left with
  | zero =>
    intro i before _
    constructor
    · intro h
      cases (Prod.mk.inj h).1
    · rintro ⟨j, hle, hlt, -⟩
      omega
  | succ left ih =>
    intro i before hat
    unfold SearchAt at hat
    unfold amigaFindRdbLoop
    generalize (if i ≠ 0 then promReadblocks disk i 1 before else (true, before)) = block at hat ⊢
    obtain ⟨ok, b₁⟩ := block
    cases ok with
    | false =>
      constructor
      · intro h
        cases (Prod.mk.inj h).1
      · rintro ⟨j, hle, -, hread, -⟩
        rw [blocksRead_none hat hle] at hread
        cases hread
    | true =>
      replace hat : blocksRead disk buf i = some b₁ := hat
      simp only [Bool.not_true, Bool.false_eq_true, if_false]
      by_cases htaken : RdbTaken disk.promBlksize b₁
      · have hpos : amigaBlock b₁ 0 = 0x5244534B ∧ amigaChecksum b₁ disk.promBlksize = 0 := htaken
        rw [if_pos hpos]
        constructor
        · intro h
          cases h
          exact ⟨i, Nat.le_refl i, by omega, hat, htaken, fun k hk hlt => by omega⟩
        · rintro ⟨j, hle, -, hread, -, hfirst⟩
          rcases Nat.eq_or_lt_of_le hle with rfl | hlt
          · rw [hat] at hread
            cases hread
            rfl
          · exact absurd htaken (hfirst i (Nat.le_refl i) hlt b₁ hat)
      · have hneg : ¬ (amigaBlock b₁ 0 = 0x5244534B ∧ amigaChecksum b₁ disk.promBlksize = 0) :=
          htaken
        rw [if_neg hneg, ih (i + 1) b₁ (.next hat)]
        constructor
        · rintro ⟨j, hle, hlt, hread, hj, hfirst⟩
          refine ⟨j, by omega, by omega, hread, hj, fun k hk hkj b' hb' => ?_⟩
          rcases Nat.eq_or_lt_of_le hk with rfl | hlt'
          · rw [hat] at hb'
            cases hb'
            exact htaken
          · exact hfirst k hlt' hkj b' hb'
        · rintro ⟨j, hle, hlt, hread, hj, hfirst⟩
          have hne : i ≠ j := by
            rintro rfl
            rw [hat] at hread
            cases hread
            exact htaken hj
          exact ⟨j, by omega, by omega, hread, hj,
            fun k hk hkj => hfirst k (by omega) hkj⟩

/-- `_amiga_find_rdb` finds the first of sixteen blocks that it takes for a rigid disk block. -/
theorem amigaFindRdb_iff (b : Bytes) :
    amigaFindRdb disk disk.promBlksize buf = (true, b) ↔ ∃ i, RdbAt disk buf i b := by
  unfold amigaFindRdb
  rw [amigaFindRdbLoop_iff b 16 0 buf .start]
  constructor
  · rintro ⟨j, -, hlt, hread, htaken, hfirst⟩
    exact ⟨j, by omega, hread, htaken, fun k => hfirst k (Nat.zero_le k)⟩
  · rintro ⟨i, hfew, hread, htaken, hfirst⟩
    exact ⟨i, Nat.zero_le i, by omega, hread, htaken, fun k _ => hfirst k⟩

end Rdb

/-! ## §7 The lookup -/

section Lookup

variable {env : Env} {disk : Disk} {buf boot : Bytes}

theorem partitionsLookup_amiga (h : AmigaSearch disk buf boot) (fuel : Nat) :
    partitionsLookup env (some disk) fuel buf
      = partitionAmigaLookup env disk fuel disk.promBlksize (amigaBoot disk boot) := by
  unfold partitionsLookup
  simp only [Nat.not_lt.mpr h.blksize, h.read, h.mac, h.gpt, h.msdos, Bool.not_true,
    Bool.false_eq_true, if_false]
  rw [show (if disk.promBlksize = 2048 then identifyIsoFs disk boot else (none, boot))
    = isoSearch disk boot from rfl, h.iso]
  rfl

theorem partitionAmigaLookup_used (hused : env.mallocUsed = true) (malloc : Nat → Nat → Bool)
    (fuel : Nat) :
    partitionAmigaLookup { env with malloc := malloc } disk fuel disk.promBlksize boot
      = amigaLoop { env with malloc := malloc } disk disk.promBlksize
        (u32 (amigaBlock boot 17 * amigaBlock boot 18)) fuel (amigaBlock boot 7) 1
        (amigaUsed env boot) boot [] := by
  unfold partitionAmigaLookup
  simp only []
  rw [if_neg (by simp [hused])]
  rfl

theorem partitionAmigaLookup_none (hused : ¬ env.mallocUsed = true) (malloc : Nat → Nat → Bool)
    (fuel : Nat) :
    partitionAmigaLookup { env with malloc := malloc } disk fuel disk.promBlksize boot
      = some [] := by
  unfold partitionAmigaLookup
  simp only [hused, Bool.not_false, if_true]

theorem amigaRight_iff (h : AmigaSearch disk buf boot) :
    AmigaRight env disk buf boot
      ↔ ∃ i b, RdbAt disk (isoSearch disk boot).2 i b
        ∧ BlockSound amigaIdRdb disk.promBlksize b ∧ ChainFits env disk b := by
  constructor
  · rintro ⟨⟨hfound, hsound⟩, ⟨blocks, stop, hchain, hreturns⟩, hmet⟩
    obtain ⟨i, hi⟩ := (amigaFindRdb_iff (amigaBoot disk boot)).mp (Prod.ext hfound rfl)
    refine ⟨i, _, hi, hsound, fun blocks' stop' hchain' => ?_⟩
    obtain ⟨rfl, rfl⟩ := hchain.unique hchain'
    obtain ⟨fuel, hfuel⟩ := hreturns fun _ _ => true
    rw [partitionsLookup_amiga h] at hfuel
    by_cases hused : env.mallocUsed = true
    · rw [partitionAmigaLookup_used hused] at hfuel
      rw [if_pos hused]
      refine fits_of_right { env with malloc := fun _ _ => true }
        (amigaBlock (amigaBoot disk boot) 17) (amigaBlock (amigaBoot disk boot) 18)
        (fun _ => rfl) hchain _ 1 [] fuel (amigaBlock_lt _ 7) (.start _) ?_ (hmet hused)
      rw [List.append_nil]
      exact hfuel
    · rw [partitionAmigaLookup_none hused] at hfuel
      rw [if_neg hused]
      have hlength := congrArg List.length (Option.some.inj hfuel)
      simp [amigaEntries] at hlength
      exact List.length_eq_zero_iff.mp hlength.symm
  · rintro ⟨i, b, hi, hsound, hfits⟩
    have hfound := (amigaFindRdb_iff b).mpr ⟨i, hi⟩
    have hb : amigaBoot disk boot = b := by
      unfold amigaBoot
      rw [hfound]
    obtain ⟨blocks, stop, hchain⟩ : ∃ blocks stop, AmigaChain disk disk.promBlksize []
        (amigaBlock b 7) b blocks stop :=
      amigaChain_exists (2 ^ 32) [] (amigaBlock b 7) b List.nodup_nil (by simp)
        (amigaBlock_lt b 7) (by simp)
    have hfit := hfits blocks stop hchain
    by_cases hused : env.mallocUsed = true
    · rw [if_pos hused] at hfit
      obtain ⟨hlists, hmet⟩ := amigaLoop_right (amigaBlock b 17) (amigaBlock b 18) hchain _
        (amigaBlock_lt b 7) (.start _) hfit
      refine ⟨⟨by rw [hfound], by rw [hb]; exact hsound⟩, ⟨blocks, stop, by rw [hb]; exact hchain,
        fun malloc => ?_⟩, fun _ b' hb' => ?_⟩
      · obtain ⟨fuel, hfuel⟩ := hlists { env with malloc := malloc } 1 []
        refine ⟨fuel, ?_⟩
        rw [partitionsLookup_amiga h, hb, partitionAmigaLookup_used hused]
        rw [List.append_nil] at hfuel
        exact hfuel
      · rw [hb] at hb' ⊢
        exact hfit.inside b' (hmet b' hb')
    · rw [if_neg hused] at hfit
      subst hfit
      refine ⟨⟨by rw [hfound], by rw [hb]; exact hsound⟩, ⟨[], stop, by rw [hb]; exact hchain,
        fun malloc => ⟨0, ?_⟩⟩, fun h => absurd h hused⟩
      rw [partitionsLookup_amiga h, partitionAmigaLookup_none hused]
      rfl

end Lookup

/-- The lookup of a disk full of zeros looks for a rigid disk block. -/
theorem blankDisk_search : AmigaSearch (sparseDisk []) (fun _ => 0)
    (promReadblocks (sparseDisk []) 0 2 fun _ => 0).2 where
  blksize := by decide
  read := rfl
  mac := by decide +kernel
  gpt := by decide +kernel
  msdos := by decide +kernel
  iso := rfl

/-- A rigid disk block with 4 sectors and 2 heads, and one partition block, at 1, for the
cylinders 2 and 3. -/
def oneBlockDisk : Disk :=
  sparseDisk [(0, 0x52), (1, 0x44), (2, 0x53), (3, 0x4b), (7, 0x03), (8, 0xad), (9, 0xbb), (10, 0xac), (11,
    0xb2), (31, 0x01), (71, 0x04), (75, 0x02), (135, 0x1f), (512, 0x50), (513, 0x41), (514, 0x52),
    (515, 0x54), (519, 0x03), (520, 0xaf), (521, 0xbe), (522, 0xad), (523, 0xa9), (528, 0xff),
    (529, 0xff), (530, 0xff), (531, 0xff), (679, 0x02), (683, 0x03)]

/-- The boot blocks, and the partition block behind them. -/
def oneBlockBoot : Bytes := (promReadblocks oneBlockDisk 0 2 fun _ => 0).2

def oneBlockPart : Bytes := (promReadblocks oneBlockDisk 1 1 oneBlockBoot).2

theorem oneBlockDisk_search : AmigaSearch oneBlockDisk (fun _ => 0) oneBlockBoot where
  blksize := by decide
  read := rfl
  mac := by decide +kernel
  gpt := by decide +kernel
  msdos := by decide +kernel
  iso := rfl

theorem oneBlockDisk_chain : AmigaChain oneBlockDisk oneBlockDisk.promBlksize []
    (amigaBlock oneBlockBoot 7) oneBlockBoot [(1, oneBlockPart)] none := by
  have hfirst : amigaBlock oneBlockBoot 7 = 1 := by decide +kernel
  have hend : amigaBlock oneBlockPart 4 = 0xffffffff := by decide +kernel
  rw [hfirst]
  refine .next (by decide) rfl ⟨by decide +kernel, by decide +kernel⟩ List.not_mem_nil ?_
  rw [hend]
  exact .ends

/-- Here the walk is right. -/
theorem oneBlockDisk_right : AmigaRight roomyEnv oneBlockDisk (fun _ => 0) oneBlockBoot := by
  refine (amigaRight_iff oneBlockDisk_search).mpr ⟨0, oneBlockBoot, ⟨by decide, rfl, ?_, ?_⟩,
    ⟨by decide +kernel, by decide +kernel⟩, fun blocks stop hchain => ?_⟩
  · exact ⟨by decide +kernel, by decide +kernel⟩
  · intro j hj
    exact absurd hj (Nat.not_lt_zero j)
  · obtain ⟨rfl, rfl⟩ := oneBlockDisk_chain.unique hchain
    have hlimit : amigaBlock oneBlockBoot 33 = 31 := by decide +kernel
    have hlength : amigaBlock oneBlockPart 1 = 3 := by decide +kernel
    rw [if_pos (show roomyEnv.mallocUsed = true from rfl)]
    refine ⟨?_, ?_, by simp⟩
    · intro b hb
      have hb : b = (1, oneBlockPart) := by simpa using hb
      rw [hb]
      unfold InUsed SumInBlock
      rw [hlimit, hlength]
      decide
    · intro b hb
      rw [List.mem_singleton.mp hb]
      unfold Marked amigaUsed
      rw [hlimit]
      decide

end LiloBoot.Partition
