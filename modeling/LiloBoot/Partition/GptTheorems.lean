/-
LiloBoot.Partition.GptTheorems — the partition array of a GPT disk.

`partition_gpt_lookup` reads one block of the array over block 0 and then walks
over all entries that the header counts, through the header itself, through what
is behind it in `block_buffer`, and out of it. The array on the disk is
`partentry_size` bytes for each entry; the walk takes 128. What it returns is
compared with the array entry by entry.
-/
import LiloBoot.Partition.ChainTheorems

namespace LiloBoot.Partition

/-! ## §1 Entries -/

/-- `sizeof(block_buffer)`. -/
def blockBufferSize : Nat := 2 * maxBlockSize

/-- The partition that the entry at `pos` of `b` describes, if its type is listed and there is
memory for it. -/
def gptListed (env : Env) (blksize : Nat) (b : Bytes) (pos partition : Nat) : Option PartitionT :=
  if gptTypes.contains ((List.range 16).map fun i => b (pos + i)) && env.malloc 0 partition then
    some ⟨partition, le b (pos + 32) 8,
      u64 (sub64 (le b (pos + 40) 8) (le b (pos + 32) 8) + 1), .gpt, blksize, 1⟩
  else none

/-- An entry of the loop; `none` where it reads outside `block_buffer`. -/
def gptEntryChecked (env : Env) (blksize : Nat) (buf : Bytes) (list : List PartitionT)
    (partition : Nat) : Option (List PartitionT) :=
  let part := 128 * (partition - 1)
  if blockBufferSize < part + 16 then none
  else if gptTypes.contains ((List.range 16).map fun i => buf (part + i))
      && blockBufferSize < part + 48 then none
  else some (gptEntry env blksize buf list partition)

/-- `partition_gpt_lookup`; `none` where it reads outside `block_buffer`. -/
def partitionGptLookupChecked (env : Env) (disk : Disk) (blksize : Nat) (buf : Bytes) :
    Option (List PartitionT) :=
  if blockBufferSize < blksize + 84 then none
  else
    let (ok, buf) := promReadblocks disk (u32 (le buf (blksize + 72) 8)) 1 buf
    if !ok then some []
    else (List.range' 1 (le buf (blksize + 80) 4)).foldlM (gptEntryChecked env blksize buf) []

/-- The fields of the header in `buf`: the first block of the array, the number of entries and
`partentry_size`. -/
def gptPartitions (blksize : Nat) (buf : Bytes) : Nat := le buf (blksize + 72) 8

def gptMaxpart (blksize : Nat) (buf : Bytes) : Nat := le buf (blksize + 80) 4

def gptPartentrySize (blksize : Nat) (buf : Bytes) : Nat := le buf (blksize + 84) 4

/-- An entry of the array on a disk with these contents. -/
def gptOnDisk (env : Env) (content : Bytes) (blksize : Nat) (buf : Bytes) (partition : Nat) :
    Option PartitionT :=
  gptListed env blksize content
    (gptPartitions blksize buf * blksize + gptPartentrySize blksize buf * (partition - 1)) partition

/-- The list of the array on the disk, the last entry first. -/
def gptExpected (env : Env) (content : Bytes) (blksize : Nat) (buf : Bytes) : List PartitionT :=
  ((List.range' 1 (gptMaxpart blksize buf)).filterMap
    (gptOnDisk env content blksize buf)).reverse

/-- A read that answers its whole count has stored the contents of the disk. -/
def Stores (disk : Disk) (content : Bytes) : Prop :=
  ∀ pos n : Nat, (disk.read pos n).1 = n → ∀ i < n, (disk.read pos n).2 i = some (content (pos + i))

/-- The entry is where the walk looks for it, in the block that is read. -/
def InFirstBlock (blksize : Nat) (buf : Bytes) (partition : Nat) : Prop :=
  gptPartitions blksize buf < 2 ^ 31
    ∧ (gptPartentrySize blksize buf = 128 ∨ partition = 1)
    ∧ 128 * (partition - 1) + 48 ≤ blksize

/-- What the walk can find: at most 64 entries, each in the first block, or else with the same
partition, or none, where the walk looks for it. -/
def GptWalkable (env : Env) (disk : Disk) (content : Bytes) (blksize : Nat) (buf : Bytes) : Prop :=
  let read := promReadblocks disk (u32 (gptPartitions blksize buf)) 1 buf
  if read.1 then
    gptMaxpart blksize buf ≤ 64
      ∧ ∀ k ∈ List.range' 1 (gptMaxpart blksize buf), ¬ InFirstBlock blksize buf k →
        gptListed env blksize read.2 (128 * (k - 1)) k = gptOnDisk env content blksize buf k
  else ∀ k ∈ List.range' 1 (gptMaxpart blksize buf), gptOnDisk env content blksize buf k = none

/-! ## §2 The loop -/

section Gpt

variable {env : Env} {disk : Disk} {blksize : Nat} {buf b content : Bytes}

theorem gptListed_number {pos k : Nat} {p : PartitionT}
    (h : gptListed env blksize b pos k = some p) : p.partNumber = k := by
  unfold gptListed at h
  split at h
  · cases h
    rfl
  · cases h

theorem gptEntry_listed (list : List PartitionT) (k : Nat) :
    gptEntry env blksize b list k
      = (gptListed env blksize b (128 * (k - 1)) k).toList ++ list := by
  unfold gptEntry gptListed addNewPartition
  by_cases htype : (List.range 16).map (fun i => b (128 * (k - 1) + i)) ∈ gptTypes
  · by_cases hmalloc : env.malloc 0 k = true
    · simp [htype, hmalloc]
    · simp [htype, hmalloc]
  · simp [htype]

theorem gptEntry_foldl (l : List Nat) : ∀ list,
    l.foldl (gptEntry env blksize b) list
      = (l.filterMap fun k => gptListed env blksize b (128 * (k - 1)) k).reverse ++ list := by
  induction l with
  | nil => exact fun list => rfl
  | cons k l ih =>
    intro list
    rw [List.foldl_cons, ih, gptEntry_listed, List.filterMap_cons]
    cases gptListed env blksize b (128 * (k - 1)) k with
    | none => rfl
    | some p => simp

/-- An entry is inside the buffer up to number 64. -/
theorem gptEntryChecked_eq (list : List PartitionT) {k : Nat} (hk : 1 ≤ k) :
    gptEntryChecked env blksize b list k
      = if k ≤ 64 then some (gptEntry env blksize b list k) else none := by
  unfold gptEntryChecked blockBufferSize maxBlockSize
  by_cases hle : k ≤ 64
  · have hinside : decide (2 * 4096 < 128 * (k - 1) + 48) = false := decide_eq_false (by omega)
    rw [if_pos hle, if_neg (by omega), hinside, Bool.and_false, if_neg Bool.false_ne_true]
  · rw [if_neg hle, if_pos (by omega)]

theorem gptEntryChecked_foldlM (l : List Nat) (hl : ∀ k ∈ l, 1 ≤ k) : ∀ list,
    l.foldlM (gptEntryChecked env blksize b) list
      = if ∀ k ∈ l, k ≤ 64 then some (l.foldl (gptEntry env blksize b) list) else none := by
  induction l with
  | nil => exact fun list => rfl
  | cons k l ih =>
    intro list
    rw [List.foldlM_cons, gptEntryChecked_eq list (hl k List.mem_cons_self), List.foldl_cons]
    by_cases hle : k ≤ 64
    · rw [if_pos hle]
      show l.foldlM (gptEntryChecked env blksize b) _ = _
      rw [ih fun j hj => hl j (List.mem_cons_of_mem _ hj)]
      simp [hle]
    · simp [hle]

/-- As long as it stays inside, the checked walk is the walk. -/
theorem partitionGptLookup_of_checked {list : List PartitionT}
    (h : partitionGptLookupChecked env disk blksize buf = some list) :
    partitionGptLookup env disk blksize buf = list := by
  unfold partitionGptLookupChecked at h
  unfold partitionGptLookup
  split at h
  · cases h
  generalize promReadblocks disk (u32 (le buf (blksize + 72) 8)) 1 buf = read at h ⊢
  obtain ⟨ok, b⟩ := read
  cases ok with
  | false =>
    cases h
    rfl
  | true =>
    simp only [Bool.not_true, Bool.false_eq_true, if_false] at h ⊢
    rw [gptEntryChecked_foldlM _ fun k hk => (List.mem_range'_1.mp hk).1] at h
    split at h
    · exact Option.some.inj h
    · cases h

/-- Lists with one entry at most under each number are equal entry by entry. -/
theorem filterMap_numbers_iff {f g : Nat → Option PartitionT}
    (hf : ∀ k p, f k = some p → p.partNumber = k) (hg : ∀ k p, g k = some p → p.partNumber = k)
    (l : List Nat) : l.filterMap f = l.filterMap g ↔ ∀ k ∈ l, f k = g k := by
  constructor
  · intro h k hk
    -- an entry under `k` is the entry of `k`
    have hfind : ∀ {f' g' : Nat → Option PartitionT},
        (∀ k p, g' k = some p → p.partNumber = k) → l.filterMap f' = l.filterMap g' →
        (∀ k p, f' k = some p → p.partNumber = k) → ∀ p, f' k = some p → g' k = some p := by
      intro f' g' hg' heq hf' p hp
      have hin : p ∈ l.filterMap g' := heq ▸ List.mem_filterMap.mpr ⟨k, hk, hp⟩
      obtain ⟨j, -, hj⟩ := List.mem_filterMap.mp hin
      obtain rfl : j = k := (hg' j p hj).symm.trans (hf' k p hp)
      exact hj
    cases hfk : f k with
    | some p => exact (hfind hg h hf p hfk).symm
    | none =>
      cases hgk : g k with
      | none => rfl
      | some p =>
        rw [hfind hf h.symm hg p hgk] at hfk
        cases hfk
  · intro h
    exact List.filterMap_congr h

/-! ## §3 The first block -/

theorem le_congr {c : Bytes} {p q : Nat} (n : Nat) (h : ∀ i < n, b (p + i) = c (q + i)) :
    le b p n = le c q n := by
  induction n with
  | zero => rfl
  | succ n ih => rw [le, le, h n (Nat.lt_succ_self n), ih fun i hi => h i (Nat.lt_succ_of_lt hi)]

/-- An entry is told by its first 48 bytes. -/
theorem gptListed_congr {c : Bytes} {p q : Nat} (k : Nat) (h : ∀ i < 48, b (p + i) = c (q + i)) :
    gptListed env blksize b p k = gptListed env blksize c q k := by
  have htype : (List.range 16).map (fun i => b (p + i)) = (List.range 16).map fun i => c (q + i) :=
    List.map_congr_left fun i hi => h i (by have := List.mem_range.mp hi; omega)
  have hstart : le b (p + 32) 8 = le c (q + 32) 8 := le_congr 8 fun i hi => by
    rw [Nat.add_assoc, Nat.add_assoc]
    exact h (32 + i) (by omega)
  have hend : le b (p + 40) 8 = le c (q + 40) 8 := le_congr 8 fun i hi => by
    rw [Nat.add_assoc, Nat.add_assoc]
    exact h (40 + i) (by omega)
  simp only [gptListed, htype, hstart, hend]

theorem promReadblocks_bytes (hstored : Stores disk content)
    (hsize : disk.promBlksize ≤ maxBlockSize) {block : Nat} (hblock : block < 2 ^ 31)
    (hread : (promReadblocks disk block 1 buf).1 = true) {i : Nat} (hi : i < disk.promBlksize) :
    (promReadblocks disk block 1 buf).2 i = content (block * disk.promBlksize + i) := by
  unfold maxBlockSize at hsize
  have hpos : (s32 block * disk.promBlksize % 2 ^ 64).toNat = block * disk.promBlksize := by
    have hle : block * disk.promBlksize ≤ 2 ^ 31 * 4096 := Nat.mul_le_mul hblock.le hsize
    rw [s32_of_lt hblock, ← Nat.cast_mul]
    omega
  have hcount : u32 (1 * disk.promBlksize) = disk.promBlksize := by
    rw [Nat.one_mul]
    exact u32_of_lt (by omega)
  unfold promReadblocks at hread ⊢
  simp only [hpos, hcount] at hread ⊢
  split at hread
  · cases hread
  · rename_i hseek
    rw [if_neg hseek]
    simp only
    rw [if_pos hi, hstored _ _ (eq_of_beq hread) i hi]
    rfl

/-- In the first block the walk finds what is on the disk. -/
theorem first_block_seen (env : Env) (buf : Bytes) (k : Nat) (hstored : Stores disk content)
    (hsize : disk.promBlksize ≤ maxBlockSize) (hin : InFirstBlock disk.promBlksize buf k)
    (hread : (promReadblocks disk (u32 (gptPartitions disk.promBlksize buf)) 1 buf).1 = true) :
    gptListed env disk.promBlksize
        (promReadblocks disk (u32 (gptPartitions disk.promBlksize buf)) 1 buf).2 (128 * (k - 1)) k
      = gptOnDisk env content disk.promBlksize buf k := by
  obtain ⟨hblock, hentry, hinside⟩ := hin
  rw [u32_of_lt (by omega)] at hread ⊢
  refine gptListed_congr k fun i hi => ?_
  rw [promReadblocks_bytes hstored hsize hblock hread (by omega), ← Nat.add_assoc]
  rcases hentry with hentry | rfl
  · rw [hentry]
  · rw [Nat.sub_self, Nat.mul_zero, Nat.mul_zero]

/-! ## §4 Every header -/

/-- The header is behind the block that is read. -/
theorem gptMaxpart_read (hsize : disk.promBlksize ≤ maxBlockSize) (block : Nat) (buf : Bytes) :
    le (promReadblocks disk block 1 buf).2 (disk.promBlksize + 80) 4
      = gptMaxpart disk.promBlksize buf := by
  unfold maxBlockSize at hsize
  refine le_congr 4 fun i _ => promReadblocks_behind disk block 1 buf ?_
  rw [Nat.one_mul, u32_of_lt (by omega)]
  omega

theorem range_le_iff (n m : Nat) : (∀ k ∈ List.range' 1 n, k ≤ m) ↔ n ≤ m := by
  simp only [List.mem_range'_1]
  constructor
  · intro h
    by_cases hn : n = 0
    · omega
    · exact h n ⟨by omega, by omega⟩
  · intro h k hk
    omega

/-- **The entries of a GPT disk** are listed as they are on the disk, and nothing outside
`block_buffer` is read, exactly if there are at most 64 and each one is in the first block of the
array, 128 bytes for each, or the walk finds the same partition, or none, in its place. -/
theorem gpt_listed_iff (env : Env) {disk : Disk} {buf content : Bytes}
    (hsize : disk.promBlksize ≤ maxBlockSize) (hstored : Stores disk content) :
    partitionGptLookupChecked env disk disk.promBlksize buf
        = some (gptExpected env content disk.promBlksize buf)
      ↔ GptWalkable env disk content disk.promBlksize buf := by
  have hinside : ¬ blockBufferSize < disk.promBlksize + 84 := by
    unfold blockBufferSize maxBlockSize at *
    omega
  have hdisk : ∀ k p, gptOnDisk env content disk.promBlksize buf k = some p → p.partNumber = k :=
    fun k p => gptListed_number
  rw [partitionGptLookupChecked, if_neg hinside]
  unfold GptWalkable gptExpected
  rw [show le buf (disk.promBlksize + 72) 8 = gptPartitions disk.promBlksize buf from rfl]
  have hcount := gptMaxpart_read hsize (u32 (gptPartitions disk.promBlksize buf)) buf
  have hseen := fun k => first_block_seen env buf k hstored hsize
  cases hread : promReadblocks disk (u32 (gptPartitions disk.promBlksize buf)) 1 buf with
  | mk ok b =>
    rw [hread] at hcount hseen
    cases ok with
    | false =>
      simp only [Bool.not_false, if_true, Bool.false_eq_true, if_false]
      rw [Option.some.injEq, eq_comm, List.reverse_eq_nil_iff, List.filterMap_eq_nil_iff]
    | true =>
      simp only [Bool.not_true, Bool.false_eq_true, if_false, if_true]
      rw [hcount, gptEntryChecked_foldlM _ fun k hk => (List.mem_range'_1.mp hk).1]
      simp only [range_le_iff]
      split
      · rename_i hle
        rw [gptEntry_foldl, List.append_nil, Option.some.injEq, List.reverse_inj,
          filterMap_numbers_iff (fun k p => gptListed_number) hdisk,
          and_iff_right hle]
        refine forall₂_congr fun k _ => ⟨fun h _ => h, fun h => ?_⟩
        by_cases hin : InFirstBlock disk.promBlksize buf k
        · exact hseen k hin rfl
        · exact h hin
      · rename_i hle
        exact ⟨fun h => (nomatch h), fun h => absurd h.1 hle⟩

end Gpt

/-! ## §5 A second block -/

/-- The bytes of an entry of type Linux native, from block `start` to block `last`. -/
def linuxEntry (start last : UInt8) : List UInt8 :=
  [0xaf, 0x3d, 0xc6, 0x0f, 0x83, 0x84, 0x72, 0x47, 0x8e, 0x79, 0x3d, 0x69, 0xd8, 0x47, 0x7d, 0xe4]
    ++ List.replicate 16 0 ++ start :: List.replicate 7 0 ++ last :: List.replicate 7 0

/-- A GPT disk: the header in block 1 counts `maxpart` entries of 128 bytes from block 2 on, one of
which, at `pos`, is a Linux partition. -/
def gptDisk (maxpart : UInt8) (pos : Nat) : List (Nat × UInt8) :=
  (linuxEntry 40 49).mapIdx (fun i x => (pos + i, x))
    ++ [(512 + 72, 2), (512 + 80, maxpart), (512 + 84, 128)]

/-- The contents of `sparseDisk bytes`. -/
def sparseContent (bytes : List (Nat × UInt8)) : Bytes := fun i => (bytes.lookup i).getD 0

theorem sparseDisk_stores (bytes : List (Nat × UInt8)) :
    Stores (sparseDisk bytes) (sparseContent bytes) := fun _ _ _ _ _ => rfl

/-- A disk with the second entry of four. -/
def secondEntry : List (Nat × UInt8) := gptDisk 4 (2 * 512 + 128)

theorem secondEntry_walkable : GptWalkable roomyEnv (sparseDisk secondEntry)
    (sparseContent secondEntry) 512 (sparseContent secondEntry) := by
  have hfields : gptPartitions 512 (sparseContent secondEntry) = 2
      ∧ gptMaxpart 512 (sparseContent secondEntry) = 4
      ∧ gptPartentrySize 512 (sparseContent secondEntry) = 128 := by decide +kernel
  unfold GptWalkable
  rw [hfields.1, hfields.2.1]
  refine ⟨by decide, fun k hk hout => absurd ?_ hout⟩
  have hle := (List.mem_range'_1.mp hk).2
  exact ⟨by rw [hfields.1]; decide, .inl hfields.2.2, by omega⟩

theorem secondEntry_listed :
    partitionGptLookupChecked roomyEnv (sparseDisk secondEntry) 512 (sparseContent secondEntry)
      = some (gptExpected roomyEnv (sparseContent secondEntry) 512 (sparseContent secondEntry)) :=
  (gpt_listed_iff roomyEnv (show (sparseDisk secondEntry).promBlksize ≤ maxBlockSize by decide)
    (sparseDisk_stores secondEntry)).mpr secondEntry_walkable

/-- A disk with the fifth entry of five, in the second block of the array. -/
def fifthEntry : List (Nat × UInt8) := gptDisk 5 (3 * 512)

/-- It is not listed. -/
theorem fifthEntry_lost :
    partitionGptLookupChecked roomyEnv (sparseDisk fifthEntry) 512 (sparseContent fifthEntry)
        = some []
      ∧ gptExpected roomyEnv (sparseContent fifthEntry) 512 (sparseContent fifthEntry)
        = [⟨5, 40, 10, .gpt, 512, 1⟩] := by
  decide +kernel

end LiloBoot.Partition
