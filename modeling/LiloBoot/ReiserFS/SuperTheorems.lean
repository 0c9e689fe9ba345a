/-
LiloBoot.ReiserFS.SuperTheorems — which superblocks are safe to accept.

The size of a block is checked against a smallest and a largest one. What the
rest of the driver needs, that it is a power of two, is nowhere checked; for
those that are, the shift and the number of cache slots are right.
-/
import LiloBoot.ReiserFS.Super

namespace LiloBoot.ReiserFS

/-- `CACHE(i)` lies inside the part of `FSYS_BUF` that is the cache. -/
def slotInside (info : SuperInfo) (i : Nat) : Prop :=
  i * info.blocksize + info.blocksize ≤ fsysreiserCacheSize

/-- The shift belongs to the block size, and every slot is inside the cache. -/
structure SuperInfo.Fits (info : SuperInfo) : Prop where
  shift : 2 ^ info.blocksizeShift = info.blocksize
  slots : ∀ i ≤ info.cachedSlots, slotInside info i

variable {io : SuperRead} {info : SuperInfo} {super : Super} {superblock : Nat} {bytes : Bytes}

/-- An accepted superblock has passed the checks, and has set the fields. -/
theorem reiserfsReadSuper_accepted (hfound : findSuper io = some (super, superblock, bytes))
    (h : reiserfsReadSuper io = some info) :
    info = { superInfo super with treeDepth := info.treeDepth }
      ∧ minBlocksize ≤ super.sBlocksize ∧ super.sBlocksize ≤ maxBlocksize := by
  obtain ⟨root, hroot⟩ : ∃ root, root = (if (superInfo super).journalBlock ≠ 0 then
      (superAt (io.block superblock bytes).2).sRootBlock else super.sRootBlock) := ⟨_, rfl⟩
  rw [reiserfsReadSuper, hfound] at h
  simp only [← hroot] at h
  split at h
  · cases h
  split at h
  · cases h
  rename_i hsize
  rw [not_or, Nat.not_lt, Nat.not_lt] at hsize
  split at h
  · cases h
  split at h
  · cases h
  split at h
  · cases h
  cases h
  exact ⟨rfl, hsize⟩

/-- The shift and the slots of a power of two in the range. -/
theorem powers_fit : ∀ k < 14, 9 ≤ k → reiserfsLog2 (2 ^ k) = k
    ∧ u16 (fsysreiserCacheSize / 2 ^ k + (2 ^ 16 - 1)) * 2 ^ k + 2 ^ k ≤ fsysreiserCacheSize := by
  decide

/-- **An accepted superblock** fits the cache if and only if its block size is a power of two. -/
theorem superblock_fits_iff (io : SuperRead) (info : SuperInfo) (super : Super) (superblock : Nat)
    (bytes : Bytes) (hfound : findSuper io = some (super, superblock, bytes))
    (haccepted : reiserfsReadSuper io = some info) :
    info.Fits ↔ ∃ k, super.sBlocksize = 2 ^ k := by
  obtain ⟨hinfo, hmin, hmax⟩ := reiserfsReadSuper_accepted hfound haccepted
  have hblocksize : info.blocksize = super.sBlocksize := by rw [hinfo]; rfl
  have hshift : info.blocksizeShift = reiserfsLog2 super.sBlocksize := by rw [hinfo]; rfl
  have hslots : info.cachedSlots
      = u16 (fsysreiserCacheSize / 2 ^ reiserfsLog2 super.sBlocksize + (2 ^ 16 - 1)) := by
    rw [hinfo]; rfl
  constructor
  · intro h
    exact ⟨info.blocksizeShift, hblocksize.symm.trans h.shift.symm⟩
  · rintro ⟨k, hk⟩
    rw [hk] at hblocksize hshift hslots hmin hmax
    have hlow : 9 ≤ k := by
      by_contra hlt
      have hpow : 2 ^ k ≤ 2 ^ 8 := Nat.pow_le_pow_right (by decide) (by omega)
      rw [minBlocksize] at hmin
      omega
    have hhigh : k < 14 := by
      by_contra hge
      have hpow : 2 ^ 14 ≤ 2 ^ k := Nat.pow_le_pow_right (by decide) (by omega)
      rw [maxBlocksize, fsysreiserCacheSize] at hmax
      omega
    obtain ⟨hlog, hfit⟩ := powers_fit k hhigh hlow
    rw [hlog] at hshift hslots
    refine ⟨by rw [hshift, hblocksize], fun i hi => ?_⟩
    rw [hslots] at hi
    rw [slotInside, hblocksize]
    exact Nat.le_trans (Nat.add_le_add_right (Nat.mul_le_mul_right _ hi) _) hfit

/-! ## A block of nine sectors -/

/-- A superblock in version 2 without a journal, for this block size; the root block is 8. -/
def superBytes (blocksize : Nat) : Bytes := fun i =>
  ([0, 0, 0, 0, 0, 0, 0, 0, 8, 0, 0, 0] ++ List.replicate 32 0
    ++ [UInt8.ofNat blocksize, UInt8.ofNat (blocksize / 256)] ++ List.replicate 6 0
    ++ super2MagicString ++ List.replicate 11 0 ++ [2, 0]).getD i 0

/-- A device with that superblock, and a leaf for a root. -/
def superDevice (blocksize : Nat) : SuperRead where
  disk _ := (superSize, superBytes blocksize)
  block _ _ := (blocksize, fun i => if i = 0 then 1 else 0)

theorem superblock_fits_4096 : findSuper (superDevice 4096)
      = some (⟨8, 0, 0, 4096, 2⟩, 16, superBytes 4096)
    ∧ reiserfsReadSuper (superDevice 4096) = some ⟨2, 4096, 12, 0, 0, 6, 1⟩
    ∧ ((⟨2, 4096, 12, 0, 0, 6, 1⟩ : SuperInfo).Fits ↔ ∃ k, 4096 = 2 ^ k) := by
  have hsuper : superAt (superBytes 4096) = ⟨8, 0, 0, 4096, 2⟩ := by decide +kernel
  have hfound : findSuper (superDevice 4096) = some (⟨8, 0, 0, 4096, 2⟩, 16, superBytes 4096) := by
    rw [← hsuper]
    rfl
  have haccepted : reiserfsReadSuper (superDevice 4096) = some ⟨2, 4096, 12, 0, 0, 6, 1⟩ := by
    decide +kernel
  exact ⟨hfound, haccepted, superblock_fits_iff _ _ _ _ _ hfound haccepted⟩

/-- Blocks of 4608 bytes are accepted, with the shift of 512 and 56 slots in a cache of six. -/
theorem superblock_4608_leaves_cache :
    reiserfsReadSuper (superDevice 4608) = some ⟨2, 4608, 9, 0, 0, 55, 1⟩
      ∧ 2 ^ 9 ≠ 4608
      ∧ ¬ slotInside ⟨2, 4608, 9, 0, 0, 55, 1⟩ 6
      ∧ ¬ (⟨2, 4608, 9, 0, 0, 55, 1⟩ : SuperInfo).Fits :=
  ⟨by decide +kernel, by decide, by unfold slotInside; decide, fun h => absurd h.shift (by decide)⟩

end LiloBoot.ReiserFS
