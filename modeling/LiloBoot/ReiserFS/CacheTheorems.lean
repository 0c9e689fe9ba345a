/-
LiloBoot.ReiserFS.CacheTheorems — what the node cache holds
(`read_tree_node`).

The slot of a level is overwritten before the node is judged, and the number
of its block is written down after that. A node of the wrong level therefore
stays in the slot under the number of the block that was there, and a read
that fails with -1 or stops short counts as a node when the old content of
the slot has the right level. A run without such a read (`CleanRead`) keeps
the cache coherent.
-/
import LiloBoot.ReiserFS.Tree

namespace LiloBoot.ReiserFS

/-! ## §1 Coherence -/

/-- The slot has the bytes of the block. -/
def HoldsBlock (info : TreeInfo) (slot block : Bytes) : Prop :=
  ∀ i < 2 ^ info.blocksizeShift, slot i = block i

/-- Every level below the shared slot holds the block whose number stands in `INFO->blocks`. -/
def Coherent (info : TreeInfo) (disk : Nat → Bytes) (s : TreeState) : Prop :=
  ∀ depth < info.cachedSlots, s.blocks depth ≠ 0 →
    HoldsBlock info (s.slots depth) (disk (s.blocks depth))

/-- The call does not take the cached branch. -/
def Misses (info : TreeInfo) (s : TreeState) (blockNr depth : Nat) : Prop :=
  ¬ (depth < info.cachedSlots ∧ blockNr = s.blocks depth)

/-- The condition on a call that reads into the slot of its level: `block_read` returned 0, or
it left a node of the level asked for and this is the block, or a node of another level and no
block is on record for the level. -/
def CleanRead (io : NodeRead) (info : TreeInfo) (disk : Nat → Bytes) (s : TreeState)
    (blockNr depth : Nat) : Prop :=
  Misses info s blockNr depth → depth < info.cachedSlots →
    (io s.reads blockNr (s.slots depth)).1 ≠ 0 →
      if blkhLevel (io s.reads blockNr (s.slots depth)).2 = depth then
        blockNr ≠ 0 → HoldsBlock info (io s.reads blockNr (s.slots depth)).2 (disk blockNr)
      else s.blocks depth = 0

/-- A `block_read` that returns 0 has stored nothing: it failed in a seek or in the journal, or
the firmware read no byte. -/
def ZeroKeeps (io : NodeRead) : Prop :=
  ∀ k blockNr old, (io k blockNr old).1 = 0 → (io k blockNr old).2 = old

/-! ## §2 One call -/

section Call

variable {io : NodeRead} {info : TreeInfo} {disk : Nat → Bytes} {s : TreeState}
  {blockNr depth : Nat}

/-- The cached branch changes `errnum` only and returns the slot of the level. -/
theorem readTreeNode_hit (h : depth < info.cachedSlots ∧ blockNr = s.blocks depth) :
    readTreeNode io info blockNr depth s = ({ s with errnum := 0 }, some depth) := by
  rw [readTreeNode]
  exact if_pos h

/-- What stands in the slots and in the table after a read. -/
theorem readTreeNode_miss (hmiss : Misses info s blockNr depth) {slot : Nat}
    (hslot : slot = if depth < info.cachedSlots then depth else info.cachedSlots) :
    (readTreeNode io info blockNr depth s).1.slots
        = Function.update s.slots slot (io s.reads blockNr (s.slots slot)).2
      ∧ (readTreeNode io info blockNr depth s).1.blocks
        = if (io s.reads blockNr (s.slots slot)).1 ≠ 0
            ∧ blkhLevel (io s.reads blockNr (s.slots slot)).2 = depth then
            Function.update s.blocks depth blockNr
          else s.blocks := by
  have hmiss : ¬ (depth < info.cachedSlots ∧ blockNr = s.blocks depth) := hmiss
  rw [readTreeNode]
  simp only [hmiss, if_false, ← hslot]
  by_cases hzero : (io s.reads blockNr (s.slots slot)).1 = 0
  · rw [if_pos hzero, if_neg (fun h => h.1 hzero)]
    exact ⟨rfl, rfl⟩
  · rw [if_neg hzero]
    by_cases hlevel : blkhLevel (io s.reads blockNr (s.slots slot)).2 = depth
    · rw [if_neg (not_not_intro hlevel), if_pos ⟨hzero, hlevel⟩]
      exact ⟨rfl, rfl⟩
    · rw [if_pos hlevel, if_neg (fun h => hlevel h.2)]
      exact ⟨rfl, rfl⟩

/-- The slots and numbers of other levels below the shared slot stay. -/
theorem readTreeNode_other {e : Nat} (he : e < info.cachedSlots) (hed : e ≠ depth) :
    (readTreeNode io info blockNr depth s).1.slots e = s.slots e
      ∧ (readTreeNode io info blockNr depth s).1.blocks e = s.blocks e := by
  by_cases hhit : depth < info.cachedSlots ∧ blockNr = s.blocks depth
  · rw [readTreeNode_hit hhit]
    exact ⟨rfl, rfl⟩
  obtain ⟨slot, hslot⟩ : ∃ slot, slot = if depth < info.cachedSlots then depth
      else info.cachedSlots := ⟨_, rfl⟩
  obtain ⟨hslots, hblocks⟩ := @readTreeNode_miss io info s blockNr depth hhit slot hslot
  rw [hslots, hblocks]
  constructor
  · refine Function.update_of_ne ?_ ..
    rw [hslot]
    split <;> omega
  · split
    · exact Function.update_of_ne hed ..
    · rfl

/-- **One call** that reads cleanly keeps the cache coherent. -/
theorem readTreeNode_coherent (hio : ZeroKeeps io) (h : Coherent info disk s)
    (hclean : CleanRead io info disk s blockNr depth) :
    Coherent info disk (readTreeNode io info blockNr depth s).1 := by
  intro e he hne
  by_cases hed : e = depth
  swap
  · obtain ⟨hslot, hblock⟩ := @readTreeNode_other io info s blockNr depth e he hed
    rw [hblock] at hne ⊢
    rw [hslot]
    exact h e he hne
  subst hed
  by_cases hhit : e < info.cachedSlots ∧ blockNr = s.blocks e
  · rw [readTreeNode_hit hhit] at hne ⊢
    exact h e he hne
  obtain ⟨hslots, hblocks⟩ := @readTreeNode_miss io info s blockNr e hhit e (if_pos he).symm
  rw [hblocks] at hne ⊢
  rw [hslots, Function.update_self]
  by_cases hzero : (io s.reads blockNr (s.slots e)).1 = 0
  · rw [if_neg (fun hn => hn.1 hzero)] at hne ⊢
    rw [hio _ _ _ hzero]
    exact h e he hne
  have hread := hclean hhit he hzero
  by_cases hlevel : blkhLevel (io s.reads blockNr (s.slots e)).2 = e
  · rw [if_pos ⟨hzero, hlevel⟩, Function.update_self] at hne ⊢
    rw [if_pos hlevel] at hread
    exact hread hne
  · rw [if_neg (fun hn => hlevel hn.2)] at hne
    rw [if_neg hlevel] at hread
    exact absurd hread hne

/-- What is not clean breaks the cache, unless the slot happens to hold the bytes of the block
on record. -/
theorem coherent_readTreeNode (hlt : depth < info.cachedSlots)
    (hmiss : Misses info s blockNr depth)
    (h : Coherent info disk (readTreeNode io info blockNr depth s).1) :
    CleanRead io info disk s blockNr depth
      ∨ HoldsBlock info (io s.reads blockNr (s.slots depth)).2 (disk (s.blocks depth)) := by
  obtain ⟨hslots, hblocks⟩ := @readTreeNode_miss io info s blockNr depth hmiss depth (if_pos hlt).symm
  have hat := h depth hlt
  rw [hslots, hblocks, Function.update_self] at hat
  by_cases hlevel : blkhLevel (io s.reads blockNr (s.slots depth)).2 = depth
  · left
    intro _ _ hzero
    rw [if_pos ⟨hzero, hlevel⟩, Function.update_self] at hat
    rw [if_pos hlevel]
    exact hat
  · rw [if_neg (fun hn => hlevel hn.2)] at hat
    by_cases hrecord : s.blocks depth = 0
    · left
      intro _ _ _
      rw [if_neg hlevel]
      exact hrecord
    · exact .inr (hat hrecord)

end Call

/-! ## §3 Runs -/

/-- `reiserfs_read_super` leaves no block on record: the table is cleared with the rest of
`INFO`. -/
def Unread (s : TreeState) : Prop := ∀ depth, s.blocks depth = 0

/-- The states after calls of `read_tree_node` that read cleanly. -/
inductive CleanRun (io : NodeRead) (info : TreeInfo) (disk : Nat → Bytes) :
    TreeState → TreeState → Prop where
  | nil (s : TreeState) : CleanRun io info disk s s
  | call {s t : TreeState} (blockNr depth : Nat) : CleanRun io info disk s t →
    CleanRead io info disk t blockNr depth →
    CleanRun io info disk s (readTreeNode io info blockNr depth t).1

theorem CleanRun.coherent {io : NodeRead} {info : TreeInfo} {disk : Nat → Bytes}
    {s t : TreeState} (hrun : CleanRun io info disk s t) (hio : ZeroKeeps io)
    (hs : Unread s) : Coherent info disk t := by
  induction hrun with
  | nil => exact fun depth _ hne => absurd (hs depth) hne
  | call blockNr depth _ hclean ih => exact readTreeNode_coherent hio ih hclean

/-- A tree of blocks of 4 KiB. -/
def sampleInfo : TreeInfo := ⟨12, 3⟩

/-- Every block but 7 is a leaf, and has its number in the byte behind the level. -/
def sampleDisk (block : Nat) : Bytes :=
  fun i => if i = 0 then (if block = 7 then 2 else 1) else if i = 2 then UInt8.ofNat block else 0

/-- A cache after `reiserfs_read_super`. -/
def sampleUnread : TreeState := ⟨fun _ _ => 0, fun _ => 0, fun _ => 0, 0, 0, 0, 0⟩

/-- Every read is complete. -/
def sampleReads : NodeRead := fun _ block _ => (4096, sampleDisk block)

/-- The second read fails with -1. -/
def sampleFails : NodeRead := fun k block old => if k = 1 then (-1, old) else (4096, sampleDisk block)

/-- The state after the blocks 5 and `second` have been asked for as leaves. -/
def afterTwo (io : NodeRead) (second : Nat) : TreeState :=
  (readTreeNode io sampleInfo second 1 (readTreeNode io sampleInfo 5 1 sampleUnread).1).1

end LiloBoot.ReiserFS
