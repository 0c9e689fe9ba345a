/-
LiloBoot.ReiserFS.NextKeyTheorems — `next_key` from leaf to leaf.

The state stands on a path of the tree when the cache holds the blocks of that
path and `next_key_nr` its next children. At the end of a leaf `next_key`
climbs to the seam, the lowest node with a child to come. At the root and at a
cached node it goes down to the next leaf; at a node that is not cached it
starts one level too low and comes back to leaves it has been to.
-/
import LiloBoot.ReiserFS.TreeTheorems

namespace LiloBoot.ReiserFS

variable {info : TreeInfo} {io : NodeRead} {disk : Nat → Bytes} {pos : Key → Nat} {n root : Nat}
  {node idx : Nat → Nat} {s : TreeState}

/-! ## §1 On a path -/

/-- The state stands on a path: every cached level holds its node, and `next_key_nr` the child
to come, 0 for none. -/
structure At (info : TreeInfo) (disk : Nat → Bytes) (n root : Nat) (node idx : Nat → Nat)
    (s : TreeState) : Prop where
  path : OnPath disk n root node idx
  cache : Cache info disk root s
  leaf : s.slots 1 = disk (node 0)
  inner : ∀ h, 1 ≤ h → h < n → h + 1 ≤ info.cachedSlots → s.slots (h + 1) = disk (node h)
  blocks : ∀ h < n, s.blocks (h + 1) = node h
  nexts : ∀ h, 1 ≤ h → h ≤ n →
    s.nextKeyNr (h + 1) = if idx h = nrItem disk (node h) then 0 else idx h + 1

/-- No child is to come up to a height. -/
def LastUpTo (disk : Nat → Bytes) (node idx : Nat → Nat) (m : Nat) : Prop :=
  ∀ e, 1 ≤ e → e ≤ m → idx e = nrItem disk (node e)

theorem At.current (hat : At info disk n root node idx s) (ih : Nat) :
    At info disk n root node idx (setCurrent ih s) where
  path := hat.path
  cache := ⟨hat.cache.rootSlot, hat.cache.leafSlot, hat.cache.cached⟩
  leaf := hat.leaf
  inner := hat.inner
  blocks := hat.blocks
  nexts := hat.nexts

theorem At.next_zero (hat : At info disk n root node idx s) {m : Nat} (hm : m ≤ n)
    (hlast : LastUpTo disk node idx m) {d : Nat} (hlow : 1 < d) (hd : d ≤ m + 1) :
    s.nextKeyNr d = 0 := by
  obtain ⟨h, rfl⟩ : ∃ h, d = h + 1 := ⟨d - 1, by omega⟩
  rw [hat.nexts h (by omega) (by omega), hlast h (by omega) (by omega), if_pos rfl]

/-- Either no child is to come at all, or there is a lowest node with one. -/
theorem OnPath.last_or_next (hp : OnPath disk n root node idx) : ∀ m ≤ n,
    LastUpTo disk node idx m
      ∨ ∃ l < m, LastUpTo disk node idx l ∧ idx (l + 1) < nrItem disk (node (l + 1)) := by
  intro m
  induction m with
  | zero =>
    intro _
    left
    intro e h1 he
    omega
  | succ m ih =>
    intro hle
    rcases ih (by omega) with hlast | ⟨l, hl, hrest⟩
    · rcases Nat.lt_or_eq_of_le (hp.le m (by omega)) with hlt | heq
      · exact .inr ⟨m, Nat.lt_succ_self m, hlast, hlt⟩
      · left
        intro e h1 he
        rcases Nat.lt_or_eq_of_le he with hlt | rfl
        · exact hlast e h1 (by omega)
        · exact heq
    · exact .inr ⟨l, by omega, hrest⟩

/-! ## §2 The way up -/

theorem climb_none {treeDepth : Nat} {nexts : Nat → Nat} (hu16 : treeDepth < 2 ^ 16) :
    ∀ {fuel depth : Nat}, depth ≤ treeDepth → treeDepth < depth + fuel →
      (∀ d, depth < d → d ≤ treeDepth → nexts d = 0) → climb treeDepth nexts fuel depth = none := by
  intro fuel
  induction fuel with
  | zero =>
    intro depth _ _ _
    rfl
  | succ fuel ih =>
    intro depth hle hfuel hzero
    rw [climb]
    split
    · rfl
    · rename_i hne
      have hmod : u16 (depth + 1) = depth + 1 := Nat.mod_eq_of_lt (by omega)
      rw [hmod, if_pos (hzero (depth + 1) (by omega) (by omega))]
      exact ih (by omega) (by omega) fun d hd hdle => hzero d (by omega) hdle

theorem climb_some {treeDepth : Nat} {nexts : Nat → Nat} (hu16 : treeDepth < 2 ^ 16) :
    ∀ {fuel depth seam : Nat}, depth < seam → seam ≤ treeDepth → treeDepth < depth + fuel →
      (∀ d, depth < d → d < seam → nexts d = 0) → nexts seam ≠ 0 →
      climb treeDepth nexts fuel depth = some seam := by
  intro fuel
  induction fuel with
  | zero =>
    intro depth seam hlt hle hfuel
    omega
  | succ fuel ih =>
    intro depth seam hlt hle hfuel hzero hseam
    have hmod : u16 (depth + 1) = depth + 1 := Nat.mod_eq_of_lt (by omega)
    rw [climb, if_neg (by omega), hmod]
    by_cases heq : depth + 1 = seam
    · rw [heq, if_neg hseam]
    · rw [if_pos (hzero (depth + 1) (by omega) (by omega))]
      exact ih (by omega) hle (by omega) (fun d hd hdlt => hzero d (by omega) hdlt) hseam

theorem At.climb_last (hat : At info disk n root node idx s) (hdepth : info.treeDepth = n + 1)
    (hu16 : n + 1 < 2 ^ 16) (hlast : LastUpTo disk node idx n) :
    climb info.treeDepth s.nextKeyNr (2 ^ 16) blkhLevelLeaf = none :=
  climb_none (by omega) (by rw [blkhLevelLeaf]; omega) (by omega) fun d hd hle =>
    hat.next_zero (Nat.le_refl n) hlast hd (by omega)

theorem At.climb_seam (hat : At info disk n root node idx s) (hdepth : info.treeDepth = n + 1)
    (hu16 : n + 1 < 2 ^ 16) {m : Nat} (hm : m < n) (hlast : LastUpTo disk node idx m)
    (hidx : idx (m + 1) < nrItem disk (node (m + 1))) :
    climb info.treeDepth s.nextKeyNr (2 ^ 16) blkhLevelLeaf = some (m + 2) := by
  have hnext : s.nextKeyNr (m + 1 + 1) = idx (m + 1) + 1 := by
    rw [hat.nexts (m + 1) (by omega) (by omega), if_neg (by omega)]
  refine climb_some (by omega) (by rw [blkhLevelLeaf]; omega) (by omega) (by omega) ?_ ?_
  · intro d hd hlt
    exact hat.next_zero (by omega) hlast hd (by omega)
  · rw [hnext]
    omega

/-! ## §3 The steps of `next_key` -/

theorem itemHead_succ (i : Nat) : itemHead i + ihSize = itemHead (i + 1) := by
  simp only [itemHead, ihSize]
  omega

theorem itemHead_inj {i j : Nat} : itemHead i = itemHead j ↔ i = j := by
  simp only [itemHead, ihSize]
  omega

/-- Inside a leaf. -/
theorem At.nextKey_inside (hat : At info disk n root node idx s) {i : Nat}
    (hih : s.currentIh = itemHead i) (hi : i + 1 ≠ nrItem disk (node 0)) :
    nextKey io info s = (setCurrent (itemHead (i + 1)) s, true) := by
  have hend : itemHead (i + 1) ≠ itemHead (blkhNrItem (s.slots 1)) := by
    rw [hat.leaf]
    exact fun h => hi (itemHead_inj.mp h)
  rw [nextKey, hih, itemHead_succ]
  exact if_neg hend

/-- At the end of a leaf the first loop decides. -/
theorem At.nextKey_end (hat : At info disk n root node idx s) {i : Nat}
    (hih : s.currentIh = itemHead i) (hi : i + 1 = nrItem disk (node 0)) :
    s.currentIh + ihSize = itemHead (blkhNrItem (s.slots 1)) := by
  rw [hat.leaf, hih, itemHead_succ, hi]
  rfl

/-- Behind the last leaf comes the dummy. -/
theorem At.nextKey_last (hat : At info disk n root node idx s) (hdepth : info.treeDepth = n + 1)
    (hu16 : n + 1 < 2 ^ 16) {i : Nat} (hih : s.currentIh = itemHead i)
    (hi : i + 1 = nrItem disk (node 0)) (hlast : LastUpTo disk node idx n) :
    nextKey io info s = (setCurrent blkRightDelimKey s, true) := by
  simp only [nextKey, hat.nextKey_end hih hi, hat.climb_last hdepth hu16 hlast, if_true]

/-- The way down from a node that is the root or cached. -/
theorem At.nextKey_next (hat : At info disk n root node idx s) (hio : ReadsNodes info io disk)
    (hslots : 2 ≤ info.cachedSlots) (hf : Formed pos disk n root) (hdepth : info.treeDepth = n + 1)
    (hu16 : n + 1 < 2 ^ 16) {i : Nat} (hih : s.currentIh = itemHead i)
    (hi : i + 1 = nrItem disk (node 0)) {m : Nat} (hm : m < n) (hlast : LastUpTo disk node idx m)
    (hidx : idx (m + 1) < nrItem disk (node (m + 1)))
    (hseam : m + 2 ≤ info.cachedSlots ∨ m + 2 = info.treeDepth) :
    ∃ s', nextKey io info s = (setCurrent (itemHead 0) s', true)
      ∧ At info disk n root (nextNode disk node idx m) (nextIdx idx m) s' := by
  -- the slot that holds the node with the child to come
  obtain ⟨slot, hstart, hslot⟩ : ∃ slot, startNode io info (m + 2) s = (s, some (m + 2, slot))
      ∧ s.slots slot = disk (node (m + 1)) := by
    by_cases htop : m + 2 = info.treeDepth
    · refine ⟨0, by rw [startNode, if_pos htop], ?_⟩
      rw [hat.cache.rootSlot, ← hat.path.top, show n = m + 1 by omega]
    · have hlow : m + 2 ≤ info.cachedSlots := hseam.resolve_right htop
      refine ⟨m + 2, by rw [startNode, if_neg htop, if_pos hlow], ?_⟩
      exact hat.inner (m + 1) (by omega) (by omega) hlow
  have hnext : s.nextKeyNr (m + 1 + 1) = idx (m + 1) + 1 := by
    rw [hat.nexts (m + 1) (by omega) (by omega), if_neg (by omega)]
  obtain ⟨hc, hfc⟩ := (hat.path.formed hf (m + 1) hm).2.1 (idx (m + 1) + 1) hidx
  obtain ⟨s', hrun, hd⟩ := descend_spec hio hslots m hat.cache (by omega) hslot hnext hc hfc
    fun e h1 he => hat.next_zero (by omega) hlast (by omega) (by omega)
  refine ⟨s', ?_, hat.path.next hm hidx, hd.cache, ?_, ?_, ?_, ?_⟩
  · simp only [nextKey, hat.nextKey_end hih hi, hat.climb_seam hdepth hu16 hm hlast hidx, if_true,
      hstart, hrun]
  · rw [nextNode, if_pos (Nat.zero_le m)]
    exact hd.slots 0 (Nat.zero_le m) (by omega)
  · intro h h1 hlt hle
    by_cases hhm : h ≤ m
    · rw [nextNode, if_pos hhm]
      exact hd.slots h hhm hle
    · rw [nextNode_above (by omega), hd.slotsAbove (h + 1) (.inr ⟨by omega, hle⟩)]
      exact hat.inner h h1 hlt hle
  · intro h hlt
    by_cases hhm : h ≤ m
    · rw [nextNode, if_pos hhm]
      exact hd.blocks h hhm
    · rw [nextNode_above (by omega), hd.blocksAbove (h + 1) (by omega)]
      exact hat.blocks h hlt
  · intro h h1 hle
    rcases Nat.lt_trichotomy h (m + 1) with hhm | rfl | hhm
    · have hhm' : h ≤ m := Nat.lt_succ_iff.mp hhm
      rw [nextNode, nextIdx, if_pos hhm', if_pos hhm']
      exact hd.nexts h h1 hhm'
    · rw [nextNode_above (Nat.lt_succ_self m), nextIdx, if_neg (Nat.not_succ_le_self m), if_pos rfl]
      exact hd.next
    · have hne : ¬ h ≤ m := by omega
      rw [nextNode_above (by omega), nextIdx, if_neg hne, if_neg (Nat.ne_of_gt hhm),
        hd.nextsAbove (h + 1) (by omega)]
      exact hat.nexts h h1 hle

/-- The way down from a node that is not cached starts at the child it has left, and comes to
the first leaf under that child. -/
theorem At.nextKey_reenter (hat : At info disk n root node idx s) (hio : ReadsNodes info io disk)
    (hslots : 2 ≤ info.cachedSlots) (hf : Formed pos disk n root) (hdepth : info.treeDepth = n + 1)
    (hu16 : n + 1 < 2 ^ 16) {i : Nat} (hih : s.currentIh = itemHead i)
    (hi : i + 1 = nrItem disk (node 0)) {m : Nat} (hm : m < n) (hlast : LastUpTo disk node idx m)
    (hidx : idx (m + 1) < nrItem disk (node (m + 1)))
    (hlow : info.cachedSlots < m + 2) (htop : m + 2 ≠ info.treeDepth) :
    ∃ s', nextKey io info s = (setCurrent (itemHead 0) s', true)
      ∧ s'.slots 1 = disk (firstLeaf disk m (node m)) := by
  obtain ⟨l, rfl⟩ : ∃ l, m = l + 1 := ⟨m - 1, by omega⟩
  have hfm := hat.path.formed hf (l + 1) (by omega)
  obtain ⟨s₁, hread, hin⟩ := readTreeNode_spec hio hslots hat.cache (Nat.succ_pos (l + 1))
    (by omega) (hat.path.ne_zero hf hm) hfm.1
  have hstart : startNode io info (l + 1 + 2) s
      = (s₁, some (l + 2, min (l + 2) info.cachedSlots)) := by
    rw [startNode, if_neg htop, if_neg (by omega)]
    simp only [show l + 1 + 2 - 1 = l + 1 + 1 by omega, hat.blocks (l + 1) hm, hread]
  have hnexts : ∀ d, 1 < d → d ≤ l + 2 → s₁.nextKeyNr d = 0 := by
    intro d hd hle
    rw [hin.nexts]
    exact hat.next_zero (by omega) hlast hd hle
  obtain ⟨hc, hfc⟩ := hfm.2.1 0 (Nat.zero_le _)
  obtain ⟨s', hrun, hd⟩ := descend_spec hio hslots l hin.cache (by omega) hin.slot
    (hnexts (l + 2) (by omega) (Nat.le_refl _)) hc hfc fun e h1 he => hnexts _ (by omega) (by omega)
  refine ⟨s', ?_, hd.slots 0 (Nat.zero_le l) (by omega)⟩
  simp only [nextKey, hat.nextKey_end hih hi, hat.climb_seam hdepth hu16 hm hlast hidx, if_true,
    hstart, hrun]

end LiloBoot.ReiserFS
