/-
LiloBoot.ReiserFS.TreeTheorems — the items of the tree in order.

A well-formed tree has its items in the leaves, in ascending order, and keys in
the inner nodes that separate them. `search_stat` goes down one path, and
`next_key` moves that path from leaf to leaf. Two leaves next to each other are
joined at a node, and the level of that node, the seam, decides which branch
`next_key` takes: the root, a cached node, or a node that is not cached, for
which it takes the child it has just left.
-/
import LiloBoot.ReiserFS.Tree

namespace LiloBoot.ReiserFS

/-! ## §1 The tree on the disk -/

/-- Every read of a node succeeds. -/
def ReadsNodes (info : TreeInfo) (io : NodeRead) (disk : Nat → Bytes) : Prop :=
  ∀ n blockNr old, io n blockNr old = (((2 ^ info.blocksizeShift : Nat) : Int), disk blockNr)

section Tree

variable (disk : Nat → Bytes)

def nrItem (block : Nat) : Nat := blkhNrItem (disk block)

/-- The block number of a child. -/
def child (block i : Nat) : Nat := dcBlockNumber (disk block) (nrItem disk block) i

/-- The first leaf under a node `n` levels above the leaves. -/
def firstLeaf (n block : Nat) : Nat := (fun b => child disk b 0)^[n] block

/-- The leaves behind the first one, each with the level at which it is joined to the leaf
before it. -/
def seams : Nat → Nat → List (Nat × Nat)
  | 0, _ => []
  | n + 1, block =>
    seams n (child disk block 0) ++ (List.range' 1 (nrItem disk block)).flatMap fun i =>
      (n + 2, firstLeaf disk n (child disk block i)) :: seams n (child disk block i)

/-- The leaves under a node. -/
def leaves (n block : Nat) : List Nat := firstLeaf disk n block :: (seams disk n block).map Prod.snd

/-- The items of a leaf: the leaf and an index. -/
def leafItems (leaf : Nat) : List (Nat × Nat) :=
  (List.range (nrItem disk leaf)).map fun i => (leaf, i)

/-- The items under a node, from left to right. -/
def items (n block : Nat) : List (Nat × Nat) := (leaves disk n block).flatMap (leafItems disk)

/-- The key of an item. -/
def itemKey (item : Nat × Nat) : Key := ihKey (disk item.1) (itemHead item.2)

end Tree

/-! ## §2 Well-formed trees -/

/-- The order of keys: directory, object, and then `pos`, which the format of the key decides. -/
def keyOrd (pos : Key → Nat) (key : Key) : Nat ×ₗ Nat ×ₗ Nat :=
  toLex (key.dirId, toLex (key.objectid, pos key))

/-- Stat data come first among the items of an object. -/
def StatFirst (pos : Key → Nat) : Prop :=
  ∀ key, pos key = 0 ↔ key.offset = 0 ∧ key.uniqueness = 0

/-- A node `n` levels above the leaves, with all that is under it. Leaves hold items in ascending
order, key `i` of a node separates its children up to `i` from those behind. -/
def Formed (pos : Key → Nat) (disk : Nat → Bytes) : Nat → Nat → Prop
  | 0, block =>
    blkhLevel (disk block) = 1 ∧ 0 < nrItem disk block
      ∧ (leafItems disk block).Pairwise fun x y =>
          keyOrd pos (itemKey disk x) < keyOrd pos (itemKey disk y)
  | n + 1, block =>
    blkhLevel (disk block) = n + 2
      ∧ (∀ i ≤ nrItem disk block, child disk block i ≠ 0 ∧ Formed pos disk n (child disk block i))
      ∧ ∀ i < nrItem disk block, ∀ j ≤ nrItem disk block, ∀ x ∈ items disk n (child disk block j),
          (j ≤ i → keyOrd pos (itemKey disk x) < keyOrd pos (keyNr (disk block) i))
          ∧ (i < j → keyOrd pos (keyNr (disk block) i) ≤ keyOrd pos (itemKey disk x))

instance Formed.decidable (pos : Key → Nat) (disk : Nat → Bytes) :
    ∀ n block, Decidable (Formed pos disk n block)
  | 0, block => inferInstanceAs (Decidable (blkhLevel (disk block) = 1 ∧ 0 < nrItem disk block
      ∧ (leafItems disk block).Pairwise fun x y =>
          keyOrd pos (itemKey disk x) < keyOrd pos (itemKey disk y)))
  | n + 1, block =>
    have := Formed.decidable pos disk n
    inferInstanceAs (Decidable (blkhLevel (disk block) = n + 2
      ∧ (∀ i ≤ nrItem disk block, child disk block i ≠ 0 ∧ Formed pos disk n (child disk block i))
      ∧ ∀ i < nrItem disk block, ∀ j ≤ nrItem disk block, ∀ x ∈ items disk n (child disk block j),
          (j ≤ i → keyOrd pos (itemKey disk x) < keyOrd pos (keyNr (disk block) i))
          ∧ (i < j → keyOrd pos (keyNr (disk block) i) ≤ keyOrd pos (itemKey disk x))))

section Order

variable {pos : Key → Nat} {disk : Nat → Bytes}

theorem leaves_succ (n block : Nat) : leaves disk (n + 1) block
    = (List.range' 0 (nrItem disk block + 1)).flatMap fun i => leaves disk n (child disk block i) := by
  rw [List.range'_succ, List.flatMap_cons, leaves, seams, List.map_append, List.map_flatMap]
  rfl

theorem items_succ (n block : Nat) : items disk (n + 1) block
    = (List.range' 0 (nrItem disk block + 1)).flatMap fun i => items disk n (child disk block i) := by
  rw [items, leaves_succ, List.flatMap_assoc]
  rfl

theorem items_zero (block : Nat) : items disk 0 block = leafItems disk block := by
  simp [items, leaves, seams, firstLeaf]

theorem mem_items_succ {n block : Nat} {x : Nat × Nat} :
    x ∈ items disk (n + 1) block ↔ ∃ i ≤ nrItem disk block, x ∈ items disk n (child disk block i) := by
  rw [items_succ, List.mem_flatMap]
  constructor
  · rintro ⟨i, hi, hx⟩
    exact ⟨i, by have := (List.mem_range'_1.mp hi).2; omega, hx⟩
  · rintro ⟨i, hi, hx⟩
    exact ⟨i, List.mem_range'_1.mpr ⟨Nat.zero_le i, by omega⟩, hx⟩

/-- The items of a well-formed tree ascend from left to right. -/
theorem Formed.ascending (n : Nat) : ∀ {block : Nat}, Formed pos disk n block →
    (items disk n block).Pairwise fun x y =>
      keyOrd pos (itemKey disk x) < keyOrd pos (itemKey disk y) := by
  induction n with
  | zero =>
    intro block h
    rw [items_zero]
    exact h.2.2
  | succ n ih =>
    intro block h
    obtain ⟨-, hchild, hsep⟩ := h
    rw [items_succ, List.pairwise_flatMap]
    constructor
    · intro i hi
      exact ih (hchild i (by have := (List.mem_range'_1.mp hi).2; omega)).2
    · refine (List.pairwise_lt_range' ..).imp_of_mem fun {i j} hi hj hlt x hx y hy => ?_
      have hi := (List.mem_range'_1.mp hi).2
      have hj := (List.mem_range'_1.mp hj).2
      have hx := (hsep i (by omega) i (by omega) x hx).1 (Nat.le_refl i)
      have hy := (hsep i (by omega) j (by omega) y hy).2 hlt
      exact lt_of_lt_of_le hx hy

/-- A key is found behind the stat key of an object just where the order says so. -/
theorem keyBehind_iff (hpos : StatFirst pos) (key : Key) (dirId objectid : Nat) :
    keyBehind key dirId objectid = true
      ↔ keyOrd pos (statKey dirId objectid) < keyOrd pos key := by
  have hzero : pos (statKey dirId objectid) = 0 := (hpos _).mpr ⟨rfl, rfl⟩
  have hkey : pos key ≠ 0 ↔ ¬ (key.offset = 0 ∧ key.uniqueness = 0) := not_congr (hpos key)
  simp only [keyOrd, Prod.Lex.toLex_lt_toLex, hzero, Nat.pos_iff_ne_zero, hkey]
  simp only [statKey, keyBehind, Bool.or_eq_true, Bool.and_eq_true, decide_eq_true_eq,
    Bool.not_eq_true', Bool.and_eq_false_iff, decide_eq_false_iff_not]
  grind

end Order

/-! ## §3 Paths -/

section Paths

variable {disk : Nat → Bytes} {n root : Nat} {node idx : Nat → Nat}

/-- A path from the root to a leaf: the node at each height, and which child is taken. -/
structure OnPath (disk : Nat → Bytes) (n root : Nat) (node idx : Nat → Nat) : Prop where
  top : node n = root
  step : ∀ h < n, node h = child disk (node (h + 1)) (idx (h + 1))
  le : ∀ h < n, idx (h + 1) ≤ nrItem disk (node (h + 1))

/-- The leaves behind the one of a path under its node at a height, with their seams. -/
def behind (disk : Nat → Bytes) (node idx : Nat → Nat) : Nat → List (Nat × Nat)
  | 0 => []
  | h + 1 =>
    behind disk node idx h
      ++ (List.range' (idx (h + 1) + 1) (nrItem disk (node (h + 1)) - idx (h + 1))).flatMap fun i =>
        (h + 2, firstLeaf disk h (child disk (node (h + 1)) i))
          :: seams disk h (child disk (node (h + 1)) i)

theorem leaves_map_snd (h block : Nat) (is : List Nat) :
    (is.flatMap fun i => (h + 2, firstLeaf disk h (child disk block i))
        :: seams disk h (child disk block i)).map Prod.snd
      = is.flatMap fun i => leaves disk h (child disk block i) := by
  rw [List.map_flatMap]
  rfl

/-- The leaves under a node of the path: those before, the leaf of the path, those behind. -/
theorem OnPath.leaves_split (hp : OnPath disk n root node idx) : ∀ h ≤ n,
    ∃ pre, leaves disk h (node h) = pre ++ node 0 :: (behind disk node idx h).map Prod.snd := by
  intro h
  induction h with
  | zero =>
    intro _
    exact ⟨[], rfl⟩
  | succ h ih =>
    intro hle
    obtain ⟨pre, hpre⟩ := ih (by omega)
    have hidx := hp.le h (by omega)
    have hsplit : List.range' 0 (nrItem disk (node (h + 1)) + 1)
        = List.range' 0 (idx (h + 1))
          ++ idx (h + 1) :: List.range' (idx (h + 1) + 1) (nrItem disk (node (h + 1)) - idx (h + 1)) := by
      have happend := @List.range'_append_1 0 (idx (h + 1)) (nrItem disk (node (h + 1)) - idx (h + 1) + 1)
      rw [Nat.zero_add, List.range'_succ] at happend
      rw [happend]
      congr 1
      omega
    refine ⟨(List.range' 0 (idx (h + 1))).flatMap (fun i =>
      leaves disk h (child disk (node (h + 1)) i)) ++ pre, ?_⟩
    rw [leaves_succ, hsplit, List.flatMap_append, List.flatMap_cons, ← hp.step h (by omega), hpre,
      behind, List.map_append, leaves_map_snd]
    simp only [List.append_assoc, List.cons_append]

theorem OnPath.formed {pos : Key → Nat} (hp : OnPath disk n root node idx)
    (hf : Formed pos disk n root) : ∀ h ≤ n, Formed pos disk h (node h) := by
  intro h hle
  induction hle using Nat.decreasingInduction with
  | self => rwa [hp.top]
  | of_succ h hlt ih =>
    rw [hp.step h hlt]
    exact (ih.2.1 _ (hp.le h hlt)).2

theorem OnPath.ne_zero {pos : Key → Nat} (hp : OnPath disk n root node idx)
    (hf : Formed pos disk n root) {h : Nat} (hlt : h < n) : node h ≠ 0 := by
  rw [hp.step h hlt]
  exact ((hp.formed hf (h + 1) hlt).2.1 _ (hp.le h hlt)).1

/-- The node at height `e` on the way down from `block` at height `h` that keeps left. -/
def leftNode (disk : Nat → Bytes) (h block e : Nat) : Nat :=
  (fun b => child disk b 0)^[h - e] block

theorem leftNode_self (h block : Nat) : leftNode disk h block h = block := by
  rw [leftNode, Nat.sub_self]
  rfl

theorem leftNode_succ {h e : Nat} (he : e ≤ h) (block : Nat) :
    leftNode disk (h + 1) block e = leftNode disk h (child disk block 0) e := by
  rw [leftNode, leftNode, Nat.succ_sub he]
  rfl

/-- The path after the one given: at height `m + 1` it takes the next child, below it keeps
left. -/
def nextNode (disk : Nat → Bytes) (node idx : Nat → Nat) (m e : Nat) : Nat :=
  if e ≤ m then leftNode disk m (child disk (node (m + 1)) (idx (m + 1) + 1)) e else node e

def nextIdx (idx : Nat → Nat) (m e : Nat) : Nat :=
  if e ≤ m then 0 else if e = m + 1 then idx e + 1 else idx e

theorem nextNode_above {m e : Nat} (he : m < e) : nextNode disk node idx m e = node e :=
  if_neg (by omega)

theorem OnPath.next (hp : OnPath disk n root node idx) {m : Nat} (hm : m < n)
    (hidx : idx (m + 1) < nrItem disk (node (m + 1))) :
    OnPath disk n root (nextNode disk node idx m) (nextIdx idx m) where
  top := by rw [nextNode_above hm, hp.top]
  step := by
    intro h hlt
    rcases Nat.lt_trichotomy h m with hhm | rfl | hhm
    · rw [nextNode, nextNode, nextIdx, if_pos (by omega), if_pos (by omega), if_pos (by omega)]
      rw [leftNode, leftNode, show m - h = (m - (h + 1)) + 1 by omega, Function.iterate_succ_apply']
    · rw [nextNode_above (Nat.lt_succ_self h), nextNode, nextIdx, if_pos (Nat.le_refl h),
        if_neg (by omega), if_pos rfl, leftNode_self]
    · rw [nextNode_above hhm, nextNode_above (by omega), nextIdx, if_neg (by omega),
        if_neg (by omega), hp.step h hlt]
  le := by
    intro h hlt
    rw [nextIdx]
    split
    · exact Nat.zero_le _
    · rename_i hle
      rw [nextNode_above (by omega)]
      split
      · rename_i heq
        rw [heq]
        exact hidx
      · exact hp.le h hlt

/-- On the way down that keeps left, all other leaves lie behind. -/
theorem behind_left (m : Nat) : ∀ {block : Nat} {node idx : Nat → Nat},
    (∀ e ≤ m, node e = leftNode disk m block e) → (∀ e, 1 ≤ e → e ≤ m → idx e = 0) →
    behind disk node idx m = seams disk m block := by
  induction m with
  | zero =>
    intro block node idx _ _
    rfl
  | succ m ih =>
    intro block node idx hnode hidx
    have htop : node (m + 1) = block := by rw [hnode _ (Nat.le_refl _), leftNode_self]
    have hrest := @ih (child disk block 0) node idx
      (fun e he => by rw [hnode e (by omega), leftNode_succ he])
      (fun e h1 he => hidx e h1 (by omega))
    rw [behind, hrest, htop, hidx (m + 1) (by omega) (Nat.le_refl _), seams]
    rfl

/-- Without a further child up to a height nothing lies behind there. -/
theorem behind_last (m : Nat) (hlast : ∀ e, 1 ≤ e → e ≤ m → idx e = nrItem disk (node e)) :
    behind disk node idx m = [] := by
  induction m with
  | zero => rfl
  | succ m ih =>
    rw [behind, ih fun e h1 he => hlast e h1 (by omega), hlast (m + 1) (by omega) (Nat.le_refl _),
      Nat.sub_self]
    rfl

/-- Above the seam the two paths are the same. -/
theorem behind_congr {node' idx' : Nat → Nat} {m : Nat} {front : List (Nat × Nat)}
    (hm : behind disk node idx m = front ++ behind disk node' idx' m)
    (hnode : ∀ e, m < e → node' e = node e) (hidx : ∀ e, m < e → idx' e = idx e) :
    ∀ h, m ≤ h → behind disk node idx h = front ++ behind disk node' idx' h := by
  intro h hle
  induction hle with
  | refl => exact hm
  | step hle ih =>
    rename_i h
    have hlt : m < h + 1 := Nat.lt_succ_of_le hle
    rw [behind, behind, ih, hnode _ hlt, hidx _ hlt, List.append_assoc]

/-- The next path leaves behind what the old one does, less the leaf it leads to. -/
theorem behind_next {m : Nat} (hlast : ∀ e, 1 ≤ e → e ≤ m → idx e = nrItem disk (node e))
    (hidx : idx (m + 1) < nrItem disk (node (m + 1))) : ∀ h, m + 1 ≤ h →
    behind disk node idx h = (m + 2, nextNode disk node idx m 0)
      :: behind disk (nextNode disk node idx m) (nextIdx idx m) h := by
  have hzero : nextNode disk node idx m 0
      = firstLeaf disk m (child disk (node (m + 1)) (idx (m + 1) + 1)) := by
    rw [nextNode, if_pos (Nat.zero_le m)]
    rfl
  have hleft : behind disk (nextNode disk node idx m) (nextIdx idx m) m
      = seams disk m (child disk (node (m + 1)) (idx (m + 1) + 1)) :=
    behind_left m (fun e he => if_pos he) (fun e _ he => if_pos he)
  have hseam : behind disk node idx (m + 1) = [(m + 2, nextNode disk node idx m 0)]
      ++ behind disk (nextNode disk node idx m) (nextIdx idx m) (m + 1) := by
    rw [behind, behind_last m hlast, List.nil_append, behind, hleft, nextNode_above (Nat.lt_succ_self m),
      nextIdx, if_neg (by omega), if_pos rfl, hzero,
      show nrItem disk (node (m + 1)) - idx (m + 1)
        = (nrItem disk (node (m + 1)) - (idx (m + 1) + 1)) + 1 by omega,
      List.range'_succ, List.flatMap_cons]
    rfl
  intro h hle
  refine behind_congr hseam (fun e he => nextNode_above (by omega)) (fun e he => ?_) h hle
  rw [nextIdx, if_neg (by omega), if_neg (by omega)]

end Paths

/-! ## §4 The cache -/

/-- What the cache keeps from call to call: the root in slot 0, and below the shared slot each
block under its number. -/
structure Cache (info : TreeInfo) (disk : Nat → Bytes) (root : Nat) (s : TreeState) : Prop where
  rootSlot : s.slots 0 = disk root
  leafSlot : info.treeDepth = 1 → s.slots 1 = disk root
  cached : ∀ d, 1 ≤ d → d < info.cachedSlots → s.blocks d ≠ 0 → s.slots d = disk (s.blocks d)

theorem setNext_self (s : TreeState) (d nr : Nat) : (s.setNext d nr).nextKeyNr d = nr :=
  Function.update_self ..

theorem setNext_ne {e d : Nat} (h : e ≠ d) (s : TreeState) (nr : Nat) :
    (s.setNext d nr).nextKeyNr e = s.nextKeyNr e :=
  Function.update_of_ne h ..

section Descent

variable {info : TreeInfo} {io : NodeRead} {disk : Nat → Bytes} {pos : Key → Nat} {root : Nat}
  {s : TreeState}

/-- What a read of the block `c` at level `d` leaves. -/
structure ReadIn (info : TreeInfo) (disk : Nat → Bytes) (root c d : Nat) (s s' : TreeState) :
    Prop where
  cache : Cache info disk root s'
  slot : s'.slots (min d info.cachedSlots) = disk c
  slots : ∀ x, x ≠ min d info.cachedSlots → s'.slots x = s.slots x
  block : s'.blocks d = c
  blocks : ∀ e, e ≠ d → s'.blocks e = s.blocks e
  nexts : s'.nextKeyNr = s.nextKeyNr

theorem readTreeNode_spec (hio : ReadsNodes info io disk) (hslots : 2 ≤ info.cachedSlots)
    (hs : Cache info disk root s) {c d : Nat} (hd : 1 ≤ d) (hdepth : d < info.treeDepth)
    (hc : c ≠ 0) (hlevel : blkhLevel (disk c) = d) :
    ∃ s', readTreeNode io info c d s = (s', some (min d info.cachedSlots))
      ∧ ReadIn info disk root c d s s' := by
  by_cases hhit : d < info.cachedSlots ∧ c = s.blocks d
  · obtain ⟨hlt, hblock⟩ := hhit
    have hmin : min d info.cachedSlots = d := Nat.min_eq_left (Nat.le_of_lt hlt)
    refine ⟨{ s with errnum := 0 }, ?_, ⟨hs.rootSlot, hs.leafSlot, hs.cached⟩, ?_, fun _ _ => rfl,
      hblock.symm, fun _ _ => rfl, rfl⟩
    · rw [readTreeNode, hmin]
      exact if_pos ⟨hlt, hblock⟩
    · rw [hmin]
      show s.slots d = disk c
      rw [hs.cached d hd hlt (hblock ▸ hc), hblock]
  · have hslot : (if d < info.cachedSlots then d else info.cachedSlots) = min d info.cachedSlots := by
      split <;> omega
    refine ⟨{ s with
      errnum := 0, slots := Function.update s.slots (min d info.cachedSlots) (disk c)
      reads := s.reads + 1, blocks := Function.update s.blocks d c }, ?_, ⟨?_, ?_, ?_⟩, ?_, ?_,
      ?_, ?_, rfl⟩
    · simp only [readTreeNode, hhit, if_false, hslot, hio _ _ _, hlevel]
      rw [if_neg (by exact_mod_cast (Nat.two_pow_pos _).ne'), if_neg (fun h => h rfl)]
    · show Function.update s.slots (min d info.cachedSlots) (disk c) 0 = disk root
      rw [Function.update_of_ne (by omega), hs.rootSlot]
    · intro h1
      omega
    · intro e he hlt hne
      show Function.update s.slots (min d info.cachedSlots) (disk c) e
        = disk (Function.update s.blocks d c e)
      by_cases hed : e = d
      · rw [hed, show min d info.cachedSlots = d by omega, Function.update_self,
          Function.update_self]
      · rw [Function.update_of_ne (by omega), Function.update_of_ne hed]
        refine hs.cached e he hlt ?_
        have hne' : Function.update s.blocks d c e ≠ 0 := hne
        rwa [Function.update_of_ne hed] at hne'
    · exact Function.update_self ..
    · exact fun x hx => Function.update_of_ne hx ..
    · exact Function.update_self ..
    · exact fun e he => Function.update_of_ne he ..

/-- What the second loop leaves when it goes from child `j` of `b`, at height `h`, down to a
leaf. -/
structure Descended (info : TreeInfo) (disk : Nat → Bytes) (root h b j : Nat)
    (s s' : TreeState) : Prop where
  cache : Cache info disk root s'
  slots : ∀ e ≤ h, e + 1 ≤ info.cachedSlots →
    s'.slots (e + 1) = disk (leftNode disk h (child disk b j) e)
  slotsAbove : ∀ x, x = 0 ∨ (h + 1 < x ∧ x ≤ info.cachedSlots) → s'.slots x = s.slots x
  blocks : ∀ e ≤ h, s'.blocks (e + 1) = leftNode disk h (child disk b j) e
  blocksAbove : ∀ d, h + 1 < d → s'.blocks d = s.blocks d
  next : s'.nextKeyNr (h + 2) = if j = nrItem disk b then 0 else j + 1
  nexts : ∀ e, 1 ≤ e → e ≤ h → s'.nextKeyNr (e + 1)
    = if 0 = nrItem disk (leftNode disk h (child disk b j) e) then 0 else 1
  nextsAbove : ∀ d, h + 2 < d → s'.nextKeyNr d = s.nextKeyNr d

/-- One turn of the second loop. -/
theorem descend_turn (hio : ReadsNodes info io disk) (hslots : 2 ≤ info.cachedSlots)
    (hs : Cache info disk root s) {h slot b j : Nat} (hdepth : h + 2 ≤ info.treeDepth)
    (hslot : s.slots slot = disk b) (hj : s.nextKeyNr (h + 2) = j) (hc : child disk b j ≠ 0)
    (hlevel : blkhLevel (disk (child disk b j)) = h + 1) :
    ∃ s', descend io info (h + 2) slot s
        = (if blkhLevelLeaf < h + 1 then descend io info (h + 1) (min (h + 1) info.cachedSlots) s'
            else (s', true))
      ∧ ReadIn info disk root (child disk b j) (h + 1)
          (s.setNext (h + 2) (if j = nrItem disk b then 0 else j + 1)) s' := by
  have hset : Cache info disk root (s.setNext (h + 2) (if j = nrItem disk b then 0 else j + 1)) :=
    ⟨hs.rootSlot, hs.leafSlot, hs.cached⟩
  obtain ⟨s', hread, hin⟩ :=
    readTreeNode_spec hio hslots hset (Nat.le_add_left 1 h) (by omega) hc hlevel
  refine ⟨s', ?_, hin⟩
  have hj' : s.nextKeyNr (h + 1 + 1) = j := hj
  have hread' : readTreeNode io info (dcBlockNumber (disk b) (blkhNrItem (disk b)) j) (h + 1)
      (s.setNext (h + 1 + 1) (if j = blkhNrItem (disk b) then 0 else j + 1))
        = (s', some (min (h + 1) info.cachedSlots)) := hread
  rw [descend]
  simp only [hslot, hj', hread']

/-- Down to the first leaf under a child, level by level. -/
theorem descend_spec (hio : ReadsNodes info io disk) (hslots : 2 ≤ info.cachedSlots) (h : Nat) :
    ∀ {slot b j : Nat} {s : TreeState}, Cache info disk root s → h + 2 ≤ info.treeDepth →
      s.slots slot = disk b → s.nextKeyNr (h + 2) = j → child disk b j ≠ 0 →
      Formed pos disk h (child disk b j) → (∀ e, 1 ≤ e → e ≤ h → s.nextKeyNr (e + 1) = 0) →
      ∃ s', descend io info (h + 2) slot s = (s', true) ∧ Descended info disk root h b j s s' := by
  induction h with
  | zero =>
    intro slot b j s hs hdepth hslot hj hc hf _
    obtain ⟨s', hrun, hin⟩ := descend_turn hio hslots hs hdepth hslot hj hc hf.1
    have hmin : min 1 info.cachedSlots = 1 := Nat.min_eq_left (by omega)
    refine ⟨s', hrun.trans (if_neg (by decide)), hin.cache, ?_, ?_, ?_, ?_, ?_, ?_, ?_⟩
    · intro e he _
      obtain rfl : e = 0 := by omega
      rw [leftNode_self]
      have hslot' := hin.slot
      rwa [Nat.zero_add, hmin] at hslot'
    · intro x hx
      rw [hin.slots x (by omega)]
      rfl
    · intro e he
      obtain rfl : e = 0 := by omega
      rw [leftNode_self]
      exact hin.block
    · intro d hd
      rw [hin.blocks d (by omega)]
      rfl
    · rw [hin.nexts, setNext_self]
    · intro e h1 he
      omega
    · intro d hd
      rw [hin.nexts, setNext_ne (by omega)]
  | succ h ih =>
    intro slot b j s hs hdepth hslot hj hc hf hzero
    obtain ⟨s₁, hrun, hin⟩ := descend_turn hio hslots hs hdepth hslot hj hc hf.1
    obtain ⟨hc', hf'⟩ := hf.2.1 0 (Nat.zero_le _)
    have hnext : s₁.nextKeyNr (h + 2) = 0 := by
      rw [hin.nexts, setNext_ne (by omega)]
      exact hzero (h + 1) (by omega) (Nat.le_refl _)
    obtain ⟨s', hrest, hd⟩ := ih hin.cache (by omega) hin.slot hnext hc' hf' fun e h1 he => by
      rw [hin.nexts, setNext_ne (by omega)]
      exact hzero e h1 (by omega)
    refine ⟨s', ?_, hd.cache, ?_, ?_, ?_, ?_, ?_, ?_, ?_⟩
    · have hlow : blkhLevelLeaf < h + 1 + 1 := Nat.succ_lt_succ (Nat.succ_pos h)
      rw [hrun, if_pos hlow]
      exact hrest
    · intro e he hle
      rcases Nat.lt_or_eq_of_le he with hlt | rfl
      · rw [hd.slots e (by omega) hle, leftNode_succ (by omega)]
      · rw [hd.slotsAbove (h + 1 + 1) (.inr ⟨by omega, hle⟩), leftNode_self, ← hin.slot,
          Nat.min_eq_left hle]
    · intro x hx
      rw [hd.slotsAbove x (by omega), hin.slots x (by omega)]
      rfl
    · intro e he
      rcases Nat.lt_or_eq_of_le he with hlt | rfl
      · rw [hd.blocks e (by omega), leftNode_succ (by omega)]
      · rw [hd.blocksAbove (h + 1 + 1) (by omega), leftNode_self, hin.block]
    · intro d hd'
      rw [hd.blocksAbove d (by omega), hin.blocks d (by omega)]
      rfl
    · rw [hd.nextsAbove (h + 1 + 2) (by omega), hin.nexts, setNext_self]
    · intro e h1 he
      rcases Nat.lt_or_eq_of_le he with hlt | rfl
      · rw [hd.nexts e h1 (by omega), leftNode_succ (by omega)]
      · rw [leftNode_self]
        exact hd.next
    · intro d hd'
      rw [hd.nextsAbove d (by omega), hin.nexts, setNext_ne (by omega)]

end Descent

end LiloBoot.ReiserFS
