/-
LiloBoot.ReiserFS.TreeOrderTheorems — the items behind an item, in key order.

`search_stat` sets the state on a path to the item of a stat key, and each call
of `next_key` takes the list of items still to come one item on. The list is
followed to its end just where every seam in it is at the root or at a cached
level. With blocks up to 4096 bytes the cache holds six levels and no seam
lies above them; with 8192 bytes it holds two.
-/
import LiloBoot.ReiserFS.NextKeyTheorems

namespace LiloBoot.ReiserFS

/-! ## §1 Visits -/

/-- `current_ih` and `current_item` are those of an item. -/
def On (disk : Nat → Bytes) (item : Nat × Nat) (s : TreeState) : Prop :=
  s.slots 1 = disk item.1 ∧ s.currentIh = itemHead item.2
    ∧ s.currentItem = ihLocation (disk item.1) (itemHead item.2)

/-- Repeated calls of `next_key` come to the items of a list, one after the other, and then to
the dummy item that delimits the last leaf. -/
def Visits (io : NodeRead) (info : TreeInfo) (disk : Nat → Bytes) :
    List (Nat × Nat) → TreeState → Prop
  | [], s => (nextKey io info s).2 = true ∧ (nextKey io info s).1.currentIh = blkRightDelimKey
      ∧ (nextKey io info s).1.slots 1 = s.slots 1
  | item :: rest, s => (nextKey io info s).2 = true ∧ On disk item (nextKey io info s).1
      ∧ Visits io info disk rest (nextKey io info s).1

/-- The items that follow a key in key order. -/
def following (pos : Key → Nat) (disk : Nat → Bytes) (n root : Nat) (key : Key) :
    List (Nat × Nat) :=
  (items disk n root).filter fun item => keyOrd pos key < keyOrd pos (itemKey disk item)

/-- Behind a key, leaves are joined at the root or at a cached level only. -/
def SeamsCached (info : TreeInfo) (pos : Key → Nat) (disk : Nat → Bytes) (n root : Nat)
    (key : Key) : Prop :=
  ∀ p ∈ seams disk n root, keyOrd pos key < keyOrd pos (itemKey disk (p.2, 0)) →
    p.1 ≤ info.cachedSlots ∨ p.1 = info.treeDepth

variable {info : TreeInfo} {io : NodeRead} {disk : Nat → Bytes} {pos : Key → Nat} {n root : Nat}
  {node idx : Nat → Nat} {s : TreeState}

theorem on_setCurrent {leaf : Nat} (hleaf : s.slots 1 = disk leaf) (i : Nat) :
    On disk (leaf, i) (setCurrent (itemHead i) s) :=
  ⟨hleaf, rfl, by rw [← hleaf]; rfl⟩

/-! ## §2 The items of a leaf from an index on -/

/-- The items of a leaf from an index on. -/
def itemsFrom (disk : Nat → Bytes) (leaf i : Nat) : List (Nat × Nat) :=
  (List.range' i (nrItem disk leaf - i)).map fun j => (leaf, j)

theorem itemsFrom_zero (leaf : Nat) : itemsFrom disk leaf 0 = leafItems disk leaf := by
  rw [itemsFrom, leafItems, List.range_eq_range', Nat.sub_zero]

theorem itemsFrom_cons {leaf i : Nat} (hi : i < nrItem disk leaf) :
    itemsFrom disk leaf i = (leaf, i) :: itemsFrom disk leaf (i + 1) := by
  rw [itemsFrom, show nrItem disk leaf - i = (nrItem disk leaf - (i + 1)) + 1 by omega,
    List.range'_succ]
  rfl

theorem itemsFrom_end (leaf : Nat) : itemsFrom disk leaf (nrItem disk leaf) = [] := by
  rw [itemsFrom, Nat.sub_self]
  rfl

theorem leafItems_split {leaf i : Nat} (hi : i < nrItem disk leaf) :
    ∃ pre, leafItems disk leaf = pre ++ (leaf, i) :: itemsFrom disk leaf (i + 1) := by
  have happend := @List.range'_append_1 0 i (nrItem disk leaf - i)
  rw [Nat.zero_add, Nat.add_sub_cancel' (Nat.le_of_lt hi)] at happend
  refine ⟨(List.range' 0 i).map fun j => (leaf, j), ?_⟩
  rw [leafItems, List.range_eq_range', ← happend, List.map_append, ← itemsFrom_cons hi]
  rfl

theorem mem_leafItems {leaf : Nat} {x : Nat × Nat} :
    x ∈ leafItems disk leaf ↔ x.1 = leaf ∧ x.2 < nrItem disk leaf := by
  rw [leafItems, List.mem_map]
  constructor
  · rintro ⟨i, hi, rfl⟩
    exact ⟨rfl, List.mem_range.mp hi⟩
  · rintro ⟨rfl, hi⟩
    exact ⟨x.2, List.mem_range.mpr hi, rfl⟩

/-- The items behind item `i` of the leaf of a path. -/
def remaining (disk : Nat → Bytes) (n : Nat) (node idx : Nat → Nat) (i : Nat) : List (Nat × Nat) :=
  itemsFrom disk (node 0) (i + 1) ++ (behind disk node idx n).flatMap fun p => leafItems disk p.2

/-! ## §3 Runs of `next_key` -/

/-- To the last item of a leaf. -/
theorem visits_leaf (rest : List (Nat × Nat)) (k : Nat) : ∀ {i : Nat} {s : TreeState},
    At info disk n root node idx s → On disk (node 0, i) s → i + 1 + k = nrItem disk (node 0) →
    ∃ s', At info disk n root node idx s' ∧ On disk (node 0, nrItem disk (node 0) - 1) s'
      ∧ (Visits io info disk (itemsFrom disk (node 0) (i + 1) ++ rest) s
          ↔ Visits io info disk rest s') := by
  induction k with
  | zero =>
    intro i s hat hon hi
    refine ⟨s, hat, by rwa [← hi], ?_⟩
    rw [show i + 1 = nrItem disk (node 0) by omega, itemsFrom_end, List.nil_append]
  | succ k ih =>
    intro i s hat hon hi
    have hstep := @At.nextKey_inside info io disk n root node idx s hat i hon.2.1 (by omega)
    obtain ⟨s', hat', hon', hiff⟩ := ih (hat.current (itemHead (i + 1)))
      (on_setCurrent hat.leaf (i + 1)) (by omega)
    refine ⟨s', hat', hon', ?_⟩
    rw [itemsFrom_cons (by omega), List.cons_append, Visits, hstep, ← hiff]
    exact ⟨fun h => h.2.2, fun h => ⟨rfl, on_setCurrent hat.leaf (i + 1), h⟩⟩

theorem firstLeaf_mem (h : Nat) : ∀ {block : Nat}, Formed pos disk h block →
    (firstLeaf disk h block, 0) ∈ items disk h block := by
  induction h with
  | zero =>
    intro block hf
    rw [items_zero]
    exact mem_leafItems.mpr ⟨rfl, hf.2.1⟩
  | succ h ih =>
    intro block hf
    exact mem_items_succ.mpr ⟨0, Nat.zero_le _, ih (hf.2.1 0 (Nat.zero_le _)).2⟩

/-- The first leaf under a node of the path is not the one behind the seam above it. -/
theorem OnPath.first_ne_next (hp : OnPath disk n root node idx) (hf : Formed pos disk n root)
    {m : Nat} (hm : m < n) (hidx : idx (m + 1) < nrItem disk (node (m + 1))) :
    disk (firstLeaf disk m (node m)) ≠ disk (nextNode disk node idx m 0) := by
  intro heq
  have hfm := hp.formed hf (m + 1) hm
  obtain ⟨-, hchild, hsep⟩ := hfm
  have hfirst : (firstLeaf disk m (node m), 0) ∈ items disk m (child disk (node (m + 1)) (idx (m + 1))) := by
    rw [← hp.step m hm]
    exact firstLeaf_mem m (hp.formed hf m (Nat.le_of_lt hm))
  have hnext : (nextNode disk node idx m 0, 0)
      ∈ items disk m (child disk (node (m + 1)) (idx (m + 1) + 1)) := by
    rw [nextNode, if_pos (Nat.zero_le m)]
    exact firstLeaf_mem m (hchild (idx (m + 1) + 1) hidx).2
  have hlow := (hsep _ hidx _ (Nat.le_of_lt hidx) _ hfirst).1 (Nat.le_refl _)
  have hhigh := (hsep _ hidx _ hidx _ hnext).2 (Nat.lt_succ_self _)
  have hsame : itemKey disk (firstLeaf disk m (node m), 0)
      = itemKey disk (nextNode disk node idx m 0, 0) := by
    rw [itemKey, itemKey, heq]
  rw [hsame] at hlow
  exact absurd (lt_of_lt_of_le hlow hhigh) (lt_irrefl _)

/-- **From an item on, `next_key` comes to all that remains, and then to the dummy, just where
every seam behind is at the root or at a cached level.** -/
theorem visits_remaining_iff (hio : ReadsNodes info io disk) (hslots : 2 ≤ info.cachedSlots)
    (hf : Formed pos disk n root) (hdepth : info.treeDepth = n + 1) (hu16 : n + 1 < 2 ^ 16)
    (L : List (Nat × Nat)) : ∀ {node idx : Nat → Nat} {i : Nat} {s : TreeState},
    At info disk n root node idx s → On disk (node 0, i) s → i < nrItem disk (node 0) →
    behind disk node idx n = L →
    (Visits io info disk (remaining disk n node idx i) s
      ↔ ∀ p ∈ L, p.1 ≤ info.cachedSlots ∨ p.1 = info.treeDepth) := by
  induction L with
  | nil =>
    intro node idx i s hat hon hi hbehind
    obtain ⟨s', hat', hon', hiff⟩ := @visits_leaf info io disk n root node idx [] _ i s hat hon
      (Nat.add_sub_of_le hi)
    have hlast : LastUpTo disk node idx n := by
      rcases hat.path.last_or_next n (Nat.le_refl n) with hlast | ⟨m, hm, hlast, hidx⟩
      · exact hlast
      · rw [behind_next hlast hidx n hm] at hbehind
        cases hbehind
    have hend := @At.nextKey_last info io disk n root node idx s' hat' hdepth hu16 _ hon'.2.1
      (by omega) hlast
    rw [remaining, hbehind, List.flatMap_nil, hiff, Visits, hend]
    exact ⟨fun _ p hp => (List.not_mem_nil hp).elim, fun _ => ⟨rfl, rfl, rfl⟩⟩
  | cons p L ih =>
    intro node idx i s hat hon hi hbehind
    obtain ⟨m, hm, hlast, hidx⟩ := (hat.path.last_or_next n (Nat.le_refl n)).resolve_left
      fun hlast => by
        rw [behind_last n hlast] at hbehind
        cases hbehind
    have hseam := hbehind
    rw [behind_next hlast hidx n hm, List.cons.injEq] at hseam
    obtain ⟨rfl, hrest⟩ := hseam
    have hfirst : 0 < nrItem disk (nextNode disk node idx m 0) :=
      ((hat.path.next hm hidx).formed hf 0 (Nat.zero_le n)).2.1
    obtain ⟨s', hat', hon', hiff⟩ := @visits_leaf info io disk n root node idx
      ((nextNode disk node idx m 0, 0) :: remaining disk n (nextNode disk node idx m) (nextIdx idx m) 0)
      _ i s hat hon (Nat.add_sub_of_le hi)
    have hlist : remaining disk n node idx i = itemsFrom disk (node 0) (i + 1)
        ++ (nextNode disk node idx m 0, 0)
          :: remaining disk n (nextNode disk node idx m) (nextIdx idx m) 0 := by
      rw [remaining, hbehind, List.flatMap_cons, ← itemsFrom_zero, itemsFrom_cons hfirst, remaining,
        hrest]
      rfl
    rw [hlist, hiff, List.forall_mem_cons, Visits]
    by_cases hgood : m + 2 ≤ info.cachedSlots ∨ m + 2 = info.treeDepth
    · obtain ⟨s'', hstep, hat''⟩ := hat'.nextKey_next hio hslots hf hdepth hu16 hon'.2.1 (by omega)
        hm hlast hidx hgood
      have hon'' := on_setCurrent hat''.leaf 0
      rw [hstep, ih (hat''.current (itemHead 0)) hon'' hfirst hrest]
      exact ⟨fun h => ⟨hgood, h.2.2⟩, fun h => ⟨rfl, hon'', h.2⟩⟩
    · obtain ⟨s'', hstep, hleaf⟩ := hat'.nextKey_reenter hio hslots hf hdepth hu16 hon'.2.1
        (by omega) hm hlast hidx (by omega) (by omega)
      rw [hstep]
      constructor
      · rintro ⟨-, hon'', -⟩
        exact absurd (hleaf.symm.trans hon''.1) (hat.path.first_ne_next hf hm hidx)
      · exact fun h => absurd h.1 hgood

/-! ## §4 `search_stat` -/

theorem searchNode_spec (block : Bytes) (dirId objectid n : Nat) : ∀ i,
    i ≤ searchNode block dirId objectid n i ∧ searchNode block dirId objectid n i ≤ i + n
      ∧ (∀ k, i ≤ k → k < searchNode block dirId objectid n i →
          keyBehind (keyNr block k) dirId objectid = false)
      ∧ (searchNode block dirId objectid n i < i + n →
          keyBehind (keyNr block (searchNode block dirId objectid n i)) dirId objectid = true) := by
  induction n with
  | zero =>
    intro i
    rw [searchNode]
    exact ⟨Nat.le_refl i, Nat.le_refl i, fun k hk hlt => by omega, fun h => by omega⟩
  | succ n ih =>
    intro i
    rw [searchNode]
    split
    · rename_i hkey
      exact ⟨Nat.le_refl i, by omega, fun k hk hlt => by omega, fun _ => hkey⟩
    · rename_i hkey
      obtain ⟨hge, hle, hbefore, hat⟩ := ih (i + 1)
      refine ⟨by omega, by omega, fun k hk hlt => ?_, fun h => hat (by omega)⟩
      rcases Nat.lt_or_eq_of_le hk with hlt' | rfl
      · exact hbefore k hlt' hlt
      · exact Bool.not_eq_true _ ▸ hkey

/-- The search in a node stops at the child that has the item. -/
theorem Formed.searchNode (hpos : StatFirst pos) {h block j dirId objectid : Nat}
    (hf : Formed pos disk (h + 1) block) (hj : j ≤ nrItem disk block) {x : Nat × Nat}
    (hx : x ∈ items disk h (child disk block j)) (hkey : itemKey disk x = statKey dirId objectid) :
    searchNode (disk block) dirId objectid (nrItem disk block) 0 = j := by
  obtain ⟨-, -, hsep⟩ := hf
  obtain ⟨-, hle, hbefore, hat⟩ :=
    searchNode_spec (disk block) dirId objectid (nrItem disk block) 0
  generalize LiloBoot.ReiserFS.searchNode (disk block) dirId objectid (nrItem disk block) 0 = i
    at hle hbefore hat ⊢
  have hge : i ≤ j := by
    by_contra hlt
    have hnot := hbefore j (Nat.zero_le j) (by omega)
    have hkey' := (hsep j (by omega) j hj x hx).1 (Nat.le_refl j)
    rw [hkey, ← keyBehind_iff hpos, hnot] at hkey'
    cases hkey'
  have hle : j ≤ i := by
    by_contra hlt
    have hbehind := hat (by omega)
    have hkey' := (hsep i (by omega) j hj x hx).2 (by omega)
    rw [keyBehind_iff hpos, ← hkey] at hbehind
    exact absurd (lt_of_lt_of_le hbehind hkey') (lt_irrefl _)
  exact Nat.le_antisymm hge hle

theorem searchLeaf_found (leaf : Bytes) (dirId objectid n : Nat) : ∀ {i j : Nat},
    (∀ k, i ≤ k → k < j → ihKey leaf (itemHead k) ≠ statKey dirId objectid) →
      ihKey leaf (itemHead j) = statKey dirId objectid → i ≤ j → j < i + n →
      searchLeaf leaf dirId objectid n i = some (itemHead j) := by
  induction n with
  | zero =>
    intro i j _ _ hle hlt
    omega
  | succ n ih =>
    intro i j hbefore hkey hle hlt
    rw [searchLeaf]
    rcases Nat.lt_or_eq_of_le hle with hij | rfl
    · rw [if_neg (hbefore i (Nat.le_refl i) hij)]
      exact ih (fun k hk hkj => hbefore k (by omega) hkj) hkey hij (by omega)
    · rw [if_pos hkey]

/-- The items of a leaf have different keys. -/
theorem Formed.searchLeaf {leaf i dirId objectid : Nat} (hf : Formed pos disk 0 leaf)
    (hi : i < nrItem disk leaf) (hkey : itemKey disk (leaf, i) = statKey dirId objectid) :
    searchLeaf (disk leaf) dirId objectid (nrItem disk leaf) 0 = some (itemHead i) := by
  refine searchLeaf_found (disk leaf) dirId objectid _ (fun k _ hlt hsame => ?_) hkey
    (Nat.zero_le i) (by omega)
  have hsorted := List.pairwise_iff_getElem.mp (List.pairwise_map.mp hf.2.2) k i
    (by rw [List.length_range]; omega) (by rw [List.length_range]; exact hi) hlt
  rw [List.getElem_range, List.getElem_range, hkey, ← hsame] at hsorted
  exact lt_irrefl _ hsorted

/-- What the way down from a node at height `h` leaves. -/
structure Searched (info : TreeInfo) (disk : Nat → Bytes) (root h : Nat) (node idx : Nat → Nat)
    (s s' : TreeState) : Prop where
  cache : Cache info disk root s'
  leaf : s'.slots 1 = disk (node 0)
  inner : ∀ e, 1 ≤ e → e < h → e + 1 ≤ info.cachedSlots → s'.slots (e + 1) = disk (node e)
  slotsAbove : ∀ x, h < x → x ≤ info.cachedSlots → s'.slots x = s.slots x
  blocks : ∀ e < h, s'.blocks (e + 1) = node e
  blocksAbove : ∀ d, h < d → s'.blocks d = s.blocks d
  nexts : ∀ e, 1 ≤ e → e ≤ h →
    s'.nextKeyNr (e + 1) = if idx e = nrItem disk (node e) then 0 else idx e + 1
  nextsAbove : ∀ d, h + 1 < d → s'.nextKeyNr d = s.nextKeyNr d

/-- A path in a child, with the node above it. -/
theorem OnPath.above {h block i : Nat} (hi : i ≤ nrItem disk block)
    (hp : OnPath disk h (child disk block i) node idx) :
    OnPath disk (h + 1) block (fun e => if e ≤ h then node e else block)
      (fun e => if e ≤ h then idx e else i) where
  top := if_neg (Nat.not_succ_le_self h)
  step := by
    intro e he
    rcases Nat.lt_or_eq_of_le (Nat.lt_succ_iff.mp he) with hlt | rfl
    · rw [if_pos (Nat.le_of_lt hlt), if_pos (Nat.succ_le_of_lt hlt), if_pos (Nat.succ_le_of_lt hlt)]
      exact hp.step e hlt
    · rw [if_pos (Nat.le_refl e), if_neg (Nat.not_succ_le_self e), if_neg (Nat.not_succ_le_self e)]
      exact hp.top
  le := by
    intro e he
    rcases Nat.lt_or_eq_of_le (Nat.lt_succ_iff.mp he) with hlt | rfl
    · rw [if_pos (Nat.succ_le_of_lt hlt), if_pos (Nat.succ_le_of_lt hlt)]
      exact hp.le e hlt
    · rw [if_neg (Nat.not_succ_le_self e), if_neg (Nat.not_succ_le_self e)]
      exact hi

/-- The way down to the leaf with a stat key. -/
theorem searchDown_spec (hio : ReadsNodes info io disk) (hslots : 2 ≤ info.cachedSlots)
    (hpos : StatFirst pos) {dirId objectid : Nat} {x : Nat × Nat}
    (hkey : itemKey disk x = statKey dirId objectid) (h : Nat) :
    ∀ {slot block : Nat} {s : TreeState}, Cache info disk root s → h + 1 ≤ info.treeDepth →
      s.slots slot = disk block → (h = 0 → s.slots 1 = disk block) → Formed pos disk h block →
      x ∈ items disk h block →
      ∃ s' node idx, searchDown io info dirId objectid (h + 1) slot s = (s', true)
        ∧ OnPath disk h block node idx ∧ (x.1 = node 0 ∧ x.2 < nrItem disk (node 0))
        ∧ Searched info disk root h node idx s s' := by
  induction h with
  | zero =>
    intro slot block s hs _ _ hleaf _ hx
    rw [items_zero] at hx
    refine ⟨s, fun _ => block, fun _ => 0, if_pos (by decide), ⟨rfl, ?_, ?_⟩, mem_leafItems.mp hx,
      hs, hleaf rfl, ?_, fun _ _ _ => rfl, ?_, fun _ _ => rfl, ?_, fun _ _ => rfl⟩
    all_goals intro e h1 <;> omega
  | succ h ih =>
    intro slot block s hs hdepth hslot _ hf hx
    obtain ⟨i, hi, hxi⟩ := mem_items_succ.mp hx
    obtain ⟨hc, hfc⟩ := hf.2.1 i hi
    have hlevel : blkhLevel (disk (child disk block i)) = h + 1 := by
      cases h with
      | zero => exact hfc.1
      | succ h => exact hfc.1
    have hset : Cache info disk root
        (s.setNext (h + 2) (if i = nrItem disk block then 0 else i + 1)) :=
      ⟨hs.rootSlot, hs.leafSlot, hs.cached⟩
    obtain ⟨s₁, hread, hin⟩ := readTreeNode_spec hio hslots hset (Nat.succ_pos h) (by omega) hc hlevel
    obtain ⟨s', node, idx, hrun, hp, hmem, hd⟩ := ih hin.cache (by omega) hin.slot
      (fun h0 => by rw [← hin.slot, h0, show min (0 + 1) info.cachedSlots = 1 by omega]) hfc hxi
    have hnode : ∀ e ≤ h, (if e ≤ h then node e else block) = node e :=
      fun e he => if_pos he
    refine ⟨s', _, _, ?_, hp.above hi, by rwa [hnode 0 (Nat.zero_le h)], hd.cache, ?_, ?_, ?_, ?_,
      ?_, ?_, ?_⟩
    · have hread' : readTreeNode io info (dcBlockNumber (disk block) (blkhNrItem (disk block)) i)
          (h + 1) (s.setNext (h + 1 + 1) (if i = blkhNrItem (disk block) then 0 else i + 1))
            = (s₁, some (min (h + 1) info.cachedSlots)) := hread
      have hfound : LiloBoot.ReiserFS.searchNode (disk block) dirId objectid
          (blkhNrItem (disk block)) 0 = i := hf.searchNode hpos hi hxi hkey
      rw [searchDown, if_neg (by rw [blkhLevelLeaf]; omega)]
      simp only [hslot, hfound, hread']
      exact hrun
    · rw [hnode 0 (Nat.zero_le h)]
      exact hd.leaf
    · intro e h1 he hle
      rw [hnode e (by omega)]
      rcases Nat.lt_or_eq_of_le (Nat.lt_succ_iff.mp he) with hlt | rfl
      · exact hd.inner e h1 hlt hle
      · rw [hd.slotsAbove (e + 1) (Nat.lt_succ_self e) hle, hp.top, ← hin.slot,
          Nat.min_eq_left hle]
    · intro y hy hle
      rw [hd.slotsAbove y (by omega) hle, hin.slots y (by omega)]
      rfl
    · intro e he
      rw [hnode e (by omega)]
      rcases Nat.lt_or_eq_of_le (Nat.lt_succ_iff.mp he) with hlt | rfl
      · exact hd.blocks e hlt
      · rw [hd.blocksAbove (e + 1) (Nat.lt_succ_self e), hin.block, hp.top]
    · intro d hlt
      rw [hd.blocksAbove d (by omega), hin.blocks d (by omega)]
      rfl
    · intro e h1 he
      rcases Nat.lt_or_eq_of_le he with hlt | rfl
      · have hle : e ≤ h := Nat.lt_succ_iff.mp hlt
        rw [hnode e hle, if_pos hle]
        exact hd.nexts e h1 hle
      · simp only [if_neg (Nat.not_succ_le_self h)]
        rw [hd.nextsAbove (h + 1 + 1) (by omega), hin.nexts, setNext_self]
    · intro d hlt
      rw [hd.nextsAbove d (by omega), hin.nexts, setNext_ne (by omega)]

/-- **`search_stat` finds the item of a stat key, and stands on the path to it.** -/
theorem searchStat_spec (hio : ReadsNodes info io disk) (hslots : 2 ≤ info.cachedSlots)
    (hpos : StatFirst pos) (hf : Formed pos disk n root) (hdepth : info.treeDepth = n + 1)
    (hs : Cache info disk root s) {dirId objectid : Nat} {x : Nat × Nat}
    (hx : x ∈ items disk n root) (hkey : itemKey disk x = statKey dirId objectid) :
    ∃ s' node idx, searchStat io info dirId objectid s = (s', true)
      ∧ At info disk n root node idx s' ∧ x.1 = node 0 ∧ x.2 < nrItem disk (node 0)
      ∧ On disk x s' := by
  have hstart : Cache info disk root { s with errnum := 0 } :=
    ⟨hs.rootSlot, hs.leafSlot, hs.cached⟩
  obtain ⟨s', node, idx, hrun, hp, ⟨hleaf, hi⟩, hd⟩ := searchDown_spec hio hslots hpos hkey n hstart
    (by omega) hs.rootSlot (fun h0 => hs.leafSlot (by omega)) hf hx
  have hat : At info disk n root node idx s' :=
    ⟨hp, hd.cache, hd.leaf, hd.inner, hd.blocks, hd.nexts⟩
  obtain ⟨leaf, i⟩ := x
  obtain rfl : leaf = node 0 := hleaf
  have hfound : searchLeaf (s'.slots 1) dirId objectid (blkhNrItem (s'.slots 1)) 0
      = some (itemHead i) := by
    rw [hd.leaf]
    exact (hp.formed hf 0 (Nat.zero_le n)).searchLeaf hi hkey
  refine ⟨setCurrent (itemHead i) s', node, idx, ?_, hat.current _, rfl, hi,
    on_setCurrent hd.leaf i⟩
  simp only [searchStat, hdepth, hrun, hfound]

/-! ## §5 What follows a key -/

/-- In an ascending list, what lies above a member is what stands behind it. -/
theorem filter_above {α β : Type} [LinearOrder β] (f : α → β) {x : α} {pre post : List α}
    (h : (pre ++ x :: post).Pairwise fun a b => f a < f b) :
    (pre ++ x :: post).filter (fun y => f x < f y) = post := by
  obtain ⟨-, hpost, hcross⟩ := List.pairwise_append.mp h
  have hbefore : pre.filter (fun y => f x < f y) = [] := by
    refine List.filter_eq_nil_iff.mpr fun y hy => ?_
    rw [decide_eq_true_eq]
    exact not_lt_of_gt (hcross y hy x (List.mem_cons_self ..))
  have hbehind : post.filter (fun y => f x < f y) = post :=
    List.filter_eq_self.mpr fun y hy => decide_eq_true ((List.pairwise_cons.mp hpost).1 y hy)
  rw [List.filter_append, hbefore, List.nil_append, List.filter_cons_of_neg (by simp), hbehind]

/-- The items before, the item, and what remains. -/
theorem OnPath.items_split (hp : OnPath disk n root node idx) {i : Nat}
    (hi : i < nrItem disk (node 0)) : ∃ before pre,
    leaves disk n root = before ++ node 0 :: (behind disk node idx n).map Prod.snd
      ∧ items disk n root = (before.flatMap (leafItems disk) ++ pre)
          ++ (node 0, i) :: remaining disk n node idx i
      ∧ leafItems disk (node 0) = pre ++ (node 0, i) :: itemsFrom disk (node 0) (i + 1) := by
  obtain ⟨before, hbefore⟩ := hp.leaves_split n (Nat.le_refl n)
  obtain ⟨pre, hpre⟩ := leafItems_split hi
  rw [hp.top] at hbefore
  refine ⟨before, pre, hbefore, ?_, hpre⟩
  rw [items, hbefore, List.flatMap_append, List.flatMap_cons, hpre, List.flatMap_map, remaining]
  simp only [List.append_assoc, List.cons_append]

theorem OnPath.following (hp : OnPath disk n root node idx) (hf : Formed pos disk n root) {i : Nat}
    (hi : i < nrItem disk (node 0)) :
    following pos disk n root (itemKey disk (node 0, i)) = remaining disk n node idx i := by
  obtain ⟨before, pre, -, hitems, -⟩ := hp.items_split hi
  have hsorted := Formed.ascending n hf
  rw [hitems] at hsorted
  rw [LiloBoot.ReiserFS.following, hitems]
  exact filter_above (fun item => keyOrd pos (itemKey disk item)) hsorted

/-- What is behind on a path is an end of the list of seams. -/
theorem OnPath.behind_suffix (hp : OnPath disk n root node idx) : ∀ h ≤ n,
    behind disk node idx h <:+ seams disk h (node h) := by
  intro h
  induction h with
  | zero =>
    intro _
    exact List.suffix_rfl
  | succ h ih =>
    intro hle
    obtain ⟨pre, hpre⟩ := ih (by omega)
    have hidx := hp.le h (by omega)
    rw [hp.step h (by omega)] at hpre
    rw [behind, seams]
    generalize idx (h + 1) = i at hidx hpre
    cases i with
    | zero =>
      refine ⟨pre, ?_⟩
      rw [← hpre, List.append_assoc]
      rfl
    | succ i =>
      have hrange : List.range' 1 (nrItem disk (node (h + 1)))
          = List.range' 1 i ++ (i + 1) :: List.range' (i + 1 + 1) (nrItem disk (node (h + 1)) - (i + 1)) := by
        have happend := @List.range'_append_1 1 i (nrItem disk (node (h + 1)) - i)
        rw [Nat.add_sub_cancel' (by omega), Nat.add_comm 1 i,
          show nrItem disk (node (h + 1)) - i = (nrItem disk (node (h + 1)) - (i + 1)) + 1 by omega,
          List.range'_succ] at happend
        exact happend.symm
      refine ⟨seams disk h (child disk (node (h + 1)) 0) ++ ((List.range' 1 i).flatMap (fun j =>
        (h + 2, firstLeaf disk h (child disk (node (h + 1)) j))
          :: seams disk h (child disk (node (h + 1)) j))
        ++ (h + 2, firstLeaf disk h (child disk (node (h + 1)) (i + 1))) :: pre), ?_⟩
      rw [hrange, List.flatMap_append, List.flatMap_cons, ← hpre]
      simp only [List.append_assoc, List.cons_append]

theorem Formed.leaf (h : Nat) : ∀ {block leaf : Nat}, Formed pos disk h block →
    leaf ∈ leaves disk h block → Formed pos disk 0 leaf := by
  induction h with
  | zero =>
    intro block leaf hf hmem
    rw [List.mem_singleton.mp hmem]
    exact hf
  | succ h ih =>
    intro block leaf hf hmem
    rw [leaves_succ, List.mem_flatMap] at hmem
    obtain ⟨i, hi, hmem⟩ := hmem
    have hi := (List.mem_range'_1.mp hi).2
    exact ih (hf.2.1 i (by omega)).2 hmem

/-- The seams behind a key are those behind its path. -/
theorem OnPath.seamsCached_iff (hp : OnPath disk n root node idx) (hf : Formed pos disk n root)
    {i : Nat} (hi : i < nrItem disk (node 0)) :
    SeamsCached info pos disk n root (itemKey disk (node 0, i))
      ↔ ∀ p ∈ behind disk node idx n, p.1 ≤ info.cachedSlots ∨ p.1 = info.treeDepth := by
  obtain ⟨before, pre, hleaves, hitems, hleaf⟩ := hp.items_split hi
  obtain ⟨preSeams, hseams⟩ := hp.behind_suffix n (Nat.le_refl n)
  rw [hp.top] at hseams
  have hfirst : ∀ p ∈ seams disk n root, (p.2, 0) ∈ leafItems disk p.2 := by
    intro p hmem
    have hin : p.2 ∈ leaves disk n root :=
      List.mem_cons_of_mem _ (List.mem_map_of_mem hmem)
    exact mem_leafItems.mpr ⟨rfl, (Formed.leaf n hf hin).2.1⟩
  have hsorted := Formed.ascending n hf
  rw [hitems] at hsorted
  obtain ⟨-, hpost, hcross⟩ := List.pairwise_append.mp hsorted
  constructor
  · intro hcached p hmem
    have hin : p ∈ seams disk n root := hseams ▸ List.mem_append_right preSeams hmem
    refine hcached p hin ((List.pairwise_cons.mp hpost).1 (p.2, 0) ?_)
    exact List.mem_append_right _ (List.mem_flatMap.mpr ⟨p, hmem, hfirst p hin⟩)
  · intro hall p hin hlt
    have hmem := hin
    rw [← hseams, List.mem_append] at hmem
    rcases hmem with hmem | hmem
    · exfalso
      -- a leaf before, or that of the item itself
      have hpath : p.2 ∈ before ++ [node 0] := by
        have hjoin : (firstLeaf disk n root :: preSeams.map Prod.snd)
            ++ (behind disk node idx n).map Prod.snd
              = (before ++ [node 0]) ++ (behind disk node idx n).map Prod.snd := by
          rw [List.cons_append, ← List.map_append, hseams, List.append_assoc]
          exact hleaves
        rw [← List.append_cancel_right hjoin]
        exact List.mem_cons_of_mem _ (List.mem_map_of_mem hmem)
      rcases List.mem_append.mp hpath with hbefore | hlast
      · have hitem : (p.2, 0) ∈ before.flatMap (leafItems disk) ++ pre :=
          List.mem_append_left _ (List.mem_flatMap.mpr ⟨p.2, hbefore, hfirst p hin⟩)
        exact lt_asymm hlt (hcross _ hitem _ (List.mem_cons_self ..))
      · have hsame : p.2 = node 0 := List.mem_singleton.mp hlast
        have hitem := hfirst p hin
        rw [hsame, hleaf, List.mem_append, List.mem_cons] at hitem
        rw [hsame] at hlt
        rcases hitem with hitem | hitem | hitem
        · exact lt_asymm hlt (hcross _ (List.mem_append_right _ hitem) _ (List.mem_cons_self ..))
        · exact lt_irrefl _ (hitem ▸ hlt)
        · obtain ⟨j, hj, heq⟩ := List.mem_map.mp hitem
          have hj := (List.mem_range'_1.mp hj).1
          have h0 : j = 0 := congrArg Prod.snd heq
          omega
    · exact hall p hmem

/-! ## §6 Tree order -/

/-- The block sizes that `reiserfs_read_super` takes leave two slots or more. -/
theorem two_le_cachedSlots (hshift : info.blocksizeShift ≤ 13) : 2 ≤ info.cachedSlots := by
  have hpow : 2 ^ info.blocksizeShift ≤ 2 ^ 13 := Nat.pow_le_pow_right (by decide) hshift
  have hdiv : 3 ≤ fsysreiserCacheSize / 2 ^ info.blocksizeShift :=
    (Nat.le_div_iff_mul_le (Nat.two_pow_pos _)).mpr (by rw [fsysreiserCacheSize]; omega)
  rw [TreeInfo.cachedSlots]
  omega

theorem seams_level (h : Nat) : ∀ {block : Nat} {p : Nat × Nat}, p ∈ seams disk h block →
    p.1 ≤ h + 1 := by
  induction h with
  | zero =>
    intro block p hmem
    exact (List.not_mem_nil hmem).elim
  | succ h ih =>
    intro block p hmem
    rw [seams, List.mem_append, List.mem_flatMap] at hmem
    rcases hmem with hmem | ⟨i, -, hmem⟩
    · exact Nat.le_succ_of_le (ih hmem)
    · rcases List.mem_cons.mp hmem with rfl | hmem
      · exact Nat.le_refl _
      · exact Nat.le_succ_of_le (ih hmem)

/-- Up to 4096 bytes a block, all levels are cached. -/
theorem seamsCached_small (hshift : info.blocksizeShift ≤ 12) (hheight : n + 1 ≤ 6) (key : Key) :
    SeamsCached info pos disk n root key := by
  intro p hmem _
  have hlevel := seams_level n hmem
  have hpow : 2 ^ info.blocksizeShift ≤ 2 ^ 12 := Nat.pow_le_pow_right (by decide) hshift
  have hdiv : 7 ≤ fsysreiserCacheSize / 2 ^ info.blocksizeShift :=
    (Nat.le_div_iff_mul_le (Nat.two_pow_pos _)).mpr (by rw [fsysreiserCacheSize]; omega)
  left
  rw [TreeInfo.cachedSlots]
  omega

/-- **Tree order: for every well-formed tree of height up to 6 and every block size from 512 to
8192, from every state of the cache, `search_stat` finds the item of a stat key in the tree, and
`next_key` visits all items that follow in key order and then the dummy, just where no seam
behind the key lies between the cached levels and the root.** -/
theorem tree_order_iff (hio : ReadsNodes info io disk) (hpos : StatFirst pos)
    (hf : Formed pos disk n root) (hdepth : info.treeDepth = n + 1) (hheight : n + 1 ≤ 6)
    (hshift : 9 ≤ info.blocksizeShift ∧ info.blocksizeShift ≤ 13) (hs : Cache info disk root s)
    {dirId objectid : Nat} {x : Nat × Nat} (hx : x ∈ items disk n root)
    (hkey : itemKey disk x = statKey dirId objectid) :
    ((searchStat io info dirId objectid s).2 = true
      ∧ On disk x (searchStat io info dirId objectid s).1
      ∧ Visits io info disk (following pos disk n root (statKey dirId objectid))
          (searchStat io info dirId objectid s).1)
      ↔ SeamsCached info pos disk n root (statKey dirId objectid) := by
  have hslots := two_le_cachedSlots hshift.2
  obtain ⟨s', node, idx, hrun, hat, hleaf, hi, hon⟩ :=
    searchStat_spec hio hslots hpos hf hdepth hs hx hkey
  obtain ⟨leaf, i⟩ := x
  obtain rfl : leaf = node 0 := hleaf
  rw [hrun, ← hkey, hat.path.following hf hi, hat.path.seamsCached_iff hf hi,
    ← visits_remaining_iff hio hslots hf hdepth (by omega) _ hat hon hi rfl]
  exact ⟨fun h => h.2.2, fun h => ⟨rfl, hon, h⟩⟩

/-- A tree of fifteen blocks: block `b` has the children `2 b` and `2 b + 1`, and each of the
leaves 8 to 15 holds the stat data of the object with its number. -/
def heapDisk (block pos : Nat) : UInt8 :=
  let level := if block < 2 then 4 else if block < 4 then 3 else if block < 8 then 2 else 1
  -- the object of an item, or the first one under the right child
  let object := if block < 2 then 12 else if block < 4 then 4 * block + 2
    else if block < 8 then 2 * block + 1 else block
  UInt8.ofNat <|
    if pos = 0 then level
    else if pos = 2 ∨ pos = blkhSize then 1
    else if pos = blkhSize + 4 then object
    else if level = 1 then
      -- 44 bytes of stat data at the end of a block of 4096
      if pos = blkhSize + 18 then 44 else if pos = blkhSize + 20 then 0xd4
        else if pos = blkhSize + 21 then 0x0f else 0
    else if pos = blkhSize + keySize then 2 * block
    else if pos = blkhSize + keySize + dcSize then 2 * block + 1
    else 0

def heapPos (key : Key) : Nat := key.offset * 2 ^ 32 + key.uniqueness

def heapRead (info : TreeInfo) : NodeRead := fun _ block _ =>
  (((2 ^ info.blocksizeShift : Nat) : Int), heapDisk block)

/-- The state behind `reiserfs_read_super`: only the root is read. -/
def heapOpened : TreeState where
  slots slot := if slot = 0 then heapDisk 1 else fun _ => 0
  blocks _ := 0
  nextKeyNr _ := 0
  currentIh := 0
  currentItem := 0
  errnum := 0
  reads := 0

theorem heapPos_statFirst : StatFirst heapPos := by
  intro key
  rw [heapPos]
  omega

theorem heapOpened_cache (info : TreeInfo) (hdepth : info.treeDepth = 4) :
    Cache info heapDisk 1 heapOpened :=
  ⟨rfl, fun h1 => by omega, fun _ _ _ hne => absurd rfl hne⟩

/-- With blocks of 4096 bytes all seven objects behind object 8 are visited. -/
theorem tree_order_heap :
    (searchStat (heapRead ⟨12, 4⟩) ⟨12, 4⟩ 1 8 heapOpened).2 = true
      ∧ On heapDisk (8, 0) (searchStat (heapRead ⟨12, 4⟩) ⟨12, 4⟩ 1 8 heapOpened).1
      ∧ Visits (heapRead ⟨12, 4⟩) ⟨12, 4⟩ heapDisk
          (following heapPos heapDisk 3 1 (statKey 1 8))
          (searchStat (heapRead ⟨12, 4⟩) ⟨12, 4⟩ 1 8 heapOpened).1 :=
  (tree_order_iff (fun _ _ _ => rfl) heapPos_statFirst (by decide +kernel) rfl (by decide)
    (by decide) (heapOpened_cache _ rfl) (by decide +kernel) (by decide +kernel)).mpr
    (by unfold SeamsCached; decide +kernel)

/-- With blocks of 8192 bytes `next_key` goes from object 9 back to object 8. -/
theorem tree_order_reenters :
    Formed heapPos heapDisk 3 1 ∧ (8, 0) ∈ items heapDisk 3 1
      ∧ itemKey heapDisk (8, 0) = statKey 1 8
      ∧ following heapPos heapDisk 3 1 (statKey 1 8)
          = [(9, 0), (10, 0), (11, 0), (12, 0), (13, 0), (14, 0), (15, 0)]
      ∧ ¬ Visits (heapRead ⟨13, 4⟩) ⟨13, 4⟩ heapDisk
          (following heapPos heapDisk 3 1 (statKey 1 8))
          (searchStat (heapRead ⟨13, 4⟩) ⟨13, 4⟩ 1 8 heapOpened).1 := by
  have hfollowing : following heapPos heapDisk 3 1 (statKey 1 8)
      = [(9, 0), (10, 0), (11, 0), (12, 0), (13, 0), (14, 0), (15, 0)] := by
    decide +kernel
  refine ⟨by decide +kernel, by decide +kernel, by decide +kernel, hfollowing, ?_⟩
  rw [hfollowing]
  rintro ⟨-, -, -, hon, -⟩
  -- the object id of the item
  have hobject := congrFun hon.1 (blkhSize + 4)
  exact absurd hobject (by decide +kernel)

end LiloBoot.ReiserFS
