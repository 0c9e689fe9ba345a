/-
LiloBoot.Lib.SimpleAllocTheorems — when the zImage heap is safe.

Two things break it. Rounding the size up wraps around to 0 for the last
sizes below 4 GiB, and a block of 0 bytes is found for them; and `realloc`
copies to `NULL` and frees the old block when no new one is found. Every run
without such a call (`Fits`) keeps `Inv`: the used entries lie one behind the
other from the start of the heap (`Laid`), and every live block has an entry
in use with its address and at least its size.
-/
import LiloBoot.Lib.SimpleAlloc
import LiloBoot.Lib.MallocTheorems

namespace LiloBoot.SimpleAlloc

open Malloc (setBytes setBytes_inside setBytes_outside Block Op)

/-! ## §1 What a safe heap is -/

/-- Two blocks do not overlap. -/
def Apart (b c : Block) : Prop :=
  b.addr + b.size ≤ c.addr ∨ c.addr + c.size ≤ b.addr

/-- The live blocks are inside the heap and apart. -/
structure Safe (heapBase heapSize : Nat) (live : List Block) : Prop where
  inside : ∀ b ∈ live, heapBase ≤ b.addr ∧ b.addr + b.size ≤ heapBase + heapSize
  apart : live.Pairwise Apart

/-- The allocator has an entry in use that covers the block. -/
def Allocated (h : Heap) (b : Block) : Prop :=
  ∃ p, simpleFindEntry b.addr h.allocTbl = some p ∧ b.size ≤ p.size

/-- What a call owes to the blocks: the others keep their contents, a `realloc` carries the
common part over, a block that is returned is as large as asked for, and after a `realloc` that
returns `NULL` the block is allocated as before with its contents. -/
structure Keeps (s : State) (op : Op) (r : Nat) (t : State) : Prop where
  others : ∀ b ∈ s.live, b.addr ≠ op.target →
    b ∈ t.live ∧ ∀ i < b.size, t.heap.mem (b.addr + i) = s.heap.mem (b.addr + i)
  carried : ∀ ptr size, op = .realloc ptr size → r ≠ 0 → ∀ b ∈ s.live, b.addr = ptr →
    ∀ i < min b.size size, t.heap.mem (r + i) = s.heap.mem (b.addr + i)
  failed : ∀ ptr size, op = .realloc ptr size → size ≠ 0 → r = 0 → ∀ b ∈ s.live, b.addr = ptr →
    b ∈ t.live ∧ Allocated t.heap b
      ∧ ∀ i < b.size, t.heap.mem (b.addr + i) = s.heap.mem (b.addr + i)
  returned : ∀ size, op = .malloc size ∨ (∃ ptr, op = .realloc ptr size) → r ≠ 0 →
    ⟨r, size⟩ ∈ t.live ∧ Allocated t.heap ⟨r, size⟩

/-- An entry is free and large enough, or was never used while enough space is left. -/
def Available (size : Nat) (h : Heap) : Prop :=
  ∃ p ∈ h.allocTbl, p.inUse = false
    ∧ (if p.beenUsed = true then size ≤ p.size else size ≤ h.spaceLeft)

/-- Rounding the size up stays in the type, or no entry is left. -/
def Rounds (size : Nat) (h : Heap) : Prop :=
  size + (h.allocMin - 1) < 2 ^ 32 ∨ ∀ p ∈ h.allocTbl, p.beenUsed = true ∧ p.inUse = true

/-- The condition on a call: a size that is rounded up stays in the type, and a block that has
to move finds another place. -/
def Fits (s : State) : Op → Prop
  | .malloc size => Rounds size s.heap
  | .realloc ptr size =>
    size = 0 ∨ (ptr = 0 ∧ Rounds size s.heap)
      ∨ (∃ p, simpleFindEntry ptr s.heap.allocTbl = some p ∧ size ≤ p.size)
      ∨ (size + (s.heap.allocMin - 1) < 2 ^ 32
          ∧ Available (alignUp size s.heap.allocMin) s.heap)
  | .free _ => True

/-! ## §2 Rounding up -/

/-- Clearing the low bits is dividing by the power of two. -/
theorem and_clear_low {n k : Nat} (hn : n < 2 ^ 32) (hk : k < 32) :
    n &&& (2 ^ 32 - 1 - (2 ^ k - 1)) = n / 2 ^ k * 2 ^ k := by
  have hlow : 2 ^ k - 1 < 2 ^ 32 := by
    have := Nat.pow_le_pow_right (show 0 < 2 by decide) (show k ≤ 32 by omega)
    omega
  have hmask : 2 ^ 32 - 1 - (2 ^ k - 1) = 2 ^ 32 - (2 ^ k - 1 + 1) := by omega
  refine Nat.eq_of_testBit_eq fun i => ?_
  rw [hmask, Nat.testBit_and, Nat.testBit_two_pow_sub_succ hlow, Nat.testBit_two_pow_sub_one,
    Nat.testBit_mul_two_pow, Nat.testBit_div_two_pow]
  by_cases hi : k ≤ i
  · by_cases htop : i < 32
    · simp [hi, htop, Nat.sub_add_cancel hi]
    · have hzero : n.testBit i = false :=
        Nat.testBit_lt_two_pow (Nat.lt_of_lt_of_le hn (Nat.pow_le_pow_right (by decide) (by omega)))
      simp [hi, hzero, Nat.sub_add_cancel hi]
  · simp [hi, Nat.lt_of_not_le hi]

theorem alignUp_eq {x k : Nat} (hk : k < 32) :
    alignUp x (2 ^ k) = u32 (x + (2 ^ k - 1)) / 2 ^ k * 2 ^ k := by
  have hpos : 0 < 2 ^ k := Nat.two_pow_pos k
  have hlt : 2 ^ k < 2 ^ 32 := Nat.pow_lt_pow_right (by decide) hk
  rw [alignUp, sub32_of_le hpos hlt, and_clear_low (u32_lt _) hk]

/-- Rounded up without a wrap. -/
theorem le_alignUp {x k : Nat} (hk : k < 32) (h : x + (2 ^ k - 1) < 2 ^ 32) :
    x ≤ alignUp x (2 ^ k) := by
  have hpos : 0 < 2 ^ k := Nat.two_pow_pos k
  rw [alignUp_eq hk, u32_of_lt h]
  have hdiv := Nat.div_add_mod (x + (2 ^ k - 1)) (2 ^ k)
  have hmod := Nat.mod_lt (x + (2 ^ k - 1)) hpos
  rw [Nat.mul_comm] at hdiv
  omega

/-! ## §3 The table -/

/-- The entries that have been used lie one behind the other from `lo` to `next` and are not
empty; behind the first entry that was never used there are only such entries. -/
def Laid (next : Nat) : Nat → List AllocInfo → Prop
  | lo, [] => lo = next
  | lo, p :: rest =>
    if p.beenUsed = true then p.base = lo ∧ 0 < p.size ∧ Laid next (lo + p.size) rest
    else lo = next ∧ ∀ q ∈ p :: rest, q.beenUsed = false ∧ q.inUse = false

/-- An entry whose block the program may have. -/
def Busy (p : AllocInfo) : Prop := p.beenUsed = true ∧ p.inUse = true

theorem Laid.le {next lo : Nat} {tbl : List AllocInfo} (h : Laid next lo tbl) : lo ≤ next := by
  induction tbl generalizing lo with
  | nil => exact Nat.le_of_eq h
  | cons p rest ih =>
    rw [Laid] at h
    split at h
    · have := ih h.2.2
      omega
    · exact Nat.le_of_eq h.1

/-- A used entry lies between the ends. -/
theorem Laid.inside {next lo : Nat} {tbl : List AllocInfo} (h : Laid next lo tbl)
    {p : AllocInfo} (hp : p ∈ tbl) (hused : p.beenUsed = true) :
    lo ≤ p.base ∧ 0 < p.size ∧ p.base + p.size ≤ next := by
  induction tbl generalizing lo with
  | nil => exact absurd hp List.not_mem_nil
  | cons q rest ih =>
    rw [Laid] at h
    split at h
    · obtain ⟨hbase, hsize, hrest⟩ := h
      rcases List.mem_cons.mp hp with rfl | hp
      · have := hrest.le
        omega
      · have := ih hrest hp
        omega
    · rw [(h.2 p hp).1] at hused
      cases hused

/-- Used entries with different bases do not overlap; with one base they are one entry. -/
theorem Laid.apart {next lo : Nat} {tbl : List AllocInfo} (h : Laid next lo tbl)
    {p q : AllocInfo} (hp : p ∈ tbl) (hq : q ∈ tbl) (hpu : p.beenUsed = true)
    (hqu : q.beenUsed = true) :
    p = q ∨ p.base + p.size ≤ q.base ∨ q.base + q.size ≤ p.base := by
  induction tbl generalizing lo with
  | nil => exact absurd hp List.not_mem_nil
  | cons r rest ih =>
    rw [Laid] at h
    split at h
    · obtain ⟨hbase, -, hrest⟩ := h
      rcases List.mem_cons.mp hp with hpr | hpr
      · rcases List.mem_cons.mp hq with hqr | hqr
        · exact .inl (hpr.trans hqr.symm)
        · have hin := (hrest.inside hqr hqu).1
          rw [← hbase, ← hpr] at hin
          exact .inr (.inl hin)
      · rcases List.mem_cons.mp hq with hqr | hqr
        · have hin := (hrest.inside hpr hpu).1
          rw [← hbase, ← hqr] at hin
          exact .inr (.inr hin)
        · exact ih hrest hpr hqr
    · rw [(h.2 p hp).1] at hpu
      cases hpu

theorem Laid.unique {next lo : Nat} {tbl : List AllocInfo} (h : Laid next lo tbl)
    {p q : AllocInfo} (hp : p ∈ tbl) (hq : q ∈ tbl) (hpu : p.beenUsed = true)
    (hqu : q.beenUsed = true) (heq : p.base = q.base) : p = q := by
  have hps := (h.inside hp hpu).2.1
  have hqs := (h.inside hq hqu).2.1
  rcases h.apart hp hq hpu hqu with heq | hlow | hhigh
  · exact heq
  · omega
  · omega

/-! ## §4 Finding and freeing an entry -/

theorem simpleFindEntry_some {ptr : Nat} {tbl : List AllocInfo} {p : AllocInfo}
    (h : simpleFindEntry ptr tbl = some p) : p ∈ tbl ∧ Busy p ∧ p.base = ptr := by
  induction tbl with
  | nil => cases h
  | cons q rest ih =>
    rw [simpleFindEntry] at h
    split at h
    · cases h
    rename_i hused
    split at h
    · rename_i hq
      cases h
      exact ⟨List.mem_cons_self, ⟨by simpa using hused, hq.1⟩, hq.2⟩
    · obtain ⟨hp, hrest⟩ := ih h
      exact ⟨List.mem_cons_of_mem _ hp, hrest⟩

/-- Every busy entry is found: no entry before it was never used. -/
theorem Laid.findEntry {next lo : Nat} {tbl : List AllocInfo} (h : Laid next lo tbl)
    {p : AllocInfo} (hp : p ∈ tbl) (hbusy : Busy p) :
    simpleFindEntry p.base tbl = some p := by
  induction tbl generalizing lo with
  | nil => exact absurd hp List.not_mem_nil
  | cons q rest ih =>
    have htbl := h
    rw [Laid] at h
    split at h
    · rename_i hused
      rw [simpleFindEntry, if_neg (by simp [hused])]
      rcases List.mem_cons.mp hp with rfl | hp'
      · rw [if_pos ⟨hbusy.2, rfl⟩]
      · split
        · rename_i hq
          exact congrArg some (htbl.unique List.mem_cons_self hp hused hbusy.1 hq.2)
        · exact ih h.2.2 hp'
    · have hfresh := (h.2 p hp).1
      rw [hbusy.1] at hfresh
      cases hfresh

/-- Freeing leaves the layout. -/
theorem Laid.clearInUse {next lo : Nat} {tbl : List AllocInfo} (h : Laid next lo tbl)
    (ptr : Nat) : Laid next lo (clearInUse ptr tbl) := by
  induction tbl generalizing lo with
  | nil => exact h
  | cons q rest ih =>
    have htbl := h
    rw [Laid] at h
    rw [SimpleAlloc.clearInUse]
    split at h
    · rename_i hused
      obtain ⟨hbase, hsize, hrest⟩ := h
      rw [if_neg (by simp [hused])]
      split
      · rw [Laid, if_pos hused]
        exact ⟨hbase, hsize, hrest⟩
      · rw [Laid, if_pos hused]
        exact ⟨hbase, hsize, ih hrest⟩
    · rw [if_pos (h.2 q List.mem_cons_self).1]
      exact htbl

/-- An entry with another base stays. -/
theorem mem_clearInUse {ptr : Nat} {tbl : List AllocInfo} {p : AllocInfo} (hp : p ∈ tbl)
    (hne : p.base ≠ ptr) : p ∈ clearInUse ptr tbl := by
  induction tbl with
  | nil => exact hp
  | cons q rest ih =>
    rw [clearInUse]
    split
    · exact hp
    split
    · rename_i hq
      rcases List.mem_cons.mp hp with rfl | hp
      · exact absurd hq.2 hne
      · exact List.mem_cons_of_mem _ hp
    · rcases List.mem_cons.mp hp with rfl | hp
      · exact List.mem_cons_self
      · exact List.mem_cons_of_mem _ (ih hp)

/-! ## §5 Taking an entry -/

/-- What the scan has done when it returns an entry. -/
structure Taken (size next left lo : Nat) (tbl : List AllocInfo) (f : Found) : Prop where
  laid : Laid f.nextBase lo f.allocTbl
  room : f.nextBase + f.spaceLeft = next + left
  entry : ∃ p ∈ f.allocTbl, Busy p ∧ p.base = f.base ∧ size ≤ p.size
  kept : ∀ q ∈ tbl, Busy q → q ∈ f.allocTbl ∧ q.base ≠ f.base

/-- A scan that succeeds takes an entry no block had. -/
theorem scanTable_spec {size next left lo : Nat} {tbl : List AllocInfo} {f : Found}
    (h : Laid next lo tbl) (hsize : 0 < size) (hroom : next + left < 2 ^ 32)
    (hf : scanTable size next left tbl = some f) : Taken size next left lo tbl f := by
  induction tbl generalizing lo f with
  | nil => cases hf
  | cons p rest ih =>
    have htbl := h
    rw [Laid] at h
    rw [scanTable] at hf
    split at h
    · rename_i hused
      obtain ⟨hbase, hpsize, hrest⟩ := h
      rw [if_neg (by simp [hused])] at hf
      split at hf
      · -- a free entry is used again
        rename_i hfree
        cases hf
        refine ⟨?_, rfl, ⟨_, List.mem_cons_self, ⟨hused, rfl⟩, rfl, hfree.2⟩, fun q hq hqb => ?_⟩
        · rw [Laid, if_pos hused]
          exact ⟨hbase, hpsize, hrest⟩
        · have hne : q ≠ p := by
            rintro rfl
            rw [hqb.2] at hfree
            cases hfree.1
          refine ⟨?_, fun heq => hne (htbl.unique hq List.mem_cons_self hqb.1 hused heq)⟩
          rcases List.mem_cons.mp hq with hqp | hq
          · exact absurd hqp hne
          · exact List.mem_cons_of_mem _ hq
      · -- the entry is passed over
        obtain ⟨g, hg, rfl⟩ := Option.map_eq_some_iff.mp hf
        obtain ⟨hlaid, hsum, ⟨e, he, hentry⟩, hkept⟩ := ih hrest hg
        refine ⟨?_, hsum, ⟨e, List.mem_cons_of_mem _ he, hentry⟩, fun q hq hqb => ?_⟩
        · rw [Laid, if_pos hused]
          exact ⟨hbase, hpsize, hlaid⟩
        · rcases List.mem_cons.mp hq with rfl | hq
          · refine ⟨List.mem_cons_self, ?_⟩
            obtain ⟨heb, hebase, -⟩ := hentry
            have hein := (hlaid.inside he heb.1).1
            show q.base ≠ g.base
            omega
          · obtain ⟨hmem, hne⟩ := hkept q hq hqb
            exact ⟨List.mem_cons_of_mem _ hmem, hne⟩
    · -- the first entry that was never used
      obtain ⟨hlo, hfresh⟩ := h
      rw [if_pos (hfresh p List.mem_cons_self).1] at hf
      split at hf
      · rename_i hleft
        cases hf
        have hnext : u32 (next + size) = next + size := u32_of_lt (by omega)
        refine ⟨?_, ?_, ⟨_, List.mem_cons_self, ⟨rfl, rfl⟩, rfl, Nat.le_refl _⟩, ?_⟩
        · rw [Laid, if_pos rfl, hnext]
          refine ⟨hlo.symm, hsize, ?_⟩
          have hrest : ∀ q ∈ rest, q.beenUsed = false ∧ q.inUse = false := fun q hq =>
            hfresh q (List.mem_cons_of_mem _ hq)
          cases rest with
          | nil =>
            rw [Laid, hlo]
          | cons q rest' =>
            rw [Laid, if_neg (by simp [(hrest q List.mem_cons_self).1])]
            exact ⟨by rw [hlo], hrest⟩
        · rw [hnext]
          show next + size + (left - size) = next + left
          omega
        · intro q hq hqb
          have := (hfresh q hq).1
          rw [hqb.1] at this
          cases this
      · cases hf

/-- The scan fails only when no entry is available. -/
theorem scanTable_available {size next left lo : Nat} {tbl : List AllocInfo}
    (h : Laid next lo tbl)
    (hav : ∃ p ∈ tbl, p.inUse = false
      ∧ (if p.beenUsed = true then size ≤ p.size else size ≤ left)) :
    ∃ f, scanTable size next left tbl = some f := by
  obtain ⟨p, hp, hfree, hsize⟩ := hav
  induction tbl generalizing lo with
  | nil => exact absurd hp List.not_mem_nil
  | cons q rest ih =>
    rw [Laid] at h
    rw [scanTable]
    split at h
    · rename_i hused
      rw [if_neg (by simp [hused])]
      split
      · exact ⟨_, rfl⟩
      · rename_i hpass
        rcases List.mem_cons.mp hp with rfl | hp
        · rw [if_pos hused] at hsize
          exact absurd ⟨hfree, hsize⟩ hpass
        · obtain ⟨f, hf⟩ := ih h.2.2 hp
          exact ⟨_, by rw [hf]; rfl⟩
    · rw [if_neg (by simp [(h.2 p hp).1])] at hsize
      rw [if_pos (h.2 q List.mem_cons_self).1, if_pos hsize]
      exact ⟨_, rfl⟩

/-- A scan past busy entries finds nothing. -/
theorem scanTable_busy {size next left : Nat} {tbl : List AllocInfo}
    (h : ∀ p ∈ tbl, Busy p) : scanTable size next left tbl = none := by
  induction tbl with
  | nil => rfl
  | cons p rest ih =>
    obtain ⟨hused, hinUse⟩ := h p List.mem_cons_self
    rw [scanTable, if_neg (by simp [hused]), if_neg (by simp [hinUse]),
      ih fun q hq => h q (List.mem_cons_of_mem _ hq)]
    rfl

/-! ## §6 The invariant -/

/-- What every call keeps. -/
structure Inv (heapBase heapSize : Nat) (s : State) : Prop where
  granularity : ∃ k < 32, s.heap.allocMin = 2 ^ k
  laid : Laid s.heap.nextBase heapBase s.heap.allocTbl
  room : s.heap.nextBase + s.heap.spaceLeft = heapBase + heapSize
  top : heapBase + heapSize < 2 ^ 32
  base_pos : s.heap.allocTbl ≠ [] → 0 < heapBase
  held : ∀ b ∈ s.live, 0 < b.size
    ∧ ∃ p ∈ s.heap.allocTbl, Busy p ∧ p.base = b.addr ∧ b.size ≤ p.size
  distinct : s.live.Pairwise fun b c => b.addr ≠ c.addr

theorem Inv.safe {heapBase heapSize : Nat} {s : State} (h : Inv heapBase heapSize s) :
    Safe heapBase heapSize s.live where
  inside := by
    intro b hb
    obtain ⟨-, p, hp, hbusy, hbase, hsize⟩ := h.held b hb
    have hin := h.laid.inside hp hbusy.1
    have hroom := h.room
    omega
  apart := by
    refine h.distinct.imp_of_mem fun {b c} hb hc hne => ?_
    obtain ⟨-, p, hp, hpb, hpbase, hpsize⟩ := h.held b hb
    obtain ⟨-, q, hq, hqb, hqbase, hqsize⟩ := h.held c hc
    rcases h.laid.apart hp hq hpb.1 hqb.1 with rfl | hlow | hhigh
    · exact absurd (hpbase.symm.trans hqbase) hne
    · left
      omega
    · right
      omega

theorem Inv.addr_pos {heapBase heapSize : Nat} {s : State} (h : Inv heapBase heapSize s)
    {b : Block} (hb : b ∈ s.live) : 0 < b.addr := by
  obtain ⟨-, p, hp, hbusy, hbase, -⟩ := h.held b hb
  have hpos := h.base_pos (List.ne_nil_of_mem hp)
  have hin := (h.laid.inside hp hbusy.1).1
  omega

theorem Inv.allocated {heapBase heapSize : Nat} {s : State} (h : Inv heapBase heapSize s)
    {b : Block} (hb : b ∈ s.live) : Allocated s.heap b := by
  obtain ⟨-, p, hp, hbusy, hbase, hsize⟩ := h.held b hb
  refine ⟨p, ?_, hsize⟩
  rw [← hbase]
  exact h.laid.findEntry hp hbusy

/-- Live blocks with one address are one block. -/
theorem Inv.unique {heapBase heapSize : Nat} {s : State} (h : Inv heapBase heapSize s)
    {b c : Block} (hb : b ∈ s.live) (hc : c ∈ s.live) (heq : b.addr = c.addr) : b = c := by
  by_contra hne
  have hsym : Std.Symm fun x y : Block => x.addr ≠ y.addr := ⟨fun _ _ hxy => Ne.symm hxy⟩
  exact h.distinct.forall hb hc hne heq

/-- Writing to memory does not touch the table. -/
theorem Inv.setMem {heapBase heapSize : Nat} {s : State} (h : Inv heapBase heapSize s)
    (mem : Bytes) : Inv heapBase heapSize ⟨{ s.heap with mem := mem }, s.live⟩ :=
  ⟨h.granularity, h.laid, h.room, h.top, h.base_pos, h.held, h.distinct⟩

/-- Giving back a block, or `NULL`. -/
theorem Inv.free {heapBase heapSize : Nat} {s : State} (h : Inv heapBase heapSize s)
    (ptr : Nat) :
    Inv heapBase heapSize ⟨simpleFree ptr s.heap, s.live.filter (·.addr ≠ ptr)⟩ where
  granularity := h.granularity
  laid := h.laid.clearInUse ptr
  room := h.room
  top := h.top
  base_pos := by
    intro hne
    refine h.base_pos fun hnil => hne ?_
    show clearInUse ptr s.heap.allocTbl = []
    rw [hnil]
    rfl
  held := by
    intro b hb
    obtain ⟨hb, hne⟩ := List.mem_filter.mp hb
    obtain ⟨hpos, p, hp, hbusy, hbase, hsize⟩ := h.held b hb
    refine ⟨hpos, p, mem_clearInUse hp ?_, hbusy, hbase, hsize⟩
    rw [hbase]
    simpa using hne
  distinct := h.distinct.sublist List.filter_sublist

/-! ## §7 The calls -/

/-- What a successful `simple_malloc` has done to a heap. -/
structure Got (heapBase size : Nat) (h : Heap) (r : Nat) (h' : Heap) : Prop where
  size_pos : 0 < size
  taken : ∃ rounded, size ≤ rounded ∧ Taken rounded h.nextBase h.spaceLeft heapBase h.allocTbl
    ⟨r, h'.allocTbl, h'.nextBase, h'.spaceLeft⟩
  mem : h'.mem = h.mem
  allocMin : h'.allocMin = h.allocMin
  tbl_ne : h.allocTbl ≠ []

/-- A scan that finds an entry gives the block. -/
theorem simpleMalloc_found {heapBase heapSize size : Nat} {s : State} {f : Found}
    (h : Inv heapBase heapSize s) (hsize : size ≠ 0)
    (hround : size + (s.heap.allocMin - 1) < 2 ^ 32)
    (hscan : scanTable (alignUp size s.heap.allocMin) s.heap.nextBase s.heap.spaceLeft
      s.heap.allocTbl = some f) :
    ∃ r h', simpleMalloc size s.heap = (r + 1, h') ∧ Got heapBase size s.heap (r + 1) h' := by
  obtain ⟨k, hk, hmin⟩ := h.granularity
  have hle : size ≤ alignUp size s.heap.allocMin := by
    rw [hmin] at hround ⊢
    exact le_alignUp hk hround
  have hroom := h.room
  have htop := h.top
  have htaken := scanTable_spec h.laid (by omega) (by omega) hscan
  have hne : s.heap.allocTbl ≠ [] := by
    intro hnil
    rw [hnil] at hscan
    cases hscan
  have hpos : 0 < f.base := by
    obtain ⟨p, hp, hbusy, hbase, -⟩ := htaken.entry
    have hin := (htaken.laid.inside hp hbusy.1).1
    have hstart := h.base_pos hne
    omega
  refine ⟨f.base - 1, { s.heap with
    allocTbl := f.allocTbl
    nextBase := f.nextBase
    spaceLeft := f.spaceLeft }, ?_, ?_⟩
  · rw [simpleMalloc, if_neg hsize, hscan, Nat.sub_add_cancel hpos]
  · refine ⟨Nat.pos_of_ne_zero hsize, ⟨_, hle, ?_⟩, rfl, rfl, hne⟩
    rw [Nat.sub_add_cancel hpos]
    exact htaken

/-- `simple_malloc` fails without a trace, or takes an entry. -/
theorem simpleMalloc_spec {heapBase heapSize size : Nat} {s : State}
    (h : Inv heapBase heapSize s) (hfit : Rounds size s.heap) :
    simpleMalloc size s.heap = (0, s.heap)
      ∨ ∃ r h', simpleMalloc size s.heap = (r + 1, h') ∧ Got heapBase size s.heap (r + 1) h' := by
  by_cases hzero : size = 0
  · exact .inl (by rw [simpleMalloc, if_pos hzero])
  cases hscan : scanTable (alignUp size s.heap.allocMin) s.heap.nextBase s.heap.spaceLeft
      s.heap.allocTbl with
  | none => exact .inl (by rw [simpleMalloc, if_neg hzero, hscan])
  | some f =>
    refine .inr (simpleMalloc_found h hzero ?_ hscan)
    rcases hfit with hround | hbusy
    · exact hround
    · rw [scanTable_busy hbusy] at hscan
      cases hscan

/-- The new block joins the live ones. -/
theorem Got.inv {heapBase heapSize size r : Nat} {s : State} {h' : Heap}
    (hg : Got heapBase size s.heap r h') (h : Inv heapBase heapSize s) :
    Inv heapBase heapSize ⟨h', ⟨r, size⟩ :: s.live⟩ := by
  obtain ⟨rounded, hle, htaken⟩ := hg.taken
  have hkept : ∀ b ∈ s.live, b.addr ≠ r
      ∧ ∃ p ∈ h'.allocTbl, Busy p ∧ p.base = b.addr ∧ b.size ≤ p.size := by
    intro b hb
    obtain ⟨-, p, hp, hbusy, hbase, hsize⟩ := h.held b hb
    obtain ⟨hmem, hne⟩ := htaken.kept p hp hbusy
    rw [hbase] at hne
    exact ⟨hne, p, hmem, hbusy, hbase, hsize⟩
  exact {
    granularity := by
      show ∃ k < 32, h'.allocMin = 2 ^ k
      rw [hg.allocMin]
      exact h.granularity
    laid := htaken.laid
    room := htaken.room.trans h.room
    top := h.top
    base_pos := fun _ => h.base_pos hg.tbl_ne
    held := by
      intro b hb
      rcases List.mem_cons.mp hb with rfl | hb
      · obtain ⟨p, hp, hbusy, hbase, hsize⟩ := htaken.entry
        exact ⟨hg.size_pos, p, hp, hbusy, hbase, Nat.le_trans hle hsize⟩
      · exact ⟨(h.held b hb).1, (hkept b hb).2⟩
    distinct := List.pairwise_cons.mpr ⟨fun b hb => Ne.symm (hkept b hb).1, h.distinct⟩ }

/-- A call that returns `NULL` and leaves heap and blocks alone keeps everything. -/
theorem keeps_failed {heapBase heapSize : Nat} {s : State} (h : Inv heapBase heapSize s)
    (op : Op) : Keeps s op 0 s where
  others := fun _ hb _ => ⟨hb, fun _ _ => rfl⟩
  carried := fun _ _ _ hr => absurd rfl hr
  failed := fun _ _ _ _ _ _ hb _ => ⟨hb, h.allocated hb, fun _ _ => rfl⟩
  returned := fun _ _ hr => absurd rfl hr

/-- A block that is not moved: new from `malloc`, or from `realloc` of `NULL`. -/
theorem Got.keeps {heapBase heapSize size r : Nat} {s : State} {h' : Heap} {op : Op}
    (hg : Got heapBase size s.heap (r + 1) h') (h : Inv heapBase heapSize s)
    (hop : op = .malloc size ∨ op = .realloc 0 size) :
    Keeps s op (r + 1) ⟨h', ⟨r + 1, size⟩ :: s.live⟩ where
  others := fun b hb _ => ⟨List.mem_cons_of_mem _ hb, fun i _ => by rw [hg.mem]⟩
  carried := by
    intro ptr n heq _ b hb hptr
    have hpos := h.addr_pos hb
    rcases hop with rfl | rfl
    · cases heq
    · cases heq
      omega
  failed := fun _ _ _ _ hr => absurd hr (Nat.succ_ne_zero r)
  returned := by
    intro n heq _
    have hn : n = size := by
      rcases hop with rfl | rfl <;> rcases heq with heq | ⟨ptr, heq⟩ <;> cases heq <;> rfl
    subst hn
    exact ⟨List.mem_cons_self, (hg.inv h).allocated List.mem_cons_self⟩

/-- `malloc` as a call of the program. -/
theorem step_malloc {heapBase heapSize size : Nat} {s : State} (h : Inv heapBase heapSize s)
    (hfit : Fits s (.malloc size)) :
    Inv heapBase heapSize (step s (.malloc size)).2
      ∧ Keeps s (.malloc size) (step s (.malloc size)).1 (step s (.malloc size)).2 := by
  rcases simpleMalloc_spec h hfit with hfail | ⟨r, h', hgot, hg⟩
  · simp only [step, hfail]
    exact ⟨h, keeps_failed h _⟩
  · simp only [step, hgot]
    exact ⟨hg.inv h, hg.keeps h (.inl rfl)⟩

/-- Giving a block back: `free`, or `realloc` to size 0. -/
theorem free_spec {heapBase heapSize ptr : Nat} {s : State} (h : Inv heapBase heapSize s)
    {op : Op} (hop : op = .free ptr ∨ op = .realloc ptr 0) :
    Inv heapBase heapSize ⟨simpleFree ptr s.heap, s.live.filter (·.addr ≠ ptr)⟩
      ∧ Keeps s op 0 ⟨simpleFree ptr s.heap, s.live.filter (·.addr ≠ ptr)⟩ := by
  refine ⟨h.free ptr, ?_, ?_, ?_, ?_⟩
  · intro b hb hne
    have htarget : op.target = ptr := by rcases hop with rfl | rfl <;> rfl
    rw [htarget] at hne
    exact ⟨List.mem_filter.mpr ⟨hb, by simpa using hne⟩, fun _ _ => rfl⟩
  · exact fun _ _ _ hr => absurd rfl hr
  · intro p n heq hn
    rcases hop with rfl | rfl
    · cases heq
    · cases heq
      exact absurd rfl hn
  · exact fun _ _ hr => absurd rfl hr

/-- A block that is large enough stays where it is. -/
theorem step_realloc_inPlace {heapBase heapSize size : Nat} {s : State}
    (h : Inv heapBase heapSize s) (hsize : size ≠ 0) {b : Block} (hb : b ∈ s.live)
    {p : AllocInfo} (hfind : simpleFindEntry b.addr s.heap.allocTbl = some p)
    (hfits : size ≤ p.size) :
    Inv heapBase heapSize (step s (.realloc b.addr size)).2
      ∧ Keeps s (.realloc b.addr size) (step s (.realloc b.addr size)).1
        (step s (.realloc b.addr size)).2 := by
  obtain ⟨addr, old⟩ := b
  have hpos : 0 < addr := h.addr_pos hb
  obtain ⟨r, rfl⟩ : ∃ r, addr = r + 1 := ⟨addr - 1, by omega⟩
  have hok : simpleRealloc (r + 1) size s.heap = (r + 1, s.heap) := by
    rw [simpleRealloc, if_neg hsize, if_neg (Nat.succ_ne_zero r)]
    simp only [hfind]
    rw [if_pos hfits]
  simp only [step, hok]
  obtain ⟨hp, hbusy, hbase⟩ := simpleFindEntry_some hfind
  have hinv : Inv heapBase heapSize
      ⟨s.heap, ⟨r + 1, size⟩ :: s.live.filter (·.addr ≠ r + 1)⟩ := by
    refine ⟨h.granularity, h.laid, h.room, h.top, h.base_pos, ?_, ?_⟩
    · intro c hc
      rcases List.mem_cons.mp hc with rfl | hc
      · exact ⟨Nat.pos_of_ne_zero hsize, p, hp, hbusy, hbase, hfits⟩
      · exact h.held c (List.mem_filter.mp hc).1
    · refine List.pairwise_cons.mpr ⟨fun c hc => ?_, h.distinct.sublist List.filter_sublist⟩
      have hne := (List.mem_filter.mp hc).2
      exact Ne.symm (by simpa using hne)
  refine ⟨hinv, ⟨?_, ?_, ?_, ?_⟩⟩
  · intro c hc hne
    have hne : c.addr ≠ r + 1 := hne
    exact ⟨List.mem_cons_of_mem _ (List.mem_filter.mpr ⟨hc, by simpa using hne⟩),
      fun _ _ => rfl⟩
  · intro ptr n heq _ c _ hcaddr i _
    cases heq
    rw [hcaddr]
  · exact fun _ _ _ _ hr => absurd hr (Nat.succ_ne_zero r)
  · intro n heq _
    rcases heq with heq | ⟨ptr, heq⟩
    · cases heq
    · cases heq
      exact ⟨List.mem_cons_self, hinv.allocated List.mem_cons_self⟩

/-- A block that is too small is copied into a new one. -/
theorem step_realloc_move {heapBase heapSize size : Nat} {s : State}
    (h : Inv heapBase heapSize s) (hsize : size ≠ 0) {b : Block} (hb : b ∈ s.live)
    {p : AllocInfo} (hfind : simpleFindEntry b.addr s.heap.allocTbl = some p)
    (hfits : p.size < size) {r : Nat} {h' : Heap}
    (hgot : simpleMalloc size s.heap = (r + 1, h'))
    (hg : Got heapBase size s.heap (r + 1) h') :
    Inv heapBase heapSize (step s (.realloc b.addr size)).2
      ∧ Keeps s (.realloc b.addr size) (step s (.realloc b.addr size)).1
        (step s (.realloc b.addr size)).2 := by
  have hbpos : b.addr ≠ 0 := Nat.ne_of_gt (h.addr_pos hb)
  obtain ⟨q, hq, hbq⟩ := h.allocated hb
  obtain rfl : p = q := Option.some.inj (hfind.symm.trans hq)
  let mem := setBytes h'.mem (r + 1) p.size fun i => h'.mem (b.addr + i)
  have hok : simpleRealloc b.addr size s.heap
      = (r + 1, simpleFree b.addr { h' with mem := mem }) := by
    rw [simpleRealloc, if_neg hsize, if_neg hbpos]
    simp only [hfind]
    rw [if_neg (Nat.not_le_of_lt hfits), hgot]
  have hnew := hg.inv h
  have hdistinct := List.pairwise_cons.mp hnew.distinct
  have hapart := List.pairwise_cons.mp hnew.safe.apart
  have hlive : (⟨r + 1, size⟩ :: s.live : List Block).filter (·.addr ≠ b.addr)
      = ⟨r + 1, size⟩ :: s.live.filter (·.addr ≠ b.addr) := by
    rw [List.filter_cons_of_pos (by simpa using hdistinct.1 b hb)]
  have hinv := (hnew.setMem mem).free b.addr
  simp only [hlive] at hinv
  simp only [step, hok]
  refine ⟨hinv, ⟨?_, ?_, ?_, ?_⟩⟩
  · intro c hc hne
    have hne : c.addr ≠ b.addr := hne
    refine ⟨List.mem_cons_of_mem _ (List.mem_filter.mpr ⟨hc, by simpa using hne⟩),
      fun i hi => ?_⟩
    have hc' := hapart.1 c hc
    simp only [Apart] at hc'
    show mem (c.addr + i) = s.heap.mem (c.addr + i)
    rw [← hg.mem]
    exact setBytes_outside (by omega)
  · intro ptr n heq _ c hc hcaddr i hi
    cases heq
    obtain rfl := h.unique hc hb hcaddr
    show mem (r + 1 + i) = s.heap.mem (c.addr + i)
    rw [← hg.mem]
    exact setBytes_inside (by omega)
  · exact fun _ _ _ _ hr => absurd hr (Nat.succ_ne_zero r)
  · intro n heq _
    rcases heq with heq | ⟨ptr, heq⟩
    · cases heq
    · cases heq
      exact ⟨List.mem_cons_self, hinv.allocated List.mem_cons_self⟩

/-- `realloc` of `NULL` is `malloc`. -/
theorem step_realloc_null {heapBase heapSize size : Nat} {s : State}
    (h : Inv heapBase heapSize s) (hsize : size ≠ 0) (hfit : Rounds size s.heap) :
    Inv heapBase heapSize (step s (.realloc 0 size)).2
      ∧ Keeps s (.realloc 0 size) (step s (.realloc 0 size)).1 (step s (.realloc 0 size)).2 := by
  have hcall : simpleRealloc 0 size s.heap = simpleMalloc size s.heap := by
    rw [simpleRealloc, if_neg hsize, if_pos rfl]
  have hall : s.live.filter (·.addr ≠ 0) = s.live := by
    refine List.filter_eq_self.mpr fun b hb => ?_
    have hpos := h.addr_pos hb
    simp
    omega
  rcases simpleMalloc_spec h hfit with hfail | ⟨r, h', hgot, hg⟩
  · simp only [step, hcall, hfail, if_neg hsize]
    exact ⟨h, keeps_failed h _⟩
  · simp only [step, hcall, hgot, hall]
    exact ⟨hg.inv h, hg.keeps h (.inr rfl)⟩

/-- `realloc` as a call of the program. -/
theorem step_realloc {heapBase heapSize ptr size : Nat} {s : State}
    (h : Inv heapBase heapSize s) (hallowed : ptr = 0 ∨ ∃ b ∈ s.live, b.addr = ptr)
    (hfit : Fits s (.realloc ptr size)) :
    Inv heapBase heapSize (step s (.realloc ptr size)).2
      ∧ Keeps s (.realloc ptr size) (step s (.realloc ptr size)).1
        (step s (.realloc ptr size)).2 := by
  by_cases hsize : size = 0
  · subst hsize
    have hfree : simpleRealloc ptr 0 s.heap = (0, simpleFree ptr s.heap) := by
      rw [simpleRealloc, if_pos rfl]
    simp only [step, hfree, if_true]
    exact free_spec h (.inr rfl)
  by_cases hnull : ptr = 0
  · subst hnull
    refine step_realloc_null h hsize ?_
    rcases hfit with hz | ⟨-, hround⟩ | ⟨p, hp, hle⟩ | ⟨hround, -⟩
    · exact absurd hz hsize
    · exact hround
    · -- no entry has the base 0
      obtain ⟨hmem, hbusy, hbase⟩ := simpleFindEntry_some hp
      have hpos := h.base_pos (List.ne_nil_of_mem hmem)
      have hin := (h.laid.inside hmem hbusy.1).1
      omega
    · exact .inl hround
  obtain ⟨b, hb, rfl⟩ : ∃ b ∈ s.live, b.addr = ptr := by
    rcases hallowed with hzero | hlive
    · exact absurd hzero hnull
    · exact hlive
  obtain ⟨p, hfind, -⟩ := h.allocated hb
  by_cases hfits : size ≤ p.size
  · exact step_realloc_inPlace h hsize hb hfind hfits
  rcases hfit with hz | ⟨hz, -⟩ | ⟨q, hq, hle⟩ | ⟨hround, hav⟩
  · exact absurd hz hsize
  · exact absurd hz hnull
  · obtain rfl : p = q := Option.some.inj (hfind.symm.trans hq)
    exact absurd hle hfits
  · obtain ⟨f, hscan⟩ := scanTable_available h.laid hav
    obtain ⟨r, h', hgot, hg⟩ := simpleMalloc_found h hsize hround hscan
    exact step_realloc_move h hsize hb hfind (Nat.lt_of_not_le hfits) hgot hg

/-- **One call** that fits keeps the invariant and the contents of the blocks. -/
theorem step_spec {heapBase heapSize : Nat} {s : State} (h : Inv heapBase heapSize s) (op : Op)
    (hallowed : Allowed s op) (hfit : Fits s op) :
    Inv heapBase heapSize (step s op).2 ∧ Keeps s op (step s op).1 (step s op).2 := by
  cases op with
  | malloc size => exact step_malloc h hfit
  | realloc ptr size => exact step_realloc h hallowed.2 hfit
  | free ptr => exact free_spec h (.inl rfl)

/-! ## §8 Runs -/

/-- `_ALIGN_UP` as a number that is not cut off. -/
def roundUp (x granularity : Nat) : Nat := (x + (granularity - 1)) / granularity * granularity

/-- The first byte after the table, where the heap begins. -/
def heapStart (base granularity maxAllocs : Nat) : Nat :=
  roundUp (roundUp base 8 + maxAllocs * sizeofAllocInfo) granularity

/-- The heap after `simple_alloc_init`. -/
def start (mem : Bytes) (base heapSize granularity maxAllocs : Nat) : State :=
  ⟨(simpleAllocInit mem base heapSize granularity maxAllocs).2, []⟩

/-- The states a program reaches from `s` by allowed calls that fit and by writing to its
blocks. -/
inductive Reachable (init : State) : State → Prop where
  | start : Reachable init init
  | call {s : State} (op : Op) : Reachable init s → Allowed s op → Fits s op →
    Reachable init (step s op).2
  | write {s : State} (mem : Bytes) : Reachable init s →
    (∀ a, (∀ b ∈ s.live, a < b.addr ∨ b.addr + b.size ≤ a) → mem a = s.heap.mem a) →
    Reachable init ⟨{ s.heap with mem := mem }, s.live⟩

theorem alignUp_eq_roundUp {x k : Nat} (hk : k < 32) (h : roundUp x (2 ^ k) < 2 ^ 32) :
    alignUp x (2 ^ k) = roundUp x (2 ^ k) := by
  have hpos : 0 < 2 ^ k := Nat.two_pow_pos k
  have hsplit : 2 ^ 32 = 2 ^ (32 - k) * 2 ^ k := by
    rw [← Nat.pow_add, Nat.sub_add_cancel (by omega)]
  have hdiv : (x + (2 ^ k - 1)) / 2 ^ k < 2 ^ (32 - k) := by
    refine Nat.lt_of_mul_lt_mul_right (a := 2 ^ k) ?_
    rw [← hsplit]
    exact h
  have hlt : x + (2 ^ k - 1) < 2 ^ 32 := by
    rw [hsplit]
    exact (Nat.div_lt_iff_lt_mul hpos).mp hdiv
  rw [alignUp_eq hk, u32_of_lt hlt, roundUp]

theorem le_roundUp (x k : Nat) : x ≤ roundUp x (2 ^ k) := by
  have hpos : 0 < 2 ^ k := Nat.two_pow_pos k
  have hdiv := Nat.div_add_mod (x + (2 ^ k - 1)) (2 ^ k)
  have hmod := Nat.mod_lt (x + (2 ^ k - 1)) hpos
  rw [Nat.mul_comm] at hdiv
  rw [roundUp]
  omega

/-- The area `simple_alloc_init` leaves for table and heap lies in the address space. -/
def InAddressSpace (base heapSize granularity maxAllocs : Nat) : Prop :=
  heapStart base granularity maxAllocs + roundUp heapSize granularity < 2 ^ 32

theorem start_heap (mem : Bytes) {base heapSize k maxAllocs : Nat} (hk : k < 32)
    (harea : InAddressSpace base heapSize (2 ^ k) maxAllocs) :
    (start mem base heapSize (2 ^ k) maxAllocs).heap.nextBase = heapStart base (2 ^ k) maxAllocs
      ∧ (start mem base heapSize (2 ^ k) maxAllocs).heap.spaceLeft = roundUp heapSize (2 ^ k) := by
  rw [InAddressSpace] at harea
  have hstart : roundUp base 8 + maxAllocs * sizeofAllocInfo ≤ heapStart base (2 ^ k) maxAllocs :=
    le_roundUp _ k
  have htbl : alignUp base 8 = roundUp base 8 :=
    @alignUp_eq_roundUp base 3 (by decide) (show roundUp base 8 < 2 ^ 32 by omega)
  have hsum : u32 (roundUp base 8 + u32 (maxAllocs * sizeofAllocInfo))
      = roundUp base 8 + maxAllocs * sizeofAllocInfo := by
    rw [@u32_of_lt (maxAllocs * sizeofAllocInfo) (by omega), u32_of_lt (by omega)]
  constructor
  · show alignUp (u32 (alignUp base 8 + u32 (maxAllocs * sizeofAllocInfo))) (2 ^ k) = _
    rw [htbl, hsum]
    refine alignUp_eq_roundUp hk ?_
    show heapStart base (2 ^ k) maxAllocs < 2 ^ 32
    omega
  · show alignUp heapSize (2 ^ k) = _
    exact alignUp_eq_roundUp hk (by omega)

theorem start_inv (mem : Bytes) {base heapSize k maxAllocs : Nat} (hk : k < 32)
    (harea : InAddressSpace base heapSize (2 ^ k) maxAllocs) :
    Inv (heapStart base (2 ^ k) maxAllocs) (roundUp heapSize (2 ^ k))
      (start mem base heapSize (2 ^ k) maxAllocs) := by
  obtain ⟨hnext, hleft⟩ := start_heap mem hk harea
  refine ⟨⟨k, hk, rfl⟩, ?_, by rw [hnext, hleft], harea, ?_, ?_, List.Pairwise.nil⟩
  · rw [hnext]
    show Laid _ _ (List.replicate maxAllocs _)
    cases maxAllocs with
    | zero => rfl
    | succ n =>
      rw [List.replicate_succ, Laid, if_neg (by decide)]
      refine ⟨rfl, fun q hq => ?_⟩
      rw [← List.replicate_succ] at hq
      rw [List.eq_of_mem_replicate hq]
      exact ⟨rfl, rfl⟩
  · intro hne
    have hpos : maxAllocs ≠ 0 := by
      rintro rfl
      exact hne rfl
    have hstart : roundUp base 8 + maxAllocs * sizeofAllocInfo
        ≤ heapStart base (2 ^ k) maxAllocs := le_roundUp _ k
    simp only [sizeofAllocInfo] at hstart
    omega
  · intro b hb
    exact absurd hb List.not_mem_nil

theorem Reachable.inv {heapBase heapSize : Nat} {init s : State} (h : Reachable init s)
    (hinit : Inv heapBase heapSize init) : Inv heapBase heapSize s := by
  induction h with
  | start => exact hinit
  | call op _ hallowed hfit ih => exact (step_spec ih op hallowed hfit).1
  | write mem _ _ ih => exact ih.setMem mem

/-- **The zImage heap is safe** in every state reached by calls that fit, whatever the program
writes to its blocks, and every further such call keeps the contents of the blocks. -/
theorem zImageHeap_safe (mem : Bytes) (base heapSize k maxAllocs : Nat) (hk : k < 32)
    (harea : InAddressSpace base heapSize (2 ^ k) maxAllocs) (s : State)
    (h : Reachable (start mem base heapSize (2 ^ k) maxAllocs) s) :
    Safe (heapStart base (2 ^ k) maxAllocs) (roundUp heapSize (2 ^ k)) s.live
      ∧ ∀ op : Op, Allowed s op → Fits s op →
        Safe (heapStart base (2 ^ k) maxAllocs) (roundUp heapSize (2 ^ k)) (step s op).2.live
          ∧ Keeps s op (step s op).1 (step s op).2 := by
  have hinv := h.inv (start_inv mem hk harea)
  refine ⟨hinv.safe, fun op hallowed hfit => ?_⟩
  obtain ⟨hinv', hkeeps⟩ := step_spec hinv op hallowed hfit
  exact ⟨hinv'.safe, hkeeps⟩

/-! ## §9 Two programs -/

/-- A heap of 128 bytes behind a table of two entries, rounded to 32 bytes. -/
def sampleStart : State := start (fun _ => 0) 0x1000 128 32 2

/-- The program has a block of 64 bytes. -/
def sampleBlock : State := (step sampleStart (.malloc 64)).2

/-- A block of 64 bytes is to grow to 100: nothing is left, and the call that returns `NULL` has
freed the block. A request for 4 GiB - 1 gets an empty block at the end of the heap. -/
theorem failedRealloc_frees :
    (Allowed sampleBlock (.realloc 0x1020 100) ∧ (step sampleBlock (.realloc 0x1020 100)).1 = 0
        ∧ ¬ Keeps sampleBlock (.realloc 0x1020 100) (step sampleBlock (.realloc 0x1020 100)).1
          (step sampleBlock (.realloc 0x1020 100)).2)
      ∧ Allowed sampleStart (.malloc 0xffffffff)
      ∧ (step sampleStart (.malloc 0xffffffff)).1 = 0x1020
      ∧ ¬ Safe 0x1020 128 (step sampleStart (.malloc 0xffffffff)).2.live := by
  have hlive : sampleBlock.live = [⟨0x1020, 64⟩] := by decide
  have hblock : (⟨0x1020, 64⟩ : Block) ∈ sampleBlock.live := by
    rw [hlive]
    exact List.mem_singleton_self _
  have hnull : (step sampleBlock (.realloc 0x1020 100)).1 = 0 := by decide
  refine ⟨⟨⟨by decide, .inr ⟨_, hblock, rfl⟩⟩, hnull, fun hkeeps => ?_⟩,
    show 0xffffffff < 2 ^ 32 by decide, by decide,
    fun hsafe => ?_⟩
  · obtain ⟨-, ⟨p, hp, -⟩, -⟩ := hkeeps.failed 0x1020 100 rfl (by decide) hnull _ hblock rfl
    have hgone : simpleFindEntry 0x1020 (step sampleBlock (.realloc 0x1020 100)).2.heap.allocTbl
        = none := by decide
    rw [hgone] at hp
    cases hp
  · have hhuge : (step sampleStart (.malloc 0xffffffff)).2.live = [⟨0x1020, 0xffffffff⟩] := by
      decide
    have hin := (hsafe.inside ⟨0x1020, 0xffffffff⟩
      (by rw [hhuge]; exact List.mem_singleton_self _)).2
    exact absurd hin (by decide)

/-- A block of 64 bytes shrinks to 40 in place. -/
theorem smallBlocks_safe :
    Safe 0x1020 128 sampleBlock.live
      ∧ Keeps sampleBlock (.realloc 0x1020 40) (step sampleBlock (.realloc 0x1020 40)).1
        (step sampleBlock (.realloc 0x1020 40)).2 := by
  have hreach : Reachable sampleStart sampleBlock :=
    .call (.malloc 64) .start (show 64 < 2 ^ 32 by decide) (.inl (by decide))
  obtain ⟨hsafe, hnext⟩ :=
    zImageHeap_safe (fun _ => 0) 0x1000 128 5 2 (by decide)
      (show heapStart 0x1000 32 2 + roundUp 128 32 < 2 ^ 32 by decide) sampleBlock hreach
  refine ⟨hsafe, (hnext (.realloc 0x1020 40) ⟨by decide, .inr ⟨⟨0x1020, 64⟩, ?_, rfl⟩⟩ ?_).2⟩
  · have hlive : sampleBlock.live = [⟨0x1020, 64⟩] := by decide
    rw [hlive]
    exact List.mem_singleton_self _
  · exact .inr (.inr (.inl ⟨⟨true, true, 0x1020, 64⟩, by decide, by decide⟩))

end LiloBoot.SimpleAlloc
