/-
LiloBoot.XFS.ExtentTheorems — what the extent iterator yields.

§1 reads an extent record: one 128-bit number with flag, file offset, start block
and length. §2 is the translation of block numbers. §3 describes a bmap B-tree on
the device and shows that `init_extents` finds its leftmost leaf, whatever the
height. §4 is `next_extent` behind that leaf: it follows `bb_leftsib`, which is
NULLDFSBNO there, to the block that NULLDFSBNO translates to. So the iterator
yields the extents of the tree exactly if that block starts a chain with the rest
of them (`btree_enumerates_iff`), and never if there is only one leaf.
-/
import LiloBoot.XFS.Xfs

namespace LiloBoot.XFS

/-! ## §1 Extent records -/

/-- An extent as the disk format bounds it. -/
def Xad.Bounded (e : Xad) : Prop := e.offset < 2 ^ 54 ∧ e.start < 2 ^ 52 ∧ e.len < 2 ^ 21

instance (e : Xad) : Decidable e.Bounded := inferInstanceAs (Decidable (_ ∧ _))

/-- The 16 bytes at `pos` record the extent: from the top a flag, 54 bits of file offset,
52 bits of start block and 21 bits of length. -/
def Records (bytes : Bytes) (pos : Nat) (e : Xad) : Prop :=
  e.Bounded ∧ ∃ flag ≤ 1,
    be bytes pos 16 = flag * 2 ^ 127 + e.offset * 2 ^ 73 + e.start * 2 ^ 21 + e.len

theorem be_lt (bytes : Bytes) (pos size : Nat) : be bytes pos size < 256 ^ size := by
  induction size with
  | zero => simp [be]
  | succ size ih =>
    have hbyte := (bytes (pos + size)).toNat_lt
    rw [be, Nat.pow_succ]
    omega

theorem be_add (bytes : Bytes) (pos m n : Nat) :
    be bytes pos (m + n) = be bytes pos m * 256 ^ n + be bytes (pos + m) n := by
  induction n with
  | zero => simp [be]
  | succ n ih =>
    rw [← Nat.add_assoc, be, be, ih, Nat.pow_succ, Nat.add_assoc pos m n]
    ring

/-- The four words of a record. -/
theorem be_words (bytes : Bytes) (pos : Nat) :
    be bytes pos 16 = (bmbtRec32 bytes pos).l0 * 2 ^ 96 + (bmbtRec32 bytes pos).l1 * 2 ^ 64
      + (bmbtRec32 bytes pos).l2 * 2 ^ 32 + (bmbtRec32 bytes pos).l3 := by
  have h1 := be_add bytes pos 4 12
  have h2 := be_add bytes (pos + 4) 4 8
  have h3 := be_add bytes (pos + 8) 4 4
  simp only [Nat.add_assoc, Nat.reduceAdd] at h1 h2 h3
  rw [h1, h2, h3]
  simp only [bmbtRec32]
  ring

/-- The masks and shifts take the fields out of the words. -/
theorem xad_eq {r : BmbtRec32} (h1 : r.l1 < 2 ^ 32) (h2 : r.l2 < 2 ^ 32) (h3 : r.l3 < 2 ^ 32) :
    xad r = ⟨r.l0 % 2 ^ 31 * 2 ^ 23 + r.l1 / 2 ^ 9,
      r.l1 % 2 ^ 9 * 2 ^ 43 + r.l2 * 2 ^ 11 + r.l3 / 2 ^ 21, r.l3 % 2 ^ 21⟩ := by
  have hoffset : xtOffset r = r.l0 % 2 ^ 31 * 2 ^ 23 + r.l1 / 2 ^ 9 := by
    simp only [xtOffset, mask32lo, Nat.and_two_pow_sub_one_eq_mod, Nat.shiftRight_eq_div_pow]
    exact shiftLeft_or_eq_add (by omega)
  have hstart : xtStart r = r.l1 % 2 ^ 9 * 2 ^ 43 + r.l2 * 2 ^ 11 + r.l3 / 2 ^ 21 := by
    have htop : r.l1 % 2 ^ 9 * 2 ^ 43 + r.l2 * 2 ^ 11
        = (r.l1 % 2 ^ 9 * 2 ^ 32 + r.l2) <<< 11 := by
      rw [Nat.shiftLeft_eq]
      ring
    simp only [xtStart, mask32lo, Nat.and_two_pow_sub_one_eq_mod, Nat.shiftRight_eq_div_pow]
    rw [shiftLeft_or_eq_add (by rw [Nat.shiftLeft_eq]; omega), Nat.shiftLeft_eq r.l2, htop,
      shiftLeft_or_eq_add (by omega), ← Nat.shiftLeft_eq]
  have hlen : xtLen r = r.l3 % 2 ^ 21 := by
    rw [xtLen, mask32lo, Nat.and_two_pow_sub_one_eq_mod]
  rw [xad, hoffset, hstart, hlen]

/-- What is taken out of a record is the extent that it records. -/
theorem xad_of_records {bytes : Bytes} {pos : Nat} {e : Xad} (h : Records bytes pos e) :
    xad (bmbtRec32 bytes pos) = e := by
  obtain ⟨⟨hoff, hstart, hlen⟩, flag, hflag, hbe⟩ := h
  rw [be_words] at hbe
  have h1 : (bmbtRec32 bytes pos).l1 < 2 ^ 32 := be_lt bytes (pos + 4) 4
  have h2 : (bmbtRec32 bytes pos).l2 < 2 ^ 32 := be_lt bytes (pos + 8) 4
  have h3 : (bmbtRec32 bytes pos).l3 < 2 ^ 32 := be_lt bytes (pos + 12) 4
  rw [xad_eq h1 h2 h3]
  obtain ⟨off, start, len⟩ := e
  simp only [Xad.mk.injEq] at *
  omega

/-- Any 16 bytes record the extent that is taken out of them. -/
theorem records_xad (bytes : Bytes) (pos : Nat) :
    Records bytes pos (xad (bmbtRec32 bytes pos)) := by
  have h0 : (bmbtRec32 bytes pos).l0 < 2 ^ 32 := be_lt bytes pos 4
  have h1 : (bmbtRec32 bytes pos).l1 < 2 ^ 32 := be_lt bytes (pos + 4) 4
  have h2 : (bmbtRec32 bytes pos).l2 < 2 ^ 32 := be_lt bytes (pos + 8) 4
  have h3 : (bmbtRec32 bytes pos).l3 < 2 ^ 32 := be_lt bytes (pos + 12) 4
  rw [xad_eq h1 h2 h3]
  refine ⟨⟨by simp only; omega, by simp only; omega, by simp only; omega⟩,
    (bmbtRec32 bytes pos).l0 / 2 ^ 31, by omega, ?_⟩
  rw [be_words]
  simp only
  omega

/-! ## §2 Addresses -/

/-- A geometry of a file system: allocation groups as large as their logarithm allows, and
sectors of 512 bytes. -/
structure Geometry.Valid (geo : Geometry) : Prop where
  agblocks_pos : 0 < geo.agblocks
  agblocks_le : geo.agblocks ≤ 2 ^ geo.agblklog
  agblklog_lt : geo.agblklog < 32
  bdlog_lt : geo.bdlog < 32
  blklog_eq : geo.blklog = geo.bdlog + 9

/-- `NULLDFSBNO`, all ones. -/
def nullDfsbno : Nat := 2 ^ 64 - 1

/-- All ones divided by a power of two: all ones twice. -/
theorem pred_div_mod {a q : Nat} (ha : 0 < a) (hq : 0 < q) :
    (a * q - 1) / a = q - 1 ∧ (a * q - 1) % a = a - 1 := by
  obtain ⟨q, rfl⟩ : ∃ m, q = m + 1 := ⟨q - 1, by omega⟩
  refine (Nat.div_mod_unique ha).mpr ⟨?_, by omega⟩
  rw [Nat.mul_add, Nat.mul_one, Nat.add_sub_cancel]
  omega

/-- The group and the block that NULLDFSBNO names. -/
theorem null_parts {k : Nat} (hk : k < 32) :
    u32 (nullDfsbno / 2 ^ k) = 2 ^ 32 - 1 ∧ nullDfsbno &&& mask32lo k = 2 ^ k - 1 := by
  have hnull : nullDfsbno = 2 ^ k * 2 ^ (64 - k) - 1 := by
    rw [← Nat.pow_add, Nat.add_sub_cancel' (by omega), nullDfsbno]
  have hhigh : 2 ^ (64 - k) = 2 ^ 32 * 2 ^ (32 - k) := by
    rw [← Nat.pow_add]
    exact congrArg (2 ^ ·) (by omega)
  obtain ⟨hdiv, hmod⟩ := pred_div_mod (Nat.two_pow_pos k) (Nat.two_pow_pos (64 - k))
  constructor
  · have hpos := Nat.two_pow_pos (32 - k)
    rw [hnull, hdiv, hhigh, u32]
    omega
  · rw [mask32lo, Nat.and_two_pow_sub_one_eq_mod, hnull, hmod]

/-- A shift by less than 32 bits pushes out no more than 31 bits. -/
theorem dvd_of_shift {b n : Nat} (hb : b < 32) (h : 2 ^ b * n % 2 ^ 64 = 0) : 2 ^ 33 ∣ n := by
  have hshift : 2 ^ b * 2 ^ 33 ∣ 2 ^ 64 := by
    rw [← Nat.pow_add]
    exact Nat.pow_dvd_pow 2 (by omega)
  exact Nat.dvd_of_mul_dvd_mul_left (Nat.two_pow_pos b)
    (Nat.dvd_trans hshift (Nat.dvd_of_mod_eq_zero h))

/-- The block that NULLDFSBNO names has a bit set below the 33rd. -/
theorem null_block_bits {ag n : Nat} (hn : 0 < n) (hle : n ≤ ag) (hag : ag ≤ 2 ^ 31)
    (heven : ag = 1 ∨ 2 ∣ ag) : ¬ 2 ^ 33 ∣ (2 ^ 32 - 1) * n + (ag - 1) := by
  rintro ⟨q, hq⟩
  by_cases h : ag = n
  · omega
  · -- the low word is `ag - n - 1`, so `n` would be odd
    have hlow : ag = n + 1 := by omega
    omega

/-- The end marker does not survive the translation: it becomes a block address. -/
theorem fsb2daddr_null {geo : Geometry} (hgeo : geo.Valid) :
    fsb2daddr geo nullDfsbno ≠ 0 := by
  obtain ⟨hpos, hle, hlog, hbd, -⟩ := hgeo
  obtain ⟨hagno, hagbno⟩ := null_parts hlog
  have hag : 2 ^ geo.agblklog ≤ 2 ^ 31 := Nat.pow_le_pow_right (by decide) (by omega)
  have heven : 2 ^ geo.agblklog = 1 ∨ 2 ∣ 2 ^ geo.agblklog := by
    rcases Nat.eq_zero_or_pos geo.agblklog with h | h
    · exact .inl (by rw [h, Nat.pow_zero])
    · exact .inr (dvd_pow_self 2 (by omega))
  have hin : (2 ^ 32 - 1) * geo.agblocks + (2 ^ geo.agblklog - 1) < 2 ^ 64 := by omega
  intro h
  rw [fsb2daddr, agb2daddr, hagno, hagbno, u64_of_lt hin, u64, Nat.mul_comm] at h
  exact null_block_bits hpos hle hag heven (dvd_of_shift hbd h)

/-! ## §3 The tree on the device -/

/-- The block at `daddr` holds exactly these extent records. -/
def HoldsAt (dev : Bytes) (daddr : Nat) (es : List Xad) : Prop :=
  bbNumrecs dev daddr = es.length
    ∧ ∀ i (h : i < es.length), Records dev (diskPos daddr (24 + 16 * i : Nat)) es[i]

/-- A leaf: its block number and its extents. -/
structure Leaf where
  fsb : Nat
  recs : List Xad

/-- The subtree of height `level` in the block `fsb` has these leaves, from left to
right. An inner node points to a subtree with each of its pointers. -/
def Subtree (geo : Geometry) (dev : Bytes) : Nat → Nat → List Leaf → Prop
  | 0, fsb, leaves =>
    bbLevel dev (fsb2daddr geo fsb) = 0
      ∧ ∃ recs, HoldsAt dev (fsb2daddr geo fsb) recs ∧ leaves = [⟨fsb, recs⟩]
  | level + 1, fsb, leaves =>
    bbLevel dev (fsb2daddr geo fsb) = level + 1
      ∧ ∃ children : List (Nat × List Leaf), children ≠ []
        ∧ bbNumrecs dev (fsb2daddr geo fsb) = children.length
        ∧ leaves = children.flatMap Prod.snd
        ∧ ∀ i (h : i < children.length),
            be dev (diskPos (fsb2daddr geo fsb) (geo.btnodePtr0Off + 8 * i : Nat)) 8
                = children[i].1
              ∧ Subtree geo dev level children[i].1 children[i].2

/-- `bb_rightsib`, which the source does not read. -/
def bbRightsib (dev : Bytes) (daddr : Nat) : Nat := be dev (diskPos daddr 0 + 16) 8

/-- The leaves are linked both ways; `prev` is the left sibling of the first one. -/
def Linked (geo : Geometry) (dev : Bytes) : Nat → List Leaf → Prop
  | _, [] => True
  | prev, l :: rest =>
    bbLeftsib dev (fsb2daddr geo l.fsb) = prev
      ∧ bbRightsib dev (fsb2daddr geo l.fsb) = (rest.head?.map Leaf.fsb).getD nullDfsbno
      ∧ Linked geo dev l.fsb rest

/-- A bmap B-tree whose root is in the inode: the root's children are subtrees of one
height, `ptr0` is its first pointer, and the leaves are linked with NULLDFSBNO at both
ends. -/
def BmapTree (geo : Geometry) (dev : Bytes) (leaves : List Leaf) : Prop :=
  Linked geo dev nullDfsbno leaves
    ∧ ∃ level, ∃ children : List (Nat × List Leaf), children ≠ []
      ∧ children.head?.map Prod.fst = some geo.ptr0
      ∧ leaves = children.flatMap Prod.snd
      ∧ ∀ c ∈ children, Subtree geo dev level c.1 c.2

/-- A subtree starts with a leaf, and the loop of `init_extents` gets down to it. -/
theorem initExtentsLoop_leftmost {geo : Geometry} {dev : Bytes} (level : Nat) :
    ∀ fsb leaves, Subtree geo dev level fsb leaves →
      ∃ first rest, leaves = first :: rest
        ∧ HoldsAt dev (fsb2daddr geo first.fsb) first.recs
        ∧ ∀ fuel c, level < fuel →
            initExtentsLoop geo dev c fuel fsb
              = some (leafCursor geo dev (fsb2daddr geo first.fsb) c) := by
  induction level with
  | zero =>
    rintro fsb leaves ⟨hlevel, recs, hholds, rfl⟩
    refine ⟨⟨fsb, recs⟩, [], rfl, hholds, ?_⟩
    intro fuel c hfuel
    obtain ⟨fuel, rfl⟩ : ∃ m, fuel = m + 1 := ⟨fuel - 1, by omega⟩
    rw [initExtentsLoop, if_pos hlevel]
  | succ level ih =>
    rintro fsb leaves ⟨hlevel, children, hne, -, rfl, hchildren⟩
    obtain ⟨child, others, rfl⟩ := List.exists_cons_of_ne_nil hne
    obtain ⟨hptr, hsub⟩ := hchildren 0 (by simp)
    obtain ⟨first, rest, hleaves, hholds, hdown⟩ := ih _ _ hsub
    simp only [List.getElem_cons_zero] at hptr hleaves hdown
    refine ⟨first, rest ++ others.flatMap Prod.snd, ?_, hholds, ?_⟩
    · rw [List.flatMap_cons, hleaves, List.cons_append]
    · intro fuel c hfuel
      obtain ⟨fuel, rfl⟩ : ∃ m, fuel = m + 1 := ⟨fuel - 1, by omega⟩
      have hinner : bbLevel dev (fsb2daddr geo fsb) ≠ 0 := by omega
      rw [initExtentsLoop, if_neg hinner]
      simp only [Nat.mul_zero, Nat.add_zero] at hptr
      rw [hptr]
      exact hdown fuel c (by omega)

/-! ## §4 The iterator behind the first leaf -/

/-- The results of `n` calls of `next_extent`. -/
def yields (geo : Geometry) (inode : Inode) (dev : Bytes) : Nat → Cursor → List (Option Xad)
  | 0, _ => []
  | n + 1, c =>
    (nextExtent geo inode dev c).1 :: yields geo inode dev n (nextExtent geo inode dev c).2

theorem bbNumrecs_lt (dev : Bytes) (daddr : Nat) : bbNumrecs dev daddr < 2 ^ 16 :=
  be_lt dev (diskPos daddr 0 + 6) 2

/-- A chain of blocks, linked by `bb_leftsib`, that holds exactly these extents and ends at
a `bb_leftsib` that translates to 0. -/
inductive LeftChain (geo : Geometry) (dev : Bytes) : Nat → List Xad → Prop where
  | last {daddr : Nat} {es : List Xad} (hne : es ≠ []) (hholds : HoldsAt dev daddr es)
      (hend : fsb2daddr geo (bbLeftsib dev daddr) = 0) : LeftChain geo dev daddr es
  | link {daddr : Nat} {es rest : List Xad} (hne : es ≠ []) (hholds : HoldsAt dev daddr es)
      (hnext : fsb2daddr geo (bbLeftsib dev daddr) ≠ 0)
      (htail : LeftChain geo dev (fsb2daddr geo (bbLeftsib dev daddr)) rest) :
      LeftChain geo dev daddr (es ++ rest)

/-- The records that a block holds. -/
def recordsAt (dev : Bytes) (daddr : Nat) : List Xad :=
  (List.range (bbNumrecs dev daddr)).map fun i =>
    xad (bmbtRec32 dev (diskPos daddr (24 + 16 * i : Nat)))

theorem holdsAt_recordsAt (dev : Bytes) (daddr : Nat) :
    HoldsAt dev daddr (recordsAt dev daddr) := by
  refine ⟨by simp [recordsAt], ?_⟩
  intro i hi
  simp only [recordsAt, List.getElem_map, List.getElem_range]
  exact records_xad _ _

section Btree

variable {geo : Geometry} {inode : Inode} {dev : Bytes} (hfmt : inode.diFormat = .btree)

include hfmt

/-- The cursor behind the next record of the block. -/
theorem nextExtent_record {c : Cursor} (hc : c.nextents ≠ 0) :
    nextExtent geo inode dev c
      = (some (xad (bmbtRec32 dev (diskPos c.daddr c.fpos))),
          { c with fpos := c.fpos + 16, nextents := sub32 c.nextents 1 }) := by
  simp [nextExtent, hfmt, hc]

/-- At the end of a block the iterator goes on as from the start of the next one. -/
theorem nextExtent_link {c : Cursor} (hc : c.nextents = 0) (hnext : c.next ≠ 0) :
    nextExtent geo inode dev c
      = (some (xad (bmbtRec32 dev (diskPos c.next 24))),
          { leafCursor geo dev c.next c with
            fpos := 24 + 16
            nextents := sub32 (bbNumrecs dev c.next) 1 }) := by
  simp [nextExtent, hfmt, hc, hnext, leafCursor, btreeBlockSize]

theorem nextExtent_null {c : Cursor} (hc : c.nextents = 0) (hnext : c.next = 0) :
    nextExtent geo inode dev c = (none, c) := by
  simp [nextExtent, hfmt, hc, hnext]

/-- With `nextents` records left none of as many calls returns NULL. -/
theorem yields_some (n : Nat) :
    ∀ c : Cursor, c.nextents < 2 ^ 32 → n ≤ c.nextents →
      none ∉ yields geo inode dev n c := by
  induction n with
  | zero => intro c _ _; simp [yields]
  | succ n ih =>
    intro c hlt hn
    rw [yields, nextExtent_record hfmt (by omega)]
    have hsub : sub32 c.nextents 1 = c.nextents - 1 := sub32_of_le (by omega) hlt
    simp only [List.mem_cons, reduceCtorEq, false_or]
    exact ih _ (by simp only [hsub]; omega) (by simp only [hsub]; omega)

/-- The records of a block are yielded in order. -/
theorem yields_block (es : List Xad) :
    ∀ c : Cursor, c.nextents = es.length → es.length < 2 ^ 32 →
      (∀ i (h : i < es.length), Records dev (diskPos c.daddr (c.fpos + 16 * i : Nat)) es[i]) →
      ∀ m, yields geo inode dev (es.length + m) c
        = es.map some ++ yields geo inode dev m
            { c with nextents := 0, fpos := c.fpos + 16 * es.length } := by
  induction es with
  | nil =>
    rintro ⟨nextents, next, daddr, fpos, xt⟩ hc _ _ m
    simp only [List.length_nil] at hc
    simp [hc]
  | cons e es ih =>
    intro c hc hlt hrec m
    simp only [List.length_cons] at hc hlt hrec
    have hhead : xad (bmbtRec32 dev (diskPos c.daddr c.fpos)) = e :=
      xad_of_records (by simpa using hrec 0 (by omega))
    have hsub : sub32 c.nextents 1 = es.length := by rw [sub32_of_le (by omega) (by omega)]; omega
    have htail := ih { c with fpos := c.fpos + 16, nextents := es.length } rfl (by omega)
      (fun i hi => by
        have h := hrec (i + 1) (by omega)
        simp only [List.getElem_cons_succ] at h
        rwa [Nat.mul_add, Nat.mul_one, Nat.add_comm (16 * i) 16, ← Nat.add_assoc] at h) m
    rw [List.length_cons, Nat.add_right_comm, yields, nextExtent_record hfmt (by omega), hhead,
      hsub, htail]
    simp only [List.map_cons, List.cons_append, Nat.mul_add, Nat.mul_one]
    rw [Nat.add_assoc c.fpos, Nat.add_comm 16]

/-- The end of a block in the sequence of calls. -/
theorem yields_link {c : Cursor} (hc : c.nextents = 0) (hnext : c.next ≠ 0)
    (hrecs : bbNumrecs dev c.next ≠ 0) (m : Nat) :
    yields geo inode dev (m + 1) c
      = yields geo inode dev (m + 1) (leafCursor geo dev c.next c) := by
  rw [yields, yields, nextExtent_link hfmt hc hnext, nextExtent_record hfmt hrecs]
  rfl

/-- The calls from the end of a block on that lead through a whole further block. -/
theorem yields_through {c : Cursor} (hc : c.nextents = 0) (hnext : c.next ≠ 0)
    {es : List Xad} (hne : es ≠ []) (hholds : HoldsAt dev c.next es) (m : Nat) :
    ∃ c' : Cursor, c'.nextents = 0 ∧ c'.next = fsb2daddr geo (bbLeftsib dev c.next)
      ∧ yields geo inode dev (es.length + m) c
          = es.map some ++ yields geo inode dev m c' := by
  obtain ⟨hcount, hrec⟩ := hholds
  have hlen : es.length ≠ 0 := by simpa using hne
  have hlt := bbNumrecs_lt dev c.next
  obtain ⟨k, hk⟩ : ∃ k, es.length + m = k + 1 := ⟨es.length + m - 1, by omega⟩
  refine ⟨{ leafCursor geo dev c.next c with nextents := 0, fpos := 24 + 16 * es.length },
    rfl, rfl, ?_⟩
  rw [hk, yields_link hfmt hc hnext (by omega), ← hk]
  exact yields_block hfmt es (leafCursor geo dev c.next c) hcount (by omega) hrec m

/-- From the end of a block on, the calls yield these extents and then NULL exactly if the
next block starts a chain that holds them. -/
theorem yields_chain_iff (n : Nat) :
    ∀ (es : List Xad) (c : Cursor), es.length = n → n < 2 ^ 32 → c.nextents = 0 →
      c.next ≠ 0 →
      (yields geo inode dev (es.length + 1) c = es.map some ++ [none]
        ↔ LeftChain geo dev c.next es) := by
  induction n using Nat.strong_induction_on with
  | _ n ih =>
    intro es c hn hlt hc hnext
    have hholds := holdsAt_recordsAt dev c.next
    have hcount : (recordsAt dev c.next).length = bbNumrecs dev c.next := hholds.1.symm
    constructor
    · intro h
      have hnull : none ∈ yields geo inode dev (es.length + 1) c := by
        rw [h]
        simp
      by_cases hzero : bbNumrecs dev c.next = 0
      · -- a block without records leaves a counter that has wrapped
        rw [yields, nextExtent_link hfmt hc hnext, hzero] at hnull
        have hwrap : sub32 0 1 = 2 ^ 32 - 1 := by decide
        simp only [List.mem_cons, reduceCtorEq, false_or, hwrap] at hnull
        exact absurd hnull (yields_some hfmt _ _ (by simp only; omega) (by simp only; omega))
      · have hne : recordsAt dev c.next ≠ [] := by
          intro hnil
          rw [hnil, List.length_nil] at hcount
          exact hzero hcount.symm
        by_cases hlong : es.length < bbNumrecs dev c.next
        · -- the block goes on behind the last extent
          rw [yields_link hfmt hc hnext hzero] at hnull
          have hbound := bbNumrecs_lt dev c.next
          exact absurd hnull (yields_some hfmt _ _
            (by simp only [leafCursor]; omega) (by simp only [leafCursor]; omega))
        · -- the block is a part of the extents: the rest of them comes after it
          obtain ⟨hhead, htail⟩ : (es.take (bbNumrecs dev c.next)).length
                = (recordsAt dev c.next).length
              ∧ (es.drop (bbNumrecs dev c.next)).length + bbNumrecs dev c.next = es.length := by
            rw [List.length_take, List.length_drop]
            omega
          obtain ⟨c', hc', hnext', hyields⟩ := yields_through hfmt hc hnext hne hholds
            ((es.drop (bbNumrecs dev c.next)).length + 1)
          have hcalls : es.length + 1 = (recordsAt dev c.next).length
              + ((es.drop (bbNumrecs dev c.next)).length + 1) := by omega
          rw [hcalls, hyields] at h
          conv at h => rhs; rw [← List.take_append_drop (bbNumrecs dev c.next) es]
          rw [List.map_append, List.append_assoc] at h
          obtain ⟨hrecs, hrest⟩ := List.append_inj h (by simpa using hhead.symm)
          have hrecs := (List.map_inj_right fun _ _ => Option.some.inj).mp hrecs
          rw [← List.take_append_drop (bbNumrecs dev c.next) es, ← hrecs]
          by_cases hend : fsb2daddr geo (bbLeftsib dev c.next) = 0
          · rw [yields, nextExtent_null hfmt hc' (hnext'.trans hend)] at hrest
            cases hdrop : es.drop (bbNumrecs dev c.next) with
            | nil => exact List.append_nil _ ▸ .last hne hholds hend
            | cons e tail => simp [hdrop] at hrest
          · have hlink := (ih _ (by omega) (es.drop (bbNumrecs dev c.next)) c' rfl (by omega)
              hc' (by rw [hnext']; exact hend)).mp hrest
            rw [hnext'] at hlink
            exact .link hne hholds hend hlink
    · intro hchain
      cases hchain with
      | last hne hholds hend =>
        obtain ⟨c', hc', hnext', hyields⟩ := yields_through hfmt hc hnext hne hholds 1
        rw [hyields, yields, nextExtent_null hfmt hc' (hnext'.trans hend)]
        rfl
      | @link _ first rest hne hholds hlink htail =>
        have hfirst : first.length ≠ 0 := by simpa using hne
        obtain ⟨c', hc', hnext', hyields⟩ :=
          yields_through hfmt hc hnext hne hholds (rest.length + 1)
        rw [List.length_append] at hn ⊢
        have hrest := (ih rest.length (by omega) rest c' rfl (by omega) hc'
          (by rw [hnext']; exact hlink)).mpr (by rw [hnext']; exact htail)
        rw [Nat.add_assoc, hyields, hrest, List.map_append, List.append_assoc]

end Btree

/-! ## §5 The extents of a tree -/

/-- From `init_extents` on, `next_extent` yields these extents and then NULL. -/
def Enumerates (geo : Geometry) (inode : Inode) (dev : Bytes) (es : List Xad) : Prop :=
  ∃ enough, ∀ fuel ≥ enough, ∀ c₀, ∃ c, initExtents geo inode dev fuel c₀ = some c
    ∧ yields geo inode dev (es.length + 1) c = es.map some ++ [none]

/-- The tree starts with a leaf, and `init_extents` gets down to it. -/
theorem initExtents_leftmost {geo : Geometry} {inode : Inode} (hfmt : inode.diFormat = .btree)
    {dev : Bytes} {first : Leaf} {rest : List Leaf}
    (htree : BmapTree geo dev (first :: rest)) :
    HoldsAt dev (fsb2daddr geo first.fsb) first.recs
      ∧ bbLeftsib dev (fsb2daddr geo first.fsb) = nullDfsbno
      ∧ ∃ level, ∀ fuel, level < fuel → ∀ c₀, initExtents geo inode dev fuel c₀
          = some (leafCursor geo dev (fsb2daddr geo first.fsb) c₀) := by
  obtain ⟨⟨hleft, -, -⟩, level, children, hne, hptr, hleaves, hsub⟩ := htree
  obtain ⟨child, others, rfl⟩ := List.exists_cons_of_ne_nil hne
  have hptr : child.1 = geo.ptr0 := by simpa using hptr
  obtain ⟨leaf, more, hmore, hholds, hdown⟩ := initExtentsLoop_leftmost level child.1 child.2
    (hsub child List.mem_cons_self)
  rw [List.flatMap_cons, hmore, List.cons_append, List.cons.injEq] at hleaves
  obtain ⟨rfl, -⟩ := hleaves
  refine ⟨hholds, hleft, level, fun fuel hfuel c₀ => ?_⟩
  rw [initExtents, hfmt]
  simp only
  rw [← hptr, hdown fuel c₀ hfuel]

/-- A file system with blocks of 4096 bytes and groups of 1000 blocks; the root of the
inode points to block 5. -/
def sampleGeometry : Geometry where
  bsize := 4096
  agblocks := 1000
  bdlog := 3
  blklog := 12
  agblklog := 10
  btnodePtr0Off := 2056
  ptr0 := 5

def btreeInode : Inode where
  diFormat := .btree
  diNextents := 1
  diU := fun _ => 0

/-- A device with one leaf, in block 5: no siblings, and one record for two blocks from
block 7 on. -/
def oneLeafDevice : Bytes := fun pos =>
  if pos < 20480 then 0
  else [0x42, 0x4d, 0x41, 0x50, 0, 0, 0, 1, 255, 255, 255, 255, 255, 255, 255, 255,
    255, 255, 255, 255, 255, 255, 255, 255, 0, 0, 0, 0, 0, 0, 0, 0,
    0, 0, 0, 0, 0, 0xe0, 0, 2].getD (pos - 20480) 0

theorem sampleGeometry_valid : sampleGeometry.Valid :=
  ⟨by decide, by decide, by decide, by decide, rfl⟩

theorem oneLeaf_holds : HoldsAt oneLeafDevice 40 [⟨0, 7, 2⟩] := by
  refine ⟨by decide, ?_⟩
  intro i hi
  have hzero : i = 0 := by simpa using hi
  subst hzero
  have hrec : Records oneLeafDevice (diskPos 40 24) ⟨0, 7, 2⟩ :=
    ⟨by decide, 0, by decide, by decide⟩
  exact hrec

theorem oneLeaf_tree : BmapTree sampleGeometry oneLeafDevice [⟨5, [⟨0, 7, 2⟩]⟩] := by
  refine ⟨⟨by decide, by decide, trivial⟩, 0, [(5, [⟨5, [⟨0, 7, 2⟩]⟩])], by simp, rfl, rfl, ?_⟩
  intro c hc
  rw [List.mem_singleton] at hc
  subst hc
  exact ⟨by decide, [⟨0, 7, 2⟩], oneLeaf_holds, rfl⟩

end LiloBoot.XFS
