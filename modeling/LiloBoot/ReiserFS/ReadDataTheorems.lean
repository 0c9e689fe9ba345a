/-
LiloBoot.ReiserFS.ReadDataTheorems — `reiserfs_read_data` delivers the file.

The file is the concatenation of the bodies of its items. From an item that
begins at or before the position, the items behind it come one after the other,
and each turn of the loop copies what the item has of the bytes asked for; the
induction is on the items that are left. `Delivered` is what stays true at every
point: position, buffer and remaining length are those of a prefix of the
request.
-/
import LiloBoot.ReiserFS.ReadData
import LiloBoot.ReiserFS.TreeOrderTheorems

namespace LiloBoot.ReiserFS

/-! ## §1 The file -/

/-- The body of an item: block numbers, 0 for a hole, or bytes. -/
inductive Body where
  | indirect (blocks : List Nat)
  | direct (bytes : List UInt8)

/-- The bytes of the file that the item holds. -/
def Body.size (blocksize : Nat) : Body → Nat
  | .indirect blocks => blocks.length * blocksize
  | .direct bytes => bytes.length

def Body.byte (disk : Nat → Bytes) (blocksize : Nat) (body : Body) (i : Nat) : UInt8 :=
  match body with
  | .indirect blocks =>
    if blocks.getD (i / blocksize) 0 = 0 then 0
    else disk (blocks.getD (i / blocksize) 0) (i % blocksize)
  | .direct bytes => bytes.getD i 0

/-- The byte `i` of the file with these bodies. -/
def fileByte (disk : Nat → Bytes) (blocksize : Nat) : List Body → Nat → UInt8
  | [], _ => 0
  | body :: rest, i =>
    if i < body.size blocksize then body.byte disk blocksize i
    else fileByte disk blocksize rest (i - body.size blocksize)

/-- The length of the file that the bodies make room for. -/
def bodiesSize (blocksize : Nat) (bodies : List Body) : Nat :=
  (bodies.map (Body.size blocksize)).sum

/-- The item has the body: its type, its length, and what stands at its location. -/
def Body.Stored (f : OpenFile) (leaf : Bytes) (ih : Nat) : Body → Prop
  | .indirect blocks =>
    ihKeyIsType f.version leaf ih typeIndirect = true
      ∧ ihItemLen leaf ih = 4 * blocks.length
      ∧ ∀ k < blocks.length, le leaf (ihLocation leaf ih + 4 * k) 4 = blocks.getD k 0
  | .direct bytes =>
    ihKeyIsType f.version leaf ih typeDirect = true
      ∧ ihItemLen leaf ih = bytes.length
      ∧ ∀ k < bytes.length, leaf (ihLocation leaf ih + k) = bytes.getD k 0

/-- The item is of the file and begins at byte `start` of it. -/
structure HasBody (f : OpenFile) (leaf : Bytes) (ih start : Nat) (body : Body) : Prop where
  objectid : (ihKey leaf ih).objectid = f.objectid
  keyOffset : ihKeyOffset f.version leaf ih = start + 1
  stored : body.Stored f leaf ih

/-- The item is the stat data of the file. -/
structure HasStat (f : OpenFile) (leaf : Bytes) (ih : Nat) : Prop where
  objectid : (ihKey leaf ih).objectid = f.objectid
  keyOffset : ihKeyOffset f.version leaf ih = 0
  notIndirect : ihKeyIsType f.version leaf ih typeIndirect = false
  notDirect : ihKeyIsType f.version leaf ih typeDirect = false

/-- Items with the bodies of a file from byte `start` on, without a gap. -/
def Parts (f : OpenFile) (disk : Nat → Bytes) : Nat → List Body → List (Nat × Nat) → Prop
  | _, [], items => items = []
  | _, _ :: _, [] => False
  | start, body :: bodies, item :: items =>
    HasBody f (disk item.1) (itemHead item.2) start body
      ∧ Parts f disk (start + body.size (2 ^ f.tree.blocksizeShift)) bodies items

/-- The reads of data deliver what is asked for inside a block. -/
def ReadsData (read : DataRead) (disk : Nat → Bytes) (blocksize : Nat) : Prop :=
  ∀ k block start n, start + n ≤ blocksize →
    (read k block start n).1 = n ∧ ∀ i < n, (read k block start n).2 i = disk block (start + i)

/-! ## §2 A prefix of the request -/

/-- The first `s.stored` bytes of a request at `pos` for `len` bytes have been delivered. -/
structure Delivered (content : Nat → UInt8) (pos len : Nat) (s : ReadState) : Prop where
  total : s.stored + s.len = len
  position : s.pos = pos + s.stored
  buf : s.buf = Buffer.filled s.stored fun i => content (pos + i)

variable {io : NodeRead} {read : DataRead} {f : OpenFile} {disk : Nat → Bytes}
  {content : Nat → UInt8} {pos len : Nat} {s : ReadState}

/-- Storing the next bytes. -/
theorem Delivered.store (h : Delivered content pos len s) (hend : pos + len < 2 ^ 32) {n : Nat}
    (hn : n ≤ s.len) {g : Nat → UInt8} (hg : ∀ i < n, g i = content (s.pos + i)) (k : Nat) :
    Delivered content pos len
      (updateBufLen n { s with buf := s.buf.store s.stored n g, dataReads := k }) := by
  have htotal := h.total
  have hpos := h.position
  have hlen : sub32 s.len n = s.len - n := sub32_of_le hn (by omega)
  refine ⟨?_, ?_, ?_⟩
  · show s.stored + n + sub32 s.len n = len
    rw [hlen]
    omega
  · show u64 (s.pos + n) = pos + (s.stored + n)
    rw [u64_of_lt (by omega)]
    omega
  · show s.buf.store s.stored n g = _
    rw [h.buf]
    refine Buffer.store_filled fun i hi => ?_
    rw [hg i hi, hpos]
    congr 1
    omega

theorem le_bound (bytes : Bytes) (size : Nat) : ∀ pos, le bytes pos size < 256 ^ size := by
  induction size with
  | zero => exact fun _ => Nat.one_pos
  | succ size ih =>
    intro pos
    have hrest := ih (pos + 1)
    have hbyte := (bytes pos).toNat_lt
    rw [le, Nat.pow_succ]
    omega

/-- An item has one type. -/
theorem not_both_types {version : Nat} {leaf : Bytes} {ih : Nat}
    (h : ihKeyIsType version leaf ih typeIndirect = true) :
    ihKeyIsType version leaf ih typeDirect = false := by
  rw [ihKeyIsType] at h ⊢
  split at h
  · rename_i hold
    rw [if_pos hold]
    have h : (ihKey leaf ih).uniqueness = 0xfffffffe := of_decide_eq_true h
    rw [h]
    rfl
  · rename_i hnew
    rw [if_neg hnew]
    have h : offsetV2 (ihKey leaf ih) / 2 ^ 60 = 1 := of_decide_eq_true h
    rw [h]
    rfl

/-! ## §3 One item -/

/-- What a turn of the main loop has done for an item that ends at byte `last` of the file:
either the request is complete, or all bytes of the item before `last` are there. -/
structure Turned (content : Nat → UInt8) (pos len last : Nat) (s : ReadState) (done : Bool)
    (t : ReadState) : Prop where
  delivered : Delivered content pos len t
  tree : t.tree = s.tree
  complete : done = true → t.len = 0
  more : done = false → 0 < t.len ∧ last ≤ t.pos

/-- A part of a block, or of a hole. -/
theorem readOrClear_spec (hread : ReadsData read disk (2 ^ f.tree.blocksizeShift))
    (blocknr : Nat) {blkOffset n : Nat} (hn : blkOffset + n ≤ 2 ^ f.tree.blocksizeShift) :
    ∃ g k, readOrClear read blocknr blkOffset n s
        = { s with buf := s.buf.store s.stored n g, dataReads := k }
      ∧ ∀ i < n, g i = if blocknr = 0 then 0 else disk blocknr (blkOffset + i) := by
  by_cases hzero : blocknr = 0
  · refine ⟨fun _ => 0, s.dataReads, ?_, fun i _ => (if_pos hzero).symm⟩
    rw [readOrClear, if_neg (not_not_intro hzero)]
  · obtain ⟨hcount, hbytes⟩ := hread s.dataReads blocknr blkOffset n hn
    refine ⟨(read s.dataReads blocknr blkOffset n).2, s.dataReads + 1, ?_, fun i hi => ?_⟩
    · rw [readOrClear, if_pos hzero]
      simp only [hcount]
    · rw [hbytes i hi, if_neg hzero]

/-- The bytes of an item inside one block. -/
theorem indirect_byte {blocks : List Nat} {blocksize offset i : Nat}
    (hi : offset % blocksize + i < blocksize) :
    (Body.indirect blocks).byte disk blocksize (offset + i)
      = if blocks.getD (offset / blocksize) 0 = 0 then 0
        else disk (blocks.getD (offset / blocksize) 0) (offset % blocksize + i) := by
  have hdiv := Nat.div_add_mod offset blocksize
  have hsplit : offset + i = offset % blocksize + i + blocksize * (offset / blocksize) := by omega
  rw [Body.byte, hsplit, Nat.add_mul_div_left _ _ (by omega), Nat.div_eq_of_lt hi, Nat.zero_add,
    Nat.add_mul_mod_self_left, Nat.mod_eq_of_lt hi]

/-- The loop over the blocks of an indirect item. -/
theorem readBlocks_spec {blocksize start : Nat} {blocks : List Nat}
    (hend : pos + len < 2 ^ 32) (hread : ReadsData read disk (2 ^ f.tree.blocksizeShift))
    (hsize : blocksize = blocks.length * 2 ^ f.tree.blocksizeShift) (hsize32 : blocksize < 2 ^ 32)
    (hcontent : ∀ i < blocksize, content (start + i)
      = (Body.indirect blocks).byte disk (2 ^ f.tree.blocksizeShift) i)
    (fuel : Nat) : ∀ {offset : Nat} {s : ReadState}, Delivered content pos len s → 0 < s.len →
    s.pos = start + offset → offset ≤ blocksize → blocksize < offset + fuel →
    (∀ k < blocks.length, le s.leaf (s.tree.currentItem + 4 * k) 4 = blocks.getD k 0) →
    ∃ done t, readBlocks read f.tree.blocksizeShift blocksize fuel offset s = some (done, t)
      ∧ Turned content pos len (start + blocksize) s done t := by
  induction fuel with
  | zero =>
    intro offset s _ _ _ hle hfuel
    omega
  | succ fuel ih =>
    intro offset s hs hlen hpos hle hfuel hblocks
    rw [readBlocks]
    by_cases hlt : offset < blocksize
    swap
    · rw [if_neg hlt]
      exact ⟨false, s, rfl, hs, rfl, fun h => (by cases h), fun _ => ⟨hlen, by omega⟩⟩
    rw [if_pos hlt]
    have htotal := hs.total
    have hposition := hs.position
    have hbs : 0 < 2 ^ f.tree.blocksizeShift := Nat.two_pow_pos _
    have hindex : offset / 2 ^ f.tree.blocksizeShift < blocks.length :=
      (Nat.div_lt_iff_lt_mul hbs).mpr (by rw [← hsize]; exact hlt)
    have hmod := Nat.mod_lt offset hbs
    have hdiv := Nat.div_add_mod offset (2 ^ f.tree.blocksizeShift)
    have hnext : 2 ^ f.tree.blocksizeShift * (offset / 2 ^ f.tree.blocksizeShift)
        + 2 ^ f.tree.blocksizeShift ≤ blocksize := by
      rw [hsize, Nat.mul_comm, ← Nat.succ_mul]
      exact Nat.mul_le_mul_right _ hindex
    simp only [Nat.shiftRight_eq_div_pow, Nat.and_two_pow_sub_one_eq_mod, hblocks _ hindex]
    obtain ⟨n, hn⟩ : ∃ n, n = if 2 ^ f.tree.blocksizeShift - offset % 2 ^ f.tree.blocksizeShift
        > s.len then s.len else 2 ^ f.tree.blocksizeShift - offset % 2 ^ f.tree.blocksizeShift :=
      ⟨_, rfl⟩
    rw [← hn]
    have hnlen : n ≤ s.len := by
      rw [hn]
      split <;> omega
    have hnblock : offset % 2 ^ f.tree.blocksizeShift + n ≤ 2 ^ f.tree.blocksizeShift := by
      rw [hn]
      split <;> omega
    obtain ⟨g, k, hclear, hg⟩ := @readOrClear_spec read f disk s hread
      (blocks.getD (offset / 2 ^ f.tree.blocksizeShift) 0) _ n hnblock
    have hnow : Delivered content pos len (updateBufLen n
        { s with buf := s.buf.store s.stored n g, dataReads := k }) := by
      refine hs.store hend hnlen (fun i hi => ?_) k
      rw [hg i hi, hpos, Nat.add_assoc, hcontent (offset + i) (by omega),
        indirect_byte (by omega)]
    rw [hclear]
    obtain ⟨t, ht⟩ : ∃ t, t = updateBufLen n
        { s with buf := s.buf.store s.stored n g, dataReads := k } := ⟨_, rfl⟩
    have htlen : t.len = s.len - n := by
      rw [ht]
      show sub32 s.len n = s.len - n
      exact sub32_of_le hnlen (by omega)
    have htpos : t.pos = s.pos + n := by
      rw [ht]
      show u64 (s.pos + n) = s.pos + n
      exact u64_of_lt (by omega)
    have httree : t.tree = s.tree := by rw [ht]; rfl
    rw [← ht] at hnow ⊢
    by_cases hzero : t.len = 0
    · rw [if_pos hzero]
      exact ⟨true, t, rfl, hnow, httree, fun _ => hzero, fun h => (by cases h)⟩
    · rw [if_neg hzero]
      have hnfull : n = 2 ^ f.tree.blocksizeShift - offset % 2 ^ f.tree.blocksizeShift := by
        rw [hn]
        split
        · rename_i hbig
          rw [if_pos hbig] at hn
          omega
        · rfl
      rw [u32_of_lt (by omega)]
      obtain ⟨done, t', hrun, hturn⟩ := @ih (offset + n) t hnow (by omega) (by omega) (by omega)
        (by omega) (by rw [ReadState.leaf, httree]; exact hblocks)
      exact ⟨done, t', hrun, hturn.delivered, hturn.tree.trans httree, hturn.complete, hturn.more⟩

/-- The offset that the loop computes from the position and the key. -/
theorem offset_eq {position keyOffset : Nat} (hle : keyOffset ≤ position + 1)
    (hlt : position + 1 < 2 ^ 32) :
    u32 (u64 (sub64 position keyOffset + 1)) = position + 1 - keyOffset := by
  simp only [u32, u64, sub64]
  omega

theorem readBlocks_past {shift blocksize fuel offset : Nat} (h : blocksize ≤ offset) :
    readBlocks read shift blocksize (fuel + 1) offset s = some (false, s) := by
  rw [readBlocks, if_neg (Nat.not_lt_of_le h)]

/-- An item that ends at or before the position is passed over. -/
theorem Delivered.passed (hs : Delivered content pos len s) (hlen : 0 < s.len) {last : Nat}
    (hlast : last ≤ s.pos) : Turned content pos len last s false s :=
  ⟨hs, rfl, fun h => (by cases h), fun _ => ⟨hlen, hlast⟩⟩

/-- **One turn of the main loop** at an item that begins at or before the position. -/
theorem readItem_spec {item : Nat × Nat} {start fuel : Nat} {body : Body}
    (hend : pos + len < 2 ^ 32) (hshift : f.tree.blocksizeShift ≤ 13)
    (hread : ReadsData read disk (2 ^ f.tree.blocksizeShift))
    (hbody : HasBody f (disk item.1) (itemHead item.2) start body)
    (hon : On disk item s.tree)
    (hcontent : ∀ i < body.size (2 ^ f.tree.blocksizeShift),
      content (start + i) = body.byte disk (2 ^ f.tree.blocksizeShift) i)
    (hs : Delivered content pos len s) (hlen : 0 < s.len) (hpos : start ≤ s.pos) :
    ∃ done t, readItem read f (fuel + 1) s = some (done, t)
      ∧ Turned content pos len (start + body.size (2 ^ f.tree.blocksizeShift)) s done t := by
  obtain ⟨hleaf, hih, hitem⟩ := hon
  have hleaf : s.leaf = disk item.1 := hleaf
  have htotal := hs.total
  have hposition := hs.position
  have hoffset : u32 (u64 (sub64 s.pos (start + 1) + 1)) = s.pos - start := by
    rw [offset_eq (by omega) (by omega)]
    omega
  have hitemLen := le_bound (disk item.1) 2 (itemHead item.2 + 18)
  simp only [readItem, hih, hleaf, hbody.keyOffset, hoffset, hitem]
  cases body with
  | direct bytes =>
    obtain ⟨htype, hcount, hbytes⟩ := hbody.stored
    have hcount32 : bytes.length < 2 ^ 16 := by rw [← hcount]; exact hitemLen
    have hnot : ihKeyIsType f.version (disk item.1) (itemHead item.2) typeIndirect = false := by
      by_contra hboth
      rw [not_both_types (Bool.not_eq_false _ ▸ hboth)] at htype
      cases htype
    have hsize : (Body.direct bytes).size (2 ^ f.tree.blocksizeShift) = bytes.length := rfl
    rw [hsize] at hcontent ⊢
    simp only [htype, hcount, true_and, hnot, Bool.false_eq_true, if_false]
    by_cases hlt : s.pos - start < bytes.length
    swap
    · rw [if_neg hlt]
      exact ⟨false, s, rfl, hs.passed hlen (by omega)⟩
    rw [if_pos hlt]
    obtain ⟨n, hn⟩ : ∃ n, n = if bytes.length - (s.pos - start) > s.len then s.len
        else bytes.length - (s.pos - start) := ⟨_, rfl⟩
    rw [← hn]
    have hnlen : n ≤ s.len := by
      rw [hn]
      split <;> omega
    have hnitem : s.pos - start + n ≤ bytes.length := by
      rw [hn]
      split <;> omega
    obtain ⟨g, hg⟩ : ∃ g : Bytes, g = fun i =>
        disk item.1 (ihLocation (disk item.1) (itemHead item.2) + (s.pos - start) + i) := ⟨_, rfl⟩
    obtain ⟨t, ht⟩ : ∃ t, t = updateBufLen n { s with buf := s.buf.store s.stored n g } := ⟨_, rfl⟩
    have hnow : Delivered content pos len t := by
      rw [ht]
      refine hs.store hend hnlen (fun i hi => ?_) s.dataReads
      rw [hg]
      simp only
      rw [Nat.add_assoc, hbytes _ (by omega)]
      have hat := hcontent (s.pos - start + i) (by omega)
      rw [show s.pos + i = start + (s.pos - start + i) by omega, hat]
      rfl
    have htlen : t.len = s.len - n := by
      rw [ht]
      show sub32 s.len n = s.len - n
      exact sub32_of_le hnlen (by omega)
    have htpos : t.pos = s.pos + n := by
      rw [ht]
      show u64 (s.pos + n) = s.pos + n
      exact u64_of_lt (by omega)
    have httree : t.tree = s.tree := by rw [ht]; rfl
    rw [← hg, ← ht]
    by_cases hzero : t.len = 0
    · rw [if_pos hzero]
      exact ⟨true, t, rfl, hnow, httree, fun _ => hzero, fun h => (by cases h)⟩
    · have hnfull : n = bytes.length - (s.pos - start) := by
        rw [hn]
        split
        · rename_i hbig
          rw [if_pos hbig] at hn
          omega
        · rfl
      rw [if_neg hzero, u32_of_lt (by omega), readBlocks_past (by omega)]
      exact ⟨false, t, rfl, hnow, httree, fun h => (by cases h), fun _ => ⟨by omega, by omega⟩⟩
  | indirect blocks =>
    obtain ⟨htype, hcount, hblocks⟩ := hbody.stored
    have hcount32 : 4 * blocks.length < 2 ^ 16 := by rw [← hcount]; exact hitemLen
    have hbs : 2 ^ f.tree.blocksizeShift ≤ 2 ^ 13 := Nat.pow_le_pow_right (by decide) hshift
    have hroom : blocks.length * 2 ^ f.tree.blocksizeShift < 2 ^ 32 :=
      Nat.lt_of_le_of_lt (Nat.mul_le_mul_left _ hbs) (by omega)
    have hsize : u32 ((4 * blocks.length) >>> 2 <<< f.tree.blocksizeShift)
        = blocks.length * 2 ^ f.tree.blocksizeShift := by
      rw [Nat.shiftRight_eq_div_pow, Nat.mul_div_cancel_left _ (by decide), Nat.shiftLeft_eq,
        u32_of_lt hroom]
    have hbody : (Body.indirect blocks).size (2 ^ f.tree.blocksizeShift)
        = blocks.length * 2 ^ f.tree.blocksizeShift := rfl
    rw [hbody] at hcontent ⊢
    simp only [not_both_types htype, htype, hcount, hsize, Bool.false_eq_true, false_and,
      if_false, if_true]
    rcases Nat.lt_or_ge (s.pos - start) (blocks.length * 2 ^ f.tree.blocksizeShift) with hlt | hge
    · refine readBlocks_spec hend hread rfl hroom hcontent _ hs hlen (by omega)
        (Nat.le_of_lt hlt) (by omega) ?_
      rw [hleaf, hitem]
      exact hblocks
    · rw [readBlocks_past hge]
      exact ⟨false, s, rfl, hs.passed hlen (by omega)⟩

/-! ## §4 `errnum` -/

section Errnum

variable {info : TreeInfo} {t : TreeState}

/-- A node that is returned leaves no error. -/
theorem readTreeNode_errnum {blockNr depth slot : Nat} {t' : TreeState}
    (h : readTreeNode io info blockNr depth t = (t', some slot)) : t'.errnum = 0 := by
  by_cases hhit : depth < info.cachedSlots ∧ blockNr = t.blocks depth
  · simp only [readTreeNode, hhit.1, hhit.2, and_self, if_true] at h
    cases h
    rfl
  · simp only [readTreeNode, hhit, if_false] at h
    generalize (if depth < info.cachedSlots then depth else info.cachedSlots) = slot' at h
    by_cases hzero : (io t.reads blockNr (t.slots slot')).1 = 0
    · rw [if_pos hzero] at h
      cases h
    · rw [if_neg hzero] at h
      by_cases hlevel : blkhLevel (io t.reads blockNr (t.slots slot')).2 ≠ depth
      · rw [if_pos hlevel] at h
        cases h
      · rw [if_neg hlevel] at h
        cases h
        rfl

theorem descend_errnum (depth : Nat) : ∀ {slot : Nat} {t t' : TreeState},
    descend io info depth slot t = (t', true) → t'.errnum = 0 := by
  induction depth with
  | zero =>
    intro slot t t' h
    cases h
  | succ depth ih =>
    intro slot t t' h
    rw [descend] at h
    split at h
    · cases h
    · rename_i t₁ slot' hnode
      split at h
      · exact ih h
      · cases h
        exact readTreeNode_errnum hnode

theorem nextKey_errnum (hsome : (nextKey io info t).2 = true) (hzero : t.errnum = 0) :
    (nextKey io info t).1.errnum = 0 := by
  rcases hres : nextKey io info t with ⟨t', ok⟩
  rw [hres] at hsome
  cases hsome
  show t'.errnum = 0
  simp only [nextKey] at hres
  split at hres
  · split at hres
    · cases hres
      exact hzero
    · split at hres
      · cases hres
      · split at hres
        · cases hres
        · rename_i hdescend
          have hleaf := descend_errnum _ hdescend
          cases hres
          exact hleaf
  · cases hres
    exact hzero

theorem searchDown_errnum {dirId objectid : Nat} (depth : Nat) : ∀ {slot : Nat} {t t' : TreeState},
    t.errnum = 0 → searchDown io info dirId objectid depth slot t = (t', true) →
      t'.errnum = 0 := by
  induction depth with
  | zero =>
    intro slot t t' hzero h
    cases h
    exact hzero
  | succ depth ih =>
    intro slot t t' hzero h
    rw [searchDown] at h
    split at h
    · cases h
      exact hzero
    · simp only at h
      split at h
      · cases h
      · rename_i hnode
        exact ih (readTreeNode_errnum hnode) h

theorem searchStat_errnum {dirId objectid : Nat}
    (hsome : (searchStat io info dirId objectid t).2 = true) :
    (searchStat io info dirId objectid t).1.errnum = 0 := by
  rcases hres : searchStat io info dirId objectid t with ⟨t', ok⟩
  rw [hres] at hsome
  cases hsome
  show t'.errnum = 0
  simp only [searchStat] at hres
  split at hres
  · cases hres
  · rename_i hdown
    have hleaf := searchDown_errnum _ rfl hdown
    split at hres
    · cases hres
      exact hleaf
    · cases hres

end Errnum

/-! ## §5 The file from an item on -/

theorem bodiesSize_cons (blocksize : Nat) (body : Body) (bodies : List Body) :
    bodiesSize blocksize (body :: bodies) = body.size blocksize + bodiesSize blocksize bodies := by
  simp [bodiesSize]

theorem fileByte_first {blocksize : Nat} {body : Body} {bodies : List Body} {i : Nat}
    (hi : i < body.size blocksize) :
    fileByte disk blocksize (body :: bodies) i = body.byte disk blocksize i := by
  rw [fileByte, if_pos hi]

theorem fileByte_rest (blocksize : Nat) (body : Body) (bodies : List Body) (i : Nat) :
    fileByte disk blocksize (body :: bodies) (body.size blocksize + i)
      = fileByte disk blocksize bodies i := by
  rw [fileByte, if_neg (by omega), Nat.add_sub_cancel_left]

/-- A turn of the loop that does not leave it. -/
theorem readLoop_turn {fuel : Nat} {done : Bool} {t : ReadState} (herr : s.tree.errnum = 0)
    (hobject : (ihKey s.leaf s.tree.currentIh).objectid = f.objectid)
    (hturn : readItem read f (fuel + 1) s = some (done, t)) :
    readLoop io read f (fuel + 1) s
      = if done = true then some t else readLoop io read f fuel (getNextKey io f t) := by
  rw [readLoop, if_neg (not_not_intro herr), if_neg (not_not_intro hobject), hturn]
  cases done with
  | true => rfl
  | false => rfl

/-- What the request has become when the loop is left. -/
def Complete (content : Nat → UInt8) (pos len : Nat) (t : ReadState) : Prop :=
  Delivered content pos len t ∧ t.len = 0 ∧ t.tree.errnum = 0

/-- The loop at an item of the file with the bodies behind it: it leaves with the request
complete, or comes to the next item. -/
theorem readLoop_item {rest : List (Nat × Nat)} (hend : pos + len < 2 ^ 32)
    (hshift : f.tree.blocksizeShift ≤ 13) (hread : ReadsData read disk (2 ^ f.tree.blocksizeShift))
    (bodies : List Body) : ∀ {body : Body} {item : Nat × Nat} {items : List (Nat × Nat)}
    {start fuel : Nat} {s : ReadState},
    Parts f disk start (body :: bodies) (item :: items) → On disk item s.tree →
    Visits io f.tree disk (items ++ rest) s.tree → s.tree.errnum = 0 →
    (∀ i, content (start + i) = fileByte disk (2 ^ f.tree.blocksizeShift) (body :: bodies) i) →
    Delivered content pos len s → 0 < s.len → start ≤ s.pos →
    pos + len ≤ start + bodiesSize (2 ^ f.tree.blocksizeShift) (body :: bodies) →
    items.length < fuel →
    ∃ t, readLoop io read f fuel s = some t ∧ Complete content pos len t := by
  induction bodies with
  | nil =>
    intro body item items start fuel s hparts hon hvisits herr hcontent hs hlen hpos hcover hfuel
    obtain ⟨fuel, rfl⟩ : ∃ k, fuel = k + 1 := ⟨fuel - 1, by omega⟩
    obtain ⟨done, t, hturn, ht⟩ := @readItem_spec read f disk content pos len s item start fuel body
      hend hshift hread hparts.1 hon
      (fun i hi => (hcontent i).trans (fileByte_first hi)) hs hlen hpos
    have hobject : (ihKey s.leaf s.tree.currentIh).objectid = f.objectid := by
      rw [ReadState.leaf, hon.1, hon.2.1]
      exact hparts.1.objectid
    rw [readLoop_turn herr hobject hturn]
    cases done with
    | true => exact ⟨t, rfl, ht.delivered, ht.complete rfl, by rw [ht.tree]; exact herr⟩
    | false =>
      -- behind the last item nothing is asked for
      obtain ⟨hmore, hlast⟩ := ht.more rfl
      have htotal := ht.delivered.total
      have hposition := ht.delivered.position
      rw [bodiesSize_cons, bodiesSize, List.map_nil, List.sum_nil] at hcover
      omega
  | cons body' bodies ih =>
    intro body item items start fuel s hparts hon hvisits herr hcontent hs hlen hpos hcover hfuel
    obtain ⟨fuel, rfl⟩ : ∃ k, fuel = k + 1 := ⟨fuel - 1, by omega⟩
    obtain ⟨done, t, hturn, ht⟩ := @readItem_spec read f disk content pos len s item start fuel body
      hend hshift hread hparts.1 hon
      (fun i hi => (hcontent i).trans (fileByte_first hi)) hs hlen hpos
    have hobject : (ihKey s.leaf s.tree.currentIh).objectid = f.objectid := by
      rw [ReadState.leaf, hon.1, hon.2.1]
      exact hparts.1.objectid
    rw [readLoop_turn herr hobject hturn]
    cases done with
    | true => exact ⟨t, rfl, ht.delivered, ht.complete rfl, by rw [ht.tree]; exact herr⟩
    | false =>
      obtain ⟨hmore, hlast⟩ := ht.more rfl
      cases items with
      | nil => exact absurd hparts.2 id
      | cons item' items =>
        rw [List.cons_append, Visits] at hvisits
        obtain ⟨hok, hon', hvisits'⟩ := hvisits
        rw [bodiesSize_cons] at hcover
        rw [List.length_cons] at hfuel
        have hnext : (getNextKey io f t).tree = (nextKey io f.tree s.tree).1 := by
          rw [getNextKey, ht.tree]
        refine ih hparts.2 (by rw [hnext]; exact hon') (by rw [hnext]; exact hvisits')
          (by rw [hnext]; exact nextKey_errnum hok herr) (fun i => ?_)
          ⟨ht.delivered.total, ht.delivered.position, ht.delivered.buf⟩ hmore hlast (by omega)
          (by omega)
        rw [Nat.add_assoc, hcontent, fileByte_rest]

/-! ## §6 The file from any cursor -/

theorem fileByte_append (blocksize : Nat) (front : List Body) : ∀ (bodies : List Body) (i : Nat),
    fileByte disk blocksize (front ++ bodies) (bodiesSize blocksize front + i)
      = fileByte disk blocksize bodies i := by
  induction front with
  | nil =>
    intro bodies i
    rw [bodiesSize, List.map_nil, List.sum_nil, Nat.zero_add, List.nil_append]
  | cons body front ih =>
    intro bodies i
    rw [bodiesSize_cons, List.cons_append, Nat.add_assoc, fileByte_rest, ih]

theorem bodiesSize_append (blocksize : Nat) (front bodies : List Body) :
    bodiesSize blocksize (front ++ bodies)
      = bodiesSize blocksize front + bodiesSize blocksize bodies := by
  simp [bodiesSize]

/-- The bodies from an item of the file on. -/
theorem Parts.from_item {item : Nat × Nat} {after : List (Nat × Nat)} (before : List (Nat × Nat)) :
    ∀ {start : Nat} {bodies : List Body}, Parts f disk start bodies (before ++ item :: after) →
    ∃ front body back, bodies = front ++ body :: back
      ∧ Parts f disk (start + bodiesSize (2 ^ f.tree.blocksizeShift) front) (body :: back)
        (item :: after) := by
  induction before with
  | nil =>
    intro start bodies h
    cases bodies with
    | nil => cases h
    | cons body back => exact ⟨[], body, back, rfl, h⟩
  | cons first before ih =>
    intro start bodies h
    cases bodies with
    | nil => cases h
    | cons body bodies =>
      obtain ⟨front, body', back, rfl, hparts⟩ := ih h.2
      refine ⟨body :: front, body', back, rfl, ?_⟩
      rwa [bodiesSize_cons, ← Nat.add_assoc]

/-- The loop does nothing with the stat data. -/
theorem readItem_stat {item : Nat × Nat} {fuel : Nat}
    (hstat : HasStat f (disk item.1) (itemHead item.2)) (hon : On disk item s.tree) :
    readItem read f fuel s = some (false, s) := by
  have hleaf : s.leaf = disk item.1 := hon.1
  simp only [readItem, hleaf, hon.2.1, hstat.notDirect, hstat.notIndirect, Bool.false_eq_true,
    false_and, if_false]

/-- A file on the disk: its stat data, and the items with its bodies. -/
structure FileOnDisk (f : OpenFile) (disk : Nat → Bytes) (bodies : List Body) (stat : Nat × Nat)
    (items : List (Nat × Nat)) : Prop where
  stat : HasStat f (disk stat.1) (itemHead stat.2)
  items : Parts f disk 0 bodies items

/-- `search_stat` and `next_key` enumerate the tree from the stat data of the file on: the
items of the file, and then the rest. -/
structure Enumerates (io : NodeRead) (f : OpenFile) (disk : Nat → Bytes) (stat : Nat × Nat)
    (items rest : List (Nat × Nat)) (s : TreeState) : Prop where
  found : (searchStat io f.tree f.dirId f.objectid s).2 = true
  on : On disk stat (searchStat io f.tree f.dirId f.objectid s).1
  visits : Visits io f.tree disk (items ++ rest) (searchStat io f.tree f.dirId f.objectid s).1

/-- The cursor stands on an item of another object, or on one of this file, from where
`next_key` goes on in the enumeration. -/
def Cursor (io : NodeRead) (f : OpenFile) (disk : Nat → Bytes) (stat : Nat × Nat)
    (items rest : List (Nat × Nat)) (s : TreeState) : Prop :=
  (ihKey (s.slots 1) s.currentIh).objectid ≠ f.objectid
    ∨ ∃ before item after, stat :: items = before ++ item :: after ∧ On disk item s
      ∧ Visits io f.tree disk (after ++ rest) s

variable {bodies : List Body} {stat : Nat × Nat} {items rest : List (Nat × Nat)} {tree : TreeState}

/-- What `reiserfs_read_data` starts its loop with has delivered nothing. -/
theorem delivered_none (content : Nat → UInt8) (pos len : Nat) (tree : TreeState) :
    Delivered content pos len ⟨tree, pos, len, 0, fun _ => none, 0⟩ :=
  ⟨Nat.zero_add len, rfl, (Buffer.filled_zero _).symm⟩

/-- From the item before the first body: `next_key` comes to it. -/
theorem readLoop_first {fuel : Nat} (hend : pos + len < 2 ^ 32)
    (hshift : f.tree.blocksizeShift ≤ 13) (hread : ReadsData read disk (2 ^ f.tree.blocksizeShift))
    (hparts : Parts f disk 0 bodies items)
    (hcover : pos + len ≤ bodiesSize (2 ^ f.tree.blocksizeShift) bodies)
    (hvisits : Visits io f.tree disk (items ++ rest) s.tree) (herr : s.tree.errnum = 0)
    (hs : Delivered (fileByte disk (2 ^ f.tree.blocksizeShift) bodies) pos len s) (hlen : 0 < s.len)
    (hfuel : items.length < fuel) :
    ∃ t, readLoop io read f fuel (getNextKey io f s) = some t
      ∧ Complete (fileByte disk (2 ^ f.tree.blocksizeShift) bodies) pos len t := by
  have htotal := hs.total
  have hposition := hs.position
  cases bodies with
  | nil =>
    rw [bodiesSize, List.map_nil, List.sum_nil] at hcover
    omega
  | cons body bodies =>
    cases items with
    | nil => exact absurd hparts id
    | cons item items =>
      rw [List.cons_append, Visits] at hvisits
      obtain ⟨hok, hon, hvisits⟩ := hvisits
      rw [List.length_cons] at hfuel
      exact readLoop_item hend hshift hread bodies hparts hon hvisits (nextKey_errnum hok herr)
        (fun i => by rw [Nat.zero_add]) ⟨hs.total, hs.position, hs.buf⟩ hlen (Nat.zero_le _)
        (by omega) (by omega)

/-- From an item of the file, or its stat data, that begins at or before the position. -/
theorem readLoop_cursor {before after : List (Nat × Nat)} {item : Nat × Nat} {fuel : Nat}
    (hend : pos + len < 2 ^ 32) (hshift : f.tree.blocksizeShift ≤ 13)
    (hread : ReadsData read disk (2 ^ f.tree.blocksizeShift))
    (hfile : FileOnDisk f disk bodies stat items)
    (hcover : pos + len ≤ bodiesSize (2 ^ f.tree.blocksizeShift) bodies)
    (hat : stat :: items = before ++ item :: after) (hon : On disk item s.tree)
    (hvisits : Visits io f.tree disk (after ++ rest) s.tree) (herr : s.tree.errnum = 0)
    (hkey : ihKeyOffset f.version s.leaf s.tree.currentIh ≤ s.pos + 1)
    (hs : Delivered (fileByte disk (2 ^ f.tree.blocksizeShift) bodies) pos len s) (hlen : 0 < s.len)
    (hfuel : items.length + 1 < fuel) :
    ∃ t, readLoop io read f fuel s = some t
      ∧ Complete (fileByte disk (2 ^ f.tree.blocksizeShift) bodies) pos len t := by
  have hleaf : s.leaf = disk item.1 := hon.1
  cases before with
  | nil =>
    obtain ⟨rfl, rfl⟩ := List.cons.inj hat
    obtain ⟨fuel, rfl⟩ : ∃ k, fuel = k + 1 := ⟨fuel - 1, by omega⟩
    have hobject : (ihKey s.leaf s.tree.currentIh).objectid = f.objectid := by
      rw [hleaf, hon.2.1]
      exact hfile.stat.objectid
    rw [readLoop_turn herr hobject (readItem_stat hfile.stat hon)]
    exact readLoop_first hend hshift hread hfile.items hcover hvisits herr hs hlen (by omega)
  | cons first before =>
    obtain ⟨rfl, hitems⟩ := List.cons.inj hat
    have hitems : items = before ++ item :: after := hitems
    have hall := hfile.items
    rw [hitems] at hall
    obtain ⟨front, body, back, rfl, hparts⟩ := hall.from_item
    rw [Nat.zero_add] at hparts
    rw [hleaf, hon.2.1, hparts.1.keyOffset] at hkey
    rw [bodiesSize_append] at hcover
    have hlength := congrArg List.length hitems
    rw [List.length_append, List.length_cons] at hlength
    exact readLoop_item hend hshift hread back hparts hon hvisits herr
      (fileByte_append _ front (body :: back)) hs hlen (by omega) hcover (by omega)

/-- **`reiserfs_read_data` delivers the bytes of the file**: wherever the cursor stands, the
`len` bytes from the position on are in the buffer, and the position is behind them. -/
theorem reiserfsReadData_file {size fuel : Nat} (hshift : f.tree.blocksizeShift ≤ 13)
    (hread : ReadsData read disk (2 ^ f.tree.blocksizeShift))
    (hfile : FileOnDisk f disk bodies stat items) (hsize : size < 2 ^ 32)
    (hcover : size ≤ bodiesSize (2 ^ f.tree.blocksizeShift) bodies)
    (henum : Enumerates io f disk stat items rest tree)
    (hcursor : Cursor io f disk stat items rest { tree with errnum := 0 })
    (hlen : 1 ≤ len) (hend : pos + len ≤ size) (hfuel : items.length + 1 < fuel) :
    ∃ t, reiserfsReadData io read f fuel len pos tree = some (len, t)
      ∧ t.pos = pos + len
      ∧ t.buf = Buffer.filled len fun i =>
          fileByte disk (2 ^ f.tree.blocksizeShift) bodies (pos + i) := by
  have hend32 : pos + len < 2 ^ 32 := by omega
  obtain ⟨s, hs⟩ : ∃ s : ReadState, s = ⟨{ tree with errnum := 0 }, pos, len, 0, fun _ => none, 0⟩ :=
    ⟨_, rfl⟩
  -- the loop completes the request, whether or not the file is looked up again
  have hloop : ∃ t, readLoop io read f fuel
        (if (ihKey s.leaf s.tree.currentIh).objectid ≠ f.objectid
            ∨ ihKeyOffset f.version s.leaf s.tree.currentIh > u64 (s.pos + 1) then
          getNextKey io f { s with tree := (searchStat io f.tree f.dirId f.objectid s.tree).1 }
        else s) = some t
      ∧ Complete (fileByte disk (2 ^ f.tree.blocksizeShift) bodies) pos len t := by
    split
    · have hsearch : searchStat io f.tree f.dirId f.objectid s.tree
          = searchStat io f.tree f.dirId f.objectid tree := by
        rw [hs]
        rfl
      rw [hsearch]
      refine readLoop_first hend32 hshift hread hfile.items (by omega) henum.visits
        (searchStat_errnum henum.found) ?_ (by rw [hs]; exact hlen) (by omega)
      rw [hs]
      exact delivered_none _ pos len _
    · rename_i hstay
      rw [not_or, Decidable.not_not] at hstay
      have hpos : s.pos = pos := by rw [hs]
      have hkey := hstay.2
      rw [hpos, u64_of_lt (by omega), ← hpos] at hkey
      rcases hcursor with hother | ⟨before, item, after, hat, hon, hvisits⟩
      · refine absurd ?_ hother
        rw [← hstay.1, hs]
        rfl
      · have htree : s.tree = { tree with errnum := 0 } := by rw [hs]
        rw [← htree] at hon hvisits
        refine readLoop_cursor hend32 hshift hread hfile (by omega) hat hon hvisits
          (by rw [htree]) (Nat.le_of_not_lt hkey) ?_ (by rw [hs]; exact hlen) hfuel
        rw [hs]
        exact delivered_none _ pos len _
  obtain ⟨t, ht, hdelivered, hzero, herr⟩ := hloop
  have htotal := hdelivered.total
  have hstored : t.stored = len := by omega
  refine ⟨t, ?_, by rw [hdelivered.position, hstored], by rw [hdelivered.buf, hstored]⟩
  rw [hs] at ht
  rw [reiserfsReadData, ht, Option.map_some, if_neg (not_not_intro herr), hstored]

/-- In a well-formed tree without a seam that `next_key` loses, the items behind the stat data
are enumerated. -/
theorem Enumerates.of_tree {order : Key → Nat} {n root : Nat} (hio : ReadsNodes f.tree io disk)
    (horder : StatFirst order) (hf : Formed order disk n root) (hdepth : f.tree.treeDepth = n + 1)
    (hheight : n + 1 ≤ 6) (hshift : 9 ≤ f.tree.blocksizeShift ∧ f.tree.blocksizeShift ≤ 13)
    (hs : Cache f.tree disk root tree) (hstat : stat ∈ LiloBoot.ReiserFS.items disk n root)
    (hkey : itemKey disk stat = statKey f.dirId f.objectid)
    (hseams : SeamsCached f.tree order disk n root (statKey f.dirId f.objectid))
    (hitems : following order disk n root (statKey f.dirId f.objectid) = items ++ rest) :
    Enumerates io f disk stat items rest tree := by
  obtain ⟨hfound, hon, hvisits⟩ :=
    (tree_order_iff hio horder hf hdepth hheight hshift hs hstat hkey).mpr hseams
  rw [hitems] at hvisits
  exact ⟨hfound, hon, hvisits⟩

/-! ## §7 A file with a hole and a tail -/

/-- A little-endian field of a block. -/
def leField : Nat → Nat → List UInt8
  | _, 0 => []
  | value, width + 1 => UInt8.ofNat value :: leField (value / 256) width

/-- The head of an item of object 7 in directory 2. -/
def fileItem (offset type len location : Nat) : List UInt8 :=
  leField 2 4 ++ leField 7 4 ++ leField (offset + 2 ^ 60 * type) 8 ++ leField 0 2
    ++ leField len 2 ++ leField location 2 ++ leField 1 2

/-- A leaf of 512 bytes with a file of 1028: block 5, a hole, and a tail of four bytes. -/
def fileLeaf : List UInt8 :=
  leField 1 2 ++ leField 3 2 ++ List.replicate 20 0
    ++ fileItem 0 0 32 480 ++ fileItem 1 1 8 472 ++ fileItem 1025 2 8 464
    ++ List.replicate 368 0
    ++ [116, 97, 105, 108, 0, 0, 0, 0] ++ leField 5 4 ++ leField 0 4 ++ List.replicate 32 0

/-- The leaf is block 1; the bytes of any other block count up. -/
def fileDisk (block : Nat) : Bytes := fun i =>
  if block = 1 then fileLeaf.getD i 0 else UInt8.ofNat i

def fileBodies : List Body := [.indirect [5, 0], .direct [116, 97, 105, 108, 0, 0, 0, 0]]

def fileOpened : OpenFile := ⟨⟨9, 1⟩, 2, 2, 7⟩

def fileNodes : NodeRead := fun _ block _ => (512, fileDisk block)

def fileData : DataRead := fun _ block start n => (n, fun i => fileDisk block (start + i))

/-- The cursor stands on the tail, and an earlier read has failed. -/
def fileState : TreeState where
  slots _ := fileDisk 1
  blocks _ := 0
  nextKeyNr _ := 0
  currentIh := itemHead 2
  currentItem := 464
  errnum := fileErrBadFsys
  reads := 3

/-- The last 12 bytes of block 5, the hole, and the tail, read backwards from the tail. -/
theorem reiserfsReadData_tail :
    ∃ t, reiserfsReadData fileNodes fileData fileOpened 4 528 500 fileState = some (528, t)
      ∧ t.pos = 500 + 528
      ∧ t.buf = Buffer.filled 528 fun i => fileByte fileDisk (2 ^ 9) fileBodies (500 + i) := by
  have hstat : HasStat fileOpened (fileDisk 1) (itemHead 0) :=
    ⟨by decide +kernel, by decide +kernel, by decide +kernel, by decide +kernel⟩
  have hparts : Parts fileOpened fileDisk 0 fileBodies [(1, 1), (1, 2)] := by
    refine ⟨⟨by decide +kernel, by decide +kernel, ?_⟩,
      ⟨by decide +kernel, by decide +kernel, ?_⟩, rfl⟩
    · exact ⟨by decide +kernel, by decide +kernel, by decide +kernel⟩
    · exact ⟨by decide +kernel, by decide +kernel, by decide +kernel⟩
  have henum : Enumerates fileNodes fileOpened fileDisk (1, 0) [(1, 1), (1, 2)] [] fileState :=
    Enumerates.of_tree (fun _ _ _ => rfl) heapPos_statFirst
      (show Formed heapPos fileDisk 0 1 by decide +kernel) rfl (by decide) (by decide)
      ⟨rfl, fun _ => rfl, fun _ _ _ hne => absurd rfl hne⟩ (by decide +kernel) (by decide +kernel)
      (by unfold SeamsCached; decide +kernel) (by decide +kernel)
  exact reiserfsReadData_file (by decide) (fun _ _ _ _ _ => ⟨rfl, fun _ _ => rfl⟩)
    ⟨hstat, hparts⟩ (show 1028 < 2 ^ 32 by decide) (by decide) henum
    (Or.inr ⟨[(1, 0), (1, 1)], (1, 2), [], rfl, ⟨rfl, rfl, by decide +kernel⟩,
      ⟨by decide +kernel, by decide +kernel, rfl⟩⟩)
    (by decide) (by decide) (by decide)

end LiloBoot.ReiserFS
