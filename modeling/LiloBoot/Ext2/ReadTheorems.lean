/-
LiloBoot.Ext2.ReadTheorems — range reading against block by block reading.

Both readers deliver a prefix of the same byte sequence, `fileByte`, and the
only question is how far and whether the ranged reader puts every byte at its
place. `Right` is what holds between two calls of the iterator: everything up
to the file position is delivered, and the open range covers the blocks
behind it. One call keeps it (`Right.next`) as long as the hole in front of
the block is measured right: its length is computed in 32 bits. `HolesFit`
says which block lists avoid the wrong ones, and a list that has one is read
wrong: the block behind the hole lands inside the hole (`Misplaced`).
-/
import LiloBoot.Ext2.Read

namespace LiloBoot.Ext2

/-! ## §1 What the environment provides -/

/-- The file is open, the block size is one of ext2, every device read succeeds, and an
aborted iteration is reported as such or as a success. -/
structure Filsys.Reads (fs : Filsys) : Prop where
  opened : fs.opened = true
  bs_pos : 0 < fs.bs
  bs_lt : fs.bs < 2 ^ 23
  readBlk : ∀ start count, fs.readBlk start count = 0
  aborted : fs.iterateAborted = 0 ∨ fs.iterateAborted = blockAbort

/-- The logical blocks are reported in ascending order from `first` on, as `int`, with
physical blocks other than 0. -/
def Ascending (first : Nat) : List (Nat × Nat) → Prop
  | [] => True
  | (blocknr, lg) :: rest =>
    first ≤ lg ∧ lg < 2 ^ 31 ∧ 0 < blocknr ∧ blocknr < 2 ^ 32 ∧ Ascending (lg + 1) rest

theorem Ascending.mono {first first' : Nat} (h : first' ≤ first) {blocks : List (Nat × Nat)}
    (hasc : Ascending first blocks) : Ascending first' blocks := by
  cases blocks with
  | nil => trivial
  | cons b rest => exact ⟨Nat.le_trans h hasc.1, hasc.2⟩

/-- No block before the first reported one is allocated. -/
theorem physical_before {blocks : List (Nat × Nat)} : ∀ {first lg : Nat},
    Ascending first blocks → lg < first → physical blocks lg = none := by
  induction blocks with
  | nil =>
    intro first lg _ _
    rfl
  | cons b rest ih =>
    intro first lg hasc hlt
    have hne : (b.2 == lg) = false := by
      have := hasc.1
      exact beq_eq_false_iff_ne.mpr (by omega)
    have htail : physical rest lg = none := ih hasc.2.2.2.2 (by have := hasc.1; omega)
    rw [physical, List.find?_cons, hne]
    exact htail

theorem physical_head (b : Nat × Nat) (rest : List (Nat × Nat)) :
    physical (b :: rest) b.2 = some b.1 := by
  rw [physical, List.find?_cons, beq_self_eq_true]
  rfl

theorem physical_tail {b : Nat × Nat} {lg : Nat} (h : b.2 < lg) (rest : List (Nat × Nat)) :
    physical (b :: rest) lg = physical rest lg := by
  have hne : (b.2 == lg) = false := beq_eq_false_iff_ne.mpr (by omega)
  rw [physical, List.find?_cons, hne]
  rfl

/-! ## §2 The naive reader -/

/-- Byte `pos` of the file. -/
def fileByte (bs : Nat) (disk : Bytes) (blocks : List (Nat × Nat)) (pos : Nat) : UInt8 :=
  blockByte bs disk blocks (pos / bs) (pos % bs)

/-- Inside one block the file bytes are the bytes of the block. -/
theorem fileByte_in_block {bs : Nat} {disk : Bytes} {blocks : List (Nat × Nat)} {pos i : Nat}
    (h : i < bs - pos % bs) :
    fileByte bs disk blocks (pos + i) = blockByte bs disk blocks (pos / bs) (pos % bs + i) := by
  have hdm := Nat.div_add_mod pos bs
  have hlt : pos % bs + i < bs := by omega
  have hsplit : pos + i = pos % bs + i + bs * (pos / bs) := by omega
  rw [fileByte, hsplit, Nat.add_mul_div_left _ _ (by omega), Nat.add_mul_mod_self_left,
    Nat.div_eq_of_lt hlt, Nat.mod_eq_of_lt hlt, Nat.zero_add]

theorem naiveLoop_done (bs : Nat) (disk : Bytes) (blocks : List (Nat × Nat)) (n lg : Nat)
    {s : NaiveState} (h : s.rest = 0) : naiveLoop bs disk blocks n lg s = s := by
  cases n with
  | zero => rfl
  | succ n => rw [naiveLoop, if_pos h]

/-- The walk delivers file bytes until the request or the blocks are used up. -/
theorem naiveLoop_spec {bs : Nat} (hbs : 0 < bs) (disk : Bytes) (blocks : List (Nat × Nat))
    (start : Nat) (n : Nat) : ∀ s : NaiveState,
    s.pos = start + s.total →
    s.buf = Buffer.filled s.total (fun i => fileByte bs disk blocks (start + i)) →
    let t := naiveLoop bs disk blocks n (s.pos / bs) s
    t.total = s.total + min s.rest ((s.pos / bs + n) * bs - s.pos) ∧ t.pos = start + t.total
      ∧ t.buf = Buffer.filled t.total (fun i => fileByte bs disk blocks (start + i)) := by
  induction n with
  | zero =>
    intro s hpos hbuf
    have hle : s.pos / bs * bs ≤ s.pos := Nat.div_mul_le_self _ _
    refine ⟨?_, hpos, hbuf⟩
    rw [naiveLoop, Nat.add_zero]
    omega
  | succ n ih =>
    intro s hpos hbuf
    by_cases hrest : s.rest = 0
    · rw [naiveLoop, if_pos hrest]
      refine ⟨?_, hpos, hbuf⟩
      omega
    rw [naiveLoop, if_neg hrest]
    have hdm := Nat.div_add_mod s.pos bs
    have hmod := Nat.mod_lt s.pos hbs
    have hmul : (s.pos / bs + (n + 1)) * bs = s.pos / bs * bs + n * bs + bs := by
      rw [Nat.add_mul, Nat.add_mul, Nat.one_mul, Nat.add_assoc]
    have hcomm : bs * (s.pos / bs) = s.pos / bs * bs := Nat.mul_comm _ _
    have hstep : (naiveStep bs disk blocks (s.pos / bs) s).buf
        = Buffer.filled (s.total + min (bs - s.pos % bs) s.rest)
            (fun i => fileByte bs disk blocks (start + i)) := by
      simp only [naiveStep, hbuf]
      refine Buffer.store_filled fun i hi => ?_
      rw [← fileByte_in_block (by omega), ← Nat.add_assoc, ← hpos]
    by_cases hlast : s.rest ≤ bs - s.pos % bs
    · -- the request ends in this block
      rw [naiveLoop_done _ _ _ _ _ (by simp only [naiveStep]; omega)]
      rw [Nat.min_eq_right hlast] at hstep
      refine ⟨?_, ?_, ?_⟩
      · simp only [naiveStep]
        omega
      · simp only [naiveStep]
        omega
      · rw [hstep]
        simp only [naiveStep, Nat.min_eq_right hlast]
    · have hmin : min (bs - s.pos % bs) s.rest = bs - s.pos % bs := by omega
      have hnext : (naiveStep bs disk blocks (s.pos / bs) s).pos = (s.pos / bs + 1) * bs := by
        simp only [naiveStep, hmin]
        rw [Nat.add_mul]
        omega
      have hdiv : (naiveStep bs disk blocks (s.pos / bs) s).pos / bs = s.pos / bs + 1 := by
        rw [hnext, Nat.mul_div_cancel _ hbs]
      have h := ih (naiveStep bs disk blocks (s.pos / bs) s)
        (by simp only [naiveStep]; omega) (by rw [hstep]; rfl)
      rw [hdiv] at h
      obtain ⟨htotal, hpos', hbuf'⟩ := h
      refine ⟨?_, hpos', hbuf'⟩
      rw [htotal, hnext]
      have hmul' : (s.pos / bs + 1 + n) * bs = s.pos / bs * bs + n * bs + bs := by
        rw [Nat.add_mul, Nat.add_mul]
        omega
      have hmul'' : (s.pos / bs + 1) * bs = s.pos / bs * bs + bs := by
        rw [Nat.add_mul, Nat.one_mul]
      simp only [naiveStep, hmin]
      omega

/-- The number of bytes between `start` and the end of the last block, at most `size`. -/
def readLength (bs : Nat) (blocks : List (Nat × Nat)) (start size : Nat) : Nat :=
  min size (blockCount blocks * bs - start)

/-- What both readers return when they deliver `n` bytes of the file. -/
def deliveredResult (bs : Nat) (disk : Bytes) (blocks : List (Nat × Nat)) (start n : Nat) :
    Int × Nat × Buffer :=
  (s32 n, start + n, Buffer.filled n fun i => fileByte bs disk blocks (start + i))

theorem naiveRead_eq {bs : Nat} (hbs : 0 < bs) (disk : Bytes) (blocks : List (Nat × Nat))
    (start size : Nat) :
    naiveRead bs disk blocks start size
      = deliveredResult bs disk blocks start (readLength bs blocks start size) := by
  have h := naiveLoop_spec hbs disk blocks start (blockCount blocks - start / bs)
    ⟨start, size, 0, fun _ => none⟩ rfl (Buffer.filled_zero _).symm
  dsimp only at h
  obtain ⟨htotal, hpos, hbuf⟩ := h
  have hlen : (naiveLoop bs disk blocks (blockCount blocks - start / bs) (start / bs)
      ⟨start, size, 0, fun _ => none⟩).total = readLength bs blocks start size := by
    rw [htotal, readLength, Nat.zero_add]
    by_cases hle : start / bs ≤ blockCount blocks
    · rw [Nat.add_sub_cancel' hle]
    · -- the position lies behind the last block
      have h1 : blockCount blocks - start / bs = 0 := by omega
      have h2 : blockCount blocks * bs ≤ start / bs * bs :=
        Nat.mul_le_mul_right _ (by omega)
      have h3 := Nat.div_mul_le_self start bs
      rw [h1, Nat.add_zero]
      omega
  simp only [naiveRead, deliveredResult]
  rw [hpos, hbuf, hlen]

/-! ## §3 What a state of the ranged reader has delivered -/

/-- Of the file from `start` on, exactly the first `n` bytes have been delivered. -/
structure Delivered (bs : Nat) (disk : Bytes) (all : List (Nat × Nat)) (start : Nat)
    (s : ReadState) (n : Nat) : Prop where
  total : s.readTotal = n
  pos : s.pos = start + n
  buf : s.buf = Buffer.filled n fun i => fileByte bs disk all (start + i)

/-- The counters agree with what has been delivered. -/
structure Sound (bs : Nat) (disk : Bytes) (all : List (Nat × Nat)) (start size : Nat)
    (s : ReadState) : Prop where
  delivered : Delivered bs disk all start s s.readTotal
  stored : s.stored = s.readTotal
  rest : s.readTotal + s.readMax = size

section Steps

variable {fs : Filsys} {disk : Bytes} {all : List (Nat × Nat)} {start size : Nat}
  {s : ReadState}

@[simp] theorem deliver_readRangeStart (n : Nat) (f : Nat → UInt8) :
    (s.deliver n f).readRangeStart = s.readRangeStart := rfl

@[simp] theorem deliver_readRangeCount (n : Nat) (f : Nat → UInt8) :
    (s.deliver n f).readRangeCount = s.readRangeCount := rfl

@[simp] theorem deliver_readLastLogical (n : Nat) (f : Nat → UInt8) :
    (s.deliver n f).readLastLogical = s.readLastLogical := rfl

@[simp] theorem deliver_readResult (n : Nat) (f : Nat → UInt8) :
    (s.deliver n f).readResult = s.readResult := rfl

@[simp] theorem deliver_stored (n : Nat) (f : Nat → UInt8) :
    (s.deliver n f).stored = s.stored + n := rfl

@[simp] theorem deliver_buf (n : Nat) (f : Nat → UInt8) :
    (s.deliver n f).buf = s.buf.store s.stored n f := rfl

theorem Sound.pos_eq (h : Sound fs.bs disk all start size s) :
    s.pos = start + s.readTotal := h.delivered.pos

/-- Delivering the next file bytes. -/
theorem Sound.deliver (h : Sound fs.bs disk all start size s) (hend : start + size < 2 ^ 64)
    (hsize : size < 2 ^ 32) {n : Nat} (hn : n ≤ s.readMax) {f : Nat → UInt8}
    (hf : ∀ i < n, f i = fileByte fs.bs disk all (s.pos + i)) :
    Sound fs.bs disk all start size (s.deliver n f)
      ∧ (s.deliver n f).readMax = s.readMax - n ∧ (s.deliver n f).pos = s.pos + n
      ∧ (s.deliver n f).readTotal = s.readTotal + n := by
  have hrest := h.rest
  have hpos := h.pos_eq
  have hmax : (s.deliver n f).readMax = s.readMax - n := sub32_of_le hn (by omega)
  have htotal : (s.deliver n f).readTotal = s.readTotal + n := u32_of_lt (by omega)
  have hnew : (s.deliver n f).pos = s.pos + n := u64_of_lt (by omega)
  have hst : (s.deliver n f).stored = s.readTotal + n := by
    simp only [ReadState.deliver, h.stored]
  have hbuf : (s.deliver n f).buf
      = Buffer.filled (s.readTotal + n) fun i => fileByte fs.bs disk all (start + i) := by
    simp only [ReadState.deliver, h.stored, h.delivered.buf]
    refine Buffer.store_filled fun i hi => ?_
    rw [hf i hi, hpos, Nat.add_assoc]
  refine ⟨⟨⟨rfl, ?_, ?_⟩, ?_, ?_⟩, hmax, hnew, htotal⟩
  · rw [hnew, htotal]
    omega
  · rw [hbuf, htotal]
  · rw [hst, htotal]
  · rw [hmax, htotal]
    omega

/-! ## §4 The open range -/

/-- The range covers blocks of the file from the file position on. -/
structure OpenRange (bs : Nat) (all : List (Nat × Nat)) (s : ReadState) : Prop where
  started : s.readRangeStart ≠ 0
  aligned : s.pos = s.readLastLogical * bs
  count_pos : 0 < s.readRangeCount
  count_le : s.readRangeCount ≤ maxReadRange
  logical_le : s.readLastLogical + s.readRangeCount ≤ 2 ^ 31
  physical_le : s.readRangeStart + s.readRangeCount ≤ 2 ^ 32
  blocks : ∀ j < s.readRangeCount,
    physical all (s.readLastLogical + j) = some (s.readRangeStart + j)

theorem OpenRange.bytes (h : OpenRange fs.bs all s) (hbs : 0 < fs.bs) {i : Nat}
    (hi : i < s.readRangeCount * fs.bs) :
    disk (s.readRangeStart * fs.bs + i) = fileByte fs.bs disk all (s.pos + i) := by
  have hdiv : (s.pos + i) / fs.bs = s.readLastLogical + i / fs.bs := by
    rw [h.aligned, Nat.add_comm, Nat.add_mul_div_right _ _ hbs, Nat.add_comm]
  have hmod : (s.pos + i) % fs.bs = i % fs.bs := by
    rw [h.aligned, Nat.add_comm, Nat.add_mul_mod_self_right]
  have hj : i / fs.bs < s.readRangeCount := Nat.div_lt_of_lt_mul (by rwa [Nat.mul_comm])
  have hdm := Nat.div_add_mod i fs.bs
  rw [fileByte, blockByte, hdiv, hmod, h.blocks _ hj]
  congr 1
  rw [Nat.add_mul, Nat.mul_comm (i / fs.bs)]
  omega

theorem OpenRange.bytes_lt (h : OpenRange fs.bs all s) (hfs : fs.Reads) :
    s.readRangeCount * fs.bs < 2 ^ 31 := by
  have hle : s.readRangeCount * fs.bs ≤ 256 * fs.bs := Nat.mul_le_mul_right _ h.count_le
  have := hfs.bs_lt
  omega

/-- Reading the first `count` blocks of the range. -/
theorem dumpBlocks_spec (h : OpenRange fs.bs all s)
    (hs : Sound fs.bs disk all start size s) (hfs : fs.Reads) (hend : start + size < 2 ^ 64)
    (hsize : size < 2 ^ 32) {count : Nat} (hle : count ≤ s.readRangeCount)
    (hfit : count * fs.bs ≤ s.readMax) (hres : s.readResult = 0) :
    ∃ t, dumpBlocks fs disk count s = (t, false) ∧ Sound fs.bs disk all start size t
      ∧ t.readMax = s.readMax - count * fs.bs ∧ t.pos = s.pos + count * fs.bs
      ∧ t.readRangeCount = s.readRangeCount - count
      ∧ t.readLastLogical = s.readLastLogical + count ∧ t.readResult = 0
      ∧ (count < s.readRangeCount → OpenRange fs.bs all t) := by
  by_cases hzero : count = 0
  · subst hzero
    refine ⟨s, by rw [dumpBlocks, if_pos rfl], hs, ?_, ?_, rfl, rfl, hres, fun _ => h⟩
    · rw [Nat.zero_mul, Nat.sub_zero]
    · rw [Nat.zero_mul, Nat.add_zero]
  have hbytes : count * fs.bs ≤ s.readRangeCount * fs.bs := Nat.mul_le_mul_right _ hle
  have hlt := h.bytes_lt hfs
  have hcount : s.readRangeCount ≤ 256 := h.count_le
  have hlog := h.logical_le
  have hphys := h.physical_le
  have hrest := hs.rest
  obtain ⟨hs', hmax, hpos, -⟩ := hs.deliver hend hsize hfit
    (f := fun i => disk (s.readRangeStart * fs.bs + i)) fun i hi =>
      h.bytes hfs.bs_pos (Nat.lt_of_lt_of_le hi hbytes)
  have hsub : sub32 s.readRangeCount count = s.readRangeCount - count :=
    sub32_of_le hle (by omega)
  have hlast : u32 (s.readLastLogical + count) = s.readLastLogical + count :=
    u32_of_lt (by omega)
  refine ⟨{ s.deliver (count * fs.bs) (fun i => disk (s.readRangeStart * fs.bs + i)) with
      readResult := 0
      readRangeCount := s.readRangeCount - count
      readRangeStart := u32 (s.readRangeStart + count)
      readLastLogical := s.readLastLogical + count },
    ?_, ⟨⟨rfl, hs'.delivered.pos, hs'.delivered.buf⟩, hs'.stored, hs'.rest⟩, hmax, hpos, rfl,
    rfl, rfl, ?_⟩
  · rw [dumpBlocks, if_neg hzero, if_neg (by rw [hfs.readBlk]; simp), hsub, hlast,
      u32_of_lt (by omega)]
  · intro hmore
    have hnext : u32 (s.readRangeStart + count) = s.readRangeStart + count :=
      u32_of_lt (by omega)
    have hstart := h.started
    refine ⟨?_, ?_, ?_, ?_, ?_, ?_, ?_⟩
    · show u32 (s.readRangeStart + count) ≠ 0
      omega
    · rw [Nat.add_mul, ← h.aligned]
      exact hpos
    · show 0 < s.readRangeCount - count
      omega
    · show s.readRangeCount - count ≤ 256
      omega
    · show s.readLastLogical + count + (s.readRangeCount - count) ≤ 2 ^ 31
      omega
    · show u32 (s.readRangeStart + count) + (s.readRangeCount - count) ≤ 2 ^ 32
      omega
    · intro j hj
      have hj : j < s.readRangeCount - count := hj
      show physical all (s.readLastLogical + count + j)
        = some (u32 (s.readRangeStart + count) + j)
      rw [hnext, Nat.add_assoc, Nat.add_assoc]
      exact h.blocks (count + j) (by omega)

/-- A range that fits is read whole. -/
theorem readDumpRange_whole (h : OpenRange fs.bs all s)
    (hs : Sound fs.bs disk all start size s) (hfs : fs.Reads) (hend : start + size < 2 ^ 64)
    (hsize : size < 2 ^ 32) (hfit : s.readRangeCount * fs.bs ≤ s.readMax)
    (hres : s.readResult = 0) :
    ∃ t, readDumpRange fs disk s = (t, decide (t.readMax = 0))
      ∧ Sound fs.bs disk all start size t
      ∧ t.readMax = s.readMax - s.readRangeCount * fs.bs
      ∧ t.pos = s.pos + s.readRangeCount * fs.bs
      ∧ t.readLastLogical = s.readLastLogical + s.readRangeCount ∧ t.readResult = 0
      ∧ t.readRangeStart = 0 ∧ t.readRangeCount = 0 := by
  have hlt := h.bytes_lt hfs
  obtain ⟨t, hdump, hs', hmax, hpos, hcount, hlast, hres', -⟩ :=
    dumpBlocks_spec h hs hfs hend hsize (Nat.le_refl _) hfit hres
  have hnot : ¬ u32 (s.readRangeCount * fs.bs) > s.readMax := by
    rw [u32_of_lt (by omega)]
    omega
  refine ⟨{ t with readRangeCount := 0, readRangeStart := 0 }, ?_,
    ⟨⟨rfl, hs'.delivered.pos, hs'.delivered.buf⟩, hs'.stored, hs'.rest⟩, hmax, hpos, hlast,
    hres', rfl, rfl⟩
  have hdone : dumpRemaining fs disk t = (t, false) := by
    rw [dumpRemaining, if_pos (.inr (by omega))]
  simp only [readDumpRange, hnot, if_false, hdump, hdone]

/-- Of a range that goes beyond the request the last block is cut. -/
theorem readDumpRange_cut (h : OpenRange fs.bs all s)
    (hs : Sound fs.bs disk all start size s) (hfs : fs.Reads) (hend : start + size < 2 ^ 64)
    (hsize : size < 2 ^ 32) (hcut : s.readMax < s.readRangeCount * fs.bs)
    (hfit : (s.readRangeCount - 1) * fs.bs ≤ s.readMax) (hres : s.readResult = 0) :
    Delivered fs.bs disk all start (readDumpRange fs disk s).1 size := by
  have hlt := h.bytes_lt hfs
  have hcount := h.count_pos
  obtain ⟨t, hdump, hs', hmax, hpos, hone, hlast, hres', hopen⟩ :=
    dumpBlocks_spec h hs hfs hend hsize (Nat.sub_le _ _) hfit hres
  have hopen := hopen (by omega)
  have hcut' : u32 (s.readRangeCount * fs.bs) > s.readMax := by
    rw [u32_of_lt (by omega)]
    omega
  have hrest := hs'.rest
  have hblock : t.readMax < fs.bs := by
    have : (s.readRangeCount - 1) * fs.bs = s.readRangeCount * fs.bs - fs.bs := by
      rw [Nat.sub_mul, Nat.one_mul]
    omega
  by_cases hzero : t.readMax = 0
  · have hdone : dumpRemaining fs disk t = (t, false) := by
      rw [dumpRemaining, if_pos (.inl hzero)]
    have hd := hs'.delivered
    rw [show t.readTotal = size by omega] at hd
    simp only [readDumpRange, hcut', if_true, hdump, hdone]
    exact ⟨hd.total, hd.pos, hd.buf⟩
  · obtain ⟨hs'', hmax', -, htotal⟩ := hs'.deliver hend hsize (Nat.le_refl _)
      (f := fun i => disk (t.readRangeStart * fs.bs + i)) fun i hi =>
        hopen.bytes hfs.bs_pos (by
          rw [hone, show s.readRangeCount - (s.readRangeCount - 1) = 1 by omega, Nat.one_mul]
          omega)
    have hdone : dumpRemaining fs disk t
        = ({ t.deliver t.readMax (fun i => disk (t.readRangeStart * fs.bs + i)) with
              readResult := 0
              stored := t.stored }, false) := by
      rw [dumpRemaining, if_neg (by omega), if_neg (by rw [hfs.readBlk]; simp)]
    have hd := hs''.delivered
    rw [htotal, hrest] at hd
    simp only [readDumpRange, hcut', if_true, hdump, hdone]
    exact ⟨hd.total, hd.pos, hd.buf⟩

/-! ## §5 Between two calls of the iterator -/

/-- The next block boundary. -/
def roundUp (bs pos : Nat) : Nat := if pos % bs = 0 then pos else (pos / bs + 1) * bs

theorem roundUp_aligned {bs pos : Nat} (h : pos % bs = 0) : roundUp bs pos = pos := if_pos h

theorem roundUp_mul (bs n : Nat) : roundUp bs (n * bs) = n * bs :=
  roundUp_aligned (Nat.mul_mod_left n bs)

/-- No range is open: the blocks before `first` are delivered, and the first position that a
hole is measured from is `reach`. -/
structure Closed (bs : Nat) (disk : Bytes) (all : List (Nat × Nat)) (start size : Nat)
    (s : ReadState) (first reach : Nat) : Prop where
  sound : Sound bs disk all start size s
  result : s.readResult = 0
  rest_pos : 0 < s.readMax
  rangeStart : s.readRangeStart = 0
  rangeCount : s.readRangeCount = 0
  last : s.readLastLogical = first
  first_eq : first = s.pos / bs
  first_le : first ≤ 2 ^ 31
  reach_eq : reach = roundUp bs s.pos
  aligned : s.pos % bs = 0 ∨ s.readTotal = 0

/-- A range is open, and the request goes beyond it. -/
structure Open (bs : Nat) (disk : Bytes) (all : List (Nat × Nat)) (start size : Nat)
    (s : ReadState) (first reach : Nat) : Prop where
  sound : Sound bs disk all start size s
  result : s.readResult = 0
  range : OpenRange bs all s
  live : s.readRangeCount * bs < s.readMax
  first_eq : first = s.readLastLogical + s.readRangeCount
  reach_eq : reach = first * bs

/-- The two states in which the iterator is called again. -/
def Right (bs : Nat) (disk : Bytes) (all : List (Nat × Nat)) (start size : Nat)
    (s : ReadState) (first reach : Nat) : Prop :=
  Closed bs disk all start size s first reach ∨ Open bs disk all start size s first reach

/-- The last blocks of the request are in the open range. -/
structure Full (bs : Nat) (disk : Bytes) (all : List (Nat × Nat)) (start size : Nat)
    (s : ReadState) : Prop where
  sound : Sound bs disk all start size s
  range : OpenRange bs all s
  fits : (s.readRangeCount - 1) * bs ≤ s.readMax
  covers : s.readMax ≤ s.readRangeCount * bs

/-- The two states in which the iteration is aborted. -/
def Ended (bs : Nat) (disk : Bytes) (all : List (Nat × Nat)) (start size : Nat)
    (s : ReadState) : Prop :=
  s.readResult = 0 ∧ (Full bs disk all start size s
    ∨ s.readRangeStart = 0 ∧ Delivered bs disk all start s size)

/-- Without an error the end of `ext2_read` reads the open range. -/
theorem readFinish_eq (hfs : fs.Reads) (hres : s.readResult = 0) (aborted : Bool) :
    readFinish fs disk s aborted
      = if s.readRangeStart ≠ 0 then (readDumpRange fs disk s).1 else s := by
  have hret : (if (if aborted then fs.iterateAborted else 0) = blockAbort then s.readResult
      else if aborted then fs.iterateAborted else 0) = 0 := by
    cases aborted with
    | false => rfl
    | true =>
      rcases hfs.aborted with h | h
      · rw [h]
        rfl
      · simp only [h, hres, if_true]
  simp only [readFinish, hret, true_and]

theorem Ended.finish (h : Ended fs.bs disk all start size s) (hfs : fs.Reads)
    (hend : start + size < 2 ^ 64) (hsize : size < 2 ^ 32) (aborted : Bool) :
    Delivered fs.bs disk all start (readFinish fs disk s aborted) size := by
  obtain ⟨hres, hfull | ⟨hzero, hdone⟩⟩ := h
  · rw [readFinish_eq hfs hres, if_pos hfull.range.started]
    by_cases hcut : s.readMax < s.readRangeCount * fs.bs
    · exact readDumpRange_cut hfull.range hfull.sound hfs hend hsize hcut hfull.fits hres
    · -- the range is the rest of the request
      obtain ⟨t, hdump, hs', hmax, -⟩ := readDumpRange_whole hfull.range hfull.sound hfs hend
        hsize (by omega) hres
      have hcovers := hfull.covers
      have hrest := hs'.rest
      have hd := hs'.delivered
      rw [show t.readTotal = size by omega] at hd
      rw [hdump]
      exact hd
  · rw [readFinish_eq hfs hres, if_neg (by rw [hzero]; simp)]
    exact hdone

theorem Right.finish {first reach : Nat} (h : Right fs.bs disk all start size s first reach)
    (hfs : fs.Reads) (hend : start + size < 2 ^ 64) (hsize : size < 2 ^ 32)
    (aborted : Bool) :
    Delivered fs.bs disk all start (readFinish fs disk s aborted)
      (min size (first * fs.bs - start)) := by
  rcases h with h | h
  · have hd := h.sound.delivered
    have hpos := h.sound.pos_eq
    have hrest := h.sound.rest
    have hfirst : first * fs.bs ≤ s.pos := by
      rw [h.first_eq]
      exact Nat.div_mul_le_self _ _
    have htotal : s.readTotal = min size (first * fs.bs - start) := by
      rcases h.aligned with hal | hzero
      · have hmul : first * fs.bs = s.pos := by
          rw [h.first_eq]
          exact Nat.div_mul_cancel (Nat.dvd_of_mod_eq_zero hal)
        omega
      · omega
    rw [readFinish_eq hfs h.result, if_neg (by rw [h.rangeStart]; simp)]
    rwa [htotal] at hd
  · have hlive := h.live
    obtain ⟨t, hdump, hs', hmax, hpos, -⟩ := readDumpRange_whole h.range h.sound hfs hend
      hsize (Nat.le_of_lt hlive) h.result
    have hd := hs'.delivered
    have hrest := hs'.rest
    have hpos' := hs'.pos_eq
    have hal := h.range.aligned
    have hmul : first * fs.bs = t.pos := by
      rw [h.first_eq, Nat.add_mul, hpos, hal]
    rw [readFinish_eq hfs h.result, if_pos h.range.started, hdump]
    rwa [show t.readTotal = min size (first * fs.bs - start) by omega] at hd

/-! ## §6 One call of the iterator -/

/-- Before the next reported block there is nothing but a hole. -/
theorem fileByte_hole {bs lg first pos : Nat} (hbs : 0 < bs)
    (hfree : ∀ l, first ≤ l → l < lg → physical all l = none) (hfirst : first * bs ≤ pos)
    (hlt : pos < lg * bs) : fileByte bs disk all pos = 0 := by
  have h1 : first ≤ pos / bs := (Nat.le_div_iff_mul_le hbs).mpr hfirst
  have h2 : pos / bs < lg := Nat.div_lt_of_lt_mul (by rwa [Nat.mul_comm])
  rw [fileByte, blockByte, hfree _ h1 h2]

/-- In a hole the block of an unaligned position is filled up first. -/
theorem Closed.holePartial {first reach lg : Nat}
    (h : Closed fs.bs disk all start size s first reach) (hfs : fs.Reads)
    (hend : start + size < 2 ^ 64) (hsize : size < 2 ^ 32) (hlt : first < lg)
    (hlg : lg < 2 ^ 31) (hfree : ∀ l, first ≤ l → l < lg → physical all l = none) :
    (∃ t, holePartial fs s = (t, true) ∧ Ended fs.bs disk all start size t
        ∧ start + size ≤ reach ∧ reach ≤ lg * fs.bs)
      ∨ ∃ t next, holePartial fs s = (t, false) ∧ first ≤ next ∧ next ≤ lg
        ∧ reach = next * fs.bs ∧ t.pos = reach ∧ Closed fs.bs disk all start size t next reach := by
  have hbs := hfs.bs_pos
  have hreach := h.reach_eq
  have hdm := Nat.div_add_mod s.pos fs.bs
  have hmod := Nat.mod_lt s.pos hbs
  by_cases hal : s.pos % fs.bs = 0
  · refine .inr ⟨s, first, by rw [Ext2.holePartial, if_pos hal], Nat.le_refl _,
      Nat.le_of_lt hlt, ?_, ?_, h⟩
    · rw [hreach, roundUp_aligned hal, h.first_eq, Nat.div_mul_cancel (Nat.dvd_of_mod_eq_zero hal)]
    · rw [hreach, roundUp_aligned hal]
  rw [roundUp, if_neg hal, ← h.first_eq] at hreach
  rw [← h.first_eq, Nat.mul_comm] at hdm
  have hnext : (first + 1) * fs.bs = first * fs.bs + fs.bs := by rw [Nat.add_mul, Nat.one_mul]
  have hle : (first + 1) * fs.bs ≤ lg * fs.bs := Nat.mul_le_mul_right _ hlt
  have hmax := h.rest_pos
  have hrest := h.sound.rest
  have hpos := h.sound.pos_eq
  obtain ⟨hs', hmax', hpos', htotal'⟩ := h.sound.deliver hend hsize
    (Nat.min_le_right (fs.bs - s.pos % fs.bs) s.readMax) (f := fun _ => 0) fun i hi =>
      (fileByte_hole hbs hfree (by omega) (by omega)).symm
  have hlast : u32 (s.readLastLogical + 1) = first + 1 := by
    rw [h.last]
    exact u32_of_lt (by omega)
  generalize hn : min (fs.bs - s.pos % fs.bs) s.readMax = n at hs' hmax' hpos' htotal'
  have hstep : Ext2.holePartial fs s = ({ s.deliver n (fun _ => 0) with
      readLastLogical := first + 1 }, decide ((s.deliver n fun _ => 0).readMax = 0)) := by
    rw [Ext2.holePartial, if_neg hal, hlast, hn]
  by_cases hzero : (s.deliver n fun _ => 0).readMax = 0
  · have hd := hs'.delivered
    rw [show (s.deliver n fun _ => 0).readTotal = size by omega] at hd
    refine .inl ⟨{ s.deliver n (fun _ => 0) with readLastLogical := first + 1 },
      by rw [hstep, decide_eq_true hzero], ⟨h.result, .inr ⟨h.rangeStart, ?_⟩⟩, by omega, by omega⟩
    exact ⟨hd.total, hd.pos, hd.buf⟩
  · have hposn : (s.deliver n fun _ => 0).pos = (first + 1) * fs.bs := by omega
    refine .inr ⟨{ s.deliver n (fun _ => 0) with readLastLogical := first + 1 }, first + 1,
      by rw [hstep, decide_eq_false hzero], Nat.le_succ _, hlt, hreach,
      hposn.trans hreach.symm, ?_⟩
    exact {
      sound := ⟨⟨rfl, hs'.delivered.pos, hs'.delivered.buf⟩, hs'.stored, hs'.rest⟩
      result := h.result
      rest_pos := Nat.pos_of_ne_zero hzero
      rangeStart := h.rangeStart
      rangeCount := h.rangeCount
      last := rfl
      first_eq := by
        show first + 1 = (s.deliver n fun _ => 0).pos / fs.bs
        rw [hposn, Nat.mul_div_cancel _ hbs]
      first_le := by omega
      reach_eq := by
        show reach = roundUp fs.bs (s.deliver n fun _ => 0).pos
        rw [hposn, roundUp_mul, hreach]
      aligned := .inl (by
        show (s.deliver n fun _ => 0).pos % fs.bs = 0
        rw [hposn, Nat.mul_mod_left]) }

/-- The hole in front of `lg`, from `reach` on, is measured right, or its wrong length is
still beyond the request. -/
def HoleFits (bs limit reach lg : Nat) : Prop :=
  lg * bs - reach < 2 ^ 32 ∨ limit ≤ reach + (lg * bs - reach) % 2 ^ 32

/-- The length of the hole as the source computes it. -/
theorem nzero_eq (bs : Nat) {first lg : Nat} (hle : first ≤ lg) (hlg : lg < 2 ^ 31) :
    u32 (sub32 lg first * bs) = (lg * bs - first * bs) % 2 ^ 32 := by
  rw [sub32_of_le hle (by omega), Nat.sub_mul, u32]

/-- A hole that fits is filled with zeros. -/
theorem Closed.holeBlocks {first reach lg : Nat}
    (h : Closed fs.bs disk all start size s first reach) (hfs : fs.Reads)
    (hend : start + size < 2 ^ 64) (hsize : size < 2 ^ 32) (hle : first ≤ lg)
    (hlg : lg < 2 ^ 31) (hfree : ∀ l, first ≤ l → l < lg → physical all l = none)
    (hreach : reach = first * fs.bs) (hpos : s.pos = reach)
    (hfit : HoleFits fs.bs (start + size) reach lg) :
    (∃ t, holeBlocks fs lg s = (t, true) ∧ Ended fs.bs disk all start size t
        ∧ start + size ≤ lg * fs.bs)
      ∨ ∃ t, holeBlocks fs lg s = (t, false)
        ∧ Closed fs.bs disk all start size t lg (lg * fs.bs) := by
  have hbs := hfs.bs_pos
  have hmul : first * fs.bs ≤ lg * fs.bs := Nat.mul_le_mul_right _ hle
  have hmax := h.rest_pos
  have hrest := h.sound.rest
  have hstart := h.sound.pos_eq
  have hnzero := nzero_eq fs.bs hle hlg
  rw [← hreach, ← h.last] at hnzero
  generalize hn : u32 (sub32 lg s.readLastLogical * fs.bs) = nzero at hnzero
  have hnle : nzero ≤ lg * fs.bs - reach := hnzero ▸ Nat.mod_le _ _
  have hfit' : lg * fs.bs - reach = nzero ∨ s.readMax ≤ nzero := by
    rcases hfit with hsmall | hbeyond
    · exact .inl (hnzero.trans (Nat.mod_eq_of_lt hsmall)).symm
    · exact .inr (by omega)
  by_cases hzero : nzero = 0
  · have hsame : lg * fs.bs = s.pos := by omega
    have hlgf : lg = first :=
      Nat.eq_of_mul_eq_mul_right hbs (by omega)
    refine .inr ⟨{ s with readLastLogical := lg },
      by rw [Ext2.holeBlocks, hn, if_pos hzero], ?_⟩
    rw [← hreach] at hmul
    exact {
      sound := ⟨⟨rfl, h.sound.delivered.pos, h.sound.delivered.buf⟩, h.sound.stored, h.sound.rest⟩
      result := h.result
      rest_pos := h.rest_pos
      rangeStart := h.rangeStart
      rangeCount := h.rangeCount
      last := rfl
      first_eq := by rw [hlgf]; exact h.first_eq
      first_le := by omega
      reach_eq := by rw [hsame, ← h.reach_eq, hpos]
      aligned := h.aligned }
  obtain ⟨hs', hmax', hpos', htotal'⟩ := h.sound.deliver hend hsize
    (Nat.min_le_right nzero s.readMax) (f := fun _ => 0) fun i hi =>
      (fileByte_hole hbs hfree (by omega) (by omega)).symm
  generalize hm : min nzero s.readMax = n at hs' hmax' hpos' htotal'
  by_cases hdone : (s.deliver n fun _ => 0).readMax = 0
  · have hd := hs'.delivered
    rw [show (s.deliver n fun _ => 0).readTotal = size by omega] at hd
    exact .inl ⟨s.deliver n (fun _ => 0),
      by rw [Ext2.holeBlocks, hn, if_neg hzero, hm, if_pos hdone], ⟨h.result, .inr ⟨h.rangeStart, hd⟩⟩, by omega⟩
  · have hposn : (s.deliver n fun _ => 0).pos = lg * fs.bs := by omega
    refine .inr ⟨{ s.deliver n (fun _ => 0) with readLastLogical := lg },
      by rw [Ext2.holeBlocks, hn, if_neg hzero, hm, if_neg hdone], ?_⟩
    exact {
      sound := ⟨⟨rfl, hs'.delivered.pos, hs'.delivered.buf⟩, hs'.stored, hs'.rest⟩
      result := h.result
      rest_pos := Nat.pos_of_ne_zero hdone
      rangeStart := h.rangeStart
      rangeCount := h.rangeCount
      last := rfl
      first_eq := by
        show lg = (s.deliver n fun _ => 0).pos / fs.bs
        rw [hposn, Nat.mul_div_cancel _ hbs]
      first_le := by omega
      reach_eq := by
        show lg * fs.bs = roundUp fs.bs (s.deliver n fun _ => 0).pos
        rw [hposn, roundUp_mul]
      aligned := .inl (by
        show (s.deliver n fun _ => 0).pos % fs.bs = 0
        rw [hposn, Nat.mul_mod_left]) }

/-- Whatever hole there is in front of the block. -/
theorem Closed.readHole {first reach lg : Nat}
    (h : Closed fs.bs disk all start size s first reach) (hfs : fs.Reads)
    (hend : start + size < 2 ^ 64) (hsize : size < 2 ^ 32) (hle : first ≤ lg)
    (hlg : lg < 2 ^ 31) (hfree : ∀ l, first ≤ l → l < lg → physical all l = none)
    (hfit : HoleFits fs.bs (start + size) reach lg) :
    (∃ t, readHole fs lg s = (t, true) ∧ Ended fs.bs disk all start size t
        ∧ start + size ≤ lg * fs.bs)
      ∨ ∃ t reach', readHole fs lg s = (t, false)
        ∧ Closed fs.bs disk all start size t lg reach' := by
  by_cases hsame : lg = first
  · refine .inr ⟨s, reach, ?_, hsame ▸ h⟩
    rw [Ext2.readHole, if_pos (.inr (hsame.trans h.last.symm))]
  have hskip : ¬ (lg = 0 ∨ lg = s.readLastLogical) := by
    rw [h.last]
    omega
  rcases h.holePartial hfs hend hsize (by omega) hlg hfree with
    ⟨t, hstep, hended, hcover, hle'⟩ | ⟨t, next, hstep, hnext, hnext', hreach, hpos, ht⟩
  · exact .inl ⟨t, by rw [Ext2.readHole, if_neg hskip, hstep], hended, by omega⟩
  · have hmore := ht.holeBlocks hfs hend hsize hnext' hlg
      (fun l hl hl' => hfree l (Nat.le_trans hnext hl) hl') hreach hpos hfit
    have hrun : Ext2.readHole fs lg s = Ext2.holeBlocks fs lg t := by
      rw [Ext2.readHole, if_neg hskip, hstep]
    rw [hrun]
    rcases hmore with hdone | ⟨t', hstep', ht'⟩
    · exact .inl hdone
    · exact .inr ⟨t', _, hstep', ht'⟩

/-- The block itself is delivered up to its end, or opens a range. -/
theorem Closed.readBlock {blocknr lg reach : Nat}
    (h : Closed fs.bs disk all start size s lg reach) (hfs : fs.Reads)
    (hend : start + size < 2 ^ 64) (hsize : size < 2 ^ 32) (hlg : lg < 2 ^ 31)
    (hblock : physical all lg = some blocknr) (hnr : 0 < blocknr) (hnr' : blocknr < 2 ^ 32) :
    (∃ t, readBlock fs disk blocknr lg s = (t, true) ∧ Ended fs.bs disk all start size t
        ∧ start + size ≤ (lg + 1) * fs.bs)
      ∨ ∃ t, readBlock fs disk blocknr lg s = (t, false)
        ∧ Right fs.bs disk all start size t (lg + 1) ((lg + 1) * fs.bs) := by
  have hbs := hfs.bs_pos
  have hdm := Nat.div_add_mod s.pos fs.bs
  have hmod := Nat.mod_lt s.pos hbs
  rw [← h.first_eq, Nat.mul_comm] at hdm
  have hnext : (lg + 1) * fs.bs = lg * fs.bs + fs.bs := by rw [Nat.add_mul, Nat.one_mul]
  have hmax := h.rest_pos
  have hrest := h.sound.rest
  have hpos := h.sound.pos_eq
  by_cases hal : s.pos % fs.bs = 0
  · -- a new range
    have hstep : Ext2.readBlock fs disk blocknr lg s
        = ({ s with readRangeStart := blocknr, readRangeCount := 1 },
            decide (s.readMax ≤ fs.bs)) := by
      rw [Ext2.readBlock, if_neg (by omega), if_pos (by omega)]
    have hrange : OpenRange fs.bs all
        { s with readRangeStart := blocknr, readRangeCount := 1 } := by
      refine ⟨by show blocknr ≠ 0; omega, ?_, Nat.one_pos, show 1 ≤ 256 by decide, ?_, ?_, ?_⟩
      · show s.pos = s.readLastLogical * fs.bs
        rw [h.last]
        omega
      · show s.readLastLogical + 1 ≤ 2 ^ 31
        rw [h.last]
        omega
      · show blocknr + 1 ≤ 2 ^ 32
        omega
      · intro j hj
        have hj : j < 1 := hj
        show physical all (s.readLastLogical + j) = some (blocknr + j)
        rw [h.last, show j = 0 by omega]
        exact hblock
    have hsound : Sound fs.bs disk all start size
        { s with readRangeStart := blocknr, readRangeCount := 1 } :=
      ⟨⟨rfl, h.sound.delivered.pos, h.sound.delivered.buf⟩, h.sound.stored, h.sound.rest⟩
    by_cases hfull : s.readMax ≤ fs.bs
    · refine .inl ⟨{ s with readRangeStart := blocknr, readRangeCount := 1 },
        by rw [hstep, decide_eq_true hfull],
        ⟨h.result, .inl ⟨hsound, hrange, ?_, ?_⟩⟩, by omega⟩
      · show (1 - 1) * fs.bs ≤ s.readMax
        omega
      · show s.readMax ≤ 1 * fs.bs
        omega
    · refine .inr ⟨{ s with readRangeStart := blocknr, readRangeCount := 1 },
        by rw [hstep, decide_eq_false hfull], .inr ⟨hsound, h.result, hrange, ?_, ?_, rfl⟩⟩
      · show 1 * fs.bs < s.readMax
        omega
      · show lg + 1 = s.readLastLogical + 1
        rw [h.last]
  · -- the rest of the block
    obtain ⟨hs', hmax', hpos', htotal'⟩ := h.sound.deliver hend hsize
      (Nat.min_le_right (fs.bs - s.pos % fs.bs) s.readMax)
      (f := fun i => disk (blocknr * fs.bs + s.pos % fs.bs + i)) fun i hi => by
        rw [fileByte_in_block (by omega), ← h.first_eq, blockByte, hblock, Nat.add_assoc]
    have hlast : u32 (lg + 1) = lg + 1 := u32_of_lt (by omega)
    generalize hf : (fun i => disk (blocknr * fs.bs + s.pos % fs.bs + i)) = f
      at hs' hmax' hpos' htotal'
    generalize hn : min (fs.bs - s.pos % fs.bs) s.readMax = n at hs' hmax' hpos' htotal'
    have hstep : Ext2.readBlock fs disk blocknr lg s
        = ({ s.deliver n f with readResult := 0, readLastLogical := lg + 1 },
            decide ((s.deliver n f).readMax = 0)) := by
      rw [Ext2.readBlock, if_pos hal, if_neg (by rw [hfs.readBlk]; simp), hlast, ← hn, ← hf]
    by_cases hzero : (s.deliver n f).readMax = 0
    · have hd := hs'.delivered
      rw [show (s.deliver n f).readTotal = size by omega] at hd
      exact .inl ⟨{ s.deliver n f with readResult := 0, readLastLogical := lg + 1 },
        by rw [hstep, decide_eq_true hzero],
        ⟨rfl, .inr ⟨h.rangeStart, hd.total, hd.pos, hd.buf⟩⟩, by omega⟩
    · have hposn : (s.deliver n f).pos = (lg + 1) * fs.bs := by omega
      refine .inr ⟨{ s.deliver n f with readResult := 0, readLastLogical := lg + 1 },
        by rw [hstep, decide_eq_false hzero], .inl ?_⟩
      exact {
        sound := ⟨⟨rfl, hs'.delivered.pos, hs'.delivered.buf⟩, hs'.stored, hs'.rest⟩
        result := rfl
        rest_pos := Nat.pos_of_ne_zero hzero
        rangeStart := h.rangeStart
        rangeCount := h.rangeCount
        last := rfl
        first_eq := by
          show lg + 1 = (s.deliver n f).pos / fs.bs
          rw [hposn, Nat.mul_div_cancel _ hbs]
        first_le := by omega
        reach_eq := by
          show (lg + 1) * fs.bs = roundUp fs.bs (s.deliver n f).pos
          rw [hposn, roundUp_mul]
        aligned := .inl (by
          show (s.deliver n f).pos % fs.bs = 0
          rw [hposn, Nat.mul_mod_left]) }

/-- A closed range leaves everything before the next block delivered. -/
theorem Open.dump {first reach : Nat} (h : Open fs.bs disk all start size s first reach)
    (hfs : fs.Reads) (hend : start + size < 2 ^ 64) (hsize : size < 2 ^ 32) :
    ∃ t, readDumpRange fs disk s = (t, false)
      ∧ Closed fs.bs disk all start size t first reach := by
  have hlive := h.live
  obtain ⟨t, hdump, hs', hmax, hpos, hlast, hres, hstart, hcount⟩ := readDumpRange_whole
    h.range h.sound hfs hend hsize (Nat.le_of_lt hlive) h.result
  have hne : t.readMax ≠ 0 := by omega
  have hmul : t.pos = first * fs.bs := by
    rw [h.first_eq, Nat.add_mul, hpos, h.range.aligned]
  refine ⟨t, by rw [hdump, decide_eq_false hne], ?_⟩
  exact {
    sound := hs'
    result := hres
    rest_pos := Nat.pos_of_ne_zero hne
    rangeStart := hstart
    rangeCount := hcount
    last := hlast.trans h.first_eq.symm
    first_eq := by rw [hmul, Nat.mul_div_cancel _ hfs.bs_pos]
    first_le := h.first_eq ▸ h.range.logical_le
    reach_eq := by rw [hmul, roundUp_mul, h.reach_eq]
    aligned := .inl (by rw [hmul, Nat.mul_mod_left]) }

/-- A block that continues the range. -/
theorem Open.extend {first reach blocknr : Nat}
    (h : Open fs.bs disk all start size s first reach)
    (hcount : s.readRangeCount < maxReadRange) (hfirst : first < 2 ^ 31)
    (hblock : physical all first = some blocknr) (hnr : blocknr < 2 ^ 32)
    (hnext : blocknr = s.readRangeStart + s.readRangeCount) :
    (s.readMax ≤ (s.readRangeCount + 1) * fs.bs →
        Ended fs.bs disk all start size { s with readRangeCount := s.readRangeCount + 1 }
          ∧ start + size ≤ (first + 1) * fs.bs)
      ∧ (¬ s.readMax ≤ (s.readRangeCount + 1) * fs.bs →
        Right fs.bs disk all start size { s with readRangeCount := s.readRangeCount + 1 }
          (first + 1) ((first + 1) * fs.bs)) := by
  have hlive := h.live
  have hfeq := h.first_eq
  have hrest := h.sound.rest
  have hpos := h.sound.pos_eq
  have hal := h.range.aligned
  have hsound : Sound fs.bs disk all start size
      { s with readRangeCount := s.readRangeCount + 1 } :=
    ⟨⟨rfl, h.sound.delivered.pos, h.sound.delivered.buf⟩, h.sound.stored, h.sound.rest⟩
  have hrange : OpenRange fs.bs all { s with readRangeCount := s.readRangeCount + 1 } := by
    refine ⟨h.range.started, hal, Nat.succ_pos _, hcount, ?_, ?_, ?_⟩
    · show s.readLastLogical + (s.readRangeCount + 1) ≤ 2 ^ 31
      omega
    · show s.readRangeStart + (s.readRangeCount + 1) ≤ 2 ^ 32
      omega
    · intro j hj
      rcases Nat.lt_succ_iff_lt_or_eq.mp hj with hj | rfl
      · exact h.range.blocks j hj
      · show physical all (s.readLastLogical + s.readRangeCount)
          = some (s.readRangeStart + s.readRangeCount)
        rw [← hfeq, ← hnext]
        exact hblock
  have hcover : (first + 1) * fs.bs = s.pos + (s.readRangeCount + 1) * fs.bs := by
    rw [hal, ← Nat.add_mul, hfeq, Nat.add_assoc]
  refine ⟨fun hfull => ⟨⟨h.result, .inl ⟨hsound, hrange, ?_, hfull⟩⟩, by omega⟩,
    fun hmore => .inr ⟨hsound, h.result, hrange, ?_, ?_, rfl⟩⟩
  · show (s.readRangeCount + 1 - 1) * fs.bs ≤ s.readMax
    rw [Nat.add_sub_cancel]
    omega
  · show (s.readRangeCount + 1) * fs.bs < s.readMax
    omega
  · show first + 1 = s.readLastLogical + (s.readRangeCount + 1)
    omega

/-- Whether the block goes on from the open range. -/
theorem readIterator_data {blocknr lg first reach : Nat}
    (h : Right fs.bs disk all start size s first reach) (hle : first ≤ lg)
    (hbs : 0 < fs.bs) :
    readIterator fs disk blocknr (lg : Int) s
      = if s.readRangeStart ≠ 0 ∧ s.readRangeCount < maxReadRange
          ∧ blocknr = u32 (s.readRangeStart + s.readRangeCount)
          ∧ lg = u32 (s.readLastLogical + s.readRangeCount) then
          ({ s with readRangeCount := s.readRangeCount + 1 },
            decide (s.readMax ≤ u32 ((s.readRangeCount + 1) * fs.bs)))
        else readOther fs disk blocknr lg s := by
  have hreached : ¬ lg < s.pos / fs.bs := by
    rcases h with h | h
    · have := h.first_eq
      omega
    · have hdiv : s.pos / fs.bs = s.readLastLogical := by
        rw [h.range.aligned, Nat.mul_div_cancel _ hbs]
      have := h.first_eq
      omega
  rw [readIterator, if_neg (by omega)]
  simp only [Int.toNat_natCast]
  rw [if_neg hreached]

/-- The range is read first, then the block is treated as if no range had been open. -/
theorem readOther_dumped {t : ReadState} (blocknr lg : Nat) (hstart : s.readRangeStart ≠ 0)
    (hdump : readDumpRange fs disk s = (t, false)) (ht : t.readRangeStart = 0) :
    readOther fs disk blocknr lg s = readOther fs disk blocknr lg t := by
  simp only [readOther, ne_eq, hstart, not_false_eq_true, if_true, hdump, ht,
    not_true_eq_false, if_false]

theorem Closed.readOther {blocknr lg first reach : Nat}
    (h : Closed fs.bs disk all start size s first reach) (hfs : fs.Reads)
    (hend : start + size < 2 ^ 64) (hsize : size < 2 ^ 32) (hle : first ≤ lg)
    (hlg : lg < 2 ^ 31) (hfree : ∀ l, first ≤ l → l < lg → physical all l = none)
    (hblock : physical all lg = some blocknr) (hnr : 0 < blocknr) (hnr' : blocknr < 2 ^ 32)
    (hfit : HoleFits fs.bs (start + size) reach lg) :
    (∃ t, readOther fs disk blocknr lg s = (t, true)
        ∧ Ended fs.bs disk all start size t ∧ start + size ≤ (lg + 1) * fs.bs)
      ∨ ∃ t, readOther fs disk blocknr lg s = (t, false)
        ∧ Right fs.bs disk all start size t (lg + 1) ((lg + 1) * fs.bs) := by
  have hnext : (lg + 1) * fs.bs = lg * fs.bs + fs.bs := by rw [Nat.add_mul, Nat.one_mul]
  rcases h.readHole hfs hend hsize hle hlg hfree hfit with
    ⟨t, hstep, hended, hcover⟩ | ⟨t, reach', hstep, ht⟩
  · refine .inl ⟨t, ?_, hended, by omega⟩
    simp only [Ext2.readOther, h.rangeStart, ne_eq, not_true_eq_false, if_false, hstep]
  · have hrun : Ext2.readOther fs disk blocknr lg s = Ext2.readBlock fs disk blocknr lg t := by
      simp only [Ext2.readOther, h.rangeStart, ne_eq, not_true_eq_false, if_false, hstep]
    rw [hrun]
    exact ht.readBlock hfs hend hsize hlg hblock hnr hnr'

/-- **One call**: on a data block behind a hole that fits, the iterator goes on with
everything up to the block delivered or in the range, or it ends with the request
covered. -/
theorem Right.next {blocknr lg first reach : Nat}
    (h : Right fs.bs disk all start size s first reach) (hfs : fs.Reads)
    (hend : start + size < 2 ^ 64) (hsize : size < 2 ^ 32) (hle : first ≤ lg)
    (hlg : lg < 2 ^ 31) (hfree : ∀ l, first ≤ l → l < lg → physical all l = none)
    (hblock : physical all lg = some blocknr) (hnr : 0 < blocknr) (hnr' : blocknr < 2 ^ 32)
    (hfit : HoleFits fs.bs (start + size) reach lg) :
    (∃ t, readIterator fs disk blocknr (lg : Int) s = (t, true)
        ∧ Ended fs.bs disk all start size t ∧ start + size ≤ (lg + 1) * fs.bs)
      ∨ ∃ t, readIterator fs disk blocknr (lg : Int) s = (t, false)
        ∧ Right fs.bs disk all start size t (lg + 1) ((lg + 1) * fs.bs) := by
  rw [readIterator_data h hle hfs.bs_pos]
  rcases h with h | h
  · -- no range is open
    rw [if_neg (by rw [h.rangeStart]; simp)]
    exact h.readOther hfs hend hsize hle hlg hfree hblock hnr hnr' hfit
  · by_cases hcont : s.readRangeStart ≠ 0 ∧ s.readRangeCount < maxReadRange
        ∧ blocknr = u32 (s.readRangeStart + s.readRangeCount)
        ∧ lg = u32 (s.readLastLogical + s.readRangeCount)
    · obtain ⟨-, hcount, hphys, hlog⟩ := hcont
      have hbound := h.range.logical_le
      have hphys' := h.range.physical_le
      have hfeq := h.first_eq
      have hlast : lg = first := by
        rw [u32_of_lt (by omega)] at hlog
        omega
      subst hlast
      have hnr'' : blocknr = s.readRangeStart + s.readRangeCount := by
        by_cases hwrap : s.readRangeStart + s.readRangeCount < 2 ^ 32
        · rwa [u32_of_lt hwrap] at hphys
        · rw [show s.readRangeStart + s.readRangeCount = 2 ^ 32 by omega, u32,
            Nat.mod_self] at hphys
          omega
      have hbytes : (s.readRangeCount + 1) * fs.bs < 2 ^ 32 := by
        have hc : s.readRangeCount + 1 ≤ 256 := hcount
        have hb := hfs.bs_lt
        have := Nat.mul_le_mul_right fs.bs hc
        omega
      rw [if_pos ⟨h.range.started, hcount, hphys, hlog⟩, u32_of_lt hbytes]
      obtain ⟨hfull, hmore⟩ := h.extend hcount hlg hblock hnr' hnr''
      by_cases hcover : s.readMax ≤ (s.readRangeCount + 1) * fs.bs
      · exact .inl ⟨_, by rw [decide_eq_true hcover], hfull hcover⟩
      · exact .inr ⟨_, by rw [decide_eq_false hcover], hmore hcover⟩
    · rw [if_neg hcont]
      obtain ⟨t, hdump, ht⟩ := h.dump hfs hend hsize
      rw [readOther_dumped blocknr lg h.range.started hdump ht.rangeStart]
      exact ht.readOther hfs hend hsize hle hlg hfree hblock hnr hnr' hfit

/-! ## §7 A run over holes that fit -/

/-- Every hole between the blocks, measured from `reach` on, fits. -/
def HolesFit (bs limit : Nat) : Nat → List (Nat × Nat) → Prop
  | _, [] => True
  | reach, (_, lg) :: rest =>
    HoleFits bs limit reach lg ∧ HolesFit bs limit ((lg + 1) * bs) rest

/-- Behind the request no hole matters. -/
theorem holesFit_beyond {bs limit : Nat} (blocks : List (Nat × Nat)) : ∀ {first reach : Nat},
    Ascending first blocks → limit ≤ reach → limit ≤ (first + 1) * bs →
    HolesFit bs limit reach blocks := by
  induction blocks with
  | nil =>
    intro first reach _ _ _
    trivial
  | cons b rest ih =>
    intro first reach hasc hle hfirst
    have hnext : (first + 1) * bs ≤ (b.2 + 1) * bs :=
      Nat.mul_le_mul_right _ (Nat.succ_le_succ hasc.1)
    have hnext' : (b.2 + 1) * bs ≤ (b.2 + 1 + 1) * bs :=
      Nat.mul_le_mul_right _ (Nat.le_succ _)
    exact ⟨.inr (by omega), ih hasc.2.2.2.2 (by omega) (by omega)⟩

theorem blockCount_cons {b : Nat × Nat} {rest : List (Nat × Nat)} : ∀ {first : Nat},
    Ascending first (b :: rest) → blockCount (b :: rest) = max (b.2 + 1) (blockCount rest) := by
  induction rest generalizing b with
  | nil =>
    intro first _
    simp [blockCount]
  | cons c rest ih =>
    intro first hasc
    have htail := ih hasc.2.2.2.2
    have hlt := hasc.2.2.2.2.1
    have hsame : blockCount (b :: c :: rest) = blockCount (c :: rest) := by
      simp only [blockCount, List.getLast?_cons_cons]
    rw [hsame, htail]
    omega

/-- The data blocks as they are reported. -/
def reported (blocks : List (Nat × Nat)) : List (Nat × Int) :=
  blocks.map fun b => (b.1, (b.2 : Int))

/-- `ext2_read` after the iteration. -/
def readRun (fs : Filsys) (disk : Bytes) (blocks : List (Nat × Nat)) (s : ReadState) :
    ReadState :=
  let r := ext2fsBlockIterate (readIterator fs disk) (reported blocks) s
  readFinish fs disk r.1 r.2

theorem readRun_abort {b : Nat × Nat} {t : ReadState}
    (h : readIterator fs disk b.1 (b.2 : Int) s = (t, true)) (rest : List (Nat × Nat)) :
    readRun fs disk (b :: rest) s = readFinish fs disk t true := by
  simp only [readRun, reported, List.map_cons, ext2fsBlockIterate, h]

theorem readRun_go {b : Nat × Nat} {t : ReadState}
    (h : readIterator fs disk b.1 (b.2 : Int) s = (t, false)) (rest : List (Nat × Nat)) :
    readRun fs disk (b :: rest) s = readRun fs disk rest t := by
  simp only [readRun, reported, List.map_cons, ext2fsBlockIterate, h]

/-- What the blocks still to be reported say about the file. -/
theorem remaining_tail {b : Nat × Nat} {rest : List (Nat × Nat)} {first : Nat}
    (hall : ∀ l, first ≤ l → physical all l = physical (b :: rest) l)
    (hasc : Ascending first (b :: rest)) :
    (∀ l, first ≤ l → l < b.2 → physical all l = none) ∧ physical all b.2 = some b.1
      ∧ ∀ l, b.2 + 1 ≤ l → physical all l = physical rest l := by
  have hle := hasc.1
  refine ⟨fun l hl hlt => ?_, ?_, fun l hl => ?_⟩
  · rw [hall l hl]
    have hne : (b.2 == l) = false := beq_eq_false_iff_ne.mpr (by omega)
    have hnone := physical_before hasc.2.2.2.2 (show l < b.2 + 1 by omega)
    rw [physical, List.find?_cons, hne]
    exact hnone
  · rw [hall b.2 hle, physical_head]
  · rw [hall l (by omega), physical_tail (by omega)]

/-- **A run over holes that fit** delivers the request, or the file up to its last block. -/
theorem Right.run (hfs : fs.Reads) (hend : start + size < 2 ^ 64) (hsize : size < 2 ^ 32)
    (rest : List (Nat × Nat)) : ∀ s first reach, Right fs.bs disk all start size s first reach →
    Ascending first rest → (∀ l, first ≤ l → physical all l = physical rest l) →
    HolesFit fs.bs (start + size) reach rest →
    Delivered fs.bs disk all start (readRun fs disk rest s)
      (min size (max first (blockCount rest) * fs.bs - start)) := by
  induction rest with
  | nil =>
    intro s first reach h _ _ _
    have hdone := h.finish hfs hend hsize false
    rwa [show max first (blockCount []) = first by simp [blockCount]]
  | cons b rest ih =>
    intro s first reach h hasc hall hfits
    obtain ⟨hfree, hblock, htail⟩ := remaining_tail hall hasc
    obtain ⟨hle, hlg, hnr, hnr', hrest⟩ := hasc
    have hcount : blockCount (b :: rest) = max (b.2 + 1) (blockCount rest) :=
      blockCount_cons ⟨hle, hlg, hnr, hnr', hrest⟩
    rcases h.next hfs hend hsize hle hlg hfree hblock hnr hnr' hfits.1 with
      ⟨t, hstep, hended, hcover⟩ | ⟨t, hstep, ht⟩
    · rw [readRun_abort hstep]
      have hlen : (b.2 + 1) * fs.bs ≤ max first (blockCount (b :: rest)) * fs.bs :=
        Nat.mul_le_mul_right _ (by omega)
      rw [Nat.min_eq_left (by omega)]
      exact hended.finish hfs hend hsize true
    · rw [readRun_go hstep]
      have hmax : max first (blockCount (b :: rest)) = max (b.2 + 1) (blockCount rest) := by
        omega
      rw [hmax]
      exact ih t _ _ ht hrest htail hfits.2

/-! ## §8 A block put into a hole -/

/-- Byte `k` of the buffer is a 1 for good. -/
structure Fixed (k : Nat) (s : ReadState) : Prop where
  result : s.readResult = 0
  behind : k < s.stored
  byte : s.buf k = some 1

/-- The open range goes to byte `k` of the buffer. -/
structure Pending (k : Nat) (s : ReadState) : Prop where
  result : s.readResult = 0
  here : s.stored = k
  started : s.readRangeStart ≠ 0
  count_pos : 0 < s.readRangeCount
  count_le : s.readRangeCount ≤ maxReadRange
  rest_pos : 0 < s.readMax
  rest_lt : s.readMax < 2 ^ 32

/-- A block full of ones has come, or will come, to byte `k` of the buffer. -/
def Landed (k : Nat) (s : ReadState) : Prop :=
  Fixed k s ∨ Pending k s ∨ s.readResult = 0 ∧ s.readRangeStart = 0 ∧ s.buf k = some 1

/-- The device on which the readers are told apart. -/
def ones : Bytes := fun _ => 1

theorem Fixed.deliver {k : Nat} (h : Fixed k s) (n : Nat) (f : Nat → UInt8) :
    Fixed k (s.deliver n f) := by
  refine ⟨h.result, Nat.lt_of_lt_of_le h.behind (Nat.le_add_right _ _), ?_⟩
  rw [deliver_buf, Buffer.store_before h.behind]
  exact h.byte

theorem dumpBlocks_ok (hfs : fs.Reads) (disk : Bytes) (count : Nat) (s : ReadState) :
    (dumpBlocks fs disk count s).2 = false := by
  rw [dumpBlocks]
  split
  · rfl
  · rw [if_neg (by rw [hfs.readBlk]; simp)]

theorem dumpRemaining_ok (hfs : fs.Reads) (disk : Bytes) (s : ReadState) : (dumpRemaining fs disk s).2 = false := by
  rw [dumpRemaining]
  split
  · rfl
  · rw [if_neg (by rw [hfs.readBlk]; simp)]

/-- Without an error `read_dump_range` reads whole blocks and then the remaining one. -/
theorem readDumpRange_eq (hfs : fs.Reads) (disk : Bytes) (s : ReadState) : ∃ count ≤ s.readRangeCount,
    (s.readMax = 0 ∨ count = s.readRangeCount ∨ count + 1 = s.readRangeCount) ∧
    ∃ t, t = (dumpRemaining fs disk (dumpBlocks fs disk count s).1).1
      ∧ readDumpRange fs disk s
        = ({ t with readRangeCount := 0, readRangeStart := 0 }, decide (t.readMax = 0)) := by
  generalize hc : (if u32 (s.readRangeCount * fs.bs) > s.readMax then s.readRangeCount - 1
    else s.readRangeCount) = count
  have hcount : count = s.readRangeCount ∨ count = s.readRangeCount - 1 := by
    rw [← hc]
    split
    · exact .inr rfl
    · exact .inl rfl
  have hcase : s.readMax = 0 ∨ count = s.readRangeCount ∨ count + 1 = s.readRangeCount := by
    omega
  refine ⟨count, by omega, hcase, _, rfl, ?_⟩
  have hblocks := dumpBlocks_ok hfs disk count s
  simp only [readDumpRange, hc]
  generalize dumpBlocks fs disk count s = r at hblocks
  obtain ⟨t, flag⟩ := r
  obtain rfl : flag = false := hblocks
  have hremaining := dumpRemaining_ok hfs disk t
  simp only
  generalize dumpRemaining fs disk t = r at hremaining
  obtain ⟨t', flag⟩ := r
  obtain rfl : flag = false := hremaining
  rfl

theorem Fixed.dumpBlocks {k : Nat} (h : Fixed k s) (hfs : fs.Reads) (disk : Bytes)
    (count : Nat) :
    Fixed k (dumpBlocks fs disk count s).1 := by
  by_cases hzero : count = 0
  · rw [Ext2.dumpBlocks, if_pos hzero]
    exact h
  · rw [Ext2.dumpBlocks, if_neg hzero, if_neg (by rw [hfs.readBlk]; simp)]
    have hd := h.deliver (u32 (count * fs.bs)) fun i => disk (s.readRangeStart * fs.bs + i)
    exact ⟨rfl, hd.behind, hd.byte⟩

theorem Fixed.dumpRemaining {k : Nat} (h : Fixed k s) (hfs : fs.Reads) (disk : Bytes) :
    Fixed k (dumpRemaining fs disk s).1 := by
  by_cases hzero : s.readMax = 0 ∨ s.readRangeCount = 0
  · rw [Ext2.dumpRemaining, if_pos hzero]
    exact h
  · rw [Ext2.dumpRemaining, if_neg hzero, if_neg (by rw [hfs.readBlk]; simp)]
    have hd := h.deliver s.readMax fun i => disk (s.readRangeStart * fs.bs + i)
    exact ⟨rfl, h.behind, hd.byte⟩

theorem Fixed.dump {k : Nat} (h : Fixed k s) (hfs : fs.Reads) :
    Fixed k (readDumpRange fs disk s).1 := by
  obtain ⟨count, -, -, t, rfl, hdump⟩ := readDumpRange_eq hfs disk s
  have ht := (h.dumpBlocks hfs disk count).dumpRemaining hfs disk
  rw [hdump]
  exact ⟨ht.result, ht.behind, ht.byte⟩

/-- Reading the range puts its first byte at `k`; if the request is not covered then, it is
there for good. -/
theorem Pending.dump {k : Nat} (h : Pending k s) (hfs : fs.Reads) :
    Fixed k (readDumpRange fs ones s).1
      ∨ (readDumpRange fs ones s).2 = true ∧ (readDumpRange fs ones s).1.readResult = 0
        ∧ (readDumpRange fs ones s).1.readRangeStart = 0
        ∧ (readDumpRange fs ones s).1.buf k = some 1 := by
  have hbs := hfs.bs_pos
  have hbs' := hfs.bs_lt
  have hcount := h.count_pos
  have hmax := h.rest_pos
  have hle : s.readRangeCount ≤ 256 := h.count_le
  have hbytes : s.readRangeCount * fs.bs ≤ 256 * fs.bs := Nat.mul_le_mul_right _ hle
  obtain ⟨count, hcle, hcase, t, ht, hdump⟩ := readDumpRange_eq hfs ones s
  rw [hdump]
  by_cases hzero : count = 0
  · -- only the cut block
    have hone : t = { s.deliver s.readMax (fun i => ones (s.readRangeStart * fs.bs + i)) with
        readResult := 0, stored := s.stored } := by
      rw [ht, dumpBlocks, if_pos hzero, dumpRemaining,
        if_neg (show ¬ (s.readMax = 0 ∨ s.readRangeCount = 0) by omega),
        if_neg (by rw [hfs.readBlk]; simp)]
    have hdone : t.readMax = 0 := by
      rw [hone]
      show sub32 s.readMax s.readMax = 0
      rw [sub32_of_le (Nat.le_refl _) h.rest_lt, Nat.sub_self]
    have hbuf : t.buf = s.buf.store s.stored s.readMax
        (fun i => ones (s.readRangeStart * fs.bs + i)) := by rw [hone, deliver_buf]
    refine .inr ⟨decide_eq_true hdone, by rw [hone], rfl, ?_⟩
    show t.buf k = some 1
    rw [hbuf, ← h.here, Buffer.store_first hmax]
    rfl
  · have hpos : 0 < u32 (count * fs.bs) := by
      have h1 : count * fs.bs ≤ s.readRangeCount * fs.bs := Nat.mul_le_mul_right _ hcle
      have h2 : 0 < count * fs.bs := Nat.mul_pos (Nat.pos_of_ne_zero hzero) hbs
      rw [u32_of_lt (by omega)]
      exact h2
    have hfixed : Fixed k (dumpBlocks fs ones count s).1 := by
      rw [dumpBlocks, if_neg hzero, if_neg (by rw [hfs.readBlk]; simp)]
      refine ⟨rfl, ?_, ?_⟩
      · rw [← h.here]
        exact Nat.lt_add_of_pos_right hpos
      · rw [deliver_buf, ← h.here, Buffer.store_first hpos]
        rfl
    have hd := hfixed.dumpRemaining hfs ones
    rw [← ht] at hd
    exact .inl ⟨hd.result, hd.behind, hd.byte⟩

theorem Fixed.readHole {k : Nat} (h : Fixed k s) (fs : Filsys) (lg : Nat) :
    Fixed k (readHole fs lg s).1 := by
  have hpartial : Fixed k (holePartial fs s).1 := by
    rw [Ext2.holePartial]
    split
    · exact h
    · have hd := h.deliver (min (fs.bs - s.pos % fs.bs) s.readMax) fun _ => 0
      exact ⟨hd.result, hd.behind, hd.byte⟩
  have hblocks : ∀ t, Fixed k t → Fixed k (holeBlocks fs lg t).1 := by
    intro t ht
    have hd := ht.deliver (min (u32 (sub32 lg t.readLastLogical * fs.bs)) t.readMax) fun _ => 0
    simp only [Ext2.holeBlocks]
    split
    · exact ⟨ht.result, ht.behind, ht.byte⟩
    · split
      · exact hd
      · exact ⟨hd.result, hd.behind, hd.byte⟩
  rw [Ext2.readHole]
  split
  · exact h
  · generalize holePartial fs s = r at hpartial
    obtain ⟨t, _ | _⟩ := r
    · exact hblocks t hpartial
    · exact hpartial

theorem Fixed.readBlock {k : Nat} (h : Fixed k s) (hfs : fs.Reads) (blocknr lg : Nat) :
    Fixed k (readBlock fs disk blocknr lg s).1 := by
  rw [Ext2.readBlock]
  split
  · rw [if_neg (by rw [hfs.readBlk]; simp)]
    have hd := h.deliver (min (fs.bs - s.pos % fs.bs) s.readMax)
      fun i => disk (blocknr * fs.bs + s.pos % fs.bs + i)
    exact ⟨rfl, hd.behind, hd.byte⟩
  · split
    · exact ⟨h.result, h.behind, h.byte⟩
    · exact h

/-- With no range open, a fixed byte stays. -/
theorem Fixed.readOther {k : Nat} (h : Fixed k s) (hfs : fs.Reads) (disk : Bytes)
    (blocknr lg : Nat) (hzero : s.readRangeStart = 0) : Fixed k (readOther fs disk blocknr lg s).1 := by
  simp only [Ext2.readOther, hzero, ne_eq, not_true_eq_false, if_false]
  have hh := h.readHole fs lg
  generalize Ext2.readHole fs lg s = r at hh
  obtain ⟨t, _ | _⟩ := r
  · exact hh.readBlock hfs blocknr lg
  · exact hh

/-- **What has landed stays**: no further call undoes it. -/
theorem Landed.iterator {k : Nat} (h : Landed k s) (hfs : fs.Reads)
    (hopen : s.readRangeStart = 0 → Fixed k s) (blocknr lg : Nat) :
    Landed k (readIterator fs ones blocknr (lg : Int) s).1
      ∧ ((readIterator fs ones blocknr (lg : Int) s).2 = false →
        (readIterator fs ones blocknr (lg : Int) s).1.readRangeStart = 0 →
        Fixed k (readIterator fs ones blocknr (lg : Int) s).1) := by
  rw [readIterator, if_neg (by omega)]
  simp only [Int.toNat_natCast]
  by_cases hskip : lg < s.pos / fs.bs
  · rw [if_pos hskip]
    exact ⟨h, fun _ => hopen⟩
  rw [if_neg hskip]
  by_cases hcont : s.readRangeStart ≠ 0 ∧ s.readRangeCount < maxReadRange
      ∧ blocknr = u32 (s.readRangeStart + s.readRangeCount)
      ∧ lg = u32 (s.readLastLogical + s.readRangeCount)
  · rw [if_pos hcont]
    refine ⟨?_, fun _ hzero => absurd hzero hcont.1⟩
    rcases h with h | h | h
    · exact .inl ⟨h.result, h.behind, h.byte⟩
    · exact .inr (.inl ⟨h.result, h.here, h.started, Nat.succ_pos _, hcont.2.1, h.rest_pos,
        h.rest_lt⟩)
    · exact absurd h.2.1 hcont.1
  rw [if_neg hcont]
  by_cases hzero : s.readRangeStart = 0
  · have hf := (hopen hzero).readOther hfs ones blocknr lg hzero
    exact ⟨.inl hf, fun _ _ => hf⟩
  -- the range is read
  have hdump : Fixed k (readDumpRange fs ones s).1
      ∨ (readDumpRange fs ones s).2 = true ∧ (readDumpRange fs ones s).1.readResult = 0
        ∧ (readDumpRange fs ones s).1.readRangeStart = 0
        ∧ (readDumpRange fs ones s).1.buf k = some 1 := by
    rcases h with h | h | h
    · exact .inl (h.dump hfs)
    · exact h.dump hfs
    · exact absurd h.2.1 hzero
  have hclosed : (readDumpRange fs ones s).1.readRangeStart = 0 := by
    obtain ⟨count, -, -, t, -, heq⟩ := readDumpRange_eq hfs ones s
    rw [heq]
  generalize hr : readDumpRange fs ones s = r at hdump hclosed
  obtain ⟨t, _ | _⟩ := r
  · rcases hdump with hf | hbad
    · rw [readOther_dumped blocknr lg hzero hr hclosed]
      have hf' := hf.readOther hfs ones blocknr lg hclosed
      exact ⟨.inl hf', fun _ _ => hf'⟩
    · exact absurd hbad.1 Bool.false_ne_true
  · have hstop : readOther fs ones blocknr lg s = (t, true) := by
      simp only [readOther, ne_eq, hzero, not_false_eq_true, if_true, hr]
    rw [hstop]
    refine ⟨?_, fun hfalse => absurd hfalse.symm Bool.false_ne_true⟩
    rcases hdump with hf | hbad
    · exact .inl hf
    · exact .inr (.inr hbad.2)

theorem Landed.finish {k : Nat} (h : Landed k s) (hfs : fs.Reads) (aborted : Bool) :
    (readFinish fs ones s aborted).buf k = some 1 := by
  have hres : s.readResult = 0 := by
    rcases h with h | h | h
    · exact h.result
    · exact h.result
    · exact h.1
  rw [readFinish_eq hfs hres]
  split
  · rcases h with h | h | h
    · exact (h.dump hfs).byte
    · rcases h.dump hfs with hf | hbad
      · exact hf.byte
      · exact hbad.2.2.2
    · exact absurd h.2.1 ‹_›
  · rcases h with h | h | h
    · exact h.byte
    · exact absurd h.started ‹_›
    · exact h.2.2

theorem Landed.run (hfs : fs.Reads) {k : Nat} (rest : List (Nat × Nat)) :
    ∀ s, Landed k s → (s.readRangeStart = 0 → Fixed k s) →
    (readRun fs ones rest s).buf k = some 1 := by
  induction rest with
  | nil =>
    intro s h _
    exact h.finish hfs false
  | cons b rest ih =>
    intro s h hopen
    obtain ⟨hland, hgo⟩ := h.iterator hfs hopen b.1 b.2
    generalize hr : readIterator fs ones b.1 (b.2 : Int) s = r at hland hgo
    obtain ⟨t, _ | _⟩ := r
    · rw [readRun_go hr]
      exact ih t hland (hgo rfl)
    · rw [readRun_abort hr]
      exact hland.finish hfs true

/-- A hole whose length is cut in 32 bits is filled too short: the file position stays inside
it. -/
theorem Closed.readHole_wrong {first reach lg : Nat}
    (h : Closed fs.bs disk all start size s first reach) (hfs : fs.Reads)
    (hend : start + size < 2 ^ 64) (hsize : size < 2 ^ 32) (hle : first ≤ lg)
    (hlg : lg < 2 ^ 31) (hfree : ∀ l, first ≤ l → l < lg → physical all l = none)
    (hbad : ¬ HoleFits fs.bs (start + size) reach lg) :
    ∃ t, Ext2.readHole fs lg s = (t, false) ∧ Sound fs.bs disk all start size t
      ∧ t.readResult = 0 ∧ 0 < t.readMax ∧ t.readRangeStart = 0
      ∧ fileByte fs.bs disk all t.pos = 0 := by
  have hbs := hfs.bs_pos
  simp only [HoleFits, not_or, Nat.not_lt, Nat.not_le] at hbad
  obtain ⟨hlarge, hbefore⟩ := hbad
  have hlt : first < lg := by
    by_contra hno
    have hmul : lg * fs.bs ≤ first * fs.bs := Nat.mul_le_mul_right _ (by omega)
    have hreach : first * fs.bs ≤ reach := by
      rw [h.reach_eq, roundUp, h.first_eq]
      split
      · exact Nat.div_mul_le_self _ _
      · exact Nat.mul_le_mul_right _ (Nat.le_succ _)
    omega
  have hskip : ¬ (lg = 0 ∨ lg = s.readLastLogical) := by
    rw [h.last]
    omega
  rcases h.holePartial hfs hend hsize hlt hlg hfree with
    ⟨t, -, -, hcover, -⟩ | ⟨t, next, hstep, hnext, hnext', hreach, hpos, ht⟩
  · omega
  have hfree' : ∀ l, next ≤ l → l < lg → physical all l = none :=
    fun l hl hl' => hfree l (Nat.le_trans hnext hl) hl'
  have hmul : next * fs.bs ≤ lg * fs.bs := Nat.mul_le_mul_right _ hnext'
  have hmax := ht.rest_pos
  have hrest := ht.sound.rest
  have hstart := ht.sound.pos_eq
  have hnzero := nzero_eq fs.bs hnext' hlg
  rw [← hreach, ← ht.last] at hnzero
  generalize hn : u32 (sub32 lg t.readLastLogical * fs.bs) = nzero at hnzero
  have hnlt : nzero < 2 ^ 32 := hnzero ▸ Nat.mod_lt _ (by decide)
  rw [← hnzero] at hbefore
  rw [Ext2.readHole, if_neg hskip, hstep]
  simp only [Ext2.holeBlocks, hn]
  by_cases hzero : nzero = 0
  · rw [if_pos hzero]
    exact ⟨_, rfl, ⟨⟨rfl, ht.sound.delivered.pos, ht.sound.delivered.buf⟩, ht.sound.stored,
      ht.sound.rest⟩, ht.result, hmax, ht.rangeStart,
      fileByte_hole hbs hfree' (by show _ ≤ t.pos; omega) (by show t.pos < _; omega)⟩
  · have hmin : min nzero t.readMax = nzero := by omega
    obtain ⟨hs', hmax', hpos', -⟩ := ht.sound.deliver hend hsize
      (show nzero ≤ t.readMax by omega) (f := fun _ => 0) fun i hi =>
        (fileByte_hole hbs hfree' (by omega) (by omega)).symm
    rw [if_neg hzero, hmin, if_neg (by omega)]
    refine ⟨{ t.deliver nzero (fun _ => 0) with readLastLogical := lg }, rfl,
      ⟨⟨rfl, hs'.delivered.pos, hs'.delivered.buf⟩, hs'.stored, hs'.rest⟩, ht.result, ?_,
      ht.rangeStart, fileByte_hole hbs hfree' ?_ ?_⟩
    · show 0 < (t.deliver nzero fun _ => 0).readMax
      omega
    · show _ ≤ (t.deliver nzero fun _ => 0).pos
      omega
    · show (t.deliver nzero fun _ => 0).pos < _
      omega

/-- The block behind such a hole goes to the file position. -/
theorem readBlock_lands {blocknr lg : Nat} (hs : Sound fs.bs ones all start size s)
    (hfs : fs.Reads) (hsize : size < 2 ^ 32) (hres : s.readResult = 0) (hmax : 0 < s.readMax)
    (hnr : 0 < blocknr) :
    Landed s.readTotal (readBlock fs ones blocknr lg s).1
      ∧ ((readBlock fs ones blocknr lg s).1.readRangeStart = 0 →
        Fixed s.readTotal (readBlock fs ones blocknr lg s).1) := by
  have hmod := Nat.mod_lt s.pos hfs.bs_pos
  have hrest := hs.rest
  by_cases hal : s.pos % fs.bs = 0
  · rw [readBlock, if_neg (by omega), if_pos (by omega)]
    refine ⟨.inr (.inl ⟨hres, hs.stored, by show blocknr ≠ 0; omega, Nat.one_pos,
      show 1 ≤ 256 by decide, hmax, by show s.readMax < 2 ^ 32; omega⟩), fun hzero => ?_⟩
    have hzero : blocknr = 0 := hzero
    omega
  · have hn : 0 < min (fs.bs - s.pos % fs.bs) s.readMax := by omega
    rw [readBlock, if_pos hal, if_neg (by rw [hfs.readBlk]; simp)]
    have hf : Fixed s.readTotal { s.deliver (min (fs.bs - s.pos % fs.bs) s.readMax)
        (fun i => ones (blocknr * fs.bs + s.pos % fs.bs + i)) with
          readResult := 0
          readLastLogical := u32 (lg + 1) } := by
      refine ⟨rfl, ?_, ?_⟩
      · show s.readTotal < s.stored + _
        rw [hs.stored]
        exact Nat.lt_add_of_pos_right hn
      · rw [deliver_buf, ← hs.stored, Buffer.store_first hn]
        rfl
    exact ⟨.inl hf, fun _ => hf⟩

/-- **A block put into a hole**: behind a hole that does not fit, the block lands at a file
position that the hole covers. -/
theorem Right.misplaced {blocknr lg first reach : Nat}
    (h : Right fs.bs ones all start size s first reach) (hfs : fs.Reads)
    (hend : start + size < 2 ^ 64) (hsize : size < 2 ^ 32) (hle : first ≤ lg)
    (hlg : lg < 2 ^ 31) (hfree : ∀ l, first ≤ l → l < lg → physical all l = none)
    (hnr : 0 < blocknr) (hbad : ¬ HoleFits fs.bs (start + size) reach lg) :
    ∃ k, fileByte fs.bs ones all (start + k) = 0
      ∧ Landed k (readIterator fs ones blocknr (lg : Int) s).1
      ∧ ((readIterator fs ones blocknr (lg : Int) s).1.readRangeStart = 0 →
        Fixed k (readIterator fs ones blocknr (lg : Int) s).1) := by
  have hother : ∀ t, Closed fs.bs ones all start size t first reach →
      ∃ k, fileByte fs.bs ones all (start + k) = 0
        ∧ Landed k (readOther fs ones blocknr lg t).1
        ∧ ((readOther fs ones blocknr lg t).1.readRangeStart = 0 →
          Fixed k (readOther fs ones blocknr lg t).1) := by
    intro t ht
    obtain ⟨t', hstep, hs', hres, hmax, -, hbyte⟩ :=
      ht.readHole_wrong hfs hend hsize hle hlg hfree hbad
    have hrun : readOther fs ones blocknr lg t = readBlock fs ones blocknr lg t' := by
      simp only [readOther, ht.rangeStart, ne_eq, not_true_eq_false, if_false, hstep]
    rw [hrun]
    exact ⟨t'.readTotal, by rw [← hs'.pos_eq]; exact hbyte,
      readBlock_lands hs' hfs hsize hres hmax hnr⟩
  rw [readIterator_data h hle hfs.bs_pos]
  rcases h with h | h
  · rw [if_neg (by rw [h.rangeStart]; simp)]
    exact hother s h
  · have hgap : lg ≠ u32 (s.readLastLogical + s.readRangeCount) := by
      have hbound := h.range.logical_le
      rw [u32_of_lt (by omega), ← h.first_eq]
      rintro rfl
      rw [HoleFits, h.reach_eq, Nat.sub_self] at hbad
      exact hbad (.inl (by decide))
    obtain ⟨t, hdump, ht⟩ := h.dump hfs hend hsize
    rw [if_neg (fun hcont => hgap hcont.2.2.2),
      readOther_dumped blocknr lg h.range.started hdump ht.rangeStart]
    exact hother t ht

/-- In a run that comes to a hole that does not fit, some byte of a hole is delivered as
data. -/
theorem Right.run_misplaced (hfs : fs.Reads) (hend : start + size < 2 ^ 64)
    (hsize : size < 2 ^ 32) (rest : List (Nat × Nat)) :
    ∀ s first reach, Right fs.bs ones all start size s first reach → Ascending first rest →
    (∀ l, first ≤ l → physical all l = physical rest l) →
    ¬ HolesFit fs.bs (start + size) reach rest →
    ∃ k, fileByte fs.bs ones all (start + k) = 0 ∧ (readRun fs ones rest s).buf k = some 1 := by
  induction rest with
  | nil =>
    intro s first reach _ _ _ hbad
    exact absurd trivial hbad
  | cons b rest ih =>
    intro s first reach h hasc hall hbad
    obtain ⟨hfree, hblock, htail⟩ := remaining_tail hall hasc
    obtain ⟨hle, hlg, hnr, hnr', hrest⟩ := hasc
    by_cases hfit : HoleFits fs.bs (start + size) reach b.2
    · have hbad' : ¬ HolesFit fs.bs (start + size) ((b.2 + 1) * fs.bs) rest :=
        fun hfits => hbad ⟨hfit, hfits⟩
      rcases h.next hfs hend hsize hle hlg hfree hblock hnr hnr' hfit with
        ⟨t, hstep, hended, hcover⟩ | ⟨t, hstep, ht⟩
      · have hnext : (b.2 + 1) * fs.bs ≤ (b.2 + 1 + 1) * fs.bs :=
          Nat.mul_le_mul_right _ (Nat.le_succ _)
        exact absurd (holesFit_beyond rest hrest hcover (by omega)) hbad'
      · rw [readRun_go hstep]
        exact ih t _ _ ht hrest htail hbad'
    · obtain ⟨k, hbyte, hland, hgo⟩ := h.misplaced hfs hend hsize hle hlg hfree hnr hfit
      refine ⟨k, hbyte, ?_⟩
      generalize hr : readIterator fs ones b.1 (b.2 : Int) s = r at hland hgo
      obtain ⟨t, _ | _⟩ := r
      · rw [readRun_go hr]
        exact hland.run hfs rest t hgo
      · rw [readRun_abort hr]
        exact hland.finish hfs true

/-! ## §9 The whole read -/

/-- The metadata blocks change nothing. -/
theorem iterate_dataBlocks (blocks : List (Nat × Int)) : ∀ s,
    ext2fsBlockIterate (readIterator fs disk) blocks s
      = ext2fsBlockIterate (readIterator fs disk) (reported (dataBlocks blocks)) s := by
  induction blocks with
  | nil =>
    intro s
    rfl
  | cons b rest ih =>
    intro s
    by_cases hneg : b.2 < 0
    · have hdata : dataBlocks (b :: rest) = dataBlocks rest := by
        rw [dataBlocks, List.filterMap_cons, if_pos hneg]
        rfl
      have hskip : readIterator fs disk b.1 b.2 s = (s, false) := by
        rw [readIterator, if_pos hneg]
      rw [hdata, ← ih s]
      simp only [ext2fsBlockIterate, hskip]
    · have hdata : dataBlocks (b :: rest) = (b.1, b.2.toNat) :: dataBlocks rest := by
        rw [dataBlocks, List.filterMap_cons, if_neg hneg]
        rfl
      have hlg : ((b.2.toNat : Nat) : Int) = b.2 := Int.toNat_of_nonneg (by omega)
      rw [hdata]
      simp only [reported, List.map_cons, ext2fsBlockIterate, hlg]
      generalize readIterator fs disk b.1 b.2 s = r
      obtain ⟨t, _ | _⟩ := r
      · exact ih t
      · rfl

/-- The data blocks from the file position on. -/
def blocksFrom (bs pos : Nat) (blocks : List (Nat × Nat)) : List (Nat × Nat) :=
  blocks.dropWhile fun b => decide (b.2 < pos / bs)

/-- The blocks before the file position are passed over. -/
theorem readRun_blocksFrom (fs : Filsys) (disk : Bytes) (start size : Nat)
    (blocks : List (Nat × Nat)) :
    readRun fs disk blocks (readStart fs start size)
      = readRun fs disk (blocksFrom fs.bs start blocks) (readStart fs start size) := by
  induction blocks with
  | nil => rfl
  | cons b rest ih =>
    by_cases hskip : b.2 < start / fs.bs
    · have hstep : readIterator fs disk b.1 (b.2 : Int) (readStart fs start size)
          = (readStart fs start size, false) := by
        rw [readIterator, if_neg (by omega)]
        exact if_pos hskip
      rw [readRun_go hstep, ih, blocksFrom, blocksFrom, List.dropWhile_cons_of_pos (by simpa)]
    · rw [blocksFrom, List.dropWhile_cons_of_neg (by simpa using hskip)]

/-- What is left of the list after the blocks before block `n`. -/
theorem dropWhile_spec {n : Nat} (blocks : List (Nat × Nat)) : ∀ {first : Nat},
    Ascending first blocks →
    let left := blocks.dropWhile fun b => decide (b.2 < n)
    Ascending n left ∧ (∀ l, n ≤ l → physical blocks l = physical left l)
      ∧ max n (blockCount left) = max n (blockCount blocks) := by
  induction blocks with
  | nil =>
    intro first _
    exact ⟨trivial, fun _ _ => rfl, rfl⟩
  | cons b rest ih =>
    intro first hasc
    by_cases hskip : b.2 < n
    · rw [List.dropWhile_cons_of_pos (by simpa)]
      obtain ⟨hleft, hphys, hcount⟩ := ih hasc.2.2.2.2
      refine ⟨hleft, fun l hl => ?_, ?_⟩
      · rw [physical_tail (by omega), hphys l hl]
      · rw [hcount, blockCount_cons hasc]
        omega
    · rw [List.dropWhile_cons_of_neg (by simpa using hskip)]
      exact ⟨⟨Nat.le_of_not_lt hskip, hasc.2⟩, fun _ _ => rfl, rfl⟩

theorem ext2Read_eq_run (hfs : fs.Reads) (blocks : List (Nat × Int)) :
    ext2Read fs disk blocks start size
      = let t := readRun fs disk (blocksFrom fs.bs start (dataBlocks blocks))
          (readStart fs start size)
        (s32 t.readTotal, t.pos, t.buf) := by
  rw [← readRun_blocksFrom fs disk start size (dataBlocks blocks), ext2Read, if_pos hfs.opened,
    iterate_dataBlocks]
  rfl

/-- Where the iteration starts. -/
theorem readStart_closed (hpos : 0 < size) (hfirst : start / fs.bs < 2 ^ 31) :
    Closed fs.bs disk all start size (readStart fs start size) (start / fs.bs)
      (roundUp fs.bs start) where
  sound := ⟨⟨rfl, rfl, (Buffer.filled_zero _).symm⟩, rfl, Nat.zero_add _⟩
  result := rfl
  rest_pos := hpos
  rangeStart := rfl
  rangeCount := rfl
  last := u32_of_lt (by omega)
  first_eq := rfl
  first_le := Nat.le_of_lt hfirst
  reach_eq := rfl
  aligned := .inr rfl

/-- Nothing is wanted and nothing has been delivered. -/
structure Idle (start : Nat) (s : ReadState) : Prop where
  total : s.readTotal = 0
  pos : s.pos = start
  buf : s.buf = fun _ => none
  rest : s.readMax = 0
  result : s.readResult = 0

theorem Idle.deliver (h : Idle start s) (hstart : start < 2 ^ 64) (n : Nat) (f : Nat → UInt8) :
    Idle start (s.deliver (min n s.readMax) f) := by
  rw [h.rest, Nat.min_zero]
  refine ⟨?_, ?_, ?_, ?_, h.result⟩
  · simp only [ReadState.deliver, h.total]
    rfl
  · simp only [ReadState.deliver, h.pos, Nat.add_zero]
    exact u64_of_lt hstart
  · rw [deliver_buf, Buffer.store_zero, h.buf]
  · simp only [ReadState.deliver, h.rest]
    rfl

/-- A request for no bytes ends at the first block. -/
theorem Idle.readOther (h : Idle start s) (hfs : fs.Reads) (hstart : start < 2 ^ 64)
    (hzero : s.readRangeStart = 0) {blocknr : Nat} (hnr : 0 < blocknr) (lg : Nat) :
    ∃ t, readOther fs disk blocknr lg s = (t, true) ∧ Idle start t
      ∧ (t.readRangeStart ≠ 0 → t.readRangeCount = 1) := by
  have hhole : Idle start (readHole fs lg s).1 ∧ (readHole fs lg s).1.readRangeStart = 0 := by
    have hpartial : Idle start (holePartial fs s).1 ∧ (holePartial fs s).1.readRangeStart = 0 := by
      rw [holePartial]
      split
      · exact ⟨h, hzero⟩
      · have hd := h.deliver hstart (fs.bs - s.pos % fs.bs) fun _ => 0
        exact ⟨⟨hd.total, hd.pos, hd.buf, hd.rest, hd.result⟩, hzero⟩
    rw [readHole]
    split
    · exact ⟨h, hzero⟩
    · generalize holePartial fs s = r at hpartial
      obtain ⟨t, _ | _⟩ := r
      · obtain ⟨ht, htz⟩ := hpartial
        have ht : Idle start t := ht
        have hd := ht.deliver hstart (u32 (sub32 lg t.readLastLogical * fs.bs)) fun _ => 0
        simp only [holeBlocks]
        split
        · exact ⟨⟨ht.total, ht.pos, ht.buf, ht.rest, ht.result⟩, htz⟩
        · rw [if_pos hd.rest]
          exact ⟨hd, htz⟩
      · exact hpartial
  simp only [Ext2.readOther, hzero, ne_eq, not_true_eq_false, if_false]
  generalize readHole fs lg s = r at hhole
  obtain ⟨t, _ | _⟩ := r
  · obtain ⟨ht, htz⟩ := hhole
    have ht : Idle start t := ht
    simp only [readBlock]
    split
    · rw [if_neg (by rw [hfs.readBlk]; simp)]
      have hd := ht.deliver hstart (fs.bs - t.pos % fs.bs)
        fun i => disk (blocknr * fs.bs + t.pos % fs.bs + i)
      refine ⟨{ t.deliver (min (fs.bs - t.pos % fs.bs) t.readMax)
          (fun i => disk (blocknr * fs.bs + t.pos % fs.bs + i)) with
            readResult := 0
            readLastLogical := u32 (lg + 1) },
        by rw [decide_eq_true hd.rest], ⟨hd.total, hd.pos, hd.buf, hd.rest, rfl⟩,
        fun hne => absurd htz hne⟩
    · rw [if_pos (by omega)]
      refine ⟨{ t with readRangeStart := blocknr, readRangeCount := 1 },
        by rw [decide_eq_true (by rw [ht.rest]; exact Nat.zero_le _)],
        ⟨ht.total, ht.pos, ht.buf, ht.rest, ht.result⟩, fun _ => rfl⟩
  · exact ⟨t, rfl, hhole.1, fun hne => absurd hhole.2 hne⟩

theorem Idle.finish (h : Idle start s) (hfs : fs.Reads)
    (hcount : s.readRangeStart ≠ 0 → s.readRangeCount = 1) (aborted : Bool) :
    Delivered fs.bs disk all start (readFinish fs disk s aborted) 0 := by
  have hsame : Delivered fs.bs disk all start s 0 :=
    ⟨h.total, h.pos, by rw [h.buf, Buffer.filled_zero]⟩
  rw [readFinish_eq hfs h.result]
  split
  · have hone := hcount ‹_›
    have hbs := hfs.bs_pos
    have hbs' := hfs.bs_lt
    have hcut : u32 (1 * fs.bs) > 0 := by
      rw [Nat.one_mul, u32_of_lt (by omega)]
      exact hbs
    simp only [readDumpRange, hone, h.rest, hcut, if_true, Nat.sub_self, dumpBlocks,
      dumpRemaining, true_or]
    exact ⟨hsame.total, hsame.pos, hsame.buf⟩
  · exact hsame

theorem readRun_nothing (hfs : fs.Reads) (hstart : start < 2 ^ 64) (blocks : List (Nat × Nat))
    (hasc : Ascending (start / fs.bs) blocks) :
    Delivered fs.bs disk all start (readRun fs disk blocks (readStart fs start 0)) 0 := by
  have hidle : Idle start (readStart fs start 0) := ⟨rfl, rfl, rfl, rfl, rfl⟩
  cases blocks with
  | nil => exact hidle.finish hfs (fun hne => absurd rfl hne) false
  | cons b rest =>
    obtain ⟨t, hstep, ht, hcount⟩ : ∃ t, readOther fs disk b.1 b.2 (readStart fs start 0) = (t, true)
        ∧ Idle start t ∧ (t.readRangeStart ≠ 0 → t.readRangeCount = 1) :=
      hidle.readOther hfs hstart rfl hasc.2.2.1 b.2
    have hiter : readIterator fs disk b.1 (b.2 : Int) (readStart fs start 0) = (t, true) := by
      rw [readIterator, if_neg (by omega)]
      simp only [Int.toNat_natCast]
      rw [if_neg (show ¬ b.2 < (readStart fs start 0).pos / fs.bs from Nat.not_lt.mpr hasc.1),
        if_neg (fun hc => hc.1 rfl), hstep]
    rw [readRun_abort hiter]
    exact ht.finish hfs hcount true

end Steps

/-- The condition of the file: every hole between the blocks from the file position on fits
in 32 bits, or its cut length still covers the rest of the request. -/
def ReadFits (bs : Nat) (blocks : List (Nat × Nat)) (pos size : Nat) : Prop :=
  HolesFit bs (pos + size) (roundUp bs pos) (blocksFrom bs pos blocks)

/-- **Range reading against block by block reading**: on every device the two deliver the same
bytes, return the same count and leave the same file position, exactly if the holes fit. -/
theorem ext2Read_eq_naive_iff (fs : Filsys) (hfs : fs.Reads) (blocks : List (Nat × Int))
    (hasc : Ascending 0 (dataBlocks blocks)) (pos size : Nat) (hpos : pos < 2 ^ 64)
    (hsize : size < 2 ^ 32) :
    (∀ disk, ext2Read fs disk blocks pos size
        = naiveRead fs.bs disk (dataBlocks blocks) pos size)
      ↔ ReadFits fs.bs (dataBlocks blocks) pos size := by
  have hbs := hfs.bs_pos
  generalize hall : dataBlocks blocks = all at hasc
  obtain ⟨hleft, hphys, hcount⟩ := dropWhile_spec (n := pos / fs.bs) all hasc
  have hle : pos / fs.bs * fs.bs ≤ pos := Nat.div_mul_le_self _ _
  -- what either side means for one device
  have hsame : ∀ disk n, Delivered fs.bs disk all pos
      (readRun fs disk (blocksFrom fs.bs pos all) (readStart fs pos size)) n →
      ext2Read fs disk blocks pos size = deliveredResult fs.bs disk all pos n := by
    intro disk n hd
    rw [ext2Read_eq_run hfs, hall]
    simp only [deliveredResult]
    rw [hd.total, hd.pos, hd.buf]
  have hlength : readLength fs.bs all pos size
      = min size (max (pos / fs.bs) (blockCount all) * fs.bs - pos) := by
    rw [readLength]
    by_cases hcase : pos / fs.bs ≤ blockCount all
    · rw [Nat.max_eq_right hcase]
    · have hmul : blockCount all * fs.bs ≤ pos / fs.bs * fs.bs :=
        Nat.mul_le_mul_right _ (by omega)
      rw [Nat.max_eq_left (by omega)]
      omega
  simp only [naiveRead_eq hbs, ReadFits]
  by_cases hzero : size = 0
  · -- nothing is wanted
    subst hzero
    have hup : pos ≤ roundUp fs.bs pos ∧ pos ≤ (pos / fs.bs + 1) * fs.bs := by
      have hdm := Nat.div_add_mod pos fs.bs
      have hmod := Nat.mod_lt pos hbs
      have hmul : (pos / fs.bs + 1) * fs.bs = fs.bs * (pos / fs.bs) + fs.bs := by
        rw [Nat.add_mul, Nat.one_mul, Nat.mul_comm]
      rw [roundUp]
      split <;> omega
    refine iff_of_true (fun disk => ?_) (holesFit_beyond _ hleft hup.1 hup.2)
    rw [hsame disk 0 (readRun_nothing hfs hpos _ hleft), readLength, Nat.zero_min]
  cases hfrom : blocksFrom fs.bs pos all with
  | nil =>
    -- nothing is allocated from the position on
    have hend : max (pos / fs.bs) (blockCount all) = pos / fs.bs := by
      rw [← hcount]
      show max (pos / fs.bs) (blockCount (blocksFrom fs.bs pos all)) = pos / fs.bs
      rw [hfrom]
      simp [blockCount]
    refine iff_of_true (fun disk => ?_) trivial
    refine (hsame disk 0 ?_).trans ?_
    · rw [hfrom, readRun, reported, List.map_nil, ext2fsBlockIterate, readFinish_eq hfs rfl,
        if_neg (fun hne => hne rfl)]
      exact ⟨rfl, rfl, (Buffer.filled_zero _).symm⟩
    · rw [hlength, hend, Nat.sub_eq_zero_of_le hle, Nat.min_zero]
  | cons b rest =>
    have hleft' : Ascending (pos / fs.bs) (b :: rest) := hfrom ▸ hleft
    have hphys' : ∀ l, pos / fs.bs ≤ l → physical all l = physical (b :: rest) l :=
      fun l hl => by rw [hphys l hl, ← hfrom]; rfl
    have hcount' : max (pos / fs.bs) (blockCount (b :: rest))
        = max (pos / fs.bs) (blockCount all) := by
      rw [← hcount, ← hfrom]
      rfl
    have hfirst : pos / fs.bs < 2 ^ 31 := Nat.lt_of_le_of_lt hleft'.1 hleft'.2.1
    have hend : pos + size < 2 ^ 64 := by
      have hlt := hfs.bs_lt
      have hdm := Nat.div_add_mod pos fs.bs
      have hmod := Nat.mod_lt pos hbs
      have hmul : fs.bs * (pos / fs.bs) ≤ 2 ^ 23 * 2 ^ 31 :=
        Nat.mul_le_mul (Nat.le_of_lt hlt) (Nat.le_of_lt hfirst)
      omega
    have hstart : ∀ disk, Right fs.bs disk all pos size (readStart fs pos size)
        (pos / fs.bs) (roundUp fs.bs pos) :=
      fun disk => .inl (readStart_closed (Nat.pos_of_ne_zero hzero) hfirst)
    constructor
    · intro heq
      by_contra hbad
      obtain ⟨k, hbyte, hk⟩ := Right.run_misplaced hfs hend hsize (b :: rest) _ _ _
        (hstart ones) hleft' hphys' hbad
      have hbuf : (ext2Read fs ones blocks pos size).2.2 k = some 1 := by
        rw [ext2Read_eq_run hfs, hall, hfrom]
        exact hk
      rw [heq ones] at hbuf
      simp only [deliveredResult, Buffer.filled, hbyte] at hbuf
      split at hbuf
      · exact absurd hbuf (by decide)
      · exact absurd hbuf (by simp)
    · intro hfits disk
      have hd := Right.run hfs hend hsize (b :: rest) _ _ _ (hstart disk) hleft' hphys' hfits
      rw [hcount', ← hlength, ← hfrom] at hd
      exact hsame disk _ hd

/-! ## §10 Two files -/

/-- An open file with blocks of 4096 bytes on a device without read errors. -/
def sampleFilsys : Filsys where
  opened := true
  bs := 4096
  readBlk := fun _ _ => 0
  iterateAborted := 0

theorem sampleFilsys_reads : sampleFilsys.Reads :=
  ⟨rfl, by decide, by decide, fun _ _ => rfl, .inl rfl⟩

/-- The file's only block lies behind a hole of exactly 4 GiB, whose length is 0 as an
`unsigned long`: its first byte is returned as the first byte of the file. -/
theorem hugeHole_filled :
    Ascending 0 (dataBlocks [(7, 2 ^ 20)])
      ∧ (ext2Read sampleFilsys (fun _ => 1) [(7, 2 ^ 20)] 0 16).2.2 0 = some 1
      ∧ (naiveRead 4096 (fun _ => 1) (dataBlocks [(7, 2 ^ 20)]) 0 16).2.2 0 = some 0
      ∧ ext2Read sampleFilsys (fun _ => 1) [(7, 2 ^ 20)] 0 16
        ≠ naiveRead 4096 (fun _ => 1) (dataBlocks [(7, 2 ^ 20)]) 0 16 := by
  have hcode : (ext2Read sampleFilsys (fun _ => 1) [(7, 2 ^ 20)] 0 16).2.2 0 = some 1 := by
    decide
  have hnaive : (naiveRead 4096 (fun _ => 1) (dataBlocks [(7, 2 ^ 20)]) 0 16).2.2 0
      = some 0 := by
    decide
  refine ⟨⟨by decide, by decide, by decide, by decide, trivial⟩, hcode, hnaive, fun heq => ?_⟩
  rw [heq, hnaive] at hcode
  exact absurd hcode (by decide)

/-- Blocks 0, 1 and 5, with an indirect block among them. -/
def sampleBlocks : List (Nat × Int) := [(7, 0), (8, 1), (30, -1), (9, 5)]

theorem sampleBlocks_data : dataBlocks sampleBlocks = [(7, 0), (8, 1), (9, 5)] := by decide

theorem sampleBlocks_ascending : Ascending 0 (dataBlocks sampleBlocks) := by
  rw [sampleBlocks_data]
  exact ⟨by decide, by decide, by decide, by decide, by decide, by decide, by decide, by decide,
    by decide, by decide, by decide, by decide, trivial⟩

theorem sampleBlocks_fit : ReadFits 4096 (dataBlocks sampleBlocks) 100 20000 := by
  rw [sampleBlocks_data]
  exact ⟨.inl (by decide), .inl (by decide), .inl (by decide), trivial⟩

/-- The hole of three blocks is read as zeros. -/
theorem sampleBlocks_read :
    ext2Read sampleFilsys (fun i => UInt8.ofNat i) sampleBlocks 100 20000
      = naiveRead 4096 (fun i => UInt8.ofNat i) (dataBlocks sampleBlocks) 100 20000 :=
  (ext2Read_eq_naive_iff sampleFilsys sampleFilsys_reads sampleBlocks sampleBlocks_ascending 100
    20000 (by decide) (by decide)).mpr sampleBlocks_fit _

end LiloBoot.Ext2
