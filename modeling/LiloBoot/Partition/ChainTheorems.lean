/-
LiloBoot.Partition.ChainTheorems — the chain of extended boot records.

`msdos_parse_extended` follows the links of the records without counting them.
It returns exactly if the chain never comes back to a record; what it lists are
then the Linux partitions of the chain under their places in it.
-/
import LiloBoot.Lib.Walk
import LiloBoot.Partition.NumberTheorems

namespace LiloBoot.Partition

/-! ## §1 The chain -/

/-- From a block and the buffer before it is read to where its link leads. -/
def chainNext (disk : Disk) (start size : Nat) (place : Nat × Bytes) : Option (Nat × Bytes) :=
  if u32 (start + size) ≤ place.1 then none
  else
    let (ok, buf) := promReadblocks disk place.1 1 place.2
    if !ok then none
    else if !msdosMagicPresent buf then none
    else (extendedLink buf).map fun part => (u32 (start + part.start), buf)

/-- The logical partitions in one record, in order, with their places on the disk. -/
def recordParts (partitionStart partitionSize : Nat) (buf : Bytes) (entries : List Nat) :
    List MsdosPartition :=
  (entries.filter fun i => isLogical partitionStart partitionSize i (msdosPartition buf i)).map
    fun i =>
      { msdosPartition buf i with start := u32 (partitionStart + (msdosPartition buf i).start) }

/-- The logical partitions on the chain from the record at `partitionStart` on; it ends at a
block that is no record, or at a record without a link. -/
inductive Chain (disk : Disk) (start size : Nat) :
    Nat → Nat → Bytes → List MsdosPartition → Prop where
  | ends {partitionStart partitionSize : Nat} {before : Bytes}
      (stop : ∀ buf, ¬ Record disk start size partitionStart before buf) :
      Chain disk start size partitionStart partitionSize before []
  | last {partitionStart partitionSize : Nat} {before buf : Bytes}
      (record : Record disk start size partitionStart before buf)
      (link : extendedLink buf = none) :
      Chain disk start size partitionStart partitionSize before
        (recordParts partitionStart partitionSize buf (List.range 4))
  | next {partitionStart partitionSize : Nat} {before buf : Bytes} {part : MsdosPartition}
      {parts : List MsdosPartition}
      (record : Record disk start size partitionStart before buf)
      (link : extendedLink buf = some part)
      (rest : Chain disk start size (u32 (start + part.start)) part.size buf parts) :
      Chain disk start size partitionStart partitionSize before
        (recordParts partitionStart partitionSize buf (List.range 4) ++ parts)

/-- The Linux partitions among `parts`, numbered by their places from `first` on, as far as there
is memory for them. -/
def numbered (env : Env) (slot blksize first : Nat) (parts : List MsdosPartition) :
    List PartitionT :=
  ((parts.zipIdx first).filter fun p =>
      msdosIsLinuxPartition p.1.sysInd && env.malloc slot p.2).map
    fun p => ⟨p.2, p.1.start, p.1.size, .msdos, blksize, p.1.sysInd⟩

/-- `msdos_parse_extended` returns, and has listed the Linux partitions of the chain by their
places from 5 on, the last one first. -/
def ChainListed (env : Env) (disk : Disk) (slot start size blksize : Nat)
    (list : List PartitionT) : Prop :=
  ∃ fuel parts, Chain disk start size start size (env.stack slot) parts
    ∧ msdosParseExtended env disk fuel slot start size blksize list
      = some ((numbered env slot blksize 5 parts).reverse ++ list)

/-! ## §2 One record -/

section Chain

variable {env : Env} {disk : Disk} {slot start size blksize : Nat}

theorem numbered_append (first : Nat) (parts parts' : List MsdosPartition) :
    numbered env slot blksize first (parts ++ parts')
      = numbered env slot blksize first parts
        ++ numbered env slot blksize (first + parts.length) parts' := by
  simp [numbered, List.zipIdx_append]

/-- The loop over the entries counts the logical partitions and lists those for Linux. -/
theorem extendedEntry_numbered (partitionStart partitionSize : Nat) (buf : Bytes)
    (entries : List Nat) : ∀ s,
    entries.foldl (extendedEntry env slot blksize partitionStart partitionSize buf) s
      = (s.1 + (recordParts partitionStart partitionSize buf entries).length,
        (numbered env slot blksize s.1 (recordParts partitionStart partitionSize buf
          entries)).reverse ++ s.2) := by
  induction entries with
  | nil =>
    intro s
    simp [recordParts, numbered]
  | cons i entries ih =>
    intro s
    rw [List.foldl_cons, ih]
    by_cases hlog : isLogical partitionStart partitionSize i (msdosPartition buf i) = true
    · have hparts : recordParts partitionStart partitionSize buf (i :: entries)
          = { msdosPartition buf i with
                start := u32 (partitionStart + (msdosPartition buf i).start) }
            :: recordParts partitionStart partitionSize buf entries := by
        simp [recordParts, hlog]
      have hentry : extendedEntry env slot blksize partitionStart partitionSize buf s i
          = (s.1 + 1, (numbered env slot blksize s.1
              [{ msdosPartition buf i with
                start := u32 (partitionStart + (msdosPartition buf i).start) }]).reverse ++ s.2) := by
        simp only [extendedEntry, hlog, numbered, addNewPartition]
        by_cases hlinux : msdosIsLinuxPartition (msdosPartition buf i).sysInd = true
        · by_cases hmalloc : env.malloc slot s.1 = true
          · simp [hlinux, hmalloc]
          · simp [hlinux, hmalloc]
        · simp [hlinux]
      rw [hentry, hparts, ← List.singleton_append (l := recordParts _ _ _ _), numbered_append]
      simp [Nat.add_assoc, Nat.add_comm 1]
    · have hparts : recordParts partitionStart partitionSize buf (i :: entries)
          = recordParts partitionStart partitionSize buf entries := by
        simp [recordParts, hlog]
      have hentry : extendedEntry env slot blksize partitionStart partitionSize buf s i = s := by
        simp [extendedEntry, hlog]
      rw [hentry, hparts]

theorem chainNext_stop {partitionStart : Nat} {before : Bytes}
    (h : ∀ buf, ¬ Record disk start size partitionStart before buf) :
    chainNext disk start size (partitionStart, before) = none := by
  unfold chainNext
  split
  · rfl
  · rename_i hinside
    cases hread : promReadblocks disk partitionStart 1 before with
    | mk ok buf =>
      cases ok with
      | false => rfl
      | true =>
        have hmagic : ¬ msdosMagicPresent buf = true := fun hmagic =>
          h buf ⟨Nat.not_le.mp hinside, hread, hmagic⟩
        simp [hmagic]

theorem chainNext_record {partitionStart : Nat} {before buf : Bytes}
    (h : Record disk start size partitionStart before buf) :
    chainNext disk start size (partitionStart, before)
      = (extendedLink buf).map fun part => (u32 (start + part.start), buf) := by
  simp [chainNext, Nat.not_le.mpr h.inside, h.read, h.magic]

/-- A link leads to a 32-bit block number, with the block that was read in the buffer. -/
theorem chainNext_some {x y : Nat × Bytes} (h : chainNext disk start size x = some y) :
    ∃ partitionStart < 2 ^ 32, y = (partitionStart, (promReadblocks disk x.1 1 x.2).2) := by
  unfold chainNext at h
  split at h
  · cases h
  · cases hread : promReadblocks disk x.1 1 x.2 with
    | mk ok buf =>
      rw [hread] at h
      simp only at h
      split at h
      · cases h
      · split at h
        · cases h
        · obtain ⟨part, -, rfl⟩ := Option.map_eq_some_iff.mp h
          exact ⟨_, u32_lt _, rfl⟩

/-! ## §3 The loop -/

/-- What the loop returns is the chain, numbered on. -/
theorem msdosExtendedLoop_chain (fuel : Nat) : ∀ partitionStart partitionSize before s list',
    msdosExtendedLoop env disk slot start size blksize fuel partitionStart partitionSize before s
      = some list' →
    ∃ parts, Chain disk start size partitionStart partitionSize before parts
      ∧ list' = (numbered env slot blksize s.1 parts).reverse ++ s.2 := by
  induction fuel with
  | zero =>
    intro partitionStart partitionSize before s list' h
    cases h
  | succ fuel ih =>
    intro partitionStart partitionSize before s list' h
    rw [msdosExtendedLoop] at h
    rcases extendedRecord_eq env disk slot start size blksize partitionStart partitionSize before s
      with ⟨hstep, hstop⟩ | ⟨buf, hrec, hstep⟩
    · rw [hstep] at h
      cases h
      exact ⟨[], .ends hstop, by simp [numbered]⟩
    · rw [hstep, extendedEntry_numbered] at h
      cases hlink : extendedLink buf with
      | none =>
        rw [hlink] at h
        cases h
        exact ⟨_, .last hrec hlink, rfl⟩
      | some part =>
        rw [hlink] at h
        obtain ⟨parts, hchain, rfl⟩ := ih _ _ _ _ _ h
        refine ⟨_, .next hrec hlink hchain, ?_⟩
        rw [numbered_append, List.reverse_append, List.append_assoc]

/-- The loop returns exactly if the walk along the links ends. -/
theorem msdosExtendedLoop_ends (env : Env) (slot blksize partitionStart partitionSize : Nat)
    (before : Bytes) (s : Nat × List PartitionT) :
    (∃ fuel list', msdosExtendedLoop env disk slot start size blksize fuel partitionStart
        partitionSize before s = some list')
      ↔ Walk.Ends (chainNext disk start size) (partitionStart, before) := by
  constructor
  · rintro ⟨fuel, list', h⟩
    induction fuel generalizing partitionStart partitionSize before s with
    | zero => cases h
    | succ fuel ih =>
      rw [msdosExtendedLoop] at h
      rcases extendedRecord_eq env disk slot start size blksize partitionStart partitionSize
        before s with ⟨-, hstop⟩ | ⟨buf, hrec, hstep⟩
      · exact Walk.ends_none (chainNext_stop hstop)
      · rw [hstep] at h
        have hnext := chainNext_record hrec
        cases hlink : extendedLink buf with
        | none =>
          rw [hlink] at hnext
          exact Walk.ends_none hnext
        | some part =>
          rw [hlink] at h hnext
          exact (Walk.ends_next hnext).mpr (ih _ _ _ _ h)
  · rintro ⟨n, hn⟩
    induction n generalizing partitionStart partitionSize before s with
    | zero => cases hn
    | succ n ih =>
      rcases extendedRecord_eq env disk slot start size blksize partitionStart partitionSize
        before s with ⟨hstep, -⟩ | ⟨buf, hrec, hstep⟩
      · exact ⟨1, s.2, by rw [msdosExtendedLoop, hstep]⟩
      · have hnext := chainNext_record hrec
        cases hlink : extendedLink buf with
        | none =>
          rw [hlink] at hstep
          exact ⟨1, _, by rw [msdosExtendedLoop, hstep]; rfl⟩
        | some part =>
          rw [hlink] at hstep hnext
          rw [Walk.place_succ hnext] at hn
          obtain ⟨fuel, list', hrun⟩ := ih _ part.size _ _ hn
          exact ⟨fuel + 1, list', by rw [msdosExtendedLoop, hstep]; exact hrun⟩

/-! ## §4 Every chain -/

theorem promReadblocks_behind (disk : Disk) (blockNum blockCount : Nat) (buf : Bytes) {i : Nat}
    (hi : u32 (blockCount * disk.promBlksize) ≤ i) :
    (promReadblocks disk blockNum blockCount buf).2 i = buf i := by
  unfold promReadblocks
  simp only
  split
  · rfl
  · exact if_neg (Nat.not_lt.mpr hi)

/-- A successful read that stores every byte does not depend on what was there before. -/
theorem promReadblocks_full
    (hfull : ∀ pos n : Nat, (disk.read pos n).1 = n → ∀ i < n, ((disk.read pos n).2 i).isSome)
    (blockNum blockCount : Nat) {b b' : Bytes}
    (hbehind : ∀ i, u32 (blockCount * disk.promBlksize) ≤ i → b i = b' i) :
    (promReadblocks disk blockNum blockCount b).1 = (promReadblocks disk blockNum blockCount b').1
      ∧ ((promReadblocks disk blockNum blockCount b).1 = true →
        (promReadblocks disk blockNum blockCount b).2
          = (promReadblocks disk blockNum blockCount b').2) := by
  unfold promReadblocks
  simp only
  split
  · exact ⟨rfl, fun h => nomatch h⟩
  · refine ⟨rfl, fun hok => funext fun i => ?_⟩
    by_cases hi : i < u32 (blockCount * disk.promBlksize)
    · obtain ⟨x, hx⟩ := Option.isSome_iff_exists.mp (hfull _ _ (eq_of_beq hok) i hi)
      simp only [if_pos hi, hx, Option.getD_some]
    · simp only [if_neg hi]
      exact hbehind i (Nat.not_lt.mp hi)

/-- Then a record does not depend on it either. -/
theorem Record.full
    (hfull : ∀ pos n : Nat, (disk.read pos n).1 = n → ∀ i < n, ((disk.read pos n).2 i).isSome)
    {partitionStart : Nat} {b b' buf : Bytes}
    (hbehind : ∀ i, u32 (1 * disk.promBlksize) ≤ i → b i = b' i)
    (h : Record disk start size partitionStart b buf) :
    Record disk start size partitionStart b' buf := by
  obtain ⟨hok, hbuf⟩ := promReadblocks_full hfull partitionStart 1 hbehind
  rw [h.read] at hok hbuf
  exact ⟨h.inside, Prod.ext hok.symm (hbuf rfl).symm, h.magic⟩

theorem chainNext_full
    (hfull : ∀ pos n : Nat, (disk.read pos n).1 = n → ∀ i < n, ((disk.read pos n).2 i).isSome)
    (partitionStart : Nat) {b b' : Bytes}
    (hbehind : ∀ i, u32 (1 * disk.promBlksize) ≤ i → b i = b' i) :
    chainNext disk start size (partitionStart, b) = chainNext disk start size (partitionStart, b') := by
  by_cases hrecord : ∃ buf, Record disk start size partitionStart b buf
  · obtain ⟨buf, hrec⟩ := hrecord
    rw [chainNext_record hrec, chainNext_record (hrec.full hfull hbehind)]
  · rw [chainNext_stop fun buf hrec => hrecord ⟨buf, hrec⟩, chainNext_stop fun buf hrec =>
      hrecord ⟨buf, hrec.full hfull fun i hi => (hbehind i hi).symm⟩]

/-- Buffers that differ only in their first `n` bytes are finitely many. -/
theorem finite_buffers (n : Nat) (buf : Bytes) : {b : Bytes | ∀ i, n ≤ i → b i = buf i}.Finite := by
  have hbytes : Finite UInt8 := Finite.of_injective UInt8.toBitVec fun _ _ => UInt8.toBitVec_inj.mp
  refine (Set.finite_range fun (f : Fin n → UInt8) (i : Nat) =>
    if h : i < n then f ⟨i, h⟩ else buf i).subset ?_
  intro b hb
  refine ⟨fun i => b i, ?_⟩
  funext i
  by_cases hi : i < n
  · simp [hi]
  · simp [hi, hb i (Nat.not_lt.mp hi)]

/-- The walk stays among 32-bit block numbers and buffers with the same bytes behind the block. -/
theorem chain_place {before : Bytes} {n : Nat} {x : Nat × Bytes}
    (hx : Walk.place (chainNext disk start size) (start, before) n = some x) :
    x.1 < start + 2 ^ 32 ∧ ∀ i, u32 (1 * disk.promBlksize) ≤ i → x.2 i = before i := by
  induction n generalizing x with
  | zero =>
    cases hx
    exact ⟨Nat.lt_add_of_pos_right (by decide), fun _ _ => rfl⟩
  | succ n ih =>
    obtain ⟨y, hy, hnext⟩ := Option.bind_eq_some_iff.mp hx
    obtain ⟨-, hbuf⟩ := ih hy
    obtain ⟨part, hlt, rfl⟩ := chainNext_some hnext
    refine ⟨Nat.lt_of_lt_of_le hlt (Nat.le_add_left _ _), fun i hi => ?_⟩
    exact (promReadblocks_behind disk _ 1 _ hi).trans (hbuf i hi)

theorem chain_ends_iff (disk : Disk) (start size : Nat) (before : Bytes) :
    Walk.Ends (chainNext disk start size) (start, before)
      ↔ Walk.NeverReturns (chainNext disk start size) (start, before) :=
  Walk.ends_iff ((Set.finite_Iio (start + 2 ^ 32)).prod
    (finite_buffers (u32 (1 * disk.promBlksize)) before)) fun _ _ hx => chain_place hx

/-- Where a read that answers its whole count has stored every byte, the block number tells a
record: the walk ends exactly if no block is reached twice. -/
theorem chain_ends_blocks (disk : Disk) (start size : Nat) (before : Bytes)
    (hfull : ∀ pos n : Nat, (disk.read pos n).1 = n → ∀ i < n, ((disk.read pos n).2 i).isSome) :
    Walk.Ends (chainNext disk start size) (start, before)
      ↔ ∀ i j, i < j → ∀ x y, Walk.place (chainNext disk start size) (start, before) i = some x →
        Walk.place (chainNext disk start size) (start, before) j = some y → x.1 ≠ y.1 := by
  rw [chain_ends_iff]
  constructor
  · intro hnever i j hij x y hx hy hblock
    -- the two visits read the same bytes, so they go on to the same place
    have hsame : chainNext disk start size x = chainNext disk start size y := by
      have hagain : chainNext disk start size (x.1, x.2) = chainNext disk start size (x.1, y.2) :=
        chainNext_full hfull x.1 fun i hi =>
          ((chain_place hx).2 i hi).trans ((chain_place hy).2 i hi).symm
      rw [show x = (x.1, x.2) from rfl, hagain, hblock]
    have hnext : ∀ {k z}, Walk.place (chainNext disk start size) (start, before) k = some z →
        Walk.place (chainNext disk start size) (start, before) (k + 1)
          = chainNext disk start size z := by
      intro k z hz
      rw [Walk.place, hz, Option.bind_some]
    cases hgoes : chainNext disk start size x with
    | none =>
      have hstop := Walk.place_none ((hnext hx).trans hgoes) (Nat.succ_le_of_lt hij)
      rw [hy] at hstop
      cases hstop
    | some z =>
      exact hnever (i + 1) (j + 1) (Nat.succ_lt_succ hij) z ((hnext hx).trans hgoes)
        ((hnext hy).trans (hsame.symm.trans hgoes))
  · intro hblocks i j hij x hx hy
    exact hblocks i j hij x x hx hy rfl

/-- **The walk along an extended partition** returns, with the Linux partitions of the chain
under their places, exactly if it never comes back to a record: to a block, with the same buffer,
where it has been before. -/
theorem chain_listed_iff (env : Env) (disk : Disk) (slot start size blksize : Nat)
    (list : List PartitionT) :
    ChainListed env disk slot start size blksize list
      ↔ Walk.NeverReturns (chainNext disk start size) (start, env.stack slot) := by
  rw [← chain_ends_iff, ← msdosExtendedLoop_ends env slot blksize start size (env.stack slot)
    (5, list)]
  constructor
  · rintro ⟨fuel, parts, -, hrun⟩
    exact ⟨fuel, _, hrun⟩
  · rintro ⟨fuel, list', hrun⟩
    obtain ⟨parts, hchain, rfl⟩ := msdosExtendedLoop_chain fuel _ _ _ _ _ hrun
    exact ⟨fuel, parts, hchain, hrun⟩

end Chain

/-! ## §5 A loop on the disk -/

/-- A record whose link leads to itself. -/
def selfLinked : Disk := sparseDisk (recordBytes 1 0x05 0 4)

/-- What is in the buffer when it has been read. -/
def selfLinkedRecord : Bytes := (promReadblocks selfLinked 1 1 fun _ => 0).2

theorem selfLinkedRecord_again : promReadblocks selfLinked 1 1 selfLinkedRecord
    = (true, selfLinkedRecord) := by
  refine Prod.ext rfl (funext fun i => ?_)
  have hall : ∀ buf : Bytes, (promReadblocks selfLinked 1 1 buf).2 i
      = if i < 512 then ((recordBytes 1 0x05 0 4).lookup (512 + i)).getD 0 else buf i :=
    fun buf => rfl
  rw [hall, selfLinkedRecord, hall]
  split <;> rfl

/-- The record is read over and over. -/
theorem selfLinked_spins :
    (∀ fuel, msdosParseExtended roomyEnv selfLinked fuel 1 1 4 512 [] = none)
      ∧ ¬ ChainListed roomyEnv selfLinked 1 1 4 512 [] := by
  have hlink : extendedLink selfLinkedRecord = some ⟨5, 0, 4⟩ := by decide +kernel
  have hmagic : msdosMagicPresent selfLinkedRecord = true := by decide +kernel
  have hfirst : chainNext selfLinked 1 4 (1, fun _ => 0) = some (1, selfLinkedRecord) := by
    rw [chainNext_record ⟨by decide, rfl, hmagic⟩]
    exact congrArg (Option.map _) hlink
  have hagain : chainNext selfLinked 1 4 (1, selfLinkedRecord) = some (1, selfLinkedRecord) := by
    rw [chainNext_record ⟨by decide, selfLinkedRecord_again, hmagic⟩, hlink]
    rfl
  have hreturns : ¬ Walk.NeverReturns (chainNext selfLinked 1 4) (1, roomyEnv.stack 1) := by
    intro h
    refine h 1 2 (by decide) (1, selfLinkedRecord) ?_ ?_
    · exact hfirst
    · exact (Walk.place_succ hfirst 1).trans (Walk.place_succ hagain 0)
  refine ⟨fun fuel => ?_, fun h => hreturns ((chain_listed_iff _ _ _ _ _ _ _).mp h)⟩
  cases hrun : msdosParseExtended roomyEnv selfLinked fuel 1 1 4 512 [] with
  | none => rfl
  | some list' =>
    have hends := (msdosExtendedLoop_ends roomyEnv 1 512 1 4 _ (5, [])).mp ⟨fuel, list', hrun⟩
    exact absurd hends.neverReturns hreturns

end LiloBoot.Partition
