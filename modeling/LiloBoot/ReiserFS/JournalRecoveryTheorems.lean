/-
LiloBoot.ReiserFS.JournalRecoveryTheorems — how many transactions `journal_init`
finds.

The positions of the descriptors depend on the stored lengths only; a
transaction is valid at a position for a way to read its id. On disk the id is
little-endian, and `IsRun le32ToCpu` is the run that has to be replayed. The
source compares the id as it was loaded with a counter in CPU order, so the loop
follows the run of `IsRun UInt32.toNat`. It ends because the ids of a run differ
(`exists_not_validAt`); `journalInit_run_iff` says when the two runs give the
same count.
-/
import LiloBoot.ReiserFS.JournalLookupTheorems

namespace LiloBoot.ReiserFS

/-! ## §1 Runs of transactions -/

/-- The descriptor of the `i`-th transaction, counted from 0. -/
def descAt (journal : Nat → Words) (count : Nat) : Nat → Nat
  | 0 => le32ToCpu (headerFirstUnflushedOffset (journal count))
  | i + 1 =>
    (descAt journal count i
      + le32ToCpu (descLen (journal (descAt journal count i))) + 2) % count

/-- The id that the `i`-th transaction must have. -/
def idAt (journal : Nat → Words) (count i : Nat) : Nat :=
  u32 (le32ToCpu (headerLastFlushTransId (journal count)) + 1 + i)

/-- The `i`-th transaction is valid, with ids read by `readId`. -/
def ValidAt (readId : UInt32 → Nat) (journal : Nat → Words) (count i : Nat) : Prop :=
  let d := descAt journal count i
  let desc := journal d
  let commit := journal ((d + le32ToCpu (descLen desc) + 1) % count)
  descMagic desc = true ∧ descMountId desc = headerMountId (journal count)
    ∧ readId (descTransId desc) = idAt journal count i
    ∧ descTransId desc = commitTransId commit ∧ descLen desc = commitLen commit

instance (readId : UInt32 → Nat) (journal : Nat → Words) (count i : Nat) :
    Decidable (ValidAt readId journal count i) :=
  inferInstanceAs (Decidable (_ ∧ _))

/-- The maximal run from the transaction `start` on has `n` transactions. -/
def IsRun (readId : UInt32 → Nat) (journal : Nat → Words) (count start n : Nat) : Prop :=
  (∀ i < n, ValidAt readId journal count (start + i))
    ∧ ¬ ValidAt readId journal count (start + n)

theorem isRun_unique {readId : UInt32 → Nat} {journal : Nat → Words} {count start n m : Nat}
    (hn : IsRun readId journal count start n) (hm : IsRun readId journal count start m) :
    n = m := by
  rcases Nat.lt_trichotomy n m with h | h | h
  · exact absurd (hm.1 n h) hn.2
  · exact h
  · exact absurd (hn.1 m h) hm.2

/-- The rest of a run behind its first transaction. -/
theorem IsRun.tail {readId : UInt32 → Nat} {journal : Nat → Words} {count start n : Nat}
    (h : IsRun readId journal count start (n + 1)) :
    IsRun readId journal count (start + 1) n := by
  have hshift : ∀ i, start + 1 + i = start + (i + 1) := by
    intro i
    omega
  simp only [IsRun, hshift]
  exact ⟨fun i hi => h.1 (i + 1) (by omega), h.2⟩

theorem descAt_lt {journal : Nat → Words} {count : Nat}
    (hfirst : le32ToCpu (headerFirstUnflushedOffset (journal count)) < count) (i : Nat) :
    descAt journal count i < count := by
  cases i with
  | zero => exact hfirst
  | succ i => exact Nat.mod_lt _ (by omega)

/-- A run cannot go round the ring: two transactions of it with one descriptor would have
one id. -/
theorem exists_not_validAt (readId : UInt32 → Nat) {journal : Nat → Words} {count : Nat}
    (hcount : count < 2 ^ 32)
    (hfirst : le32ToCpu (headerFirstUnflushedOffset (journal count)) < count) :
    ∃ i ≤ count, ¬ ValidAt readId journal count i := by
  by_contra hall
  have hvalid : ∀ i ≤ count, ValidAt readId journal count i := by
    intro i hi
    by_contra hno
    exact hall ⟨i, hi, hno⟩
  obtain ⟨x, y, hne, hpos⟩ := Fintype.exists_ne_map_eq_of_card_lt
    (fun i : Fin (count + 1) => (⟨descAt journal count i, descAt_lt hfirst i⟩ : Fin count))
    (by simp)
  have hdesc : descAt journal count x = descAt journal count y := congrArg Fin.val hpos
  have hx := (hvalid x (by omega)).2.2.1
  have hy := (hvalid y (by omega)).2.2.1
  simp only [hdesc] at hx
  have hid : idAt journal count x = idAt journal count y := hx.symm.trans hy
  have hval : (x : Nat) ≠ y := fun h => hne (Fin.ext h)
  simp only [idAt, u32] at hid
  omega

/-- Every run ends. -/
theorem exists_isRun (readId : UInt32 → Nat) {journal : Nat → Words} {count : Nat}
    (hcount : count < 2 ^ 32)
    (hfirst : le32ToCpu (headerFirstUnflushedOffset (journal count)) < count) :
    ∃ n ≤ count, IsRun readId journal count 0 n := by
  obtain ⟨i, hi, hno⟩ := exists_not_validAt readId hcount hfirst
  have hex : ∃ i, ¬ ValidAt readId journal count i := ⟨i, hno⟩
  refine ⟨Nat.find hex, (Nat.find_min' hex hno).trans hi, ?_, ?_⟩
  · intro m hm
    rw [Nat.zero_add]
    exact Decidable.not_not.mp (Nat.find_min hex hm)
  · rw [Nat.zero_add]
    exact Nat.find_spec hex

/-! ## §2 The loop -/

/-- The state of the loop before its turn for the `i`-th transaction. -/
def AtTurn (journal : Nat → Words) (count i : Nat) (s : InitState) : Prop :=
  s.descBlock = descAt journal count i ∧ s.nextTransId = idAt journal count i

theorem commitBlock_eq {k : Nat} (hk : k < 32) (d : Nat) (desc : Words) :
    commitBlock (2 ^ k) d desc = (d + le32ToCpu (descLen desc) + 1) % 2 ^ k := by
  rw [commitBlock, ring_mask hk]

/-- What the turn for a valid `i`-th transaction caches. -/
def cachedAt (tableEnd : Nat) (journal : Nat → Words) (count i : Nat) (s : InitState) :
    Words × Nat :=
  let d := descAt journal count i
  cacheTransaction tableEnd (journal d)
    (journal ((d + le32ToCpu (descLen (journal d)) + 1) % count)) s.mem s.table

/-- A turn goes on past a transaction that is valid with its id as loaded. -/
theorem journalInitStep_valid {journal : Nat → Words} {k : Nat} (hk : k < 32) {i : Nat}
    {s : InitState} (hs : AtTurn journal (2 ^ k) i s) (tableEnd : Nat)
    (hvalid : ValidAt UInt32.toNat journal (2 ^ k) i) :
    journalInitStep tableEnd journal (2 ^ k) (journal (2 ^ k)) s
      = some
          { descBlock := descAt journal (2 ^ k) (i + 1)
            nextTransId := idAt journal (2 ^ k) (i + 1)
            table := (cachedAt tableEnd journal (2 ^ k) i s).2
            mem := (cachedAt tableEnd journal (2 ^ k) i s).1 } := by
  obtain ⟨hdesc, hid⟩ := hs
  obtain ⟨hmagic, hmount, hread, htrans, hlen⟩ := hvalid
  have hnext : ∀ n, u32 (n % 2 ^ k + 1) &&& (2 ^ k - 1) = (n + 1) % 2 ^ k := by
    intro n
    rw [ring_mask hk, Nat.mod_add_mod]
  have hidnext : u32 (idAt journal (2 ^ k) i + 1) = idAt journal (2 ^ k) (i + 1) := by
    simp only [idAt, u32]
    omega
  simp only [journalInitStep, hdesc, hid, commitBlock_eq hk]
  rw [if_neg (by simp [hmagic, hread, hmount]),
    if_neg (not_or.mpr ⟨not_not_intro htrans, not_not_intro hlen⟩), hnext, hidnext]
  rfl

/-- A turn ends the loop at any other transaction. -/
theorem journalInitStep_invalid {journal : Nat → Words} {k : Nat} (hk : k < 32) {i : Nat}
    {s : InitState} (hs : AtTurn journal (2 ^ k) i s) (tableEnd : Nat)
    (hno : ¬ ValidAt UInt32.toNat journal (2 ^ k) i) :
    journalInitStep tableEnd journal (2 ^ k) (journal (2 ^ k)) s = none := by
  obtain ⟨hdesc, hid⟩ := hs
  simp only [journalInitStep, hdesc, hid, commitBlock_eq hk]
  split
  · rfl
  next hfirst =>
    rw [if_pos]
    by_contra hsecond
    simp only [not_or, Decidable.not_not, Bool.not_eq_false] at hfirst hsecond
    exact hno ⟨hfirst.1, hfirst.2.2, hfirst.2.1, hsecond.1, hsecond.2⟩

/-- With a turn for every transaction of the run and one more, the loop ends behind the
run that it sees. -/
theorem journalInitLoop_spec {journal : Nat → Words} {k : Nat} (hk : k < 32) (tableEnd : Nat)
    (n : Nat) :
    ∀ fuel i s, n < fuel → AtTurn journal (2 ^ k) i s →
      IsRun UInt32.toNat journal (2 ^ k) i n →
      ∃ s', journalInitLoop tableEnd journal (2 ^ k) (journal (2 ^ k)) fuel s = some s'
        ∧ AtTurn journal (2 ^ k) (i + n) s' := by
  induction n with
  | zero =>
    intro fuel i s hfuel hs hrun
    obtain ⟨fuel, rfl⟩ : ∃ m, fuel = m + 1 := ⟨fuel - 1, by omega⟩
    refine ⟨s, ?_, hs⟩
    rw [journalInitLoop, journalInitStep_invalid hk hs tableEnd hrun.2]
  | succ n ih =>
    intro fuel i s hfuel hs hrun
    obtain ⟨fuel, rfl⟩ : ∃ m, fuel = m + 1 := ⟨fuel - 1, by omega⟩
    rw [journalInitLoop, journalInitStep_valid hk hs tableEnd (hrun.1 0 (by omega))]
    obtain ⟨s', hloop, hs'⟩ := ih fuel (i + 1)
      ⟨descAt journal (2 ^ k) (i + 1), idAt journal (2 ^ k) (i + 1),
        (cachedAt tableEnd journal (2 ^ k) i s).2, (cachedAt tableEnd journal (2 ^ k) i s).1⟩
      (by omega) ⟨rfl, rfl⟩ hrun.tail
    refine ⟨s', hloop, ?_⟩
    rwa [Nat.add_right_comm] at hs'

/-- What the loop leaves in memory is what caching the transactions of its run one after
the other leaves. -/
theorem journalInitLoop_cacheAll {journal : Nat → Words} {k : Nat} (hk : k < 32)
    (tableEnd : Nat) (ts : List Txn) :
    ∀ fuel i s, ts.length < fuel → AtTurn journal (2 ^ k) i s →
      IsRun UInt32.toNat journal (2 ^ k) i ts.length →
      LaidOut journal (2 ^ k) (descAt journal (2 ^ k) i) ts →
      ∃ s', journalInitLoop tableEnd journal (2 ^ k) (journal (2 ^ k)) fuel s = some s'
        ∧ s'.mem = cacheAll tableEnd (2 ^ k) journal (descAt journal (2 ^ k) i) s.mem s.table
            ts := by
  induction ts with
  | nil =>
    intro fuel i s hfuel hs hrun _
    obtain ⟨fuel, rfl⟩ : ∃ m, fuel = m + 1 := ⟨fuel - 1, by omega⟩
    refine ⟨s, ?_, rfl⟩
    rw [journalInitLoop, journalInitStep_invalid hk hs tableEnd hrun.2]
  | cons t ts ih =>
    intro fuel i s hfuel hs hrun hlaid
    obtain ⟨fuel, rfl⟩ : ∃ m, fuel = m + 1 := ⟨fuel - 1, by omega⟩
    have hlen := hlaid.2.1
    have hnext : descAt journal (2 ^ k) (i + 1)
        = nextDesc (2 ^ k) (descAt journal (2 ^ k) i) t := by
      rw [descAt, hlen, nextDesc]
    rw [journalInitLoop, journalInitStep_valid hk hs tableEnd (hrun.1 0 (by simp))]
    obtain ⟨s', hloop, hmem⟩ := ih fuel (i + 1)
      ⟨descAt journal (2 ^ k) (i + 1), idAt journal (2 ^ k) (i + 1),
        (cachedAt tableEnd journal (2 ^ k) i s).2, (cachedAt tableEnd journal (2 ^ k) i s).1⟩
      (by simpa using hfuel) ⟨rfl, rfl⟩ hrun.tail (hnext ▸ hlaid.2.2.2.2)
    refine ⟨s', hloop, ?_⟩
    rw [hmem, hnext, cacheAll, cachedAt, hlen]

/-! ## §3 The count -/

theorem count_eq {last n : Nat} (hn : n < 2 ^ 32) (hlast : last < 2 ^ 32) :
    sub32 (sub32 (u32 (last + 1 + n)) last) 1 = n := by
  simp only [sub32, u32]
  omega

/-- `journal_init` ends, and counts the run that it sees modulo `2 ^ 16`. -/
theorem journalInit_counts {journal : Nat → Words} {info : Info} {k : Nat} (hk : k < 32)
    (hcount : info.journalBlockCount = 2 ^ k)
    (hfirst : le32ToCpu (headerFirstUnflushedOffset (journal (2 ^ k))) < 2 ^ k)
    (tableEnd : Nat) (mem : Words) {n fuel : Nat} (hfuel : n < fuel)
    (hn : n < 2 ^ 32) (hrun : IsRun UInt32.toNat journal (2 ^ k) 0 n) :
    ∃ mem', journalInit tableEnd fuel journal info mem
      = some ({ info with
          journalFirstDesc := le32ToCpu (headerFirstUnflushedOffset (journal (2 ^ k)))
          journalTransactions := u16 n }, mem') := by
  obtain ⟨s', hloop, -, hid⟩ := journalInitLoop_spec hk tableEnd n fuel 0
    ⟨le32ToCpu (headerFirstUnflushedOffset (journal (2 ^ k))),
      u32 (le32ToCpu (headerLastFlushTransId (journal (2 ^ k))) + 1), journalStart, mem⟩
    hfuel ⟨rfl, by rw [idAt, Nat.add_zero]⟩ hrun
  refine ⟨s'.mem, ?_⟩
  unfold journalInit
  simp only [hcount]
  rw [if_neg (by omega), hloop]
  simp only [hid, idAt, Nat.zero_add, count_eq hn (le32ToCpu_lt _)]

/-! ## §4 The two byte orders -/

/-- An id that is its own byte swap begins and ends with the same byte. -/
theorem swab32_fixed_bytes {n : Nat} (h : swab32 n = n) : n % 2 ^ 8 = n / 2 ^ 24 := by
  simp only [swab32] at h
  omega

/-- The id behind one that is its own byte swap is one too only where the counter wraps. -/
theorem swab32_fixed_succ {n : Nat} (hn : n < 2 ^ 32) (h : swab32 n = n)
    (hsucc : swab32 (u32 (n + 1)) = u32 (n + 1)) : n = 2 ^ 32 - 1 := by
  by_contra hne
  rw [u32_of_lt (by omega)] at hsucc
  have h0 := swab32_fixed_bytes h
  have h1 := swab32_fixed_bytes hsucc
  -- the last byte changes, the first one only if the last one was 255
  by_cases hlast : n % 2 ^ 8 = 255
  · omega
  · have hfirst : (n + 1) / 2 ^ 24 = n / 2 ^ 24 := by omega
    omega

/-- Of three ids in sequence one is not its own byte swap. -/
theorem swab32_fixed_lt {a n : Nat} (h : ∀ i < n, swab32 (u32 (a + i)) = u32 (a + i)) :
    n ≤ 2 := by
  by_contra hn
  have hstep : ∀ i, u32 (a + (i + 1)) = u32 (u32 (a + i) + 1) := by
    intro i
    simp only [u32]
    omega
  have h1 := h 1 (by omega)
  have h2 := h 2 (by omega)
  rw [hstep 0] at h1
  rw [hstep 1] at h2
  have hfirst := swab32_fixed_succ (u32_lt _) (h 0 (by omega)) h1
  have hsecond := swab32_fixed_succ (u32_lt _) (h 1 (by omega)) h2
  rw [hstep 0, hfirst] at hsecond
  exact absurd hsecond (by decide)

theorem validAt_loaded {journal : Nat → Words} {count i : Nat}
    (hswap : swab32 (idAt journal count i) = idAt journal count i)
    (h : ValidAt le32ToCpu journal count i) : ValidAt UInt32.toNat journal count i := by
  obtain ⟨hmagic, hmount, hread, hcommit⟩ := h
  refine ⟨hmagic, hmount, ?_, hcommit⟩
  rw [← hswap, ← hread, le32ToCpu, swab32_swab32 (UInt32.toNat_lt _)]

theorem swab32_idAt {journal : Nat → Words} {count i : Nat}
    (hdisk : ValidAt le32ToCpu journal count i)
    (hloaded : ValidAt UInt32.toNat journal count i) :
    swab32 (idAt journal count i) = idAt journal count i := by
  have hread := hdisk.2.2.1
  rwa [le32ToCpu, hloaded.2.2.1] at hread

/-- A run split behind its first `r` transactions. -/
theorem isRun_split {readId : UInt32 → Nat} {journal : Nat → Words} {count r s : Nat} :
    IsRun readId journal count 0 (r + s) ↔
      (∀ i < r, ValidAt readId journal count i) ∧ IsRun readId journal count r s := by
  simp only [IsRun, Nat.zero_add]
  constructor
  · rintro ⟨hall, hend⟩
    exact ⟨fun i hi => hall i (by omega), fun i hi => hall (r + i) (by omega), hend⟩
  · rintro ⟨hfirst, hrest, hend⟩
    refine ⟨fun i hi => ?_, hend⟩
    by_cases hir : i < r
    · exact hfirst i hir
    · have := hrest (i - r) (by omega)
      rwa [Nat.add_sub_cancel' (by omega)] at this

/-- `journal_init` ends and leaves the length of the maximal run of valid transactions. -/
def RecoversRun (tableEnd : Nat) (journal : Nat → Words) (info : Info) (mem : Words) : Prop :=
  ∃ enough, ∀ fuel ≥ enough, ∃ info' mem',
    journalInit tableEnd fuel journal info mem = some (info', mem')
      ∧ IsRun le32ToCpu journal info.journalBlockCount 0 info'.journalTransactions

/-- Every id of the run is its own byte swap, and what follows as a run of ids stored in
the other byte order is a multiple of `2 ^ 16` transactions long. -/
def IdsReadAlike (journal : Nat → Words) (count : Nat) : Prop :=
  ∃ r s, IsRun le32ToCpu journal count 0 r
    ∧ (∀ i < r, swab32 (idAt journal count i) = idAt journal count i)
    ∧ IsRun UInt32.toNat journal count r s ∧ 2 ^ 16 ∣ s

/-- **When the journal is recovered**: `journal_init` counts the transactions to replay
exactly if their ids read alike in both byte orders. -/
theorem journalInit_run_iff (tableEnd : Nat) (journal : Nat → Words) (info : Info)
    (mem : Words) (k : Nat) (hk : k < 32) (hcount : info.journalBlockCount = 2 ^ k)
    (hfirst : le32ToCpu (headerFirstUnflushedOffset (journal (2 ^ k))) < 2 ^ k) :
    RecoversRun tableEnd journal info mem ↔ IdsReadAlike journal (2 ^ k) := by
  have hring : 2 ^ k < 2 ^ 32 := Nat.pow_lt_pow_right (by decide) hk
  obtain ⟨n, hn, hrun⟩ := exists_isRun UInt32.toNat hring hfirst
  have hinit : ∀ fuel, n < fuel → ∃ mem', journalInit tableEnd fuel journal info mem = some _ :=
    fun fuel hfuel =>
      journalInit_counts hk hcount hfirst tableEnd mem hfuel (by omega) hrun
  constructor
  · rintro ⟨enough, h⟩
    obtain ⟨info', mem', hres, hdisk⟩ := h (max enough (n + 1)) (by omega)
    obtain ⟨mem'', hcounted⟩ := hinit (max enough (n + 1)) (by omega)
    obtain ⟨rfl, -⟩ := Prod.mk.inj (Option.some.inj (hres.symm.trans hcounted))
    rw [hcount] at hdisk
    simp only at hdisk
    have hsplit : u16 n + (n - u16 n) = n := Nat.add_sub_cancel' (Nat.mod_le _ _)
    rw [← hsplit] at hrun
    obtain ⟨hloaded, hrest⟩ := isRun_split.mp hrun
    refine ⟨u16 n, n - u16 n, hdisk, fun i hi => ?_, hrest, Nat.dvd_sub_mod n⟩
    have hvalid := hdisk.1 i hi
    rw [Nat.zero_add] at hvalid
    exact swab32_idAt hvalid (hloaded i hi)
  · rintro ⟨r, s, hdisk, hswap, hrest, hdvd⟩
    have hr : r ≤ 2 := swab32_fixed_lt hswap
    have hloaded : IsRun UInt32.toNat journal (2 ^ k) 0 (r + s) := by
      refine isRun_split.mpr ⟨fun i hi => ?_, hrest⟩
      have hvalid := hdisk.1 i hi
      rw [Nat.zero_add] at hvalid
      exact validAt_loaded (hswap i hi) hvalid
    have hnr : n = r + s := isRun_unique hrun hloaded
    have hmod : u16 n = r := by
      rw [hnr, u16]
      omega
    refine ⟨n + 1, fun fuel hfuel => ?_⟩
    obtain ⟨mem', hcounted⟩ := hinit fuel hfuel
    refine ⟨_, mem', hcounted, ?_⟩
    rw [hcount, hmod]
    exact hdisk

/-- Transaction 1 behind a flushed transaction 0 is not seen: its id is loaded as
0x01000000. -/
theorem oneTxnJournal_not_recovered :
    IsRun le32ToCpu (oneTxnJournal 0x01000000 0) 8 0 1
      ∧ ¬ RecoversRun journalEnd (oneTxnJournal 0x01000000 0) oneTxnInfo (fun _ => 0) := by
  have hone : IsRun le32ToCpu (oneTxnJournal 0x01000000 0) 8 0 1 := by
    unfold IsRun
    decide
  refine ⟨hone, ?_⟩
  rintro ⟨enough, h⟩
  obtain ⟨info', mem', hres, hrun⟩ := h (enough + 1) (by omega)
  have hzero : journalInit journalEnd (enough + 1) (oneTxnJournal 0x01000000 0) oneTxnInfo
      (fun _ => 0) = some ({ oneTxnInfo with journalTransactions := 0 }, fun _ => 0) := rfl
  obtain ⟨rfl, -⟩ := Prod.mk.inj (Option.some.inj (hres.symm.trans hzero))
  exact absurd (isRun_unique hone hrun) (by decide)

/-- Transaction 0x01000001 reads alike both ways, and is recovered. -/
theorem journalInit_run_palindrome :
    RecoversRun journalEnd (oneTxnJournal 0x01000001 1) oneTxnInfo (fun _ => 0) :=
  (journalInit_run_iff journalEnd (oneTxnJournal 0x01000001 1) oneTxnInfo (fun _ => 0) 3
    (by decide) rfl (by decide)).mpr
    ⟨1, 0, by unfold IsRun; decide, by decide, by unfold IsRun; decide, by decide⟩

end LiloBoot.ReiserFS
