/-
LiloBoot.Partition.NumberTheorems — part numbers.

On Mac, GPT and Amiga disks the numbers count up, so each is given once. On
an MSDOS disk every extended slot starts at 5 again. The numbers of one slot
are all different; two slots give the same number exactly when they have a
Linux partition at the same place of their chains.
-/
import LiloBoot.Partition.Lookup

namespace LiloBoot.Partition

/-! ## §1 Counting up -/

/-- The part numbers of a list. -/
def numbers (list : List PartitionT) : List Nat := list.map (·.partNumber)

/-- The numbers go down along the list and are all below `next`. -/
def Below (next : Nat) (list : List PartitionT) : Prop :=
  (numbers list).Pairwise (· > ·) ∧ ∀ n ∈ numbers list, n < next

theorem Below.nodup {next : Nat} {list : List PartitionT} (h : Below next list) :
    (numbers list).Nodup := h.1.imp fun hgt => Nat.ne_of_gt hgt

theorem below_nil (next : Nat) : Below next [] :=
  ⟨List.Pairwise.nil, fun _ hn => absurd hn List.not_mem_nil⟩

theorem Below.mono {next : Nat} {list : List PartitionT} (h : Below next list) :
    Below (next + 1) list := ⟨h.1, fun n hn => Nat.lt_succ_of_lt (h.2 n hn)⟩

/-- An entry under the next number keeps the order. -/
theorem Below.add {list : List PartitionT} {p : PartitionT} (h : Below p.partNumber list)
    (part : Bool) : Below (p.partNumber + 1) (addNewPartition part p list) := by
  rw [addNewPartition]
  split
  · refine ⟨List.pairwise_cons.mpr ⟨fun n hn => h.2 n hn, h.1⟩, fun n hn => ?_⟩
    rcases List.mem_cons.mp hn with rfl | hn
    · exact Nat.lt_succ_self _
    · exact Nat.lt_succ_of_lt (h.2 n hn)
  · exact h.mono

theorem macLoop_nodup (env : Env) (disk : Disk) (blocksize left : Nat) : ∀ block buf list,
    Below block list → (numbers (macLoop env disk blocksize left block buf list)).Nodup := by
  induction left with
  | zero =>
    intro block buf list h
    exact h.nodup
  | succ left ih =>
    intro block buf list h
    simp only [macLoop]
    split
    · exact h.nodup
    · split
      · exact h.nodup
      · exact ih _ _ _ (Below.add (p := macPartition blocksize block _) h _)

theorem partitionMacLookup_nodup (env : Env) (disk : Disk) (buf : Bytes) :
    (numbers (partitionMacLookup env disk buf)).Nodup := by
  simp only [partitionMacLookup]
  generalize (if env.macWriteOnce = true then buf else clearLiloOnce buf) = first
  split
  · exact List.nodup_nil
  · split
    · exact List.nodup_nil
    · exact macLoop_nodup _ _ _ _ _ _ _ (Below.add (p := macPartition _ 1 _) (below_nil 1) _)

theorem gptLoop_nodup (env : Env) (blksize : Nat) (buf : Bytes) (count : Nat) : ∀ next list,
    Below next list →
    (numbers ((List.range' next count).foldl (gptEntry env blksize buf) list)).Nodup := by
  induction count with
  | zero =>
    intro next list h
    exact h.nodup
  | succ count ih =>
    intro next list h
    rw [List.range'_succ, List.foldl_cons]
    refine ih (next + 1) _ ?_
    simp only [gptEntry]
    split
    · exact Below.add (p := ⟨next, _, _, _, _, _⟩) h _
    · exact h.mono

theorem partitionGptLookup_nodup (env : Env) (disk : Disk) (blksize : Nat) (buf : Bytes) :
    (numbers (partitionGptLookup env disk blksize buf)).Nodup := by
  simp only [partitionGptLookup]
  split
  · exact List.nodup_nil
  · exact gptLoop_nodup env blksize _ _ 1 [] (below_nil 1)

theorem amigaLoop_nodup (env : Env) (disk : Disk) (blksize blockspercyl fuel : Nat) :
    ∀ part next used buf list list', Below next list →
    amigaLoop env disk blksize blockspercyl fuel part next used buf list = some list' →
    (numbers list').Nodup := by
  induction fuel with
  | zero =>
    intro part next used buf list list' _ h
    cases h
  | succ fuel ih =>
    intro part next used buf list list' hbelow h
    simp only [amigaLoop] at h
    split at h
    · cases h
      exact hbelow.nodup
    · split at h
      · cases h
        exact hbelow.nodup
      · split at h
        · exact ih _ _ _ _ _ _ (Below.add (p := ⟨next, _, _, _, _, _⟩) hbelow _) h
        · cases h
          exact hbelow.nodup

theorem partitionAmigaLookup_nodup {env : Env} {disk : Disk} {fuel blksize : Nat} {buf : Bytes}
    {list : List PartitionT} (h : partitionAmigaLookup env disk fuel blksize buf = some list) :
    (numbers list).Nodup := by
  simp only [partitionAmigaLookup] at h
  split at h
  · cases h
    exact List.nodup_nil
  · exact amigaLoop_nodup _ _ _ _ _ _ _ _ _ _ _ (below_nil 1) h

/-! ## §2 One extended slot -/

/-- From `list` to `list'` one entry was added under each number of `P`. -/
def Adds (P : Nat → Prop) (list list' : List PartitionT) : Prop :=
  ∃ added, numbers list' = added ++ numbers list ∧ added.Nodup ∧ ∀ n, n ∈ added ↔ P n

theorem Adds.none {P : Nat → Prop} (list : List PartitionT) (h : ∀ n, ¬ P n) :
    Adds P list list :=
  ⟨[], rfl, List.nodup_nil, fun n => ⟨fun hn => absurd hn List.not_mem_nil, fun hn => (h n hn).elim⟩⟩

theorem Adds.trans {P Q R : Nat → Prop} {list list' list'' : List PartitionT}
    (h : Adds P list list') (h' : Adds Q list' list'') (hdisj : ∀ n, P n → ¬ Q n)
    (hiff : ∀ n, R n ↔ P n ∨ Q n) : Adds R list list'' := by
  obtain ⟨added, hnum, hnodup, hmem⟩ := h
  obtain ⟨added', hnum', hnodup', hmem'⟩ := h'
  refine ⟨added' ++ added, by rw [hnum', hnum, List.append_assoc], ?_, fun n => ?_⟩
  · refine List.nodup_append.mpr ⟨hnodup', hnodup, fun n hn m hm heq => ?_⟩
    subst heq
    exact hdisj n ((hmem n).mp hm) ((hmem' n).mp hn)
  · rw [List.mem_append, hmem, hmem', hiff]
    exact or_comm

theorem Adds.congr {P Q : Nat → Prop} {list list' : List PartitionT} (h : Adds P list list')
    (hiff : ∀ n, Q n ↔ P n) : Adds Q list list' := by
  obtain ⟨added, hnum, hnodup, hmem⟩ := h
  exact ⟨added, hnum, hnodup, fun n => (hmem n).trans (hiff n).symm⟩

/-- The types of the logical partitions in one extended record, in order. -/
def recordLogicals (partitionStart partitionSize : Nat) (buf : Bytes) (entries : List Nat) :
    List Nat :=
  (entries.filter fun i => isLogical partitionStart partitionSize i (msdosPartition buf i)).map
    fun i => (msdosPartition buf i).sysInd

/-- The record at `partitionStart` is in the extended partition and can be read into `buf`. -/
structure Record (disk : Disk) (start size partitionStart : Nat) (before buf : Bytes) : Prop where
  inside : partitionStart < u32 (start + size)
  read : promReadblocks disk partitionStart 1 before = (true, buf)
  magic : msdosMagicPresent buf = true

/-- The `k`-th logical partition on the chain from the record at `partitionStart` on has the
type `sysInd`. -/
inductive LogicalAt (disk : Disk) (start size : Nat) : Nat → Nat → Bytes → Nat → Nat → Prop where
  | here {partitionStart partitionSize : Nat} {before buf : Bytes} {k sysInd : Nat}
      (record : Record disk start size partitionStart before buf)
      (entry : (recordLogicals partitionStart partitionSize buf (List.range 4))[k]? = some sysInd) :
      LogicalAt disk start size partitionStart partitionSize before k sysInd
  | next {partitionStart partitionSize : Nat} {before buf : Bytes} {k sysInd : Nat}
      {part : MsdosPartition} (record : Record disk start size partitionStart before buf)
      (link : extendedLink buf = some part)
      (rest : LogicalAt disk start size (u32 (start + part.start)) part.size buf k sysInd) :
      LogicalAt disk start size partitionStart partitionSize before
        ((recordLogicals partitionStart partitionSize buf (List.range 4)).length + k) sysInd

section Extended

variable {env : Env} {disk : Disk} {slot start size blksize : Nat}

/-- A Linux partition at place `k` gets the number `first + k` if there is memory for it. -/
def Gets (env : Env) (slot first : Nat) (at_ : Nat → Nat → Prop) (n : Nat) : Prop :=
  ∃ k sysInd, at_ k sysInd ∧ msdosIsLinuxPartition sysInd = true ∧ n = first + k
    ∧ env.malloc slot n = true

/-- What the loop over the entries of a record does. -/
theorem extendedEntry_foldl (env : Env) (slot blksize partitionStart partitionSize : Nat)
    (buf : Bytes) (entries : List Nat) : ∀ s,
    (entries.foldl (extendedEntry env slot blksize partitionStart partitionSize buf) s).1
        = s.1 + (recordLogicals partitionStart partitionSize buf entries).length
      ∧ Adds (Gets env slot s.1 fun k t =>
          (recordLogicals partitionStart partitionSize buf entries)[k]? = some t)
        s.2 (entries.foldl (extendedEntry env slot blksize partitionStart partitionSize buf) s).2 := by
  induction entries with
  | nil =>
    refine fun s => ⟨rfl, Adds.none _ fun n => ?_⟩
    rintro ⟨k, t, hk, -⟩
    cases hk
  | cons i entries ih =>
    intro s
    rw [List.foldl_cons]
    by_cases hlog : isLogical partitionStart partitionSize i (msdosPartition buf i) = true
    swap
    · have hskip : extendedEntry env slot blksize partitionStart partitionSize buf s i = s := by
        simp only [extendedEntry, hlog]
        rfl
      have hrec : recordLogicals partitionStart partitionSize buf (i :: entries)
          = recordLogicals partitionStart partitionSize buf entries := by
        simp [recordLogicals, hlog]
      rw [hskip, hrec]
      exact ih s
    · have hrec : recordLogicals partitionStart partitionSize buf (i :: entries)
          = (msdosPartition buf i).sysInd
            :: recordLogicals partitionStart partitionSize buf entries := by
        simp [recordLogicals, hlog]
      obtain ⟨hnext, hadds⟩ := ih (extendedEntry env slot blksize partitionStart partitionSize buf s i)
      have hcount : (extendedEntry env slot blksize partitionStart partitionSize buf s i).1
          = s.1 + 1 := by
        simp only [extendedEntry, hlog]
        rfl
      rw [hcount] at hnext hadds
      rw [hrec]
      refine ⟨by rw [hnext, List.length_cons]; omega, ?_⟩
      -- the entry itself has the number `s.1`, all others are above it
      have hfirst : Adds (fun n => n = s.1 ∧ msdosIsLinuxPartition (msdosPartition buf i).sysInd = true
            ∧ env.malloc slot n = true)
          s.2 (extendedEntry env slot blksize partitionStart partitionSize buf s i).2 := by
        simp only [extendedEntry, hlog, Bool.not_true, Bool.false_eq_true, if_false]
        by_cases hlinux : msdosIsLinuxPartition (msdosPartition buf i).sysInd = true
        · by_cases hmalloc : env.malloc slot s.1 = true
          · simp only [hlinux, if_true, addNewPartition, hmalloc]
            refine ⟨[s.1], rfl, List.nodup_singleton _, fun n => ?_⟩
            rw [List.mem_singleton]
            exact ⟨fun hn => ⟨hn, trivial, hn ▸ hmalloc⟩, fun hn => hn.1⟩
          · simp only [hlinux, if_true, addNewPartition, hmalloc]
            refine Adds.none _ fun n hn => hmalloc ?_
            rw [← hn.1]
            exact hn.2.2
        · simp only [hlinux]
          exact Adds.none _ fun n hn => nomatch hn.2.1
      refine hfirst.trans hadds ?_ ?_
      · rintro n ⟨rfl, -⟩ ⟨k, t, -, -, hn, -⟩
        omega
      · intro n
        constructor
        · rintro ⟨k, t, hk, hlinux, rfl, hmalloc⟩
          cases k with
          | zero =>
            cases hk
            exact .inl ⟨rfl, hlinux, hmalloc⟩
          | succ k => exact .inr ⟨k, t, hk, hlinux, by omega, hmalloc⟩
        · rintro (⟨rfl, hlinux, hmalloc⟩ | ⟨k, t, hk, hlinux, rfl, hmalloc⟩)
          · exact ⟨0, _, rfl, hlinux, rfl, hmalloc⟩
          · exact ⟨k + 1, t, hk, hlinux, by omega, hmalloc⟩

/-- Where the chain ends, no partition is on it. -/
theorem logicalAt_none {partitionStart partitionSize k sysInd : Nat} {before : Bytes}
    (h : ∀ buf, ¬ Record disk start size partitionStart before buf) :
    ¬ LogicalAt disk start size partitionStart partitionSize before k sysInd := by
  intro hat
  cases hat with
  | here record _ => exact h _ record
  | next record _ _ => exact h _ record

/-- A record is read in one way. -/
theorem Record.unique {partitionStart : Nat} {before buf buf' : Bytes}
    (h : Record disk start size partitionStart before buf)
    (h' : Record disk start size partitionStart before buf') : buf' = buf :=
  congrArg Prod.snd (h'.read.symm.trans h.read)

/-- One record: the loop ends, or it goes through the entries and on behind the link. -/
theorem extendedRecord_eq (env : Env) (disk : Disk) (slot start size blksize partitionStart
    partitionSize : Nat) (before : Bytes) (s : Nat × List PartitionT) :
    (extendedRecord env disk slot start size blksize partitionStart partitionSize before s
        = (s, none) ∧ ∀ buf, ¬ Record disk start size partitionStart before buf)
      ∨ ∃ buf, Record disk start size partitionStart before buf
        ∧ extendedRecord env disk slot start size blksize partitionStart partitionSize before s
          = ((List.range 4).foldl (extendedEntry env slot blksize partitionStart partitionSize buf) s,
            (extendedLink buf).map fun part => (part, buf)) := by
  rw [extendedRecord]
  by_cases hinside : u32 (start + size) ≤ partitionStart
  · rw [if_pos hinside]
    exact .inl ⟨rfl, fun buf hrec => absurd hrec.inside (Nat.not_lt.mpr hinside)⟩
  rw [if_neg hinside]
  cases hread : promReadblocks disk partitionStart 1 before with
  | mk ok buf =>
    cases ok with
    | false =>
      refine .inl ⟨rfl, fun buf' hrec => ?_⟩
      have heq := hrec.read
      rw [hread] at heq
      cases heq
    | true =>
      by_cases hmagic : msdosMagicPresent buf = true
      swap
      · simp only [hmagic]
        refine .inl ⟨rfl, fun buf' hrec => ?_⟩
        have heq := hrec.read
        rw [hread] at heq
        cases heq
        exact hmagic hrec.magic
      · simp only [hmagic]
        exact .inr ⟨buf, ⟨Nat.not_le.mp hinside, hread, hmagic⟩, rfl⟩

/-- The same, with what the entries add. -/
theorem extendedRecord_cases (env : Env) (disk : Disk) (slot start size blksize partitionStart
    partitionSize : Nat) (before : Bytes) (s : Nat × List PartitionT) :
    (extendedRecord env disk slot start size blksize partitionStart partitionSize before s
        = (s, none) ∧ ∀ buf, ¬ Record disk start size partitionStart before buf)
      ∨ ∃ buf t, Record disk start size partitionStart before buf
        ∧ extendedRecord env disk slot start size blksize partitionStart partitionSize before s
          = (t, (extendedLink buf).map fun part => (part, buf))
        ∧ t.1 = s.1 + (recordLogicals partitionStart partitionSize buf (List.range 4)).length
        ∧ Adds (Gets env slot s.1 fun k sysInd =>
            (recordLogicals partitionStart partitionSize buf (List.range 4))[k]? = some sysInd)
          s.2 t.2 := by
  rcases extendedRecord_eq env disk slot start size blksize partitionStart partitionSize before s with
    hend | ⟨buf, hrec, hstep⟩
  · exact .inl hend
  · obtain ⟨hnext, hadds⟩ := extendedEntry_foldl env slot blksize partitionStart
      partitionSize buf (List.range 4) s
    exact .inr ⟨buf, _, hrec, hstep, hnext, hadds⟩

/-- The places on a chain are those of its first record, then those behind the link. -/
theorem gets_chain {partitionStart partitionSize first : Nat} {before buf : Bytes}
    (hrec : Record disk start size partitionStart before buf) (n : Nat) :
    Gets env slot first (LogicalAt disk start size partitionStart partitionSize before) n ↔
      Gets env slot first (fun k sysInd =>
          (recordLogicals partitionStart partitionSize buf (List.range 4))[k]? = some sysInd) n
        ∨ ∃ part, extendedLink buf = some part
          ∧ Gets env slot
            (first + (recordLogicals partitionStart partitionSize buf (List.range 4)).length)
            (LogicalAt disk start size (u32 (start + part.start)) part.size buf) n := by
  constructor
  · rintro ⟨k, t, hat, hlinux, rfl, hmalloc⟩
    cases hat with
    | here record entry =>
      obtain rfl := hrec.unique record
      exact .inl ⟨k, t, entry, hlinux, rfl, hmalloc⟩
    | @next _ _ _ _ k _ part record link rest =>
      obtain rfl := hrec.unique record
      exact .inr ⟨part, link, k, t, rest, hlinux, (Nat.add_assoc _ _ _).symm, hmalloc⟩
  · rintro (⟨k, t, hk, hlinux, rfl, hmalloc⟩ | ⟨part, link, k, t, rest, hlinux, rfl, hmalloc⟩)
    · exact ⟨k, t, .here hrec hk, hlinux, rfl, hmalloc⟩
    · exact ⟨_, t, .next hrec link rest, hlinux, Nat.add_assoc _ _ _, hmalloc⟩

/-- The walk adds the Linux partitions of the chain, numbered by their places. -/
theorem msdosExtendedLoop_adds (fuel : Nat) :
    ∀ partitionStart partitionSize before s list',
    msdosExtendedLoop env disk slot start size blksize fuel partitionStart partitionSize before s
      = some list' →
    Adds (Gets env slot s.1 (LogicalAt disk start size partitionStart partitionSize before))
      s.2 list' := by
  induction fuel with
  | zero =>
    intro partitionStart partitionSize before s list' h
    cases h
  | succ fuel ih =>
    intro partitionStart partitionSize before s list' h
    rw [msdosExtendedLoop] at h
    rcases extendedRecord_cases env disk slot start size blksize partitionStart partitionSize
      before s with
      ⟨hstep, hno⟩ | ⟨buf, t, hrec, hstep, hnext, hadds⟩
    · rw [hstep] at h
      cases h
      refine Adds.none _ ?_
      rintro n ⟨k, t, hat, -⟩
      exact logicalAt_none hno hat
    · rw [hstep] at h
      cases hlink : extendedLink buf with
      | none =>
        rw [hlink] at h
        cases h
        refine hadds.congr fun n => ?_
        rw [gets_chain hrec]
        simp [hlink]
      | some part =>
        rw [hlink] at h
        have hrest := ih _ _ _ _ _ h
        rw [hnext] at hrest
        refine hadds.trans hrest ?_ fun n => ?_
        · -- the numbers of the first record are below those behind it
          rintro n ⟨k, sysInd, hk, -, rfl, -⟩ ⟨j, sysInd', -, -, hn, -⟩
          have hlt := (List.getElem?_eq_some_iff.mp hk).1
          omega
        · rw [gets_chain hrec]
          simp [hlink]

end Extended

/-! ## §3 The four slots -/

/-- The `k`-th logical partition of a primary slot has the type `sysInd`. -/
def SlotLogical (env : Env) (disk : Disk) (buf : Bytes) (slot k sysInd : Nat) : Prop :=
  let part := msdosPartition buf (slot - 1)
  LogicalAt disk part.start part.size part.start part.size (env.stack slot) k sysInd

/-- An entry of `slot` has the number `n`. -/
def Owns (env : Env) (disk : Disk) (buf : Bytes) (slot n : Nat) : Prop :=
  let part := msdosPartition buf (slot - 1)
  if msdosIsLinuxPartition part.sysInd || msdosIsFatPartition part.sysInd then
    n = slot ∧ env.malloc slot slot = true
  else msdosIsExtendedPartition part.sysInd = true ∧ Gets env slot 5 (SlotLogical env disk buf slot) n

theorem msdosSlot_adds {env : Env} {disk : Disk} {fuel blksize slot : Nat} {buf : Bytes}
    {list list' : List PartitionT} (h : msdosSlot env disk fuel blksize buf list slot = some list') :
    Adds (Owns env disk buf slot) list list' := by
  simp only [msdosSlot] at h
  split at h
  · rename_i hprimary
    cases h
    have howns : ∀ n, Owns env disk buf slot n ↔ n = slot ∧ env.malloc slot slot = true := fun n => by
      simp only [Owns, hprimary, if_true]
    rw [addNewPartition]
    split
    · rename_i hmalloc
      refine ⟨[slot], rfl, List.nodup_singleton _, fun n => ?_⟩
      rw [List.mem_singleton, howns]
      exact ⟨fun hn => ⟨hn, hmalloc⟩, fun hn => hn.1⟩
    · rename_i hmalloc
      exact Adds.none _ fun n hn => hmalloc ((howns n).mp hn).2
  · rename_i hprimary
    split at h
    · rename_i hextended
      refine (msdosExtendedLoop_adds fuel _ _ _ _ _ h).congr fun n => ?_
      simp only [Owns, hprimary, hextended, true_and]
      rfl
    · rename_i hextended
      cases h
      refine Adds.none _ fun n hn => ?_
      simp only [Owns, hprimary, hextended] at hn
      exact nomatch hn.1

/-- If every step adds the numbers its key owns, the result has each number once exactly if no
two keys own one. -/
theorem adds_foldlM {owns : Nat → Nat → Prop}
    {step : List PartitionT → Nat → Option (List PartitionT)}
    (hstep : ∀ slot list list', step list slot = some list' → Adds (owns slot) list list')
    (slots : List Nat) : ∀ list list', slots.foldlM step list = some list' →
    ((numbers list').Nodup ↔ (numbers list).Nodup
      ∧ (∀ slot ∈ slots, ∀ n, owns slot n → n ∉ numbers list)
      ∧ slots.Pairwise fun a b => ∀ n, owns a n → ¬ owns b n) := by
  induction slots with
  | nil =>
    intro list list' h
    cases h
    simp
  | cons slot slots ih =>
    intro list list' h
    rw [List.foldlM_cons] at h
    obtain ⟨mid, hmid, hrest⟩ := Option.bind_eq_some_iff.mp h
    obtain ⟨added, hnum, hnodup, hmem⟩ := hstep _ _ _ hmid
    rw [ih mid list' hrest, hnum, List.nodup_append]
    constructor
    · rintro ⟨⟨-, hlist, hdisj⟩, hslots, hpair⟩
      refine ⟨hlist, fun s hs n hn hin => ?_, List.pairwise_cons.mpr ⟨fun b hb n hn hown => ?_, hpair⟩⟩
      · rcases List.mem_cons.mp hs with rfl | hs
        · exact hdisj n ((hmem n).mpr hn) n hin rfl
        · exact hslots s hs n hn (List.mem_append_right _ hin)
      · exact hslots b hb n hown (List.mem_append_left _ ((hmem n).mpr hn))
    · rintro ⟨hlist, hslots, hpair⟩
      obtain ⟨hhead, htail⟩ := List.pairwise_cons.mp hpair
      refine ⟨⟨hnodup, hlist, fun n hn m hm heq => ?_⟩, fun s hs n hn hin => ?_, htail⟩
      · subst heq
        exact hslots slot List.mem_cons_self n ((hmem n).mp hn) hm
      · rcases List.mem_append.mp hin with hin | hin
        · exact hhead s hs n ((hmem n).mp hin) hn
        · exact hslots s (List.mem_cons_of_mem _ hs) n hn hin

/-- No two extended slots have Linux partitions, with memory for both, at the same place. -/
def PlacesDiffer (env : Env) (disk : Disk) (buf : Bytes) : Prop :=
  ∀ a ∈ [1, 2, 3, 4], ∀ b ∈ [1, 2, 3, 4], a < b →
    msdosIsExtendedPartition (msdosPartition buf (a - 1)).sysInd = true →
    msdosIsExtendedPartition (msdosPartition buf (b - 1)).sysInd = true →
    ∀ k t t', SlotLogical env disk buf a k t → SlotLogical env disk buf b k t' →
      msdosIsLinuxPartition t = true → msdosIsLinuxPartition t' = true →
      ¬ (env.malloc a (5 + k) = true ∧ env.malloc b (5 + k) = true)

theorem not_primary_of_extended {sysInd : Nat} (h : msdosIsExtendedPartition sysInd = true) :
    (msdosIsLinuxPartition sysInd || msdosIsFatPartition sysInd) = false := by
  simp only [msdosIsExtendedPartition, Bool.or_eq_true, beq_iff_eq] at h
  rcases h with (rfl | rfl) | rfl
  · rfl
  · rfl
  · rfl

/-- Two slots clash only if both are extended. -/
theorem owns_both {env : Env} {disk : Disk} {buf : Bytes} {a b n : Nat} (hab : a ≠ b)
    (ha : a ∈ [1, 2, 3, 4]) (hb : b ∈ [1, 2, 3, 4]) (h : Owns env disk buf a n)
    (h' : Owns env disk buf b n) :
    msdosIsExtendedPartition (msdosPartition buf (a - 1)).sysInd = true
      ∧ msdosIsExtendedPartition (msdosPartition buf (b - 1)).sysInd = true
      ∧ Gets env a 5 (SlotLogical env disk buf a) n
      ∧ Gets env b 5 (SlotLogical env disk buf b) n := by
  have hsmall : ∀ {s : Nat}, s ∈ [1, 2, 3, 4] → s < 5 := by
    intro s hs
    simp only [List.mem_cons, List.not_mem_nil, or_false] at hs
    omega
  have hbig : ∀ {s : Nat}, Gets env s 5 (SlotLogical env disk buf s) n → 5 ≤ n := by
    rintro s ⟨k, t, -, -, rfl, -⟩
    exact Nat.le_add_right 5 k
  simp only [Owns] at h h'
  split at h
  · split at h'
    · exact absurd (h.1.symm.trans h'.1) hab
    · have hle := hbig h'.2
      have hlt := hsmall ha
      rw [h.1] at hle
      exact absurd hle (Nat.not_le.mpr hlt)
  · split at h'
    · have hle := hbig h.2
      have hlt := hsmall hb
      rw [h'.1] at hle
      exact absurd hle (Nat.not_le.mpr hlt)
    · exact ⟨h.1, h'.1, h.2, h'.2⟩

theorem partitionMsdosLookup_nodup_iff {env : Env} {disk : Disk} {fuel blksize : Nat}
    {buf : Bytes} {list : List PartitionT}
    (h : partitionMsdosLookup env disk fuel blksize buf = some list) :
    (numbers list).Nodup ↔ PlacesDiffer env disk buf := by
  have hstep : ∀ slot l l', msdosSlot env disk fuel blksize buf l slot = some l' →
      Adds (Owns env disk buf slot) l l' := fun _ _ _ hs => msdosSlot_adds hs
  rw [adds_foldlM hstep [1, 2, 3, 4] [] list h]
  constructor
  · rintro ⟨-, -, hpair⟩ a ha b hb hab hexta hextb k t t' hat hat' hlinux hlinux' ⟨hma, hmb⟩
    have howns : ∀ {s u : Nat}, msdosIsExtendedPartition (msdosPartition buf (s - 1)).sysInd = true →
        SlotLogical env disk buf s k u → msdosIsLinuxPartition u = true →
        env.malloc s (5 + k) = true → Owns env disk buf s (5 + k) := by
      intro s u hext hlog hlin hmal
      simp only [Owns, not_primary_of_extended hext]
      exact ⟨hext, k, u, hlog, hlin, rfl, hmal⟩
    have hdisj : ∀ n, Owns env disk buf a n → ¬ Owns env disk buf b n := by
      simp only [List.mem_cons, List.not_mem_nil, or_false] at ha hb
      simp only [List.pairwise_cons, List.mem_cons, List.not_mem_nil, or_false] at hpair
      obtain ⟨h1, h2, h3, -⟩ := hpair
      rcases ha with rfl | rfl | rfl | rfl
      · exact h1 b (by omega)
      · exact h2 b (by omega)
      · exact h3 b (by omega)
      · omega
    exact hdisj _ (howns hexta hat hlinux hma) (howns hextb hat' hlinux' hmb)
  · intro hcond
    refine ⟨List.nodup_nil, fun _ _ _ _ => List.not_mem_nil, ?_⟩
    have hdisj : ∀ a ∈ [1, 2, 3, 4], ∀ b ∈ [1, 2, 3, 4], a < b →
        ∀ n, Owns env disk buf a n → ¬ Owns env disk buf b n := by
      intro a ha b hb hab n hown hown'
      obtain ⟨hexta, hextb, ⟨k, t, hat, hlinux, rfl, hma⟩, k', t', hat', hlinux', hk, hmb⟩ :=
        owns_both (Nat.ne_of_lt hab) ha hb hown hown'
      obtain rfl : k = k' := Nat.add_left_cancel hk
      exact hcond a ha b hb hab hexta hextb k t t' hat hat' hlinux hlinux' ⟨hma, hmb⟩
    have hsorted : ([1, 2, 3, 4] : List Nat).Pairwise (· < ·) := by decide
    exact hsorted.imp_of_mem fun {a b} ha hb hab => hdisj a ha b hb hab

/-! ## §4 The lookup -/

/-- The boot blocks `boot` carry an MSDOS table, and no Mac or GPT one. -/
structure MsdosDisk (disk : Disk) (buf boot : Bytes) : Prop where
  blksize : disk.promBlksize ≤ maxBlockSize
  read : promReadblocks disk 0 2 buf = (true, boot)
  mac : macMagicPresent boot = false
  gpt : gptMagicPresent boot disk.promBlksize = false
  magic : msdosMagicPresent boot = true

/-- **Part numbers**: the list a lookup returns has each number once exactly if the disk is not
an MSDOS disk with Linux partitions at the same place of two extended slots. -/
theorem part_numbers_distinct_iff (env : Env) (disk : Option Disk) (fuel : Nat) (buf : Bytes)
    (list : List PartitionT) (h : partitionsLookup env disk fuel buf = some list) :
    (numbers list).Nodup ↔
      ∀ d boot, disk = some d → MsdosDisk d buf boot → PlacesDiffer env d boot := by
  cases disk with
  | none =>
    cases h
    exact ⟨fun _ d boot hd => (nomatch hd), fun _ => List.nodup_nil⟩
  | some d =>
    simp only [partitionsLookup] at h
    -- outside the MSDOS branch the numbers are distinct and the condition says nothing
    have hother : (numbers list).Nodup → (∀ boot, ¬ MsdosDisk d buf boot) →
        ((numbers list).Nodup ↔
          ∀ d' boot, some d = some d' → MsdosDisk d' buf boot → PlacesDiffer env d' boot) := by
      intro hnodup hno
      refine ⟨fun _ d' boot hd hboot => ?_, fun _ => hnodup⟩
      cases hd
      exact absurd hboot (hno boot)
    by_cases hsize : maxBlockSize < d.promBlksize
    · rw [if_pos hsize] at h
      cases h
      exact hother List.nodup_nil fun boot hboot => absurd hboot.blksize (Nat.not_le.mpr hsize)
    rw [if_neg hsize] at h
    cases hread : promReadblocks d 0 2 buf with
    | mk ok boot =>
      rw [hread] at h
      have hboot : ∀ {boot'}, MsdosDisk d buf boot' → ok = true ∧ boot' = boot := by
        intro boot' hdisk
        have heq := hread.symm.trans hdisk.read
        cases heq
        exact ⟨rfl, rfl⟩
      cases ok with
      | false =>
        cases h
        exact hother List.nodup_nil fun boot' hdisk => nomatch (hboot hdisk).1
      | true =>
        simp only [Bool.not_true, Bool.false_eq_true, if_false] at h
        by_cases hmac : macMagicPresent boot = true
        · rw [if_pos hmac] at h
          cases h
          refine hother (partitionMacLookup_nodup env d boot) fun boot' hdisk => ?_
          obtain rfl := (hboot hdisk).2
          exact Bool.noConfusion (hmac.symm.trans hdisk.mac)
        rw [if_neg hmac] at h
        by_cases hgpt : gptMagicPresent boot d.promBlksize = true
        · rw [if_pos hgpt] at h
          cases h
          refine hother (partitionGptLookup_nodup env d _ boot) fun boot' hdisk => ?_
          obtain rfl := (hboot hdisk).2
          exact Bool.noConfusion (hgpt.symm.trans hdisk.gpt)
        rw [if_neg hgpt] at h
        by_cases hmsdos : msdosMagicPresent boot = true
        · rw [if_pos hmsdos] at h
          rw [partitionMsdosLookup_nodup_iff h]
          constructor
          · intro hdiffer d' boot' hd hdisk
            cases hd
            obtain rfl := (hboot hdisk).2
            exact hdiffer
          · intro hcond
            exact hcond d boot rfl ⟨Nat.not_lt.mp hsize, hread, Bool.eq_false_iff.mpr hmac,
              Bool.eq_false_iff.mpr hgpt, hmsdos⟩
        rw [if_neg hmsdos] at h
        have hno : ∀ boot', ¬ MsdosDisk d buf boot' := fun boot' hdisk => by
          obtain rfl := (hboot hdisk).2
          exact hmsdos hdisk.magic
        refine hother ?_ hno
        split at h
        · cases h
          rw [addNewPartition]
          split
          · exact List.nodup_singleton _
          · exact List.nodup_nil
        · exact partitionAmigaLookup_nodup h

/-- A disk of blocks of 512 bytes, with the given bytes that are not 0. -/
def sparseDisk (bytes : List (Nat × UInt8)) : Disk where
  blksize := 512
  seek := fun _ => true
  read := fun pos size => (size, fun i => some ((bytes.lookup (pos + i)).getD 0))

/-- Memory for everything, and a Mac disk seen before. -/
def roomyEnv : Env where
  malloc := fun _ _ => true
  mallocUsed := true
  heap := fun _ => 0
  stack := fun _ _ => 0
  macWriteOnce := true

/-- A boot record at `block` with one entry, of type `sysInd`, `size` blocks from `start` on. -/
def recordBytes (block : Nat) (sysInd start size : UInt8) : List (Nat × UInt8) :=
  [(512 * block + 0x1c2, sysInd), (512 * block + 0x1c6, start), (512 * block + 0x1ca, size),
    (512 * block + 510, 0x55), (512 * block + 511, 0xaa)]

/-- Two extended slots, at blocks 1 and 8, each with one Linux partition. -/
def twoExtended : Disk :=
  sparseDisk ([(0x1d2, 0x05), (0x1d6, 8), (0x1da, 4)] ++ recordBytes 0 0x05 1 4
    ++ recordBytes 1 0x83 1 1 ++ recordBytes 8 0x83 1 1)

/-- One extended slot with one Linux partition. -/
def oneExtended : Disk := sparseDisk (recordBytes 0 0x05 1 4 ++ recordBytes 1 0x83 1 1)

theorem oneExtended_numbers :
    (numbers [⟨5, 2, 1, .msdos, 512, 0x83⟩]).Nodup ↔
      ∀ d boot, some oneExtended = some d → MsdosDisk d (fun _ => 0) boot →
        PlacesDiffer roomyEnv d boot :=
  part_numbers_distinct_iff roomyEnv (some oneExtended) 2 (fun _ => 0) _ (by decide +kernel)

/-- Both Linux partitions are number 5. -/
theorem twoExtended_same_number :
    partitionsLookup roomyEnv (some twoExtended) 2 (fun _ => 0)
        = some [⟨5, 9, 1, .msdos, 512, 0x83⟩, ⟨5, 2, 1, .msdos, 512, 0x83⟩]
      ∧ ¬ (numbers [⟨5, 9, 1, .msdos, 512, 0x83⟩, ⟨5, 2, 1, .msdos, 512, 0x83⟩]).Nodup := by
  decide +kernel

end LiloBoot.Partition
