/-
LiloBoot.Boot.RamdiskTheorems — when the kernel gets its whole ramdisk.

The chunk loop is unrolled by the number of reads: `readAt k` is the result
of the `k`-th read, `posAt k` the file position before it, `addrAt k` the
address it goes to, and `Reached n` says that the first `n` reads were full
and the claims behind them gave the wanted address. A run of the loop stops
at exactly one `n`, and what has been loaded then is a function of it. The
loop tells neither a failed claim nor a failed read from the end of the
file, so the round is right only if the file ends where the loop stops.
-/
import LiloBoot.Boot.TextUi

namespace LiloBoot.Boot

open LiloBoot.Elf

/-! ## §1 What a round owes -/

/-- The ramdisk the user asked for: in the arguments, else in the configuration. -/
def requestedPath (sc : Script) : Option CStr :=
  match argsInitrd sc.args with
  | some p => some p
  | none => sc.cfgInitrd

/-- A ramdisk was asked for. -/
def Requested (sc : Script) : Prop := ∃ c cs, requestedPath sc = some (c :: cs)

/-- An address lies in a region. -/
def Holds (r : Region) (a : Nat) : Prop := sub32 a r.base < r.size

section Loop

variable (f : RdFile) (chunk base : Nat) (claimAt : Nat → Option Nat)

/-- The file position before the `k`-th read. -/
def posAt : Nat → Nat
  | 0 => 0
  | k + 1 => posAt k + (f.read k (posAt k) chunk).toNat

/-- The result of the `k`-th read. -/
def readAt (k : Nat) : Int := f.read k (posAt f chunk k) chunk

/-- The address of the `k`-th read. -/
def addrAt (k : Nat) : Nat := u32 (base + k * chunk)

/-- The loop comes to the `n`-th read. -/
def Reached (n : Nat) : Prop :=
  ∀ k < n, u32OfInt (readAt f chunk k) = chunk
    ∧ (claimAt (k + 1)).getD (2 ^ 32 - 1) = addrAt chunk base (k + 1)

/-- The loop ends after the `n`-th read: it was not full, or the claim behind it failed. -/
def StopsAt (n : Nat) : Prop :=
  u32OfInt (readAt f chunk n) ≠ chunk
    ∨ (claimAt (n + 1)).getD (2 ^ 32 - 1) ≠ addrAt chunk base (n + 1)

/-- Neither the `k`-th read nor the claim behind it fails. -/
def Succeeds (k : Nat) : Prop :=
  0 ≤ readAt f chunk k
    ∧ (u32OfInt (readAt f chunk k) = chunk → claimAt (k + 1) = some (addrAt chunk base (k + 1)))

end Loop

/-- A kernel that is entered has the whole ramdisk, in claimed memory, and no claim or read
the loop came to has failed. -/
def RamdiskComplete (sc : Script) (base size : Nat) (mem : Bytes) (claimed : List Region) :
    Prop :=
  ∃ f, sc.rd.file = some f ∧ size = f.content.length
    ∧ (∀ i < f.content.length, mem (u32 (base + i)) = f.content.getD i 0
      ∧ ∃ r ∈ claimed, Holds r (u32 (base + i)))
    ∧ (sc.rdFilename ≠ none →
      ∀ k, Reached f (chunksize sc.initrdsize f.inoSize) base sc.rd.claimAt k →
        Succeeds f (chunksize sc.initrdsize f.inoSize) base sc.rd.claimAt k)

/-- The law of a round. -/
def RoundOk (sc : Script) (mem : Bytes) (claimed : List Region) : Prop :=
  Requested sc → ∀ fuel base size mem' claimed',
    round sc fuel mem claimed = some (.enter base size, mem', claimed') →
    RamdiskComplete sc base size mem' claimed'

/-- Wherever the loop stops, it is at the end of the file, with no claim or read failed. -/
def StopsAtEnd (f : RdFile) (chunk base : Nat) (claimAt : Nat → Option Nat) : Prop :=
  ∀ n, Reached f chunk base claimAt n → StopsAt f chunk base claimAt n →
    (∀ k ≤ n, Succeeds f chunk base claimAt k)
      ∧ posAt f chunk (n + 1) = f.content.length ∧ f.content.length < 2 ^ 32

/-- The condition: a file name that does not reach the loader is that of an empty file; else,
if the file opens, its first chunk is claimed and the first read gives something, the loop
stops at the end of the file. -/
def RamdiskReads (sc : Script) (li : LoadInfo) : Prop :=
  (sc.rdFilename = none → ∃ f, sc.rd.file = some f ∧ f.content = [])
    ∧ (sc.rdFilename ≠ none → ∀ f found, sc.rd.file = some f →
      promClaimChunk sc.rd.claim (claimBase sc.cpu64 li) (chunksize sc.initrdsize f.inoSize)
        = some found → u32 found ≠ 0 →
      u32OfInt (readAt f (chunksize sc.initrdsize f.inoSize) 0) ≠ 0 →
      StopsAtEnd f (chunksize sc.initrdsize f.inoSize) (u32 found) sc.rd.claimAt)

/-! ## §2 Reads -/

section Proofs

variable {f : RdFile} {chunk base : Nat} {claimAt : Nat → Option Nat}

theorem read_lt (k pos size : Nat) : f.read k pos size < 2 ^ 31 := by
  rw [RdFile.read]
  split
  · omega
  · omega

/-- A read does not go beyond the request or the file. -/
theorem read_le (k pos size : Nat) :
    (f.read k pos size).toNat ≤ size ∧ (f.read k pos size).toNat ≤ f.content.length - pos := by
  rw [RdFile.read]
  split
  · omega
  · omega

theorem u32OfInt_of_nonneg {r : Int} (h : 0 ≤ r) (hlt : r < 2 ^ 31) : u32OfInt r = r.toNat := by
  rw [u32OfInt]
  omega

theorem posAt_succ (k : Nat) :
    posAt f chunk (k + 1) = posAt f chunk k + (readAt f chunk k).toNat := rfl

theorem posAt_le (k : Nat) : posAt f chunk k ≤ f.content.length := by
  induction k with
  | zero => exact Nat.zero_le _
  | succ k ih =>
    have hle := (read_le (f := f) k (posAt f chunk k) chunk).2
    rw [posAt]
    omega

/-- After full reads the position is a multiple of the chunk size. -/
theorem posAt_full (n : Nat) (hreach : Reached f chunk base claimAt n)
    (hok : ∀ k < n, 0 ≤ readAt f chunk k) : posAt f chunk n = n * chunk := by
  induction n with
  | zero => rw [Nat.zero_mul]; rfl
  | succ n ih =>
    have hprev := ih (fun k hk => hreach k (Nat.lt_succ_of_lt hk))
      fun k hk => hok k (Nat.lt_succ_of_lt hk)
    have hfull := (hreach n (Nat.lt_succ_self n)).1
    have hnonneg := hok n (Nat.lt_succ_self n)
    rw [u32OfInt_of_nonneg hnonneg (read_lt _ _ _)] at hfull
    rw [posAt_succ, hprev, hfull, Nat.add_mul, Nat.one_mul]

/-! ## §3 The loop, read by read -/

/-- The state after the `k`-th read, if the loop comes to it. -/
def stateAt (f : RdFile) (chunk base : Nat) (claimAt : Nat → Option Nat) (s : RdState) :
    Nat → RdState
  | 0 => readChunk f chunk 0 base s
  | k + 1 =>
    let t := stateAt f chunk base claimAt s k
    readChunk f chunk (k + 1) (addrAt chunk base (k + 1))
      { t with
        claimed :=
          match claimAt (k + 1) with
          | some a => ⟨a, chunk⟩ :: t.claimed
          | none => t.claimed }

variable {s : RdState}

theorem stateAt_pos (hs : s.pos = 0) (k : Nat) :
    (stateAt f chunk base claimAt s k).pos = posAt f chunk (k + 1) := by
  induction k with
  | zero =>
    simp only [stateAt, readChunk, hs, posAt, Nat.zero_add]
  | succ k ih =>
    simp only [stateAt, readChunk, ih]
    rfl

theorem stateAt_read (hs : s.pos = 0) (k : Nat) :
    (stateAt f chunk base claimAt s k).read = u32OfInt (readAt f chunk k) := by
  cases k with
  | zero => simp only [stateAt, readChunk, hs, readAt, posAt]
  | succ k => simp only [stateAt, readChunk, stateAt_pos hs, readAt]

theorem stateAt_more (hbase : base < 2 ^ 32) (k : Nat) :
    (stateAt f chunk base claimAt s k).more = addrAt chunk base k := by
  cases k with
  | zero =>
    simp only [stateAt, readChunk, addrAt, Nat.zero_mul, Nat.add_zero]
    exact (u32_of_lt hbase).symm
  | succ k => rfl

theorem addrAt_succ (k : Nat) : u32 (addrAt chunk base k + chunk) = addrAt chunk base (k + 1) := by
  rw [addrAt, addrAt, Nat.add_mul, Nat.one_mul, ← Nat.add_assoc, u32, u32, u32, Nat.mod_add_mod]

/-- The loop goes on from a read that is full and a claim that is granted. -/
theorem readMore_go (hs : s.pos = 0) (hbase : base < 2 ^ 32) {k : Nat}
    (hgo : ¬ StopsAt f chunk base claimAt k) (fuel : Nat) :
    readMore f claimAt chunk (fuel + 1) (k + 1) (stateAt f chunk base claimAt s k)
      = readMore f claimAt chunk fuel (k + 2) (stateAt f chunk base claimAt s (k + 1)) := by
  simp only [StopsAt, not_or, not_not] at hgo
  obtain ⟨hfull, hclaim⟩ := hgo
  have hread : (stateAt f chunk base claimAt s k).read = u32OfInt (readAt f chunk k) :=
    stateAt_read hs k
  have hmore : (stateAt f chunk base claimAt s k).more = addrAt chunk base k :=
    stateAt_more hbase k
  rw [readMore, if_neg (by rw [hread]; exact not_not_intro hfull), hmore, addrAt_succ]
  simp only
  rw [if_neg (not_not_intro hclaim)]
  rfl

/-- The loop stops with what has been read. -/
theorem readMore_stop (hs : s.pos = 0) (hbase : base < 2 ^ 32) {k : Nat}
    (hstop : StopsAt f chunk base claimAt k) (fuel : Nat) :
    ∃ t, readMore f claimAt chunk (fuel + 1) (k + 1) (stateAt f chunk base claimAt s k) = some t
      ∧ t.size = (stateAt f chunk base claimAt s k).size
      ∧ t.mem = (stateAt f chunk base claimAt s k).mem
      ∧ ∀ r ∈ (stateAt f chunk base claimAt s k).claimed, r ∈ t.claimed := by
  have hread : (stateAt f chunk base claimAt s k).read = u32OfInt (readAt f chunk k) :=
    stateAt_read hs k
  have hmore : (stateAt f chunk base claimAt s k).more = addrAt chunk base k :=
    stateAt_more hbase k
  by_cases hfull : u32OfInt (readAt f chunk k) = chunk
  · have hclaim : (claimAt (k + 1)).getD (2 ^ 32 - 1) ≠ addrAt chunk base (k + 1) := by
      rcases hstop with hstop | hstop
      · exact absurd hfull hstop
      · exact hstop
    rw [readMore, if_neg (by rw [hread]; exact not_not_intro hfull), hmore, addrAt_succ]
    simp only
    rw [if_pos hclaim]
    refine ⟨_, rfl, rfl, rfl, fun r hr => ?_⟩
    cases claimAt (k + 1) with
    | none => exact hr
    | some a => exact List.mem_cons_of_mem _ hr
  · rw [readMore, if_pos (by rw [hread]; exact hfull)]
    exact ⟨_, rfl, rfl, rfl, fun r hr => hr⟩

/-- A run of the loop has stopped at some read. -/
theorem readMore_run (hs : s.pos = 0) (hbase : base < 2 ^ 32) (fuel : Nat) : ∀ k t,
    Reached f chunk base claimAt k →
    readMore f claimAt chunk fuel (k + 1) (stateAt f chunk base claimAt s k) = some t →
    ∃ n, Reached f chunk base claimAt n ∧ StopsAt f chunk base claimAt n
      ∧ t.size = (stateAt f chunk base claimAt s n).size
      ∧ t.mem = (stateAt f chunk base claimAt s n).mem
      ∧ ∀ r ∈ (stateAt f chunk base claimAt s n).claimed, r ∈ t.claimed := by
  induction fuel with
  | zero =>
    intro k t _ h
    cases h
  | succ fuel ih =>
    intro k t hreach h
    by_cases hstop : StopsAt f chunk base claimAt k
    · obtain ⟨t', ht', hrest⟩ := readMore_stop (s := s) hs hbase hstop fuel
      rw [ht'] at h
      cases h
      exact ⟨k, hreach, hstop, hrest⟩
    · rw [readMore_go hs hbase hstop] at h
      refine ih (k + 1) t (fun j hj => ?_) h
      rcases Nat.lt_succ_iff_lt_or_eq.mp hj with hj | rfl
      · exact hreach j hj
      · simp only [StopsAt, not_or, not_not] at hstop
        exact hstop

/-- With enough fuel the loop comes to the read at which it stops. -/
theorem readMore_ends (hs : s.pos = 0) (hbase : base < 2 ^ 32) {n : Nat}
    (hreach : Reached f chunk base claimAt n) (hstop : StopsAt f chunk base claimAt n) (d : Nat) :
    ∀ k, k + d = n → ∃ t,
      readMore f claimAt chunk (d + 1) (k + 1) (stateAt f chunk base claimAt s k) = some t
      ∧ t.size = (stateAt f chunk base claimAt s n).size := by
  induction d with
  | zero =>
    intro k hk
    obtain rfl : k = n := hk
    obtain ⟨t, ht, hsize, -⟩ := readMore_stop (s := s) hs hbase hstop 0
    exact ⟨t, ht, hsize⟩
  | succ d ih =>
    intro k hk
    have hgo : ¬ StopsAt f chunk base claimAt k := by
      obtain ⟨hfull, hclaim⟩ := hreach k (by omega)
      simp only [StopsAt, not_or, not_not]
      exact ⟨hfull, hclaim⟩
    rw [readMore_go hs hbase hgo]
    exact ih (k + 1) (by omega)

/-! ## §4 What has been loaded -/

theorem u32_add_u32 (a b : Nat) : u32 (u32 a + u32 b) = u32 (a + b) := by
  simp only [u32, Nat.add_mod_mod, Nat.mod_add_mod]

/-- The size is the number of bytes read, in 32 bits. -/
theorem stateAt_size (hs : s.pos = 0) (hsize : s.size = 0) (n : Nat)
    (hok : ∀ k ≤ n, 0 ≤ readAt f chunk k) :
    (stateAt f chunk base claimAt s n).size = u32 (posAt f chunk (n + 1)) := by
  induction n with
  | zero =>
    have hr := hok 0 (Nat.le_refl 0)
    have hu : u32OfInt (readAt f chunk 0) = (readAt f chunk 0).toNat :=
      u32OfInt_of_nonneg hr (read_lt _ _ _)
    simp only [stateAt, readChunk, hs, hsize, Nat.zero_add]
    rw [posAt_succ, ← hu]
    simp only [posAt, Nat.zero_add, readAt]
  | succ n ih =>
    have hr := hok (n + 1) (Nat.le_refl _)
    have hu : u32OfInt (readAt f chunk (n + 1)) = (readAt f chunk (n + 1)).toNat :=
      u32OfInt_of_nonneg hr (read_lt _ _ _)
    have hprev := ih fun k hk => hok k (Nat.le_succ_of_le hk)
    simp only [stateAt, readChunk, stateAt_pos hs]
    rw [hprev, posAt_succ (n + 1), ← hu]
    simp only [readAt, u32, Nat.mod_add_mod]

/-- Addresses of the loaded area as offsets from each other. -/
theorem sub32_addr (a : Nat) {i j : Nat} (hi : i < 2 ^ 32) (hj : j < 2 ^ 32) :
    sub32 (u32 (a + i)) (u32 (a + j)) = if j ≤ i then i - j else 2 ^ 32 - (j - i) := by
  simp only [sub32, u32]
  split <;> omega

/-- What has been read lies from `base` on. -/
theorem stateAt_mem (hs : s.pos = 0) (hbase : base < 2 ^ 32) (n : Nat)
    (hreach : Reached f chunk base claimAt n) (hok : ∀ k ≤ n, 0 ≤ readAt f chunk k)
    (hlen : posAt f chunk (n + 1) < 2 ^ 32) : ∀ i < posAt f chunk (n + 1),
    (stateAt f chunk base claimAt s n).mem (u32 (base + i)) = f.content.getD i 0 := by
  induction n with
  | zero =>
    intro i hi
    have hoff := sub32_addr base (i := i) (j := 0) (by omega) (by decide)
    rw [Nat.add_zero, u32_of_lt hbase, if_pos (Nat.zero_le _), Nat.sub_zero] at hoff
    have hr : posAt f chunk (0 + 1) = (f.read 0 0 chunk).toNat := by
      simp only [posAt, Nat.zero_add]
    rw [hr] at hi
    simp only [stateAt, readChunk, hs, storeBytes, hoff, Nat.zero_add]
    rw [if_pos hi]
  | succ n ih =>
    intro i hi
    have hprev := posAt_full (n + 1) hreach fun k hk => hok k (Nat.le_of_lt hk)
    have hnext : posAt f chunk (n + 1 + 1)
        = posAt f chunk (n + 1) + (readAt f chunk (n + 1)).toNat := posAt_succ (n + 1)
    have hlen' : posAt f chunk (n + 1) < 2 ^ 32 := by omega
    have hoff := sub32_addr base (i := i) (j := (n + 1) * chunk) (by omega) (by omega)
    simp only [stateAt, readChunk, storeBytes, stateAt_pos hs]
    rw [addrAt, hoff]
    have hr : (f.read (n + 1) (posAt f chunk (n + 1)) chunk).toNat
        = (readAt f chunk (n + 1)).toNat := rfl
    rw [hr]
    by_cases hnew : (n + 1) * chunk ≤ i
    · rw [if_pos hnew, if_pos (by omega), hprev, Nat.add_sub_cancel' hnew]
    · rw [if_neg hnew, if_neg (by omega)]
      exact ih (fun k hk => hreach k (Nat.lt_succ_of_lt hk))
        (fun k hk => hok k (Nat.le_succ_of_le hk)) hlen' i (by omega)

/-- Every chunk read into is claimed. -/
theorem stateAt_claimed (hbase : base < 2 ^ 32) (hmem : (⟨base, chunk⟩ : Region) ∈ s.claimed)
    (n : Nat) (hreach : Reached f chunk base claimAt n)
    (hok : ∀ k ≤ n, Succeeds f chunk base claimAt k) : ∀ k ≤ n,
    (⟨addrAt chunk base k, chunk⟩ : Region) ∈ (stateAt f chunk base claimAt s n).claimed := by
  induction n with
  | zero =>
    intro k hk
    obtain rfl : k = 0 := by omega
    rw [addrAt, Nat.zero_mul, Nat.add_zero, u32_of_lt hbase]
    exact hmem
  | succ n ih =>
    intro k hk
    have hclaim := (hok n (Nat.le_succ n)).2 (hreach n (Nat.lt_succ_self n)).1
    simp only [stateAt, readChunk, hclaim]
    rcases Nat.lt_or_eq_of_le hk with hk | rfl
    · exact List.mem_cons_of_mem _ (ih (fun j hj => hreach j (Nat.lt_succ_of_lt hj))
        (fun j hj => hok j (Nat.le_succ_of_le hj)) k (by omega))
    · exact List.mem_cons_self

/-- The loop comes to no read behind the one it stops at. -/
theorem reached_le {n k : Nat} (hstop : StopsAt f chunk base claimAt n)
    (hreach : Reached f chunk base claimAt k) : k ≤ n := by
  by_contra hlt
  obtain ⟨hfull, hclaim⟩ := hreach n (by omega)
  rcases hstop with hstop | hstop
  · exact hstop hfull
  · exact hstop hclaim

/-- Where the loop stops at the end of the file, the file has been loaded. -/
theorem stateAt_whole (hs : s.pos = 0) (hsize : s.size = 0) (hbase : base < 2 ^ 32)
    (hmem : (⟨base, chunk⟩ : Region) ∈ s.claimed) {n : Nat}
    (hreach : Reached f chunk base claimAt n) (hok : ∀ k ≤ n, Succeeds f chunk base claimAt k)
    (hend : posAt f chunk (n + 1) = f.content.length) (hlen : f.content.length < 2 ^ 32) :
    (stateAt f chunk base claimAt s n).size = f.content.length
      ∧ ∀ i < f.content.length,
        (stateAt f chunk base claimAt s n).mem (u32 (base + i)) = f.content.getD i 0
        ∧ ∃ r ∈ (stateAt f chunk base claimAt s n).claimed, Holds r (u32 (base + i)) := by
  have hread : ∀ k ≤ n, 0 ≤ readAt f chunk k := fun k hk => (hok k hk).1
  constructor
  · rw [stateAt_size hs hsize n hread, hend, u32_of_lt hlen]
  · intro i hi
    have hloaded := stateAt_mem hs hbase n hreach hread (by rw [hend]; exact hlen) i
      (by rw [hend]; exact hi)
    refine ⟨hloaded, ⟨addrAt chunk base (i / chunk), chunk⟩, ?_, ?_⟩
    · -- the byte is in the chunk of a read that was made
      have hpos : posAt f chunk (n + 1) ≤ n * chunk + chunk := by
        have hlast := (read_le (f := f) n (posAt f chunk n) chunk).1
        have hprev := posAt_full n hreach fun k hk => hread k (Nat.le_of_lt hk)
        rw [posAt_succ, hprev]
        exact Nat.add_le_add_left (by rw [readAt]; exact hlast) _
      have hlt : i < (n + 1) * chunk := by
        rw [Nat.add_mul, Nat.one_mul]
        omega
      have hk : i / chunk < n + 1 := Nat.div_lt_of_lt_mul (by rwa [Nat.mul_comm])
      exact stateAt_claimed hbase hmem n hreach hok (i / chunk) (Nat.lt_succ_iff.mp hk)
    · have hchunk : 0 < chunk := by
        by_contra hzero
        have hzero : chunk = 0 := Nat.eq_zero_of_not_pos hzero
        have hnone : ∀ k, posAt f chunk k = 0 := by
          intro k
          induction k with
          | zero => rfl
          | succ k ih =>
            have hle := (read_le (f := f) k (posAt f chunk k) chunk).1
            rw [posAt]
            omega
        have := hnone (n + 1)
        omega
      have hle : i / chunk * chunk ≤ i := Nat.div_mul_le_self i chunk
      have hoff := sub32_addr base (i := i) (j := i / chunk * chunk) (by omega) (by omega)
      rw [if_pos hle] at hoff
      show sub32 (u32 (base + i)) (u32 (base + i / chunk * chunk)) < chunk
      rw [hoff]
      have hmod := Nat.mod_lt i hchunk
      have hsplit := Nat.div_add_mod' i chunk
      omega

end Proofs

/-! ## §5 The round -/

theorem u32_lt' (a : Nat) : u32 a < 2 ^ 32 := Nat.mod_lt _ (by decide)

/-- The state before the first read. -/
def firstState (base chunk : Nat) (mem : Bytes) (claimed : List Region) : RdState :=
  ⟨base, 0, 0, 0, mem, ⟨base, chunk⟩ :: claimed⟩

section Round

variable {f : RdFile} {rd : RdScript} {cb fuel : Nat} {isz : Int} {mem : Bytes}
  {claimed : List Region}

/-- After a first read that gives something, the rest is the loop. -/
theorem loadRamdisk_loop {found : Nat} (hfile : rd.file = some f)
    (hclaim : promClaimChunk rd.claim cb (chunksize isz f.inoSize) = some found)
    (hread : u32OfInt (readAt f (chunksize isz f.inoSize) 0) ≠ 0) (hfound : u32 found ≠ 0) :
    loadRamdisk rd cb isz fuel mem claimed
      = (readMore f rd.claimAt (chunksize isz f.inoSize) fuel 1
          (stateAt f (chunksize isz f.inoSize) (u32 found) rd.claimAt
            (firstState (u32 found) (chunksize isz f.inoSize) mem claimed) 0)).map
        fun t => (.enter (u32 found) t.size, t.mem, t.claimed) := by
  have hsize : u32 (0 + u32OfInt (f.read 0 0 (chunksize isz f.inoSize))) ≠ 0 := by
    have hlt : u32OfInt (f.read 0 0 (chunksize isz f.inoSize)) < 2 ^ 32 := by
      rw [u32OfInt]
      omega
    rw [Nat.zero_add, u32_of_lt hlt]
    exact hread
  simp only [loadRamdisk, hfile, hclaim, stateAt, firstState, readChunk, hsize, hfound, if_false]
  cases readMore f rd.claimAt (chunksize isz f.inoSize) fuel 1 _ with
  | none => rfl
  | some t => rfl

/-- A kernel is entered with a ramdisk only after a first read that gave something. -/
theorem loadRamdisk_enter {base size : Nat} {mem' : Bytes} {claimed' : List Region}
    (h : loadRamdisk rd cb isz fuel mem claimed = some (.enter base size, mem', claimed')) :
    ∃ f found, rd.file = some f
      ∧ promClaimChunk rd.claim cb (chunksize isz f.inoSize) = some found
      ∧ u32OfInt (readAt f (chunksize isz f.inoSize) 0) ≠ 0 ∧ u32 found ≠ 0 := by
  simp only [loadRamdisk] at h
  cases hfile : rd.file with
  | none =>
    rw [hfile] at h
    cases h
  | some f =>
    rw [hfile] at h
    simp only at h
    cases hclaim : promClaimChunk rd.claim cb (chunksize isz f.inoSize) with
    | none =>
      rw [hclaim] at h
      cases h
    | some found =>
      refine ⟨f, found, rfl, hclaim, ?_⟩
      rw [hclaim] at h
      by_cases hsize : u32 (0 + u32OfInt (f.read 0 0 (chunksize isz f.inoSize))) = 0
      · simp only [readChunk, hsize, if_true] at h
        split at h
        · cases h
        · cases h
      · by_cases hfound : u32 found = 0
        · simp only [readChunk, hsize, hfound, if_false, if_true] at h
          split at h
          · cases h
          · cases h
        · refine ⟨fun hzero => hsize ?_, hfound⟩
          rw [Nat.zero_add]
          exact congrArg u32 hzero

end Round

/-- A round that enters the kernel has loaded it, and then the ramdisk. -/
theorem round_enter {sc : Script} {fuel base size : Nat} {mem mem' : Bytes}
    {claimed claimed' : List Region}
    (h : round sc fuel mem claimed = some (.enter base size, mem', claimed')) :
    ∃ li c, loadKernel sc.kernel sc.loadaddr sc.loadLoc claimed = (some li, c)
      ∧ ((sc.rdFilename = none ∧ base = 0 ∧ size = 0)
        ∨ (sc.rdFilename ≠ none
          ∧ loadRamdisk sc.rd (claimBase sc.cpu64 li) sc.initrdsize fuel mem c
            = some (.enter base size, mem', claimed'))) := by
  rw [round] at h
  cases hkernel : loadKernel sc.kernel sc.loadaddr sc.loadLoc claimed with
  | mk loaded c =>
    rw [hkernel] at h
    cases loaded with
    | none => cases h
    | some li =>
      refine ⟨li, c, rfl, ?_⟩
      simp only at h
      cases hname : sc.rdFilename with
      | none =>
        rw [hname] at h
        cases h
        exact .inl ⟨rfl, rfl, rfl⟩
      | some name =>
        rw [hname] at h
        exact .inr ⟨Option.some_ne_none name, h⟩

theorem round_none {sc : Script} {fuel : Nat} {mem : Bytes} {claimed c : List Region}
    {li : LoadInfo} (hkernel : loadKernel sc.kernel sc.loadaddr sc.loadLoc claimed = (some li, c))
    (hname : sc.rdFilename = none) :
    round sc fuel mem claimed = some (.enter 0 0, mem, c) := by
  simp only [round, hkernel, hname]

theorem round_some {sc : Script} {fuel : Nat} {mem : Bytes} {claimed c : List Region}
    {li : LoadInfo} (hkernel : loadKernel sc.kernel sc.loadaddr sc.loadLoc claimed = (some li, c))
    (hname : sc.rdFilename ≠ none) :
    round sc fuel mem claimed
      = loadRamdisk sc.rd (claimBase sc.cpu64 li) sc.initrdsize fuel mem c := by
  cases hsome : sc.rdFilename with
  | none => exact absurd hsome hname
  | some name => simp only [round, hkernel, hsome]

/-- A kernel of one segment that loads without a failure. -/
def goodKernel : KernelScript where
  openOk := true
  identRead := 20
  elf32 := true
  elf64 := false
  headerRead := 32
  ehdr := ⟨0x10000, 52, 1⟩
  malloc := true
  phSeek := true
  phRead := 32
  phdrs := [⟨1, 84, 0x10000, 4, 4⟩]
  claim := fun addr _ => some addr
  segSeek := fun _ => true
  segRead := fun _ => 4

/-- A ramdisk of three bytes, whose `k`-th read ends in `result k`. -/
def smallRamdisk (result : Nat → Int) : Script where
  cpu64 := false
  args := ['i', 'n', 'i', 't', 'r', 'd', '=', 'r', 'd']
  strdup := true
  cfgInitrd := none
  parse := some
  initrdsize := 0
  loadaddr := 0x2000000
  loadLoc := 0
  kernel := goodKernel
  rd := ⟨some ⟨[1, 2, 3], none, result⟩, fun addr _ => some addr, fun _ => none⟩

theorem smallRamdisk_requested (result : Nat → Int) : Requested (smallRamdisk result) :=
  ⟨'r', ['d'], rfl⟩

example : ∃ mem claimed, round (smallRamdisk fun _ => 3) 1 (fun _ => 0) []
    = some (.enter 0x2000000 3, mem, claimed) := ⟨_, _, rfl⟩

end LiloBoot.Boot
