/-
LiloBoot.Ext2.ReadBlkTheorems — when a request for blocks is served.

`linux_read_blk` counts the bytes that are still missing but not the ones it
has: after a short read the next one starts at the beginning of the buffer
again. So the buffer is right only when the first answer with any bytes has
all of them (`FirstFull`), and a request that is completed in pieces
(`Delivers`) leaves the end of the buffer as it was. The size is an `int` and
the check against `dend` is made in 64 bits, so a request must also keep its
size through the first and its place in the partition through the second.
-/
import LiloBoot.Ext2.ReadBlk

namespace LiloBoot.Ext2

/-! ## §1 What a request asks for -/

/-- The bytes of a request: blocks, or bytes when the count is negative. -/
def requested (bs : Nat) (count : Int) : Nat :=
  if count < 0 then count.natAbs else count.toNat * bs

/-- The position on the device of the first block, a 64-bit number. -/
def blockPos (bs doff block : Nat) : Nat := u64 (block * bs + doff)

/-- The claim on one call: nothing outside the partition is asked for, and when the call
returns 0 the buffer holds the bytes of the blocks. -/
structure Served (disk : Bytes) (bs doff dend block : Nat) (count : Int) (res : Int × Device) :
    Prop where
  inside : dend ≠ 0 → ∀ q ∈ res.2.asked, ∀ i < q.2, doff ≤ q.1 + i ∧ q.1 + i < dend
  filled : res.1 = 0 → ∀ i < requested bs count,
    res.2.data i = some (disk (blockPos bs doff block + i))

/-- The device before the call: nothing has been asked for, the buffer is empty. -/
def Device.start (pos : Nat) : Device := ⟨pos, 0, [], fun _ => none⟩

/-! ## §2 What the firmware answers -/

/-- The bytes that the first of the next `retries` calls with another answer than 0 delivers
(`none` for -1), and the calls made after it. -/
def retried (fw : Firmware) (n : Nat) : Nat → Nat → Option Nat × Nat
  | 0, k => (some 0, k)
  | retries + 1, k =>
    if fw.read k n = some 0 then retried fw n retries (k + 1) else (fw.read k n, k + 1)

/-- What `prom_read` gets for a request of `n` bytes that begins with the call `k`. -/
def answer (fw : Firmware) (n k : Nat) : Option Nat × Nat :=
  if n = 0 then (some 0, k) else retried fw n 9 k

/-- No byte has come. -/
def NoBytes (a : Option Nat) : Prop := a = none ∨ a = some 0

/-- The first answer with any bytes, after at most `idle` without, has all `n`. -/
inductive FirstFull (fw : Firmware) (n : Nat) : Nat → Nat → Prop where
  | full {idle k : Nat} : (answer fw n k).1 = some n → FirstFull fw n idle k
  | empty {idle k : Nat} : NoBytes (answer fw n k).1 → FirstFull fw n idle (answer fw n k).2 →
    FirstFull fw n (idle + 1) k

/-- The firmware delivers `n` bytes in one or more pieces, with at most 6 empty answers in a
row, and at most `idle` before the first piece. -/
inductive Delivers (fw : Firmware) : Nat → Nat → Nat → Prop where
  | full {idle k n : Nat} : (answer fw n k).1 = some n → Delivers fw idle k n
  | part {idle k n r : Nat} : (answer fw n k).1 = some r → 0 < r → r < n →
    Delivers fw 6 (answer fw n k).2 (n - r) → Delivers fw idle k n
  | empty {idle k n : Nat} : NoBytes (answer fw n k).1 → Delivers fw idle (answer fw n k).2 n →
    Delivers fw (idle + 1) k n

/-! ## §3 `prom_read` -/

theorem s32_eq_zero {r : Nat} (h : r < 2 ^ 32) : s32 r = 0 ↔ r = 0 := by
  rw [s32, Nat.mod_eq_of_lt h]
  split <;> omega

/-- The result as the `int` of the source. -/
def resultOf : Option Nat → Int
  | none => -1
  | some r => s32 r

/-- What one `prom_read` has done. -/
structure Answered (fw : Firmware) (disk : Bytes) (buf n : Nat) (a : Option Nat × Nat)
    (d : Device) (res : Int × Device) : Prop where
  result : res.1 = resultOf a.1
  calls : res.2.calls = a.2
  pos : res.2.pos = d.pos + a.1.getD 0
  data : res.2.data = d.data.store buf (a.1.getD 0) fun i => disk (d.pos + i)
  inside : ∀ q ∈ res.2.asked, q ∈ d.asked ∨ q = (d.pos, n)

theorem retried_le (fw : Firmware) (n : Nat) {retries k r : Nat}
    (h : (retried fw n retries k).1 = some r) : r ≤ n := by
  induction retries generalizing k with
  | zero =>
    cases h
    exact Nat.zero_le n
  | succ retries ih =>
    rw [retried] at h
    split at h
    · exact ih h
    · exact fw.read_le k n r h

theorem answer_le {fw : Firmware} {n k r : Nat} (h : (answer fw n k).1 = some r) : r ≤ n := by
  rw [answer] at h
  split at h
  · cases h
    exact Nat.zero_le n
  · exact retried_le fw n h

theorem promReadLoop_spec (fw : Firmware) (disk : Bytes) (buf : Nat) {n : Nat}
    (hn : n < 2 ^ 32) (retries : Nat) (d : Device) :
    Answered fw disk buf n (retried fw n retries d.calls) d
      (promReadLoop fw disk buf n retries d) := by
  induction retries generalizing d with
  | zero => exact ⟨rfl, rfl, rfl, (Buffer.store_zero ..).symm, fun q hq => .inl hq⟩
  | succ retries ih =>
    cases hread : fw.read d.calls n with
    | none =>
      have hres : promReadLoop fw disk buf n (retries + 1) d
          = (-1, { d with calls := d.calls + 1, asked := (d.pos, n) :: d.asked }) := by
        simp [promReadLoop, callRead, hread]
      have hans : retried fw n (retries + 1) d.calls = (none, d.calls + 1) := by
        rw [retried, hread, if_neg (by simp)]
      rw [hres, hans]
      refine ⟨rfl, rfl, rfl, (Buffer.store_zero ..).symm, fun q hq => ?_⟩
      rcases List.mem_cons.mp hq with rfl | hq
      · exact .inr rfl
      · exact .inl hq
    | some r =>
      have hle := fw.read_le _ _ _ hread
      by_cases hr : r = 0
      · subst hr
        obtain ⟨d', hd'⟩ : ∃ d' : Device,
            d' = { d with calls := d.calls + 1, asked := (d.pos, n) :: d.asked } := ⟨_, rfl⟩
        have hres : promReadLoop fw disk buf n (retries + 1) d
            = promReadLoop fw disk buf n retries d' := by
          rw [hd']
          simp [promReadLoop, callRead, hread, s32, Buffer.store_zero]
        have hans : retried fw n (retries + 1) d.calls = retried fw n retries d'.calls := by
          rw [retried, hread, if_pos rfl, hd']
        rw [hres, hans]
        obtain ⟨hresult, hcalls, hpos, hdata, hinside⟩ := ih d'
        refine ⟨hresult, hcalls, by rw [hpos, hd'], by rw [hdata, hd'], fun q hq => ?_⟩
        rcases hinside q hq with hq | rfl
        · rw [hd'] at hq
          rcases List.mem_cons.mp hq with rfl | hq
          · exact .inr rfl
          · exact .inl hq
        · rw [hd']
          exact .inr rfl
      · have hne : s32 r ≠ 0 := fun h => hr ((s32_eq_zero (by omega)).mp h)
        have hres : promReadLoop fw disk buf n (retries + 1) d
            = (s32 r, { d with
                calls := d.calls + 1, asked := (d.pos, n) :: d.asked, pos := d.pos + r
                data := d.data.store buf r fun i => disk (d.pos + i) }) := by
          simp [promReadLoop, callRead, hread, hne]
        have hans : retried fw n (retries + 1) d.calls = (some r, d.calls + 1) := by
          rw [retried, hread, if_neg (by simpa using hr)]
        rw [hres, hans]
        refine ⟨rfl, rfl, rfl, rfl, fun q hq => ?_⟩
        rcases List.mem_cons.mp hq with rfl | hq
        · exact .inr rfl
        · exact .inl hq

/-- `prom_read` does what the firmware answers. -/
theorem promRead_spec (fw : Firmware) (disk : Bytes) (buf : Nat) {n : Nat} (hn : n < 2 ^ 32)
    (d : Device) : Answered fw disk buf n (answer fw n d.calls) d (promRead fw disk buf n d) := by
  rw [promRead, answer]
  split
  · exact ⟨rfl, rfl, rfl, (Buffer.store_zero ..).symm, fun q hq => .inl hq⟩
  · exact promReadLoop_spec fw disk buf hn 9 d

theorem callRead_asked (fw : Firmware) (disk : Bytes) (buf n : Nat) (d : Device) :
    (callRead fw disk buf n d).2.asked = (d.pos, n) :: d.asked := by
  unfold callRead
  cases fw.read d.calls n with
  | none => rfl
  | some r => rfl

/-- Nothing that was asked for is forgotten. -/
theorem promReadLoop_keeps (fw : Firmware) (disk : Bytes) (buf n retries : Nat) (d : Device)
    {q : Nat × Nat} (hq : q ∈ d.asked) : q ∈ (promReadLoop fw disk buf n retries d).2.asked := by
  induction retries generalizing d with
  | zero => exact hq
  | succ retries ih =>
    have hcall : q ∈ (callRead fw disk buf n d).2.asked := by
      rw [callRead_asked]
      exact List.mem_cons_of_mem _ hq
    rw [promReadLoop]
    simp only
    split
    · exact hcall
    · exact ih _ hcall

/-- The first call asks for all bytes at the position of the device. -/
theorem promRead_asks (fw : Firmware) (disk : Bytes) (buf : Nat) {n : Nat} (hn : n ≠ 0)
    (d : Device) : (d.pos, n) ∈ (promRead fw disk buf n d).2.asked := by
  have hcall : (d.pos, n) ∈ (callRead fw disk buf n d).2.asked := by
    rw [callRead_asked]
    exact List.mem_cons_self
  rw [promRead, if_neg hn, promReadLoop]
  simp only
  split
  · exact hcall
  · exact promReadLoop_keeps fw disk buf n 8 _ hcall

theorem promRead_keeps (fw : Firmware) (disk : Bytes) (buf n : Nat) (d : Device)
    {q : Nat × Nat} (hq : q ∈ d.asked) : q ∈ (promRead fw disk buf n d).2.asked := by
  rw [promRead]
  split
  · exact hq
  · exact promReadLoop_keeps fw disk buf n 9 d hq

/-! ## §4 The loop -/

theorem bits32_ofNat {n : Nat} (h : n < 2 ^ 32) : bits32 n = n := by
  rw [bits32, Int.emod_eq_of_lt (by omega) (by exact_mod_cast h)]
  rfl

section Loop

variable {fw : Firmware} {disk : Bytes} {n i : Nat} {d : Device}

theorem readLoop_full (h0 : 0 < n) (hn : n < 2 ^ 31)
    (ha : (answer fw n d.calls).1 = some n) :
    readLoop fw disk i n d = (0, (promRead fw disk 0 n d).2) := by
  have hans := promRead_spec fw disk 0 (show n < 2 ^ 32 by omega) d
  have hres : (promRead fw disk 0 n d).1 = n := by
    rw [hans.result, ha]
    exact s32_of_lt hn
  rw [readLoop, bits32_ofNat (by omega)]
  simp only [hres]
  rw [if_pos (by omega), if_neg (by omega)]

theorem readLoop_part {r : Nat} (hn : n < 2 ^ 31) (ha : (answer fw n d.calls).1 = some r)
    (h0 : 0 < r) (hr : r < n) :
    readLoop fw disk i n d
      = readLoop fw disk 0 ((n - r : Nat) : Int) (promRead fw disk 0 n d).2 := by
  have hans := promRead_spec fw disk 0 (show n < 2 ^ 32 by omega) d
  have hres : (promRead fw disk 0 n d).1 = r := by
    rw [hans.result, ha]
    exact s32_of_lt (by omega)
  rw [readLoop, bits32_ofNat (by omega)]
  simp only [hres]
  rw [if_pos (by omega), if_pos (by omega), Nat.cast_sub (Nat.le_of_lt hr)]

/-- The empty answers up to the seventh are passed over. -/
theorem readLoop_empty (h0 : 0 < n) (hn : n < 2 ^ 31) (ha : NoBytes (answer fw n d.calls).1) :
    readLoop fw disk i n d
      = if 5 < i then (ext2EtShortRead, (promRead fw disk 0 n d).2)
        else readLoop fw disk (i + 1) n (promRead fw disk 0 n d).2 := by
  have hans := promRead_spec fw disk 0 (show n < 2 ^ 32 by omega) d
  have hres : ¬ 0 < (promRead fw disk 0 n d).1 := by
    rw [hans.result]
    rcases ha with ha | ha
    · rw [ha]
      decide
    · rw [ha]
      decide
  rw [readLoop, bits32_ofNat (by omega)]
  simp only
  rw [if_neg (fun h => hres h.1), if_pos (show (0 : Int) < n by omega)]

end Loop

/-- What the loop does from a device on, with `idle` empty answers left. -/
structure Outcome (fw : Firmware) (disk : Bytes) (n idle : Nat) (d : Device)
    (res : Int × Device) : Prop where
  delivered : res.1 = 0 ↔ Delivers fw idle d.calls n
  full : FirstFull fw n idle d.calls → res.2.data = d.data.store 0 n fun i => disk (d.pos + i)
  rest : ¬ FirstFull fw n idle d.calls → ∀ j, n ≤ j + 1 → res.2.data j = d.data j
  inside : ∀ q ∈ res.2.asked, q ∈ d.asked ∨ (d.pos ≤ q.1 ∧ q.1 + q.2 ≤ d.pos + n)
  kept : ∀ q ∈ d.asked, q ∈ res.2.asked
  asked : (d.pos, n) ∈ res.2.asked

/-- The answer of the firmware is empty, short or full. -/
theorem answer_cases (fw : Firmware) (n k : Nat) (h0 : 0 < n) :
    NoBytes (answer fw n k).1 ∨ (∃ r, (answer fw n k).1 = some r ∧ 0 < r ∧ r < n)
      ∨ (answer fw n k).1 = some n := by
  cases ha : (answer fw n k).1 with
  | none => exact .inl (.inl rfl)
  | some r =>
    have hle := answer_le ha
    rcases Nat.eq_zero_or_pos r with rfl | hr
    · exact .inl (.inr rfl)
    · rcases Nat.lt_or_eq_of_le hle with hlt | rfl
      · exact .inr (.inl ⟨r, rfl, hr, hlt⟩)
      · exact .inr (.inr rfl)

theorem NoBytes.ne {a : Option Nat} (h : NoBytes a) {r : Nat} (hr : 0 < r) : a ≠ some r := by
  rintro rfl
  rcases h with h | h
  · cases h
  · cases h
    exact absurd hr (Nat.lt_irrefl 0)

/-- After an empty answer everything but the number of calls is as before. -/
theorem promRead_empty {fw : Firmware} {disk : Bytes} {n : Nat} {d : Device} (hn : n < 2 ^ 32)
    (ha : NoBytes (answer fw n d.calls).1) :
    (promRead fw disk 0 n d).2.pos = d.pos ∧ (promRead fw disk 0 n d).2.data = d.data := by
  have hans := promRead_spec fw disk 0 hn d
  have hgot : (answer fw n d.calls).1.getD 0 = 0 := by
    rcases ha with ha | ha
    · rw [ha]
      rfl
    · rw [ha]
      rfl
  rw [hans.pos, hans.data, hgot, Buffer.store_zero]
  exact ⟨rfl, rfl⟩

section Steps

variable {fw : Firmware} {disk : Bytes} {n idle : Nat} {d : Device}

/-- Everything comes at once. -/
theorem Outcome.full_answer (h0 : 0 < n) (hn : n < 2 ^ 31)
    (ha : (answer fw n d.calls).1 = some n) :
    Outcome fw disk n idle d (0, (promRead fw disk 0 n d).2) := by
  have hans := promRead_spec fw disk 0 (show n < 2 ^ 32 by omega) d
  have hfull : FirstFull fw n idle d.calls := .full ha
  refine ⟨iff_of_true rfl (.full ha), fun _ => ?_, fun hno => absurd hfull hno, ?_, ?_, ?_⟩
  · rw [hans.data, ha]
    rfl
  · intro q hq
    rcases hans.inside q hq with hq | rfl
    · exact .inl hq
    · exact .inr ⟨Nat.le_refl _, Nat.le_refl _⟩
  · exact fun q hq => promRead_keeps fw disk 0 n d hq
  · exact promRead_asks fw disk 0 (Nat.ne_of_gt h0) d

/-- A part comes, and the loop goes on for the rest of it. -/
theorem Outcome.part_answer {r : Nat} (hn : n < 2 ^ 31)
    (ha : (answer fw n d.calls).1 = some r) (hr0 : 0 < r) (hr : r < n) {res : Int × Device}
    (h : Outcome fw disk (n - r) 6 (promRead fw disk 0 n d).2 res) :
    Outcome fw disk n idle d res := by
  have hans := promRead_spec fw disk 0 (show n < 2 ^ 32 by omega) d
  have hpos := hans.pos
  have hdata := hans.data
  rw [ha, Option.getD_some] at hpos hdata
  have hnot : ¬ FirstFull fw n idle d.calls := by
    intro hfull
    cases hfull with
    | full hf =>
      rw [ha] at hf
      exact absurd (Option.some.inj hf) (Nat.ne_of_lt hr)
    | empty he _ => exact he.ne hr0 ha
  refine ⟨?_, fun hfull => absurd hfull hnot, fun _ j hj => ?_, ?_, ?_, ?_⟩
  · rw [h.delivered, hans.calls]
    constructor
    · exact fun hd => .part ha hr0 hr hd
    · intro hd
      cases hd with
      | full hf =>
        rw [ha] at hf
        exact absurd (Option.some.inj hf) (Nat.ne_of_lt hr)
      | part hf h1 h2 hd =>
        rw [ha] at hf
        cases hf
        exact hd
      | empty he _ => exact absurd ha (he.ne hr0)
  · -- the last byte of the buffer is out of reach from now on
    have hbefore : (promRead fw disk 0 n d).2.data j = d.data j := by
      rw [hdata]
      simp only [Buffer.store]
      rw [if_neg (by omega)]
    by_cases hfull : FirstFull fw (n - r) 6 (promRead fw disk 0 n d).2.calls
    · rw [h.full hfull]
      simp only [Buffer.store]
      rw [if_neg (by omega), hbefore]
    · rw [h.rest hfull j (by omega), hbefore]
  · intro q hq
    rcases h.inside q hq with hq | hq
    · rcases hans.inside q hq with hq | rfl
      · exact .inl hq
      · exact .inr ⟨Nat.le_refl _, Nat.le_refl _⟩
    · right
      omega
  · exact fun q hq => h.kept q (promRead_keeps fw disk 0 n d hq)
  · exact h.kept _ (promRead_asks fw disk 0 (by omega) d)

/-- Nothing comes, for the seventh time. -/
theorem Outcome.gives_up (h0 : 0 < n) (hn : n < 2 ^ 31) (ha : NoBytes (answer fw n d.calls).1) :
    Outcome fw disk n 0 d (ext2EtShortRead, (promRead fw disk 0 n d).2) := by
  have hans := promRead_spec fw disk 0 (show n < 2 ^ 32 by omega) d
  obtain ⟨-, hdata⟩ := @promRead_empty fw disk n d (by omega) ha
  refine ⟨iff_of_false (show ext2EtShortRead ≠ 0 by decide) ?_, ?_, fun _ j _ => by rw [hdata], ?_, ?_, ?_⟩
  · intro hd
    cases hd with
    | full hf => exact ha.ne h0 hf
    | part hf h1 _ _ => exact ha.ne h1 hf
  · intro hfull
    cases hfull with
    | full hf => exact absurd hf (ha.ne h0)
  · intro q hq
    rcases hans.inside q hq with hq | rfl
    · exact .inl hq
    · exact .inr ⟨Nat.le_refl _, Nat.le_refl _⟩
  · exact fun q hq => promRead_keeps fw disk 0 n d hq
  · exact promRead_asks fw disk 0 (Nat.ne_of_gt h0) d

/-- Nothing comes, and the loop asks again. -/
theorem Outcome.empty_answer (h0 : 0 < n) (hn : n < 2 ^ 31)
    (ha : NoBytes (answer fw n d.calls).1) {res : Int × Device}
    (h : Outcome fw disk n idle (promRead fw disk 0 n d).2 res) :
    Outcome fw disk n (idle + 1) d res := by
  have hans := promRead_spec fw disk 0 (show n < 2 ^ 32 by omega) d
  obtain ⟨hpos, hdata⟩ := @promRead_empty fw disk n d (by omega) ha
  have hfirst : FirstFull fw n (idle + 1) d.calls ↔ FirstFull fw n idle (answer fw n d.calls).2 := by
    constructor
    · intro hfull
      cases hfull with
      | full hf => exact absurd hf (ha.ne h0)
      | empty _ hrest => exact hrest
    · exact fun hrest => .empty ha hrest
  refine ⟨?_, ?_, ?_, ?_, ?_, ?_⟩
  · rw [h.delivered, hans.calls]
    constructor
    · exact fun hd => .empty ha hd
    · intro hd
      cases hd with
      | full hf => exact absurd hf (ha.ne h0)
      | part hf h1 _ _ => exact absurd hf (ha.ne h1)
      | empty _ hd => exact hd
  · intro hfull
    rw [hfirst, ← hans.calls] at hfull
    rw [h.full hfull, hpos, hdata]
  · intro hno j hj
    rw [hfirst, ← hans.calls] at hno
    rw [h.rest hno j hj, hdata]
  · intro q hq
    rcases h.inside q hq with hq | hq
    · rcases hans.inside q hq with hq | rfl
      · exact .inl hq
      · exact .inr ⟨Nat.le_refl _, Nat.le_refl _⟩
    · rw [hpos] at hq
      exact .inr hq
  · exact fun q hq => h.kept q (promRead_keeps fw disk 0 n d hq)
  · exact h.kept _ (promRead_asks fw disk 0 (Nat.ne_of_gt h0) d)

end Steps

/-- **The loop**: the induction is on the bytes that are missing, and inside it on the empty
answers that are left. -/
theorem readLoop_spec (fw : Firmware) (disk : Bytes) (n idle : Nat) (h0 : 0 < n)
    (hn : n < 2 ^ 31) (i : Nat) (hi : i + idle = 6) (d : Device) :
    Outcome fw disk n idle d (readLoop fw disk i n d) := by
  induction n using Nat.strong_induction_on generalizing idle i d with
  | _ n ihn =>
    have hpart : ∀ idle i d r, (answer fw n d.calls).1 = some r → 0 < r → r < n →
        Outcome fw disk n idle d (readLoop fw disk i n d) := by
      intro idle i d r ha hr0 hr
      rw [readLoop_part hn ha hr0 hr]
      exact .part_answer hn ha hr0 hr
        (ihn (n - r) (by omega) 6 (by omega) (by omega) 0 rfl (promRead fw disk 0 n d).2)
    induction idle generalizing i d with
    | zero =>
      rcases answer_cases fw n d.calls h0 with ha | ⟨r, ha, hr0, hr⟩ | ha
      · rw [readLoop_empty h0 hn ha, if_pos (by omega)]
        exact .gives_up h0 hn ha
      · exact hpart 0 i d r ha hr0 hr
      · rw [readLoop_full h0 hn ha]
        exact .full_answer h0 hn ha
    | succ idle ih =>
      rcases answer_cases fw n d.calls h0 with ha | ⟨r, ha, hr0, hr⟩ | ha
      · rw [readLoop_empty h0 hn ha, if_neg (by omega)]
        exact .empty_answer h0 hn ha (ih (i + 1) (by omega) (promRead fw disk 0 n d).2)
      · exact hpart (idle + 1) i d r ha hr0 hr
      · rw [readLoop_full h0 hn ha]
        exact .full_answer h0 hn ha

/-- A size that is not positive as an `int` is asked for once. -/
theorem readLoop_once (fw : Firmware) (disk : Bytes) {size : Int} (h : size ≤ 0) (d : Device) :
    readLoop fw disk 0 size d = (0, (promRead fw disk 0 (bits32 size) d).2) := by
  rw [readLoop]
  simp only
  rw [if_neg (by omega), if_neg (by decide), if_neg (by omega)]

/-! ## §5 The request -/

/-- The bytes the firmware is asked for: the size cut off at 32 bits. -/
def askedBytes (bs : Nat) (count : Int) : Nat := requested bs count % 2 ^ 32

theorem bits32_size (bs : Nat) (count : Int) :
    bits32 (if count < 0 then -count else count * bs) = askedBytes bs count := by
  have hsize : (if count < 0 then -count else count * bs) = (requested bs count : Int) := by
    rw [requested]
    split
    · omega
    · rw [Nat.cast_mul, Int.toNat_of_nonneg (by omega)]
  rw [hsize, bits32, askedBytes, ← Nat.cast_ofNat, ← Nat.cast_pow, ← Int.natCast_emod,
    Int.toNat_natCast]

theorem bits32_s32 {n : Nat} (h : n < 2 ^ 32) : bits32 (s32 n) = n := by
  rw [s32, Nat.mod_eq_of_lt h, bits32]
  split <;> omega

/-- `dend` is set, and the end that the code computes lies behind it. -/
def Rejected (bs doff dend block : Nat) (count : Int) : Prop :=
  dend ≠ 0 ∧ dend < u64 (blockPos bs doff block + bits64 (s32 (askedBytes bs count)))

/-- What is asked for lies in the partition. -/
def InPartition (bs doff dend block : Nat) (count : Int) : Prop :=
  dend ≠ 0 → ∀ i < askedBytes bs count,
    doff ≤ blockPos bs doff block + i ∧ blockPos bs doff block + i < dend

/-- The condition on a request and the answers of the firmware: nothing is asked for; or it
stays in the partition, and either its size fits and the first answer with any bytes has them
all, or the firmware does not deliver it. -/
def Undivided (fw : Firmware) (bs doff dend block : Nat) (count : Int) : Prop :=
  count = 0 ∨ Rejected bs doff dend block count
    ∨ InPartition bs doff dend block count
      ∧ (requested bs count < 2 ^ 32
          ∧ FirstFull fw (askedBytes bs count) (if askedBytes bs count < 2 ^ 31 then 6 else 0) 0
        ∨ 0 < askedBytes bs count ∧ askedBytes bs count < 2 ^ 31
          ∧ ¬ Delivers fw 6 0 (askedBytes bs count))

theorem askedBytes_le (bs : Nat) (count : Int) : askedBytes bs count ≤ requested bs count :=
  Nat.mod_le _ _

theorem askedBytes_lt (bs : Nat) (count : Int) : askedBytes bs count < 2 ^ 32 :=
  Nat.mod_lt _ (by decide)

section Request

variable {fw : Firmware} {disk : Bytes} {bs doff dend block pos : Nat} {count : Int}

/-- A request that passes the check goes into the loop. -/
theorem linuxReadBlk_loop (hcount : count ≠ 0) (hpass : ¬ Rejected bs doff dend block count) :
    linuxReadBlk fw disk bs doff dend block count (Device.start pos)
      = readLoop fw disk 0 (s32 (askedBytes bs count)) (Device.start (blockPos bs doff block)) := by
  rw [linuxReadBlk, if_neg hcount]
  simp only [bits32_size]
  exact if_neg hpass

/-- What the buffer holds when the first `got` bytes have been stored and nothing else. -/
theorem stored_filled {f : Nat → UInt8} {got n : Nat} (hle : got ≤ n)
    (h : ∀ i < n, (Buffer.store (fun _ => none) 0 got f) i = some (f i)) : got = n := by
  by_contra hne
  have hat := h got (by omega)
  simp only [Buffer.store] at hat
  rw [if_neg (by omega)] at hat
  cases hat

theorem filled_stored {f : Nat → UInt8} {n i : Nat} (hi : i < n) :
    (Buffer.store (fun _ => none) 0 n f) i = some (f i) := by
  simp only [Buffer.store]
  rw [if_pos (by omega), Nat.sub_zero]

/-- A request whose size is positive as an `int`. -/
theorem served_positive {n : Nat} (hn : n = askedBytes bs count) (h0 : 0 < n)
    (hlt : n < 2 ^ 31) {res : Int × Device}
    (h : Outcome fw disk n 6 (Device.start (blockPos bs doff block)) res) :
    Served disk bs doff dend block count res ↔ InPartition bs doff dend block count
      ∧ (requested bs count < 2 ^ 32 ∧ FirstFull fw n 6 0 ∨ ¬ Delivers fw 6 0 n) := by
  have hle := askedBytes_le bs count
  rw [← hn] at hle
  constructor
  · intro hserved
    refine ⟨?_, ?_⟩
    · intro hdend i hi
      rw [← hn] at hi
      exact hserved.inside hdend _ h.asked i hi
    · by_cases hdel : Delivers fw 6 0 n
      swap
      · exact .inr hdel
      have hfilled := hserved.filled (h.delivered.mpr hdel)
      have hfirst : FirstFull fw n 6 0 := by
        by_contra hno
        have hlast := h.rest hno (n - 1) (by omega)
        rw [hfilled (n - 1) (by omega)] at hlast
        cases hlast
      rw [h.full hfirst] at hfilled
      have hsame := @stored_filled (fun i => disk (blockPos bs doff block + i)) _ _ hle hfilled
      refine .inl ⟨?_, hfirst⟩
      rw [← hsame]
      omega
  · rintro ⟨hpart, hcase⟩
    refine ⟨?_, ?_⟩
    · intro hdend q hq i hi
      rcases h.inside q hq with hq | ⟨hlow, hhigh⟩
      · cases hq
      · have hlow : blockPos bs doff block ≤ q.1 := hlow
        have hhigh : q.1 + q.2 ≤ blockPos bs doff block + n := hhigh
        have hin := hpart hdend (q.1 - blockPos bs doff block + i) (by omega)
        omega
    · intro hzero i hi
      rcases hcase with ⟨hreq, hfirst⟩ | hno
      · have hsame : requested bs count = n := by
          rw [hn, askedBytes, Nat.mod_eq_of_lt hreq]
        rw [h.full hfirst]
        exact @filled_stored (fun i => disk (blockPos bs doff block + i)) n i (by omega)
      · exact absurd (h.delivered.mp hzero) hno

/-- A request whose size is not positive as an `int`: one `prom_read`, whatever it does. -/
theorem served_once {n : Nat} (hn : n = askedBytes bs count) (hnot : n = 0 ∨ 2 ^ 31 ≤ n) :
    Served disk bs doff dend block count
        (0, (promRead fw disk 0 n (Device.start (blockPos bs doff block))).2)
      ↔ InPartition bs doff dend block count
        ∧ (requested bs count < 2 ^ 32 ∧ (answer fw n 0).1 = some n) := by
  have hle := askedBytes_le bs count
  have hlt := askedBytes_lt bs count
  rw [← hn] at hle hlt
  have hans := promRead_spec fw disk 0 hlt (Device.start (blockPos bs doff block))
  have hdata := hans.data
  constructor
  · intro hserved
    have hfilled := hserved.filled rfl
    have hgot : (answer fw n 0).1.getD 0 ≤ n := by
      cases ha : (answer fw n 0).1 with
      | none => exact Nat.zero_le n
      | some r => exact answer_le ha
    rw [hdata] at hfilled
    have hsame := @stored_filled (fun i => disk (blockPos bs doff block + i)) _ _
      (Nat.le_trans hgot hle) hfilled
    have hsame : (answer fw n 0).1.getD 0 = requested bs count := hsame
    refine ⟨?_, by omega, ?_⟩
    · intro hdend i hi
      rw [← hn] at hi
      exact hserved.inside hdend _
        (promRead_asks fw disk 0 (by omega) (Device.start (blockPos bs doff block))) i hi
    · have hfull : (answer fw n 0).1.getD 0 = n := by omega
      rcases hnot with rfl | hbig
      · rfl
      · cases ha : (answer fw n 0).1 with
        | none =>
          rw [ha] at hfull
          have hfull : 0 = n := hfull
          omega
        | some r =>
          rw [ha] at hfull
          exact congrArg some hfull
  · rintro ⟨hpart, hreq, ha⟩
    have hsame : requested bs count = n := by
      rw [hn, askedBytes, Nat.mod_eq_of_lt hreq]
    refine ⟨?_, ?_⟩
    · intro hdend q hq i hi
      rcases hans.inside q hq with hq | rfl
      · cases hq
      · exact hpart hdend i (by rw [← hn]; exact hi)
    · intro _ i hi
      show (promRead fw disk 0 n (Device.start (blockPos bs doff block))).2.data i = _
      rw [hdata]
      show Buffer.store (fun _ => none) 0 ((answer fw n 0).1.getD 0) _ i = _
      rw [ha]
      exact @filled_stored (fun i => disk (blockPos bs doff block + i)) n i (by omega)

end Request

/-- **A request is served** exactly when it does not come in pieces. -/
theorem linuxReadBlk_served_iff (fw : Firmware) (disk : Bytes) (bs doff dend block pos : Nat)
    (count : Int) :
    Served disk bs doff dend block count
        (linuxReadBlk fw disk bs doff dend block count (Device.start pos))
      ↔ Undivided fw bs doff dend block count := by
  by_cases hcount : count = 0
  · subst hcount
    refine iff_of_true ⟨?_, ?_⟩ (.inl rfl)
    · intro _ q hq
      cases hq
    · intro _ i hi
      have hnone : requested bs 0 = 0 := by simp [requested]
      omega
  by_cases hpass : Rejected bs doff dend block count
  · have hres : linuxReadBlk fw disk bs doff dend block count (Device.start pos)
        = (ext2EtLlseekFailed, Device.start pos) := by
      rw [linuxReadBlk, if_neg hcount]
      simp only [bits32_size]
      exact if_pos hpass
    rw [hres]
    refine iff_of_true ⟨?_, fun hzero => ?_⟩ (.inr (.inl hpass))
    · intro _ q hq
      cases hq
    · exact absurd hzero (show ext2EtLlseekFailed ≠ 0 by decide)
  rw [linuxReadBlk_loop hcount hpass]
  obtain ⟨n, hn⟩ : ∃ n, n = askedBytes bs count := ⟨_, rfl⟩
  have hlt := askedBytes_lt bs count
  rw [Undivided, ← hn]
  rw [← hn] at hlt
  simp only [hcount, hpass, false_or]
  by_cases hpos : 0 < n ∧ n < 2 ^ 31
  · rw [s32_of_lt hpos.2, served_positive hn hpos.1 hpos.2
      (readLoop_spec fw disk n 6 hpos.1 hpos.2 0 rfl _), if_pos hpos.2]
    simp only [hpos.1, hpos.2, true_and]
  · have hsize : s32 n ≤ 0 := by
      rw [s32, Nat.mod_eq_of_lt hlt]
      split <;> omega
    rw [readLoop_once fw disk hsize, bits32_s32 hlt, served_once hn (by omega)]
    have hnot : ¬ (0 < n ∧ n < 2 ^ 31 ∧ ¬ Delivers fw 6 0 n) := fun h => hpos ⟨h.1, h.2.1⟩
    have hfirst : FirstFull fw n (if n < 2 ^ 31 then 6 else 0) 0 ↔ (answer fw n 0).1 = some n := by
      rcases Nat.eq_zero_or_pos n with rfl | hn0
      · exact iff_of_true (.full rfl) rfl
      · rw [if_neg (fun h => hpos ⟨hn0, h⟩)]
        constructor
        · intro h
          cases h with
          | full ha => exact ha
        · exact .full
    simp only [hnot, or_false, hfirst]

/-! ## §6 A request in two pieces -/

/-- A firmware that reads at most 512 bytes at a time. -/
def halfReads : Firmware where
  read := fun _ n => some (min n 512)
  read_le := by
    intro k n r h
    cases h
    exact Nat.min_le_left n 512

/-- A block of 1 KiB comes in two halves: the call returns 0, and the second half lies where
the first belongs. -/
theorem twoHalves_unserved :
    ¬ Served (fun a => UInt8.ofNat (a / 512)) 1024 0 0 3 1
      (linuxReadBlk halfReads (fun a => UInt8.ofNat (a / 512)) 1024 0 0 3 1 (Device.start 0)) := by
  have hfirst : (answer halfReads 1024 0).1 = some 512 := by decide
  have hdel : Delivers halfReads 6 0 1024 :=
    .part hfirst (by decide) (by decide) (.full (by decide))
  have hpass : ¬ Rejected 1024 0 0 3 1 := fun h => h.1 rfl
  have hasked : askedBytes 1024 1 = 1024 := by decide
  intro hserved
  rw [linuxReadBlk_loop (by decide) hpass, hasked, s32_of_lt (by decide)] at hserved
  have hout := readLoop_spec halfReads (fun a => UInt8.ofNat (a / 512)) 1024 6 (by decide)
    (by decide) 0 rfl (Device.start (blockPos 1024 0 3))
  have hlast := hserved.filled (hout.delivered.mpr hdel) 1023 (by decide)
  rw [hout.rest ?_ 1023 (by decide)] at hlast
  · cases hlast
  · intro hfull
    cases hfull with
    | full ha =>
      exact absurd (Option.some.inj (hfirst.symm.trans ha)) (by decide)
    | empty he _ => exact he.ne (by decide) hfirst

end LiloBoot.Ext2
