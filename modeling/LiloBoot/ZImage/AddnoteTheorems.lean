/-
LiloBoot.ZImage.AddnoteTheorems — what `addnote` makes of a file.

A run that writes has changed the count, the two headers and their notes only,
and each header points at its note (§2). The comparison with the space is made
with an `int`; where the sum does not wrap round, or a note header is met
before the headers leave the bytes read, no access does (§3).
-/
import LiloBoot.ZImage.Addnote

namespace LiloBoot.ZImage

/-! ## §1 Fields -/

section Fields

variable {buf buf' : List UInt8} {off v : Nat}

theorem be32_length (v : Nat) : (be32 v).length = 4 := rfl

theorem be16_length (v : Nat) : (be16 v).length = 2 := rfl

/-- A field that was written is read back. -/
theorem get16_of_marker (h : MarkerAt (be16 v) buf off) (hv : v < 2 ^ 16) :
    get16 buf off = some v := by
  rw [markerAt_iff] at h
  have h0 := h 0 (by simp [be16])
  have h1 := h 1 (by simp [be16])
  simp only [Nat.add_zero, be16, List.getElem?_cons_zero, List.getElem?_cons_succ] at h0 h1
  rw [get16, h0, h1]
  simp only [UInt8.toNat_ofNat', Option.some.injEq]
  omega

theorem get32_of_marker (h : MarkerAt (be32 v) buf off) (hv : v < 2 ^ 32) :
    get32 buf off = some v := by
  rw [markerAt_iff] at h
  have h0 := h 0 (by simp [be32])
  have h1 := h 1 (by simp [be32])
  have h2 := h 2 (by simp [be32])
  have h3 := h 3 (by simp [be32])
  simp only [Nat.add_zero, be32, List.getElem?_cons_zero, List.getElem?_cons_succ] at h0 h1 h2 h3
  rw [get32, get16, get16, h0, h1, h2, h3]
  simp only [UInt8.toNat_ofNat', Option.some.injEq]
  omega

/-- Fields are read among the bytes read, and only there. -/
theorem get32_isSome_iff : (get32 buf off).isSome ↔ off + 4 ≤ buf.length := by
  rw [get32, get16, get16]
  constructor
  · intro h
    by_contra hlen
    rw [List.getElem?_eq_none (show buf.length ≤ off + 2 + 1 by omega)] at h
    revert h
    cases buf[off]? <;> cases buf[off + 1]? <;> cases buf[off + 2]? <;> simp
  · intro h
    rw [List.getElem?_eq_getElem (show off < buf.length by omega),
      List.getElem?_eq_getElem (show off + 1 < buf.length by omega),
      List.getElem?_eq_getElem (show off + 2 < buf.length by omega),
      List.getElem?_eq_getElem (show off + 2 + 1 < buf.length by omega)]
    rfl

theorem get16_congr (h0 : buf[off]? = buf'[off]?) (h1 : buf[off + 1]? = buf'[off + 1]?) :
    get16 buf off = get16 buf' off := by
  rw [get16, get16, h0, h1]

theorem get32_congr (h : ∀ i < 4, buf[off + i]? = buf'[off + i]?) :
    get32 buf off = get32 buf' off := by
  have hhigh : get16 buf off = get16 buf' off := get16_congr (h 0 (by omega)) (h 1 (by omega))
  have hlow : get16 buf (off + 2) = get16 buf' (off + 2) :=
    get16_congr (h 2 (by omega)) (h 3 (by omega))
  rw [get32, get32, hhigh, hlow]

theorem get16_lt {n : Nat} (h : get16 buf off = some n) : n < 2 ^ 16 := by
  unfold get16 at h
  split at h
  next a b _ _ =>
    have ha := a.toNat_lt
    have hb := b.toNat_lt
    cases h
    omega
  · cases h

end Fields

/-! ## §2 The loops -/

section Loops

variable {buf : List UInt8} {ps np ph : Nat}

/-- The headers have no note: the loop goes through them all. -/
theorem findNote_none (hin : ∀ i < np, ph + i * ps + 4 ≤ buf.length)
    (hno : ∀ i < np, get32 buf (ph + i * ps) ≠ some ptNote) :
    findNote buf ps np ph = some (some (ph + np * ps)) := by
  induction np generalizing ph with
  | zero => simp [findNote]
  | succ np ih =>
    have hsome := get32_isSome_iff.mpr (by simpa using hin 0 (Nat.succ_pos np))
    have hfirst : get32 buf ph ≠ some ptNote := by simpa using hno 0 (Nat.succ_pos np)
    have hnext : ∀ i, ph + (i + 1) * ps = ph + ps + i * ps := fun i => by
      rw [Nat.add_mul, Nat.one_mul, Nat.add_assoc, Nat.add_comm (i * ps)]
    rw [findNote]
    cases hget : get32 buf ph with
    | none => simp [hget] at hsome
    | some type =>
      simp only
      rw [if_neg (fun h => hfirst (by rw [hget, h])), ih, hnext]
      · exact fun i hi => by rw [← hnext]; exact hin (i + 1) (Nat.succ_lt_succ hi)
      · exact fun i hi => by rw [← hnext]; exact hno (i + 1) (Nat.succ_lt_succ hi)

/-- A header of type `PT_NOTE` ends the loop if those before it are inside. -/
theorem findNote_note {i : Nat} (hi : i < np) (hin : ph + i * ps + 4 ≤ buf.length)
    (hnote : get32 buf (ph + i * ps) = some ptNote) : findNote buf ps np ph = some none := by
  induction i generalizing np ph with
  | zero =>
    obtain ⟨np, rfl⟩ := Nat.exists_eq_succ_of_ne_zero (Nat.ne_of_gt hi)
    rw [Nat.zero_mul, Nat.add_zero] at hnote
    simp [findNote, hnote]
  | succ i ih =>
    obtain ⟨np, rfl⟩ := Nat.exists_eq_succ_of_ne_zero (Nat.ne_of_gt (Nat.zero_lt_of_lt hi))
    have hnext : ph + (i + 1) * ps = ph + ps + i * ps := by
      rw [Nat.add_mul, Nat.one_mul, Nat.add_assoc, Nat.add_comm (i * ps)]
    rw [hnext] at hin hnote
    have hsome : (get32 buf ph).isSome := get32_isSome_iff.mpr (by omega)
    rw [findNote]
    cases hget : get32 buf ph with
    | none => simp [hget] at hsome
    | some type =>
      simp only
      split
      · rfl
      · exact ih (Nat.lt_of_succ_lt_succ hi) hin hnote

/-- A header outside is read unless one of type `PT_NOTE` comes before. -/
theorem findNote_fault {i : Nat} (hi : i < np) (hout : buf.length < ph + i * ps + 4)
    (hno : ∀ j < np, get32 buf (ph + j * ps) ≠ some ptNote) : findNote buf ps np ph = none := by
  induction i generalizing np ph with
  | zero =>
    obtain ⟨np, rfl⟩ := Nat.exists_eq_succ_of_ne_zero (Nat.ne_of_gt hi)
    have hnone : get32 buf ph = none := by
      rw [← Option.not_isSome_iff_eq_none, get32_isSome_iff]
      omega
    simp [findNote, hnone]
  | succ i ih =>
    obtain ⟨np, rfl⟩ := Nat.exists_eq_succ_of_ne_zero (Nat.ne_of_gt (Nat.zero_lt_of_lt hi))
    have hnext : ∀ j, ph + (j + 1) * ps = ph + ps + j * ps := fun j => by
      rw [Nat.add_mul, Nat.one_mul, Nat.add_assoc, Nat.add_comm (j * ps)]
    have hfirst : get32 buf ph ≠ some ptNote := by simpa using hno 0 (Nat.succ_pos np)
    rw [findNote]
    cases hget : get32 buf ph with
    | none => rfl
    | some type =>
      simp only
      rw [if_neg (fun h => hfirst (by rw [hget, h]))]
      exact ih (Nat.lt_of_succ_lt_succ hi) (by rw [← hnext]; exact hout)
        (fun j hj => by rw [← hnext]; exact hno (j + 1) (Nat.succ_lt_succ hj))

theorem allZero_cases (n i : Nat) (h : i + n ≤ buf.length) :
    (allZero buf n i = some true ∧ ∀ k < n, buf[i + k]? = some 0) ∨
      allZero buf n i = some false := by
  induction n generalizing i with
  | zero => exact Or.inl ⟨rfl, fun k hk => absurd hk (Nat.not_lt_zero k)⟩
  | succ n ih =>
    rw [allZero, List.getElem?_eq_getElem (show i < buf.length by omega)]
    simp only
    split
    · exact Or.inr rfl
    next hzero =>
      rw [ne_eq, not_not] at hzero
      rcases ih (i + 1) (by omega) with ⟨htrue, hbytes⟩ | hfalse
      · refine Or.inl ⟨htrue, fun k hk => ?_⟩
        cases k with
        | zero => rw [Nat.add_zero, List.getElem?_eq_getElem (by omega), hzero]
        | succ k =>
          rw [← hbytes k (by omega)]
          congr 1
          omega
      · exact Or.inr hfalse

end Loops

/-! ## §3 What is written -/

section Writes

variable {buf : List UInt8} {ph ps np : Nat}

/-- A note as it stands in a file: the name with its NUL is filled up to a
    multiple of four bytes. -/
def noteBytes (note : Note) : List UInt8 :=
  be32 (note.name.length + 1) ++ be32 (4 * note.descr.length) ++ be32 note.type ++
    (note.name ++ [0]) ++
    List.replicate (roundup (note.name.length + 1) - (note.name.length + 1)) 0 ++
    note.descr.flatMap be32

/-- The places and lengths of the writes. -/
theorem allWrites_spans : (allWrites ph ps np).map (fun w => (w.1, w.2.length)) =
    [(ph, 4), (ph + 4, 4), (ph + 16, 4), (ph + 2 * ps, 4), (ph + 2 * ps + 4, 4),
      (ph + 2 * ps + 8, 4), (ph + 2 * ps + 12, 8), (ph + 2 * ps + 20, 24), (ph + ps, 4),
      (ph + ps + 4, 4), (ph + ps + 16, 4), (ph + 2 * ps + 44, 4), (ph + 2 * ps + 48, 4),
      (ph + 2 * ps + 52, 4), (ph + 2 * ps + 56, 22), (ph + 2 * ps + 80, 32), (44, 2)] := rfl

theorem allWrites_apart (hph : 52 ≤ ph) (hps : 32 ≤ ps) : (allWrites ph ps np).Pairwise Apart := by
  have hspans : ((allWrites ph ps np).map fun w => (w.1, w.2.length)).Pairwise
      fun v w => v.1 + v.2 ≤ w.1 ∨ w.1 + w.2 ≤ v.1 := by
    rw [allWrites_spans]
    simp only [List.pairwise_cons, List.mem_cons, List.not_mem_nil, or_false, forall_eq_or_imp,
      forall_eq, List.Pairwise.nil, and_true, IsEmpty.forall_iff, implies_true]
    omega
  have hwrites := List.pairwise_map.mp hspans
  exact hwrites

/-- A statement about all writes is one about their places and lengths. -/
theorem forall_allWrites {P : Nat → Nat → Prop} :
    (∀ w ∈ allWrites ph ps np, P w.1 w.2.length) ↔
      ∀ s ∈ (allWrites ph ps np).map (fun w => (w.1, w.2.length)), P s.1 s.2 := by
  rw [List.forall_mem_map]

theorem allWrites_inside (np : Nat) (hph : 52 ≤ ph) (hroom : ph + 2 * ps + 112 ≤ buf.length) :
    ∀ w ∈ allWrites ph ps np, w.1 + w.2.length ≤ buf.length := by
  rw [forall_allWrites (P := fun a n => a + n ≤ buf.length), allWrites_spans]
  simp only [List.mem_cons, List.not_mem_nil, or_false, forall_eq_or_imp, forall_eq]
  omega

/-- A byte that is not written: outside the count and the part for the headers
    and notes, or one of the two that fill up a name. -/
theorem allWrites_avoid {i : Nat} (hcount : i < 44 ∨ 46 ≤ i)
    (hpart : i < ph ∨ ph + 2 * ps + 112 ≤ i ∨ i = ph + 2 * ps + 78 ∨ i = ph + 2 * ps + 79)
    (hps : 32 ≤ ps) : ∀ w ∈ allWrites ph ps np, i < w.1 ∨ w.1 + w.2.length ≤ i := by
  rw [forall_allWrites (P := fun a n => i < a ∨ a + n ≤ i), allWrites_spans]
  simp only [List.mem_cons, List.not_mem_nil, or_false, forall_eq_or_imp, forall_eq]
  omega

/-- The header at `ph` is a note header, and points at a note that stands at
    `off` as a whole. -/
structure Points (buf : List UInt8) (ph off : Nat) (note : Note) : Prop where
  type : get32 buf ph = some ptNote
  offset : get32 buf (ph + 4) = some off
  filesz : get32 buf (ph + 16) = some (noteBytes note).length
  stands : MarkerAt (noteBytes note) buf off

/-- Two note headers behind `np` others, with their notes and the new count. -/
structure Added (buf buf' : List UInt8) (ph ps np : Nat) : Prop where
  length : buf'.length = buf.length
  count : get16 buf' 44 = some (np + 2)
  same : ∀ i, (i < 44 ∨ 46 ≤ i) → (i < ph ∨ ph + 2 * ps + 112 ≤ i) → buf'[i]? = buf[i]?
  chrp : Points buf' ph (ph + 2 * ps) chrpNote
  rpa : Points buf' (ph + ps) (ph + 2 * ps + 44) rpaNote

theorem store_added (np : Nat) (hph : 52 ≤ ph) (hps : 32 ≤ ps) (hroom : ph + 2 * ps + 112 ≤ buf.length)
    (hbuf : buf.length ≤ bufSize) (hnp : np + 2 < 2 ^ 16)
    (hzero : ∀ k < 2 * ps + 112, buf[ph + k]? = some 0) :
    ∃ buf', store buf (allWrites ph ps np) = some buf' ∧ Added buf buf' ph ps np := by
  have hin := allWrites_inside np hph hroom
  obtain ⟨hlen, hfound, hsame⟩ := patches_apart hin (allWrites_apart hph hps)
  refine ⟨patches buf (allWrites ph ps np), if_pos hin, ?_⟩
  generalize patches buf (allWrites ph ps np) = buf' at hlen hfound hsame ⊢
  simp only [bufSize] at hbuf
  simp only [allWrites, headerWrites, noteWrites, List.cons_append, List.nil_append,
    List.forall_mem_cons] at hfound
  obtain ⟨t1, o1, s1, n1, d1, k1, a1, w1, t2, o2, s2, n2, d2, k2, a2, w2, hcount, -⟩ := hfound
  have hfill : MarkerAt [0, 0] buf' (ph + 2 * ps + 78) := by
    rw [markerAt_iff]
    intro i hi
    have hi2 : i < 2 := hi
    have hbyte : buf'[ph + 2 * ps + 78 + i]? = some 0 := by
      rw [hsame _ (allWrites_avoid (by omega) (by omega) hps), ← hzero (2 * ps + 78 + i) (by omega)]
      congr 1
      omega
    rw [hbyte]
    interval_cases i <;> rfl
  refine ⟨hlen, get16_of_marker hcount hnp, fun i hi hout =>
    hsame i (allWrites_avoid hi (by omega) hps), ?_, ?_⟩
  · refine ⟨get32_of_marker t1 (by decide), get32_of_marker o1 (by omega),
      get32_of_marker s1 (by decide), ?_⟩
    have hnone : MarkerAt [] buf' (ph + 2 * ps + 20) := List.nil_prefix
    exact markerAt_append (markerAt_append (markerAt_append (markerAt_append
      (markerAt_append n1 d1) k1) a1) hnone) w1
  · refine ⟨get32_of_marker t2 (by decide), get32_of_marker o2 ?_, get32_of_marker s2 (by decide),
      ?_⟩
    · omega
    · exact markerAt_append (markerAt_append (markerAt_append (markerAt_append
        (markerAt_append n2 d2) k2) a2) hfill) w2

end Writes

/-! ## §4 The run -/

section Run

variable {buf buf' file : List UInt8} {ph ps np off : Nat}

/-- The run changes nothing, and no access is outside. -/
def Ended.Unchanged (ended : Ended) : Prop := ended ≠ .fault ∧ ∀ file, ended ≠ .written file

/-- The ELF header is one whose program headers are looked at: at `ph`, `np` of
    them, `ps` bytes each. -/
structure Headers (buf : List UInt8) (ph ps np : Nat) : Prop where
  size : 52 ≤ buf.length
  magic : buf.take 4 = elfMagic
  elfClass : buf.getD 4 0 = 1
  elfData : buf.getD 5 0 = 2
  phoff : get32 buf 28 = some ph
  phentsize : get16 buf 42 = some ps
  phnum : get16 buf 44 = some np
  phLow : 52 ≤ ph
  phHigh : ph < 2 ^ 31
  psLow : 32 ≤ ps
  npLow : 1 ≤ np

/-- What is compared with the bytes read. -/
def needed (ph ps np : Nat) : Nat := ph + (np + 2) * ps + chrpNote.size + rpaNote.size

theorem sizes : chrpNote.size = 44 ∧ rpaNote.size = 68 := ⟨rfl, rfl⟩

theorem addToBuf_headers (h : Headers buf ph ps np) : addToBuf buf =
    if (buf.length : Int) < s32 (needed ph ps np) then .noSpace
    else
      match findNote buf ps np ph with
      | none => .fault
      | some none => .hasNote
      | some (some ph) =>
        match allZero buf (2 * ps + chrpNote.size + rpaNote.size) ph with
        | none => .fault
        | some false => .noSpace
        | some true =>
          match store buf (allWrites ph ps np) with
          | none => .fault
          | some buf => .written buf := by
  have hlow := h.phLow
  have hps := h.psLow
  have hnp := h.npLow
  have hs : ¬ (s32 ph < 52 ∨ ps < 32 ∨ np < 1) := by
    rw [s32_of_lt h.phHigh]
    omega
  have hident : ¬ (buf.length < 52 ∨ buf.take 4 ≠ elfMagic) := by simp [h.magic, h.size]
  have hclass : ¬ (buf.getD 4 0 ≠ 1 ∨ buf.getD 5 0 ≠ 2) := by
    rw [h.elfClass, h.elfData]
    decide
  rw [addToBuf, if_neg hident, if_neg hclass, h.phoff, h.phentsize, h.phnum]
  simp only
  rw [addHeaders, if_neg hs]
  rfl

theorem get16_inside (buf : List UInt8) (off : Nat) (h : off + 2 ≤ buf.length) : ∃ v, get16 buf off = some v := by
  rw [get16, List.getElem?_eq_getElem (show off < buf.length by omega),
    List.getElem?_eq_getElem (show off + 1 < buf.length by omega)]
  exact ⟨_, rfl⟩

theorem get32_lt {v : Nat} (h : get32 buf off = some v) : v < 2 ^ 32 := by
  rw [get32] at h
  split at h
  next a b ha hb =>
    have := get16_lt ha
    have := get16_lt hb
    cases h
    omega
  · cases h

/-- Any other file is left alone. -/
theorem addToBuf_other (h : ∀ ph ps np, ¬ Headers buf ph ps np) : (addToBuf buf).Unchanged := by
  rw [addToBuf]
  split
  · exact ⟨by simp, by simp⟩
  next hident =>
    split
    · exact ⟨by simp, by simp⟩
    next hclass =>
      rw [not_or, Nat.not_lt, ne_eq, not_not] at hident
      rw [not_or, ne_eq, not_not, ne_eq, not_not] at hclass
      obtain ⟨ph, hph⟩ := Option.isSome_iff_exists.mp
        (@get32_isSome_iff buf 28 |>.mpr (by omega))
      obtain ⟨ps, hps⟩ := get16_inside buf 42 (by omega)
      obtain ⟨np, hnp⟩ := get16_inside buf 44 (by omega)
      rw [hph, hps, hnp]
      simp only
      have hrefused : s32 ph < 52 ∨ ps < 32 ∨ np < 1 := by
        by_contra hok
        rw [not_or, not_or] at hok
        have hlt := get32_lt hph
        have hs : s32 ph = ph ∧ ph < 2 ^ 31 := by
          have := hok.1
          simp only [s32] at this ⊢
          split at this
          · split <;> omega
          · omega
        rw [hs.1] at hok
        exact h ph ps np ⟨hident.1, hident.2, hclass.1, hclass.2, hph, hps, hnp, by omega, hs.2,
          by omega, by omega⟩
      rw [addHeaders, if_pos hrefused]
      exact ⟨by simp, by simp⟩

/-- A header that is of type `PT_NOTE` already. -/
def HasNote (buf : List UInt8) (ph ps np : Nat) : Prop :=
  ∃ i < np, get32 buf (ph + i * ps) = some ptNote

theorem addToBuf_hasNote (h : Headers buf ph ps np) (hnote : HasNote buf ph ps np) :
    (addToBuf buf).Unchanged := by
  obtain ⟨i, hi, hget⟩ := hnote
  have hin : ph + i * ps + 4 ≤ buf.length := get32_isSome_iff.mp (by rw [hget]; rfl)
  rw [addToBuf_headers h]
  split
  · exact ⟨by simp, by simp⟩
  · rw [findNote_note hi hin hget]
    exact ⟨by simp, by simp⟩

/-- Where there is space the run adds the headers or leaves the file alone. -/
theorem addToBuf_space (h : Headers buf ph ps np) (hbuf : buf.length ≤ bufSize)
    (hspace : needed ph ps np ≤ buf.length) :
    (addToBuf buf).Unchanged ∨
      ∃ buf', addToBuf buf = .written buf' ∧ Added buf buf' (ph + np * ps) ps np := by
  by_cases hnote : HasNote buf ph ps np
  · exact Or.inl (addToBuf_hasNote h hnote)
  have hps := h.psLow
  have hph := h.phLow
  simp only [bufSize] at hbuf
  simp only [needed, sizes.1, sizes.2, Nat.add_mul] at hspace
  have hentries : ∀ i < np, ph + i * ps + 4 ≤ buf.length := fun i hi => by
    have := Nat.mul_le_mul_right ps hi.le
    omega
  have hnp : np * 32 ≤ np * ps := Nat.mul_le_mul_left np hps
  have hs : s32 (needed ph ps np) = needed ph ps np := by
    refine s32_of_lt ?_
    simp only [needed, sizes.1, sizes.2, Nat.add_mul]
    omega
  rw [addToBuf_headers h, hs, if_neg (by simp only [needed, sizes.1, sizes.2, Nat.add_mul]; omega),
    findNote_none hentries (fun i hi hget => hnote ⟨i, hi, hget⟩)]
  simp only [sizes.1, sizes.2]
  rcases @allZero_cases buf (2 * ps + 44 + 68) (ph + np * ps) (by omega) with
    ⟨htrue, hzero⟩ | hfalse
  · obtain ⟨buf', hstore, hadded⟩ := store_added np (show 52 ≤ ph + np * ps by omega) hps (by omega) hbuf (by omega) (fun k hk => hzero k (by omega))
    rw [htrue, hstore]
    exact Or.inr ⟨buf', rfl, hadded⟩
  · rw [hfalse]
    exact Or.inl ⟨by simp, by simp⟩

/-- A sum that wraps round leads outside, unless a note is met before. -/
theorem addToBuf_wraps (h : Headers buf ph ps np) (hbuf : buf.length ≤ bufSize)
    (hwrap : buf.length < needed ph ps np) (hpass : s32 (needed ph ps np) ≤ buf.length)
    (hno : ¬ HasNote buf ph ps np) : addToBuf buf = .fault := by
  have hps := h.psLow
  have hph := h.phHigh
  have hnp := h.npLow
  simp only [bufSize] at hbuf
  -- Were all headers inside, the sum would be far from wrapping round.
  have hout : buf.length < ph + (np - 1) * ps + 4 := by
    by_contra hin
    have hsum : (np + 2) * ps = (np - 1) * ps + 3 * ps := by
      rw [← Nat.add_mul]
      congr 1
      omega
    have hlow : needed ph ps np < 2 ^ 31 := by
      have := get16_lt h.phentsize
      simp only [needed, sizes.1, sizes.2, hsum]
      omega
    rw [s32_of_lt hlow] at hpass
    omega
  rw [addToBuf_headers h, if_neg (by omega),
    findNote_fault (show np - 1 < np by omega) hout (fun j hj hget => hno ⟨j, hj, hget⟩)]

/-- The headers of the file that was written are those of the old one, two
    more of them. -/
theorem Added.headers (h : Headers buf ph ps np) (hadded : Added buf buf' (ph + np * ps) ps np) :
    Headers buf' ph ps (np + 2) := by
  have hlow := h.phLow
  have hfront : ∀ i < 44, buf'[i]? = buf[i]? := fun i hi =>
    hadded.same i (Or.inl hi) (Or.inl (by omega))
  have hbyte : ∀ i < 44, buf'.getD i 0 = buf.getD i 0 := fun i hi => by
    rw [List.getD_eq_getElem?_getD, hfront i hi, List.getD_eq_getElem?_getD]
  refine ⟨by rw [hadded.length]; exact h.size, ?_, ?_, ?_, ?_, ?_, hadded.count, hlow, h.phHigh,
    h.psLow, Nat.le_add_left_of_le (by decide)⟩
  · rw [← h.magic]
    refine List.ext_getElem? fun i => ?_
    rw [List.getElem?_take, List.getElem?_take]
    split
    · exact hfront i (by omega)
    · rfl
  · rw [hbyte 4 (by decide), h.elfClass]
  · rw [hbyte 5 (by decide), h.elfData]
  · rw [← h.phoff]
    exact get32_congr fun i hi => hfront _ (by omega)
  · rw [← h.phentsize]
    exact get16_congr (hfront 42 (by decide)) (hfront 43 (by decide))

theorem Added.second_run (h : Headers buf ph ps np)
    (hadded : Added buf buf' (ph + np * ps) ps np) : (addToBuf buf').Unchanged :=
  addToBuf_hasNote (hadded.headers h) ⟨np, Nat.lt_add_of_pos_right (by decide), hadded.chrp.type⟩

theorem get16_append {v : Nat} {rest : List UInt8} (h : get16 buf off = some v) :
    get16 (buf ++ rest) off = some v := by
  rw [get16] at h
  split at h
  next a b ha hb =>
    rw [get16, List.getElem?_append_left (List.getElem?_eq_some_iff.mp ha).1, ha,
      List.getElem?_append_left (List.getElem?_eq_some_iff.mp hb).1, hb]
    exact h
  · cases h

theorem get32_append {v : Nat} {rest : List UInt8} (h : get32 buf off = some v) :
    get32 (buf ++ rest) off = some v := by
  rw [get32] at h
  split at h
  next a b ha hb =>
    rw [get32, get16_append ha, get16_append hb]
    exact h
  · cases h

theorem Points.append {note : Note} (h : Points buf ph off note) (rest : List UInt8) :
    Points (buf ++ rest) ph off note := by
  refine ⟨get32_append h.type, get32_append h.offset, get32_append h.filesz, h.stands.trans ?_⟩
  rw [List.drop_append]
  exact List.prefix_append _ _

theorem Added.append (h : Added buf buf' ph ps np) (rest : List UInt8) :
    Added (buf ++ rest) (buf' ++ rest) ph ps np := by
  refine ⟨by simp [h.length], get16_append h.count, fun i hi hout => ?_, h.chrp.append rest,
    h.rpa.append rest⟩
  rw [List.getElem?_append, List.getElem?_append, h.length, h.same i hi hout]

end Run

/-! ## §5 The file -/

section File

variable {file : List UInt8}

/-- The file is left alone, or it is written with two note headers behind the
    program headers it has, and a second run leaves it alone; no access is
    outside the bytes read. -/
def AllOrNothing (file : List UInt8) : Prop :=
  (addnote file).Unchanged ∨ ∃ file' ph ps np, addnote file = .written file' ∧
    Headers (file.take bufSize) ph ps np ∧ Added file file' (ph + np * ps) ps np ∧
    (addnote file').Unchanged

theorem addnote_unchanged (h : (addToBuf (file.take bufSize)).Unchanged) :
    (addnote file).Unchanged := by
  unfold addnote
  split
  next buf hwritten => exact absurd hwritten (h.2 buf)
  · exact h

/-- What is read of the written file is what was written. -/
theorem take_written {buf' : List UInt8} (hlen : buf'.length = (file.take bufSize).length) :
    (buf' ++ file.drop bufSize).take bufSize = buf' := by
  rw [List.length_take] at hlen
  by_cases hshort : file.length ≤ bufSize
  · rw [List.drop_eq_nil_of_le hshort, List.append_nil, List.take_of_length_le (by omega)]
  · exact List.take_left' (by omega)

/-- **All or nothing.** The tool does what it should exactly if the sum of the
    header offset, the headers with two more and the notes does not wrap round,
    as an `int`, to one that the bytes read have room for, unless a header
    among the bytes read is a note header already. -/
theorem addnote_iff (file : List UInt8) :
    AllOrNothing file ↔ ∀ ph ps np, Headers (file.take bufSize) ph ps np →
      (file.take bufSize).length < needed ph ps np →
      s32 (needed ph ps np) ≤ (file.take bufSize).length → HasNote (file.take bufSize) ph ps np := by
  have hbuf : (file.take bufSize).length ≤ bufSize := List.length_take_le _ _
  constructor
  · intro h ph ps np hheaders hwrap hpass
    by_contra hno
    have hfault : addnote file = .fault := by
      rw [addnote, addToBuf_wraps hheaders hbuf hwrap hpass hno]
    rcases h with h | ⟨file', -, -, -, h, -⟩
    · exact h.1 hfault
    · rw [hfault] at h
      cases h
  · intro h
    by_cases hheaders : ∃ ph ps np, Headers (file.take bufSize) ph ps np
    · obtain ⟨ph, ps, np, hheaders⟩ := hheaders
      by_cases hspace : needed ph ps np ≤ (file.take bufSize).length
      · rcases addToBuf_space hheaders hbuf hspace with hkept | ⟨buf', hwritten, hadded⟩
        · exact Or.inl (addnote_unchanged hkept)
        · refine Or.inr ⟨buf' ++ file.drop bufSize, ph, ps, np, by rw [addnote, hwritten], hheaders,
            ?_, addnote_unchanged ?_⟩
          · have happend := hadded.append (file.drop bufSize)
            rwa [List.take_append_drop] at happend
          · rw [take_written hadded.length]
            exact hadded.second_run hheaders
      · by_cases hpass : s32 (needed ph ps np) ≤ (file.take bufSize).length
        · exact Or.inl (addnote_unchanged
            (addToBuf_hasNote hheaders (h ph ps np hheaders (by omega) hpass)))
        · refine Or.inl (addnote_unchanged ?_)
          rw [addToBuf_headers hheaders, if_pos (by omega)]
          exact ⟨by simp, by simp⟩
    · refine Or.inl (addnote_unchanged (addToBuf_other fun ph ps np hhas => ?_))
      exact hheaders ⟨ph, ps, np, hhas⟩

/-- The ELF header of a file with 65534 program headers of 32768 bytes each,
    and twelve zero bytes. -/
def hugeHeaders : List UInt8 :=
  elfMagic ++ [1, 2] ++ List.replicate 22 0 ++ be32 52 ++ List.replicate 10 0 ++ be16 32768 ++
    be16 65534 ++ List.replicate 18 0

/-- The sum wraps round to a negative one, and the second header is read far
    behind the file. -/
theorem hugeHeaders_fault : addnote hugeHeaders = .fault ∧ ¬ AllOrNothing hugeHeaders := by
  have hfault : addnote hugeHeaders = .fault := by decide +kernel
  refine ⟨hfault, ?_⟩
  rintro (h | ⟨file', -, -, -, h, -⟩)
  · exact h.1 hfault
  · rw [hfault] at h
    cases h

end File

end LiloBoot.ZImage
