/-
LiloBoot.XFS.ReadTheorems — which files `xfs_read_data` reads right.

`fileByte` is what the extent map says. §2 is the loop over the list of extents
and what one turn of it does; §3 shows that a read is right as long as it stays in
the first contiguous run of extents and the hole behind it, or in a leading hole.
§4 shows that nothing else is read right: an extent behind a hole is skipped, a
hole at the end is not filled, and an offset of 2 GiB or more in an extent is
negative as an `int`. `extents_read_iff` puts the two together.
-/
import LiloBoot.XFS.ExtentTheorems

namespace LiloBoot.XFS

/-! ## §1 The extent map -/

/-- The first byte of an extent in the file. -/
def Xad.first (geo : Geometry) (e : Xad) : Nat := e.offset * 2 ^ geo.blklog

/-- The end of an extent in the file. -/
def Xad.last (geo : Geometry) (e : Xad) : Nat := (e.offset + e.len) * 2 ^ geo.blklog

/-- The byte `f` of the file is in the extent. -/
def Xad.Maps (geo : Geometry) (e : Xad) (f : Nat) : Prop := e.first geo ≤ f ∧ f < e.last geo

instance (geo : Geometry) (e : Xad) (f : Nat) : Decidable (e.Maps geo f) :=
  inferInstanceAs (Decidable (_ ∧ _))

/-- The byte `f` of a file with these extents. The blocks of an extent are consecutive on
the device; what is in no extent is 0. -/
def fileByte (geo : Geometry) (es : List Xad) (dev : Bytes) (f : Nat) : UInt8 :=
  match es.find? fun e => e.Maps geo f with
  | some e => dev (fsb2daddr geo e.start * 512 + (f - e.first geo))
  | none => 0

/-- The extents from block `b` on, in order and without overlap. -/
def Sorted : Nat → List Xad → Prop
  | _, [] => True
  | b, e :: es => b ≤ e.offset ∧ 0 < e.len ∧ Sorted (e.offset + e.len) es

/-- The extents of a file: in order, inside the largest file and on the device. -/
structure ExtentMap (geo : Geometry) (es : List Xad) : Prop where
  sorted : Sorted 0 es
  last_le : ∀ e ∈ es, e.last geo ≤ 2 ^ 63
  onDevice : ∀ e ∈ es, fsb2daddr geo e.start * 512 + e.len * 2 ^ geo.blklog ≤ 2 ^ 64

theorem Xad.last_eq (geo : Geometry) (e : Xad) :
    e.last geo = e.first geo + e.len * 2 ^ geo.blklog := Nat.add_mul _ _ _

theorem Sorted.le_offset {b : Nat} {es : List Xad} (h : Sorted b es) :
    ∀ e ∈ es, b ≤ e.offset := by
  induction es generalizing b with
  | nil => simp
  | cons x es ih =>
    obtain ⟨hb, hlen, hrest⟩ := h
    intro e he
    rcases List.mem_cons.mp he with rfl | he
    · exact hb
    · have := ih hrest e he
      omega

/-- In a sorted list the extent that maps a byte is found. -/
theorem find_maps {geo : Geometry} {b : Nat} {es : List Xad} (h : Sorted b es) {e : Xad}
    (he : e ∈ es) {f : Nat} (hf : e.Maps geo f) :
    es.find? (fun e => e.Maps geo f) = some e := by
  induction es generalizing b with
  | nil => simp at he
  | cons x es ih =>
    obtain ⟨-, -, hrest⟩ := h
    rcases List.mem_cons.mp he with rfl | he
    · rw [List.find?_cons_of_pos (by simpa using hf)]
    · have hle := Nat.mul_le_mul_right (2 ^ geo.blklog) (hrest.le_offset e he)
      have hno : ¬ x.Maps geo f := by
        intro hx
        have h1 : f < (x.offset + x.len) * 2 ^ geo.blklog := hx.2
        have h2 : e.offset * 2 ^ geo.blklog ≤ f := hf.1
        omega
      rw [List.find?_cons_of_neg (by simpa using hno), ih hrest he]

theorem fileByte_mapped {geo : Geometry} {es : List Xad} (hes : ExtentMap geo es) {e : Xad}
    (he : e ∈ es) {f : Nat} (hf : e.Maps geo f) (dev : Bytes) :
    fileByte geo es dev f = dev (fsb2daddr geo e.start * 512 + (f - e.first geo)) := by
  rw [fileByte, find_maps hes.sorted he hf]

theorem fileByte_hole {geo : Geometry} {es : List Xad} {f : Nat}
    (hf : ∀ e ∈ es, ¬ e.Maps geo f) (dev : Bytes) : fileByte geo es dev f = 0 := by
  have hnone : es.find? (fun e => e.Maps geo f) = none := by
    rw [List.find?_eq_none]
    intro e he
    simpa using hf e he
  rw [fileByte, hnone]

/-! ## §2 One turn of the loop -/

/-- The loop of `xfs_read_data` over a list of extents. -/
def readExtents (geo : Geometry) (dev : Bytes) (endpos : Nat) :
    List Xad → ReadState → ReadState
  | [], s => s
  | e :: es, s =>
    if s.lenght = 0 then s else readExtents geo dev endpos es (readStep geo dev endpos s e)

theorem readExtents_done {geo : Geometry} {dev : Bytes} {endpos : Nat} {s : ReadState}
    (h : s.lenght = 0) (es : List Xad) : readExtents geo dev endpos es s = s := by
  cases es with
  | nil => rfl
  | cons e es => rw [readExtents, if_pos h]

theorem readExtents_cons {geo : Geometry} {dev : Bytes} {endpos : Nat} {s : ReadState}
    (h : s.lenght ≠ 0) (e : Xad) (es : List Xad) :
    readExtents geo dev endpos (e :: es) s
      = readExtents geo dev endpos es (readStep geo dev endpos s e) := by
  rw [readExtents, if_neg h]

theorem readExtents_append (geo : Geometry) (dev : Bytes) (endpos : Nat) (es rest : List Xad) :
    ∀ s, readExtents geo dev endpos (es ++ rest) s
      = readExtents geo dev endpos rest (readExtents geo dev endpos es s) := by
  induction es with
  | nil => intro s; rfl
  | cons e es ih =>
    intro s
    by_cases h : s.lenght = 0
    · rw [readExtents_done h, readExtents_done h, readExtents_done h]
    · rw [List.cons_append, readExtents_cons h, readExtents_cons h, ih]

/-- An inode in extents format with these records. -/
def Stores (inode : Inode) (es : List Xad) : Prop :=
  inode.diFormat = .extents ∧ inode.diNextents = es.length
    ∧ ∀ i (h : i < es.length), Records inode.diU (16 * i) es[i]

/-- Over an inode in extents format the iterator runs through the list of its extents. -/
theorem readLoop_eq {geo : Geometry} {inode : Inode} (hfmt : inode.diFormat = .extents)
    {dev : Bytes} {endpos : Nat} (es : List Xad) :
    ∀ fuel (c : Cursor) s, es.length < fuel → c.nextents = es.length →
      (∀ i (h : i < es.length), Records inode.diU (c.xt + 16 * i) es[i]) →
      ∃ c', readLoop geo inode dev endpos fuel c s
        = some (readExtents geo dev endpos es s, c') := by
  induction es with
  | nil =>
    intro fuel c s hfuel hc _
    obtain ⟨fuel, rfl⟩ : ∃ m, fuel = m + 1 := ⟨fuel - 1, by omega⟩
    have hc : c.nextents = 0 := hc
    refine ⟨c, ?_⟩
    simp [readLoop, nextExtent, hfmt, hc, readExtents]
  | cons e es ih =>
    intro fuel c s hfuel hc hrec
    obtain ⟨fuel, rfl⟩ : ∃ m, fuel = m + 1 := ⟨fuel - 1, by omega⟩
    simp only [List.length_cons] at hfuel hc hrec
    by_cases hs : s.lenght = 0
    · exact ⟨c, by rw [readLoop, if_pos hs, readExtents_done hs]⟩
    · have hhead : xad (bmbtRec32 inode.diU c.xt) = e :=
        xad_of_records (by simpa using hrec 0 (by omega))
      have hnext : nextExtent geo inode dev c
          = (some e, { c with xt := c.xt + 16, nextents := es.length }) := by
        have hne : c.nextents ≠ 0 := by omega
        have hsub : c.nextents - 1 = es.length := by omega
        simp [nextExtent, hfmt, hne, hhead, hsub]
      obtain ⟨c', htail⟩ := ih fuel { c with xt := c.xt + 16, nextents := es.length }
        (readStep geo dev endpos s e) (by omega) rfl fun i hi => by
          have h := hrec (i + 1) (by omega)
          simp only [List.getElem_cons_succ] at h
          rwa [Nat.mul_add, Nat.mul_one, Nat.add_comm (16 * i) 16, ← Nat.add_assoc] at h
      exact ⟨c', by rw [readLoop, if_neg hs, hnext, readExtents_cons hs]; exact htail⟩

theorem isinxt_iff {geo : Geometry} {e : Xad} (he : e.last geo ≤ 2 ^ 63) (pos : Nat) :
    isinxt (pos / 2 ^ geo.blklog) e.offset e.len = true ↔ e.Maps geo pos := by
  have hpos := Nat.two_pow_pos geo.blklog
  have hend : e.offset + e.len < 2 ^ 64 := by
    have := Nat.le_mul_of_pos_right (e.offset + e.len) hpos
    simp only [Xad.last] at he
    omega
  simp only [isinxt, Xad.Maps, Xad.first, Xad.last, u64_of_lt hend, Bool.and_eq_true,
    decide_eq_true_eq, Nat.le_div_iff_mul_le hpos, Nat.div_lt_iff_lt_mul hpos]

theorem u64_end {geo : Geometry} {e : Xad} (he : e.last geo ≤ 2 ^ 63) :
    u64 (e.offset + e.len) = e.offset + e.len := by
  have := Nat.le_mul_of_pos_right (e.offset + e.len) (Nat.two_pow_pos geo.blklog)
  simp only [Xad.last] at he
  exact u64_of_lt (by omega)

/-- The state has moved `stored` bytes from `start` and stops at `endpos`. -/
structure Exact (start endpos : Nat) (s : ReadState) : Prop where
  pos_eq : s.pos = start + s.stored
  pos_le : s.pos ≤ endpos
  lenght_eq : s.lenght = endpos - s.pos

section Step

variable {geo : Geometry} {dev : Bytes} {start endpos : Nat} {s : ReadState} {e : Xad}

/-- A turn at the extent that maps the position reads to its end or to the end of the
request. -/
theorem readStep_hit (hend : endpos ≤ 2 ^ 63) (hs : Exact start endpos s)
    (he : e.last geo ≤ 2 ^ 63) (hmap : e.Maps geo s.pos) :
    readStep geo dev endpos s e
      = { pos := min endpos (e.last geo)
          lenght := endpos - min endpos (e.last geo)
          endofprev := e.offset + e.len
          stored := s.stored + (min endpos (e.last geo) - s.pos)
          buf := s.buf.store s.stored (u32 (min endpos (e.last geo) - s.pos)) fun i =>
            dev (diskPos (fsb2daddr geo e.start) (s32 (s.pos - e.first geo)) + i) } := by
  obtain ⟨-, hle, hlen⟩ := hs
  obtain ⟨h1, h2⟩ := hmap
  have hfirst : u64 (e.offset * 2 ^ geo.blklog) = e.first geo :=
    u64_of_lt (by simp only [Xad.first] at h1; omega)
  have hlast : u64 ((e.offset + e.len) * 2 ^ geo.blklog) = e.last geo :=
    u64_of_lt (by simp only [Xad.last] at he; omega)
  have hread : (if endpos ≤ e.last geo then s.lenght else sub64 (e.last geo) s.pos)
      = min endpos (e.last geo) - s.pos := by
    split
    · omega
    · rw [sub64_of_le (by omega) (by omega)]
      omega
  have hstart : sub64 s.pos (e.first geo) = s.pos - e.first geo :=
    sub64_of_le h1 (by omega)
  have hpos : u64 (s.pos + (min endpos (e.last geo) - s.pos)) = min endpos (e.last geo) := by
    rw [u64_of_lt (by omega)]
    omega
  have hrest : sub64 s.lenght (min endpos (e.last geo) - s.pos)
      = endpos - min endpos (e.last geo) := by
    rw [sub64_of_le (by omega) (by omega)]
    omega
  unfold readStep
  rw [if_pos ((isinxt_iff he s.pos).mpr ⟨h1, h2⟩)]
  simp only [hfirst, hlast, hread, hstart, hpos, hrest, u64_end he]

/-- A turn at an extent behind a hole stores zeros. -/
theorem readStep_hole (he : e.last geo ≤ 2 ^ 63) (hno : ¬ e.Maps geo s.pos)
    (hprev : s.endofprev < e.offset) :
    ∃ toread, toread = (if endpos ≤ e.first geo then s.lenght
        else u64 ((e.offset - s.endofprev) * 2 ^ geo.blklog))
      ∧ readStep geo dev endpos s e
        = { pos := u64 (s.pos + toread)
            lenght := sub64 s.lenght toread
            endofprev := s.endofprev
            stored := s.stored + toread
            buf := s.buf.store s.stored toread fun _ => 0 } := by
  have hfirst : u64 (e.offset * 2 ^ geo.blklog) = e.first geo := by
    have := e.last_eq geo
    simp only [Xad.first] at this ⊢
    exact u64_of_lt (by omega)
  refine ⟨_, rfl, ?_⟩
  unfold readStep
  rw [if_neg fun h => hno ((isinxt_iff he s.pos).mp h), if_pos hprev]
  simp only [hfirst]

/-- A turn at any other extent only remembers where it ends. -/
theorem readStep_skip (he : e.last geo ≤ 2 ^ 63) (hno : ¬ e.Maps geo s.pos)
    (hprev : ¬ s.endofprev < e.offset) :
    readStep geo dev endpos s e = { s with endofprev := e.offset + e.len } := by
  unfold readStep
  rw [if_neg fun h => hno ((isinxt_iff he s.pos).mp h), if_neg hprev, u64_end he]

end Step

/-! ## §3 Reads that are right -/

/-- The state is exact, and the buffer holds what the map says about the bytes up to the
position. -/
structure Right (geo : Geometry) (es : List Xad) (dev : Bytes) (start endpos : Nat)
    (s : ReadState) : Prop extends Exact start endpos s where
  buf_eq : ∀ i, s.buf i
    = if i < s.stored then some (fileByte geo es dev (start + i)) else none

section Good

variable {geo : Geometry} {es : List Xad} {dev : Bytes} {start endpos : Nat} {s : ReadState}

/-- Storing the next bytes of the file keeps the state right. -/
theorem Right.advance (hs : Right geo es dev start endpos s) {pos' endofprev' n : Nat}
    {f : Nat → UInt8} (hpos : pos' = s.pos + n) (hle : pos' ≤ endpos)
    (hf : ∀ i < n, f i = fileByte geo es dev (s.pos + i)) :
    Right geo es dev start endpos
      ⟨pos', endpos - pos', endofprev', s.stored + n, s.buf.store s.stored n f⟩ := by
  obtain ⟨⟨hpos0, -, -⟩, hbuf⟩ := hs
  refine ⟨⟨by simp only; omega, hle, rfl⟩, ?_⟩
  intro i
  simp only [Buffer.store]
  by_cases hold : i < s.stored
  · rw [if_neg (by omega), hbuf, if_pos hold, if_pos (by omega)]
  · by_cases hnew : i < s.stored + n
    · rw [if_pos ⟨by omega, hnew⟩, if_pos hnew, hf _ (by omega), hpos0]
      congr 2
      omega
    · rw [if_neg (by omega), hbuf, if_neg hold, if_neg hnew]

/-- A turn at the extent that maps the position, less than 2 GiB from its start. -/
theorem Right.hit (hes : ExtentMap geo es) (hend : endpos ≤ 2 ^ 63)
    (hlen : endpos - start < 2 ^ 31) (hs : Right geo es dev start endpos s) {e : Xad}
    (he : e ∈ es) (hmap : e.Maps geo s.pos) (hnear : s.pos < e.first geo + 2 ^ 31) :
    Right geo es dev start endpos (readStep geo dev endpos s e) := by
  have hlast := hes.last_le e he
  have hdev := hes.onDevice e he
  have hexact := hs.toExact
  obtain ⟨hpos, hle, -⟩ := hexact
  obtain ⟨h1, h2⟩ := hmap
  have hsize := e.last_eq geo
  rw [readStep_hit hend hs.toExact hlast ⟨h1, h2⟩]
  have hn : u32 (min endpos (e.last geo) - s.pos) = min endpos (e.last geo) - s.pos :=
    u32_of_lt (by omega)
  have hdisk : diskPos (fsb2daddr geo e.start) (s32 (s.pos - e.first geo))
      = fsb2daddr geo e.start * 512 + (s.pos - e.first geo) := by
    rw [s32_of_lt (by omega), diskPos]
    omega
  rw [hn, hdisk]
  refine hs.advance (by omega) (by omega) ?_
  intro i hi
  rw [fileByte_mapped hes he ⟨by omega, by omega⟩]
  exact congrArg dev (by omega)

/-- A turn at an extent behind a hole that reaches to the end of the request. -/
theorem Right.hole (hend : endpos ≤ 2 ^ 63) (hs : Right geo es dev start endpos s) {e : Xad}
    (hlast : e.last geo ≤ 2 ^ 63) (hprev : s.endofprev < e.offset)
    (hbehind : endpos ≤ e.first geo) (hlt : s.pos < endpos)
    (hzero : ∀ f, s.pos ≤ f → f < endpos → fileByte geo es dev f = 0) :
    Right geo es dev start endpos (readStep geo dev endpos s e)
      ∧ (readStep geo dev endpos s e).lenght = 0 := by
  obtain ⟨hpos, hle, hlen⟩ := hs.toExact
  have hno : ¬ e.Maps geo s.pos := fun h => absurd h.1 (by omega)
  obtain ⟨toread, htoread, hstep⟩ :=
    readStep_hole hlast hno hprev
  rw [if_pos hbehind, hlen] at htoread
  have hpos' : u64 (s.pos + toread) = endpos := by
    rw [u64_of_lt (by omega)]
    omega
  have hrest : sub64 s.lenght toread = endpos - endpos := by
    rw [sub64_of_le (by omega) (by omega)]
    omega
  rw [hstep, hpos', hrest]
  refine ⟨hs.advance (by omega) (Nat.le_refl _) ?_, by simp⟩
  intro i hi
  exact (hzero _ (by omega) (by omega)).symm

/-- A turn at an extent that does not map the position and is not behind a hole. -/
theorem Right.skip (hs : Right geo es dev start endpos s) (v : Nat) :
    Right geo es dev start endpos { s with endofprev := v } :=
  ⟨⟨hs.pos_eq, hs.pos_le, hs.lenght_eq⟩, hs.buf_eq⟩

end Good

/-- The end of the contiguous run of extents from block `b` on, and the offset of the
extent behind it. -/
def runEnd : Nat → List Xad → Nat × Option Nat
  | b, [] => (b, none)
  | b, e :: es => if e.offset = b then runEnd (b + e.len) es else (b, some e.offset)

/-- An extent at block `b` is not taken for one behind a hole. -/
def ReadState.Passes (s : ReadState) (b : Nat) : Prop :=
  s.endofprev = b ∨ s.endofprev = 2 ^ 64 - 1

theorem ReadState.Passes.not_lt {geo : Geometry} {s : ReadState} {e : Xad}
    (h : s.Passes e.offset) (he : e.last geo ≤ 2 ^ 63) : ¬ s.endofprev < e.offset := by
  have := Nat.le_mul_of_pos_right (e.offset + e.len) (Nat.two_pow_pos geo.blklog)
  simp only [Xad.last] at he
  rcases h with h | h
  · omega
  · omega

section Run

variable {geo : Geometry} {all : List Xad} {dev : Bytes} {start endpos : Nat}

/-- A read that starts in a contiguous run, or behind it before the next extent, and ends
there is right. -/
theorem read_run (hall : ExtentMap geo all) (hend : endpos ≤ 2 ^ 63)
    (hlen : endpos - start < 2 ^ 31)
    (hnear : ∀ e ∈ all, e.first geo < endpos →
      min (e.last geo) endpos ≤ e.first geo + 2 ^ 31) (es : List Xad) :
    ∀ b s, Sorted b es → (∀ e ∈ es, e ∈ all) →
      (∀ f, b * 2 ^ geo.blklog ≤ f → (∀ e ∈ es, ¬ e.Maps geo f) →
        fileByte geo all dev f = 0) →
      s.Passes b → b * 2 ^ geo.blklog ≤ s.pos → Right geo all dev start endpos s →
      (endpos ≤ (runEnd b es).1 * 2 ^ geo.blklog
        ∨ ∃ o, (runEnd b es).2 = some o ∧ endpos ≤ o * 2 ^ geo.blklog
          ∧ ((runEnd b es).1 = b → s.endofprev = b)) →
      Right geo all dev start endpos (readExtents geo dev endpos es s)
        ∧ (readExtents geo dev endpos es s).lenght = 0 := by
  induction es with
  | nil =>
    intro b s _ _ _ _ hpos hs hcover
    have hlt := hs.lenght_eq
    rcases hcover with hcover | ⟨o, ho, -⟩
    · have hcover : endpos ≤ b * 2 ^ geo.blklog := hcover
      exact ⟨hs, by rw [readExtents]; omega⟩
    · simp [runEnd] at ho
  | cons e es ih =>
    intro b s hsorted hmem hzero hpass hpos hs hcover
    by_cases hdone : s.lenght = 0
    · rw [readExtents_done hdone]
      exact ⟨hs, hdone⟩
    rw [readExtents_cons hdone]
    obtain ⟨hb, hlen0, hrest⟩ := hsorted
    have he := hmem e List.mem_cons_self
    have hlast := hall.last_le e he
    have hlt := hs.lenght_eq
    have hsize := e.last_eq geo
    by_cases hrun : e.offset = b
    · -- the run goes on with this extent
      subst hrun
      have hzero' : ∀ f, (e.offset + e.len) * 2 ^ geo.blklog ≤ f →
          (∀ x ∈ es, ¬ x.Maps geo f) → fileByte geo all dev f = 0 := by
        intro f hf hno
        refine hzero f ?_ ?_
        · have hf' : e.last geo ≤ f := hf
          simp only [Xad.first] at hsize
          omega
        · intro x hx
          rcases List.mem_cons.mp hx with rfl | hx
          · exact fun h => absurd h.2 (Nat.not_lt.mpr hf)
          · exact hno x hx
      have hcover' : endpos ≤ (runEnd (e.offset + e.len) es).1 * 2 ^ geo.blklog
          ∨ ∃ o, (runEnd (e.offset + e.len) es).2 = some o ∧ endpos ≤ o * 2 ^ geo.blklog := by
        simp only [runEnd, if_true] at hcover
        rcases hcover with h | ⟨o, ho, h, -⟩
        · exact .inl h
        · exact .inr ⟨o, ho, h⟩
      clear hcover
      have hgo : ∀ s' : ReadState, s'.endofprev = e.offset + e.len →
          (e.offset + e.len) * 2 ^ geo.blklog ≤ s'.pos → Right geo all dev start endpos s' →
          Right geo all dev start endpos (readExtents geo dev endpos es s')
            ∧ (readExtents geo dev endpos es s').lenght = 0 := by
        intro s' hprev hpos' hs'
        refine ih (e.offset + e.len) s' hrest (fun x hx => hmem x (List.mem_cons_of_mem _ hx))
          hzero' (.inl hprev) hpos' hs' ?_
        rcases hcover' with h | ⟨o, ho, h⟩
        · exact .inl h
        · exact .inr ⟨o, ho, h, fun _ => hprev⟩
      clear hcover'
      by_cases hmap : e.Maps geo s.pos
      · have hfirst : e.first geo ≤ s.pos := hmap.1
        have hlt2 : s.pos < e.last geo := hmap.2
        have hnear' := hnear e he (by omega)
        have hs' := hs.hit hall hend hlen he hmap (by omega)
        have hstep : readStep geo dev endpos s e = _ :=
          readStep_hit hend hs.toExact hlast hmap
        by_cases hcut : endpos ≤ e.last geo
        · have hzero0 : (readStep geo dev endpos s e).lenght = 0 := by
            rw [hstep]
            simp only
            omega
          rw [readExtents_done hzero0]
          exact ⟨hs', hzero0⟩
        · refine hgo _ ?_ ?_ hs'
          · rw [hstep]
          · rw [hstep]
            have : e.last geo = (e.offset + e.len) * 2 ^ geo.blklog := rfl
            simp only
            omega
      · rw [readStep_skip hlast hmap (hpass.not_lt hlast)]
        refine hgo _ rfl ?_ (hs.skip _)
        have hge : e.last geo ≤ s.pos := by
          have hfirst : e.first geo ≤ s.pos := hpos
          by_contra hno
          exact hmap ⟨hfirst, by omega⟩
        exact hge
    · -- the next extent is behind a hole
      simp only [runEnd, if_neg hrun] at hcover
      rcases hcover with h | ⟨o, ho, h, hprev⟩
      · exact absurd h (by omega)
      · obtain rfl : e.offset = o := by simpa using ho
        have hprev := hprev trivial
        have hbehind : endpos ≤ e.first geo := h
        obtain ⟨hs', hzero0⟩ := hs.hole hend hlast (by omega) hbehind (by omega)
          fun f hf1 hf2 => hzero f (by omega) (by
            intro x hx hm
            have hx0 : e.offset ≤ x.offset := by
              rcases List.mem_cons.mp hx with rfl | hx
              · omega
              · have := hrest.le_offset x hx
                omega
            have := Nat.mul_le_mul_right (2 ^ geo.blklog) hx0
            have hm1 : x.offset * 2 ^ geo.blklog ≤ f := hm.1
            simp only [Xad.first] at hbehind
            omega)
        rw [readExtents_done hzero0]
        exact ⟨hs', hzero0⟩

/-- A read in the leading hole is right if a later extent is behind a hole. -/
theorem read_leading (hall : ExtentMap geo all) (hend : endpos ≤ 2 ^ 63) (es : List Xad) :
    ∀ b s, Sorted b es → (∀ e ∈ es, e ∈ all) → (∀ e ∈ es, endpos ≤ e.first geo) →
      (∀ f, f < endpos → fileByte geo all dev f = 0) →
      s.endofprev = b → Right geo all dev start endpos s → (runEnd b es).2.isSome = true →
      Right geo all dev start endpos (readExtents geo dev endpos es s)
        ∧ (readExtents geo dev endpos es s).lenght = 0 := by
  induction es with
  | nil =>
    intro b s _ _ _ _ _ _ hgap
    simp [runEnd] at hgap
  | cons e es ih =>
    intro b s hsorted hmem hbehind hzero hprev hs hgap
    by_cases hdone : s.lenght = 0
    · rw [readExtents_done hdone]
      exact ⟨hs, hdone⟩
    rw [readExtents_cons hdone]
    obtain ⟨hb, -, hrest⟩ := hsorted
    have hlast := hall.last_le e (hmem e List.mem_cons_self)
    have hbehind0 := hbehind e List.mem_cons_self
    have hlen := hs.lenght_eq
    by_cases hrun : e.offset = b
    · have hno : ¬ e.Maps geo s.pos := fun h => absurd h.1 (by omega)
      rw [readStep_skip hlast hno (by omega)]
      refine ih (e.offset + e.len) _ hrest (fun x hx => hmem x (List.mem_cons_of_mem _ hx))
        (fun x hx => hbehind x (List.mem_cons_of_mem _ hx)) hzero rfl (hs.skip _) ?_
      simpa [runEnd, hrun] using hgap
    · obtain ⟨hs', hzero0⟩ := hs.hole hend hlast (by omega) hbehind0 (by omega)
        fun f _ hf => hzero f hf
      rw [readExtents_done hzero0]
      exact ⟨hs', hzero0⟩

end Run

/-- What is read right of a file of `size` bytes: the file ends in the contiguous run of
extents at its start or in the hole behind it, with an extent behind that hole; if it ends
in a leading hole there must be a gap between the extents; and the bytes of an extent are
less than 2 GiB behind its start. -/
def Readable (geo : Geometry) (es : List Xad) (size : Nat) : Prop :=
  (size ≤ (runEnd 0 es).1 * 2 ^ geo.blklog
      ∨ ∃ o, (runEnd 0 es).2 = some o ∧ size ≤ o * 2 ^ geo.blklog
        ∧ ((runEnd 0 es).1 = 0 → (runEnd o es).2.isSome = true))
    ∧ ∀ e ∈ es, e.first geo < size → min (e.last geo) size ≤ e.first geo + 2 ^ 31

/-- The state that `xfs_read_data` starts its loop in. -/
def readStart (pos endpos : Nat) : ReadState :=
  ⟨pos, endpos - pos, 2 ^ 64 - 1, 0, fun _ => none⟩

theorem readStart_right (geo : Geometry) (es : List Xad) (dev : Bytes) {pos endpos : Nat}
    (h : pos ≤ endpos) : Right geo es dev pos endpos (readStart pos endpos) :=
  ⟨⟨rfl, h, rfl⟩, fun _ => rfl⟩

theorem le_runEnd (es : List Xad) : ∀ b, b ≤ (runEnd b es).1 := by
  induction es with
  | nil => intro b; exact Nat.le_refl b
  | cons e es ih =>
    intro b
    rw [runEnd]
    split
    · have := ih (b + e.len)
      omega
    · exact Nat.le_refl b

/-- Without a run at block 0 the first extent is behind a leading hole. -/
theorem leading_of_runEnd {es : List Xad} (hsorted : Sorted 0 es) {o : Nat}
    (h1 : (runEnd 0 es).1 = 0) (h2 : (runEnd 0 es).2 = some o) :
    ∃ e rest, es = e :: rest ∧ e.offset = o ∧ 0 < o := by
  cases es with
  | nil => simp [runEnd] at h2
  | cons e rest =>
    by_cases hrun : e.offset = 0
    · have hlen : 0 < e.len := hsorted.2.1
      have := le_runEnd rest (0 + e.len)
      rw [runEnd, if_pos hrun] at h1
      omega
    · simp only [runEnd, if_neg hrun, Option.some.injEq] at h2
      exact ⟨e, rest, rfl, h2, by omega⟩

/-- Reads of a readable file are right. -/
theorem readExtents_right {geo : Geometry} {es : List Xad} (hes : ExtentMap geo es)
    {size pos len : Nat} (hsize : size ≤ 2 ^ 63) (hin : pos + len ≤ size) (hlen : len < 2 ^ 31)
    (h : Readable geo es size) (dev : Bytes) :
    Right geo es dev pos (pos + len)
        (readExtents geo dev (pos + len) es (readStart pos (pos + len)))
      ∧ (readExtents geo dev (pos + len) es (readStart pos (pos + len))).lenght = 0 := by
  have hstart := readStart_right geo es dev (Nat.le_add_right pos len)
  obtain ⟨hcover, hnear⟩ := h
  have hnear' : ∀ e ∈ es, e.first geo < pos + len →
      min (e.last geo) (pos + len) ≤ e.first geo + 2 ^ 31 := by
    intro e he hlt
    have := hnear e he (by omega)
    omega
  by_cases hempty : (readStart pos (pos + len)).lenght = 0
  · rw [readExtents_done hempty]
    exact ⟨hstart, hempty⟩
  have hne : len ≠ 0 := by
    simp only [readStart] at hempty
    omega
  by_cases hzero : (runEnd 0 es).1 = 0
  · rcases hcover with hcover | ⟨o, ho, hbefore, hgap⟩
    · rw [hzero, Nat.zero_mul] at hcover
      omega
    · -- the whole file is a leading hole
      obtain ⟨e, rest, rfl, rfl, hpos⟩ := leading_of_runEnd hes.sorted hzero ho
      have hgap := hgap hzero
      obtain ⟨-, -, hrest⟩ := hes.sorted
      have hlast := hes.last_le e List.mem_cons_self
      have hbehind : ∀ x ∈ e :: rest, pos + len ≤ x.first geo := by
        intro x hx
        have hle : e.offset ≤ x.offset := by
          rcases List.mem_cons.mp hx with rfl | hx
          · exact Nat.le_refl _
          · have := hrest.le_offset x hx
            omega
        have := Nat.mul_le_mul_right (2 ^ geo.blklog) hle
        simp only [Xad.first]
        omega
      have hno : ¬ e.Maps geo (readStart pos (pos + len)).pos := by
        have := hbehind e List.mem_cons_self
        intro h
        exact absurd h.1 (by simp only [readStart]; omega)
      have hpass : (readStart pos (pos + len)).Passes e.offset := .inr rfl
      rw [readExtents_cons hempty, readStep_skip hlast hno (hpass.not_lt hlast)]
      refine read_leading hes (by omega) rest (e.offset + e.len) _ hrest
        (fun x hx => List.mem_cons_of_mem _ hx)
        (fun x hx => hbehind x (List.mem_cons_of_mem _ hx)) ?_ rfl (hstart.skip _) ?_
      · intro f hf
        refine fileByte_hole (fun x hx hm => ?_) dev
        have := hbehind x hx
        exact absurd hm.1 (by omega)
      · simpa [runEnd] using hgap
  · refine read_run hes (by omega) (by omega) hnear' es 0 _ hes.sorted (fun _ h => h)
      (fun f _ hno => fileByte_hole hno dev) (.inr rfl) (by omega) hstart ?_
    rcases hcover with hcover | ⟨o, ho, hbefore, -⟩
    · exact .inl (by omega)
    · exact .inr ⟨o, ho, by omega, fun h => absurd h hzero⟩

/-! ## §4 Reads that go wrong -/

/-- The byte `k` of the buffer is a zero that will stay, or is still to come. -/
def Missed (start endpos k : Nat) (s : ReadState) : Prop :=
  (k < s.stored ∧ s.buf k = some 0) ∨ (s.stored ≤ k ∧ Exact start endpos s ∧ s.buf k = none)

section Bad

variable {geo : Geometry} {dev : Bytes} {start endpos k : Nat} {s : ReadState} {e : Xad}

/-- Stored bytes stay. -/
theorem readStep_stored (hk : k < s.stored) :
    k < (readStep geo dev endpos s e).stored
      ∧ (readStep geo dev endpos s e).buf k = s.buf k := by
  unfold readStep
  split
  · refine ⟨by simp only; omega, ?_⟩
    simp only [Buffer.store]
    rw [if_neg (by omega)]
  · split
    · refine ⟨by simp only; omega, ?_⟩
      simp only [Buffer.store]
      rw [if_neg (by omega)]
    · exact ⟨hk, rfl⟩

theorem readExtents_stored (es : List Xad) :
    ∀ s : ReadState, k < s.stored →
      k < (readExtents geo dev endpos es s).stored
        ∧ (readExtents geo dev endpos es s).buf k = s.buf k := by
  induction es with
  | nil => intro s hk; exact ⟨hk, rfl⟩
  | cons e es ih =>
    intro s hk
    by_cases hdone : s.lenght = 0
    · rw [readExtents_done hdone]
      exact ⟨hk, rfl⟩
    · rw [readExtents_cons hdone]
      have hstep : k < (readStep geo dev endpos s e).stored
        ∧ (readStep geo dev endpos s e).buf k = s.buf k := readStep_stored hk
      exact ⟨(ih _ hstep.1).1, (ih _ hstep.1).2.trans hstep.2⟩

/-- A turn that does not read an extent that maps byte `k` does not read the byte. -/
theorem Missed.step (hend : endpos ≤ 2 ^ 63) (hk : start + k < endpos)
    (hlast : e.last geo ≤ 2 ^ 63) (hno : e.Maps geo s.pos → ¬ e.Maps geo (start + k))
    (hs : Missed start endpos k s) : Missed start endpos k (readStep geo dev endpos s e) := by
  rcases hs with ⟨hlt, hbuf⟩ | ⟨hle, hexact, hbuf⟩
  · exact .inl ⟨(readStep_stored hlt).1, (readStep_stored hlt).2.trans hbuf⟩
  obtain ⟨hpos, hle', hlen⟩ := hexact
  by_cases hmap : e.Maps geo s.pos
  · -- the extent ends before the byte
    have hbefore : e.last geo ≤ start + k := by
      have h1 := hmap.1
      have h2 := hmap.2
      by_contra hcon
      exact hno hmap ⟨by omega, by omega⟩
    have h2 := hmap.2
    have hmin : min endpos (e.last geo) = e.last geo := Nat.min_eq_right (by omega)
    rw [readStep_hit hend ⟨hpos, hle', hlen⟩ hlast hmap, hmin]
    refine .inr ⟨by simp only; omega, ⟨by simp only; omega, by simp only; omega, rfl⟩, ?_⟩
    have hshort : u32 (e.last geo - s.pos) ≤ e.last geo - s.pos := Nat.mod_le _ _
    simp only [Buffer.store]
    rw [if_neg (by omega), hbuf]
  · by_cases hprev : s.endofprev < e.offset
    · obtain ⟨toread, htoread, hstep⟩ := readStep_hole hlast hmap hprev
      rw [hstep]
      by_cases hreach : k < s.stored + toread
      · refine .inl ⟨hreach, ?_⟩
        simp only [Buffer.store]
        rw [if_pos ⟨hle, hreach⟩]
      · refine .inr ⟨by simp only; omega, ?_, ?_⟩
        · have hpos' : u64 (s.pos + toread) = s.pos + toread := u64_of_lt (by omega)
          have hlen' : sub64 s.lenght toread = s.lenght - toread :=
            sub64_of_le (by omega) (by omega)
          rw [hpos', hlen']
          exact ⟨by simp only; omega, by simp only; omega, by simp only; omega⟩
        · simp only [Buffer.store]
          rw [if_neg (by omega), hbuf]
    · rw [readStep_skip hlast hmap hprev]
      exact .inr ⟨hle, ⟨hpos, hle', hlen⟩, hbuf⟩

/-- So it is not read by a loop over such extents. -/
theorem Missed.read (hend : endpos ≤ 2 ^ 63) (hk : start + k < endpos) (es : List Xad) :
    ∀ s, (∀ e ∈ es, e.last geo ≤ 2 ^ 63 ∧ ¬ e.Maps geo (start + k)) →
      Missed start endpos k s → Missed start endpos k (readExtents geo dev endpos es s) := by
  induction es with
  | nil => intro s _ hs; exact hs
  | cons e es ih =>
    intro s hes hs
    by_cases hdone : s.lenght = 0
    · rw [readExtents_done hdone]
      exact hs
    · rw [readExtents_cons hdone]
      obtain ⟨hlast, hno⟩ := hes e List.mem_cons_self
      exact ih _ (fun x hx => hes x (List.mem_cons_of_mem _ hx))
        (hs.step hend hk hlast fun _ => hno)

theorem Missed.buf_ne (hs : Missed start endpos k s) {v : UInt8} (hv : v ≠ 0) :
    s.buf k ≠ some v := by
  intro h
  rcases hs with ⟨-, hbuf⟩ | ⟨-, -, hbuf⟩
  · rw [hbuf, Option.some.injEq] at h
    exact hv h.symm
  · rw [hbuf] at h
    simp at h

/-- Contiguous extents that do not map the position are passed over. -/
theorem readExtents_pass (geo : Geometry) (dev : Bytes) (endpos : Nat) (es : List Xad) :
    ∀ b (s : ReadState), (runEnd b es).2 = none → s.Passes b →
      (∀ e ∈ es, e.last geo ≤ 2 ^ 63 ∧ ¬ e.Maps geo s.pos) →
      ∃ v, readExtents geo dev endpos es s = { s with endofprev := v } := by
  induction es with
  | nil => intro b s _ _ _; exact ⟨s.endofprev, rfl⟩
  | cons e es ih =>
    intro b s hrun hpass hes
    by_cases hdone : s.lenght = 0
    · exact ⟨s.endofprev, by rw [readExtents_done hdone]⟩
    obtain ⟨hlast, hno⟩ := hes e List.mem_cons_self
    by_cases hb : e.offset = b
    · subst hb
      rw [readExtents_cons hdone, readStep_skip hlast hno (hpass.not_lt hlast)]
      obtain ⟨v, hv⟩ := ih (e.offset + e.len) { s with endofprev := e.offset + e.len }
        (by simpa [runEnd] using hrun) (.inl rfl)
        fun x hx => hes x (List.mem_cons_of_mem _ hx)
      exact ⟨v, hv⟩
    · simp [runEnd, hb] at hrun

end Bad

/-! ## §5 Which files are read right -/

/-- A read returns `len`, moves the position by `len`, and stores the bytes of the file and
nothing else. -/
def ReadsRight (geo : Geometry) (inode : Inode) (es : List Xad) (dev : Bytes)
    (size pos len : Nat) : Prop :=
  ∃ enough, ∀ fuel ≥ enough, ∀ c, ∃ buf,
    xfsReadData geo inode dev size pos len fuel c = some ((len : Int), pos + len, buf)
      ∧ ∀ i, buf i = if i < len then some (fileByte geo es dev (pos + i)) else none

section Whole

variable {geo : Geometry} {inode : Inode} {es : List Xad} {dev : Bytes} {size pos len : Nat}

theorem xfsReadData_eq (hst : Stores inode es) (hsize : size ≤ 2 ^ 63)
    (hin : pos + len ≤ size) {fuel : Nat} (hfuel : es.length < fuel) (c : Cursor) :
    xfsReadData geo inode dev size pos len fuel c
      = let s := readExtents geo dev (pos + len) es (readStart pos (pos + len))
        some (s32 (sub64 s.pos pos), s.pos, s.buf) := by
  obtain ⟨hfmt, hcount, hrec⟩ := hst
  have hwant : ((len : Int) % 2 ^ 64).toNat = len := by omega
  have hend : (if size < len then u64 (pos + size) else u64 (pos + len)) = pos + len := by
    rw [if_neg (by omega), u64_of_lt (by omega)]
  have hlen : sub64 (pos + len) pos = pos + len - pos := sub64_of_le (by omega) (by omega)
  obtain ⟨c', hloop⟩ : ∃ c', readLoop geo inode dev (pos + len) fuel
      { c with nextents := es.length, xt := 0 } (readStart pos (pos + len)) = some (_, c') :=
    readLoop_eq hfmt es fuel _ _ hfuel rfl fun i hi => by
      simp only [Nat.zero_add]
      exact hrec i hi
  unfold xfsReadData
  rw [if_neg (by simp [hfmt]), hwant]
  simp only [hend, initExtents, hfmt, hcount, hlen]
  rw [readStart] at hloop
  rw [hloop]
  rfl

/-- The read is right if the loop over the extents is. -/
theorem readsRight_iff (hst : Stores inode es) (hsize : size ≤ 2 ^ 63)
    (hin : pos + len ≤ size) (hlen : len < 2 ^ 31) :
    ReadsRight geo inode es dev size pos len
      ↔ (readExtents geo dev (pos + len) es (readStart pos (pos + len))).pos = pos + len
        ∧ ∀ i, (readExtents geo dev (pos + len) es (readStart pos (pos + len))).buf i
            = if i < len then some (fileByte geo es dev (pos + i)) else none := by
  constructor
  · rintro ⟨enough, h⟩
    obtain ⟨buf, hread, hbuf⟩ := h (max enough (es.length + 1)) (by omega) ⟨0, 0, 0, 0, 0⟩
    rw [xfsReadData_eq hst hsize hin (by omega)] at hread
    simp only [Option.some.injEq, Prod.mk.injEq] at hread
    obtain ⟨-, hpos, rfl⟩ := hread
    exact ⟨hpos, hbuf⟩
  · rintro ⟨hpos, hbuf⟩
    refine ⟨es.length + 1, fun fuel hfuel c => ⟨_, ?_, hbuf⟩⟩
    have hret : s32 (sub64 (pos + len) pos) = len := by
      rw [sub64_of_le (by omega) (by omega), Nat.add_sub_cancel_left, s32_of_lt hlen]
    rw [xfsReadData_eq hst hsize hin hfuel]
    simp only [hpos, hret]

end Whole

theorem runEnd_last (geo : Geometry) (es : List Xad) :
    ∀ b, (runEnd b es).2 = none →
      ∀ e ∈ es, e.last geo ≤ (runEnd b es).1 * 2 ^ geo.blklog := by
  induction es with
  | nil => simp
  | cons x es ih =>
    intro b hrun e he
    by_cases hb : x.offset = b
    · subst hb
      simp only [runEnd, if_true] at hrun ⊢
      rcases List.mem_cons.mp he with rfl | he
      · exact Nat.mul_le_mul_right _ (le_runEnd es _)
      · exact ih _ hrun e he
    · simp [runEnd, hb] at hrun

/-- The extents up to the first gap, and the extent behind it. -/
theorem runEnd_split (es : List Xad) :
    ∀ b o, (runEnd b es).2 = some o →
      ∃ l₁ e l₂, es = l₁ ++ e :: l₂ ∧ e.offset = o ∧ o ≠ (runEnd b es).1
        ∧ (runEnd b l₁).2 = none ∧ (runEnd b l₁).1 = (runEnd b es).1 := by
  induction es with
  | nil => intro b o h; simp [runEnd] at h
  | cons x es ih =>
    intro b o h
    by_cases hb : x.offset = b
    · subst hb
      simp only [runEnd, if_true] at h ⊢
      obtain ⟨l₁, e, l₂, rfl, he, hne, hrun, hend⟩ := ih _ o h
      exact ⟨x :: l₁, e, l₂, rfl, he, hne, by simpa [runEnd] using hrun,
        by simpa [runEnd] using hend⟩
    · simp only [runEnd, if_neg hb, Option.some.injEq] at h ⊢
      exact ⟨[], x, es, rfl, h, fun h' => hb (h.trans h'), rfl, rfl⟩

/-- Extents behind an extent of a sorted list start behind its end. -/
theorem Sorted.behind {l₁ : List Xad} : ∀ {b : Nat} {e : Xad} {l₂ : List Xad},
    Sorted b (l₁ ++ e :: l₂) →
      0 < e.len ∧ b ≤ e.offset ∧ ∀ x ∈ l₂, e.offset + e.len ≤ x.offset := by
  induction l₁ with
  | nil =>
    intro b e l₂ h
    exact ⟨h.2.1, h.1, h.2.2.le_offset⟩
  | cons y l₁ ih =>
    intro b e l₂ h
    obtain ⟨hb, hlen, hrest⟩ := h
    obtain ⟨h1, h2, h3⟩ := ih hrest
    exact ⟨h1, by omega, h3⟩

/-- A device whose only byte that is not 0 is at `q`. -/
def oneByte (q : Nat) : Bytes := fun p => if p = q then 1 else 0

theorem oneByte_self (q : Nat) : oneByte q q = 1 := if_pos rfl

theorem oneByte_ne {p q : Nat} (h : p ≠ q) : oneByte q p = 0 := if_neg h

/-- A byte that is missed is not read right where the device has a 1. -/
theorem Missed.not_right {start endpos k : Nat} {s : ReadState} (hs : Missed start endpos k s)
    (h : s.buf k = some 1) : False := by
  rcases hs with ⟨-, hbuf⟩ | ⟨-, -, hbuf⟩
  · rw [hbuf] at h
    exact absurd h (by decide)
  · rw [hbuf] at h
    exact absurd h (by decide)

/-- The run before an extent of a sorted list ends before it. -/
theorem runEnd_le_offset {e : Xad} {l₂ : List Xad} (l₁ : List Xad) :
    ∀ b, Sorted b (l₁ ++ e :: l₂) → (runEnd b l₁).2 = none → (runEnd b l₁).1 ≤ e.offset := by
  induction l₁ with
  | nil => intro b h _; exact h.1
  | cons x l₁ ih =>
    intro b h hrun
    by_cases hb : x.offset = b
    · subst hb
      simp only [runEnd, if_true] at hrun ⊢
      exact ih _ h.2.2 hrun
    · simp [runEnd, hb] at hrun

theorem runEnd_lt {b o : Nat} {es : List Xad} (hsorted : Sorted b es)
    (h : (runEnd b es).2 = some o) : (runEnd b es).1 < o := by
  obtain ⟨l₁, e, l₂, rfl, rfl, hne, hrun, hend⟩ := runEnd_split es b o h
  have hle := runEnd_le_offset l₁ b hsorted hrun
  omega

/-- Extents behind the one that maps a byte do not map it. -/
theorem not_maps_behind {geo : Geometry} {b pos : Nat} {l₁ l₂ : List Xad} {e : Xad}
    (h : Sorted b (l₁ ++ e :: l₂)) (hpos : pos < e.last geo) :
    ∀ x ∈ l₂, ¬ x.Maps geo pos := by
  intro x hx hmap
  have hle := Nat.mul_le_mul_right (2 ^ geo.blklog) (h.behind.2.2 x hx)
  have h1 : x.offset * 2 ^ geo.blklog ≤ pos := hmap.1
  simp only [Xad.last] at hpos
  omega

section Necessary

variable {geo : Geometry} {inode : Inode} {es : List Xad} {size : Nat}

/-- A turn that reads 2 GiB behind the start of an extent takes the byte from elsewhere. -/
theorem Missed.far {e : Xad} {pos : Nat} {s : ReadState} (hend : pos + 1 ≤ 2 ^ 63)
    (hpos : pos = e.first geo + 2 ^ 31) (hlast : e.last geo ≤ 2 ^ 63) (hmap : e.Maps geo pos)
    (hdev : fsb2daddr geo e.start * 512 + 2 ^ 31 < 2 ^ 64) (hs : Missed pos (pos + 1) 0 s) :
    Missed pos (pos + 1) 0
      (readStep geo (oneByte (fsb2daddr geo e.start * 512 + 2 ^ 31)) (pos + 1) s e) := by
  rcases hs with ⟨hlt, hzero⟩ | ⟨hle, hexact, hnone⟩
  · exact .inl ⟨(readStep_stored hlt).1, (readStep_stored hlt).2.trans hzero⟩
  have hstored : s.stored = 0 := by omega
  have hspos : s.pos = pos := by
    rw [hexact.pos_eq, hstored, Nat.add_zero]
  have hmin : min (pos + 1) (e.last geo) = pos + 1 := by
    have := hmap.2
    omega
  have hint : s32 (2 ^ 31) = -2 ^ 31 := by decide
  have hdisk : diskPos (fsb2daddr geo e.start) (-2 ^ 31) + 0
      ≠ fsb2daddr geo e.start * 512 + 2 ^ 31 := by
    simp only [diskPos]
    omega
  rw [readStep_hit hend hexact hlast (by rw [hspos]; exact hmap), hmin, hspos, hpos,
    Nat.add_sub_cancel_left, Nat.add_sub_cancel_left, hint, hstored]
  refine .inl ⟨Nat.zero_lt_one, ?_⟩
  simp only [Buffer.store]
  rw [if_pos (by decide), Nat.sub_self, oneByte_ne hdisk]

/-- 2 GiB behind the start of an extent no byte is read right. -/
theorem not_right_far (hes : ExtentMap geo es) (hst : Stores inode es) (hsize : size ≤ 2 ^ 63)
    {e : Xad} (he : e ∈ es) (hlast : e.first geo + 2 ^ 31 < e.last geo)
    (hin : e.first geo + 2 ^ 31 < size) :
    ¬ ReadsRight geo inode es (oneByte (fsb2daddr geo e.start * 512 + 2 ^ 31)) size
      (e.first geo + 2 ^ 31) 1 := by
  intro h
  generalize hpos : e.first geo + 2 ^ 31 = pos at *
  have hmap : e.Maps geo pos := ⟨by omega, hlast⟩
  have hbyte : fileByte geo es (oneByte (fsb2daddr geo e.start * 512 + 2 ^ 31)) pos = 1 := by
    rw [fileByte_mapped hes he hmap, ← hpos, Nat.add_sub_cancel_left, oneByte_self]
  obtain ⟨-, hbuf⟩ := (readsRight_iff hst hsize (by omega) (by decide)).mp h
  have hone := hbuf 0
  simp only [Nat.add_zero, Nat.lt_one_iff, if_true, hbyte] at hone
  obtain ⟨-, l₁, l₂, hsplit, hbefore⟩ :=
    List.find?_eq_some_iff_append.mp (find_maps hes.sorted he hmap)
  have hl₁ : ∀ x ∈ l₁, x.last geo ≤ 2 ^ 63 ∧ ¬ x.Maps geo (pos + 0) := by
    intro x hx
    refine ⟨hes.last_le x (by rw [hsplit]; exact List.mem_append_left _ hx), ?_⟩
    simpa using hbefore x hx
  have hend := hes.last_le e he
  have hdev := hes.onDevice e he
  have hsz := e.last_eq geo
  have hstart : Missed pos (pos + 1) 0 (readStart pos (pos + 1)) :=
    .inr ⟨Nat.le_refl 0, ⟨rfl, Nat.le_succ pos, rfl⟩, rfl⟩
  rw [hsplit, readExtents_append] at hone
  have hmiss : Missed pos (pos + 1) 0 (readExtents geo
      (oneByte (fsb2daddr geo e.start * 512 + 2 ^ 31)) (pos + 1) l₁ (readStart pos (pos + 1))) :=
    hstart.read (by omega) (by omega) l₁ _ hl₁
  generalize readExtents geo (oneByte (fsb2daddr geo e.start * 512 + 2 ^ 31)) (pos + 1) l₁
    (readStart pos (pos + 1)) = s at hmiss hone
  by_cases hdone : s.lenght = 0
  · rw [readExtents_done hdone] at hone
    exact hmiss.not_right hone
  · rw [readExtents_cons hdone] at hone
    have hfar := hmiss.far (by omega) hpos.symm hend hmap (by omega)
    have hl₂ : ∀ x ∈ l₂, x.last geo ≤ 2 ^ 63 ∧ ¬ x.Maps geo (pos + 0) := by
      intro x hx
      refine ⟨hes.last_le x (by rw [hsplit]; simp [hx]), ?_⟩
      exact not_maps_behind (hsplit ▸ hes.sorted) hlast x hx
    exact (hfar.read (by omega) (by omega) l₂ _ hl₂).not_right hone

/-- A hole at the end of the file is not filled. -/
theorem not_right_trailing (hes : ExtentMap geo es) (hst : Stores inode es)
    (hsize : size ≤ 2 ^ 63) (hrun : (runEnd 0 es).2 = none)
    (hin : (runEnd 0 es).1 * 2 ^ geo.blklog < size) (dev : Bytes) :
    ¬ ReadsRight geo inode es dev size ((runEnd 0 es).1 * 2 ^ geo.blklog) 1 := by
  intro h
  obtain ⟨hpos, -⟩ := (readsRight_iff hst hsize (by omega) (by decide)).mp h
  have hlast := runEnd_last geo es 0 hrun
  obtain ⟨v, hv⟩ := readExtents_pass geo dev ((runEnd 0 es).1 * 2 ^ geo.blklog + 1) es 0
    (readStart ((runEnd 0 es).1 * 2 ^ geo.blklog) ((runEnd 0 es).1 * 2 ^ geo.blklog + 1))
    hrun (.inr rfl) fun e he => ⟨hes.last_le e he, fun hmap => absurd hmap.2 (by
      have := hlast e he
      simp only [readStart]
      omega)⟩
  rw [hv] at hpos
  simp only [readStart] at hpos
  omega

/-- A leading hole is not filled if no extent is behind a gap. -/
theorem not_right_leading (hes : ExtentMap geo es) (hst : Stores inode es)
    (hsize : size ≤ 2 ^ 63) (hin : 0 < size) {e : Xad} {rest : List Xad}
    (hsplit : es = e :: rest) (hpos : 0 < e.offset) (hrun : (runEnd e.offset es).2 = none)
    (dev : Bytes) : ¬ ReadsRight geo inode es dev size 0 1 := by
  intro h
  obtain ⟨hmoved, -⟩ := (readsRight_iff hst hsize (by omega) (by decide)).mp h
  have hfirst : ∀ x ∈ es, 0 < x.first geo := by
    intro x hx
    have hsorted := hes.sorted
    rw [hsplit] at hsorted hx
    have hle : e.offset ≤ x.offset := by
      rcases List.mem_cons.mp hx with rfl | hx
      · exact Nat.le_refl _
      · have := hsorted.2.2.le_offset x hx
        omega
    exact Nat.mul_pos (by omega) (Nat.two_pow_pos _)
  obtain ⟨v, hv⟩ := readExtents_pass geo dev (0 + 1) es e.offset
    (readStart 0 (0 + 1)) hrun (.inr rfl) fun x hx => ⟨hes.last_le x hx, fun hmap =>
      absurd hmap.1 (by
        have := hfirst x hx
        simp only [readStart]
        omega)⟩
  rw [hv] at hmoved
  simp [readStart] at hmoved

/-- The first byte behind a hole is not read. -/
theorem not_right_behind (hes : ExtentMap geo es) (hst : Stores inode es)
    (hsize : size ≤ 2 ^ 63) {o pos : Nat} (hrun : (runEnd 0 es).2 = some o)
    (hpos : pos + 1 = o * 2 ^ geo.blklog) (hin : o * 2 ^ geo.blklog < size) :
    ¬ ReadsRight geo inode es (fun _ => 1) size pos 2 := by
  intro h
  obtain ⟨l₁, e, l₂, hsplit, rfl, hne, hrun₁, hend₁⟩ := runEnd_split es 0 o hrun
  have hsorted : Sorted 0 (l₁ ++ e :: l₂) := hsplit ▸ hes.sorted
  have hmem : e ∈ es := by rw [hsplit]; simp
  have hlast := hes.last_le e hmem
  have hlen : 1 * 2 ^ geo.blklog ≤ e.len * 2 ^ geo.blklog :=
    Nat.mul_le_mul_right _ hsorted.behind.1
  have hsz := e.last_eq geo
  have hB := Nat.two_pow_pos geo.blklog
  have hfirst : e.first geo = pos + 1 := hpos.symm
  have hmap : e.Maps geo (pos + 1) := ⟨by omega, by omega⟩
  obtain ⟨-, hbuf⟩ := (readsRight_iff hst hsize (by omega) (by decide)).mp h
  have hone := hbuf 1
  simp only [Nat.one_lt_ofNat, if_true, fileByte_mapped hes hmem hmap] at hone
  -- the run before the hole is passed over
  have hgap : ((runEnd 0 l₁).1 + 1) * 2 ^ geo.blklog ≤ e.offset * 2 ^ geo.blklog := by
    have hle := runEnd_le_offset l₁ 0 hsorted hrun₁
    exact Nat.mul_le_mul_right _ (by omega)
  have hpass : ∀ x ∈ l₁, x.last geo ≤ 2 ^ 63 ∧ ¬ x.Maps geo pos := by
    intro x hx
    refine ⟨hes.last_le x (by rw [hsplit]; exact List.mem_append_left _ hx), fun hm => ?_⟩
    have h1 := runEnd_last geo l₁ 0 hrun₁ x hx
    have h2 := hm.2
    rw [Nat.add_mul] at hgap
    omega
  obtain ⟨v, hv⟩ := readExtents_pass geo (fun _ => 1) (pos + 2) l₁ 0
    (readStart pos (pos + 2)) hrun₁ (.inr rfl) hpass
  rw [hsplit, readExtents_append, hv,
    readExtents_cons (by simp only [readStart]; omega)] at hone
  -- the extent behind it is used up by the hole, or skipped
  have hstart : Missed pos (pos + 2) 1 { readStart pos (pos + 2) with endofprev := v } :=
    .inr ⟨Nat.zero_le 1, ⟨rfl, Nat.le_add_right pos 2, rfl⟩, rfl⟩
  have hmiss : Missed pos (pos + 2) 1 (readStep geo (fun _ => 1) (pos + 2)
      { readStart pos (pos + 2) with endofprev := v } e) := hstart.step (by omega) (by omega)
    hlast fun hm => absurd hm.1 (by simp only [readStart]; omega)
  have hl₂ : ∀ x ∈ l₂, x.last geo ≤ 2 ^ 63 ∧ ¬ x.Maps geo (pos + 1) := by
    intro x hx
    exact ⟨hes.last_le x (by rw [hsplit]; simp [hx]),
      not_maps_behind hsorted (by omega) x hx⟩
  exact (hmiss.read (by omega) (by omega) l₂ _ hl₂).not_right hone

end Necessary

/-- **Which files are read right**: every read inside the file, from whatever device, is
right exactly if the file is readable. -/
theorem extents_read_iff (geo : Geometry) (inode : Inode) (es : List Xad)
    (hes : ExtentMap geo es) (hst : Stores inode es) (size : Nat) (hsize : size ≤ 2 ^ 63) :
    (∀ pos len, pos + len ≤ size → len < 2 ^ 31 → ∀ dev,
        ReadsRight geo inode es dev size pos len)
      ↔ Readable geo es size := by
  constructor
  · intro h
    refine ⟨?_, ?_⟩
    · by_contra hno
      simp only [not_or, Nat.not_le] at hno
      obtain ⟨hrun, hno⟩ := hno
      cases hnext : (runEnd 0 es).2 with
      | none =>
        exact not_right_trailing hes hst hsize hnext hrun (fun _ => 0)
          (h _ 1 (by omega) (by decide) _)
      | some o =>
        have hgap := runEnd_lt hes.sorted hnext
        by_cases hbehind : o * 2 ^ geo.blklog < size
        · have hblock := Nat.mul_pos (show 0 < o by omega) (Nat.two_pow_pos geo.blklog)
          obtain ⟨pos, hpos⟩ : ∃ pos, pos + 1 = o * 2 ^ geo.blklog :=
            ⟨o * 2 ^ geo.blklog - 1, by omega⟩
          exact not_right_behind hes hst hsize hnext hpos hbehind
            (h pos 2 (by omega) (by decide) _)
        · -- the file ends in a leading hole
          have hzero : (runEnd 0 es).1 = 0 := by
            by_contra hne
            exact hno ⟨o, hnext, by omega, fun h0 => absurd h0 hne⟩
          have hnone : (runEnd o es).2 = none := by
            by_contra hne
            exact hno ⟨o, hnext, by omega, fun _ => Option.isSome_iff_ne_none.mpr hne⟩
          obtain ⟨e, rest, hsplit, rfl, hpos⟩ := leading_of_runEnd hes.sorted hzero hnext
          exact not_right_leading hes hst hsize (by omega) hsplit hpos hnone (fun _ => 0)
            (h 0 1 (by omega) (by decide) _)
    · intro e he hfirst
      by_contra hno
      have hfar : e.first geo + 2 ^ 31 < e.last geo ∧ e.first geo + 2 ^ 31 < size := by omega
      exact not_right_far hes hst hsize he hfar.1 hfar.2
        (h _ 1 (by omega) (by decide) _)
  · intro h pos len hin hlen dev
    obtain ⟨hright, hdone⟩ := readExtents_right hes hsize hin hlen h dev
    have hpos := hright.pos_eq
    have hle := hright.pos_le
    have hrest := hright.lenght_eq
    refine (readsRight_iff hst hsize hin hlen).mpr ⟨by omega, fun i => ?_⟩
    have hstored : (readExtents geo dev (pos + len) es (readStart pos (pos + len))).stored
        = len := by omega
    rw [hright.buf_eq, hstored]

/-! ## §6 Two files -/

/-- An inode in extents format whose literal area starts with these bytes. -/
def extentsInode (n : Nat) (records : List UInt8) : Inode where
  diFormat := .extents
  diNextents := n
  diU := fun i => records.getD i 0

/-- Block 0 of the file is block 7, blocks 1 and 2 are a hole, block 3 is block 9. -/
def holeInode : Inode :=
  extentsInode 2
    [0, 0, 0, 0, 0, 0, 0, 0, 0, 0, 0, 0, 0, 0xe0, 0, 1,
     0, 0, 0, 0, 0, 0, 6, 0, 0, 0, 0, 0, 1, 0x20, 0, 1]

def holeExtents : List Xad := [⟨0, 7, 1⟩, ⟨3, 9, 1⟩]

theorem holeInode_stores : Stores holeInode holeExtents := by
  refine ⟨rfl, rfl, ?_⟩
  have hfirst : Records holeInode.diU 0 ⟨0, 7, 1⟩ := ⟨by decide, 0, by decide, by decide⟩
  have hsecond : Records holeInode.diU 16 ⟨3, 9, 1⟩ := ⟨by decide, 0, by decide, by decide⟩
  intro i hi
  have hi : i < 2 := hi
  match i, hi with
  | 0, _ => exact hfirst
  | 1, _ => exact hsecond

theorem holeExtents_map : ExtentMap sampleGeometry holeExtents :=
  ⟨⟨by decide, by decide, by decide, by decide, trivial⟩, by decide, by decide⟩

/-- The data block behind the hole is not read: of the 16384 bytes of the file the first
12288 come out. -/
theorem holeInode_short :
    ExtentMap sampleGeometry holeExtents ∧ Stores holeInode holeExtents
      ∧ (xfsReadData sampleGeometry holeInode (fun _ => 1) 16384 0 16384 3
          ⟨0, 0, 0, 0, 0⟩).map (fun r => (r.1, r.2.1)) = some (12288, 12288)
      ∧ ¬ ReadsRight sampleGeometry holeInode holeExtents (fun _ => 1) 16384 0 16384 := by
  refine ⟨holeExtents_map, holeInode_stores, by decide, fun h => ?_⟩
  obtain ⟨hpos, -⟩ :=
    (readsRight_iff holeInode_stores (by decide) (by decide) (by decide)).mp h
  exact absurd hpos (by decide)

/-- Up to the end of the hole the file is readable. -/
theorem holeInode_readable :
    ReadsRight sampleGeometry holeInode holeExtents (fun _ => 1) 12288 100 12000 :=
  (extents_read_iff sampleGeometry holeInode holeExtents holeExtents_map holeInode_stores 12288
    (by decide)).mpr
    ⟨.inr ⟨3, by decide, by decide, by decide⟩, by decide⟩ 100 12000 (by decide) (by decide) _

end LiloBoot.XFS
