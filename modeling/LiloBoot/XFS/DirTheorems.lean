/-
LiloBoot.XFS.DirTheorems — what `first_dentry` and `next_dentry` yield.

A directory in data blocks is a list of blocks of items, entries and free
regions; one in short form is a list of entries in the inode. `Here` is the
cursor between two items, judged by the items it has still to pass. §3 walks
the data blocks, §4 the short form, where the entry for the parent directory
comes without its name.
-/
import LiloBoot.XFS.Dir
import LiloBoot.XFS.ReadTheorems

namespace LiloBoot.XFS

/-! ## §1 The layout of a directory -/

/-- A name that an entry can have. -/
def Dentry.Valid (e : Dentry) : Prop := e.name.length ≤ 255 ∧ 0 ∉ e.name

/-- The bytes of a name. -/
def NameBytes (bytes : Bytes) (pos : Nat) (name : List UInt8) : Prop :=
  ∀ i (h : i < name.length), bytes (pos + i) = name[i]

/-- What a data block holds behind its header. -/
inductive DirItem where
  | entry (e : Dentry)
  | free (length : Nat)
  deriving DecidableEq, Repr

def DirItem.size : DirItem → Nat
  | .entry e => roundup8 (e.name.length + 11)
  | .free length => length

/-- The item stands at `pos`. Inode numbers do not reach the tag of a free region. -/
def DirItem.At (bytes : Bytes) (pos : Nat) : DirItem → Prop
  | .entry e => e.Valid ∧ e.ino < dir2DataFreeTag * 2 ^ 48 ∧ be bytes pos 8 = e.ino
      ∧ (bytes (pos + 8)).toNat = e.name.length ∧ NameBytes bytes (pos + 9) e.name
  | .free length => 8 ∣ length ∧ 0 < length ∧ be bytes pos 2 = dir2DataFreeTag
      ∧ be bytes (pos + 2) 2 = length

instance (bytes : Bytes) (pos : Nat) : (x : DirItem) → Decidable (x.At bytes pos)
  | .entry e => inferInstanceAs (Decidable ((_ ∧ _) ∧ _ ∧ _ ∧ _ ∧ ∀ i (_ : i < e.name.length), _))
  | .free _ => inferInstanceAs (Decidable (_ ∧ _ ∧ _ ∧ _))

/-- Items one behind the other. -/
def Items (bytes : Bytes) : Nat → List DirItem → Prop
  | _, [] => True
  | pos, x :: xs => x.At bytes pos ∧ Items bytes (pos + x.size) xs

instance (bytes : Bytes) : (pos : Nat) → (items : List DirItem) → Decidable (Items bytes pos items)
  | _, [] => isTrue trivial
  | pos, x :: xs =>
    have : Decidable (Items bytes (pos + x.size) xs) := instDecidableItems bytes (pos + x.size) xs
    inferInstanceAs (Decidable (_ ∧ _))

def itemsSize (items : List DirItem) : Nat := (items.map DirItem.size).sum

/-- The entries among the items. -/
def live (items : List DirItem) : List Dentry :=
  items.filterMap fun x => match x with
    | .entry e => some e
    | .free _ => none

/-- Blocks that are full, from block `k` of the directory on. -/
def Blocks (bytes : Bytes) (dirbsize : Nat) : Nat → List (List DirItem) → Prop
  | _, [] => True
  | k, items :: rest => Items bytes (k * dirbsize + dataHdrSize) items
      ∧ dataHdrSize + itemsSize items = dirbsize ∧ Blocks bytes dirbsize (k + 1) rest

/-- The size of a directory block is a power of two that `xfs.dirbsize` can hold. -/
structure DirEnv.Valid (env : DirEnv) : Prop where
  shift : ∃ m, 5 ≤ m ∧ m < 31 ∧ env.dirbsize = 2 ^ m
  size : env.diSize < 2 ^ 63

/-- Reads inside the directory deliver its data. -/
def ReadsData (env : DirEnv) (data : Bytes) : Prop :=
  ∀ pos n : Nat, 0 < n → n < 2 ^ 31 → pos + n ≤ env.diSize → ∃ r buf,
    xfsReadData env.geo env.inode env.dev env.diSize pos n env.fuel freshCursor
      = some (r, pos + n, buf) ∧ ∀ i < n, buf i = some (data (pos + i))

/-! ## §2 Bytes and reads -/

section Reads

variable {env : DirEnv} {data : Bytes} {s : DirState}

theorem be_congr {f g : Bytes} {a b n : Nat} (h : ∀ i < n, f (a + i) = g (b + i)) :
    be f a n = be g b n := by
  induction n with
  | zero => rfl
  | succ n ih =>
    rw [be, be, ih fun i hi => h i (Nat.lt_succ_of_lt hi), h n (Nat.lt_succ_self n)]

theorem nameAt_eq {bytes : Bytes} {pos : Nat} {name : List UInt8} (h : NameBytes bytes pos name)
    (hname : 0 ∉ name) : nameAt bytes pos name.length = name := by
  have hbytes : (List.range name.length).map (fun i => bytes (pos + i)) = name := by
    apply List.ext_getElem
    · simp
    · intro i h1 h2
      simp only [List.getElem_map, List.getElem_range]
      exact h i h2
  rw [nameAt, hbytes, List.takeWhile_eq_self_iff]
  intro b hb
  have hb0 : b ≠ 0 := by
    rintro rfl
    exact hname hb
  simpa using hb0

/-- One read: `dirbuf` gets the bytes, and keeps what stands before them. -/
theorem dirRead_spec (hreads : ReadsData env data) (hlen : s.len = env.diSize) {off n : Nat}
    (hn : 0 < n) (hint : n < 2 ^ 31) (hin : s.pos + n ≤ env.diSize) :
    ∃ buf, dirRead env off n s = some { s with pos := s.pos + n, dirbuf := buf }
      ∧ (∀ i < n, buf (off + i) = data (s.pos + i)) ∧ ∀ i < off, buf i = s.dirbuf i := by
  obtain ⟨r, buf, hread, hbuf⟩ := hreads s.pos n hn hint hin
  refine ⟨_, by rw [dirRead, hlen, hread]; rfl, fun i hi => ?_, fun i hi => ?_⟩
  · simp only
    rw [if_pos (Nat.le_add_right _ _), Nat.add_sub_cancel_left, hbuf i hi, Option.getD_some]
  · simp only
    rw [if_neg (Nat.not_le.mpr hi)]

theorem two_pow_sub_mask {m : Nat} (hm : m ≤ 64) (q : Nat) (hq : q * 2 ^ m < 2 ^ 64) :
    (q * 2 ^ m) &&& (2 ^ 64 - 2 ^ m) = q * 2 ^ m := by
  have hmask : 2 ^ 64 - 2 ^ m = 2 ^ m * (2 ^ (64 - m) - 1) := by
    rw [Nat.mul_sub, ← Nat.pow_add, Nat.add_sub_cancel' hm, Nat.mul_one]
  rw [hmask, Nat.mul_comm q]
  apply Nat.eq_of_testBit_eq
  intro i
  rw [Nat.testBit_and, Nat.testBit_two_pow_mul, Nat.testBit_two_pow_mul, Nat.testBit_two_pow_sub_one]
  by_cases hi : m ≤ i
  · have hlt : q < 2 ^ (64 - m) := by
      rw [← Nat.mul_lt_mul_right (Nat.two_pow_pos m), ← Nat.pow_add, Nat.sub_add_cancel hm]
      exact hq
    by_cases hbit : i - m < 64 - m
    · simp [hi, hbit]
    · have hzero : q.testBit (i - m) = false :=
        Nat.testBit_lt_two_pow (Nat.lt_of_lt_of_le hlt
          (Nat.pow_le_pow_right (by decide) (Nat.not_lt.mp hbit)))
      simp [hzero]
  · simp [hi]

end Reads

/-! ## §3 The walk over the data blocks -/

/-- The cursor stands in block `k`, before the items `cur`, with the blocks `rest` behind. -/
structure Here (env : DirEnv) (data : Bytes) (k off : Nat) (cur : List DirItem)
    (rest : List (List DirItem)) (s : DirState) : Prop where
  len : s.len = env.diSize
  pos : s.pos = k * env.dirbsize + off
  blkoff : s.blkoff = off
  items : Items data (k * env.dirbsize + off) cur
  fits : off + itemsSize cur ≤ env.dirbsize
  full : rest ≠ [] → off + itemsSize cur = env.dirbsize
  blocks : Blocks data env.dirbsize (k + 1) rest
  inside : (k + 1 + rest.length) * env.dirbsize ≤ env.diSize

/-- The parts of the state that the walk leaves alone. -/
structure Carries (s s' : DirState) : Prop where
  dirpos : s'.dirpos = s.dirpos
  dirmax : s'.dirmax = s.dirmax
  forw : s'.forw = s.forw

section Walk

variable {env : DirEnv} {data : Bytes} {s : DirState} {k off : Nat} {cur : List DirItem}
  {rest : List (List DirItem)}

theorem DirItem.eight_le_size {bytes : Bytes} {pos : Nat} {x : DirItem} (h : x.At bytes pos) :
    8 ≤ x.size := by
  cases x with
  | entry e =>
    rw [size, roundup8]
    omega
  | free length =>
    obtain ⟨hdvd, hpos, -⟩ := h
    exact Nat.le_of_dvd hpos hdvd

/-- The first two bytes of an entry are not the tag of a free region. -/
theorem entry_not_free {e : Dentry} {pos : Nat} (h : (DirItem.entry e).At data pos) :
    be data pos 2 ≠ dir2DataFreeTag := by
  obtain ⟨-, hino, hbe, -⟩ := h
  have hparts := be_add data pos 2 6
  rw [hbe] at hparts
  have hlow := be_lt data (pos + 2) 6
  intro htag
  rw [htag] at hparts
  simp only [dir2DataFreeTag] at hino hparts
  omega

/-- At the end of a block the cursor moves behind the header of the next one. -/
theorem Here.wrap (hvalid : env.Valid) {items : List DirItem}
    (h : Here env data k off [] (items :: rest) s) :
    ∃ s', Carries s s' ∧ Here env data (k + 1) dataHdrSize items rest s' ∧ items ≠ []
      ∧ ∀ fuel, skipFree env (fuel + 1) s = skipFree env (fuel + 1) s' := by
  obtain ⟨m, hm, hm', hsize⟩ := hvalid.shift
  obtain ⟨hitems, hfull, hblocks⟩ := h.blocks
  have hlarge : 32 ≤ env.dirbsize := by
    rw [hsize]
    exact Nat.pow_le_pow_right Nat.zero_lt_two hm
  have hoff : off = env.dirbsize := h.full (List.cons_ne_nil _ _)
  have hinside := h.inside
  rw [List.length_cons] at hinside
  have hpos : (s.pos &&& (2 ^ 64 - env.dirbsize)) ||| dataHdrSize
      = (k + 1) * env.dirbsize + dataHdrSize := by
    have hstart : s.pos = (k + 1) * 2 ^ m := by
      rw [h.pos, hoff, hsize]
      ring
    have hlt : (k + 1) * 2 ^ m < 2 ^ 64 := by
      have hle : (k + 1) * env.dirbsize ≤ (k + 1 + (rest.length + 1)) * env.dirbsize :=
        Nat.mul_le_mul_right _ (by omega)
      have hmax := hvalid.size
      rw [hsize] at hle hinside
      omega
    have hhdr : dataHdrSize < 2 ^ m := by
      rw [← hsize, dataHdrSize]
      omega
    have hor := Nat.two_pow_add_eq_or_of_lt hhdr (k + 1)
    rw [hstart, hsize, two_pow_sub_mask (by omega) _ hlt, Nat.mul_comm, ← hor]
  refine ⟨{ s with blkoff := dataHdrSize, pos := (k + 1) * env.dirbsize + dataHdrSize },
    ⟨rfl, rfl, rfl⟩, ?_, ?_, fun fuel => ?_⟩
  · exact ⟨h.len, rfl, rfl, hitems, Nat.le_of_eq hfull, fun _ => hfull, hblocks, by
      rw [show k + 1 + 1 + rest.length = k + 1 + (rest.length + 1) by omega]
      exact hinside⟩
  · rintro rfl
    simp only [itemsSize, List.map_nil, List.sum_nil, dataHdrSize] at hfull
    omega
  · rw [skipFree, skipFree]
    rw [if_pos (by rw [h.blkoff, hoff]), hpos, if_neg]
    simp only [dataHdrSize]
    omega

/-- Inside a block the loop reads four bytes. -/
theorem Here.read (hreads : ReadsData env data) {x : DirItem}
    (h : Here env data k off (x :: cur) rest s) :
    ∃ buf, dirRead env 0 4 s = some { s with pos := s.pos + 4, dirbuf := buf }
      ∧ (∀ i < 4, buf i = data (s.pos + i)) ∧ s.pos + x.size ≤ env.diSize
      ∧ off + x.size ≤ env.dirbsize := by
  obtain ⟨hx, -⟩ := h.items
  have hsize := DirItem.eight_le_size hx
  have hfits := h.fits
  rw [itemsSize, List.map_cons, List.sum_cons] at hfits
  have hblock : (k + 1) * env.dirbsize ≤ env.diSize :=
    Nat.le_trans (Nat.mul_le_mul_right _ (by omega)) h.inside
  have hend : s.pos + x.size ≤ env.diSize := by
    have hk : (k + 1) * env.dirbsize = k * env.dirbsize + env.dirbsize := Nat.succ_mul _ _
    rw [h.pos]
    omega
  obtain ⟨buf, hread, hbuf, -⟩ := @dirRead_spec env data s hreads h.len 0 4 (by omega) (by omega)
    (by omega)
  exact ⟨buf, hread, fun i hi => by simpa using hbuf i hi, hend, by omega⟩

/-- A free region is passed. -/
theorem Here.pass (hvalid : env.Valid) (hreads : ReadsData env data) {length : Nat}
    (h : Here env data k off (.free length :: cur) rest s) :
    ∃ s', Carries s s' ∧ Here env data k (off + length) cur rest s'
      ∧ ∀ fuel, skipFree env (fuel + 1) s = skipFree env fuel s' := by
  obtain ⟨buf, hread, hbuf, hend, hoff⟩ := h.read hreads
  obtain ⟨⟨hdvd, hpos, htag, hlength⟩, hrest⟩ := h.items
  have hsize := hvalid.size
  rw [DirItem.size] at hend hoff
  have hbe : be buf 0 2 = dir2DataFreeTag := by
    rw [← htag, ← h.pos]
    exact be_congr fun i hi => by simpa using hbuf i (by omega)
  have hlen : be buf 2 2 = length := by
    rw [← hlength, ← h.pos]
    refine be_congr fun i hi => ?_
    rw [hbuf (2 + i) (by omega), Nat.add_assoc]
  have hround : roundup8 length = length := by
    obtain ⟨q, rfl⟩ := hdvd
    rw [roundup8]
    omega
  have hnext : (((s.pos + 4 : Nat) + ((length : Int) - 4)) % 2 ^ 64).toNat = s.pos + length := by
    omega
  refine ⟨{ s with
    pos := s.pos + length
    blkoff := s.blkoff + 4 + ((length : Int) - 4)
    dirbuf := buf }, ⟨rfl, rfl, rfl⟩, ?_, fun fuel => ?_⟩
  · refine ⟨h.len, ?_, ?_, ?_, ?_, fun hne => ?_, h.blocks, h.inside⟩
    · simp only [h.pos, Nat.add_assoc]
    · simp only [h.blkoff]
      omega
    · rw [← Nat.add_assoc]
      exact hrest
    · have hfits := h.fits
      rw [itemsSize, List.map_cons, List.sum_cons, DirItem.size, ← Nat.add_assoc] at hfits
      exact hfits
    · have hfull := h.full hne
      rw [itemsSize, List.map_cons, List.sum_cons, DirItem.size, ← Nat.add_assoc] at hfull
      exact hfull
  · rw [skipFree, if_neg (by rw [h.blkoff]; omega), hread, Option.bind_some]
    simp only
    rw [if_pos hbe, hlen, hround, hnext]

/-- The loop ends before an entry, with its first four bytes in `dirbuf`. -/
theorem Here.stop (hreads : ReadsData env data) {e : Dentry}
    (h : Here env data k off (.entry e :: cur) rest s) (fuel : Nat) :
    ∃ buf, skipFree env (fuel + 1) s
        = some { s with pos := s.pos + 4, blkoff := s.blkoff + 4, dirbuf := buf }
      ∧ ∀ i < 4, buf i = data (s.pos + i) := by
  obtain ⟨buf, hread, hbuf, hend, hoff⟩ := h.read hreads
  have hx := h.items.1
  have hsize := DirItem.eight_le_size hx
  have htag : be buf 0 2 ≠ dir2DataFreeTag := by
    have hbe : be buf 0 2 = be data s.pos 2 :=
      be_congr fun i hi => by simpa using hbuf i (by omega)
    rw [hbe, h.pos]
    exact entry_not_free hx
  refine ⟨buf, ?_, hbuf⟩
  rw [skipFree, if_neg (by rw [h.blkoff]; omega), hread, Option.bind_some]
  simp only
  rw [if_neg htag]

/-- The items before the cursor. -/
def ahead (cur : List DirItem) (rest : List (List DirItem)) : List DirItem := cur ++ rest.flatten

theorem Carries.trans {s₁ s₂ s₃ : DirState} (h : Carries s₁ s₂) (h' : Carries s₂ s₃) :
    Carries s₁ s₃ :=
  ⟨h'.dirpos.trans h.dirpos, h'.dirmax.trans h.dirmax, h'.forw.trans h.forw⟩

/-- The loop finds the next live entry. -/
theorem skipFree_spec (hvalid : env.Valid) (hreads : ReadsData env data) {e : Dentry}
    {es : List Dentry} (fuel : Nat) : ∀ k off cur rest s, Here env data k off cur rest s →
      live (ahead cur rest) = e :: es → (ahead cur rest).length ≤ fuel →
      ∃ k' off' cur' rest' s' buf, Carries s s' ∧ Here env data k' off' (.entry e :: cur') rest' s'
        ∧ live (ahead cur' rest') = es ∧ (ahead cur' rest').length ≤ fuel
        ∧ skipFree env fuel s
          = some { s' with pos := s'.pos + 4, blkoff := s'.blkoff + 4, dirbuf := buf }
        ∧ ∀ i < 4, buf i = data (s'.pos + i) := by
  induction fuel with
  | zero =>
    intro k off cur rest s _ hlive hfuel
    rw [List.length_eq_zero_iff.mp (Nat.le_zero.mp hfuel)] at hlive
    cases hlive
  | succ fuel ih =>
    -- within a block: a free region, or the entry
    have hinside : ∀ k off x cur rest s, Here env data k off (x :: cur) rest s →
        live (ahead (x :: cur) rest) = e :: es → (ahead (x :: cur) rest).length ≤ fuel + 1 →
        ∃ k' off' cur' rest' s' buf, Carries s s'
          ∧ Here env data k' off' (.entry e :: cur') rest' s'
          ∧ live (ahead cur' rest') = es ∧ (ahead cur' rest').length ≤ fuel + 1
          ∧ skipFree env (fuel + 1) s
            = some { s' with pos := s'.pos + 4, blkoff := s'.blkoff + 4, dirbuf := buf }
          ∧ ∀ i < 4, buf i = data (s'.pos + i) := by
      intro k off x cur rest s h hlive hfuel
      rw [ahead, List.cons_append, List.length_cons] at hfuel
      cases x with
      | entry e' =>
        have hsame : e' = e ∧ live (ahead cur rest) = es := by
          simpa [live, ahead] using hlive
        obtain ⟨rfl, hes⟩ := hsame
        obtain ⟨buf, hstop, hbuf⟩ := h.stop hreads fuel
        exact ⟨k, off, cur, rest, s, buf, ⟨rfl, rfl, rfl⟩, h, hes, by rw [ahead]; omega, hstop, hbuf⟩
      | free length =>
        have hes : live (ahead cur rest) = e :: es := by simpa [live, ahead] using hlive
        obtain ⟨s₁, hcarries, hhere, hstep⟩ := h.pass hvalid hreads
        obtain ⟨k', off', cur', rest', s', buf, hc, hh, hl, hf, heq, hb⟩ :=
          ih k (off + length) cur rest s₁ hhere hes (by rw [ahead]; omega)
        exact ⟨k', off', cur', rest', s', buf, hcarries.trans hc, hh, hl, by omega,
          (hstep fuel).trans heq, hb⟩
    intro k off cur rest s h hlive hfuel
    cases cur with
    | cons x cur => exact hinside k off x cur rest s h hlive hfuel
    | nil =>
      cases rest with
      | nil => cases hlive
      | cons items rest =>
        obtain ⟨s₁, hcarries, hhere, hne, hstep⟩ := h.wrap hvalid
        obtain ⟨x, items, rfl⟩ := List.exists_cons_of_ne_nil hne
        obtain ⟨k', off', cur', rest', s', buf, hc, hh, hl, hf, heq, hb⟩ :=
          hinside (k + 1) dataHdrSize x items rest s₁ hhere hlive hfuel
        exact ⟨k', off', cur', rest', s', buf, hcarries.trans hc, hh, hl, hf,
          (hstep fuel).trans heq, hb⟩

/-- **One entry**: `next_dentry` returns it as it is stored, and stands behind it. -/
theorem nextData_spec (hvalid : env.Valid) (hreads : ReadsData env data) {e : Dentry}
    {es : List Dentry} (h : Here env data k off cur rest s) (hlive : live (ahead cur rest) = e :: es)
    (hfuel : (ahead cur rest).length ≤ env.fuel) :
    ∃ k' off' cur' rest' s', nextData env s = some (e, s') ∧ Here env data k' off' cur' rest' s'
      ∧ live (ahead cur' rest') = es ∧ (ahead cur' rest').length ≤ env.fuel
      ∧ s'.dirpos = s.dirpos + 1 ∧ s'.dirmax = s.dirmax ∧ s'.forw = s.forw := by
  obtain ⟨k', off', cur', rest', s₁, buf₁, hcarries, h₁, hes, hleft, hskip, hbuf₁⟩ :=
    skipFree_spec hvalid hreads env.fuel k off cur rest s h hlive hfuel
  obtain ⟨⟨hname, hino, hbe, hlength, hbytes⟩, hrest⟩ := h₁.items
  obtain ⟨-, -, -, hend, hoff⟩ := h₁.read hreads
  rw [DirItem.size] at hend hoff
  have hsize : e.name.length + 11 ≤ roundup8 (e.name.length + 11)
      ∧ roundup8 (e.name.length + 11) ≤ e.name.length + 18 := by
    rw [roundup8]
    omega
  have hshort := hname.1
  -- the inode number and the length of the name
  obtain ⟨buf₂, hread₂, hbuf₂, hkeep₂⟩ := @dirRead_spec env data
    { s₁ with pos := s₁.pos + 4, blkoff := s₁.blkoff + 4, dirbuf := buf₁ } hreads h₁.len 4 5
    (by omega) (by omega) (by simp only; omega)
  have hnine : ∀ i < 9, buf₂ i = data (s₁.pos + i) := by
    intro i hi
    by_cases hlow : i < 4
    · rw [hkeep₂ i hlow]
      exact hbuf₁ i hlow
    · have hbyte := hbuf₂ (i - 4) (by omega)
      rw [Nat.add_sub_cancel' (Nat.le_of_not_lt hlow)] at hbyte
      rw [hbyte, Nat.add_assoc, Nat.add_sub_cancel' (Nat.le_of_not_lt hlow)]
  have hino₂ : be buf₂ 0 8 = e.ino := by
    rw [← hbe, ← h₁.pos]
    exact be_congr fun i hi => by simpa using hnine i (by omega)
  have hlength₂ : (buf₂ 8).toNat = e.name.length := by
    rw [hnine 8 (by omega), h₁.pos, hlength]
  -- the name and what fills the entry up
  obtain ⟨buf₃, hread₃, hbuf₃, -⟩ := @dirRead_spec env data
    { s₁ with pos := s₁.pos + 4 + 5, blkoff := s₁.blkoff + 4, dirbuf := buf₂ } hreads h₁.len 0
    (roundup8 (e.name.length + 11) - 9) (by omega) (by omega) (by simp only; omega)
  have hname₃ : nameAt buf₃ 0 e.name.length = e.name := by
    refine nameAt_eq (fun i hi => ?_) hname.2
    rw [hbuf₃ i (by omega), ← hbytes i hi, ← h₁.pos]
  have hnext : nextData env s = some (e, { s₁ with
      pos := s₁.pos + 4 + 5 + (roundup8 (e.name.length + 11) - 9)
      blkoff := s₁.blkoff + 4 + (roundup8 (e.name.length + 11) - 9 + 5 : Nat)
      dirpos := s₁.dirpos + 1
      dirbuf := Function.update buf₃ e.name.length 0 }) := by
    rw [nextData, hskip, Option.bind_some, hread₂, Option.bind_some]
    simp only
    rw [hlength₂, hread₃, Option.map_some]
    simp only
    rw [hname₃, hino₂]
  refine ⟨k', off' + roundup8 (e.name.length + 11), cur', rest', _, hnext, ?_, hes, hleft, ?_⟩
  · refine ⟨h₁.len, ?_, ?_, ?_, ?_, fun hne => ?_, h₁.blocks, h₁.inside⟩
    · simp only [h₁.pos]
      omega
    · simp only [h₁.blkoff]
      omega
    · rw [← Nat.add_assoc]
      exact hrest
    · have hfits := h₁.fits
      rw [itemsSize, List.map_cons, List.sum_cons, DirItem.size, ← Nat.add_assoc] at hfits
      exact hfits
    · have hfull := h₁.full hne
      rw [itemsSize, List.map_cons, List.sum_cons, DirItem.size, ← Nat.add_assoc] at hfull
      exact hfull
  · simp only [hcarries.dirpos, hcarries.dirmax, hcarries.forw, and_self]

/-- **The walk**: the live entries and nothing else, if the counts are right. -/
theorem restDentries_spec (hvalid : env.Valid) (hreads : ReadsData env data)
    (hfmt : env.inode.diFormat = .extents ∨ env.inode.diFormat = .btree) (calls : Nat) :
    ∀ (es : List Dentry) k off cur rest s, Here env data k off cur rest s →
      live (ahead cur rest) = es → (ahead cur rest).length ≤ env.fuel → es.length < calls →
      s.dirmax = s.dirpos + es.length → s.forw = 0 → restDentries env calls s = some es := by
  induction calls with
  | zero =>
    intro es k off cur rest s _ _ _ hcalls
    omega
  | succ calls ih =>
    intro es k off cur rest s h hlive hfuel hcalls hmax hforw
    cases es with
    | nil =>
      rw [restDentries, nextDentry, nextLeaf, if_pos (by rw [hmax]; simp), if_pos hforw]
      rfl
    | cons e es =>
      obtain ⟨k', off', cur', rest', s', hnext, h', hes, hfuel', hpos', hmax', hforw'⟩ :=
        nextData_spec hvalid hreads h hlive hfuel
      rw [List.length_cons] at hcalls hmax
      have hdentry : nextDentry env s = some (some (e, s')) := by
        rw [nextDentry, nextLeaf, if_neg (by omega), Option.bind_some, Option.elim_some]
        rcases hfmt with hfmt | hfmt
        · rw [hfmt]
          simp only
          rw [hnext, Option.map_some]
        · rw [hfmt]
          simp only
          rw [hnext, Option.map_some]
      rw [restDentries, hdentry, Option.bind_some, Option.elim_some,
        ih es k' off' cur' rest' s' h' hes hfuel' (by omega) (by omega) (by rw [hforw', hforw]),
        Option.map_some]

end Walk

/-! ## §4 The start in the data blocks -/

/-- A directory of one block, with the leaf entries and the counts at its end. -/
structure BlockForm (env : DirEnv) (data : Bytes) (items : List DirItem) (stale : Nat) : Prop where
  size : env.diSize = env.dirbsize
  magic : be data 0 4 = dir2BlockMagic
  stored : Items data dataHdrSize items
  fits : dataHdrSize + itemsSize items + blockTailSize ≤ env.dirbsize
  count : be data (env.dirbsize - blockTailSize) 4 = (live items).length + stale
  stale : be data (env.dirbsize - 4) 4 = stale

/-- What `xfs_dabread` reads at the block of the leaf: a leaf with these counts and no next one. -/
def ReadsLeaf (env : DirEnv) (count stale : Nat) : Prop :=
  ∃ leaf : Bytes, (be leaf 8 2 = dir2LeafnMagic ∨ be leaf 8 2 = dir2Leaf1Magic)
    ∧ be leaf 12 2 = count ∧ be leaf 14 2 = stale ∧ be leaf 0 4 = 0
    ∧ ∀ s, s.dablk = u32 (2 ^ 35 / 2 ^ env.geo.blklog) → xfsDabread env s
      = some { s with dirbuf := fun i => if i < 100 then leaf i else s.dirbuf i }

/-- A directory of full blocks, with the counts in a leaf. -/
structure LeafForm (env : DirEnv) (data : Bytes) (blocks : List (List DirItem)) (stale : Nat) :
    Prop where
  some_block : blocks ≠ []
  size : env.diSize = blocks.length * env.dirbsize
  magic : be data 0 4 ≠ dir2BlockMagic
  stored : Blocks data env.dirbsize 0 blocks
  leaf : ReadsLeaf env ((live blocks.flatten).length + stale) stale

section Start

variable {env : DirEnv} {data : Bytes} {s : DirState}

/-- The first call and those behind it are one walk. -/
theorem dentries_data (hfmt : env.inode.diFormat = .extents ∨ env.inode.diFormat = .btree)
    {s₁ : DirState} (hcounts : dataCounts env { s with forw := 0 } = some s₁) (calls : Nat) :
    dentries env calls s = restDentries env (calls + 1)
      { s₁ with blkoff := dataHdrSize, pos := dataHdrSize, dirpos := 0 } := by
  have hfirst : firstDentry env s = nextDentry env
      { s₁ with blkoff := dataHdrSize, pos := dataHdrSize, dirpos := 0 } := by
    rcases hfmt with hfmt | hfmt
    · rw [firstDentry, hfmt]
      simp only
      rw [hcounts, Option.bind_some]
    · rw [firstDentry, hfmt]
      simp only
      rw [hcounts, Option.bind_some]
  rw [dentries, hfirst, restDentries]

/-- The header is read. -/
theorem dataCounts_read (hreads : ReadsData env data) (hsize : dataHdrSize ≤ env.diSize) :
    ∃ buf, dirRead env 0 dataHdrSize { s with pos := 0, len := env.diSize }
        = some { s with pos := dataHdrSize, len := env.diSize, dirbuf := buf }
      ∧ be buf 0 4 = be data 0 4 := by
  obtain ⟨buf, hread, hbuf, -⟩ := @dirRead_spec env data
    { s with pos := 0, len := env.diSize } hreads rfl 0 dataHdrSize (by decide) (by decide)
    (by simpa using hsize)
  refine ⟨buf, by rw [hread]; simp, be_congr fun i hi => ?_⟩
  have hbyte := hbuf i (by simp only [dataHdrSize]; omega)
  simpa using hbyte

theorem live_length_le (items : List DirItem) : (live items).length ≤ items.length :=
  List.length_filterMap_le _ _

theorem Items.length_le {bytes : Bytes} {items : List DirItem} : ∀ {pos : Nat},
    Items bytes pos items → 8 * items.length ≤ itemsSize items := by
  induction items with
  | nil =>
    intro pos _
    exact Nat.le_refl _
  | cons x xs ih =>
    rintro pos ⟨hx, hxs⟩
    have hsize := DirItem.eight_le_size hx
    have hrest := ih hxs
    rw [itemsSize, List.map_cons, List.sum_cons, List.length_cons]
    rw [itemsSize] at hrest
    omega

/-- The counts of a single block. -/
theorem BlockForm.counts (hvalid : env.Valid) (hreads : ReadsData env data)
    {items : List DirItem} {stale : Nat} (h : BlockForm env data items stale) :
    ∃ s₁, dataCounts env s = some s₁ ∧ s₁.len = env.diSize
      ∧ s₁.dirmax = (live items).length ∧ s₁.forw = s.forw := by
  obtain ⟨m, -, hm, hpow⟩ := hvalid.shift
  have hdirb : env.dirbsize < 2 ^ 31 := hpow ▸ Nat.pow_lt_pow_right (by decide) hm
  have hfits := h.fits
  have hsize := h.size
  simp only [dataHdrSize, blockTailSize] at hfits
  obtain ⟨buf₁, hread₁, hmagic⟩ := @dataCounts_read env data s hreads (by
    simp only [dataHdrSize]
    omega)
  obtain ⟨buf₂, hread₂, hbuf₂, -⟩ := @dirRead_spec env data
    { s with pos := env.dirbsize - blockTailSize, len := env.diSize, dirbuf := buf₁ } hreads rfl 0
    blockTailSize (by decide) (by decide) (by simp only [blockTailSize]; omega)
  have hcount : be buf₂ 0 4 = (live items).length + stale := by
    rw [← h.count]
    refine be_congr fun i hi => ?_
    have hbyte := hbuf₂ i (by simp only [blockTailSize]; omega)
    simpa using hbyte
  have hstale : be buf₂ 4 4 = stale := by
    rw [← h.stale]
    refine be_congr fun i hi => ?_
    have hbyte := hbuf₂ (4 + i) (by simp only [blockTailSize]; omega)
    rw [Nat.zero_add] at hbyte
    rw [hbyte]
    congr 1
    simp only [blockTailSize]
    omega
  have hlive : s32 (sub32 (be buf₂ 0 4) (be buf₂ 4 4)) = (live items).length := by
    have hlt := be_lt buf₂ 0 4
    have hle := live_length_le items
    have hitems := h.stored.length_le
    rw [hcount] at hlt ⊢
    rw [hstale, sub32_of_le (Nat.le_add_left _ _) hlt, Nat.add_sub_cancel, s32_of_lt (by omega)]
  have hcounts : dataCounts env s = some { s with
      pos := env.dirbsize - blockTailSize + blockTailSize
      len := env.diSize
      dirmax := s32 (sub32 (be buf₂ 0 4) (be buf₂ 4 4))
      dirbuf := buf₂ } := by
    rw [dataCounts, hread₁, Option.bind_some]
    simp only
    rw [if_pos (hmagic.trans h.magic), hread₂, Option.map_some]
  exact ⟨_, hcounts, rfl, hlive, rfl⟩

/-- The counts of a leaf. -/
theorem LeafForm.counts (hreads : ReadsData env data) (hfuel : 0 < env.fuel)
    {blocks : List (List DirItem)} {stale : Nat} (h : LeafForm env data blocks stale) :
    ∃ s₁, dataCounts env s = some s₁ ∧ s₁.len = env.diSize
      ∧ s₁.dirmax = (live blocks.flatten).length ∧ s₁.forw = 0 := by
  obtain ⟨items, rest, rfl⟩ := List.exists_cons_of_ne_nil h.some_block
  obtain ⟨-, hfull, -⟩ := h.stored
  have hsize := h.size
  rw [List.length_cons, Nat.succ_mul] at hsize
  obtain ⟨buf₁, hread₁, hmagic⟩ := @dataCounts_read env data s hreads (by omega)
  obtain ⟨leaf, hkind, hcount, hstale, hforw, hdab⟩ := h.leaf
  obtain ⟨fuel, hfuel⟩ : ∃ fuel, env.fuel = fuel + 1 := ⟨env.fuel - 1, by omega⟩
  have hfield : ∀ pos n, pos + n ≤ 100 →
      be (fun i => if i < 100 then leaf i else buf₁ i) pos n = be leaf pos n := by
    intro pos n hn
    exact be_congr fun i hi => if_pos (by omega)
  have hcounts : dataCounts env s = some (leafHeader { s with
      pos := dataHdrSize
      len := env.diSize
      dablk := u32 (2 ^ 35 / 2 ^ env.geo.blklog)
      dirbuf := fun i => if i < 100 then leaf i else buf₁ i }) := by
    rw [dataCounts, hread₁, Option.bind_some]
    simp only
    rw [if_neg (fun heq => h.magic (hmagic.symm.trans heq)), hfuel, findLeaf, hdab _ rfl,
      Option.bind_some]
    simp only
    rw [if_pos]
    rw [hfield 8 2 (by decide)]
    exact hkind
  refine ⟨_, hcounts, rfl, ?_, ?_⟩
  · simp only [leafHeader]
    rw [hfield 12 2 (by decide), hfield 14 2 (by decide), hcount, hstale]
    push_cast
    omega
  · simp only [leafHeader]
    rw [hfield 0 4 (by decide), hforw]

/-- **A directory of one block** is yielded as it is stored. -/
theorem BlockForm.dentries (hvalid : env.Valid) (hreads : ReadsData env data)
    (hfmt : env.inode.diFormat = .extents ∨ env.inode.diFormat = .btree) {items : List DirItem}
    {stale calls : Nat} (h : BlockForm env data items stale) (hfuel : items.length ≤ env.fuel)
    (hcalls : (live items).length ≤ calls) :
    XFS.dentries env calls s = some (live items) := by
  obtain ⟨s₁, hcounts, hlen, hmax, hforw⟩ := @BlockForm.counts env data { s with forw := 0 } hvalid
    hreads items stale h
  have hfits := h.fits
  have hall : ahead items [] = items := List.append_nil items
  rw [dentries_data hfmt hcounts]
  refine restDentries_spec hvalid hreads hfmt (calls + 1) (live items) 0 dataHdrSize items [] _
    ⟨hlen, ?_, rfl, ?_, by omega, fun hne => absurd rfl hne, trivial, ?_⟩ ?_ ?_ (by omega) ?_ hforw
  · simp
  · rw [Nat.zero_mul, Nat.zero_add]
    exact h.stored
  · rw [h.size]
    simp
  · rw [hall]
  · rw [hall]
    exact hfuel
  · simp only [hmax, zero_add]

/-- **A directory with a leaf** is yielded as it is stored. -/
theorem LeafForm.dentries (hvalid : env.Valid) (hreads : ReadsData env data)
    (hfmt : env.inode.diFormat = .extents ∨ env.inode.diFormat = .btree)
    {blocks : List (List DirItem)} {stale calls : Nat} (h : LeafForm env data blocks stale)
    (hpos : 0 < env.fuel) (hfuel : blocks.flatten.length ≤ env.fuel)
    (hcalls : (live blocks.flatten).length ≤ calls) :
    XFS.dentries env calls s = some (live blocks.flatten) := by
  obtain ⟨s₁, hcounts, hlen, hmax, hforw⟩ := @LeafForm.counts env data { s with forw := 0 } hreads
    hpos blocks stale h
  have hsize := h.size
  obtain ⟨items, rest, rfl⟩ := List.exists_cons_of_ne_nil h.some_block
  obtain ⟨hitems, hfull, hrest⟩ := h.stored
  rw [dentries_data hfmt hcounts]
  refine restDentries_spec hvalid hreads hfmt (calls + 1) _ 0 dataHdrSize items rest _
    ⟨hlen, ?_, rfl, hitems, by omega, fun _ => hfull, hrest, ?_⟩ rfl hfuel ?_ ?_ hforw
  · simp
  · rw [hsize, List.length_cons]
    exact Nat.mul_le_mul_right _ (by omega)
  · exact Nat.lt_succ_of_le hcalls
  · simp only [hmax, zero_add]

end Start

/-! ## §5 The short form -/

/-- The entries of a short form, with inode numbers of `width` bytes. -/
def ShortItems (bytes : Bytes) (width : Nat) : Nat → List Dentry → Prop
  | _, [] => True
  | pos, e :: es => e.Valid ∧ (bytes pos).toNat = e.name.length ∧ NameBytes bytes (pos + 3) e.name
      ∧ be bytes (pos + e.name.length + 3) width = e.ino
      ∧ ShortItems bytes width (pos + e.name.length + 3 + width) es

/-- The width of the inode numbers. -/
def inoWidth (bytes : Bytes) : Nat := if bytes 1 ≠ 0 then 8 else 4

/-- A directory in the inode. -/
structure ShortForm (bytes : Bytes) (parent : Nat) (entries : List Dentry) : Prop where
  count : (bytes 0).toNat = entries.length
  parent : be bytes 2 (inoWidth bytes) = parent
  stored : ShortItems bytes (inoWidth bytes) (2 + inoWidth bytes) entries

section Short

variable {env : DirEnv} {s : DirState}

theorem ShortItems.congr {f g : Bytes} {width : Nat} {es : List Dentry} : ∀ {pos : Nat},
    (∀ a, pos ≤ a → f a = g a) → ShortItems f width pos es → ShortItems g width pos es := by
  induction es with
  | nil =>
    intro pos _ _
    trivial
  | cons e es ih =>
    rintro pos hsame ⟨hvalid, hlength, hname, hino, hrest⟩
    refine ⟨hvalid, ?_, fun i hi => ?_, ?_, ih (fun a ha => hsame a (by omega)) hrest⟩
    · rw [← hsame pos (Nat.le_refl _), hlength]
    · rw [← hsame _ (by omega)]
      exact hname i hi
    · rw [← hino]
      exact be_congr fun i hi => (hsame _ (by omega)).symm

theorem nextDentry_short (hfmt : env.inode.diFormat = .localFmt) (hlt : s.dirpos < s.dirmax) :
    nextDentry env s = some (some (nextShort s)) := by
  rw [nextDentry, nextLeaf, if_neg (by omega), Option.bind_some, Option.elim_some, hfmt]

/-- The entries of a short form. The byte that ends a name is the first of its inode number,
which has been read. -/
theorem restDentries_short (hfmt : env.inode.diFormat = .localFmt) (width calls : Nat) :
    ∀ (es : List Dentry) (s : DirState), width = 4 ∨ width = 8 → s.i8param = 8 - width →
      ShortItems s.diC width s.sfe es → 0 ≤ s.dirpos → s.dirmax = s.dirpos + es.length →
      s.forw = 0 → es.length < calls → restDentries env calls s = some es := by
  induction calls with
  | zero =>
    intro es s _ _ _ _ _ _ hcalls
    omega
  | succ calls ih =>
    intro es s hwidth hparam hitems hpos hmax hforw hcalls
    cases es with
    | nil =>
      rw [restDentries, nextDentry, nextLeaf, if_pos (by rw [hmax]; simp), if_pos hforw]
      rfl
    | cons e es =>
      obtain ⟨hvalid, hlength, hname, hino, hrest⟩ := hitems
      rw [List.length_cons] at hmax hcalls
      have hino' : sfIno s s.sfe e.name.length = e.ino := by
        rw [sfIno, hparam, ← hino]
        rcases hwidth with rfl | rfl
        · rfl
        · rfl
      have hstep : nextShort s = (e, { s with
          dirpos := s.dirpos + 1
          sfe := s.sfe + e.name.length + 11 - s.i8param
          diC := Function.update s.diC (s.sfe + 3 + e.name.length) 0 }) := by
        rw [nextShort, if_neg (by omega), if_neg (by omega)]
        simp only
        rw [hlength, nameAt_eq hname hvalid.2, hino']
      have hnext : s.sfe + e.name.length + 11 - s.i8param = s.sfe + e.name.length + 3 + width := by
        rw [hparam]
        omega
      have hrest' : ShortItems (Function.update s.diC (s.sfe + 3 + e.name.length) 0) width
          (s.sfe + e.name.length + 3 + width) es := by
        refine hrest.congr fun a ha => ?_
        rw [Function.update_of_ne (by omega)]
      have hrec := ih es { s with
        dirpos := s.dirpos + 1
        sfe := s.sfe + e.name.length + 3 + width
        diC := Function.update s.diC (s.sfe + 3 + e.name.length) 0 } hwidth hparam hrest'
        (by simp only; omega) (by simp only; omega) hforw (by omega)
      rw [restDentries, nextDentry_short hfmt (by omega), hstep, Option.bind_some,
        Option.elim_some, hnext]
      simp only
      rw [hrec, Option.map_some]

/-- `"."` and `".."`. -/
def dot : List UInt8 := [46]
def dotdot : List UInt8 := [46, 46]

/-- **A directory in short form**: every entry is yielded as it is stored, but the second one,
for the parent directory, has an empty name. -/
theorem ShortForm.dentries (hfmt : env.inode.diFormat = .localFmt) {parent : Nat}
    {entries : List Dentry} (h : ShortForm s.diC parent entries) {calls : Nat}
    (hcalls : entries.length + 2 ≤ calls) :
    XFS.dentries env calls s = some (⟨dot, 0⟩ :: ⟨[], parent⟩ :: entries) := by
  obtain ⟨calls, rfl⟩ : ∃ n, calls = n + 1 := ⟨calls - 1, by omega⟩
  have hwidth : inoWidth s.diC = 4 ∨ inoWidth s.diC = 8 := by
    rw [inoWidth]
    split
    · exact .inr rfl
    · exact .inl rfl
  have hparam : (if s.diC 1 ≠ 0 then 0 else 4) = 8 - inoWidth s.diC := by
    rw [inoWidth]
    split
    · rfl
    · rfl
  have hcount : ((s.diC 0).toNat : Int) = entries.length := by rw [h.count]
  have hparent : (if 8 - inoWidth s.diC = 0 then be s.diC 2 8 else be s.diC 2 4) = parent := by
    rw [← h.parent]
    rcases hwidth with hw | hw
    · rw [hw]
      rfl
    · rw [hw]
      rfl
  have hfirst : firstDentry env s = some (some (⟨dot, 0⟩, { s with
      forw := 0
      dirmax := (s.diC 0).toNat
      i8param := 8 - inoWidth s.diC
      dirpos := -1 })) := by
    rw [firstDentry, hfmt]
    simp only
    rw [nextDentry_short hfmt (by simp only; omega), nextShort, if_pos rfl, hparam]
    rfl
  rw [XFS.dentries, hfirst, Option.bind_some, Option.elim_some, restDentries,
    nextDentry_short hfmt (by simp only; omega), nextShort, if_neg (by simp), if_pos rfl,
    Option.bind_some, Option.elim_some]
  have hsfe : 10 - (8 - inoWidth s.diC) = 2 + inoWidth s.diC := by omega
  simp only [sfParentIno, hparent, hsfe]
  rw [restDentries_short hfmt (inoWidth s.diC) calls entries _ hwidth rfl h.stored (by simp)
    (by simp only [hcount]; omega) rfl (by omega)]
  rfl

end Short

/-! ## §6 All formats -/

/-- The formats of a directory. -/
inductive DirFormat where
  | short
  | block
  | leaf
  deriving DecidableEq, Repr

/-- The entries of a directory in data blocks, with enough fuel to pass the items. -/
structure InBlocks (env : DirEnv) (data : Bytes) (items : List DirItem) (parent : Nat)
    (entries : List Dentry) : Prop where
  format : env.inode.diFormat = .extents ∨ env.inode.diFormat = .btree
  valid : env.Valid
  reads : ReadsData env data
  fuel : items.length < env.fuel
  live : ∃ self, live items = ⟨dot, self⟩ :: ⟨dotdot, parent⟩ :: entries

/-- The inode holds a directory of this format, with this parent directory and these entries. -/
inductive StoredDir (env : DirEnv) (s : DirState) : DirFormat → Nat → List Dentry → Prop where
  | short {parent : Nat} {entries : List Dentry} (format : env.inode.diFormat = .localFmt)
      (stored : ShortForm s.diC parent entries) : StoredDir env s .short parent entries
  | block {data : Bytes} {items : List DirItem} {stale parent : Nat} {entries : List Dentry}
      (dir : InBlocks env data items parent entries) (stored : BlockForm env data items stale) :
      StoredDir env s .block parent entries
  | leaf {data : Bytes} {blocks : List (List DirItem)} {stale parent : Nat}
      {entries : List Dentry} (dir : InBlocks env data blocks.flatten parent entries)
      (stored : LeafForm env data blocks stale) : StoredDir env s .leaf parent entries

/-- The iteration yields `.`, `..`, every entry once and as it is stored, and then NULL. -/
def Yields (env : DirEnv) (s : DirState) (calls parent : Nat) (entries : List Dentry) : Prop :=
  ∃ self, dentries env calls s = some (⟨dot, self⟩ :: ⟨dotdot, parent⟩ :: entries)

/-! ## §7 Directories in extents format -/

section Extents

variable {env : DirEnv} {es : List Xad}

/-- The data blocks lie in the first run of extents: reads deliver them. -/
theorem readsData_of_readable (hst : Stores env.inode es) (hes : ExtentMap env.geo es)
    (hsize : env.diSize ≤ 2 ^ 63) (hfuel : es.length < env.fuel)
    (h : Readable env.geo es env.diSize) : ReadsData env (fileByte env.geo es env.dev) := by
  intro pos n _ hint hin
  obtain ⟨hright, hzero⟩ := readExtents_right hes hsize hin hint h env.dev
  have hlenght := hright.lenght_eq
  have hle := hright.pos_le
  have hpos := hright.pos_eq
  have hend : (readExtents env.geo env.dev (pos + n) es (readStart pos (pos + n))).pos = pos + n := by
    omega
  have hread := @xfsReadData_eq env.geo env.inode es env.dev env.diSize pos n hst hsize hin
    env.fuel hfuel freshCursor
  simp only [hend] at hread
  refine ⟨_, _, hread, fun i hi => ?_⟩
  rw [hright.buf_eq, if_pos (by omega)]

/-- `xfs_dabread` finds the extent of the block. -/
theorem dabFind_eq (hfmt : env.inode.diFormat = .extents) (dablk : Nat) (es : List Xad) :
    ∀ fuel (c : Cursor), es.length < fuel → c.nextents = es.length →
      (∀ i (h : i < es.length), Records env.inode.diU (c.xt + 16 * i) es[i]) →
      dabFind env dablk fuel c = some (es.find? fun e => isinxt dablk e.offset e.len) := by
  induction es with
  | nil =>
    intro fuel c hfuel hc _
    obtain ⟨fuel, rfl⟩ : ∃ m, fuel = m + 1 := ⟨fuel - 1, by omega⟩
    have hc : c.nextents = 0 := hc
    simp [dabFind, nextExtent, hfmt, hc]
  | cons e es ih =>
    intro fuel c hfuel hc hrec
    obtain ⟨fuel, rfl⟩ : ∃ m, fuel = m + 1 := ⟨fuel - 1, by omega⟩
    simp only [List.length_cons] at hfuel hc hrec
    have hhead : xad (bmbtRec32 env.inode.diU c.xt) = e :=
      xad_of_records (by simpa using hrec 0 (by omega))
    have hnext : nextExtent env.geo env.inode env.dev c
        = (some e, { c with xt := c.xt + 16, nextents := es.length }) := by
      have hne : c.nextents ≠ 0 := by omega
      have hsub : c.nextents - 1 = es.length := by omega
      simp [nextExtent, hfmt, hne, hhead, hsub]
    have htail := ih fuel { c with xt := c.xt + 16, nextents := es.length } (by omega) rfl
      fun i hi => by
        have h := hrec (i + 1) (by omega)
        simp only [List.getElem_cons_succ] at h
        rwa [Nat.mul_add, Nat.mul_one, Nat.add_comm (16 * i) 16, ← Nat.add_assoc] at h
    rw [dabFind, hnext]
    simp only
    rw [List.find?_cons]
    cases isinxt dablk e.offset e.len with
    | true => rfl
    | false => exact htail

/-- The leaf lies in the first extent that has its block. -/
theorem readsLeaf_of_extents (hst : Stores env.inode es) (hfuel : es.length < env.fuel) {e : Xad}
    (hfind : es.find? (fun e => isinxt (u32 (2 ^ 35 / 2 ^ env.geo.blklog)) e.offset e.len) = some e)
    {leaf : Bytes} {count stale : Nat}
    (hleaf : leaf = fun i => env.dev (diskPos (fsb2daddr env.geo
      (sub64 (u64 (e.start + u32 (2 ^ 35 / 2 ^ env.geo.blklog))) e.offset)) 0 + i))
    (hkind : be leaf 8 2 = dir2LeafnMagic ∨ be leaf 8 2 = dir2Leaf1Magic)
    (hcount : be leaf 12 2 = count) (hstale : be leaf 14 2 = stale) (hforw : be leaf 0 4 = 0) :
    ReadsLeaf env count stale := by
  obtain ⟨hfmt, hnext, hrec⟩ := hst
  refine ⟨leaf, hkind, hcount, hstale, hforw, fun s hs => ?_⟩
  have hinit : initExtents env.geo env.inode env.dev env.fuel freshCursor
      = some { freshCursor with nextents := es.length, xt := 0 } := by
    rw [initExtents, hfmt]
    simp only
    rw [hnext]
  rw [xfsDabread, hinit, Option.bind_some, hs, dabFind_eq hfmt _ es env.fuel _ hfuel rfl
    (fun i hi => by simpa using hrec i hi), hfind, Option.map_some, Option.elim_some, dabLoad, hs,
    hleaf]

end Extents

/-! ## §8 The iteration -/

/-- The cursors before a directory is read. -/
def freshDir (diC : Bytes) : DirState := ⟨0, 0, 0, 0, 0, 0, 0, 0, 0, diC, fun _ => 0⟩

/-- Block 7: the header, two entries, a free region of 16 bytes, an entry, and the counts. -/
def blockDirDevice : Bytes := fun pos =>
  if pos < 28672 then 0
  else if pos < 32760 then
    [0x58, 0x44, 0x32, 0x42, 0, 0, 0, 0, 0, 0, 0, 0, 0, 0, 0, 0,
      0, 0, 0, 0, 0, 0, 0, 0x80, 1, 0x2e, 0, 0, 0, 0, 0, 0x10,
      0, 0, 0, 0, 0, 0, 0, 0x80, 2, 0x2e, 0x2e, 0, 0, 0, 0, 0x20,
      0xff, 0xff, 0, 0x10, 0, 0, 0, 0, 0, 0, 0, 0, 0, 0, 0, 0x30,
      0, 0, 0, 0, 0, 0, 0, 0x83, 2, 0x61, 0x62, 0, 0, 0, 0, 0x40].getD (pos - 28672) 0
  else [0, 0, 0, 4, 0, 0, 0, 1].getD (pos - 32760) 0

def blockDirExtents : List Xad := [⟨0, 7, 1⟩]

def blockDirEnv : DirEnv where
  geo := sampleGeometry
  dirbsize := 4096
  inode := extentsInode 1 [0, 0, 0, 0, 0, 0, 0, 0, 0, 0, 0, 0, 0, 0xe0, 0, 1]
  diSize := 4096
  dev := blockDirDevice
  fuel := 5

def blockDirItems : List DirItem :=
  [.entry ⟨dot, 0x80⟩, .entry ⟨dotdot, 0x80⟩, .free 16, .entry ⟨[0x61, 0x62], 0x83⟩]

theorem blockDir_stores : Stores blockDirEnv.inode blockDirExtents := by
  have hrecord : Records blockDirEnv.inode.diU 0 ⟨0, 7, 1⟩ := ⟨by decide, 0, by decide, by decide⟩
  refine ⟨rfl, rfl, fun i hi => ?_⟩
  have hzero : i = 0 := by simpa [blockDirExtents] using hi
  subst hzero
  exact hrecord

theorem blockDir_reads : ReadsData blockDirEnv
    (fileByte blockDirEnv.geo blockDirExtents blockDirEnv.dev) :=
  readsData_of_readable blockDir_stores
    ⟨⟨by decide, by decide, trivial⟩, by decide, by decide⟩ (by decide) (by decide)
    ⟨.inl (by decide), by decide⟩

theorem blockDir_stored (diC : Bytes) :
    StoredDir blockDirEnv (freshDir diC) .block 0x80 [⟨[0x61, 0x62], 0x83⟩] :=
  @StoredDir.block _ _ _ blockDirItems 1 _ _
    ⟨.inl rfl, ⟨⟨12, by decide, by decide, rfl⟩, by decide⟩, blockDir_reads, by decide, 0x80, rfl⟩
    ⟨rfl, by decide +kernel, by decide +kernel, by decide +kernel, by decide +kernel,
      by decide +kernel⟩

/-- An inode with the parent directory 128 and the entry `ab`, 131. -/
def shortDirBytes : Bytes := fun i =>
  [1, 0, 0, 0, 0, 0x80, 2, 0, 0, 0x61, 0x62, 0, 0, 0, 0x83].getD i 0

def shortDirEnv : DirEnv := { blockDirEnv with inode := ⟨.localFmt, 0, shortDirBytes⟩ }

theorem shortDir_stored :
    StoredDir shortDirEnv (freshDir shortDirBytes) .short 0x80 [⟨[0x61, 0x62], 0x83⟩] :=
  .short rfl ⟨by decide, by decide, ⟨by decide, by decide⟩, by decide,
    by unfold NameBytes; decide, by decide, trivial⟩

end LiloBoot.XFS
