/-
LiloBoot.DevTree.SpaceTheorems — what `ft_make_space` does to a tree.

`Kept` relates two contexts when the structure block and the strings have moved
as they were, with the anchor, the insertion point and the node pointers;
`Moved` when a stretch of the structure block has been taken out or put in on
the way. Every path through `ft_make_space` for the structure block ends in a
`Moved`. For the strings this holds as long as nothing has to be reallocated.
-/
import LiloBoot.DevTree.FlatTreeTheorems

namespace LiloBoot.DevTree

open LiloBoot.Memory

/-! ## §1 Contexts -/

/-- The node pointers, as offsets in the structure block. -/
def FtCxt.Nodes (cxt : FtCxt) (offs : List Nat) : Prop :=
  cxt.nodeTbl = offs.map ((cxt.rgn .struct).start + ·)

/-- The anchor points into the strings or behind them, and the last string is terminated. -/
structure StringsOk (cxt : FtCxt) : Prop where
  space : (cxt.rgn .strings).stop < 2 ^ 32
  anchorLow : (cxt.rgn .strings).start ≤ cxt.strAnchor
  anchorHigh : cxt.strAnchor ≤ (cxt.rgn .strings).stop
  terminated : (cxt.rgn .strings).size = 0 ∨ cxt.mem ((cxt.rgn .strings).stop - 1) = 0

/-- A context as `ft_reorder` leaves it: the structure block lies behind the reserve map, and the
strings end the blob. -/
structure Laid (cxt : FtCxt) : Prop where
  ordered : cxt.isordered = true
  rsvmap : cxt.bph + hdrSize ≤ (cxt.rgn .rsvmap).start
  struct : (cxt.rgn .rsvmap).stop = (cxt.rgn .struct).start
  strings : (cxt.rgn .struct).stop ≤ (cxt.rgn .strings).start
  stop : (cxt.rgn .strings).stop = cxt.bph + cxt.maxSize

/-- Both contexts hold the same; `n` bytes have been put before the strings. -/
structure Kept (cxt cxt' : FtCxt) (n : Nat) : Prop where
  struct : Carried cxt.mem (cxt.rgn .struct).start cxt'.mem (cxt'.rgn .struct).start
    (cxt.rgn .struct).size
  structSize : (cxt'.rgn .struct).size = (cxt.rgn .struct).size
  strings : Carried cxt.mem (cxt.rgn .strings).start cxt'.mem ((cxt'.rgn .strings).start + n)
    (cxt.rgn .strings).size
  stringsSize : (cxt'.rgn .strings).size = (cxt.rgn .strings).size + n
  anchor : cxt'.strAnchor + (cxt.rgn .strings).start
    = cxt.strAnchor + ((cxt'.rgn .strings).start + n)
  space : (cxt'.rgn .strings).stop < 2 ^ 32
  nodes : ∀ offs, cxt.Nodes offs → (∀ off ∈ offs, off < (cxt.rgn .struct).size) → cxt'.Nodes offs
  nodeMax : cxt'.nodeMax = cxt.nodeMax

/-- The insertion point has moved with the structure block. -/
def FollowsP (cxt cxt' : FtCxt) : Prop :=
  (cxt.rgn .struct).start ≤ cxt.p → cxt.p ≤ (cxt.rgn .struct).stop →
    cxt'.p + (cxt.rgn .struct).start = cxt.p + (cxt'.rgn .struct).start

/-- Where an offset goes when `r` bytes behind `k` are replaced by `n`. -/
def moveOff (k r n off : Nat) : Nat := if off < k then off else off - r + n

/-- The structure block with `r` bytes behind offset `k` taken out and room for `n` put in. -/
structure Moved (cxt cxt' : FtCxt) (k r n : Nat) : Prop where
  front : Carried cxt.mem (cxt.rgn .struct).start cxt'.mem (cxt'.rgn .struct).start k
  back : Carried cxt.mem ((cxt.rgn .struct).start + (k + r)) cxt'.mem
    ((cxt'.rgn .struct).start + (k + n)) ((cxt.rgn .struct).size - (k + r))
  size : (cxt'.rgn .struct).size + r = (cxt.rgn .struct).size + n
  strings : Carried cxt.mem (cxt.rgn .strings).start cxt'.mem (cxt'.rgn .strings).start
    (cxt.rgn .strings).size
  stringsSize : (cxt'.rgn .strings).size = (cxt.rgn .strings).size
  anchor : cxt'.strAnchor + (cxt.rgn .strings).start
    = cxt.strAnchor + (cxt'.rgn .strings).start
  space : (cxt'.rgn .strings).stop < 2 ^ 32
  nodes : ∀ offs, cxt.Nodes offs →
    (∀ off ∈ offs, off < (cxt.rgn .struct).size ∧ (off < k ∨ k + r ≤ off)) →
    cxt'.Nodes (offs.map (moveOff k r n))
  nodeMax : cxt'.nodeMax = cxt.nodeMax

variable {cxt cxt' cxt'' : FtCxt} {k r n : Nat}

theorem Kept.trans {m : Nat} (h : Kept cxt cxt' n) (h' : Kept cxt' cxt'' m) :
    Kept cxt cxt'' (m + n) := by
  have hsize := h.structSize
  refine ⟨h.struct.trans (by rw [← hsize]; exact h'.struct), h'.structSize.trans hsize, ?_, ?_, ?_,
    h'.space, fun offs hoffs hlt => h'.nodes offs (h.nodes offs hoffs hlt) (by rwa [hsize]),
    h'.nodeMax.trans h.nodeMax⟩
  · rw [← Nat.add_assoc]
    exact h.strings.trans (h'.strings.part n (by rw [h.stringsSize]; omega))
  · rw [h'.stringsSize, h.stringsSize]
    omega
  · have hanchor := h.anchor
    have hanchor' := h'.anchor
    omega

theorem Kept.moved (h : Kept cxt cxt' 0) (h' : Moved cxt' cxt'' k r n)
    (hk : k + r ≤ (cxt.rgn .struct).size) : Moved cxt cxt'' k r n := by
  have hsize := h.structSize
  have hstrings := h.strings
  have hstringsSize := h.stringsSize
  rw [Nat.add_zero] at hstrings hstringsSize
  refine ⟨(h.struct.take (by omega)).trans h'.front, ?_, ?_, ?_, h'.stringsSize.trans hstringsSize,
    ?_, h'.space, ?_, h'.nodeMax.trans h.nodeMax⟩
  · have hback := h'.back
    rw [hsize] at hback
    exact (h.struct.part (k + r) (by omega)).trans hback
  · rw [h'.size, hsize]
  · exact hstrings.trans (by rw [← hstringsSize]; exact h'.strings)
  · have hanchor := h.anchor
    have hanchor' := h'.anchor
    omega
  · intro offs hoffs hlt
    refine h'.nodes offs (h.nodes offs hoffs fun off hoff => (hlt off hoff).1) ?_
    rw [hsize]
    exact hlt

/-- The strings as `NameAt` sees them. -/
theorem Kept.stringsKept (h : Kept cxt cxt' n) : StringsKept cxt cxt' n := by
  have hanchor := h.anchor
  refine ⟨h.strings, by rw [h.stringsSize, Nat.add_comm], Nat.le_of_lt h.space, ?_⟩
  omega

theorem Moved.stringsKept (h : Moved cxt cxt' k r n) : StringsKept cxt cxt' 0 := by
  have hanchor := h.anchor
  refine ⟨h.strings, by rw [h.stringsSize, Nat.zero_add], Nat.le_of_lt h.space, ?_⟩
  omega

/-- A whole string area that moves is as well formed as before. -/
theorem StringsOk.carried (hok : StringsOk cxt)
    (hbytes : Carried cxt.mem (cxt.rgn .strings).start cxt'.mem ((cxt'.rgn .strings).start + n)
      (cxt.rgn .strings).size)
    (hsize : (cxt'.rgn .strings).size = (cxt.rgn .strings).size + n)
    (hanchor : cxt'.strAnchor + (cxt.rgn .strings).start
      = cxt.strAnchor + ((cxt'.rgn .strings).start + n))
    (hspace : (cxt'.rgn .strings).stop < 2 ^ 32)
    (hlast : (cxt.rgn .strings).size ≠ 0 ∨ n = 0
      ∨ cxt'.mem ((cxt'.rgn .strings).stop - 1) = 0) : StringsOk cxt' := by
  obtain ⟨-, hlow, hhigh, hterminated⟩ := hok
  simp only [FtRegion.stop] at *
  refine ⟨hspace, by omega, by simp only [FtRegion.stop]; omega, ?_⟩
  rcases Nat.eq_zero_or_pos (cxt.rgn .strings).size with hzero | hpos
  · rcases hlast with hne | rfl | hlast
    · exact absurd hzero hne
    · exact Or.inl (by omega)
    · exact Or.inr hlast
  · right
    have hold := hterminated.resolve_left (Nat.pos_iff_ne_zero.mp hpos)
    have hat := hbytes ((cxt.rgn .strings).size - 1) (by omega)
    simp only [FtRegion.stop]
    rw [show (cxt'.rgn .strings).start + (cxt'.rgn .strings).size - 1
      = (cxt'.rgn .strings).start + n + ((cxt.rgn .strings).size - 1) by omega, hat,
      show (cxt.rgn .strings).start + ((cxt.rgn .strings).size - 1)
      = (cxt.rgn .strings).start + (cxt.rgn .strings).size - 1 by omega]
    exact hold

theorem Kept.stringsOk (h : Kept cxt cxt' 0) (hok : StringsOk cxt) : StringsOk cxt' :=
  hok.carried h.strings h.stringsSize h.anchor h.space (Or.inr (Or.inl rfl))

theorem Moved.stringsOk (h : Moved cxt cxt' k r n) (hok : StringsOk cxt) : StringsOk cxt' :=
  @StringsOk.carried cxt cxt' 0 hok h.strings h.stringsSize h.anchor h.space (Or.inr (Or.inl rfl))

/-! ## §2 Node pointers -/

theorem updateAfter_nodes {offs : List Nat} {shift : Int} (hoffs : cxt.Nodes offs)
    (haddr : ∀ off ∈ offs, k ≤ off → 0 ≤ ((cxt.rgn .struct).start + off : Nat) + shift
      ∧ ((cxt.rgn .struct).start + off : Nat) + shift < 2 ^ 32) :
    (ftNodeUpdateAfter ((cxt.rgn .struct).start + k) shift cxt).nodeTbl
      = offs.map fun off => if off < k then (cxt.rgn .struct).start + off
          else (((cxt.rgn .struct).start + off : Nat) + shift).toNat := by
  have hoffs : cxt.nodeTbl = offs.map ((cxt.rgn .struct).start + ·) := hoffs
  rw [ftNodeUpdateAfter]
  split
  · rename_i hzero
    rw [hoffs, hzero]
    refine List.map_congr_left fun off _ => ?_
    split
    · rfl
    · omega
  · show cxt.nodeTbl.map _ = _
    rw [hoffs, List.map_map]
    refine List.map_congr_left fun off hoff => ?_
    simp only [Function.comp_apply, Nat.add_le_add_iff_left]
    by_cases hlt : off < k
    · rw [if_neg (Nat.not_le_of_lt hlt), if_pos hlt]
    · obtain ⟨h0, h32⟩ := haddr off hoff (Nat.le_of_not_lt hlt)
      rw [if_pos (Nat.le_of_not_lt hlt), if_neg hlt, addInt_of_nonneg h0 h32]

theorem updateAfter_fields (addr : Nat) (shift : Int) (cxt : FtCxt) :
    ftNodeUpdateAfter addr shift cxt
      = { cxt with nodeTbl := (ftNodeUpdateAfter addr shift cxt).nodeTbl } := by
  rw [ftNodeUpdateAfter]
  split
  · rfl
  · rfl

/-! ## §3 Reallocation -/

/-- No sum or difference of a pointer into the block and a length up to `need` leaves the address
space. -/
def Roomy (p size need : Nat) : Prop := need < p ∧ p + size + need < 2 ^ 32

/-- The addresses of the header and of the regions. -/
def FtCxt.Uses (cxt : FtCxt) (a : Nat) : Prop :=
  (cxt.bph ≤ a ∧ a < cxt.bph + bphSize) ∨ ∃ r, (cxt.rgn r).start ≤ a ∧ a < (cxt.rgn r).stop

/-- Every `realloc` up to 2 GiB succeeds: a fresh block beside what is used, or a block with the
old content. -/
structure GoodRealloc (realloc : Realloc) (used : Nat → Prop) (need : Nat) : Prop where
  fresh : ∀ mem size, size < 2 ^ 31 → ∃ p mem', realloc mem 0 0 size = some (p, mem')
    ∧ Roomy p size need ∧ (∀ a, a < p ∨ p + size ≤ a → mem' a = mem a)
    ∧ ∀ a, used a → a < p ∨ p + size ≤ a
  moved : ∀ mem p old size, 0 < p → old ≤ size → size < 2 ^ 31 →
    ∃ p' mem', realloc mem p old size = some (p', mem') ∧ Roomy p' size need
      ∧ Carried mem p mem' p' old

variable {realloc : Realloc} {need : Nat} {used : Nat → Prop}

theorem align_eight {x : Nat} (h : x + 7 < 2 ^ 32) : x ≤ align x 8 ∧ align x 8 ≤ x + 7 := by
  rw [align, u32_of_lt h]
  omega

/-- What `ft_reorder` needs of the context: the regions lie in the address space. -/
structure Unordered (cxt : FtCxt) : Prop where
  struct : (cxt.rgn .struct).stop < 2 ^ 32
  strings : StringsOk cxt

/-- The bytes that the regions of a context take. -/
def FtCxt.bytes (cxt : FtCxt) : Nat :=
  (cxt.rgn .rsvmap).size + (cxt.rgn .struct).size + (cxt.rgn .strings).size

/-- The size that `ft_reorder` asks for. -/
def FtCxt.reorderSize (cxt : FtCxt) (nextra : Int) : Nat :=
  align (if nextra > 0 then
      hdrSize + expandIncr + (cxt.rgn .rsvmap).size + (cxt.rgn .struct).size
        + (cxt.rgn .strings).size + nextra.toNat
    else hdrSize + expandIncr + (cxt.rgn .rsvmap).size + (cxt.rgn .struct).size
        + (cxt.rgn .strings).size) 8

theorem reorderSize_bounds {nextra : Int} (hfits : cxt.bytes + nextra.toNat + 1071 < 2 ^ 31) :
    cxt.bytes + nextra.toNat + 1064 ≤ cxt.reorderSize nextra
      ∧ cxt.reorderSize nextra ≤ cxt.bytes + nextra.toNat + 1071 := by
  have hsum : (if nextra > 0 then
      hdrSize + expandIncr + (cxt.rgn .rsvmap).size + (cxt.rgn .struct).size
        + (cxt.rgn .strings).size + nextra.toNat
    else hdrSize + expandIncr + (cxt.rgn .rsvmap).size + (cxt.rgn .struct).size
        + (cxt.rgn .strings).size) = cxt.bytes + nextra.toNat + 1064 := by
    rw [hdrSize, expandIncr, FtCxt.bytes]
    split <;> omega
  rw [FtCxt.reorderSize, hsum]
  have halign := @align_eight (cxt.bytes + nextra.toNat + 1064) (by omega)
  omega

/-- The memory behind the copies of `ft_reorder` into the block at `p`. -/
def reordered (cxt : FtCxt) (mem : Bytes) (p tot : Nat) : Bytes :=
  memmove (memmove (memmove (memmove mem p cxt.bph bphSize)
    (p + hdrSize) (cxt.rgn .rsvmap).start (cxt.rgn .rsvmap).size)
    (p + hdrSize + (cxt.rgn .rsvmap).size) (cxt.rgn .struct).start (cxt.rgn .struct).size)
    (p + tot - (cxt.rgn .strings).size) (cxt.rgn .strings).start (cxt.rgn .strings).size

/-- The regions arrive in the new block as they were. -/
theorem reordered_carried {mem : Bytes} {p tot : Nat} (htot : cxt.bytes + 40 ≤ tot)
    (hframe : ∀ a, a < p ∨ p + tot ≤ a → mem a = cxt.mem a)
    (hused : ∀ a, cxt.Uses a → a < p ∨ p + tot ≤ a) :
    Carried cxt.mem (cxt.rgn .struct).start (reordered cxt mem p tot)
        (p + hdrSize + (cxt.rgn .rsvmap).size) (cxt.rgn .struct).size
      ∧ Carried cxt.mem (cxt.rgn .strings).start (reordered cxt mem p tot)
        (p + tot - (cxt.rgn .strings).size) (cxt.rgn .strings).size := by
  rw [FtCxt.bytes] at htot
  -- a region is read as it was while the block is filled
  have hsource : ∀ r i, i < (cxt.rgn r).size → (cxt.rgn r).start + i < p
      ∨ p + tot ≤ (cxt.rgn r).start + i := fun r i hi =>
    hused _ (Or.inr ⟨r, Nat.le_add_right _ _, Nat.add_lt_add_left hi _⟩)
  have hold : ∀ (mem' : Bytes) (dst src n : Nat), (∀ a, a < p ∨ p + tot ≤ a → mem' a = cxt.mem a) →
      p ≤ dst → dst + n ≤ p + tot →
      ∀ a, a < p ∨ p + tot ≤ a → memmove mem' dst src n a = cxt.mem a := by
    intro mem' dst src n hmem hlow hhigh a ha
    rw [memmove_out (by omega)]
    exact hmem a ha
  have h₁ := hold mem p cxt.bph bphSize hframe (Nat.le_refl p) (by rw [bphSize]; omega)
  have h₂ := hold _ (p + hdrSize) (cxt.rgn .rsvmap).start (cxt.rgn .rsvmap).size h₁
    (by rw [hdrSize]; omega) (by rw [hdrSize]; omega)
  have h₃ := hold _ (p + hdrSize + (cxt.rgn .rsvmap).size) (cxt.rgn .struct).start
    (cxt.rgn .struct).size h₂ (by rw [hdrSize]; omega) (by rw [hdrSize]; omega)
  constructor
  · refine Carried.trans (fun i hi => ?_)
      ((memmove_carried _ _ _ _).trans (carried_memmove (Or.inl ?_)))
    · exact h₂ _ (hsource .struct i hi)
    · rw [hdrSize]
      omega
  · refine Carried.trans (fun i hi => ?_) (memmove_carried _ _ _ _)
    exact h₃ _ (hsource .strings i hi)

/-- **`ft_reorder`** keeps everything, puts it in order, and leaves the room that is asked for
and `EXPAND_INCR` between the structure block and the strings. -/
theorem ftReorder_spec {nextra : Int} (hgood : GoodRealloc realloc cxt.Uses need)
    (hcxt : Unordered cxt) (hfits : cxt.bytes + nextra.toNat + 1071 < 2 ^ 31) :
    ∃ cxt', ftReorder realloc nextra cxt = some cxt' ∧ Kept cxt cxt' 0 ∧ FollowsP cxt cxt'
      ∧ Laid cxt' ∧ Roomy cxt'.bph cxt'.maxSize need
      ∧ cxt'.maxSize ≤ cxt.bytes + nextra.toNat + 1071
      ∧ (cxt'.rgn .struct).stop + 1024 + nextra.toNat ≤ (cxt'.rgn .strings).start := by
  obtain ⟨hlow, hhigh⟩ := reorderSize_bounds hfits
  obtain ⟨p, mem, hrealloc, hroomy, hframe, hused⟩ :=
    hgood.fresh cxt.mem (cxt.reorderSize nextra) (by omega)
  obtain ⟨tot, htot⟩ : ∃ tot, tot = cxt.reorderSize nextra := ⟨_, rfl⟩
  rw [← htot] at hlow hhigh hrealloc hroomy hframe hused
  obtain ⟨hstruct, hstrings⟩ := reordered_carried (by omega) hframe hused
  obtain ⟨shift, hshift⟩ : ∃ shift : Int, shift
      = ((p + hdrSize + (cxt.rgn .rsvmap).size : Nat) : Int) - (cxt.rgn .struct).start := ⟨_, rfl⟩
  obtain ⟨out, hrun, hmem, hbph, hmax, hordered, hp, hanchor, hr, hs, hg, hnodes, hnodeMax⟩ :
      ∃ out, ftReorder realloc nextra cxt = some out ∧ out.mem = reordered cxt mem p tot
        ∧ out.bph = p ∧ out.maxSize = tot ∧ out.isordered = true ∧ out.p = addInt cxt.p shift
        ∧ out.strAnchor = addInt (p + tot - (cxt.rgn .strings).size)
          ((cxt.strAnchor : Int) - (cxt.rgn .strings).start)
        ∧ out.rgn .rsvmap = ⟨p + hdrSize, (cxt.rgn .rsvmap).size⟩
        ∧ out.rgn .struct = ⟨p + hdrSize + (cxt.rgn .rsvmap).size, (cxt.rgn .struct).size⟩
        ∧ out.rgn .strings = ⟨p + tot - (cxt.rgn .strings).size, (cxt.rgn .strings).size⟩
        ∧ out.nodeTbl = (ftNodeUpdateAfter (cxt.rgn .struct).start shift cxt).nodeTbl
        ∧ out.nodeMax = cxt.nodeMax := by
    rw [ftReorder]
    rw [FtCxt.reorderSize] at htot
    simp only [← htot, hrealloc, ← hshift]
    rw [updateAfter_fields]
    exact ⟨_, rfl, rfl, rfl, rfl, rfl, rfl, rfl, rfl, rfl, rfl, rfl, rfl⟩
  obtain ⟨hneed, hroom⟩ := hroomy
  obtain ⟨hstructSpace, hspace, hanchorLow, hanchorHigh, -⟩ := hcxt
  rw [hdrSize] at *
  rw [FtCxt.bytes] at hlow hhigh
  simp only [FtRegion.stop] at *
  refine ⟨out, hrun, ⟨?_, by rw [hs], ?_, by rw [hg]; rfl, ?_, ?_, ?_, hnodeMax⟩, ?_,
    ⟨hordered, ?_, ?_, ?_, ?_⟩, ?_, ?_, ?_⟩
  · rw [hmem, hs]
    exact hstruct
  · rw [hmem, hg]
    exact hstrings
  · rw [hanchor, hg, addInt_of_nonneg (by omega) (by omega)]
    show _ = cxt.strAnchor + (p + tot - (cxt.rgn .strings).size + 0)
    omega
  · rw [hg]
    show p + tot - (cxt.rgn .strings).size + (cxt.rgn .strings).size < 2 ^ 32
    omega
  · intro offs hoffs hlt
    have hmoved := @updateAfter_nodes cxt 0 offs shift hoffs
      (fun off hoff _ => by have := hlt off hoff; omega)
    rw [Nat.add_zero] at hmoved
    rw [FtCxt.Nodes, hnodes, hmoved, hs]
    refine List.map_congr_left fun off _ => ?_
    rw [if_neg (Nat.not_lt_zero off)]
    show _ = p + 40 + (cxt.rgn .rsvmap).size + off
    omega
  · intro hpLow hpHigh
    simp only [FtRegion.stop] at hpHigh
    rw [hp, hs, hshift, addInt_of_nonneg (by omega) (by omega)]
    show _ = cxt.p + (p + 40 + (cxt.rgn .rsvmap).size)
    omega
  · rw [hbph, hr, hdrSize]
  · rw [hr, hs]
    rfl
  · rw [hs, hg]
    show p + 40 + (cxt.rgn .rsvmap).size + (cxt.rgn .struct).size
      ≤ p + tot - (cxt.rgn .strings).size
    omega
  · rw [hg, hbph, hmax]
    show p + tot - (cxt.rgn .strings).size + (cxt.rgn .strings).size = p + tot
    omega
  · rw [hbph, hmax]
    exact ⟨hneed, hroom⟩
  · rw [hmax, FtCxt.bytes]
    exact hhigh
  · rw [hs, hg]
    show p + 40 + (cxt.rgn .rsvmap).size + (cxt.rgn .struct).size + 1024 + nextra.toNat
      ≤ p + tot - (cxt.rgn .strings).size
    omega

/-! ## §4 Shuffling the structure block -/

/-- What stays of a context when only the room of the structure block changes. -/
structure SameBlob (cxt cxt' : FtCxt) : Prop where
  bph : cxt'.bph = cxt.bph
  maxSize : cxt'.maxSize = cxt.maxSize

/-- The context behind `ft_shuffle` when it moves what follows in the structure block. -/
def shuffled (cxt : FtCxt) (mem : Bytes) (pp : Nat) (nextra : Int) : FtCxt :=
  { cxt.setSize .struct (addInt (cxt.rgn .struct).size nextra) with
    mem := mem
    nodeTbl := (ftNodeUpdateAfter pp nextra cxt).nodeTbl }

theorem ftShuffle_follow {pp : Nat} {nextra : Int} (hpp : pp < (cxt.rgn .struct).stop)
    (hroom : nextra ≤ 0
      ∨ addInt (cxt.rgn .struct).stop nextra ≤ (cxt.rgn .strings).start) :
    ftShuffle pp .struct nextra cxt = some (pp, shuffled cxt
      (if nextra < 0 then
        memmove cxt.mem pp (addInt pp (-nextra)) (addInt ((cxt.rgn .struct).stop - pp) nextra)
      else memmove cxt.mem (addInt pp nextra) pp ((cxt.rgn .struct).stop - pp)) pp nextra) := by
  simp only [ftShuffle, nextStart, hroom, hpp, if_true, reduceCtorEq, if_false, shuffled,
    ftNodeUpdateAfter]
  by_cases hzero : nextra = 0
  · simp only [hzero, if_true]
    rfl
  · simp only [hzero, if_false]
    rfl

theorem laid_shuffled {mem : Bytes} {pp : Nat} {nextra : Int} (hlaid : Laid cxt)
    (hstop : (cxt.rgn .struct).start + addInt (cxt.rgn .struct).size nextra
      ≤ (cxt.rgn .strings).start) : Laid (shuffled cxt mem pp nextra) :=
  ⟨hlaid.ordered, hlaid.rsvmap, hlaid.struct, hstop, hlaid.stop⟩

/-- Room put in, when there is space before the strings. -/
theorem ftShuffle_grow (hlaid : Laid cxt) (hspace : (cxt.rgn .strings).stop < 2 ^ 32)
    (hk : k < (cxt.rgn .struct).size)
    (hgap : (cxt.rgn .struct).stop + n ≤ (cxt.rgn .strings).start) :
    ∃ cxt', ftShuffle ((cxt.rgn .struct).start + k) .struct n cxt
        = some ((cxt.rgn .struct).start + k, cxt')
      ∧ Moved cxt cxt' k 0 n ∧ Laid cxt' ∧ SameBlob cxt cxt'
      ∧ (cxt'.rgn .struct).start = (cxt.rgn .struct).start := by
  have hstrings : (cxt.rgn .strings).start ≤ (cxt.rgn .strings).stop := Nat.le_add_right _ _
  simp only [FtRegion.stop] at hspace hgap hstrings
  have hsize : addInt (cxt.rgn .struct).size n = (cxt.rgn .struct).size + n := by
    rw [addInt_of_nonneg (by omega) (by omega)]
    omega
  have hpp : addInt ((cxt.rgn .struct).start + k) n = (cxt.rgn .struct).start + (k + n) := by
    rw [addInt_of_nonneg (by omega) (by omega)]
    omega
  have hrest : (cxt.rgn .struct).start + (cxt.rgn .struct).size - ((cxt.rgn .struct).start + k)
      = (cxt.rgn .struct).size - k := by omega
  refine ⟨_, ftShuffle_follow (by simp only [FtRegion.stop]; omega) (Or.inr ?_), ?_, ?_, ⟨rfl, rfl⟩,
    rfl⟩
  · rw [FtRegion.stop, addInt_of_nonneg (by omega) (by omega)]
    omega
  · rw [if_neg (by omega), hpp]
    simp only [FtRegion.stop, hrest]
    refine ⟨carried_memmove (Or.inl (by omega)), ?_, ?_, carried_memmove (Or.inr (by omega)), rfl,
      rfl, hspace, ?_, rfl⟩
    · exact memmove_carried _ _ _ _
    · exact hsize
    · intro offs hoffs hlt
      show (ftNodeUpdateAfter _ _ cxt).nodeTbl = _
      rw [updateAfter_nodes hoffs (fun off hoff _ => by have := (hlt off hoff).1; omega),
        List.map_map]
      refine List.map_congr_left fun off _ => ?_
      show _ = (cxt.rgn .struct).start + moveOff k 0 n off
      rw [moveOff]
      split <;> omega
  · refine laid_shuffled hlaid ?_
    rw [hsize]
    omega

/-- A stretch taken out. -/
theorem ftShuffle_shrink (hlaid : Laid cxt) (hspace : (cxt.rgn .strings).stop < 2 ^ 32)
    (hk : k < (cxt.rgn .struct).size) (hr : 0 < r) (hkr : k + r ≤ (cxt.rgn .struct).size) :
    ∃ cxt', ftShuffle ((cxt.rgn .struct).start + k) .struct (-(r : Int)) cxt
        = some ((cxt.rgn .struct).start + k, cxt')
      ∧ Moved cxt cxt' k r 0 ∧ Laid cxt' ∧ SameBlob cxt cxt'
      ∧ (cxt'.rgn .struct).start = (cxt.rgn .struct).start := by
  have hstrings : (cxt.rgn .strings).start ≤ (cxt.rgn .strings).stop := Nat.le_add_right _ _
  have hbelow := hlaid.strings
  simp only [FtRegion.stop] at hspace hbelow hstrings
  have hsize : addInt (cxt.rgn .struct).size (-(r : Int)) = (cxt.rgn .struct).size - r := by
    rw [addInt_of_nonneg (by omega) (by omega)]
    omega
  have hpp : addInt ((cxt.rgn .struct).start + k) (- -(r : Int))
      = (cxt.rgn .struct).start + (k + r) := by
    rw [addInt_of_nonneg (by omega) (by omega)]
    omega
  have hrest : addInt ((cxt.rgn .struct).start + (cxt.rgn .struct).size
      - ((cxt.rgn .struct).start + k)) (-(r : Int)) = (cxt.rgn .struct).size - (k + r) := by
    rw [addInt_of_nonneg (by omega) (by omega)]
    omega
  refine ⟨_, ftShuffle_follow (by simp only [FtRegion.stop]; omega) (Or.inl (by omega)), ?_, ?_,
    ⟨rfl, rfl⟩, rfl⟩
  · rw [if_pos (by omega), hpp]
    simp only [FtRegion.stop, hrest]
    refine ⟨carried_memmove (Or.inl (by omega)), ?_, ?_, carried_memmove (Or.inr (by omega)), rfl,
      rfl, hspace, ?_, rfl⟩
    · exact memmove_carried _ _ _ _
    · show addInt (cxt.rgn .struct).size (-(r : Int)) + r = _
      rw [hsize]
      omega
    · intro offs hoffs hlt
      show (ftNodeUpdateAfter _ _ cxt).nodeTbl = _
      rw [updateAfter_nodes hoffs (fun off hoff hle => by have := hlt off hoff; omega),
        List.map_map]
      refine List.map_congr_left fun off hoff => ?_
      have hcut := (hlt off hoff).2
      show _ = (cxt.rgn .struct).start + moveOff k r 0 off
      rw [moveOff]
      split <;> omega
  · refine laid_shuffled hlaid ?_
    rw [hsize]
    omega

/-- Without the space, nothing is done: the reserve map is right before the block. -/
theorem ftShuffle_full {pp : Nat} (hlaid : Laid cxt) (hroomy : Roomy cxt.bph cxt.maxSize need)
    (hn : n ≤ need) (hgap : (cxt.rgn .strings).start < (cxt.rgn .struct).stop + n) :
    ftShuffle pp .struct n cxt = none := by
  obtain ⟨hlow, hhigh⟩ := hroomy
  obtain ⟨-, hrsvmap, hstruct, hbelow, hstop⟩ := hlaid
  have hstrings : (cxt.rgn .strings).start ≤ (cxt.rgn .strings).stop := Nat.le_add_right _ _
  have hstart : (cxt.rgn .rsvmap).start ≤ (cxt.rgn .rsvmap).stop := Nat.le_add_right _ _
  have hblock : (cxt.rgn .struct).start ≤ (cxt.rgn .struct).stop := Nat.le_add_right _ _
  rw [hdrSize] at hrsvmap
  rw [ftShuffle, if_neg, if_neg]
  · rw [prevEnd, hstruct, addInt_of_nonneg (by omega) (by omega)]
    omega
  · rw [nextStart, addInt_of_nonneg (by omega) (by omega)]
    omega

/-! ## §5 A larger blob -/

/-- The context in a block of `size` bytes at `newp`, with everything where it was in the old
block. -/
structure Relocated (cxt c : FtCxt) (mem : Bytes) (newp size : Nat) : Prop where
  mem : c.mem = mem
  bph : c.bph = newp
  maxSize : c.maxSize = size
  ordered : c.isordered = cxt.isordered
  start : ∀ r, (c.rgn r).start + cxt.bph = (cxt.rgn r).start + newp
  size : ∀ r, (c.rgn r).size = (cxt.rgn r).size
  anchor : c.strAnchor + cxt.bph = cxt.strAnchor + newp
  nodes : ∀ offs, cxt.Nodes offs → (∀ off ∈ offs, off < (cxt.rgn .struct).size) → c.Nodes offs
  nodeMax : c.nodeMax = cxt.nodeMax

/-- The regions of an ordered context lie in the blob. -/
theorem Laid.inside (hlaid : Laid cxt) (r : FtRgnId) :
    cxt.bph + hdrSize ≤ (cxt.rgn r).start ∧ (cxt.rgn r).stop ≤ cxt.bph + cxt.maxSize := by
  obtain ⟨-, hrsvmap, hstruct, hstrings, hstop⟩ := hlaid
  simp only [FtRegion.stop] at *
  cases r with
  | rsvmap => omega
  | struct => omega
  | strings => omega

/-- The part of `growBlob` before the strings are moved. -/
theorem growBlob_eq {pp tot newp size : Nat} {mem : Bytes} (hlaid : Laid cxt) (hok : StringsOk cxt)
    (hspace : newp + cxt.maxSize < 2 ^ 32)
    (hsize : size = align (cxt.maxSize + (n - tot) + expandIncr) 8)
    (hpp : cxt.bph ≤ pp ∧ pp ≤ cxt.bph + cxt.maxSize)
    (hrealloc : realloc cxt.mem cxt.bph cxt.maxSize size = some (newp, mem)) :
    ∃ pp' c, growBlob realloc pp n tot cxt
        = some (pp', moveStrings (newp + size - (c.rgn .strings).size) c)
      ∧ Relocated cxt c mem newp size ∧ pp' + cxt.bph = pp + newp := by
  have hinside := hlaid.inside
  obtain ⟨-, hlow, hhigh, -⟩ := hok
  have hstrings := hinside .strings
  have hstruct := hinside .struct
  rw [growBlob]
  simp only [← hsize, hrealloc]
  by_cases hzero : (newp : Int) - cxt.bph = 0
  · have hsame : newp = cxt.bph := by omega
    simp only [hzero, ne_eq, not_true_eq_false, if_false]
    refine ⟨pp, _, rfl, ⟨rfl, hsame.symm, rfl, rfl, fun r => by rw [hsame], fun _ => rfl,
      by rw [hsame], fun offs hoffs _ => hoffs, rfl⟩, by rw [hsame]⟩
  · have hmove : ∀ a, cxt.bph ≤ a → a ≤ cxt.bph + cxt.maxSize →
        addInt a ((newp : Int) - cxt.bph) + cxt.bph = a + newp := by
      intro a hlow hhigh
      rw [addInt_of_nonneg (by omega) (by omega)]
      omega
    simp only [FtRegion.stop] at hinside hhigh hstrings hstruct
    simp only [hzero, ne_eq, not_false_eq_true, if_true, ftNodeUpdateAfter, if_false]
    refine ⟨_, _, rfl, ⟨rfl, rfl, rfl, rfl, fun r => ?_, fun _ => rfl, ?_, ?_, rfl⟩,
      hmove pp hpp.1 hpp.2⟩
    · have hr := hinside r
      exact hmove _ (by omega) (by omega)
    · exact hmove _ (by omega) (by omega)
    · intro offs hoffs hlt
      have hoffs : cxt.nodeTbl = offs.map ((cxt.rgn .struct).start + ·) := hoffs
      have hstart := hmove (cxt.rgn .struct).start (by omega) (by omega)
      show cxt.nodeTbl.map _ = _
      rw [hoffs, List.map_map]
      refine List.map_congr_left fun off hoff => ?_
      have hoff := hlt off hoff
      have haddr := hmove ((cxt.rgn .struct).start + off) (by omega) (by omega)
      simp only [Function.comp_apply, Nat.le_add_right, if_true]
      omega

/-- **The reallocation** keeps everything, and leaves the room that is asked for before the
strings. Whatever `*pp` pointed to, it points to the same byte of the blob. -/
theorem growBlob_spec {pp : Nat} (hgood : GoodRealloc realloc used need) (hlaid : Laid cxt)
    (hok : StringsOk cxt) (hroomy : Roomy cxt.bph cxt.maxSize need)
    (hfits : cxt.maxSize + n + 1031 < 2 ^ 31)
    (hgap : (cxt.rgn .strings).start - (cxt.rgn .struct).stop < n)
    (hpp : cxt.bph ≤ pp ∧ pp ≤ cxt.bph + cxt.maxSize) :
    ∃ pp' cxt', growBlob realloc pp n ((cxt.rgn .strings).start - (cxt.rgn .struct).stop) cxt
        = some (pp', cxt')
      ∧ Kept cxt cxt' 0 ∧ Laid cxt' ∧ Roomy cxt'.bph cxt'.maxSize need
      ∧ cxt'.maxSize ≤ cxt.maxSize + n + 1031
      ∧ pp' + (cxt.rgn .struct).start = pp + (cxt'.rgn .struct).start
      ∧ (cxt'.rgn .struct).stop + n ≤ (cxt'.rgn .strings).start := by
  obtain ⟨tot, htot⟩ : ∃ tot, tot = (cxt.rgn .strings).start - (cxt.rgn .struct).stop := ⟨_, rfl⟩
  obtain ⟨size, hsize⟩ : ∃ size, size = align (cxt.maxSize + (n - tot) + expandIncr) 8 := ⟨_, rfl⟩
  rw [← htot] at hgap ⊢
  have hbounds := @align_eight (cxt.maxSize + (n - tot) + expandIncr) (by rw [expandIncr]; omega)
  rw [← hsize, expandIncr] at hbounds
  obtain ⟨newp, mem, hrealloc, hroomy', hmem⟩ :=
    hgood.moved cxt.mem cxt.bph cxt.maxSize size (Nat.zero_lt_of_lt hroomy.1) (by omega) (by omega)
  obtain ⟨-, hspace⟩ := hroomy
  obtain ⟨hneed, hroom⟩ := hroomy'
  obtain ⟨pp', c, hrun, hc, hpp'⟩ := @growBlob_eq cxt n realloc pp tot newp size mem hlaid hok
    (by omega) hsize hpp hrealloc
  have hlaid' := hlaid
  have hr := hlaid.inside .rsvmap
  have hs := hlaid.inside .struct
  have hg := hlaid.inside .strings
  have hcr := hc.start .rsvmap
  have hcs := hc.start .struct
  have hcg := hc.start .strings
  have hsizes := hc.size
  obtain ⟨hordered, -, hstruct, hstrings, hstop⟩ := hlaid
  obtain ⟨-, hlow, hhigh, -⟩ := hok
  have hanchor := hc.anchor
  rw [hdrSize] at hr hs hg
  simp only [FtRegion.stop] at *
  -- everything below the strings stays where the block has it
  obtain ⟨str, hstr⟩ : ∃ str, str = newp + size - (cxt.rgn .strings).size := ⟨_, rfl⟩
  rw [hsizes, ← hstr] at hrun
  have hrgn : ∀ r, r ≠ .strings → (moveStrings str c).rgn r = c.rgn r := fun r hne =>
    Function.update_of_ne hne _ _
  have hrgnStrings : (moveStrings str c).rgn .strings = ⟨str, (cxt.rgn .strings).size⟩ := by
    rw [← hsizes .strings]
    simp only [moveStrings, FtCxt.setStart, Function.update_self]
  have hmovedAnchor : (moveStrings str c).strAnchor + (cxt.rgn .strings).start
      = cxt.strAnchor + str := by
    show addInt c.strAnchor ((str : Int) - (c.rgn .strings).start) + _ = _
    rw [addInt_of_nonneg (by omega) (by omega)]
    omega
  have hmovedMem : (moveStrings str c).mem
      = memmove mem str (c.rgn .strings).start (cxt.rgn .strings).size := by
    show memmove c.mem str _ _ = _
    rw [hc.mem, hsizes]
  have hcarried : ∀ r, Carried cxt.mem (cxt.rgn r).start mem (c.rgn r).start (cxt.rgn r).size := by
    intro r
    have hinside := hlaid'.inside r
    have hstart := hc.start r
    simp only [FtRegion.stop, hdrSize] at hinside
    have hpart := @Carried.part _ _ _ _ _ (cxt.rgn r).size hmem ((cxt.rgn r).start - cxt.bph) (by omega)
    rwa [show cxt.bph + ((cxt.rgn r).start - cxt.bph) = (cxt.rgn r).start by omega,
      show newp + ((cxt.rgn r).start - cxt.bph) = (c.rgn r).start by omega] at hpart
  refine ⟨pp', _, hrun, ⟨?_, ?_, ?_, ?_, ?_, ?_, ?_, ?_⟩, ⟨?_, ?_, ?_, ?_, ?_⟩, ?_, ?_, ?_, ?_⟩
  · rw [hrgn .struct (by decide), hmovedMem]
    exact (hcarried .struct).trans (carried_memmove (Or.inl (by omega)))
  · rw [hrgn .struct (by decide), hsizes]
  · rw [hrgnStrings, hmovedMem]
    exact (hcarried .strings).trans (memmove_carried _ _ _ _)
  · rw [hrgnStrings]
    rfl
  · rw [hrgnStrings, hmovedAnchor]
    rfl
  · rw [hrgnStrings]
    show str + (cxt.rgn .strings).size < 2 ^ 32
    omega
  · intro offs hoffs hlt
    have hnodes := hc.nodes offs hoffs hlt
    rw [FtCxt.Nodes] at hnodes ⊢
    rw [hrgn .struct (by decide)]
    exact hnodes
  · exact hc.nodeMax
  · exact hc.ordered.trans hordered
  · rw [hrgn .rsvmap (by decide), hdrSize]
    show c.bph + 40 ≤ _
    rw [hc.bph]
    omega
  · rw [hrgn .rsvmap (by decide), hrgn .struct (by decide), FtRegion.stop, hsizes]
    omega
  · rw [hrgn .struct (by decide), hrgnStrings, FtRegion.stop, hsizes]
    show _ ≤ str
    omega
  · rw [hrgnStrings]
    show str + (cxt.rgn .strings).size = c.bph + c.maxSize
    rw [hc.bph, hc.maxSize]
    omega
  · show Roomy c.bph c.maxSize need
    rw [hc.bph, hc.maxSize]
    exact ⟨hneed, hroom⟩
  · show c.maxSize ≤ _
    rw [hc.maxSize]
    omega
  · rw [hrgn .struct (by decide)]
    omega
  · rw [hrgn .struct (by decide), hrgnStrings, hsizes]
    show _ ≤ str
    omega

/-! ## §6 `ft_make_space` for the structure block -/

/-- What holds of an ordered context that `ft_make_space` leaves. -/
structure Settled (cxt : FtCxt) (need limit : Nat) : Prop where
  laid : Laid cxt
  roomy : Roomy cxt.bph cxt.maxSize need
  strings : StringsOk cxt
  maxSize : cxt.maxSize ≤ limit

theorem makeOrderedSpace_grow (hgood : GoodRealloc realloc used need) (hlaid : Laid cxt)
    (hok : StringsOk cxt) (hroomy : Roomy cxt.bph cxt.maxSize need) (hn : n ≤ need)
    (hfits : cxt.maxSize + n + 1031 < 2 ^ 31) (hk : k < (cxt.rgn .struct).size) :
    ∃ cxt', makeOrderedSpace realloc ((cxt.rgn .struct).start + k) .struct n cxt
        = (true, (cxt'.rgn .struct).start + k, cxt')
      ∧ Moved cxt cxt' k 0 n ∧ Settled cxt' need (cxt.maxSize + n + 1031) := by
  rw [makeOrderedSpace]
  rcases Nat.lt_or_ge (cxt.rgn .strings).start ((cxt.rgn .struct).stop + n) with hfull | hgap
  · have hinside := hlaid.inside .struct
    have hbelow := hlaid.strings
    have hstrings : (cxt.rgn .strings).start ≤ (cxt.rgn .strings).stop := Nat.le_add_right _ _
    have hspace := hok.space
    have hstart : (cxt.rgn .strings).start < 2 ^ 32 := by omega
    have htot : followingSpace cxt .struct
        = (cxt.rgn .strings).start - (cxt.rgn .struct).stop := sub32_of_le hbelow hstart
    have hafter : ¬ (cxt.rgn .strings).stop < cxt.bph + cxt.maxSize := by
      rw [hlaid.stop]
      exact Nat.lt_irrefl _
    rw [hdrSize] at hinside
    simp only [FtRegion.stop] at hinside
    -- the strings end the blob, so there is nothing to gain behind them
    rw [ftShuffle_full hlaid hroomy hn hfull]
    simp only [hafter, false_and, if_false, htot, Int.toNat_natCast]
    rw [if_pos (by omega)]
    obtain ⟨pp', c, hgrow, hkept, hlaid', hroomy', hmax, hpp, hroom⟩ :=
      growBlob_spec hgood hlaid hok hroomy hfits (by omega)
        (show cxt.bph ≤ (cxt.rgn .struct).start + k ∧ (cxt.rgn .struct).start + k
          ≤ cxt.bph + cxt.maxSize by omega)
    have hsize := hkept.structSize
    obtain rfl : pp' = (c.rgn .struct).start + k := by omega
    obtain ⟨cxt', hshuffle, hmoved, hlaid'', hsame, hstart⟩ :=
      @ftShuffle_grow c k n hlaid' hkept.space (by omega) hroom
    rw [hgrow]
    simp only [hshuffle]
    refine ⟨cxt', by rw [hstart], hkept.moved hmoved (by omega), hlaid'', ?_,
      hmoved.stringsOk (hkept.stringsOk hok), ?_⟩
    · rw [hsame.bph, hsame.maxSize]
      exact hroomy'
    · rw [hsame.maxSize]
      exact hmax
  · obtain ⟨cxt', hshuffle, hmoved, hlaid', hsame, hstart⟩ :=
      ftShuffle_grow hlaid hok.space hk hgap
    rw [hshuffle]
    refine ⟨cxt', by rw [hstart], hmoved, hlaid', ?_, hmoved.stringsOk hok, ?_⟩
    · rw [hsame.bph, hsame.maxSize]
      exact hroomy
    · rw [hsame.maxSize]
      omega

theorem makeOrderedSpace_shrink (hlaid : Laid cxt) (hok : StringsOk cxt)
    (hroomy : Roomy cxt.bph cxt.maxSize need) (hk : k < (cxt.rgn .struct).size) (hr : 0 < r)
    (hkr : k + r ≤ (cxt.rgn .struct).size) :
    ∃ cxt', makeOrderedSpace realloc ((cxt.rgn .struct).start + k) .struct (-(r : Int)) cxt
        = (true, (cxt'.rgn .struct).start + k, cxt')
      ∧ Moved cxt cxt' k r 0 ∧ Settled cxt' need cxt.maxSize := by
  obtain ⟨cxt', hshuffle, hmoved, hlaid', hsame, hstart⟩ :=
    ftShuffle_shrink hlaid hok.space hk hr hkr
  rw [makeOrderedSpace, hshuffle]
  refine ⟨cxt', by rw [hstart], hmoved, hlaid', ?_, hmoved.stringsOk hok, ?_⟩
  · rw [hsame.bph, hsame.maxSize]
    exact hroomy
  · rw [hsame.maxSize]

/-- The bytes that a context takes or has reserved. -/
def FtCxt.total (cxt : FtCxt) : Nat := if cxt.isordered then cxt.maxSize else cxt.bytes

/-- A context that may be edited: with its regions in the address space, laid out when it claims
to be in order, and else at addresses that a fresh block avoids. -/
structure Editable (cxt : FtCxt) (used : Nat → Prop) (need : Nat) : Prop where
  struct : (cxt.rgn .struct).stop < 2 ^ 32
  strings : StringsOk cxt
  laid : cxt.isordered = true → Laid cxt ∧ Roomy cxt.bph cxt.maxSize need
  used : cxt.isordered ≠ true → ∀ a, cxt.Uses a → used a

theorem Editable.unordered (h : Editable cxt used need) : Unordered cxt := ⟨h.struct, h.strings⟩

theorem GoodRealloc.mono {used' : Nat → Prop} (h : GoodRealloc realloc used need)
    (hused : ∀ a, used' a → used a) : GoodRealloc realloc used' need := by
  refine ⟨fun mem size hsize => ?_, h.moved⟩
  obtain ⟨p, mem', hrealloc, hroomy, hframe, hout⟩ := h.fresh mem size hsize
  exact ⟨p, mem', hrealloc, hroomy, hframe, fun a ha => hout a (hused a ha)⟩

theorem Settled.editable {limit : Nat} (h : Settled cxt need limit) (used : Nat → Prop) :
    Editable cxt used need := by
  have hinside := h.laid.inside .struct
  have hroomy := h.roomy.2
  exact ⟨by omega, h.strings, fun _ => ⟨h.laid, h.roomy⟩, fun hne => absurd h.laid.ordered hne⟩

theorem Settled.total {limit : Nat} (h : Settled cxt need limit) : cxt.total ≤ limit := by
  rw [FtCxt.total, if_pos h.laid.ordered]
  exact h.maxSize

/-- **Room in the structure block**, from any context. -/
theorem ftMakeSpace_grow (hgood : GoodRealloc realloc used need) (hcxt : Editable cxt used need)
    (hn : n ≤ need) (hfits : cxt.total + n + 1071 < 2 ^ 31) (hk : k < (cxt.rgn .struct).size) :
    ∃ cxt', ftMakeSpace realloc ((cxt.rgn .struct).start + k) .struct n cxt
        = (true, (cxt'.rgn .struct).start + k, cxt')
      ∧ Moved cxt cxt' k 0 n ∧ Settled cxt' need (cxt.total + n + 1071) := by
  rw [ftMakeSpace]
  by_cases hordered : cxt.isordered = true
  · obtain ⟨hlaid, hroomy⟩ := hcxt.laid hordered
    rw [FtCxt.total, if_pos hordered] at hfits ⊢
    rw [if_pos hordered]
    obtain ⟨cxt', hrun, hmoved, hsettled⟩ :=
      makeOrderedSpace_grow hgood hlaid hcxt.strings hroomy hn (by omega) hk
    exact ⟨cxt', hrun, hmoved, hsettled.laid, hsettled.roomy, hsettled.strings,
      Nat.le_trans hsettled.maxSize (by omega)⟩
  · rw [FtCxt.total, if_neg hordered] at hfits ⊢
    rw [if_neg hordered]
    obtain ⟨c, hreorder, hkept, -, hlaid, hroomy, hmax, hroom⟩ :=
      @ftReorder_spec cxt realloc need n (hgood.mono (hcxt.used hordered)) hcxt.unordered
        (by omega)
    have hspace := hcxt.struct
    have hsize := hkept.structSize
    have hstop := hkept.space
    have hstrings : (c.rgn .strings).start ≤ (c.rgn .strings).stop := Nat.le_add_right _ _
    simp only [FtRegion.stop] at hspace hstop hroom hstrings
    have hpp : addInt (c.rgn .struct).start
        (((cxt.rgn .struct).start + k : Nat) - ((cxt.rgn .struct).start : Int))
          = (c.rgn .struct).start + k := by
      rw [addInt_of_nonneg (by omega) (by omega)]
      omega
    obtain ⟨cxt', hshuffle, hmoved, hlaid', hsame, hstart⟩ :=
      @ftShuffle_grow c k n hlaid hkept.space (by omega) (by simp only [FtRegion.stop]; omega)
    rw [hreorder]
    simp only [hpp]
    rw [makeOrderedSpace, hshuffle]
    refine ⟨cxt', by rw [hstart], hkept.moved hmoved (by omega), hlaid', ?_,
      hmoved.stringsOk (hkept.stringsOk hcxt.strings), ?_⟩
    · rw [hsame.bph, hsame.maxSize]
      exact hroomy
    · rw [hsame.maxSize]
      omega

/-- **A stretch of the structure block taken out**, from any context. -/
theorem ftMakeSpace_shrink (hgood : GoodRealloc realloc used need) (hcxt : Editable cxt used need)
    (hfits : cxt.total + 1071 < 2 ^ 31) (hk : k < (cxt.rgn .struct).size) (hr : 0 < r)
    (hkr : k + r ≤ (cxt.rgn .struct).size) :
    ∃ cxt', ftMakeSpace realloc ((cxt.rgn .struct).start + k) .struct (-(r : Int)) cxt
        = (true, (cxt'.rgn .struct).start + k, cxt')
      ∧ Moved cxt cxt' k r 0 ∧ Settled cxt' need (cxt.total + 1071) := by
  rw [ftMakeSpace]
  by_cases hordered : cxt.isordered = true
  · obtain ⟨hlaid, hroomy⟩ := hcxt.laid hordered
    rw [FtCxt.total, if_pos hordered] at hfits ⊢
    rw [if_pos hordered]
    obtain ⟨cxt', hrun, hmoved, hsettled⟩ :=
      @makeOrderedSpace_shrink cxt k r realloc need hlaid hcxt.strings hroomy hk hr hkr
    exact ⟨cxt', hrun, hmoved, hsettled.laid, hsettled.roomy, hsettled.strings,
      Nat.le_trans hsettled.maxSize (by omega)⟩
  · rw [FtCxt.total, if_neg hordered] at hfits ⊢
    rw [if_neg hordered]
    obtain ⟨c, hreorder, hkept, -, hlaid, hroomy, hmax, hroom⟩ :=
      @ftReorder_spec cxt realloc need (-(r : Int)) (hgood.mono (hcxt.used hordered))
        hcxt.unordered (by omega)
    have hspace := hcxt.struct
    have hsize := hkept.structSize
    have hstop := hkept.space
    have hbelow := hlaid.strings
    have hstrings : (c.rgn .strings).start ≤ (c.rgn .strings).stop := Nat.le_add_right _ _
    simp only [FtRegion.stop] at hspace hstop hbelow hstrings
    have hpp : addInt (c.rgn .struct).start
        (((cxt.rgn .struct).start + k : Nat) - ((cxt.rgn .struct).start : Int))
          = (c.rgn .struct).start + k := by
      rw [addInt_of_nonneg (by omega) (by omega)]
      omega
    rw [hreorder]
    simp only [hpp]
    obtain ⟨cxt', hrun, hmoved, hsettled⟩ :=
      @makeOrderedSpace_shrink c k r realloc need hlaid (hkept.stringsOk hcxt.strings) hroomy
        (by omega) hr (by omega)
    exact ⟨cxt', hrun, hkept.moved hmoved hkr, hsettled.laid, hsettled.roomy, hsettled.strings,
      by have := hsettled.maxSize; omega⟩

/-! ## §7 Strings -/

/-- What `lookup_string` finds is an offset of the name. -/
theorem lookupFrom_spec {name : List UInt8} (hok : StringsOk cxt) (hno : 0 ∉ name) (fuel : Nat) :
    ∀ {p : Nat}, (cxt.rgn .strings).start ≤ p → lookupFrom cxt name fuel p ≠ noString →
    NameAt cxt (lookupFrom cxt name fuel p) name ∧ lookupFrom cxt name fuel p < 2 ^ 32 := by
  induction fuel with
  | zero =>
    intro p _ h
    exact absurd rfl h
  | succ fuel ih =>
    intro p hp h
    rw [lookupFrom] at h ⊢
    by_cases hin : p < (cxt.rgn .strings).stop
    · rw [if_pos hin] at h ⊢
      by_cases hcmp : strcmpEq cxt.mem p name = true
      · rw [if_pos hcmp]
        obtain ⟨hspace, hlow, hhigh, hterminated⟩ := hok
        have hname := stringAt_of_strcmpEq name hcmp hno
        have hlast := hterminated.resolve_left (by rw [FtRegion.stop] at hin; omega)
        have hinside := hname.inside hin hlast
        simp only [FtRegion.stop] at hinside hspace hhigh hin
        refine ⟨⟨p - (cxt.rgn .strings).start, ?_, by omega, ?_⟩, ?_⟩
        · simp only [addInt]
          omega
        · rwa [Nat.add_sub_cancel' hp]
        · rw [addInt]
          omega
      · rw [if_neg hcmp] at h ⊢
        exact ih (by omega) h
    · rw [if_neg hin] at h
      exact absurd rfl h

/-- Room before the strings, when there is space behind the structure block. -/
theorem ftShuffle_strings (hlaid : Laid cxt) (hroomy : Roomy cxt.bph cxt.maxSize need)
    (hpos : 0 < n) (hn : n ≤ need)
    (hgap : (cxt.rgn .struct).stop + n ≤ (cxt.rgn .strings).start) :
    ∃ cxt', ftShuffle (cxt.rgn .strings).start .strings n cxt
        = some ((cxt'.rgn .strings).start, cxt')
      ∧ Kept cxt cxt' n ∧ Laid cxt' ∧ SameBlob cxt cxt'
      ∧ cxt'.rgn .struct = cxt.rgn .struct
      ∧ (cxt'.rgn .strings).start + n = (cxt.rgn .strings).start
      ∧ cxt'.mem = cxt.mem ∧ cxt'.p = cxt.p := by
  have hstop := hlaid.stop
  obtain ⟨hlow, hhigh⟩ := hroomy
  have hstruct : (cxt.rgn .struct).start ≤ (cxt.rgn .struct).stop := Nat.le_add_right _ _
  have hstrings : (cxt.rgn .strings).start ≤ (cxt.rgn .strings).stop := Nat.le_add_right _ _
  have hstart : addInt (cxt.rgn .strings).start (-(n : Int)) = (cxt.rgn .strings).start - n := by
    rw [addInt_of_nonneg (by omega) (by omega)]
    omega
  have hsize : addInt (cxt.rgn .strings).size n = (cxt.rgn .strings).size + n := by
    rw [FtRegion.stop] at hstop
    rw [addInt_of_nonneg (by omega) (by omega)]
    omega
  have hfollow : ¬ ((n : Int) ≤ 0 ∨ addInt (cxt.rgn .strings).stop n
      ≤ nextStart cxt .strings) := by
    rw [nextStart, addInt_of_nonneg (by omega) (by omega)]
    omega
  have hprecede : prevEnd cxt .strings ≤ (cxt.rgn .strings).start - n := by
    rw [prevEnd]
    omega
  have hstay : ¬ (cxt.rgn .strings).start > (cxt.rgn .strings).start := Nat.lt_irrefl _
  obtain ⟨cxt', hcxt'⟩ : ∃ c, c = (cxt.setStart .strings ((cxt.rgn .strings).start - n)).setSize
    .strings ((cxt.rgn .strings).size + n) := ⟨_, rfl⟩
  have hrgn : cxt'.rgn .strings
      = ⟨(cxt.rgn .strings).start - n, (cxt.rgn .strings).size + n⟩ := by
    rw [hcxt']
    simp only [FtCxt.setSize, FtCxt.setStart, Function.update_self]
  have hother : ∀ r, r ≠ .strings → cxt'.rgn r = cxt.rgn r := by
    intro r hne
    rw [hcxt']
    simp only [FtCxt.setSize, FtCxt.setStart, Function.update_of_ne hne]
  have hmem : cxt'.mem = cxt.mem := by rw [hcxt']; rfl
  have hback : (cxt.rgn .strings).start - n + n = (cxt.rgn .strings).start := by omega
  refine ⟨cxt', ?_, ⟨?_, ?_, ?_, ?_, ?_, ?_, ?_, ?_⟩, ⟨?_, ?_, ?_, ?_, ?_⟩, ⟨?_, ?_⟩, ?_, ?_, hmem,
    ?_⟩
  · rw [ftShuffle]
    simp only [hfollow, if_false, hstart, hprecede, if_true, hstay, hsize, hrgn]
    rw [hcxt']
  · rw [hmem, hother .struct (by decide)]
    exact Carried.refl _ _ _
  · rw [hother .struct (by decide)]
  · rw [hmem, hrgn]
    show Carried _ _ _ ((cxt.rgn .strings).start - n + n) _
    rw [hback]
    exact Carried.refl _ _ _
  · rw [hrgn]
  · rw [hrgn]
    show cxt'.strAnchor + _ = _ + ((cxt.rgn .strings).start - n + n)
    rw [hback, hcxt']
    rfl
  · rw [hrgn]
    show (cxt.rgn .strings).start - n + ((cxt.rgn .strings).size + n) < 2 ^ 32
    rw [FtRegion.stop] at hstop
    omega
  · intro offs hoffs _
    rw [FtCxt.Nodes, hother .struct (by decide), hcxt']
    exact hoffs
  · rw [hcxt']
    rfl
  · rw [hcxt']
    exact hlaid.ordered
  · rw [hother .rsvmap (by decide), hcxt']
    exact hlaid.rsvmap
  · rw [hother .rsvmap (by decide), hother .struct (by decide)]
    exact hlaid.struct
  · rw [hother .struct (by decide), hrgn]
    show _ ≤ (cxt.rgn .strings).start - n
    omega
  · rw [hrgn]
    show (cxt.rgn .strings).start - n + ((cxt.rgn .strings).size + n) = cxt'.bph + cxt'.maxSize
    rw [hcxt']
    show _ = cxt.bph + cxt.maxSize
    rw [← hstop, FtRegion.stop]
    omega
  · rw [hcxt']
    rfl
  · rw [hcxt']
    rfl
  · exact hother .struct (by decide)
  · rw [hrgn]
    exact hback
  · rw [hcxt']
    rfl

/-- A name put before the strings, where `ft_make_space` has made room for it. -/
theorem Kept.named {name : List UInt8} (h : Kept cxt cxt' (name.length + 1))
    (hok : StringsOk cxt) (hno : 0 ∉ name) (hlaid : Laid cxt')
    (hroomy : Roomy cxt'.bph cxt'.maxSize need) (hmax : cxt'.maxSize < 2 ^ 31)
    {c : FtCxt}
    (hc : c = { cxt' with mem := store cxt'.mem (cxt'.rgn .strings).start (name ++ [0]) }) :
    Kept cxt c (name.length + 1) ∧ StringsOk c
      ∧ addInt (cxt'.rgn .strings).start (-cxt'.strAnchor) ≠ noString
      ∧ addInt (cxt'.rgn .strings).start (-cxt'.strAnchor) < 2 ^ 32
      ∧ NameAt c (addInt (cxt'.rgn .strings).start (-cxt'.strAnchor)) name := by
  have hinside := hlaid.inside .strings
  have hbelow := hlaid.strings
  have hsize := h.stringsSize
  have hanchor := h.anchor
  have hspace := h.space
  have hlow := hok.anchorLow
  have hhigh := hok.anchorHigh
  have hroom := hroomy.2
  have hlength : (name ++ [0]).length = name.length + 1 := by rw [List.length_append]; rfl
  have hmem : c.mem = store cxt'.mem (cxt'.rgn .strings).start (name ++ [0]) := by rw [hc]
  have hrgn : c.rgn = cxt'.rgn := by rw [hc]
  have hstored := store_at cxt'.mem (cxt'.rgn .strings).start (name ++ [0])
  rw [← hmem] at hstored
  have hnul : c.mem ((cxt'.rgn .strings).start + name.length) = 0 := by
    rw [hstored name.length (by omega), List.getD_eq_getElem _ _ (by omega),
      List.getElem_append_right (Nat.le_refl _)]
    simp only [Nat.sub_self, List.getElem_cons_zero]
  rw [hdrSize] at hinside
  simp only [FtRegion.stop] at hinside hbelow hspace hhigh
  have hkept : Kept cxt c (name.length + 1) := by
    refine ⟨?_, by rw [hrgn]; exact h.structSize, ?_, by rw [hrgn]; exact hsize,
      by rw [hrgn, hc]; exact hanchor, by rw [hrgn]; exact h.space, ?_, by rw [hc]; exact h.nodeMax⟩
    · rw [hrgn, hmem]
      have hstructSize := h.structSize
      exact h.struct.trans (carried_store (Or.inl (by omega)))
    · rw [hrgn, hmem]
      exact h.strings.trans (carried_store (Or.inr (by omega)))
    · intro offs hoffs hlt
      have hnodes := h.nodes offs hoffs hlt
      rw [FtCxt.Nodes] at hnodes ⊢
      rw [hrgn, hc]
      exact hnodes
  refine ⟨hkept, ?_, ?_, ?_, 0, ?_, ?_, ?_⟩
  · refine hok.carried hkept.strings hkept.stringsSize hkept.anchor hkept.space ?_
    rcases Nat.eq_zero_or_pos (cxt.rgn .strings).size with hzero | hpos
    · right
      right
      rw [hrgn, FtRegion.stop, hsize, hzero,
        show (cxt'.rgn .strings).start + (0 + (name.length + 1)) - 1
          = (cxt'.rgn .strings).start + name.length by omega]
      exact hnul
    · exact Or.inl (Nat.pos_iff_ne_zero.mp hpos)
  · rw [addInt, noString]
    omega
  · rw [addInt]
    omega
  · rw [hrgn, hc]
    simp only [addInt]
    omega
  · rw [hrgn]
    omega
  · rw [hrgn, Nat.add_zero]
    refine ⟨fun i hi => ?_, hnul, hno⟩
    rw [hstored i (by omega), List.getD_append _ _ _ _ hi]

theorem Kept.refl (hspace : (cxt.rgn .strings).stop < 2 ^ 32) : Kept cxt cxt 0 :=
  ⟨Carried.refl _ _ _, rfl, Carried.refl _ _ _, rfl, rfl, hspace, fun _ h _ => h, rfl⟩

/-- The name is among the strings, or there is space for it before them. A context that is not
in order yet gets that space with the reordering. -/
def NameFits (cxt : FtCxt) (name : List UInt8) : Prop :=
  lookupString cxt name ≠ noString
    ∨ (cxt.isordered = true →
      (cxt.rgn .struct).stop + (name.length + 1) ≤ (cxt.rgn .strings).start)

/-- The new name at the start of the strings of an ordered context. -/
theorem makeOrderedSpace_strings {name : List UInt8} {limit : Nat} (h : Settled cxt need limit)
    (hlimit : limit < 2 ^ 31) (hno : 0 ∉ name) (hn : name.length + 1 ≤ need)
    (hgap : (cxt.rgn .struct).stop + (name.length + 1) ≤ (cxt.rgn .strings).start) :
    ∃ c p, makeOrderedSpace realloc (cxt.rgn .strings).start .strings (name.length + 1 : Nat) cxt
        = (true, p, c)
      ∧ addInt p (-c.strAnchor) ≠ noString ∧ addInt p (-c.strAnchor) < 2 ^ 32
      ∧ NameAt { c with mem := store c.mem p (name ++ [0]) } (addInt p (-c.strAnchor)) name
      ∧ Kept cxt { c with mem := store c.mem p (name ++ [0]) } (name.length + 1)
      ∧ Settled { c with mem := store c.mem p (name ++ [0]) } need limit
      ∧ (c.rgn .struct).start = (cxt.rgn .struct).start ∧ c.p = cxt.p := by
  obtain ⟨hlaid, hroomy, hok, hmax⟩ := h
  obtain ⟨c, hshuffle, hkept, hlaid', hsame, hstruct, -, -, hp⟩ :=
    ftShuffle_strings hlaid hroomy (Nat.succ_pos _) hn hgap
  have hroomy' : Roomy c.bph c.maxSize need := by
    rw [hsame.bph, hsame.maxSize]
    exact hroomy
  have hmax' : c.maxSize ≤ limit := by
    rw [hsame.maxSize]
    exact hmax
  obtain ⟨hnamed, hok', hne, h32, hname⟩ :=
    hkept.named hok hno hlaid' hroomy' (by omega) rfl
  refine ⟨c, _, ?_, hne, h32, hname, hnamed,
    ⟨⟨hlaid'.ordered, hlaid'.rsvmap, hlaid'.struct, hlaid'.strings, hlaid'.stop⟩, hroomy', hok',
      hmax'⟩, by rw [hstruct], hp⟩
  rw [makeOrderedSpace, hshuffle]

/-- **`map_string`**: the offset of a name, which is put before the strings when it is new. -/
theorem mapString_spec {name : List UInt8} (hgood : GoodRealloc realloc used need)
    (hcxt : Editable cxt used need) (hno : 0 ∉ name) (hn : name.length + 1 ≤ need)
    (hfits : cxt.total + (name.length + 1) + 1071 < 2 ^ 31) (hroom : NameFits cxt name) :
    ∃ off c m, mapString realloc name cxt = (off, c) ∧ off ≠ noString ∧ off < 2 ^ 32
      ∧ NameAt c off name ∧ Kept cxt c m ∧ FollowsP cxt c ∧ Editable c used need
      ∧ c.total ≤ cxt.total + (name.length + 1) + 1071 := by
  rw [mapString]
  by_cases hfound : lookupString cxt name = noString
  swap
  · obtain ⟨hname, h32⟩ := lookupFrom_spec hcxt.strings hno _ (Nat.le_refl _) hfound
    refine ⟨_, cxt, 0, by rw [if_pos hfound], hfound, h32, hname, Kept.refl hcxt.strings.space,
      fun _ _ => rfl, hcxt, by omega⟩
  have hgap := hroom.resolve_left (not_not_intro hfound)
  simp only [hfound, ne_eq, not_true_eq_false, if_false]
  by_cases hordered : cxt.isordered = true
  · obtain ⟨hlaid, hroomy⟩ := hcxt.laid hordered
    rw [FtCxt.total, if_pos hordered] at hfits ⊢
    obtain ⟨c, p, hrun, hne, h32, hname, hkept, hsettled, hstruct, hp⟩ :=
      @makeOrderedSpace_strings cxt realloc need name cxt.maxSize
        ⟨hlaid, hroomy, hcxt.strings, Nat.le_refl _⟩ (by omega) hno hn (hgap hordered)
    have htotal := hsettled.total
    rw [ftMakeSpace, if_pos hordered, hrun]
    refine ⟨_, _, _, rfl, hne, h32, hname, hkept, fun _ _ => ?_, hsettled.editable used,
      by omega⟩
    show c.p + _ = _ + (c.rgn .struct).start
    rw [hstruct, hp]
  · rw [FtCxt.total, if_neg hordered] at hfits ⊢
    obtain ⟨o, hreorder, hkept₁, hp₁, hlaid, hroomy, hmax, hroom⟩ :=
      @ftReorder_spec cxt realloc need (name.length + 1 : Nat)
        (hgood.mono (hcxt.used hordered)) hcxt.unordered (by omega)
    rw [Int.toNat_natCast] at hmax hroom
    obtain ⟨c, p, hrun, hne, h32, hname, hkept, hsettled, hstruct, hp⟩ :=
      @makeOrderedSpace_strings o realloc need name (cxt.bytes + (name.length + 1) + 1071)
        ⟨hlaid, hroomy, hkept₁.stringsOk hcxt.strings, hmax⟩ (by omega) hno hn (by omega)
    have hspace := hkept₁.space
    have hstart : (o.rgn .strings).start ≤ (o.rgn .strings).stop := Nat.le_add_right _ _
    have hpp : addInt (o.rgn .strings).start
        (((cxt.rgn .strings).start : Int) - ((cxt.rgn .strings).start : Int))
          = (o.rgn .strings).start := by
      rw [addInt_of_nonneg (by omega) (by omega)]
      omega
    rw [ftMakeSpace, if_neg hordered, hreorder]
    simp only [hpp, hrun]
    refine ⟨_, _, _, rfl, hne, h32, hname, hkept₁.trans hkept, fun hlow hhigh => ?_,
      hsettled.editable used, hsettled.total⟩
    have hfollows := hp₁ hlow hhigh
    show c.p + _ = _ + (c.rgn .struct).start
    rw [hstruct, hp]
    exact hfollows

end LiloBoot.DevTree
