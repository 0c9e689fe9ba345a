/-
LiloBoot.DevTree.WriteTheorems — writing atoms into the space made for them.

`ft_make_space` leaves a `Moved`; what is then written stands between its front
and its back. `Edited` puts the two together: the context holds the tree behind
an edit of atoms, and its node pointers have gone where the edit moves the nodes.
-/
import LiloBoot.DevTree.SpaceTheorems
import LiloBoot.DevTree.EditTheorems

namespace LiloBoot.DevTree

open LiloBoot.Memory

/-! ## §1 Writing -/

/-- Only bytes from `lo` to `hi` have been written, and the insertion point has moved. -/
structure Wrote (cxt cxt' : FtCxt) (lo hi : Nat) : Prop where
  mem : ∀ a, a < lo ∨ hi ≤ a → cxt'.mem a = cxt.mem a
  same : cxt' = { cxt with mem := cxt'.mem, p := cxt'.p }

variable {cxt cxt' cxt'' c : FtCxt} {lo hi k r n need limit : Nat} {e : Edit} {toks : List Tok}

theorem Wrote.rgn (h : Wrote cxt cxt' lo hi) : cxt'.rgn = cxt.rgn := by rw [h.same]

theorem Wrote.anchor (h : Wrote cxt cxt' lo hi) : cxt'.strAnchor = cxt.strAnchor :=
  by rw [h.same]

theorem Wrote.trans {lo' hi' : Nat} (h : Wrote cxt cxt' lo hi) (h' : Wrote cxt' cxt'' lo' hi')
    (hlo : lo ≤ lo') (hhi : hi ≤ hi') : Wrote cxt cxt'' lo hi' := by
  refine ⟨fun a ha => ?_, ?_⟩
  · rw [h'.mem a (by omega), h.mem a (by omega)]
  · rw [h'.same, h.same]

theorem wrote_putWord (v : Nat) (cxt : FtCxt) : Wrote cxt (ftPutWord v cxt) cxt.p (cxt.p + 4) :=
  ⟨fun _ ha => store_out ha, rfl⟩

/-- An area that has not been written. -/
theorem Wrote.carried {p m : Nat} (h : Wrote cxt cxt' lo hi) (hp : p + m ≤ lo ∨ hi ≤ p) :
    Carried cxt.mem p cxt'.mem p m := fun i hi => h.mem (p + i) (by omega)

/-- **`ft_put_bin`** writes the data and fills the last word. -/
theorem ftPutBin_spec (data : List UInt8) (cxt : FtCxt) (hlen : data.length + 3 < 2 ^ 32) :
    Wrote cxt (ftPutBin data cxt) cxt.p (cxt.p + roundUp4 data.length)
      ∧ BytesAt (ftPutBin data cxt).mem cxt.p data
      ∧ (ftPutBin data cxt).p = cxt.p + roundUp4 data.length := by
  have halign : align data.length 4 = roundUp4 data.length := align_four hlen
  have hround := le_roundUp4 data.length
  refine ⟨⟨fun a ha => ?_, rfl⟩, store_at _ _ _, ?_⟩
  · show store _ cxt.p data a = _
    rw [store_out (by omega), halign]
    split
    · rename_i hpad
      have hword : data.length + 4 ≤ roundUp4 data.length + 4 := by omega
      refine store_out ?_
      rw [wordBytes_length]
      rw [roundUp4] at *
      omega
    · rfl
  · show cxt.p + align data.length 4 = _
    rw [halign]

/-! ## §2 Space that is written -/

/-- The strings do not lie in the structure block. -/
def Apart (cxt : FtCxt) : Prop :=
  (cxt.rgn .struct).stop ≤ (cxt.rgn .strings).start
    ∨ (cxt.rgn .strings).stop ≤ (cxt.rgn .struct).start

theorem Settled.apart (h : Settled cxt need limit) : Apart cxt := Or.inl h.laid.strings

/-- What is written into the space of a `Moved` leaves it one. -/
theorem Moved.wrote (h : Moved cxt c k r n) (hw : Wrote c cxt' lo hi) (hapart : Apart c)
    (hkr : k + r ≤ (cxt.rgn .struct).size) (hlo : (c.rgn .struct).start + k ≤ lo)
    (hhi : hi ≤ (c.rgn .struct).start + (k + n)) : Moved cxt cxt' k r n := by
  have hsize := h.size
  have hstrings := h.stringsSize
  rw [Apart, FtRegion.stop, FtRegion.stop] at hapart
  refine ⟨?_, ?_, ?_, ?_, ?_, ?_, ?_, ?_, ?_⟩
  · rw [hw.rgn]
    exact h.front.trans (hw.carried (Or.inl hlo))
  · rw [hw.rgn]
    exact h.back.trans (hw.carried (Or.inr hhi))
  · rw [hw.rgn]
    exact hsize
  · rw [hw.rgn]
    exact h.strings.trans (hw.carried (by omega))
  · rw [hw.rgn]
    exact h.stringsSize
  · rw [hw.rgn, hw.anchor]
    exact h.anchor
  · rw [hw.rgn]
    exact h.space
  · intro offs hoffs hin
    have hnodes := h.nodes offs hoffs hin
    rw [FtCxt.Nodes] at hnodes ⊢
    rw [hw.rgn, hw.same]
    exact hnodes
  · rw [hw.same]
    exact h.nodeMax

/-- A context whose structure block is written may be edited as before. -/
theorem Editable.wrote {used : Nat → Prop} (h : Editable c used need) (hw : Wrote c cxt' lo hi)
    (hapart : Apart c) (hlo : (c.rgn .struct).start ≤ lo) (hhi : hi ≤ (c.rgn .struct).stop) :
    Editable cxt' used need ∧ Apart cxt' ∧ cxt'.total = c.total := by
  obtain ⟨hstruct, hok, hlaid, hused⟩ := h
  have hbph : cxt'.bph = c.bph := by rw [hw.same]
  have hmaxSize : cxt'.maxSize = c.maxSize := by rw [hw.same]
  have hordered : cxt'.isordered = c.isordered := by rw [hw.same]
  have hrgn := hw.rgn
  refine ⟨⟨by rw [hrgn]; exact hstruct, ⟨?_, ?_, ?_, ?_⟩, fun hord => ?_, fun hord a ha => ?_⟩,
    by rw [Apart, hrgn]; exact hapart, ?_⟩
  · rw [hrgn]
    exact hok.space
  · rw [hrgn, hw.anchor]
    exact hok.anchorLow
  · rw [hrgn, hw.anchor]
    exact hok.anchorHigh
  · rw [hrgn]
    rcases Nat.eq_zero_or_pos (c.rgn .strings).size with hzero | hpos
    · exact Or.inl hzero
    · right
      rw [Apart] at hapart
      simp only [FtRegion.stop] at *
      rw [hw.mem _ (by omega)]
      exact hok.terminated.resolve_left (Nat.pos_iff_ne_zero.mp hpos)
  · rw [hordered] at hord
    obtain ⟨⟨hord, hrsvmap, hstruct, hstrings, hstop⟩, hroomy⟩ := hlaid hord
    refine ⟨⟨hordered.trans hord, ?_, ?_, ?_, ?_⟩, ?_⟩
    · rw [hrgn, hbph]
      exact hrsvmap
    · rw [hrgn]
      exact hstruct
    · rw [hrgn]
      exact hstrings
    · rw [hrgn, hbph, hmaxSize]
      exact hstop
    · rw [hbph, hmaxSize]
      exact hroomy
  · rw [hordered] at hord
    refine hused hord a ?_
    rw [FtCxt.Uses, hrgn, hbph] at ha
    exact ha
  · rw [FtCxt.total, FtCxt.total, hordered, hmaxSize, FtCxt.bytes, FtCxt.bytes, hrgn]

/-- A `Moved` seen from further away: `a` bytes before it and `b` bytes behind it belong to what is
replaced. -/
theorem Moved.widen {a b : Nat} (h : Moved cxt c (k + a) r n)
    (hb : k + a + r + b ≤ (cxt.rgn .struct).size) : Moved cxt c k (a + r + b) (a + n + b) := by
  have hsize := h.size
  refine ⟨h.front.take (Nat.le_add_right _ _), ?_, by omega, h.strings, h.stringsSize, h.anchor,
    h.space, ?_, h.nodeMax⟩
  · have hpart := @Carried.part _ _ _ _ _ ((cxt.rgn .struct).size - (k + (a + r + b))) h.back b
      (by omega)
    rwa [show (cxt.rgn .struct).start + (k + a + r) + b
        = (cxt.rgn .struct).start + (k + (a + r + b)) by omega,
      show (c.rgn .struct).start + (k + a + n) + b
        = (c.rgn .struct).start + (k + (a + n + b)) by omega] at hpart
  · intro offs hoffs hin
    have hnodes := h.nodes offs hoffs fun off hoff => by have := hin off hoff; omega
    have hsame : offs.map (moveOff k (a + r + b) (a + n + b))
        = offs.map (moveOff (k + a) r n) := by
      refine List.map_congr_left fun off hoff => ?_
      have hcut := (hin off hoff).2
      rw [moveOff, moveOff]
      split <;> split <;> omega
    rw [hsame]
    exact hnodes

/-- Nothing is moved. -/
theorem Moved.refl (hspace : (cxt.rgn .strings).stop < 2 ^ 32) (k : Nat) : Moved cxt cxt k 0 0 := by
  refine ⟨Carried.refl _ _ _, Carried.refl _ _ _, rfl, Carried.refl _ _ _, rfl, rfl, hspace, ?_,
    rfl⟩
  intro offs hoffs _
  have hsame : offs.map (moveOff k 0 0) = offs := by
    refine (List.map_congr_left fun off _ => ?_).trans (List.map_id offs)
    rw [moveOff]
    split <;> rfl
  rw [hsame]
  exact hoffs

/-! ## §3 Edited trees -/

/-- Atoms that have been written into the space of a `Moved`. -/
theorem Moved.splice (h : Moved cxt cxt' (toksSize e.front) (toksSize e.old) (toksSize e.new))
    (htree : HoldsTree cxt e.before)
    (hnew : ToksAt cxt' ((cxt'.rgn .struct).start + toksSize e.front) e.new) :
    HoldsTree cxt' e.after := by
  have hname : ∀ off name, NameAt cxt off name → NameAt cxt' off name :=
    fun _ _ hname => hname.kept h.stringsKept
  obtain ⟨hatoms, hlast, hsize⟩ := htree
  have hmoved := h.size
  have hback := h.back
  rw [Edit.before] at hatoms
  rw [Edit.before, toksSize_append, toksSize_append] at hlast hsize
  obtain ⟨hfront, hrest⟩ := (toksAt_append e.front).mp hatoms
  have hrest := ((toksAt_append e.old).mp hrest).2
  refine ⟨?_, ?_, ?_⟩
  · rw [Edit.after, toksAt_append, toksAt_append]
    refine ⟨hfront.carried hname _ h.front, hnew, ?_⟩
    rw [Nat.add_assoc] at hrest ⊢
    exact hrest.carried hname _ (hback.take (by omega))
  · rw [Edit.after, toksSize_append, toksSize_append]
    have hword := word_carried (hback.part (toksSize e.back) (show _ + 4 ≤ _ by omega))
    rw [show (cxt.rgn .struct).start + (toksSize e.front + toksSize e.old) + toksSize e.back
        = (cxt.rgn .struct).start + (toksSize e.front + (toksSize e.old + toksSize e.back)) by omega,
      hlast] at hword
    rw [← hword]
    congr 1
    omega
  · rw [Edit.after, toksSize_append, toksSize_append]
    omega

/-- Where atom `i` begins in the structure block. -/
def offsetOf (toks : List Tok) (i : Nat) : Nat := toksSize (toks.take i)

/-- The node pointers point to these nodes of the tree. -/
structure Handles (cxt : FtCxt) (toks : List Tok) (nodes : List Nat) : Prop where
  table : cxt.Nodes (nodes.map (offsetOf toks))
  node : ∀ i ∈ nodes, ∃ name, IsNode toks i name

/-- The context behind an edit. -/
structure Edited (cxt cxt' : FtCxt) (e : Edit) (used : Nat → Prop) (need limit : Nat) : Prop where
  tree : HoldsTree cxt' e.after
  nodes : ∀ offs, cxt.Nodes offs →
    (∀ off ∈ offs, off < (cxt.rgn .struct).size
      ∧ (off < toksSize e.front ∨ toksSize e.front + toksSize e.old ≤ off)) →
    cxt'.Nodes (offs.map (moveOff (toksSize e.front) (toksSize e.old) (toksSize e.new)))
  nodeMax : cxt'.nodeMax = cxt.nodeMax
  editable : Editable cxt' used need
  apart : Apart cxt'
  total : cxt'.total ≤ limit

theorem offsetOf_lt {i : Nat} (hlt : i < toks.length) : offsetOf toks i < toksSize toks := by
  have hsplit : toksSize toks = offsetOf toks i + toksSize (toks.drop i) := by
    rw [offsetOf, ← toksSize_append, List.take_append_drop]
  have hpos := length_le_toksSize (toks.drop i)
  rw [List.length_drop] at hpos
  omega

theorem offsetOf_append_lt {x : List Tok} {i : Nat} (hlt : i < x.length) (y : List Tok) :
    offsetOf (x ++ y) i = offsetOf x i := by
  rw [offsetOf, offsetOf, List.take_append_of_le_length (Nat.le_of_lt hlt)]

theorem offsetOf_append_ge {x : List Tok} {i : Nat} (hge : x.length ≤ i) (y : List Tok) :
    offsetOf (x ++ y) i = toksSize x + offsetOf y (i - x.length) := by
  rw [offsetOf, offsetOf, List.take_append, List.take_of_length_le hge, toksSize_append]

/-- The offset of a node goes where its index goes. -/
theorem offsetOf_move {i : Nat} {name : List UInt8} (hnode : ∀ tok ∈ e.old, tok.isNode = false)
    (hi : IsNode e.before i name) :
    offsetOf e.after (e.move i)
        = moveOff (toksSize e.front) (toksSize e.old) (toksSize e.new) (offsetOf e.before i)
      ∧ (offsetOf e.before i < toksSize e.front
        ∨ toksSize e.front + toksSize e.old ≤ offsetOf e.before i) := by
  rcases isNode_before_cases hnode hi with hlt | hge
  · have hoff := offsetOf_lt hlt
    rw [Edit.move, if_pos hlt, Edit.after, Edit.before, offsetOf_append_lt hlt,
      offsetOf_append_lt hlt, moveOff, if_pos hoff]
    exact ⟨rfl, Or.inl hoff⟩
  · have hmove : e.move i = i - e.old.length + e.new.length := if_neg (by omega)
    have hbehind : ∀ x : List Tok, ∀ j, e.front.length + x.length ≤ j →
        offsetOf (e.front ++ (x ++ e.back)) j = toksSize e.front + toksSize x
          + offsetOf e.back (j - e.front.length - x.length) := by
      intro x j hj
      rw [offsetOf_append_ge (by omega), offsetOf_append_ge (by omega), Nat.add_assoc]
    rw [hmove, Edit.after, Edit.before, hbehind _ _ (by omega), hbehind _ _ hge, moveOff,
      if_neg (by omega)]
    refine ⟨?_, Or.inr (Nat.le_add_right _ _)⟩
    rw [show i - e.old.length + e.new.length - e.front.length - e.new.length
      = i - e.front.length - e.old.length by omega]
    omega

/-- **The node pointers follow an edit.** -/
theorem Edited.handles {nodes : List Nat} {used : Nat → Prop}
    (h : Edited cxt cxt' e used need limit)
    (htree : HoldsTree cxt e.before) (hnode : ∀ tok ∈ e.old, tok.isNode = false)
    (hh : Handles cxt e.before nodes) : Handles cxt' e.after (nodes.map e.move) := by
  have hsize := htree.size
  have htable := h.nodes _ hh.table ?_
  · refine ⟨?_, ?_⟩
    · rw [List.map_map] at htable ⊢
      have hsame : nodes.map (offsetOf e.after ∘ e.move) = nodes.map
          (moveOff (toksSize e.front) (toksSize e.old) (toksSize e.new) ∘ offsetOf e.before) := by
        refine List.map_congr_left fun i hi => ?_
        obtain ⟨name, hname⟩ := hh.node i hi
        exact (offsetOf_move hnode hname).1
      rw [hsame]
      exact htable
    · intro j hj
      obtain ⟨i, hi, rfl⟩ := List.mem_map.mp hj
      obtain ⟨name, hname⟩ := hh.node i hi
      exact ⟨name, Edit.move_isNode hnode hname⟩
  · intro off hoff
    obtain ⟨i, hi, rfl⟩ := List.mem_map.mp hoff
    obtain ⟨name, hname⟩ := hh.node i hi
    have hlt := offsetOf_lt (List.getElem?_eq_some_iff.mp hname).1
    exact ⟨by omega, (offsetOf_move hnode hname).2⟩

end LiloBoot.DevTree
