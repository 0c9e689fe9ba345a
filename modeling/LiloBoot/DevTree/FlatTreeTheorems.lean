/-
LiloBoot.DevTree.FlatTreeTheorems — what the structure block says.

A context holds a tree when the atoms of the tree stand one behind the other in
its structure block and every name offset leads to the name. The property is
about the bytes of the block and about the string block seen from the anchor:
it moves with them, which is what `carried` is for.
-/
import LiloBoot.DevTree.FlatTree

namespace LiloBoot.DevTree

open LiloBoot.Memory

/-! ## §1 Arithmetic -/

/-- The next multiple of four. -/
def roundUp4 (n : Nat) : Nat := (n + 3) / 4 * 4

theorem align_four {n : Nat} (h : n + 3 < 2 ^ 32) : align n 4 = roundUp4 n := by
  rw [align, u32_of_lt h, roundUp4]

theorem le_roundUp4 (n : Nat) : n ≤ roundUp4 n := by
  rw [roundUp4]
  omega

theorem addInt_of_nonneg {n : Nat} {d : Int} (h0 : 0 ≤ n + d) (h : n + d < 2 ^ 32) :
    addInt n d = (n + d).toNat := by
  rw [addInt, Int.emod_eq_of_lt h0 h]

/-! ## §2 Trees -/

/-- An atom of the structure block, with the names and values in full. -/
inductive Tok where
  | beginNode (name : List UInt8)
  | prop (name value : List UInt8)
  | endNode
  | nop
  deriving DecidableEq, Repr

def Tok.size : Tok → Nat
  | .beginNode name => 4 + roundUp4 (name.length + 1)
  | .prop _ value => 12 + roundUp4 value.length
  | .endNode => 4
  | .nop => 4

/-- The offset leads to a name inside the string block. -/
def NameAt (cxt : FtCxt) (off : Nat) (name : List UInt8) : Prop :=
  ∃ j, addInt cxt.strAnchor off = (cxt.rgn .strings).start + j
    ∧ j + name.length < (cxt.rgn .strings).size
    ∧ StringAt cxt.mem ((cxt.rgn .strings).start + j) name

/-- The atom that stands at `p`. -/
def Tok.At (cxt : FtCxt) (p : Nat) : Tok → Prop
  | .beginNode name => word cxt.mem p = ofDtBeginNode ∧ StringAt cxt.mem (p + 4) name
  | .prop name value =>
    word cxt.mem p = ofDtProp ∧ word cxt.mem (p + 4) = value.length
      ∧ NameAt cxt (word cxt.mem (p + 8)) name ∧ BytesAt cxt.mem (p + 12) value
  | .endNode => word cxt.mem p = ofDtEndNode
  | .nop => word cxt.mem p = ofDtNop

/-- The atoms that stand at `p`, one behind the other. -/
def ToksAt (cxt : FtCxt) : Nat → List Tok → Prop
  | _, [] => True
  | p, tok :: toks => tok.At cxt p ∧ ToksAt cxt (p + tok.size) toks

def toksSize (toks : List Tok) : Nat := (toks.map Tok.size).sum

/-- The structure block has the atoms of a tree, and ends with `OF_DT_END`. -/
structure HoldsTree (cxt : FtCxt) (toks : List Tok) : Prop where
  atoms : ToksAt cxt (cxt.rgn .struct).start toks
  last : word cxt.mem ((cxt.rgn .struct).start + toksSize toks) = ofDtEnd
  size : (cxt.rgn .struct).size = toksSize toks + 4

variable {cxt cxt' : FtCxt} {p p' : Nat} {tok : Tok} {toks front rest : List Tok}

theorem toksSize_cons (tok : Tok) (toks : List Tok) :
    toksSize (tok :: toks) = tok.size + toksSize toks := by
  simp [toksSize]

theorem toksSize_append (front rest : List Tok) :
    toksSize (front ++ rest) = toksSize front + toksSize rest := by
  simp [toksSize]

theorem Tok.four_le_size (tok : Tok) : 4 ≤ tok.size := by
  cases tok with
  | beginNode name => exact Nat.le_add_right _ _
  | prop name value => exact Nat.le_trans (by decide) (Nat.le_add_right 12 _)
  | endNode => exact Nat.le_refl _
  | nop => exact Nat.le_refl _

theorem length_le_toksSize (toks : List Tok) : toks.length ≤ toksSize toks := by
  induction toks with
  | nil => exact Nat.le_refl _
  | cons tok toks ih =>
    have hsize := tok.four_le_size
    rw [toksSize_cons, List.length_cons]
    omega

theorem toksAt_append (front : List Tok) : ∀ {p : Nat} {rest : List Tok},
    ToksAt cxt p (front ++ rest) ↔ ToksAt cxt p front ∧ ToksAt cxt (p + toksSize front) rest := by
  induction front with
  | nil =>
    intro p rest
    exact ⟨fun h => ⟨trivial, h⟩, fun h => h.2⟩
  | cons tok front ih =>
    intro p rest
    rw [List.cons_append, ToksAt, ToksAt, ih, toksSize_cons, Nat.add_assoc, and_assoc]

/-! ## §3 One tree -/

theorem NameAt.unique {off : Nat} {name name' : List UInt8} (h : NameAt cxt off name)
    (h' : NameAt cxt off name') : name = name' := by
  obtain ⟨j, hj, -, hname⟩ := h
  obtain ⟨j', hj', -, hname'⟩ := h'
  obtain rfl : j = j' := Nat.add_left_cancel (hj.symm.trans hj')
  exact hname.unique hname'

/-- At an address stands one atom. -/
theorem Tok.At.unique {tok' : Tok} (h : tok.At cxt p) (h' : tok'.At cxt p) : tok = tok' := by
  cases tok with
  | beginNode name =>
    cases tok' with
    | beginNode name' => rw [h.2.unique h'.2]
    | prop name' value' => exact absurd (h.1.symm.trans h'.1) (by decide)
    | endNode => exact absurd (h.1.symm.trans h') (by decide)
    | nop => exact absurd (h.1.symm.trans h') (by decide)
  | prop name value =>
    cases tok' with
    | beginNode name' => exact absurd (h.1.symm.trans h'.1) (by decide)
    | prop name' value' =>
      obtain ⟨-, hlen, hname, hvalue⟩ := h
      obtain ⟨-, hlen', hname', hvalue'⟩ := h'
      rw [hname.unique hname', hvalue.unique hvalue' (hlen.symm.trans hlen')]
    | endNode => exact absurd (h.1.symm.trans h') (by decide)
    | nop => exact absurd (h.1.symm.trans h') (by decide)
  | endNode =>
    have h : word cxt.mem p = ofDtEndNode := h
    cases tok' with
    | beginNode name' => exact absurd (h.symm.trans h'.1) (by decide)
    | prop name' value' => exact absurd (h.symm.trans h'.1) (by decide)
    | endNode => rfl
    | nop => exact absurd (h.symm.trans h') (by decide)
  | nop =>
    have h : word cxt.mem p = ofDtNop := h
    cases tok' with
    | beginNode name' => exact absurd (h.symm.trans h'.1) (by decide)
    | prop name' value' => exact absurd (h.symm.trans h'.1) (by decide)
    | endNode => exact absurd (h.symm.trans h') (by decide)
    | nop => rfl

theorem Tok.At.tag_ne (h : tok.At cxt p) : word cxt.mem p ≠ ofDtEnd := by
  cases tok with
  | beginNode name => rw [h.1]; decide
  | prop name value => rw [h.1]; decide
  | endNode =>
    have h : word cxt.mem p = ofDtEndNode := h
    rw [h]; decide
  | nop =>
    have h : word cxt.mem p = ofDtNop := h
    rw [h]; decide

/-- A context holds one tree. -/
theorem HoldsTree.unique {toks' : List Tok} (h : HoldsTree cxt toks) (h' : HoldsTree cxt toks') :
    toks = toks' := by
  obtain ⟨hatoms, hlast, -⟩ := h
  obtain ⟨hatoms', hlast', -⟩ := h'
  generalize (cxt.rgn .struct).start = p at hatoms hlast hatoms' hlast'
  induction toks generalizing p toks' with
  | nil =>
    cases toks' with
    | nil => rfl
    | cons tok' toks' => exact absurd hlast hatoms'.1.tag_ne
  | cons tok toks ih =>
    cases toks' with
    | nil => exact absurd hlast' hatoms.1.tag_ne
    | cons tok' toks' =>
      obtain rfl := hatoms.1.unique hatoms'.1
      rw [toksSize_cons, ← Nat.add_assoc] at hlast hlast'
      rw [ih _ hatoms.2 hlast hatoms'.2 hlast']

/-! ## §4 Moving a tree -/

/-- The strings of `cxt` stand in those of `cxt'` from `k` on, and the anchor has moved with
them. -/
structure StringsKept (cxt cxt' : FtCxt) (k : Nat) : Prop where
  bytes : Carried cxt.mem (cxt.rgn .strings).start cxt'.mem ((cxt'.rgn .strings).start + k)
    (cxt.rgn .strings).size
  inside : k + (cxt.rgn .strings).size ≤ (cxt'.rgn .strings).size
  space : (cxt'.rgn .strings).stop ≤ 2 ^ 32
  anchor : ((cxt'.strAnchor : Int) - cxt.strAnchor) % 2 ^ 32
    = (((cxt'.rgn .strings).start + k : Nat) - (cxt.rgn .strings).start : Int) % 2 ^ 32

theorem NameAt.kept {off k : Nat} {name : List UInt8} (h : NameAt cxt off name)
    (hkept : StringsKept cxt cxt' k) : NameAt cxt' off name := by
  obtain ⟨j, hat, hj, hname⟩ := h
  obtain ⟨hbytes, hinside, hspace, hanchor⟩ := hkept
  refine ⟨k + j, ?_, by omega, ?_⟩
  · rw [FtRegion.stop] at hspace
    rw [addInt] at hat ⊢
    omega
  · rw [← Nat.add_assoc]
    exact hname.carried (hbytes.part j (by omega))

theorem Tok.At.carried (h : tok.At cxt p) (hc : Carried cxt.mem p cxt'.mem p' tok.size)
    (hname : ∀ off name, NameAt cxt off name → NameAt cxt' off name) : tok.At cxt' p' := by
  have hword : ∀ k, k + 4 ≤ tok.size → word cxt'.mem (p' + k) = word cxt.mem (p + k) :=
    fun k hk => word_carried (hc.part k hk)
  have htag := hword 0 (by have := tok.four_le_size; omega)
  rw [Nat.add_zero, Nat.add_zero] at htag
  cases tok with
  | beginNode name =>
    refine ⟨htag.trans h.1, h.2.carried (hc.part 4 ?_)⟩
    exact Nat.add_le_add_left (le_roundUp4 _) 4
  | prop name value =>
    obtain ⟨h0, h4, h8, h12⟩ := h
    have hsize : (Tok.prop name value).size = 12 + roundUp4 value.length := rfl
    have hround := le_roundUp4 value.length
    refine ⟨htag.trans h0, (hword 4 (by omega)).trans h4, ?_, h12.carried (hc.part 12 (by omega))⟩
    rw [hword 8 (by omega)]
    exact hname _ _ h8
  | endNode => exact htag.trans h
  | nop => exact htag.trans h

theorem ToksAt.carried (hname : ∀ off name, NameAt cxt off name → NameAt cxt' off name)
    (toks : List Tok) : ∀ {p p' : Nat}, ToksAt cxt p toks →
    Carried cxt.mem p cxt'.mem p' (toksSize toks) → ToksAt cxt' p' toks := by
  induction toks with
  | nil =>
    intro p p' _ _
    trivial
  | cons tok toks ih =>
    intro p p' h hc
    rw [toksSize_cons] at hc
    exact ⟨h.1.carried (hc.take (Nat.le_add_right _ _)) hname,
      ih h.2 (hc.part tok.size (Nat.le_refl _))⟩

/-- A structure block that moves as a whole. -/
theorem HoldsTree.carried (h : HoldsTree cxt toks)
    (hname : ∀ off name, NameAt cxt off name → NameAt cxt' off name)
    (hsize : (cxt'.rgn .struct).size = (cxt.rgn .struct).size)
    (hc : Carried cxt.mem (cxt.rgn .struct).start cxt'.mem (cxt'.rgn .struct).start
      (cxt.rgn .struct).size) : HoldsTree cxt' toks := by
  have hlen := h.size
  refine ⟨h.atoms.carried hname toks (hc.take (by omega)), ?_, hsize.trans h.size⟩
  rw [word_carried (hc.part (toksSize toks) (by omega))]
  exact h.last

/-! ## §5 Walking -/

/-- The fields that `ft_next` sets for the atom at `p`. -/
def Tok.atom (cxt : FtCxt) (p : Nat) : Tok → FtAtom
  | .beginNode _ => .beginNode (p + 4) p
  | .prop _ value => .prop (addInt cxt.strAnchor (word cxt.mem (p + 8))) (p + 12) value.length
  | .endNode => .endNode
  | .nop => .nop

/-- What `ft_next` reads of an atom. -/
def Tok.ShapeAt (mem : Bytes) (p : Nat) : Tok → Prop
  | .beginNode name => word mem p = ofDtBeginNode ∧ StringAt mem (p + 4) name
  | .prop _ value => word mem p = ofDtProp ∧ word mem (p + 4) = value.length
  | .endNode => word mem p = ofDtEndNode
  | .nop => word mem p = ofDtNop

theorem Tok.At.shape (h : tok.At cxt p) : tok.ShapeAt cxt.mem p := by
  cases tok with
  | beginNode name => exact h
  | prop name value => exact ⟨h.1, h.2.1⟩
  | endNode => exact h
  | nop => exact h

theorem Tok.ShapeAt.next (h : tok.ShapeAt cxt.mem p) (hp : p + tok.size < (cxt.rgn .struct).stop)
    (hspace : (cxt.rgn .struct).stop ≤ 2 ^ 32) :
    ftNext cxt p = some (p + tok.size, tok.atom cxt p) := by
  have hfour := tok.four_le_size
  rw [ftNext, if_neg (by omega)]
  cases tok with
  | beginNode name =>
    have hsize : (Tok.beginNode name).size = 4 + roundUp4 (name.length + 1) := rfl
    have hround := le_roundUp4 (name.length + 1)
    have halign : align (name.length + 1) 4 = roundUp4 (name.length + 1) := align_four (by omega)
    rw [if_pos h.1, strlen_stringAt h.2 (by omega), halign, hsize, Nat.add_assoc]
    rfl
  | prop name value =>
    obtain ⟨h0, h4⟩ := h
    have hsize : (Tok.prop name value).size = 12 + roundUp4 value.length := rfl
    have hround := le_roundUp4 value.length
    have halign : align value.length 4 = roundUp4 value.length := align_four (by omega)
    rw [if_neg (by rw [h0]; decide), if_pos h0, h4]
    simp only [halign, hsize, Tok.atom]
    rw [Nat.add_assoc, ← Nat.add_assoc 4 8]
  | endNode =>
    have h : word cxt.mem p = ofDtEndNode := h
    rw [if_neg (by rw [h]; decide), if_neg (by rw [h]; decide), if_pos h]
    rfl
  | nop =>
    have h : word cxt.mem p = ofDtNop := h
    rw [if_neg (by rw [h]; decide), if_neg (by rw [h]; decide), if_neg (by rw [h]; decide),
      if_pos h]
    rfl

theorem Tok.At.next (h : tok.At cxt p) (hp : p + tok.size < (cxt.rgn .struct).stop)
    (hspace : (cxt.rgn .struct).stop ≤ 2 ^ 32) :
    ftNext cxt p = some (p + tok.size, tok.atom cxt p) := h.shape.next hp hspace

/-- `OF_DT_END` has no successor. -/
theorem ftNext_end (h : word cxt.mem p = ofDtEnd) : ftNext cxt p = none := by
  rw [ftNext, h]
  split
  · rfl
  · rfl

end LiloBoot.DevTree
