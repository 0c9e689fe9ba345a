/-
LiloBoot.DevTree.CallTheorems — edits of an open device tree are local.

§1 and §2 put the space of `ft_make_space` and what is written into it together,
for each of the three edits. §3 and §4 are the walks over the atoms, by induction
on what is left of them. §5 is one call, and the run.
-/
import LiloBoot.DevTree.Call

namespace LiloBoot.DevTree

open LiloBoot.Memory

variable {cxt cxt' c : FtCxt} {realloc : Realloc} {used : Nat → Prop}
  {need limit k r n lo hi p m : Nat} {e : Edit} {toks front rest : List Tok}
  {name value : List UInt8}

/-! ## §1 Contexts that are written -/

/-- Atoms written into space that has been made for them. -/
theorem Moved.edited
    (h : Moved cxt c (toksSize e.front) (toksSize e.old) (toksSize e.new))
    (hcxt : Editable c used need) (hapart : Apart c) (hlimit : c.total ≤ limit)
    (htree : HoldsTree cxt e.before) (hw : Wrote c cxt' lo hi)
    (hlo : (c.rgn .struct).start + toksSize e.front ≤ lo)
    (hhi : hi ≤ (c.rgn .struct).start + (toksSize e.front + toksSize e.new))
    (hnew : ToksAt cxt' ((cxt'.rgn .struct).start + toksSize e.front) e.new) :
    Edited cxt cxt' e used need limit := by
  have hsize := htree.size
  rw [Edit.before, toksSize_append, toksSize_append] at hsize
  have hmoved := h.wrote hw hapart (by omega) hlo hhi
  have hgrown := h.size
  obtain ⟨heditable, hapart', htotal⟩ :=
    hcxt.wrote hw hapart (by omega) (by rw [FtRegion.stop]; omega)
  exact ⟨hmoved.splice htree hnew, hmoved.nodes, hmoved.nodeMax, heditable, hapart',
    by rw [htotal]; exact hlimit⟩

theorem Kept.edited (h : Kept cxt c m) (h' : Edited c cxt' e used need limit) :
    Edited cxt cxt' e used need limit := by
  refine ⟨h'.tree, fun offs hoffs hin => ?_, h'.nodeMax.trans h.nodeMax, h'.editable, h'.apart,
    h'.total⟩
  refine h'.nodes offs (h.nodes offs hoffs fun off hoff => (hin off hoff).1) ?_
  rw [h.structSize]
  exact hin

theorem Kept.tree (h : Kept cxt c m) (htree : HoldsTree cxt toks) : HoldsTree c toks :=
  htree.carried (fun _ _ hname => hname.kept h.stringsKept) h.structSize h.struct

/-- Only the insertion point is set. -/
theorem Editable.atPoint (h : Editable cxt used need) (hapart : Apart cxt) (p : Nat) :
    Editable { cxt with p := p } used need ∧ Apart { cxt with p := p }
      ∧ FtCxt.total { cxt with p := p } = cxt.total
      ∧ Kept cxt { cxt with p := p } 0 := by
  have hw : Wrote cxt { cxt with p := p } (cxt.rgn .struct).start (cxt.rgn .struct).start :=
    ⟨fun _ _ => rfl, rfl⟩
  obtain ⟨heditable, hapart', htotal⟩ :=
    h.wrote hw hapart (Nat.le_refl _) (Nat.le_add_right _ _)
  exact ⟨heditable, hapart', htotal, Carried.refl _ _ _, rfl, Carried.refl _ _ _, rfl, rfl,
    h.strings.space, fun _ hoffs _ => hoffs, rfl⟩

/-- An atom before the end of the structure block. -/
theorem HoldsTree.front_lt (h : HoldsTree cxt e.before) :
    toksSize e.front + toksSize e.old < (cxt.rgn .struct).size := by
  have hsize := h.size
  rw [Edit.before, toksSize_append, toksSize_append] at hsize
  omega

theorem toksSize_one (tok : Tok) : toksSize [tok] = tok.size := by
  rw [toksSize_cons]
  rfl

/-! ## §2 The three edits -/

/-- **`ft_prop`** puts the property where the insertion point is. -/
theorem ftProp_spec (hgood : GoodRealloc realloc used need) (hcxt : Editable cxt used need)
    (htree : HoldsTree cxt e.before) (hold : e.old = []) (hnew : e.new = [.prop name value])
    (hp : cxt.p = (cxt.rgn .struct).start + toksSize e.front) (hno : 0 ∉ name)
    (hroom : NameFits cxt name) (hneed : name.length + value.length + 16 ≤ need)
    (hfits : cxt.total + (name.length + value.length + 16) + 2142 < 2 ^ 31) :
    ∃ cxt', ftProp realloc name value cxt = (true, cxt')
      ∧ Edited cxt cxt' e used need (2 ^ 31) := by
  have hfront := htree.front_lt
  have hround : roundUp4 value.length ≤ value.length + 3 := by
    rw [roundUp4]
    omega
  obtain ⟨off, c, m, hmap, hne, h32, hname, hkept, hfollows, hcxt', htotal⟩ :=
    mapString_spec hgood hcxt hno (by omega) (by omega) hroom
  have hpc : c.p = (c.rgn .struct).start + toksSize e.front := by
    have hmoved := hfollows (by omega) (by rw [FtRegion.stop]; omega)
    omega
  have htree' := hkept.tree htree
  obtain ⟨c', hspace, hmoved, hsettled⟩ := @ftMakeSpace_grow c (toksSize e.front)
    (12 + roundUp4 value.length) realloc need used hgood hcxt' (by omega) (by omega)
    (by have := htree'.front_lt; omega)
  -- what is written, atom by atom
  obtain ⟨w, hw⟩ : ∃ w, w = ftPutWord off (ftPutWord value.length (ftPutWord ofDtProp
      { c' with p := (c'.rgn .struct).start + toksSize e.front })) := ⟨_, rfl⟩
  obtain ⟨p, hpdef⟩ : ∃ p, p = (c'.rgn .struct).start + toksSize e.front := ⟨_, rfl⟩
  rw [← hpdef] at hspace hw
  have hwp : w.p = p + 12 := by rw [hw]; rfl
  have hwmem : w.mem = storeWord (storeWord (storeWord c'.mem p ofDtProp) (p + 4) value.length)
      (p + 8) off := by
    rw [hw]
    rfl
  have hhead : Wrote c' w p (p + 12) := by
    refine ⟨fun a ha => ?_, by rw [hw]; rfl⟩
    have hout : ∀ (mem : Bytes) (q v : Nat), p ≤ q → q + 4 ≤ p + 12 → storeWord mem q v a = mem a :=
      fun mem q v hlow hhigh => store_out (by rw [wordBytes_length]; omega)
    rw [hwmem, hout _ _ _ (by omega) (by omega), hout _ _ _ (by omega) (by omega),
      hout _ _ _ (by omega) (by omega)]
  obtain ⟨hbin, hbytes, -⟩ := ftPutBin_spec value w (by omega)
  rw [hwp] at hbin hbytes
  have hwrote := hhead.trans hbin (Nat.le_add_right _ _) (Nat.le_add_right _ _)
  have hword : ∀ q, q + 4 ≤ p + 12 → word (ftPutBin value w).mem q = word w.mem q :=
    fun q hq => word_carried (hbin.carried (Or.inl hq))
  have hsize : toksSize e.new = 12 + roundUp4 value.length := by rw [hnew, toksSize_one]; rfl
  have hzero : toksSize e.old = 0 := by rw [hold]; rfl
  refine ⟨ftPutBin value w, ?_, hkept.edited (@Moved.edited c (ftPutBin value w) c' used need
    (2 ^ 31) p (p + 12 + roundUp4 value.length) e ?_ (hsettled.editable used) hsettled.apart ?_ htree' hwrote ?_ ?_
    ?_)⟩
  · rw [ftProp, hmap]
    simp only [hne, if_false]
    rw [hpc, align_four (by omega), hspace]
    simp only [hw]
  · rw [hzero, hsize]
    exact hmoved
  · have := hsettled.total
    omega
  · rw [hpdef]
  · rw [hpdef, hsize]
    omega
  · rw [hnew, hwrote.rgn, ← hpdef]
    refine ⟨⟨?_, ?_, ?_, hbytes⟩, trivial⟩
    · rw [hword p (by omega), hwmem, word_storeWord_ne (by omega), word_storeWord_ne (by omega),
        word_storeWord]
      rfl
    · rw [hword (p + 4) (by omega), hwmem, word_storeWord_ne (by omega), word_storeWord]
      exact Nat.mod_eq_of_lt (by omega)
    · rw [hword (p + 8) (by omega), hwmem, word_storeWord, Nat.mod_eq_of_lt h32]
      have hall : Moved c (ftPutBin value w) (toksSize e.front) 0 (12 + roundUp4 value.length) :=
        hmoved.wrote hwrote hsettled.apart (by have := htree'.front_lt; omega) (by omega) (by omega)
      exact hname.kept hall.stringsKept

/-- The room of a value of `a` bytes turned into that of one of `b` bytes: what is in between is
taken out or put in, and `rest` bytes stay. -/
theorem resize_spec {a b : Nat} (hgood : GoodRealloc realloc used need)
    (hcxt : Editable cxt used need) (hapart : Apart cxt)
    (hk : k < (cxt.rgn .struct).size) (ha : k + a ≤ (cxt.rgn .struct).size)
    (hneed : b ≤ need) (hfits : cxt.total + b + 1071 < 2 ^ 31) :
    ∃ c r n rest, a = r + rest ∧ b = n + rest
      ∧ (if (b : Int) - a ≠ 0 then
          ftMakeSpace realloc ((cxt.rgn .struct).start + k) .struct ((b : Int) - a) cxt
        else (true, (cxt.rgn .struct).start + k, cxt)) = (true, (c.rgn .struct).start + k, c)
      ∧ Moved cxt c k r n ∧ Editable c used need ∧ Apart c ∧ c.total ≤ 2 ^ 31 := by
  rcases Nat.lt_trichotomy a b with hlt | rfl | hgt
  · obtain ⟨c, hspace, hmoved, hsettled⟩ := @ftMakeSpace_grow cxt k (b - a) realloc need used hgood
      hcxt (by omega) (by omega) hk
    have htotal := hsettled.total
    have hdiff : (b : Int) - a = (b - a : Nat) := by omega
    refine ⟨c, 0, b - a, a, by omega, by omega, ?_, hmoved, hsettled.editable used, hsettled.apart,
      by omega⟩
    rw [if_pos (by omega), hdiff, hspace]
  · refine ⟨cxt, 0, 0, a, by omega, by omega, ?_, Moved.refl hcxt.strings.space k, hcxt, hapart,
      by omega⟩
    rw [if_neg (by omega)]
  · obtain ⟨c, hspace, hmoved, hsettled⟩ := @ftMakeSpace_shrink cxt k (a - b) realloc need used hgood
      hcxt (by omega) hk (by omega) (by omega)
    have htotal := hsettled.total
    have hdiff : (b : Int) - a = -((a - b : Nat) : Int) := by omega
    refine ⟨c, a - b, 0, b, by omega, by omega, ?_, hmoved, hsettled.editable used, hsettled.apart,
      by omega⟩
    rw [if_pos (by omega), hdiff, hspace]

/-- **A property that was found** gets the new value in its place. -/
theorem overwriteProp_spec {w : List UInt8} (hgood : GoodRealloc realloc used need)
    (hcxt : Editable cxt used need) (hapart : Apart cxt) (htree : HoldsTree cxt e.before)
    (hold : e.old = [.prop name w]) (hnew : e.new = [.prop name value])
    (hneed : value.length + 3 ≤ need) (hfits : cxt.total + value.length + 1074 < 2 ^ 31) :
    ∃ cxt', overwriteProp realloc value ((cxt.rgn .struct).start + toksSize e.front + 12)
        w.length cxt = (true, cxt')
      ∧ Edited cxt cxt' e used need (2 ^ 31) := by
  have hfront := htree.front_lt
  have hround : roundUp4 value.length ≤ value.length + 3 := by
    rw [roundUp4]
    omega
  have hsizeOld : toksSize e.old = 12 + roundUp4 w.length := by rw [hold, toksSize_one]; rfl
  have hsizeNew : toksSize e.new = 12 + roundUp4 value.length := by rw [hnew, toksSize_one]; rfl
  have hspace := hcxt.struct
  have hwround := le_roundUp4 w.length
  rw [FtRegion.stop] at hspace
  have hatoms := htree.atoms
  rw [Edit.before, hold, toksAt_append] at hatoms
  obtain ⟨htag, -, hname, -⟩ := hatoms.2.1
  obtain ⟨k, hk⟩ : ∃ k, k = toksSize e.front := ⟨_, rfl⟩
  rw [← hk] at hfront htag hname ⊢
  obtain ⟨data, hdata⟩ : ∃ data, data = (cxt.rgn .struct).start + (k + 12) := ⟨_, rfl⟩
  obtain ⟨hcxt₁, hapart₁, htotal₁, hkept₁⟩ := hcxt.atPoint hapart data
  obtain ⟨c, r, n, rest, hr, hn, hrun, hmoved₁, hcxt', hapart', htotal⟩ :=
    @resize_spec _ realloc used need (k + 12) (roundUp4 w.length) (roundUp4 value.length) hgood hcxt₁
      hapart₁ (show k + 12 < (cxt.rgn .struct).size by omega)
      (show k + 12 + roundUp4 w.length ≤ (cxt.rgn .struct).size by omega) (by omega)
      (by rw [htotal₁]; omega)
  have hrun : (if (roundUp4 value.length : Int) - roundUp4 w.length ≠ 0 then
        ftMakeSpace realloc ((cxt.rgn .struct).start + (k + 12)) .struct
          ((roundUp4 value.length : Int) - roundUp4 w.length) { cxt with p := data }
      else (true, (cxt.rgn .struct).start + (k + 12), { cxt with p := data }))
        = (true, (c.rgn .struct).start + (k + 12), c) := hrun
  have hmoved : Moved cxt c (k + 12) r n := hkept₁.moved hmoved₁ (by omega)
  have hwide : Moved cxt c k (toksSize e.old) (toksSize e.new) := by
    have hwiden := @Moved.widen cxt c k r n 12 rest hmoved (by omega)
    rwa [show 12 + r + rest = toksSize e.old by omega,
      show 12 + n + rest = toksSize e.new by omega] at hwiden
  -- the length and the value are written, the tag and the name stay
  obtain ⟨q, hq⟩ : ∃ q, q = (c.rgn .struct).start + k := ⟨_, rfl⟩
  obtain ⟨v, hv⟩ : ∃ v : FtCxt, v = { c with
      mem := storeWord c.mem (q + 4) value.length, p := q + 12 } := ⟨_, rfl⟩
  have hvmem : v.mem = storeWord c.mem (q + 4) value.length := by rw [hv]
  have hvp : v.p = q + 12 := by rw [hv]
  have hhead : Wrote c v (q + 4) (q + 8) := by
    refine ⟨fun a ha => ?_, by rw [hv]⟩
    rw [hvmem]
    exact store_out (by rw [wordBytes_length]; omega)
  obtain ⟨hbin, hbytes, -⟩ := ftPutBin_spec value v (by omega)
  rw [hvp] at hbin hbytes
  have hwrote := hhead.trans hbin (by omega) (by omega)
  have hheader : Carried cxt.mem ((cxt.rgn .struct).start + k) c.mem q 12 := by
    rw [hq]
    exact hmoved.front.part k (Nat.le_refl _)
  have hstay : ∀ i, i + 4 ≤ 12 → (i + 4 ≤ 4 ∨ 8 ≤ i) →
      word (ftPutBin value v).mem (q + i) = word cxt.mem ((cxt.rgn .struct).start + k + i) := by
    intro i hi hout
    rw [word_carried (hbin.carried (Or.inl (by omega))), hvmem, word_storeWord_ne (by omega)]
    exact word_carried (hheader.part i hi)
  have hall : Moved cxt (ftPutBin value v) k (toksSize e.old) (toksSize e.new) :=
    hwide.wrote hwrote hapart' (by omega) (by omega) (by omega)
  refine ⟨ftPutBin value v, ?_, @Moved.edited cxt (ftPutBin value v) c used need (2 ^ 31) (q + 4)
    (q + 12 + roundUp4 value.length) e (by rw [← hk]; exact hwide) hcxt' hapart' htotal htree hwrote
    (by omega) (by omega) ?_⟩
  · rw [overwriteProp, align_four (by omega), align_four (by omega)]
    rw [← hdata] at hrun
    rw [Nat.add_assoc, ← hdata]
    simp only
    rw [hrun, ← Nat.add_assoc, ← hq]
    simp only [hv]
    rw [show q + 12 - 8 = q + 4 by omega]
  · rw [hnew, hwrote.rgn, ← hk, ← hq]
    refine ⟨⟨?_, ?_, ?_, hbytes⟩, trivial⟩
    · have htag' := hstay 0 (by omega) (Or.inl (Nat.le_refl _))
      rw [Nat.add_zero, Nat.add_zero] at htag'
      rw [htag']
      exact htag
    · rw [word_carried (hbin.carried (Or.inl (by omega))), hvmem, word_storeWord]
      exact Nat.mod_eq_of_lt (by omega)
    · rw [hstay 8 (by omega) (Or.inr (Nat.le_refl _))]
      exact hname.kept hall.stringsKept

/-- **`ft_begin_node`** with `ft_end_node` puts an empty node where the insertion point is. -/
theorem ftBeginNode_spec (hgood : GoodRealloc realloc used need) (hcxt : Editable cxt used need)
    (htree : HoldsTree cxt e.before) (hold : e.old = [])
    (hnew : e.new = [.beginNode name, .endNode])
    (hp : cxt.p = (cxt.rgn .struct).start + toksSize e.front) (hno : 0 ∉ name)
    (hneed : name.length + 12 ≤ need) (hfits : cxt.total + (name.length + 12) + 1071 < 2 ^ 31) :
    ∃ c, ftBeginNode realloc name cxt
        = (some (((ftEndNode c).rgn .struct).start + toksSize e.front), c)
      ∧ Edited cxt (ftEndNode c) e used need (2 ^ 31) := by
  have hfront := htree.front_lt
  have hround : roundUp4 (name.length + 1) ≤ name.length + 4 := by
    rw [roundUp4]
    omega
  have hlength : (name ++ [0]).length = name.length + 1 := by rw [List.length_append]; rfl
  have hsize : toksSize e.new = 8 + roundUp4 (name.length + 1) := by
    rw [hnew, toksSize_cons, toksSize_one, Tok.size, Tok.size]
    omega
  have hzero : toksSize e.old = 0 := by rw [hold]; rfl
  obtain ⟨c, hspace, hmoved, hsettled⟩ := @ftMakeSpace_grow cxt (toksSize e.front)
    (8 + roundUp4 (name.length + 1)) realloc need used hgood hcxt (by omega) (by omega) (by omega)
  obtain ⟨q, hq⟩ : ∃ q, q = (c.rgn .struct).start + toksSize e.front := ⟨_, rfl⟩
  obtain ⟨v, hv⟩ : ∃ v, v = ftPutWord ofDtBeginNode { c with p := q } := ⟨_, rfl⟩
  have hvmem : v.mem = storeWord c.mem q ofDtBeginNode := by rw [hv]; rfl
  have hvp : v.p = q + 4 := by rw [hv]; rfl
  have hhead : Wrote c v q (q + 4) := by
    refine ⟨fun a ha => ?_, by rw [hv]; rfl⟩
    rw [hvmem]
    exact store_out (by rw [wordBytes_length]; omega)
  obtain ⟨hbin, hbytes, hbp⟩ := ftPutBin_spec (name ++ [0]) v (by omega)
  rw [hvp, hlength] at hbin hbp
  rw [hvp] at hbytes
  have hend := wrote_putWord ofDtEndNode (ftPutBin (name ++ [0]) v)
  rw [hbp] at hend
  have hwrote := (hhead.trans hbin (by omega) (by omega)).trans hend (by omega) (by omega)
  rw [← hq] at hspace
  have hrgn : (ftEndNode (ftPutBin (name ++ [0]) v)).rgn = c.rgn := hwrote.rgn
  have hendMem : (ftEndNode (ftPutBin (name ++ [0]) v)).mem
      = storeWord (ftPutBin (name ++ [0]) v).mem (q + 4 + roundUp4 (name.length + 1))
        ofDtEndNode := by
    rw [← hbp]
    rfl
  have hnameRound := le_roundUp4 (name.length + 1)
  refine ⟨ftPutBin (name ++ [0]) v, ?_, @Moved.edited cxt (ftEndNode (ftPutBin (name ++ [0]) v)) c
    used need (2 ^ 31) q _ e (by rw [hzero, hsize]; exact hmoved) (hsettled.editable used)
    hsettled.apart (by have := hsettled.total; omega) htree hwrote (by omega) (by omega) ?_⟩
  · rw [ftBeginNode, hp, align_four (by omega), hspace, hrgn, ← hq, hv]
  · rw [hnew, hrgn, ← hq]
    refine ⟨⟨?_, ?_⟩, ?_, trivial⟩
    · rw [hendMem, word_storeWord_ne (by omega), word_carried (hbin.carried (Or.inl (by omega))),
        hvmem, word_storeWord]
      rfl
    · rw [hendMem]
      refine ⟨fun i hi => ?_, ?_, hno⟩
      · rw [storeWord, store_out (by rw [wordBytes_length]; omega), hbytes i (by omega),
          List.getD_append _ _ _ _ hi]
      · rw [storeWord, store_out (by rw [wordBytes_length]; omega), hbytes name.length (by omega),
          List.getD_append_right _ _ _ _ (Nat.le_refl _), Nat.sub_self]
        rfl
    · show word _ _ = _
      rw [Tok.size, hendMem, ← Nat.add_assoc, word_storeWord]
      rfl

/-! ## §3 Walks that read -/

theorem toksSize_snoc (front : List Tok) (tok : Tok) :
    toksSize (front ++ [tok]) = toksSize front + tok.size := by
  rw [toksSize_append, toksSize_one]

theorem HoldsTree.atom {tok : Tok} (h : HoldsTree cxt (front ++ tok :: rest)) :
    tok.At cxt ((cxt.rgn .struct).start + toksSize front) :=
  ((toksAt_append front).mp h.atoms).2.1

theorem HoldsTree.step {tok : Tok} (h : HoldsTree cxt (front ++ tok :: rest))
    (hspace : (cxt.rgn .struct).stop < 2 ^ 32) :
    ftNext cxt ((cxt.rgn .struct).start + toksSize front)
      = some ((cxt.rgn .struct).start + toksSize (front ++ [tok]),
        tok.atom cxt ((cxt.rgn .struct).start + toksSize front)) := by
  have hsize := h.size
  rw [toksSize_append, toksSize_cons] at hsize
  rw [h.atom.next (by rw [FtRegion.stop]; omega) (Nat.le_of_lt hspace), toksSize_snoc,
    Nat.add_assoc]

theorem HoldsTree.last_step (h : HoldsTree cxt toks) :
    ftNext cxt ((cxt.rgn .struct).start + toksSize toks) = none := ftNext_end h.last

theorem HoldsTree.named {n w : List UInt8} (h : HoldsTree cxt (front ++ .prop n w :: rest))
    (hno : 0 ∉ name) :
    strcmpEq cxt.mem (addInt cxt.strAnchor
      (word cxt.mem ((cxt.rgn .struct).start + toksSize front + 8))) name = true ↔ n = name := by
  obtain ⟨j, hat, -, hname⟩ := h.atom.2.2.1
  rw [hat]
  exact strcmpEq_stringAt name hname hno

/-- The walk of `__ft_get_prop`. -/
theorem getPropLoop_spec (hspace : (cxt.rgn .struct).stop < 2 ^ 32) (hno : 0 ∉ name)
    (rest : List Tok) : ∀ {front : List Tok} {fuel d : Nat}, HoldsTree cxt (front ++ rest) →
    rest.length < fuel →
    (getPropLoop cxt name fuel ((cxt.rgn .struct).start + toksSize front) d = none
        ∧ valueOf name d rest = none)
      ∨ ∃ data value,
        getPropLoop cxt name fuel ((cxt.rgn .struct).start + toksSize front) d
          = some (data, value.length)
        ∧ valueOf name d rest = some value ∧ BytesAt cxt.mem data value := by
  induction rest with
  | nil =>
    intro front fuel d h hfuel
    obtain ⟨fuel, rfl⟩ : ∃ k, fuel = k + 1 := ⟨fuel - 1, by omega⟩
    rw [List.append_nil] at h
    left
    rw [getPropLoop, h.last_step]
    exact ⟨rfl, rfl⟩
  | cons tok rest ih =>
    intro front fuel d h hfuel
    rw [List.length_cons] at hfuel
    obtain ⟨fuel, rfl⟩ : ∃ k, fuel = k + 1 := ⟨fuel - 1, by omega⟩
    have hnext : HoldsTree cxt ((front ++ [tok]) ++ rest) := by
      rw [List.append_assoc]
      exact h
    rw [getPropLoop, h.step hspace]
    cases tok with
    | beginNode n =>
      have hdepth : ((d : Int) + 1) = ((d + 1 : Nat) : Int) := by omega
      simp only [Tok.atom, valueOf, hdepth]
      exact ih hnext (by omega)
    | endNode =>
      simp only [Tok.atom, valueOf]
      by_cases hd : d ≤ 1
      · left
        rw [if_pos (by omega), if_pos hd]
        exact ⟨rfl, rfl⟩
      · have hdepth : ((d : Int) - 1) = ((d - 1 : Nat) : Int) := by omega
        rw [if_neg (by omega), if_neg hd, hdepth]
        exact ih hnext (by omega)
    | nop =>
      simp only [Tok.atom, valueOf]
      exact ih hnext (by omega)
    | prop n w =>
      simp only [Tok.atom, valueOf]
      by_cases hfound : d = 1 ∧ n = name
      · right
        have hname := (h.named hno).mpr hfound.2
        rw [if_neg (by rw [hname]; simp [hfound.1]), if_pos hfound]
        exact ⟨_, w, rfl, rfl, h.atom.2.2.2⟩
      · have hother : (d : Int) ≠ 1 ∨ strcmpEq cxt.mem (addInt cxt.strAnchor
            (word cxt.mem ((cxt.rgn .struct).start + toksSize front + 8))) name = false := by
          by_cases hd : d = 1
          · right
            rw [Bool.eq_false_iff]
            exact fun hcmp => hfound ⟨hd, (h.named hno).mp hcmp⟩
          · left
            omega
        rw [if_pos hother, if_neg hfound]
        exact ih hnext (by omega)

theorem bytes_taken {mem : Bytes} {data : Nat} (h : BytesAt mem data value) (buflen : Nat) :
    (List.range (min value.length buflen)).map (fun i => mem (data + i)) = value.take buflen := by
  apply List.ext_getElem
  · rw [List.length_map, List.length_range, List.length_take, Nat.min_comm]
  · intro i h1 h2
    rw [List.length_map, List.length_range] at h1
    rw [List.getElem_map, List.getElem_range, List.getElem_take, h i (by omega),
      List.getD_eq_getElem _ _ (by omega)]

/-- A walk of `ft_find_descendent` ends at the beginning of a node. -/
theorem findLoop_spec {path : List UInt8} {node : Nat}
    (hspace : (cxt.rgn .struct).stop < 2 ^ 32) (rest : List Tok) :
    ∀ {front : List Tok} {fuel : Nat} {s : FindState}, HoldsTree cxt (front ++ rest) →
    findLoop cxt path fuel ((cxt.rgn .struct).start + toksSize front) s = some (some node) →
    ∃ i n, IsNode (front ++ rest) i n
      ∧ node = (cxt.rgn .struct).start + offsetOf (front ++ rest) i := by
  induction rest with
  | nil =>
    intro front fuel s h hrun
    cases fuel with
    | zero => cases hrun
    | succ fuel =>
      rw [List.append_nil] at h
      rw [findLoop, h.last_step] at hrun
      cases hrun
  | cons tok rest ih =>
    intro front fuel s h hrun
    cases fuel with
    | zero => cases hrun
    | succ fuel =>
      have hnext : HoldsTree cxt ((front ++ [tok]) ++ rest) := by
        rw [List.append_assoc]
        exact h
      have hgo : ∀ {s' : FindState}, findLoop cxt path fuel
          ((cxt.rgn .struct).start + toksSize (front ++ [tok])) s' = some (some node) →
          ∃ i n, IsNode (front ++ tok :: rest) i n
            ∧ node = (cxt.rgn .struct).start + offsetOf (front ++ tok :: rest) i := by
        intro s' hrest
        have hfound := ih hnext hrest
        rwa [List.append_assoc] at hfound
      rw [findLoop, h.step hspace] at hrun
      cases tok with
      | prop n w => exact hgo hrun
      | nop => exact hgo hrun
      | endNode =>
        simp only [Tok.atom] at hrun
        split at hrun
        · cases hrun
        · split at hrun
          · exact hgo hrun
          · exact hgo hrun
      | beginNode n =>
        simp only [Tok.atom] at hrun
        split at hrun
        · exact hgo hrun
        · split at hrun
          · cases hrun
          · split at hrun
            · exact hgo hrun
            · split at hrun
              · cases hrun
                refine ⟨front.length, n, ?_, ?_⟩
                · rw [IsNode, List.getElem?_append_right (Nat.le_refl _), Nat.sub_self]
                  rfl
                · rw [offsetOf, List.take_left]
              · exact hgo hrun

/-! ## §4 Walks that edit -/

theorem Edit.behind_behind (front : List Tok) (tok : Tok) (e : Edit) :
    (e.behind [tok]).behind front = e.behind (front ++ [tok]) := by
  simp only [Edit.behind, List.append_assoc]

theorem lookupFrom_atPoint (x : Nat) (fuel : Nat) : ∀ q,
    lookupFrom { cxt with p := x } name fuel q = lookupFrom cxt name fuel q := by
  induction fuel with
  | zero => exact fun _ => rfl
  | succ fuel ih =>
    intro q
    rw [lookupFrom, lookupFrom, ih]

theorem NameFits.atPoint (h : NameFits cxt name) (x : Nat) : NameFits { cxt with p := x } name := by
  rw [NameFits, lookupString, lookupFrom_atPoint]
  exact h

/-- A new property, at the end of the header. -/
theorem ftProp_header (hgood : GoodRealloc realloc used need) (hcxt : Editable cxt used need)
    (hapart : Apart cxt) (hno : 0 ∉ name) (hroom : NameFits cxt name)
    (hneed : name.length + value.length + 16 ≤ need)
    (hfits : cxt.total + (name.length + value.length + 16) + 2142 < 2 ^ 31)
    (h : HoldsTree cxt (front ++ rest)) :
    ∃ cxt', ftProp realloc name value
        { cxt with p := (cxt.rgn .struct).start + toksSize front } = (true, cxt')
      ∧ Edited cxt cxt' (Edit.behind front ⟨[], [], [.prop name value], rest⟩) used need
        (2 ^ 31) := by
  obtain ⟨hcxt', -, htotal, hkept⟩ :=
    hcxt.atPoint hapart ((cxt.rgn .struct).start + toksSize front)
  obtain ⟨cxt', hrun, hedited⟩ := @ftProp_spec _ realloc used need
    (Edit.behind front ⟨[], [], [.prop name value], rest⟩) name value hgood hcxt'
    (hkept.tree (by rw [Edit.before_behind]; exact h)) rfl rfl
    (by rw [Edit.behind, List.append_nil]) hno (hroom.atPoint _) hneed (by rw [htotal]; exact hfits)
  exact ⟨cxt', hrun, hkept.edited hedited⟩

/-- The walk of `ft_set_prop` finds what `headerEdit` finds. -/
theorem setPropLoop_spec (hgood : GoodRealloc realloc used need) (hcxt : Editable cxt used need)
    (hapart : Apart cxt) (hno : 0 ∉ name) (hneed : name.length + value.length + 16 ≤ need)
    (hfits : cxt.total + (name.length + value.length + 16) + 2142 < 2 ^ 31) (rest : List Tok) :
    ∀ {front : List Tok} {fuel : Nat} {e : Edit}, HoldsTree cxt (front ++ rest) →
    rest.length < fuel → headerEdit name value rest = some e →
    hasProp name rest = true ∨ NameFits cxt name →
    ∃ cxt', setPropLoop realloc name value fuel ((cxt.rgn .struct).start + toksSize front) cxt
        = (true, cxt')
      ∧ Edited cxt cxt' (e.behind front) used need (2 ^ 31) := by
  induction rest with
  | nil =>
    intro front fuel e _ _ hedit
    cases hedit
  | cons tok rest ih =>
    intro front fuel e h hfuel hedit hroom
    rw [List.length_cons] at hfuel
    obtain ⟨fuel, rfl⟩ : ∃ k, fuel = k + 1 := ⟨fuel - 1, by omega⟩
    have hnext : HoldsTree cxt ((front ++ [tok]) ++ rest) := by
      rw [List.append_assoc]
      exact h
    rw [setPropLoop, h.step hcxt.struct]
    cases tok with
    | beginNode n =>
      cases hedit
      exact ftProp_header hgood hcxt hapart hno (hroom.resolve_left (by simp [hasProp])) hneed hfits h
    | endNode =>
      cases hedit
      exact ftProp_header hgood hcxt hapart hno (hroom.resolve_left (by simp [hasProp])) hneed hfits h
    | nop =>
      obtain ⟨e', hrest, rfl⟩ := Option.map_eq_some_iff.mp hedit
      rw [Edit.behind_behind]
      exact ih hnext (by omega) hrest hroom
    | prop n w =>
      rw [headerEdit] at hedit
      simp only [Tok.atom]
      by_cases hfound : n = name
      · rw [if_pos hfound] at hedit
        cases hedit
        have hcmp := (h.named hno).mpr hfound
        rw [if_neg (by rw [hcmp]; decide)]
        obtain ⟨cxt', hrun, hedited⟩ := @overwriteProp_spec cxt realloc used need
          (Edit.behind front ⟨[], [.prop n w], [.prop name value], rest⟩) name value w hgood hcxt
          hapart (by rw [Edit.before_behind]; exact h) (by rw [hfound]; rfl) rfl (by omega)
          (by omega)
        rw [Edit.behind, List.append_nil] at hrun
        exact ⟨cxt', hrun, hedited⟩
      · rw [if_neg hfound] at hedit
        obtain ⟨e', hrest, rfl⟩ := Option.map_eq_some_iff.mp hedit
        have hcmp := Bool.eq_false_iff.mpr fun hcmp => hfound ((h.named hno).mp hcmp)
        rw [if_pos hcmp, Edit.behind_behind]
        refine ih hnext (by omega) hrest (hroom.imp_left fun hhas => ?_)
        rw [hasProp, decide_eq_false hfound] at hhas
        exact hhas

/-- The walk of `ft_create_node` inside a node finds what `closeEdit` finds. -/
theorem createNodeLoop_spec (hgood : GoodRealloc realloc used need) (hcxt : Editable cxt used need)
    (hapart : Apart cxt) (hno : 0 ∉ name) (hneed : name.length + 12 ≤ need)
    (hfits : cxt.total + (name.length + 12) + 1071 < 2 ^ 31) (rest : List Tok) :
    ∀ {front : List Tok} {fuel d : Nat} {e : Edit}, HoldsTree cxt (front ++ rest) →
    rest.length < fuel → 0 < d → closeEdit name d rest = some e →
    ∃ c, createNodeLoop realloc name fuel ((cxt.rgn .struct).start + toksSize front) d cxt
        = ftGetPhandle c (some ((c.rgn .struct).start + toksSize (e.behind front).front))
      ∧ Edited cxt c (e.behind front) used need (2 ^ 31) := by
  induction rest with
  | nil =>
    intro front fuel d e _ _ _ hedit
    cases hedit
  | cons tok rest ih =>
    intro front fuel d e h hfuel hd hedit
    rw [List.length_cons] at hfuel
    obtain ⟨fuel, rfl⟩ : ∃ k, fuel = k + 1 := ⟨fuel - 1, by omega⟩
    have hnext : HoldsTree cxt ((front ++ [tok]) ++ rest) := by
      rw [List.append_assoc]
      exact h
    rw [createNodeLoop, h.step hcxt.struct]
    cases tok with
    | beginNode n =>
      obtain ⟨e', hrest, rfl⟩ := Option.map_eq_some_iff.mp hedit
      have hdepth : ((d : Int) + 1) = ((d + 1 : Nat) : Int) := by omega
      simp only [Tok.atom]
      rw [if_neg (by omega), Edit.behind_behind, hdepth]
      exact ih hnext (by omega) (Nat.succ_pos d) hrest
    | prop n w =>
      obtain ⟨e', hrest, rfl⟩ := Option.map_eq_some_iff.mp hedit
      rw [Edit.behind_behind]
      exact ih hnext (by omega) hd hrest
    | nop =>
      obtain ⟨e', hrest, rfl⟩ := Option.map_eq_some_iff.mp hedit
      rw [Edit.behind_behind]
      exact ih hnext (by omega) hd hrest
    | endNode =>
      rw [closeEdit] at hedit
      simp only [Tok.atom]
      by_cases hlast : d ≤ 1
      · rw [if_pos hlast] at hedit
        cases hedit
        rw [if_neg (by omega)]
        obtain ⟨hcxt', -, htotal, hkept⟩ :=
          hcxt.atPoint hapart ((cxt.rgn .struct).start + toksSize front)
        obtain ⟨c, hrun, hedited⟩ := @ftBeginNode_spec _ realloc used need
          (Edit.behind front ⟨[], [], [.beginNode name, .endNode], .endNode :: rest⟩) name hgood
          hcxt' (hkept.tree (by rw [Edit.before_behind]; exact h)) rfl rfl
          (by rw [Edit.behind, List.append_nil]) hno hneed (by rw [htotal]; exact hfits)
        refine ⟨ftEndNode c, ?_, hkept.edited hedited⟩
        rw [hrun]
      · rw [if_neg hlast] at hedit
        obtain ⟨e', hrest, rfl⟩ := Option.map_eq_some_iff.mp hedit
        have hdepth : ((d : Int) - 1) = ((d - 1 : Nat) : Int) := by omega
        rw [if_pos (by omega), Edit.behind_behind, hdepth]
        exact ih hnext (by omega) (by omega) hrest

/-! ## §5 Contexts between calls -/

/-- What holds between calls; `nodes` are the nodes that the phandles from 1 on stand for. -/
structure Open (cxt : FtCxt) (toks : List Tok) (nodes : List Nat) (used : Nat → Prop) (need : Nat) :
    Prop where
  tree : HoldsTree cxt toks
  closed : nest 0 toks = some 0
  handles : Handles cxt toks nodes
  editable : Editable cxt used need
  apart : Apart cxt

variable {nodes : List Nat} {phandle i j : Nat}

theorem offsetOf_lt_offsetOf (hlt : i < j) (hj : j ≤ toks.length) :
    offsetOf toks i < offsetOf toks j := by
  have hsplit : toks.take j = toks.take i ++ (toks.drop i).take (j - i) := by
    rw [← List.take_add, Nat.add_sub_cancel' (Nat.le_of_lt hlt)]
  have hpos := length_le_toksSize ((toks.drop i).take (j - i))
  rw [List.length_take, List.length_drop] at hpos
  rw [offsetOf, offsetOf, hsplit, toksSize_append]
  omega

theorem offsetOf_inj (hi : i < toks.length) (hj : j < toks.length)
    (h : offsetOf toks i = offsetOf toks j) : i = j := by
  rcases Nat.lt_trichotomy i j with hlt | heq | hgt
  · have := offsetOf_lt_offsetOf hlt (Nat.le_of_lt hj)
    omega
  · exact heq
  · have := offsetOf_lt_offsetOf hgt (Nat.le_of_lt hi)
    omega

theorem IsNode.lt {n : List UInt8} (h : IsNode toks i n) : i < toks.length :=
  (List.getElem?_eq_some_iff.mp h).1

theorem IsNode.split {n : List UInt8} (h : IsNode toks i n) :
    toks = toks.take i ++ .beginNode n :: toks.drop (i + 1) := by
  rw [← (List.getElem_eq_iff h.lt).mpr h, List.getElem_cons_drop, List.take_append_drop]

/-- The name of a node stands in the structure block. -/
theorem HoldsTree.nameAt {n : List UInt8} (h : HoldsTree cxt toks) (hi : IsNode toks i n) :
    StringAt cxt.mem ((cxt.rgn .struct).start + offsetOf toks i + 4) n
      ∧ offsetOf toks i + 4 + n.length < (cxt.rgn .struct).size := by
  have hsplit := hi.split
  have hsize := h.size
  have hround := le_roundUp4 (n.length + 1)
  rw [hsplit] at h
  rw [hsplit, toksSize_append, toksSize_cons, Tok.size] at hsize
  refine ⟨h.atom.2, ?_⟩
  rw [offsetOf]
  omega

/-- A phandle is an index into the table. -/
theorem Open.ph2node (h : Open cxt toks nodes used need) (phandle : Nat) :
    ftNodePh2node cxt phandle = if phandle = 0 then none
      else (nodes[phandle - 1]?).map fun i => (cxt.rgn .struct).start + offsetOf toks i := by
  have htable : cxt.nodeTbl
      = (nodes.map (offsetOf toks)).map ((cxt.rgn .struct).start + ·) := h.handles.table
  rw [ftNodePh2node, htable, List.map_map, List.getElem?_map]
  rfl

theorem Open.denotes_iff (h : Open cxt toks nodes used need) :
    Denotes cxt toks phandle i ↔ phandle ≠ 0 ∧ nodes[phandle - 1]? = some i := by
  rw [Denotes, h.ph2node]
  constructor
  · rintro ⟨hnode, n, hn⟩
    split at hnode
    · cases hnode
    · rename_i hne
      obtain ⟨j, hj, heq⟩ := Option.map_eq_some_iff.mp hnode
      obtain ⟨m, hm⟩ := h.handles.node j (List.mem_of_getElem? hj)
      have hsame := offsetOf_inj hm.lt hn.lt (by omega)
      exact ⟨hne, by rw [hj, hsame]⟩
  · rintro ⟨hne, hat⟩
    rw [if_neg hne, hat]
    exact ⟨rfl, h.handles.node i (List.mem_of_getElem? hat)⟩

/-- An open context shows its tree. -/
theorem Open.shows (h : Open cxt toks nodes used need) : Shows cxt toks := by
  refine ⟨h.tree, h.closed, fun {phandle node} hnode => ?_,
    fun {phandle i name} hden hno buflen => ?_⟩
  · rw [h.ph2node] at hnode
    split at hnode
    · cases hnode
    · rename_i hne
      obtain ⟨i, hi, -⟩ := Option.map_eq_some_iff.mp hnode
      exact ⟨i, h.denotes_iff.mpr ⟨hne, hi⟩⟩
  · obtain ⟨hnode, n, hn⟩ := hden
    have hsize := h.tree.size
    have hspace := h.editable.struct
    have hlength := length_le_toksSize toks
    rw [FtRegion.stop] at hspace
    have hwalk := @getPropLoop_spec cxt name h.editable.struct hno (toks.drop i) (toks.take i)
      (2 ^ 32) 0 (by rw [List.take_append_drop]; exact h.tree)
      (by rw [List.length_drop]; omega)
    rw [ftGetProp, hnode, propOf]
    rcases hwalk with ⟨hnone, hvalue⟩ | ⟨data, value, hsome, hvalue, hbytes⟩
    · rw [hvalue]
      exact congrArg (Option.map _) hnone
    · rw [hvalue]
      refine (congrArg (Option.map _) hsome).trans ?_
      exact congrArg (fun bytes => some (value.length, bytes)) (bytes_taken hbytes buflen)

/-- The tree of an open context after an edit, and its phandles. -/
theorem Open.edited (h : Open cxt toks nodes used need) (he : e.before = toks)
    (hnode : ∀ tok ∈ e.old, tok.isNode = false) (hnest : nest 0 e.after = nest 0 toks)
    (h' : Edited cxt cxt' e used need limit) :
    Open cxt' e.after (nodes.map e.move) used need := by
  subst he
  exact ⟨h'.tree, hnest.trans h.closed, h'.handles h.tree hnode h.handles, h'.editable, h'.apart⟩

/-- A phandle that goes along with the tables. -/
theorem Open.denotes_map {toks' : List Tok} {move : Nat → Nat} {more : List Nat}
    (h : Open cxt toks nodes used need)
    (h' : Open cxt' toks' (nodes.map move ++ more) used need)
    (hden : Denotes cxt toks phandle i) : Denotes cxt' toks' phandle (move i) := by
  obtain ⟨hne, hat⟩ := h.denotes_iff.mp hden
  refine h'.denotes_iff.mpr ⟨hne, ?_⟩
  have hlt := (List.getElem?_eq_some_iff.mp hat).1
  rw [List.getElem?_append_left (by rw [List.length_map]; exact hlt), List.getElem?_map, hat]
  rfl

/-- `ft_get_phandle` adds at most one phandle to the table. -/
theorem Open.getPhandle (h : Open cxt toks nodes used need) {node : Option Nat}
    (hnode : ∀ a ∈ node, ∃ i n, IsNode toks i n ∧ a = (cxt.rgn .struct).start + offsetOf toks i) :
    ∃ more, Open (ftGetPhandle cxt node).2 toks (nodes ++ more) used need := by
  cases node with
  | none => exact ⟨[], by rw [List.append_nil]; exact h⟩
  | some a =>
    obtain ⟨i, n, hi, rfl⟩ := hnode a rfl
    rw [ftGetPhandle]
    split
    · exact ⟨[], by rw [List.append_nil]; exact h⟩
    · split
      · have htable : cxt.nodeTbl
            = (nodes.map (offsetOf toks)).map ((cxt.rgn .struct).start + ·) := h.handles.table
        refine ⟨[i], h.tree.carried (fun _ _ hname => hname) rfl (Carried.refl _ _ _), h.closed, ⟨?_, fun j hj => ?_⟩,
          ⟨h.editable.struct, ⟨h.editable.strings.space, h.editable.strings.anchorLow,
            h.editable.strings.anchorHigh, h.editable.strings.terminated⟩, fun hord => ?_,
            h.editable.used⟩, h.apart⟩
        · show cxt.nodeTbl ++ [_] = _
          rw [htable, List.map_append, List.map_append]
          rfl
        · rcases List.mem_append.mp hj with hold | hnew
          · exact h.handles.node j hold
          · obtain rfl := List.mem_singleton.mp hnew
            exact ⟨n, hi⟩
        · obtain ⟨hlaid, hroomy⟩ := h.editable.laid hord
          exact ⟨⟨hlaid.ordered, hlaid.rsvmap, hlaid.struct, hlaid.strings, hlaid.stop⟩, hroomy⟩
      · exact ⟨[], by rw [List.append_nil]; exact h⟩

/-! ## §6 One call -/

theorem TreeKept.refl (toks : List Tok) (touched new : Nat → List UInt8 → Prop) :
    TreeKept toks toks id touched new :=
  ⟨fun h => h, fun _ _ h => h, fun h => Or.inl ⟨_, h, rfl⟩, fun _ => (List.map_id _).symm,
    fun _ _ => rfl⟩

theorem TreeKept.mono {toks' : List Tok} {move : Nat → Nat}
    {touched touched' new new' : Nat → List UInt8 → Prop} (h : TreeKept toks toks' move touched new)
    (htouched : ∀ i m, touched i m → touched' i m) (hnew : ∀ i m, new i m → new' i m) :
    TreeKept toks toks' move touched' new' :=
  ⟨h.node, h.injective, fun hk => (h.all hk).imp_right (hnew _ _), h.nesting,
    fun hi hnot => h.prop hi fun ht => hnot (htouched _ _ ht)⟩

/-- A call that leaves the tree alone, with at most one phandle more. -/
theorem Open.unchanged {call : Call} {more : List Nat} (h : Open cxt toks nodes used need)
    (h' : Open cxt' toks (nodes ++ more) used need)
    (hset : ∀ {phandle name value i}, call = .setProp phandle name value →
      ¬ Denotes cxt toks phandle i) : Local cxt toks call cxt' toks := by
  refine ⟨⟨id, TreeKept.refl _ _ _, fun hden => ?_⟩, fun hcall hden => absurd hden (hset hcall)⟩
  exact @Open.denotes_map cxt cxt' used need toks nodes _ _ toks id more h
    (by rw [List.map_id]; exact h') hden

theorem Open.findDevice {top : Option Nat} {path : List UInt8}
    (h : Open cxt toks nodes used need) (hsafe : ftFindDevice cxt top path ≠ none) :
    ∃ cxt' more, (Call.findDevice top path).run realloc cxt = some cxt'
      ∧ Open cxt' toks (nodes ++ more) used need := by
  have hfound : ∀ {i node path}, ftFindDescendent cxt ((cxt.rgn .struct).start + offsetOf toks i) path
      = some node → ∀ a ∈ node, ∃ j n, IsNode toks j n
        ∧ a = (cxt.rgn .struct).start + offsetOf toks j := by
    rintro i _ path hrun a rfl
    have hwalk := @findLoop_spec cxt path a h.editable.struct (toks.drop i) (toks.take i) (2 ^ 32)
      ⟨0, 0, 0, 0, fun _ => 0⟩ (by rw [List.take_append_drop]; exact h.tree) hrun
    rwa [List.take_append_drop] at hwalk
  rw [Call.run]
  cases top with
  | none =>
    rw [ftFindDevice] at hsafe ⊢
    cases hrun : ftFindDescendent cxt (ftRootNode cxt) path with
    | none => exact absurd (by rw [hrun]; rfl) hsafe
    | some node =>
      obtain ⟨more, hmore⟩ := h.getPhandle (@hfound 0 node path hrun)
      exact ⟨_, more, rfl, hmore⟩
  | some phandle =>
    rw [ftFindDevice] at hsafe ⊢
    cases hnode : ftNodePh2node cxt phandle with
    | none => exact ⟨cxt, [], rfl, by rw [List.append_nil]; exact h⟩
    | some a =>
      obtain ⟨i, hi, -⟩ := h.shows.phandles hnode
      obtain rfl : a = _ := Option.some.inj (hnode.symm.trans hi)
      rw [hnode] at hsafe
      cases hrun : ftFindDescendent cxt ((cxt.rgn .struct).start + offsetOf toks i) path with
      | none => exact absurd (by simp only [hrun]; rfl) hsafe
      | some node =>
        obtain ⟨more, hmore⟩ := h.getPhandle (hfound hrun)
        exact ⟨(ftGetPhandle cxt node).2, more, by simp only [hrun]; rfl, hmore⟩

/-- A node of the tree, and the walk of a call from it. -/
theorem Open.node {n : List UInt8} (h : Open cxt toks nodes used need) (hi : IsNode toks i n) :
    toks = toks.take i ++ .beginNode n :: toks.drop (i + 1)
      ∧ ftNext cxt ((cxt.rgn .struct).start + offsetOf toks i)
        = some ((cxt.rgn .struct).start + toksSize (toks.take (i + 1)),
          .beginNode ((cxt.rgn .struct).start + offsetOf toks i + 4)
            ((cxt.rgn .struct).start + offsetOf toks i)) := by
  have hsplit := hi.split
  have htree := h.tree
  rw [hsplit] at htree
  have hstep := htree.step h.editable.struct
  rw [← take_node hi] at hstep
  exact ⟨hsplit, hstep⟩

theorem Open.length_lt (h : Open cxt toks nodes used need) : toks.length < 2 ^ 32 := by
  have hsize := h.tree.size
  have hspace := h.editable.struct
  have hlength := length_le_toksSize toks
  rw [FtRegion.stop] at hspace
  omega

/-- **`ft_set_prop`** sets the property. -/
theorem Open.setProp (hgood : GoodRealloc realloc used need) (h : Open cxt toks nodes used need)
    (hden : Denotes cxt toks phandle i) (hno : 0 ∉ name)
    (hroom : Overwrites cxt phandle name ∨ NameFits cxt name)
    (hneed : name.length + value.length + 16 ≤ need)
    (hfits : cxt.total + (name.length + value.length + 16) + 2142 < 2 ^ 31) :
    ∃ cxt' e, (ftSetProp realloc phandle name value cxt) = (true, cxt')
      ∧ SetsProp e toks i name value ∧ Open cxt' e.after (nodes.map e.move) used need := by
  obtain ⟨hnode, n, hi⟩ := hden
  obtain ⟨e, hset, he⟩ := setEdit_spec h.closed hi name value
  obtain ⟨e', hheader, rfl⟩ := Option.map_eq_some_iff.mp hset
  obtain ⟨-, hstep⟩ := h.node hi
  have hprop : hasProp name (toks.drop (i + 1)) = true ∨ NameFits cxt name := by
    refine hroom.imp_left ?_
    rintro ⟨toks', j, htree, hj, hhas⟩
    obtain rfl := h.tree.unique htree
    have hsame := h.denotes_iff.mp hj
    rw [(h.denotes_iff.mp ⟨hnode, n, hi⟩).2] at hsame
    obtain rfl := Option.some.inj hsame.2
    exact hhas
  have hlength := h.length_lt
  obtain ⟨cxt', hrun, hedited⟩ := setPropLoop_spec hgood h.editable h.apart hno hneed hfits
    (toks.drop (i + 1)) (show HoldsTree cxt (toks.take (i + 1) ++ toks.drop (i + 1)) by
      rw [List.take_append_drop]; exact h.tree)
    (show (toks.drop (i + 1)).length < 2 ^ 32 by rw [List.length_drop]; omega) hheader hprop
  refine ⟨cxt', _, ?_, he, h.edited he.before he.old.notNode he.nest_eq hedited⟩
  rw [ftSetProp, hnode]
  simp only [hstep]
  exact hrun

/-- A node whose own name is the new one: nothing is done. -/
theorem Open.createNode_same {fuel : Nat} (h : Open cxt toks nodes used need)
    (hi : IsNode toks i name) (hno : 0 ∉ name) (hfuel : 0 < fuel) :
    createNodeLoop realloc name fuel ((cxt.rgn .struct).start + offsetOf toks i) 0 cxt
      = (none, cxt) := by
  obtain ⟨hsplit, hstep⟩ := h.node hi
  obtain ⟨fuel, rfl⟩ : ∃ k, fuel = k + 1 := ⟨fuel - 1, by omega⟩
  have hname : strcmpEq cxt.mem ((cxt.rgn .struct).start + offsetOf toks i + 4) name = true :=
    (strcmpEq_stringAt name (h.tree.nameAt hi).1 hno).mpr rfl
  rw [createNodeLoop, hstep]
  simp only
  rw [if_pos ⟨rfl, hname⟩]

/-- A node of another name: the new node is added at its end. -/
theorem Open.createNode_other {n : List UInt8} {fuel : Nat} (hgood : GoodRealloc realloc used need)
    (h : Open cxt toks nodes used need) (hi : IsNode toks i n) (hne : n ≠ name) (hno : 0 ∉ name)
    (hneed : name.length + 12 ≤ need) (hfits : cxt.total + (name.length + 12) + 1071 < 2 ^ 31)
    (hfuel : toks.length < fuel + i) :
    ∃ e c, createEdit toks i name = some e ∧ AddsNode e toks i name
      ∧ createNodeLoop realloc name fuel ((cxt.rgn .struct).start + offsetOf toks i) 0 cxt
        = ftGetPhandle c (some ((c.rgn .struct).start + toksSize e.front))
      ∧ c.nodeMax = cxt.nodeMax ∧ Open c e.after (nodes.map e.move) used need := by
  obtain ⟨hsplit, hstep⟩ := h.node hi
  have hlt := hi.lt
  obtain ⟨fuel, rfl⟩ : ∃ k, fuel = k + 1 := ⟨fuel - 1, by omega⟩
  have hdup : ¬ ((0 : Int) + 1 = 1
      ∧ strcmpEq cxt.mem ((cxt.rgn .struct).start + offsetOf toks i + 4) name = true) := fun hdup =>
    hne ((strcmpEq_stringAt name (h.tree.nameAt hi).1 hno).mp hdup.2)
  obtain ⟨e, hcreate, he⟩ := createEdit_spec h.closed hi name
  obtain ⟨e', hclose, rfl⟩ := Option.map_eq_some_iff.mp hcreate
  obtain ⟨c, hrun, hedited⟩ := createNodeLoop_spec hgood h.editable h.apart hno hneed hfits
    (toks.drop (i + 1)) (show HoldsTree cxt (toks.take (i + 1) ++ toks.drop (i + 1)) by
      rw [List.take_append_drop]; exact h.tree)
    (show (toks.drop (i + 1)).length < fuel by rw [List.length_drop]; omega) Nat.one_pos hclose
  refine ⟨_, c, hcreate, he, ?_, hedited.nodeMax,
    h.edited he.before he.notNode he.nest_eq hedited⟩
  have hrun : createNodeLoop realloc name fuel
      ((cxt.rgn .struct).start + toksSize (toks.take (i + 1))) (0 + 1) cxt = _ := hrun
  rw [createNodeLoop, hstep]
  simp only
  rw [if_neg hdup, hrun]

/-- **`ft_create_node`** at a node adds the new node at its end, or does nothing. -/
theorem Open.createNode {n : List UInt8} {fuel : Nat} (hgood : GoodRealloc realloc used need)
    (h : Open cxt toks nodes used need) (hi : IsNode toks i n) (hno : 0 ∉ name)
    (hneed : name.length + 12 ≤ need) (hfits : cxt.total + (name.length + 12) + 1071 < 2 ^ 31)
    (hfuel : toks.length < fuel + i) :
    (createNodeLoop realloc name fuel ((cxt.rgn .struct).start + offsetOf toks i) 0 cxt
        = (none, cxt))
      ∨ ∃ e more, AddsNode e toks i name
        ∧ Open (createNodeLoop realloc name fuel ((cxt.rgn .struct).start + offsetOf toks i) 0 cxt).2
          e.after (nodes.map e.move ++ more) used need := by
  by_cases hsame : n = name
  · left
    have hlt := hi.lt
    exact h.createNode_same (by rw [← hsame]; exact hi) hno (by omega)
  · right
    obtain ⟨e, c, -, he, hrun, -, hopen⟩ :=
      h.createNode_other hgood hi hsame hno hneed hfits hfuel
    obtain ⟨more, hmore⟩ := @Open.getPhandle c used need _ _ hopen
      (some ((c.rgn .struct).start + toksSize e.front)) (by
        intro a ha
        obtain rfl := Option.mem_some_iff.mp ha
        refine ⟨_, name, he.added.1, ?_⟩
        rw [offsetOf, Edit.after, List.take_left])
    refine ⟨e, more, he, ?_⟩
    rw [hrun]
    exact hmore

/-- From the start of the structure block, the walk of `ft_create_node` gets to the first node. -/
theorem createNodeLoop_root (hspace : (cxt.rgn .struct).stop < 2 ^ 32) (rest : List Tok) :
    ∀ {front : List Tok} {fuel : Nat}, HoldsTree cxt (front ++ rest) → rest.length < fuel →
    nest 0 rest = some 0 →
    (createNodeLoop realloc name fuel ((cxt.rgn .struct).start + toksSize front) 0 cxt = (none, cxt)
        ∧ ∀ j m, front.length ≤ j → ¬ IsNode (front ++ rest) j m)
      ∨ ∃ i n fuel', IsNode (front ++ rest) i n ∧ (front ++ rest).length < fuel' + i
        ∧ (∀ j m, front.length ≤ j → IsNode (front ++ rest) j m → i ≤ j)
        ∧ createNodeLoop realloc name fuel ((cxt.rgn .struct).start + toksSize front) 0 cxt
          = createNodeLoop realloc name fuel'
            ((cxt.rgn .struct).start + offsetOf (front ++ rest) i) 0 cxt := by
  induction rest with
  | nil =>
    intro front fuel h hfuel _
    obtain ⟨fuel, rfl⟩ : ∃ k, fuel = k + 1 := ⟨fuel - 1, by omega⟩
    rw [List.append_nil] at h ⊢
    left
    refine ⟨by rw [createNodeLoop, h.last_step], fun j m hj hm => ?_⟩
    exact absurd hm.lt (Nat.not_lt_of_le hj)
  | cons tok rest ih =>
    intro front fuel h hfuel hnest
    have hnext : HoldsTree cxt ((front ++ [tok]) ++ rest) := by
      rw [List.append_assoc]
      exact h
    -- an atom that begins no node is passed
    have hpast (htok : tok.isNode = false) {j : Nat} {m : List UInt8} (hj : front.length ≤ j)
        (hm : IsNode (front ++ tok :: rest) j m) : (front ++ [tok]).length ≤ j := by
      rw [List.length_append, List.length_singleton]
      by_contra hlt
      obtain rfl : j = front.length := by omega
      rw [IsNode, List.getElem?_append_right (Nat.le_refl _), Nat.sub_self] at hm
      obtain rfl := Option.some.inj hm
      cases htok
    cases tok with
    | beginNode n =>
      right
      refine ⟨front.length, n, fuel, ?_, ?_, fun _ _ hj _ => hj, ?_⟩
      · rw [IsNode, List.getElem?_append_right (Nat.le_refl _), Nat.sub_self]
        rfl
      · rw [List.length_append]
        omega
      · rw [offsetOf, List.take_left]
    | endNode => cases hnest
    | prop n w =>
      obtain ⟨fuel, rfl⟩ : ∃ k, fuel = k + 1 := ⟨fuel - 1, by omega⟩
      rw [createNodeLoop, h.step hspace]
      rw [List.length_cons] at hfuel
      have hrest := ih hnext (show rest.length < fuel by omega) hnest
      rw [List.append_assoc] at hrest
      rcases hrest with ⟨hnone, hall⟩ | ⟨i, n, fuel', hi, hlen, hfirst, hrun⟩
      · exact Or.inl ⟨hnone, fun j m hj hm => hall j m (hpast rfl hj hm) hm⟩
      · exact Or.inr ⟨i, n, fuel', hi, hlen, fun j m hj hm => hfirst j m (hpast rfl hj hm) hm, hrun⟩
    | nop =>
      obtain ⟨fuel, rfl⟩ : ∃ k, fuel = k + 1 := ⟨fuel - 1, by omega⟩
      rw [createNodeLoop, h.step hspace]
      rw [List.length_cons] at hfuel
      have hrest := ih hnext (show rest.length < fuel by omega) hnest
      rw [List.append_assoc] at hrest
      rcases hrest with ⟨hnone, hall⟩ | ⟨i, n, fuel', hi, hlen, hfirst, hrun⟩
      · exact Or.inl ⟨hnone, fun j m hj hm => hall j m (hpast rfl hj hm) hm⟩
      · exact Or.inr ⟨i, n, fuel', hi, hlen, fun j m hj hm => hfirst j m (hpast rfl hj hm) hm, hrun⟩

/-- An added node is local. -/
theorem AddsNode.isLocal {parent : Option Nat} {more : List Nat}
    (h : Open cxt toks nodes used need) (he : AddsNode e toks i name)
    (h' : Open cxt' e.after (nodes.map e.move ++ more) used need) :
    Local cxt toks (.createNode parent name) cxt' e.after :=
  ⟨⟨e.move, he.kept.mono (fun _ _ hno => hno.elim) (fun _ _ hnew => hnew.2),
    fun hden => h.denotes_map h' hden⟩, fun hcall => by cases hcall⟩

theorem Open.createCall {parent : Option Nat} (hgood : GoodRealloc realloc used need)
    (h : Open cxt toks nodes used need) (hno : 0 ∉ name) (hneed : name.length + 12 ≤ need)
    (hfits : cxt.total + (name.length + 12) + 1071 < 2 ^ 31) :
    ∃ toks' nodes', Local cxt toks (.createNode parent name)
        (ftCreateNode realloc parent name cxt).2 toks'
      ∧ Open (ftCreateNode realloc parent name cxt).2 toks' nodes' used need := by
  have hlength := h.length_lt
  have hkeep : Local cxt toks (.createNode parent name) cxt toks :=
    @Open.unchanged cxt cxt used need toks nodes _ [] h (by rw [List.append_nil]; exact h)
      fun hcall => by cases hcall
  have hadd : ∀ {i n fuel}, IsNode toks i n → toks.length < fuel + i → ∃ toks' nodes',
      Local cxt toks (.createNode parent name) (createNodeLoop realloc name fuel
          ((cxt.rgn .struct).start + offsetOf toks i) 0 cxt).2 toks'
        ∧ Open (createNodeLoop realloc name fuel
          ((cxt.rgn .struct).start + offsetOf toks i) 0 cxt).2 toks' nodes' used need := by
    intro i n fuel hi hfuel
    rcases h.createNode hgood hi hno hneed hfits hfuel with hnone | ⟨e, more, he, hopen⟩
    · rw [hnone]
      exact ⟨toks, nodes, hkeep, h⟩
    · exact ⟨_, _, he.isLocal h hopen, hopen⟩
  cases parent with
  | none =>
    rw [ftCreateNode]
    rcases @createNodeLoop_root cxt realloc name h.editable.struct toks [] (2 ^ 32) h.tree hlength
      h.closed with ⟨hnone, -⟩ | ⟨i, n, fuel, hi, hfuel, -, hrun⟩
    · have hnone : createNodeLoop realloc name (2 ^ 32) (ftRootNode cxt) 0 cxt = (none, cxt) := hnone
      rw [hnone]
      exact ⟨toks, nodes, hkeep, h⟩
    · have hrun : createNodeLoop realloc name (2 ^ 32) (ftRootNode cxt) 0 cxt
        = createNodeLoop realloc name fuel ((cxt.rgn .struct).start + offsetOf toks i) 0 cxt := hrun
      rw [hrun]
      exact hadd hi hfuel
  | some phandle =>
    rw [ftCreateNode]
    cases hnode : ftNodePh2node cxt phandle with
    | none => exact ⟨toks, nodes, hkeep, h⟩
    | some a =>
      obtain ⟨i, hi, n, hn⟩ := h.shows.phandles hnode
      obtain rfl : a = _ := Option.some.inj (hnode.symm.trans hi)
      exact hadd hn (by omega)

/-- **One call** is local, and leaves an open context. -/
theorem Open.call (hgood : GoodRealloc realloc used need) (h : Open cxt toks nodes used need)
    (call : Call) (hsafe : call.Safe cxt) (htexts : call.Texts) (hneed : call.growth ≤ need)
    (hfits : cxt.total + call.growth + 2142 < 2 ^ 31) :
    ∃ cxt' toks' nodes', call.run realloc cxt = some cxt' ∧ Local cxt toks call cxt' toks'
      ∧ Open cxt' toks' nodes' used need := by
  cases call with
  | findDevice top path =>
    obtain ⟨cxt', more, hrun, hopen⟩ := @Open.findDevice cxt realloc used need toks nodes top path
      h hsafe
    exact ⟨cxt', toks, nodes ++ more, hrun, h.unchanged hopen (fun hcall => by cases hcall), hopen⟩
  | createNode parent name =>
    obtain ⟨toks', nodes', hlocal, hopen⟩ :=
      @Open.createCall cxt realloc used need toks name nodes parent hgood h htexts hneed
        (by rw [Call.growth] at hfits; omega)
    exact ⟨_, toks', nodes', rfl, hlocal, hopen⟩
  | setProp phandle name value =>
    by_cases hden : ∃ i, Denotes cxt toks phandle i
    · obtain ⟨i, hden⟩ := hden
      obtain ⟨cxt', e, hrun, he, hopen⟩ := h.setProp hgood hden htexts hsafe hneed hfits
      have hmap : ∀ {phandle j}, Denotes cxt toks phandle j →
          Denotes cxt' e.after phandle (e.move j) := fun hj =>
        @Open.denotes_map cxt cxt' used need toks nodes _ _ e.after e.move [] h
          (by rw [List.append_nil]; exact hopen) hj
      refine ⟨cxt', e.after, nodes.map e.move, by rw [Call.run, hrun], ⟨⟨e.move,
        he.kept.mono (fun j m hj => ?_) (fun _ _ hno => hno.elim), hmap⟩, ?_⟩, hopen⟩
      · obtain ⟨rfl, rfl⟩ := hj
        exact ⟨hden, rfl⟩
      · intro phandle' name' value' j hcall hj buflen
        cases hcall
        have hsame := (h.denotes_iff.mp hj).2
        rw [(h.denotes_iff.mp hden).2] at hsame
        obtain rfl := Option.some.inj hsame
        have hstay : e.move i = i := if_pos he.lt_front
        have hmoved := hmap hden
        rw [hstay] at hmoved
        rw [hopen.shows.reads hmoved htexts, he.value_set]
        rfl
    · have hnone : ftNodePh2node cxt phandle = none := by
        cases hnode : ftNodePh2node cxt phandle with
        | none => rfl
        | some a => exact absurd (h.shows.phandles hnode) hden
      refine ⟨cxt, toks, nodes, by rw [Call.run, ftSetProp, hnone], ?_, h⟩
      refine @Open.unchanged cxt cxt used need toks nodes _ [] h (by rw [List.append_nil]; exact h) ?_
      intro phandle' name' value' j hcall hj
      cases hcall
      exact hden ⟨j, hj⟩

/-! ## §7 Runs -/

theorem Open.run (hgood : GoodRealloc realloc used need) (calls : List Call) :
    ∀ {cxt : FtCxt} {toks : List Tok} {nodes : List Nat}, Open cxt toks nodes used need →
    SafeRun realloc need cxt calls → EditsLocal realloc cxt toks calls := by
  induction calls with
  | nil => exact fun h _ => h.shows
  | cons call calls ih =>
    intro cxt toks nodes h hsafe
    obtain ⟨hcall, htexts, hneed, hfits, hrest⟩ := hsafe
    obtain ⟨cxt', toks', nodes', hrun, hlocal, hopen⟩ := h.call hgood call hcall htexts hneed hfits
    exact ⟨h.shows, cxt', toks', hrun, hlocal, ih hopen (hrest cxt' hrun)⟩

/-- `ft_open` leaves a context that is not in order, without phandles. -/
theorem ftOpen_fields {mem : Bytes} {blob maxSize maxFindDevice : Nat}
    (hopen : ftOpen mem blob maxSize maxFindDevice = some cxt) :
    cxt.isordered = false ∧ cxt.nodeTbl = [] := by
  rw [ftOpen] at hopen
  split at hopen
  · cases hopen
  · cases hopen
    exact ⟨rfl, rfl⟩

/-- A context that `ft_open` has just made. -/
theorem Opened.open {mem : Bytes} {blob maxSize maxFindDevice : Nat} (hblob : Opened cxt toks)
    (hopen : ftOpen mem blob maxSize maxFindDevice = some cxt) (need : Nat) :
    Open cxt toks [] cxt.Uses need := by
  obtain ⟨hordered, htable⟩ := ftOpen_fields hopen
  refine ⟨hblob.tree, hblob.closed, ⟨htable, fun i hi => by cases hi⟩,
    ⟨hblob.space, hblob.strings, fun hord => ?_, fun _ a ha => ha⟩, hblob.apart⟩
  rw [hordered] at hord
  cases hord

/-- **Edits of a device tree are local**, in every run from `ft_open` on whose calls are safe. -/
theorem edits_local_of_safe (mem : Bytes) (blob maxSize maxFindDevice : Nat) (cxt : FtCxt)
    (toks : List Tok) (hopen : ftOpen mem blob maxSize maxFindDevice = some cxt)
    (hblob : Opened cxt toks) (realloc : Realloc) (need : Nat)
    (hgood : GoodRealloc realloc cxt.Uses need) (calls : List Call)
    (hsafe : SafeRun realloc need cxt calls) : EditsLocal realloc cxt toks calls :=
  (hblob.open hopen need).run hgood calls hsafe

/-! ## §8 A small tree -/

theorem Call.run_setProp
    (h : (Call.setProp phandle name value).run realloc cxt = some cxt') :
    (ftSetProp realloc phandle name value cxt).2 = cxt' := Option.some.inj h

/-- A blob of 90 bytes: an empty reserve map, a root node with the property `a`, and the name. -/
def smallBlob : List UInt8 :=
  [0xd0, 0x0d, 0xfe, 0xed] ++ wordBytes 90 ++ wordBytes 56 ++ wordBytes 88 ++ wordBytes 40
    ++ wordBytes 16 ++ wordBytes 16 ++ wordBytes 0 ++ wordBytes 2 ++ wordBytes 0
    ++ List.replicate 16 0
    ++ wordBytes 1 ++ wordBytes 0 ++ wordBytes 3 ++ wordBytes 4 ++ wordBytes 0 ++ [1, 2, 3, 4]
    ++ wordBytes 2 ++ wordBytes 9 ++ [97, 0]

def smallTree : List Tok := [.beginNode [], .prop [97] [1, 2, 3, 4], .endNode]

/-- The blob at 4096. -/
def smallMem : Bytes := fun a => smallBlob.getD (a - 4096) 0

def smallOpened : FtCxt := (ftOpen smallMem 4096 90 8).get (by decide +kernel)

theorem smallOpened_blob : Opened smallOpened smallTree := by
  have hname : NameAt smallOpened (word smallOpened.mem (4160 + 8)) [97] :=
    ⟨0, by decide +kernel, by decide +kernel, by decide +kernel⟩
  have hroot : Tok.At smallOpened 4152 (.beginNode []) := by
    rw [Tok.At]
    decide +kernel
  have hprop : Tok.At smallOpened 4160 (.prop [97] [1, 2, 3, 4]) :=
    ⟨by decide +kernel, by decide +kernel, hname, by decide +kernel⟩
  have hend : Tok.At smallOpened 4176 .endNode := by
    rw [Tok.At]
    decide +kernel
  have hstart : (smallOpened.rgn .struct).start = 4152 := by decide +kernel
  refine ⟨⟨?_, by decide +kernel, by decide +kernel⟩, by decide, by decide +kernel,
    ⟨by decide +kernel, by decide +kernel, by decide +kernel, Or.inr (by decide +kernel)⟩,
    Or.inl (by decide +kernel)⟩
  rw [hstart]
  exact ⟨hroot, hprop, hend, trivial⟩

/-- An allocator of one block, which is at 256 MiB. -/
def fixedRealloc : Realloc := fun mem old oldSize _ =>
  some (0x10000000, memmove mem 0x10000000 old oldSize)

/-- The block is beside everything below 8192. -/
theorem fixedRealloc_beside (hbph : cxt.bph + bphSize ≤ 8192)
    (hstop : ∀ r, (cxt.rgn r).stop ≤ 8192) : GoodRealloc fixedRealloc cxt.Uses (2 ^ 20) := by
  refine ⟨fun mem size hsize => ⟨0x10000000, memmove mem 0x10000000 0 0, rfl, ⟨by decide, by omega⟩,
    fun a ha => memmove_out (by omega), fun a ha => Or.inl ?_⟩,
    fun mem p old size _ _ hsize => ⟨0x10000000, memmove mem 0x10000000 p old, rfl,
      ⟨by decide, by omega⟩, memmove_carried _ _ _ _⟩⟩
  rcases ha with ⟨-, hhigh⟩ | ⟨r, -, hhigh⟩
  · omega
  · have := hstop r
    omega

theorem fixedRealloc_good : GoodRealloc fixedRealloc smallOpened.Uses (2 ^ 20) := by
  refine fixedRealloc_beside (by decide +kernel) fun r => ?_
  cases r with
  | rsvmap => decide +kernel
  | struct => decide +kernel
  | strings => decide +kernel

/-- `newnames`. -/
def newName : List UInt8 := [110, 101, 119, 110, 97, 109, 101, 115]

/-- A value that grows, a new node, and a new name. -/
def smallEdits : List Call :=
  [.findDevice none [47], .setProp 1 [97] [1, 2, 3, 4, 5], .createNode (some 1) [98],
    .setProp 2 newName [1]]

theorem smallEdits_safe : SafeRun fixedRealloc (2 ^ 20) smallOpened smallEdits := by
  refine ⟨by rw [Call.Safe]; decide +kernel, by rw [Call.Texts]; decide, by decide,
    by decide +kernel, fun found hfound => ?_⟩
  have hget : found = ((Call.findDevice none [47]).run fixedRealloc smallOpened).get
      (by decide +kernel) := by
    rw [Option.get_of_eq_some _ hfound]
  subst hget
  refine ⟨Or.inr (Or.inl (by decide +kernel)), by rw [Call.Texts]; decide, by decide,
    by decide +kernel, fun grown hgrown => ?_⟩
  obtain rfl := Call.run_setProp hgrown
  refine ⟨trivial, by rw [Call.Texts]; decide, by decide, by decide +kernel,
    fun added hadded => ?_⟩
  cases hadded
  exact ⟨Or.inr (Or.inr fun _ => by decide +kernel), by rw [Call.Texts]; decide, by decide,
    by decide +kernel, fun _ _ => trivial⟩

theorem smallEdits_local : EditsLocal fixedRealloc smallOpened smallTree smallEdits :=
  edits_local_of_safe smallMem 4096 90 8 smallOpened smallTree (Option.some_get _).symm
    smallOpened_blob fixedRealloc (2 ^ 20) fixedRealloc_good smallEdits smallEdits_safe

/-- A value that takes up the reserve. -/
def longValue : List UInt8 := List.replicate 1032 7

/-- The tree in order, with two bytes before the strings. -/
def fullCxt : FtCxt :=
  (ftSetProp fixedRealloc 1 [97] longValue (ftSetProp fixedRealloc 1 [97]
    [1, 2, 3, 4, 5] (((Call.findDevice none [47]).run fixedRealloc smallOpened).get
      (by decide +kernel))).2).2

/-- **A new name that needs a larger blob** is written over the end of the structure block: the
property is not found, although `ft_set_prop` has returned 0. -/
theorem newName_lost :
    Opened smallOpened smallTree ∧ GoodRealloc fixedRealloc smallOpened.Uses (2 ^ 20)
      ∧ (ftSetProp fixedRealloc 1 newName [1] fullCxt).1 = true
      ∧ ftGetProp (ftSetProp fixedRealloc 1 newName [1] fullCxt).2 1 newName 20 = none
      ∧ ¬ EditsLocal fixedRealloc smallOpened smallTree [.findDevice none [47],
        .setProp 1 [97] [1, 2, 3, 4, 5], .setProp 1 [97] longValue,
        .setProp 1 newName [1]] := by
  have hlost : ftGetProp (ftSetProp fixedRealloc 1 newName [1] fullCxt).2 1 newName 20 = none := by
    decide +kernel
  refine ⟨smallOpened_blob, fixedRealloc_good, by decide +kernel, hlost, ?_⟩
  rintro ⟨-, found, toks₁, hfound, -, -, grown, toks₂, hgrown, -, -, full, toks₃, hfull, -, hshows,
    last, toks₄, hlast, hlocal, -⟩
  have hget : found = ((Call.findDevice none [47]).run fixedRealloc smallOpened).get
      (by decide +kernel) := by
    rw [Option.get_of_eq_some _ hfound]
  subst hget
  obtain rfl := Call.run_setProp hgrown
  obtain rfl := Call.run_setProp hfull
  obtain rfl := Call.run_setProp hlast
  have hnode : ftNodePh2node fullCxt 1 = some 0x10000038 := by decide +kernel
  obtain ⟨i, hden⟩ := hshows.phandles hnode
  have hset := hlocal.set rfl hden 20
  rw [fullCxt] at hlost
  exact Option.some_ne_none _ (hset.symm.trans hlost)

end LiloBoot.DevTree
