/-
LiloBoot.DevTree.EndTreeTheorems — closing a tree and opening it again.

`ft_end_tree` makes the name offsets relative to the start of the strings,
moves the strings to the end of the structure block and notes in the header
where everything is; `ft_open` takes the header at its word and finds the sizes
of the reserve map and of the structure block by walking them.
-/
import LiloBoot.DevTree.FlatTreeTheorems

namespace LiloBoot.DevTree

open LiloBoot.Memory

/-! ## §1 The reserve map -/

/-- The entries of a reserve map: start and length of each, as the words of the two numbers. -/
abbrev Reserve := Nat × Nat × Nat × Nat

/-- The reserve map that stands at `p`; only the last entry is zero. -/
def ReservesAt (mem : Bytes) : Nat → List Reserve → Prop
  | p, [] => lastReserve mem p = true
  | p, (startHigh, startLow, lenHigh, lenLow) :: rest =>
    lastReserve mem p = false ∧ word mem p = startHigh ∧ word mem (p + 4) = startLow
      ∧ word mem (p + 8) = lenHigh ∧ word mem (p + 12) = lenLow ∧ ReservesAt mem (p + 16) rest

structure HoldsReserves (cxt : FtCxt) (reserves : List Reserve) : Prop where
  entries : ReservesAt cxt.mem (cxt.rgn .rsvmap).start reserves
  size : (cxt.rgn .rsvmap).size = 16 * (reserves.length + 1)

variable {cxt cxt' : FtCxt} {mem mem' : Bytes} {p p' : Nat} {toks : List Tok}
  {reserves : List Reserve}

theorem lastReserve_carried (h : Carried mem p mem' p' 16) :
    lastReserve mem' p' = lastReserve mem p := by
  have h0 := word_carried (h.part 0 (k := 4) (by decide))
  rw [Nat.add_zero, Nat.add_zero] at h0
  rw [lastReserve, lastReserve, h0, word_carried (h.part 4 (by decide)),
    word_carried (h.part 8 (by decide)), word_carried (h.part 12 (by decide))]

theorem ReservesAt.carried (reserves : List Reserve) : ∀ {p p' : Nat}, ReservesAt mem p reserves →
    Carried mem p mem' p' (16 * (reserves.length + 1)) → ReservesAt mem' p' reserves := by
  induction reserves with
  | nil =>
    intro p p' h hc
    exact (lastReserve_carried (hc.take (by rw [List.length_nil]))).trans h
  | cons entry reserves ih =>
    intro p p' h hc
    obtain ⟨startHigh, startLow, lenHigh, lenLow⟩ := entry
    obtain ⟨hmore, h0, h4, h8, h12, hrest⟩ := h
    rw [List.length_cons] at hc
    have hentry : Carried mem p mem' p' 16 := hc.take (by omega)
    have hfirst := word_carried (hentry.part 0 (k := 4) (by decide))
    rw [Nat.add_zero, Nat.add_zero] at hfirst
    exact ⟨(lastReserve_carried hentry).trans hmore, hfirst.trans h0,
      (word_carried (hentry.part 4 (by decide))).trans h4,
      (word_carried (hentry.part 8 (by decide))).trans h8,
      (word_carried (hentry.part 12 (by decide))).trans h12,
      ih hrest (hc.part 16 (by omega))⟩

/-- The loop of `rsvmap_size` comes to the last entry. -/
theorem rsvmapLast_spec (reserves : List Reserve) : ∀ {fuel p : Nat}, ReservesAt mem p reserves →
    reserves.length < fuel → rsvmapLast mem fuel p = p + 16 * reserves.length := by
  induction reserves with
  | nil =>
    intro fuel p h hfuel
    obtain ⟨fuel, rfl⟩ : ∃ k, fuel = k + 1 := ⟨fuel - 1, by omega⟩
    have h : lastReserve mem p = true := h
    rw [rsvmapLast, if_pos h]
    rfl
  | cons entry reserves ih =>
    intro fuel p h hfuel
    obtain ⟨startHigh, startLow, lenHigh, lenLow⟩ := entry
    rw [List.length_cons] at hfuel
    obtain ⟨fuel, rfl⟩ : ∃ k, fuel = k + 1 := ⟨fuel - 1, by omega⟩
    rw [rsvmapLast, if_neg (by rw [h.1]; decide), ih h.2.2.2.2.2 (by omega), List.length_cons]
    omega

/-! ## §2 The string offsets -/

/-- The context with the anchor at the start of the strings. -/
def FtCxt.anchored (cxt : FtCxt) (mem : Bytes) : FtCxt :=
  { cxt with mem := mem, strAnchor := (cxt.rgn .strings).start }

/-- A change of the memory outside the strings. -/
theorem stringsKept_of_mem (hcarried : Carried cxt.mem (cxt.rgn .strings).start mem
      (cxt.rgn .strings).start (cxt.rgn .strings).size)
    (hspace : (cxt.rgn .strings).stop ≤ 2 ^ 32) : StringsKept cxt { cxt with mem := mem } 0 :=
  ⟨hcarried, (Nat.zero_add _).le, hspace, by simp⟩

/-- The adjusted offset leads to the same name. -/
theorem NameAt.adjusted {off : Nat} {name : List UInt8} (h : NameAt cxt off name)
    (hspace : (cxt.rgn .strings).stop ≤ 2 ^ 32)
    (hcarried : Carried cxt.mem (cxt.rgn .strings).start mem (cxt.rgn .strings).start
      (cxt.rgn .strings).size) :
    NameAt (cxt.anchored mem) (addInt off ((cxt.strAnchor : Int) - (cxt.rgn .strings).start))
      name := by
  obtain ⟨j, hat, hj, hname⟩ := h
  refine ⟨j, ?_, hj, hname.carried (hcarried.part j (by omega))⟩
  show addInt (cxt.rgn .strings).start _ = (cxt.rgn .strings).start + j
  rw [FtRegion.stop] at hspace
  simp only [addInt] at hat ⊢
  omega

/-- One turn of `adjust_string_offsets`. -/
theorem adjustFrom_next {tok : Tok} {fuel : Nat} (htok : tok.At cxt p)
    (hp : p + tok.size < (cxt.rgn .struct).stop)
    (hbelow : (cxt.rgn .struct).stop ≤ (cxt.rgn .strings).start)
    (hspace : (cxt.rgn .strings).stop ≤ 2 ^ 32) :
    ∃ mem, adjustFrom ((cxt.strAnchor : Int) - (cxt.rgn .strings).start) (fuel + 1) p cxt
        = adjustFrom ((cxt.strAnchor : Int) - (cxt.rgn .strings).start) fuel (p + tok.size)
            { cxt with mem := mem }
      ∧ (∀ a, a < p ∨ p + tok.size ≤ a → mem a = cxt.mem a)
      ∧ tok.At (cxt.anchored mem) p := by
  have hstrings : (cxt.rgn .strings).start ≤ (cxt.rgn .strings).stop := Nat.le_add_right _ _
  have hnext := htok.next hp (by omega)
  rw [adjustFrom, hnext]
  cases tok with
  | beginNode name => exact ⟨cxt.mem, rfl, fun _ _ => rfl, htok⟩
  | endNode => exact ⟨cxt.mem, rfl, fun _ _ => rfl, htok⟩
  | nop => exact ⟨cxt.mem, rfl, fun _ _ => rfl, htok⟩
  | prop name value =>
    obtain ⟨h0, h4, h8, h12⟩ := htok
    have hsize : (Tok.prop name value).size = 12 + roundUp4 value.length := rfl
    have hround := le_roundUp4 value.length
    obtain ⟨v, hv⟩ : ∃ v, v = addInt (word cxt.mem (p + 8))
        ((cxt.strAnchor : Int) - (cxt.rgn .strings).start) := ⟨_, rfl⟩
    have hv32 : v % 2 ^ 32 = v := by
      rw [hv, addInt]
      omega
    refine ⟨storeWord cxt.mem (p + 8) v, by rw [hv]; rfl, ?_, ?_, ?_, ?_, ?_⟩
    · intro a ha
      refine store_out ?_
      rw [wordBytes_length]
      omega
    · exact (word_carried (carried_storeWord (by omega))).trans h0
    · exact (word_carried (carried_storeWord (by omega))).trans h4
    · show NameAt _ (word (storeWord cxt.mem (p + 8) v) (p + 8)) name
      rw [word_storeWord, hv32, hv]
      exact h8.adjusted hspace (carried_storeWord (by omega))
    · exact h12.carried (carried_storeWord (by omega))

/-- `adjust_string_offsets`, from an atom on. -/
theorem adjustFrom_spec (toks : List Tok) : ∀ {fuel p : Nat} {cxt : FtCxt}, ToksAt cxt p toks →
    word cxt.mem (p + toksSize toks) = ofDtEnd → p + toksSize toks < (cxt.rgn .struct).stop →
    (cxt.rgn .struct).stop ≤ (cxt.rgn .strings).start → (cxt.rgn .strings).stop ≤ 2 ^ 32 →
    toks.length < fuel →
    ∃ mem, adjustFrom ((cxt.strAnchor : Int) - (cxt.rgn .strings).start) fuel p cxt
        = { cxt with mem := mem }
      ∧ ToksAt (cxt.anchored mem) p toks
      ∧ ∀ a, a < p ∨ p + toksSize toks ≤ a → mem a = cxt.mem a := by
  induction toks with
  | nil =>
    intro fuel p cxt _ hend _ _ _ hfuel
    obtain ⟨fuel, rfl⟩ : ∃ k, fuel = k + 1 := ⟨fuel - 1, by omega⟩
    have hend : word cxt.mem p = ofDtEnd := hend
    refine ⟨cxt.mem, ?_, trivial, fun _ _ => rfl⟩
    rw [adjustFrom, ftNext_end hend]
  | cons tok toks ih =>
    intro fuel p cxt hatoms hend hstop hbelow hspace hfuel
    obtain ⟨htok, htoks⟩ := hatoms
    rw [List.length_cons] at hfuel
    rw [toksSize_cons, ← Nat.add_assoc] at hend hstop
    obtain ⟨fuel, rfl⟩ : ∃ k, fuel = k + 1 := ⟨fuel - 1, by omega⟩
    have hstrings : (cxt.rgn .strings).start ≤ (cxt.rgn .strings).stop := Nat.le_add_right _ _
    obtain ⟨mem₁, hstep, hframe₁, htok₁⟩ :=
      @adjustFrom_next cxt p tok fuel htok (by omega) hbelow hspace
    have hkept : StringsKept cxt { cxt with mem := mem₁ } 0 :=
      stringsKept_of_mem (fun i _ => hframe₁ _ (by omega)) hspace
    -- the atoms that follow stand where they stood
    have htoks₁ : ToksAt { cxt with mem := mem₁ } (p + tok.size) toks :=
      htoks.carried (fun _ _ h => h.kept hkept) toks fun i _ => hframe₁ _ (by omega)
    have hend₁ : word mem₁ (p + tok.size + toksSize toks) = ofDtEnd :=
      (word_carried fun i _ => hframe₁ _ (by omega)).trans hend
    obtain ⟨mem, hrun, hatoms, hframe⟩ :=
      @ih fuel (p + tok.size) { cxt with mem := mem₁ } htoks₁ hend₁ hstop hbelow hspace (by omega)
    refine ⟨mem, hstep.trans hrun, ⟨?_, hatoms⟩, fun a ha => ?_⟩
    · have hlast : p + tok.size + toksSize toks ≤ (cxt.rgn .strings).start := by omega
      have hkept₁ : StringsKept (cxt.anchored mem₁) (cxt.anchored mem) 0 :=
        stringsKept_of_mem
          (fun i _ => hframe _ (Or.inr (Nat.le_trans hlast (Nat.le_add_right _ i)))) hspace
      exact htok₁.carried (fun i hi => hframe _ (by omega)) fun _ _ h => h.kept hkept₁
    · rw [toksSize_cons, ← Nat.add_assoc] at ha
      exact (hframe a (by omega)).trans (hframe₁ a (by omega))

/-! ## §3 Closing -/

/-- A context in standard order: the header, the reserve map, the structure block and the strings
lie in the blob in that order. The blob does not end with the last bytes of the address space,
since the end of the strings is rounded up. -/
structure Ordered (cxt : FtCxt) : Prop where
  isordered : cxt.isordered = true
  header : cxt.bph + bphSize ≤ (cxt.rgn .rsvmap).start
  rsvmap : (cxt.rgn .rsvmap).stop ≤ (cxt.rgn .struct).start
  struct : (cxt.rgn .struct).stop ≤ (cxt.rgn .strings).start
  strings : (cxt.rgn .strings).stop ≤ cxt.bph + cxt.maxSize
  space : cxt.bph + cxt.maxSize + 8 ≤ 2 ^ 32
  version : 16 ≤ word cxt.mem (cxt.bph + versionAt)

/-- What the header says of the regions of a context. -/
structure Described (cxt : FtCxt) : Prop where
  rsvmap : cxt.bph + word cxt.mem (cxt.bph + offMemRsvmapAt) = (cxt.rgn .rsvmap).start
  struct : cxt.bph + word cxt.mem (cxt.bph + offDtStructAt) = (cxt.rgn .struct).start
  strings : cxt.bph + word cxt.mem (cxt.bph + offDtStringsAt) = (cxt.rgn .strings).start
  stringsSize : word cxt.mem (cxt.bph + dtStringsSizeAt) = (cxt.rgn .strings).size
  total : cxt.bph + word cxt.mem (cxt.bph + totalsizeAt) = (cxt.rgn .strings).stop
  version : 16 ≤ word cxt.mem (cxt.bph + versionAt)

/-- The words that `ft_end_tree` stores in the header. -/
def headerWords (mem : Bytes) (p total rsvmap struct strings size : Nat) : Bytes :=
  storeWord (storeWord (storeWord (storeWord (storeWord mem (p + totalsizeAt) total)
    (p + offMemRsvmapAt) rsvmap) (p + offDtStructAt) struct) (p + offDtStringsAt) strings)
    (p + dtStringsSizeAt) size

theorem headerWords_out {total rsvmap struct strings size n : Nat} (h : p + bphSize ≤ p') :
    Carried mem p' (headerWords mem p total rsvmap struct strings size) p' n := by
  rw [bphSize] at h
  have hwords : ∀ (mem : Bytes) (k v : Nat), k + 4 ≤ 36 →
      Carried mem p' (storeWord mem (p + k) v) p' n :=
    fun mem k v hk => carried_storeWord (Or.inr (by omega))
  exact ((((hwords _ _ _ (by decide)).trans (hwords _ _ _ (by decide))).trans
    (hwords _ _ _ (by decide))).trans (hwords _ _ _ (by decide))).trans (hwords _ _ _ (by decide))

/-- Each word of the header is the one that was stored. -/
theorem word_headerWords (mem : Bytes) (p total rsvmap struct strings size : Nat) :
    word (headerWords mem p total rsvmap struct strings size) (p + totalsizeAt) = total % 2 ^ 32
      ∧ word (headerWords mem p total rsvmap struct strings size) (p + offMemRsvmapAt)
        = rsvmap % 2 ^ 32
      ∧ word (headerWords mem p total rsvmap struct strings size) (p + offDtStructAt)
        = struct % 2 ^ 32
      ∧ word (headerWords mem p total rsvmap struct strings size) (p + offDtStringsAt)
        = strings % 2 ^ 32
      ∧ word (headerWords mem p total rsvmap struct strings size) (p + dtStringsSizeAt)
        = size % 2 ^ 32
      ∧ word (headerWords mem p total rsvmap struct strings size) (p + versionAt)
        = word mem (p + versionAt) := by
  simp only [headerWords, totalsizeAt, offMemRsvmapAt, offDtStructAt, offDtStringsAt,
    dtStringsSizeAt, versionAt]
  refine ⟨?_, ?_, ?_, ?_, ?_, ?_⟩
  · rw [word_storeWord_ne (by omega), word_storeWord_ne (by omega), word_storeWord_ne (by omega),
      word_storeWord_ne (by omega), word_storeWord]
  · rw [word_storeWord_ne (by omega), word_storeWord_ne (by omega), word_storeWord_ne (by omega),
      word_storeWord]
  · rw [word_storeWord_ne (by omega), word_storeWord_ne (by omega), word_storeWord]
  · rw [word_storeWord_ne (by omega), word_storeWord]
  · rw [word_storeWord]
  · rw [word_storeWord_ne (by omega), word_storeWord_ne (by omega), word_storeWord_ne (by omega),
      word_storeWord_ne (by omega), word_storeWord_ne (by omega)]

/-- The start of the strings behind the structure block. -/
theorem closed_strings {stop size : Nat} (h : stop + size + 8 ≤ 2 ^ 32) :
    stop ≤ align (stop + size) 8 - size ∧ align (stop + size) 8 < 2 ^ 32
      ∧ size ≤ align (stop + size) 8 := by
  rw [align, u32_of_lt (by omega)]
  omega

/-- The offsets are relative to the start of the strings when the adjustment is done. -/
theorem adjust_spec (hcxt : Ordered cxt) (htree : HoldsTree cxt toks) :
    ∃ mem, (if (cxt.strAnchor : Int) - (cxt.rgn .strings).start ≠ 0 then
          adjustStringOffsets ((cxt.strAnchor : Int) - (cxt.rgn .strings).start) cxt
        else cxt) = { cxt with mem := mem }
      ∧ HoldsTree (cxt.anchored mem) toks
      ∧ ∀ a, a < (cxt.rgn .struct).start ∨ (cxt.rgn .struct).stop ≤ a → mem a = cxt.mem a := by
  obtain ⟨-, -, -, hbelow, hinside, hspace, -⟩ := hcxt
  have hsize := htree.size
  have hstop : (cxt.rgn .struct).stop = (cxt.rgn .struct).start + toksSize toks + 4 := by
    rw [FtRegion.stop, hsize, Nat.add_assoc]
  have hspace : (cxt.rgn .strings).stop ≤ 2 ^ 32 := by omega
  split
  · have hstrings : (cxt.rgn .strings).start ≤ (cxt.rgn .strings).stop := Nat.le_add_right _ _
    have hlength := length_le_toksSize toks
    obtain ⟨mem, hrun, hatoms, hframe⟩ := adjustFrom_spec toks htree.atoms htree.last (by omega)
      hbelow hspace (show toks.length < 2 ^ 32 by omega)
    refine ⟨mem, hrun, ⟨hatoms, ?_, hsize⟩, fun a ha => hframe a (by omega)⟩
    exact (word_carried fun i _ => hframe _ (Or.inr (Nat.le_add_right _ i))).trans htree.last
  · rename_i hzero
    have hanchor : cxt.anchored cxt.mem = cxt := by
      have heq : cxt.strAnchor = (cxt.rgn .strings).start := by omega
      rw [FtCxt.anchored, ← heq]
    exact ⟨cxt.mem, rfl, by rw [hanchor]; exact htree, fun _ _ => rfl⟩

/-- **`ft_end_tree`**: the tree and the reserve map stay, and the header describes them. -/
theorem ftEndTree_spec (hcxt : Ordered cxt) (htree : HoldsTree cxt toks)
    (hreserves : HoldsReserves cxt reserves) :
    HoldsTree (ftEndTree cxt) toks ∧ HoldsReserves (ftEndTree cxt) reserves
      ∧ Described (ftEndTree cxt)
      ∧ (ftEndTree cxt).bph = cxt.bph
      ∧ (ftEndTree cxt).rgn .rsvmap = cxt.rgn .rsvmap
      ∧ (ftEndTree cxt).rgn .struct = cxt.rgn .struct
      ∧ ((ftEndTree cxt).rgn .strings).stop < 2 ^ 32
      ∧ (ftEndTree cxt).strAnchor = ((ftEndTree cxt).rgn .strings).start := by
  obtain ⟨mem, hadjust, hatoms, hframe⟩ := adjust_spec hcxt htree
  obtain ⟨hordered, hheader, hrsvmap, hbelow, hinside, hspace, hversion⟩ := hcxt
  obtain ⟨endp, hendp⟩ : ∃ endp, endp = align ((cxt.rgn .struct).stop + (cxt.rgn .strings).size) 8 :=
    ⟨_, rfl⟩
  obtain ⟨str, hstr⟩ : ∃ str, str = endp - (cxt.rgn .strings).size := ⟨_, rfl⟩
  obtain ⟨closed, hclosed⟩ : ∃ closed : FtCxt, closed = { cxt.setStart .strings str with
      mem := headerWords (memmove mem str (cxt.rgn .strings).start (cxt.rgn .strings).size) cxt.bph
        (endp - cxt.bph) ((cxt.rgn .rsvmap).start - cxt.bph) ((cxt.rgn .struct).start - cxt.bph)
        (str - cxt.bph) (cxt.rgn .strings).size
      strAnchor := str } := ⟨_, rfl⟩
  have heq : ftEndTree cxt = closed := by
    rw [ftEndTree, if_pos hordered]
    simp only [hadjust]
    rw [hclosed, hstr, hendp]
    rfl
  have hr : closed.rgn .rsvmap = cxt.rgn .rsvmap := by rw [hclosed]; rfl
  have hs : closed.rgn .struct = cxt.rgn .struct := by rw [hclosed]; rfl
  have hg : closed.rgn .strings = ⟨str, (cxt.rgn .strings).size⟩ := by rw [hclosed]; rfl
  have hb : closed.bph = cxt.bph := by rw [hclosed]; rfl
  have ha : closed.strAnchor = str := by rw [hclosed]
  rw [bphSize] at hheader
  simp only [FtRegion.stop] at hrsvmap hbelow hinside hframe hendp
  obtain ⟨hle, hlt, hfits⟩ := @closed_strings ((cxt.rgn .struct).start + (cxt.rgn .struct).size)
    (cxt.rgn .strings).size (by omega)
  rw [← hendp, ← hstr] at hle
  rw [← hendp] at hlt hfits
  -- the areas below the strings are out of the way of what is stored
  have hkeep : ∀ q n, cxt.bph + 36 ≤ q → q + n ≤ str → Carried mem q closed.mem q n := by
    intro q n hq hn
    rw [hclosed]
    exact (carried_memmove (Or.inl hn)).trans (headerWords_out hq)
  have hkept : StringsKept (cxt.anchored mem) closed 0 := by
    refine ⟨?_, ?_, ?_, ?_⟩
    · rw [hg, hclosed]
      exact (memmove_carried mem str _ _).trans (headerWords_out (by rw [bphSize]; omega))
    · rw [hg, Nat.zero_add]
      exact Nat.le_refl _
    · rw [hg, FtRegion.stop]
      show str + (cxt.rgn .strings).size ≤ 2 ^ 32
      omega
    · rw [ha, hg]
      rfl
  have hwords := word_headerWords (memmove mem str (cxt.rgn .strings).start (cxt.rgn .strings).size)
    cxt.bph (endp - cxt.bph) ((cxt.rgn .rsvmap).start - cxt.bph)
    ((cxt.rgn .struct).start - cxt.bph) (str - cxt.bph) (cxt.rgn .strings).size
  have hmem : closed.mem = headerWords (memmove mem str (cxt.rgn .strings).start
      (cxt.rgn .strings).size) cxt.bph (endp - cxt.bph) ((cxt.rgn .rsvmap).start - cxt.bph)
      ((cxt.rgn .struct).start - cxt.bph) (str - cxt.bph) (cxt.rgn .strings).size := by
    rw [hclosed]
  rw [← hmem] at hwords
  obtain ⟨htotal, hoffRsvmap, hoffStruct, hoffStrings, hoffSize, hkeepVersion⟩ := hwords
  rw [heq]
  refine ⟨?_, ?_, ?_, hb, hr, hs, ?_, by rw [ha, hg]⟩
  · refine hatoms.carried (fun _ _ h => h.kept hkept) (by rw [hs]; rfl) ?_
    rw [hs]
    show Carried mem (cxt.rgn .struct).start closed.mem (cxt.rgn .struct).start
      (cxt.rgn .struct).size
    exact hkeep _ _ (by omega) hle
  · refine ⟨?_, by rw [hr]; exact hreserves.size⟩
    rw [hr]
    refine hreserves.entries.carried reserves ?_
    rw [← hreserves.size]
    exact Carried.trans (fun i hi => hframe _ (by omega)) (hkeep _ _ (by omega) (by omega))
  · refine ⟨?_, ?_, ?_, ?_, ?_, ?_⟩
    · rw [hb, hoffRsvmap, hr, Nat.mod_eq_of_lt (by omega)]
      omega
    · rw [hb, hoffStruct, hs, Nat.mod_eq_of_lt (by omega)]
      omega
    · rw [hb, hoffStrings, hg, Nat.mod_eq_of_lt (by omega)]
      show cxt.bph + (str - cxt.bph) = str
      omega
    · rw [hb, hoffSize, hg, Nat.mod_eq_of_lt (by omega)]
    · rw [hb, htotal, hg, Nat.mod_eq_of_lt (by omega)]
      show cxt.bph + (endp - cxt.bph) = str + (cxt.rgn .strings).size
      omega
    · rw [hb, hkeepVersion]
      rw [word_carried (carried_memmove (Or.inl (by rw [versionAt]; omega)))]
      rw [word_carried (fun i hi => hframe _ (Or.inl (by rw [versionAt]; omega)))]
      exact hversion
  · rw [hg]
    show str + (cxt.rgn .strings).size < 2 ^ 32
    omega

/-! ## §4 Opening -/

/-- The loop of `struct_size` comes to `OF_DT_END`; it does not look at the names. -/
theorem lastAtom_spec (hmem : cxt'.mem = cxt.mem) (hspace : (cxt'.rgn .struct).stop ≤ 2 ^ 32)
    (toks : List Tok) : ∀ {fuel p : Nat}, ToksAt cxt p toks →
    word cxt.mem (p + toksSize toks) = ofDtEnd → p + toksSize toks < (cxt'.rgn .struct).stop →
    toks.length < fuel → lastAtom cxt' fuel p = p + toksSize toks := by
  induction toks with
  | nil =>
    intro fuel p _ hend _ hfuel
    obtain ⟨fuel, rfl⟩ : ∃ k, fuel = k + 1 := ⟨fuel - 1, by omega⟩
    have hend : word cxt'.mem p = ofDtEnd := by rw [hmem]; exact hend
    rw [lastAtom, ftNext_end hend]
    rfl
  | cons tok toks ih =>
    intro fuel p h hend hstop hfuel
    rw [List.length_cons] at hfuel
    rw [toksSize_cons, ← Nat.add_assoc] at hend hstop ⊢
    obtain ⟨fuel, rfl⟩ : ∃ k, fuel = k + 1 := ⟨fuel - 1, by omega⟩
    have hshape : tok.ShapeAt cxt'.mem p := by
      rw [hmem]
      exact h.1.shape
    rw [lastAtom, hshape.next (by omega) hspace]
    exact ih h.2 hend hstop (by omega)

theorem HoldsTree.structSize (h : HoldsTree cxt toks) (hmem : cxt'.mem = cxt.mem)
    (hstart : (cxt'.rgn .struct).start = (cxt.rgn .struct).start)
    (hzero : (cxt'.rgn .struct).size = 0) (hspace : (cxt.rgn .struct).stop < 2 ^ 32) :
    structSize cxt' = (cxt.rgn .struct).size := by
  have hsize := h.size
  have hlength := length_le_toksSize toks
  rw [FtRegion.stop] at hspace
  rw [DevTree.structSize, if_pos hzero, hstart, hsize]
  rw [@lastAtom_spec cxt (cxt'.setSize .struct (0xffffffff - (cxt.rgn .struct).start)) hmem
    ?_ toks _ _ h.atoms h.last ?_ (by omega)]
  · omega
  · show (cxt'.rgn .struct).start + (0xffffffff - (cxt.rgn .struct).start) ≤ 2 ^ 32
    omega
  · show _ < (cxt'.rgn .struct).start + (0xffffffff - (cxt.rgn .struct).start)
    omega

theorem HoldsReserves.rsvmapSize (h : HoldsReserves cxt reserves) (hmem : cxt'.mem = cxt.mem)
    (hstart : (cxt'.rgn .rsvmap).start = (cxt.rgn .rsvmap).start)
    (hspace : (cxt.rgn .rsvmap).stop < 2 ^ 32) :
    rsvmapSize cxt' = (cxt.rgn .rsvmap).size := by
  have hsize := h.size
  rw [FtRegion.stop] at hspace
  rw [DevTree.rsvmapSize, hmem, hstart, rsvmapLast_spec reserves h.entries (by omega), hsize]
  omega

/-- The regions that `ft_open` finds are those of the context that the header describes. -/
theorem ftOpen_described (htree : HoldsTree cxt toks) (hreserves : HoldsReserves cxt reserves)
    (hheader : Described cxt) (hrsvmap : (cxt.rgn .rsvmap).stop < 2 ^ 32)
    (hstruct : (cxt.rgn .struct).stop < 2 ^ 32) (maxSize maxFindDevice : Nat) :
    ∃ opened, ftOpen cxt.mem cxt.bph maxSize maxFindDevice = some opened
      ∧ opened.mem = cxt.mem ∧ opened.rgn = cxt.rgn
      ∧ opened.strAnchor = (cxt.rgn .strings).start := by
  obtain ⟨hr, hs, hg, hgs, -, hversion⟩ := hheader
  -- the contexts that the two walks start in
  obtain ⟨c₁, hc₁⟩ : ∃ c₁ : FtCxt, c₁ = FtCxt.setStart ⟨cxt.mem, cxt.bph, maxSize, false, 0, 0,
      fun _ => ⟨0, 0⟩, [], maxFindDevice + 1⟩ .rsvmap (cxt.rgn .rsvmap).start := ⟨_, rfl⟩
  obtain ⟨c₂, hc₂⟩ : ∃ c₂ : FtCxt, c₂ = (c₁.setSize .rsvmap (cxt.rgn .rsvmap).size).setStart
      .struct (cxt.rgn .struct).start := ⟨_, rfl⟩
  have hrsvmapSize : rsvmapSize c₁ = (cxt.rgn .rsvmap).size :=
    hreserves.rsvmapSize (by rw [hc₁]; rfl) (by rw [hc₁]; rfl) hrsvmap
  have hstructSize : structSize c₂ = (cxt.rgn .struct).size :=
    htree.structSize (by rw [hc₂, hc₁]; rfl) (by rw [hc₂]; rfl) (by rw [hc₂, hc₁]; rfl) hstruct
  rw [ftOpen, if_neg (by omega)]
  simp only [hr, hs, hg, hgs]
  rw [← hc₁, hrsvmapSize, ← hc₂, hstructSize]
  refine ⟨_, rfl, by rw [hc₂, hc₁]; rfl, funext fun r => ?_, rfl⟩
  rw [hc₂, hc₁]
  cases r with
  | rsvmap => rfl
  | struct => rfl
  | strings => rfl

/-- **Close and open**: from an ordered context with any tree, any property values and any
reserve map, `ft_end_tree` and `ft_open` on the blob lead to a context with the same, and the
strings end the blob. -/
theorem ftEndTree_ftOpen (hcxt : Ordered cxt) (htree : HoldsTree cxt toks)
    (hreserves : HoldsReserves cxt reserves) (maxSize maxFindDevice : Nat) :
    ∃ opened, ftOpen (ftEndTree cxt).mem cxt.bph maxSize maxFindDevice = some opened
      ∧ HoldsTree opened toks ∧ HoldsReserves opened reserves
      ∧ word opened.mem (cxt.bph + offDtStringsAt) + word opened.mem (cxt.bph + dtStringsSizeAt)
        = word opened.mem (cxt.bph + totalsizeAt) := by
  obtain ⟨hclosed, hclosedReserves, hheader, hb, hr, hs, hspace, hanchor⟩ :=
    ftEndTree_spec hcxt htree hreserves
  obtain ⟨hordered, hbph, hrsvmap, hbelow, hinside, hroom, hversion⟩ := hcxt
  have hstart : ∀ r, (cxt.rgn r).start ≤ (cxt.rgn r).stop := fun r => Nat.le_add_right _ _
  have hstruct₀ := hstart .struct
  have hstrings₀ := hstart .strings
  obtain ⟨opened, hopen, hmem, hrgn, hopenAnchor⟩ := ftOpen_described hclosed hclosedReserves hheader
    (by rw [hr]; omega) (by rw [hs]; omega) maxSize maxFindDevice
  rw [hb] at hopen
  have hkept : StringsKept (ftEndTree cxt) opened 0 := by
    refine ⟨by rw [hmem, hrgn]; exact Carried.refl _ _ _, by rw [hrgn, Nat.zero_add],
      by rw [hrgn]; omega, ?_⟩
    rw [hopenAnchor, hanchor, hrgn]
    rfl
  refine ⟨opened, hopen, ?_, ?_, ?_⟩
  · refine hclosed.carried (fun _ _ h => h.kept hkept) (by rw [hrgn]) ?_
    rw [hmem, hrgn]
    exact Carried.refl _ _ _
  · refine ⟨?_, by rw [hrgn]; exact hclosedReserves.size⟩
    rw [hmem, hrgn]
    exact hclosedReserves.entries
  · have htotal := hheader.total
    have hstrings := hheader.strings
    rw [FtRegion.stop, ← hheader.stringsSize] at htotal
    rw [hb] at htotal hstrings
    rw [hmem]
    omega

/-! ## §5 A small tree -/

/-- A blob of 200 bytes: one reserve, a root node with one property, and the name of that at the
end. The offset of the name counts from the blob, as `ft_begin` starts it. -/
def sampleBlob : List UInt8 :=
  [0xd0, 0x0d, 0xfe, 0xed] ++ List.replicate 16 0 ++ wordBytes 16 ++ List.replicate 16 0
    ++ wordBytes 0 ++ wordBytes 0x100000 ++ wordBytes 0 ++ wordBytes 0x8000 ++ List.replicate 16 0
    ++ wordBytes 1 ++ wordBytes 0
    ++ wordBytes 3 ++ wordBytes 5 ++ wordBytes 198 ++ [10, 20, 30, 40, 50, 0, 0, 0]
    ++ wordBytes 2 ++ wordBytes 9
    ++ List.replicate 90 0 ++ [97, 0]

def sampleTree : List Tok := [.beginNode [], .prop [97] [10, 20, 30, 40, 50], .endNode]

/-- The blob at 4096. -/
def sampleCxt : FtCxt where
  mem a := sampleBlob.getD (a - 4096) 0
  bph := 4096
  maxSize := 200
  isordered := true
  strAnchor := 4096
  p := 4168
  rgn r := if r = .rsvmap then ⟨4136, 32⟩ else if r = .struct then ⟨4168, 36⟩ else ⟨4294, 2⟩
  nodeTbl := []
  nodeMax := 0

/-- The strings move down by more than their length, and the offset 198 becomes 0. -/
theorem sampleCxt_reopens :
    ∃ opened, ftOpen (ftEndTree sampleCxt).mem 4096 200 8 = some opened
      ∧ HoldsTree opened sampleTree ∧ HoldsReserves opened [(0, 0x100000, 0, 0x8000)]
      ∧ word opened.mem (4096 + offDtStringsAt) + word opened.mem (4096 + dtStringsSizeAt)
        = word opened.mem (4096 + totalsizeAt) := by
  have hordered : Ordered sampleCxt := by
    refine ⟨rfl, ?_, ?_, ?_, ?_, ?_, ?_⟩ <;> decide +kernel
  have hname : NameAt sampleCxt (word sampleCxt.mem (4176 + 8)) [97] :=
    ⟨0, by decide +kernel, by decide +kernel, by decide +kernel⟩
  have hroot : Tok.At sampleCxt 4168 (.beginNode []) := by
    rw [Tok.At]
    decide +kernel
  have hprop : Tok.At sampleCxt 4176 (.prop [97] [10, 20, 30, 40, 50]) :=
    ⟨by decide +kernel, by decide +kernel, hname, by decide +kernel⟩
  have hend : Tok.At sampleCxt 4196 .endNode := by
    rw [Tok.At]
    decide +kernel
  have htree : HoldsTree sampleCxt sampleTree :=
    ⟨⟨hroot, hprop, hend, trivial⟩, by decide +kernel, by decide +kernel⟩
  have hlast : lastReserve sampleCxt.mem (4136 + 16) = true := by decide +kernel
  have hreserves : HoldsReserves sampleCxt [(0, 0x100000, 0, 0x8000)] :=
    ⟨⟨by decide +kernel, by decide +kernel, by decide +kernel, by decide +kernel,
      by decide +kernel, hlast⟩, by decide +kernel⟩
  exact ftEndTree_ftOpen hordered htree hreserves 200 8

end LiloBoot.DevTree
