/-
LiloBoot.ZImage.MkzimageCmdline — the tool that changes the stored command line.

`main` of `lilo/bootheader/utils/mkzimage_cmdline.c` maps the zImage, searches
it for the two markers of `_builtin_cmd_line` and changes the bytes between
them (§1). A zImage is its list of bytes. The area is found again as long as no
stored text ends like the marker behind the area (§2, §3).
-/
import LiloBoot.Lib.Marker

namespace LiloBoot.ZImage

/-! ## §1 The tool -/

/-- `cmd_line_start`, without its NUL. -/
def cmdlineStart : List UInt8 := [99, 109, 100, 95, 108, 105, 110, 101, 95, 115, 116, 97, 114, 116]

/-- `cmd_line_end`, without its NUL. -/
def cmdlineEnd : List UInt8 := [99, 109, 100, 95, 108, 105, 110, 101, 95, 101, 110, 100]

/-- The marker behind the area, with its NUL. -/
def endMarker : List UInt8 := cmdlineEnd ++ [0]

/-- An argument: a string without a NUL. -/
abbrev Argument := { t : List UInt8 // 0 ∉ t }

/-- The options of a run: `-a`, `-c` and `-s`. -/
structure Options where
  activate : Option Bool
  clear : Bool
  set : Option Argument

/-- `activate || clear || set`. -/
def Options.changes (o : Options) : Bool := o.activate.isSome || o.clear || o.set.isSome

/-- The place behind the first marker and that of the second. Each search looks
    behind the place it starts at, as far as the marker has room. -/
@[irreducible] def findArea (file : List UInt8) : Option (Nat × Nat) :=
  match findMarker cmdlineStart file (file.length - 15 - 13) 0 with
  | none => none
  | some s =>
    let s := s + 14
    match findMarker endMarker file (file.length - 13 - s) s with
    | none => none
    | some tmp => some (s, tmp)

/-- `*active = activate > 0 ? '1' : '0';` -/
def doActivate (o : Options) (s : Nat) (file : List UInt8) : List UInt8 :=
  match o.activate with
  | none => file
  | some on => patch file (s - 15) [if on then 49 else 48]

/-- `memset(s, 0x0, tmp - s);` -/
def doClear (o : Options) (s tmp : Nat) (file : List UInt8) : List UInt8 :=
  if o.clear then patch file s (List.replicate (tmp - s) 0) else file

/-- `snprintf(s, tmp - s, "%s", string);` -/
def doSet (o : Options) (s tmp : Nat) (file : List UInt8) : List UInt8 :=
  match o.set with
  | none => file
  | some string => patch file s (string.val.take (tmp - s - 1) ++ [0])

/-- What a run prints: the size of the area, the string in it and the flag. -/
structure Shown where
  size : Nat
  cmdLine : List UInt8
  active : UInt8
  deriving DecidableEq

/-- `main`: the file afterwards and what is printed without an option, `none`
    where a marker is not found. -/
def mkzimageCmdline (o : Options) (file : List UInt8) : Option (List UInt8 × Option Shown) :=
  match findArea file with
  | none => none
  | some (s, tmp) =>
    if o.changes then
      some (doSet o s tmp (doClear o s tmp (doActivate o s file)), none)
    else
      some (file, some ⟨tmp - s, (file.drop s).takeWhile (· ≠ 0), file.getD (s - 15) 0⟩)

/-- The file after the runs. -/
def runs : List Options → List UInt8 → Option (List UInt8)
  | [], file => some file
  | o :: os, file =>
    match mkzimageCmdline o file with
    | none => none
    | some (file, _) => runs os file

/-! ## §2 The record -/

/-- `sizeof(_builtin_cmd_line.string)`. -/
def areaSize : Nat := 512

/-- The record stands at `r`: the flag, the first marker, the area, the second
    marker; the markers stand nowhere before. -/
structure RecordAt (r : Nat) (file : List UInt8) : Prop where
  room : r + 540 ≤ file.length
  start : MarkerAt cmdlineStart file (r + 1)
  stop : MarkerAt endMarker file (r + 527)
  startOnce : ∀ q, 0 < q → q < r + 1 → ¬ MarkerAt cmdlineStart file q
  stopOnce : ∀ q, r + 15 < q → q < r + 527 → ¬ MarkerAt endMarker file q

section Record

variable {r : Nat} {file file' : List UInt8} {o : Options} {t : List UInt8}

theorem findArea_record (h : RecordAt r file) : findArea file = some (r + 15, r + 527) := by
  have hroom := h.room
  have hstart : findMarker cmdlineStart file (file.length - 15 - 13) 0 = some (r + 1) := by
    rw [findMarker_eq_some_iff]
    exact ⟨by omega, by omega, h.start, h.startOnce⟩
  have hstop : findMarker endMarker file (file.length - 13 - (r + 15)) (r + 15) =
      some (r + 527) := by
    rw [findMarker_eq_some_iff]
    exact ⟨by omega, by omega, h.stop, h.stopOnce⟩
  have hs : r + 1 + 14 = r + 15 := by omega
  unfold findArea
  rw [hstart]
  simp only [hs, hstop]

/-- The files differ in the area and the flag only. -/
def SameOutside (r : Nat) (file file' : List UInt8) : Prop :=
  file'.length = file.length ∧
    ∀ i, i ≠ r → ¬ (r + 15 ≤ i ∧ i < r + 527) → file'[i]? = file[i]?

/-- The flag is what it was, or a digit. -/
def FlagKept (r : Nat) (file file' : List UInt8) : Prop :=
  file'[r]? = file[r]? ∨ file'[r]? = some 48 ∨ file'[r]? = some 49

theorem SameOutside.trans {file'' : List UInt8} (h : SameOutside r file file')
    (h' : SameOutside r file' file'') : SameOutside r file file'' :=
  ⟨h'.1.trans h.1, fun i hi hi' => (h'.2 i hi hi').trans (h.2 i hi hi')⟩

/-- No digit belongs to the first marker, so the flag completes no marker. -/
theorem start_without_flag {q : Nat} (hq : MarkerAt cmdlineStart file q)
    (hflag : file[r]? = some 48 ∨ file[r]? = some 49) : r < q ∨ q + 14 ≤ r := by
  by_contra hin
  obtain ⟨i, rfl⟩ := Nat.exists_eq_add_of_le (show q ≤ r by omega)
  have hi := markerAt_iff.mp hq i (by simp [cmdlineStart]; omega)
  have hmem : (48 : UInt8) ∈ cmdlineStart ∨ (49 : UInt8) ∈ cmdlineStart := by
    rcases hflag with hflag | hflag
    · exact Or.inl (List.mem_of_getElem? (hi.symm.trans hflag))
    · exact Or.inr (List.mem_of_getElem? (hi.symm.trans hflag))
  exact absurd hmem (by decide)

/-- No second marker in the area. -/
def NoStop (r : Nat) (file : List UInt8) : Prop :=
  ∀ q, r + 15 < q → q < r + 527 → ¬ MarkerAt endMarker file q

/-- A changed file has the record as long as its area has no second marker. -/
theorem recordAt_of_sameOutside (h : RecordAt r file) (hsame : SameOutside r file file')
    (hflag : FlagKept r file file') (harea : NoStop r file') : RecordAt r file' := by
  obtain ⟨hlen, hsame⟩ := hsame
  refine ⟨by rw [hlen]; exact h.room, ?_, ?_, fun q hpos hq hat => ?_, harea⟩
  · exact (markerAt_congr fun i hlow hhigh => hsame i (by omega) (by
      simp [cmdlineStart] at hhigh
      omega)).mpr h.start
  · exact (markerAt_congr fun i hlow _ => hsame i (by omega) (by omega)).mpr h.stop
  · by_cases hbefore : q + 14 ≤ r
    · refine h.startOnce q hpos hq ((markerAt_congr fun i hlow hhigh => ?_).mp hat)
      simp only [cmdlineStart, List.length_cons, List.length_nil] at hhigh
      exact hsame i (by omega) (by omega)
    · rcases hflag with hkept | hdigit
      · refine h.startOnce q hpos hq ((markerAt_congr fun i hlow hhigh => ?_).mp hat)
        simp only [cmdlineStart, List.length_cons, List.length_nil] at hhigh
        by_cases hi : i = r
        · rw [hi, hkept]
        · exact hsame i hi (by omega)
      · rcases start_without_flag hat hdigit with h | h
        · omega
        · exact hbefore h

end Record

/-! ## §3 One run -/

section Run

variable {r : Nat} {file : List UInt8} {o : Options} {t : List UInt8}

/-- The text ends like the second marker, in the middle of the area: with its
    NUL it will be taken for it. -/
def EndsLikeMarker (t : List UInt8) : Prop := cmdlineEnd.length < t.length ∧ cmdlineEnd <:+ t

/-- The string in the area. -/
def Tells (r : Nat) (file t : List UInt8) : Prop := (file.drop (r + 15)).takeWhile (· ≠ 0) = t

/-- What a run makes of a file with the record. -/
def changed (o : Options) (r : Nat) (file : List UInt8) : List UInt8 :=
  doSet o (r + 15) (r + 527) (doClear o (r + 15) (r + 527) (doActivate o (r + 15) file))

theorem mkzimageCmdline_record (h : RecordAt r file) :
    ∃ shown, mkzimageCmdline o file = some (changed o r file, shown) := by
  unfold mkzimageCmdline
  rw [findArea_record h]
  by_cases hchanges : o.changes = true
  · exact ⟨none, by simp only [hchanges, if_true, changed]⟩
  · have hnone : o.activate = none ∧ o.clear = false ∧ o.set = none := by
      simpa [Options.changes, and_assoc] using hchanges
    have hsame : changed o r file = file := by
      unfold changed doSet doClear doActivate
      simp only [hnone.1, hnone.2.1, hnone.2.2, Bool.false_eq_true, if_false]
    rw [hsame]
    simp only [hchanges]
    exact ⟨_, rfl⟩

/-- The flag is set, the area stays. -/
theorem doActivate_record (h : RecordAt r file) (s : Nat) (hs : s = r + 15) :
    RecordAt r (doActivate o s file) ∧ SameOutside r file (doActivate o s file) ∧
      ∀ i, i ≠ r → (doActivate o s file)[i]? = file[i]? := by
  subst hs
  have hroom := h.room
  unfold doActivate
  split
  · exact ⟨h, ⟨rfl, fun _ _ _ => rfl⟩, fun _ _ => rfl⟩
  next on _ =>
    rw [Nat.add_sub_cancel]
    have hpart : ∀ i, (patch file r [if on then 49 else 48])[i]? =
        if r ≤ i ∧ i < r + 1 then [if on then (49 : UInt8) else 48][i - r]? else file[i]? :=
      getElem?_patch (by simp; omega)
    have hother : ∀ i, i ≠ r → (patch file r [if on then 49 else 48])[i]? = file[i]? := by
      intro i hi
      rw [hpart, if_neg (by omega)]
    have hsame : SameOutside r file (patch file r [if on then 49 else 48]) :=
      ⟨patch_length (by simp; omega), fun i hi _ => hother i hi⟩
    refine ⟨recordAt_of_sameOutside h hsame (Or.inr ?_) fun q hlow hhigh hat => ?_, hsame, hother⟩
    · rw [hpart, if_pos ⟨Nat.le_refl r, Nat.lt_succ_self r⟩, Nat.sub_self]
      cases on
      · exact Or.inl rfl
      · exact Or.inr rfl
    · exact h.stopOnce q hlow hhigh ((markerAt_congr fun i hi _ => hother i (by omega)).mp hat)

/-- A part written to the front of the area: what is behind it is as it was. -/
theorem patch_area (part : List UInt8) (h : RecordAt r file) (hpart : part.length ≤ areaSize) :
    SameOutside r file (patch file (r + 15) part) ∧ FlagKept r file (patch file (r + 15) part) ∧
      ∀ i, (patch file (r + 15) part)[i]? =
        if r + 15 ≤ i ∧ i < r + 15 + part.length then part[i - (r + 15)]? else file[i]? := by
  have hroom := h.room
  simp only [areaSize] at hpart
  have hget := @getElem?_patch _ file part (r + 15) (by omega)
  refine ⟨⟨patch_length (by omega), fun i hi hout => ?_⟩, Or.inl ?_, hget⟩
  · rw [hget, if_neg (by omega)]
  · rw [hget, if_neg (by omega)]

/-- The bytes of the area where text and a NUL are at its front. -/
theorem text_byte {i : Nat} (h : RecordAt r file) (hlen : t.length < areaSize)
    (hlow : r + 15 ≤ i) (hhigh : i ≤ r + 15 + t.length) :
    (patch file (r + 15) (t ++ [0]))[i]? = (t ++ [0])[i - (r + 15)]? := by
  obtain ⟨-, -, hget⟩ := patch_area (t ++ [0]) h
    (by rw [List.length_append, List.length_singleton]; omega)
  rw [hget, if_pos]
  rw [List.length_append, List.length_singleton]
  omega

theorem endMarker_length : endMarker.length = cmdlineEnd.length + 1 := rfl

/-- A second marker that begins in the text is the end of the text. -/
theorem marker_in_text {q : Nat} (h : RecordAt r file) (ht : 0 ∉ t) (hlen : t.length < areaSize)
    (hat : MarkerAt endMarker (patch file (r + 15) (t ++ [0])) q) (hlow : r + 15 < q)
    (hhigh : q < r + 15 + t.length) : EndsLikeMarker t := by
  rw [markerAt_iff] at hat
  obtain ⟨k, rfl⟩ := Nat.exists_eq_add_of_lt hlow
  have hk : k + 1 < t.length := by omega
  -- The NUL of the marker is no byte of the text, and that of the text is no other of the marker.
  have hend : k + 1 + cmdlineEnd.length = t.length := by
    by_contra hne
    rcases Nat.lt_or_gt_of_ne hne with hbefore | hbehind
    · have hnul := hat cmdlineEnd.length (by rw [endMarker_length]; omega)
      rw [text_byte h hlen (by omega) (by omega), show
        r + 15 + k + 1 + cmdlineEnd.length - (r + 15) = k + 1 + cmdlineEnd.length by omega,
        List.getElem?_append_left hbefore] at hnul
      exact ht (List.mem_of_getElem? (hnul.trans rfl))
    · have hnul := hat (t.length - (k + 1)) (by rw [endMarker_length]; omega)
      rw [show r + 15 + k + 1 + (t.length - (k + 1)) = r + 15 + t.length by omega,
        text_byte h hlen (by omega) (by omega), Nat.add_sub_cancel_left,
        List.getElem?_concat_length, endMarker, List.getElem?_append_left (by omega)] at hnul
      exact absurd (List.mem_of_getElem? hnul.symm) (by decide)
  have hdrop : t.drop (k + 1) = cmdlineEnd := by
    refine List.ext_getElem? fun i => ?_
    by_cases hi : i < cmdlineEnd.length
    · have hbyte := hat i (by rw [endMarker_length]; omega)
      rw [text_byte h hlen (by omega) (by omega), endMarker, List.getElem?_append_left hi, show
        r + 15 + k + 1 + i - (r + 15) = k + 1 + i by omega,
        List.getElem?_append_left (by omega)] at hbyte
      rw [List.getElem?_drop, hbyte]
    · rw [List.getElem?_eq_none (by rw [List.length_drop]; omega), List.getElem?_eq_none (by omega)]
  exact ⟨by omega, hdrop ▸ List.drop_suffix _ _⟩

/-- Text with a NUL behind it at the front of the area. -/
theorem noStop_text (h : RecordAt r file) (ht : 0 ∉ t) (hlen : t.length < areaSize) :
    NoStop r (patch file (r + 15) (t ++ [0])) ↔ ¬ EndsLikeMarker t := by
  constructor
  · rintro hno ⟨hlong, u, rfl⟩
    rw [List.length_append] at hlong
    simp only [areaSize, List.length_append] at hlen
    have hcmd : cmdlineEnd.length = 12 := rfl
    refine hno (r + 15 + u.length) (by omega) (by omega) (markerAt_iff.mpr fun i hi => ?_)
    rw [endMarker_length] at hi
    rw [text_byte h (by simp only [areaSize, List.length_append]; omega) (by omega)
      (by rw [List.length_append]; omega), List.append_assoc,
      List.getElem?_append_right (by omega), ← endMarker]
    congr 1
    omega
  · intro hgood q hlow hhigh hat
    rcases Nat.lt_trichotomy q (r + 15 + t.length) with hbefore | rfl | hbehind
    · exact hgood (marker_in_text h ht hlen hat hlow hbefore)
    · have hfirst := markerAt_iff.mp hat 0 (by decide)
      rw [text_byte h hlen (by omega) (by omega), Nat.add_zero, Nat.add_sub_cancel_left,
        List.getElem?_concat_length] at hfirst
      exact absurd hfirst (by decide)
    · obtain ⟨-, -, hget⟩ := patch_area (t ++ [0]) h
        (by rw [List.length_append, List.length_singleton]; omega)
      refine h.stopOnce q hlow hhigh ((markerAt_congr fun i hi _ => ?_).mp hat)
      rw [hget, if_neg]
      rw [List.length_append, List.length_singleton]
      omega

theorem tells_text (h : RecordAt r file) (ht : 0 ∉ t) :
    Tells r (patch file (r + 15) (t ++ [0])) t := by
  have htake : (file.take (r + 15)).length = r + 15 := by
    have := h.room
    rw [List.length_take]
    omega
  have hdrop : (patch file (r + 15) (t ++ [0])).drop (r + 15) =
      t ++ 0 :: file.drop (r + 15 + (t ++ [0]).length) := by
    rw [patch, List.append_assoc, List.drop_left' htake, List.append_assoc, List.singleton_append]
  rw [Tells, hdrop, List.takeWhile_append_of_pos, List.takeWhile_cons_of_neg (by simp),
    List.append_nil]
  intro c hc
  simp only [decide_eq_true_eq, ne_eq]
  rintro rfl
  exact ht hc

theorem tells_congr {file' : List UInt8} (h : ∀ i, r + 15 ≤ i → file'[i]? = file[i]?) :
    Tells r file' t ↔ Tells r file t := by
  have hdrop : file'.drop (r + 15) = file.drop (r + 15) := by
    refine List.ext_getElem? fun i => ?_
    rw [List.getElem?_drop, List.getElem?_drop, h (r + 15 + i) (by omega)]
  rw [Tells, Tells, hdrop]

theorem doClear_record (h : RecordAt r file) (hclear : o.clear = true) :
    RecordAt r (doClear o (r + 15) (r + 527) file) ∧
      SameOutside r file (doClear o (r + 15) (r + 527) file) ∧
      Tells r (doClear o (r + 15) (r + 527) file) [] := by
  have hsize : r + 527 - (r + 15) = areaSize := by
    simp only [areaSize]
    omega
  rw [doClear, if_pos hclear, hsize]
  obtain ⟨hsame, hflag, hget⟩ := patch_area (List.replicate areaSize 0) h
    (List.length_replicate ..).le
  have hzero : ∀ i, r + 15 ≤ i → i < r + 527 →
      (patch file (r + 15) (List.replicate areaSize 0))[i]? = some 0 := by
    intro i hlow hhigh
    simp only [List.length_replicate, areaSize] at hget
    rw [areaSize, hget, if_pos (by omega), List.getElem?_replicate, if_pos (by omega)]
  refine ⟨recordAt_of_sameOutside h hsame hflag fun q hlow hhigh hat => ?_, hsame, ?_⟩
  · have hfirst := markerAt_iff.mp hat 0 (by decide)
    rw [show q + 0 = q from rfl, hzero q (by omega) hhigh] at hfirst
    exact absurd hfirst (by decide)
  · have hdrop : ∃ rest, (patch file (r + 15) (List.replicate areaSize 0)).drop (r + 15) =
        0 :: rest := by
      have hhead := hzero (r + 15) (Nat.le_refl _) (by omega)
      rw [← List.head?_drop] at hhead
      exact List.head?_eq_some_iff.mp hhead
    obtain ⟨rest, hdrop⟩ := hdrop
    rw [Tells, hdrop]
    rfl

theorem doSet_record {string : Argument} (h : RecordAt r file) (hset : o.set = some string) :
    SameOutside r file (doSet o (r + 15) (r + 527) file) ∧
      Tells r (doSet o (r + 15) (r + 527) file) (string.val.take 511) ∧
      FlagKept r file (doSet o (r + 15) (r + 527) file) ∧
      (NoStop r (doSet o (r + 15) (r + 527) file) ↔ ¬ EndsLikeMarker (string.val.take 511)) := by
  have hsize : r + 527 - (r + 15) - 1 = 511 := by omega
  have ht : 0 ∉ string.val.take 511 := fun h0 => string.property (List.mem_of_mem_take h0)
  have hlen : (string.val.take 511).length < areaSize := by
    rw [List.length_take, areaSize]
    omega
  rw [doSet, hset]
  simp only [hsize]
  obtain ⟨hsame, hflag, -⟩ := patch_area (string.val.take 511 ++ [0]) h
    (by rw [List.length_append, List.length_singleton]; omega)
  exact ⟨hsame, tells_text h ht, hflag, noStop_text h ht hlen⟩

/-- The text a run stores: what `-s` gives, as far as there is room, or none
    after `-c`. -/
def storedAfter (o : Options) (old : Option (List UInt8)) : Option (List UInt8) :=
  match o.set with
  | some string => some (string.val.take 511)
  | none => if o.clear then some [] else old

/-- **One run.** Only the area and the flag change, and the area tells the text
    that was stored last; it is found again unless the text ends like the
    second marker. -/
theorem changed_record (h : RecordAt r file) :
    SameOutside r file (changed o r file) ∧
      (∀ old, (∀ t, old = some t → Tells r file t) → ∀ t, storedAfter o old = some t →
        Tells r (changed o r file) t) ∧
      (NoStop r (changed o r file) → RecordAt r (changed o r file)) ∧
      (NoStop r (changed o r file) ↔
        ∀ string, o.set = some string → ¬ EndsLikeMarker (string.val.take 511)) := by
  obtain ⟨hrec, hsame, hother⟩ := doActivate_record (o := o) h (r + 15) rfl
  have htells : ∀ t, Tells r (doActivate o (r + 15) file) t ↔ Tells r file t :=
    fun t => tells_congr fun i hi => hother i (by omega)
  rw [changed]
  generalize doActivate o (r + 15) file = file₁ at *
  have hclear : RecordAt r (doClear o (r + 15) (r + 527) file₁) ∧
      SameOutside r file₁ (doClear o (r + 15) (r + 527) file₁) ∧
      (if o.clear then Tells r (doClear o (r + 15) (r + 527) file₁) []
        else doClear o (r + 15) (r + 527) file₁ = file₁) := by
    by_cases hc : o.clear = true
    · simpa only [hc, if_true] using doClear_record hrec hc
    · have hfile : doClear o (r + 15) (r + 527) file₁ = file₁ := if_neg hc
      rw [hfile, if_neg hc]
      exact ⟨hrec, ⟨rfl, fun _ _ _ => rfl⟩, rfl⟩
  obtain ⟨hrec₂, hsame₂, htells₂⟩ := hclear
  generalize hfile₂ : doClear o (r + 15) (r + 527) file₁ = file₂ at *
  have hsame' : SameOutside r file file₂ := hsame.trans hsame₂
  cases hset : o.set with
  | some string =>
    obtain ⟨hsame₃, htells₃, hflag, hno⟩ := doSet_record hrec₂ hset
    refine ⟨hsame'.trans hsame₃, fun old _ t ht => ?_,
      recordAt_of_sameOutside hrec₂ hsame₃ hflag, ?_⟩
    · simp only [storedAfter, hset, Option.some.injEq] at ht
      exact ht ▸ htells₃
    · rw [hno]
      constructor
      · rintro hgood _ ⟨⟩
        exact hgood
      · exact fun hgood => hgood string rfl
  | none =>
    have hfile₃ : doSet o (r + 15) (r + 527) file₂ = file₂ := by rw [doSet, hset]
    rw [hfile₃]
    refine ⟨hsame', fun old hold t ht => ?_, fun _ => hrec₂,
      fun _ string hsome => (by cases hsome), fun _ => hrec₂.stopOnce⟩
    simp only [storedAfter, hset] at ht
    by_cases hc : o.clear = true
    · rw [if_pos hc] at ht htells₂
      cases ht
      exact htells₂
    · rw [if_neg hc] at ht htells₂
      rw [htells₂]
      exact (htells t).mpr (hold t ht)

end Run

/-! ## §4 All runs -/

section Runs

variable {r : Nat} {file : List UInt8}

/-- The text stored last. -/
def lastStored (os : List Options) : Option (List UInt8) :=
  os.foldl (fun old o => storedAfter o old) none

/-- A run without an option. -/
def showOnly : Options := ⟨none, false, none⟩

/-- After the runs the area is found where it was, a run without an option
    shows it whole with the text stored last, and nothing but the area and the
    flag has changed. -/
def Kept (r : Nat) (file : List UInt8) (os : List Options) : Prop :=
  ∃ file', runs os file = some file' ∧ findArea file' = some (r + 15, r + 527) ∧
    SameOutside r file file' ∧
    ∀ t, lastStored os = some t → ∃ active,
      mkzimageCmdline showOnly file' = some (file', some ⟨areaSize, t, active⟩)

theorem runs_concat (os : List Options) (o : Options) (file : List UInt8) :
    runs (os ++ [o]) file =
      (runs os file).bind fun file' => (mkzimageCmdline o file').map Prod.fst := by
  induction os generalizing file with
  | nil =>
    simp only [List.nil_append, runs, Option.bind_some]
    cases mkzimageCmdline o file <;> rfl
  | cons a os ih =>
    simp only [List.cons_append, runs]
    cases mkzimageCmdline a file with
    | none => rfl
    | some result => exact ih result.1

/-- No run stores a text that ends like the second marker. -/
def StoresGood (os : List Options) : Prop :=
  ∀ o ∈ os, ∀ string, o.set = some string → ¬ EndsLikeMarker (string.val.take 511)

theorem lastStored_concat (os : List Options) (o : Options) :
    lastStored (os ++ [o]) = storedAfter o (lastStored os) := by
  simp [lastStored]

/-- The invariant of the runs. -/
theorem runs_record {os : List Options} (h : RecordAt r file) (hgood : StoresGood os) :
    ∃ file', runs os file = some file' ∧ RecordAt r file' ∧ SameOutside r file file' ∧
      ∀ t, lastStored os = some t → Tells r file' t := by
  induction os using List.reverseRecOn with
  | nil => exact ⟨file, rfl, h, ⟨rfl, fun _ _ _ => rfl⟩, fun _ ht => by cases ht⟩
  | append_singleton os o ih =>
    obtain ⟨file', hruns, hrec, hsame, htells⟩ :=
      ih fun o ho => hgood o (List.mem_append_left _ ho)
    obtain ⟨shown, hrun⟩ := mkzimageCmdline_record (o := o) hrec
    obtain ⟨hsame', htells', hrec', hno⟩ := changed_record (o := o) hrec
    refine ⟨changed o r file', ?_, hrec' (hno.mpr (hgood o (by simp))), hsame.trans hsame', ?_⟩
    · rw [runs_concat, hruns, Option.bind_some, hrun]
      rfl
    · rw [lastStored_concat]
      exact htells' _ htells

theorem show_record {t : List UInt8} (h : RecordAt r file) (ht : Tells r file t) :
    ∃ active, mkzimageCmdline showOnly file = some (file, some ⟨areaSize, t, active⟩) := by
  have hsize : r + 527 - (r + 15) = areaSize := by
    simp only [areaSize]
    omega
  refine ⟨file.getD (r + 15 - 15) 0, ?_⟩
  unfold mkzimageCmdline
  rw [findArea_record h]
  simp only [showOnly, Options.changes, Option.isSome_none, Bool.or_self, Bool.false_eq_true,
    if_false, hsize]
  rw [ht]

theorem noStop_of_findArea (h : findArea file = some (r + 15, r + 527)) : NoStop r file := by
  unfold findArea at h
  split at h
  · cases h
  next s _ =>
    simp only at h
    split at h
    · cases h
    next tmp hstop =>
      simp only [Option.some.injEq, Prod.mk.injEq] at h
      obtain ⟨hs, rfl⟩ := h
      rw [hs, findMarker_eq_some_iff] at hstop
      exact hstop.2.2.2

/-- **The area is found again.** After any of the runs the area is where it
    was, with the text stored last, exactly if no run stores a text that,
    cut to 511 characters, ends like the second marker behind others. -/
theorem runs_kept_iff {os : List Options} (h : RecordAt r file) :
    (∀ done, done <+: os → Kept r file done) ↔ StoresGood os := by
  constructor
  · intro hkept
    induction os using List.reverseRecOn with
    | nil => exact fun o ho => by cases ho
    | append_singleton os o ih =>
      have hgood : StoresGood os :=
        ih fun done hdone => hkept done (hdone.trans (List.prefix_append os [o]))
      obtain ⟨file', hruns, hrec, hsame, -⟩ := runs_record h hgood
      obtain ⟨shown, hrun⟩ := mkzimageCmdline_record (o := o) hrec
      obtain ⟨file'', hruns', harea, hsame', -⟩ := hkept _ List.prefix_rfl
      rw [runs_concat, hruns, Option.bind_some, hrun] at hruns'
      obtain rfl : changed o r file' = file'' := Option.some.inj hruns'
      intro a ha
      rcases List.mem_append.mp ha with ha | ha
      · exact hgood a ha
      · obtain rfl := List.mem_singleton.mp ha
        exact (changed_record hrec).2.2.2.mp (noStop_of_findArea harea)
  · intro hgood done hdone
    obtain ⟨file', hruns, hrec, hsame, htells⟩ :=
      runs_record h fun o ho => hgood o (hdone.subset ho)
    exact ⟨file', hruns, findArea_record hrec, hsame, fun t ht => show_record hrec (htells t ht)⟩

end Runs

/-! ## §5 A zImage that is its record -/

/-- The record alone, with an empty area. -/
def emptyImage : List UInt8 := [49] ++ cmdlineStart ++ List.replicate areaSize 0 ++ endMarker

theorem emptyImage_record : RecordAt 0 emptyImage := by
  have hfront : ([49] ++ cmdlineStart : List UInt8).length = 15 := rfl
  have hlen : ([49] ++ cmdlineStart ++ List.replicate areaSize 0 : List UInt8).length = 527 := by
    rw [List.length_append, hfront, List.length_replicate, areaSize]
  refine ⟨?_, ?_, ?_, fun q hpos hq => absurd hq (by omega), fun q hlow hhigh hat => ?_⟩
  · rw [emptyImage, List.length_append, hlen]
    decide
  · exact ⟨List.replicate areaSize 0 ++ endMarker, by simp [emptyImage]⟩
  · rw [MarkerAt, emptyImage, List.drop_left' (by rw [hlen])]
  · have hfirst := markerAt_iff.mp hat 0 (by decide)
    rw [show q + 0 = q from rfl, emptyImage, List.getElem?_append_left (by omega),
      List.getElem?_append_right (by omega), List.getElem?_replicate, hfront,
      if_pos (by rw [areaSize]; omega)] at hfirst
    exact absurd hfirst (by decide)

/-- `-s` with a text. -/
def storing (t : Argument) : Options := ⟨none, false, some t⟩

/-- The text `a` is kept. -/
theorem letter_kept : Kept 0 emptyImage [storing ⟨[97], by decide⟩] := by
  refine (runs_kept_iff emptyImage_record).mpr (fun o ho string hset => ?_) _ List.prefix_rfl
  obtain rfl := List.mem_singleton.mp ho
  cases hset
  exact fun hends => absurd hends.1 (by decide)

/-- The text `acmd_line_end` is taken for the end of the area. -/
theorem markerText_lost : ¬ ∀ done, done <+: [storing ⟨97 :: cmdlineEnd, by decide⟩] →
    Kept 0 emptyImage done := by
  intro hkept
  obtain ⟨file, hruns, harea, -⟩ := hkept _ List.prefix_rfl
  obtain ⟨shown, hrun⟩ :=
    mkzimageCmdline_record (o := storing ⟨97 :: cmdlineEnd, by decide⟩) emptyImage_record
  rw [runs, hrun] at hruns
  obtain rfl : changed (storing ⟨97 :: cmdlineEnd, by decide⟩) 0 emptyImage = file :=
    Option.some.inj hruns
  refine (changed_record emptyImage_record).2.2.2.mp (noStop_of_findArea harea) _ rfl ?_
  exact ⟨by decide, [97], by decide⟩

end LiloBoot.ZImage
