/-
LiloBoot.ZImage.GunzipHeaderTheorems — when the header is skipped without looking
behind the buffer.

§1 follows the code through the memory: while the ends of the parts lie in the
buffer it finds them, else it looks behind it. §2 compares the place with the header
of RFC 1952. The test of the length comes when everything has been read, so
(`startsRight_iff`) the call is right exactly of the buffers in which all bytes lie
that say where the header ends.
-/
import LiloBoot.ZImage.GunzipHeader

namespace LiloBoot.ZImage

variable {buf beyond : List UInt8} {flags flag : UInt8} {a reads : Nat}

/-! ## §1 Through the memory -/

/-- Where a string ends that would start at `a`. -/
def stringEnd (buf : List UInt8) (flags flag : UInt8) (a : Nat) : Nat :=
  if flags &&& flag ≠ 0 then a + ((buf.drop a).takeWhile (· != 0)).length + 1 else a

/-- Where the header would end. -/
def headerEnd (buf : List UInt8) : Nat :=
  let i := stringEnd buf (buf.getD 3 0) COMMENT (commentAt buf)
  if buf.getD 3 0 &&& HEAD_CRC ≠ 0 then i + 2 else i

theorem commentAt_eq (buf : List UInt8) :
    commentAt buf = stringEnd buf (buf.getD 3 0) ORIG_NAME (nameAt buf) := rfl

theorem skipNul_append (rest : List UInt8) : ∀ {bytes : List UInt8}, 0 ∈ bytes →
    skipNul (bytes ++ rest) = some ((bytes.takeWhile (· != 0)).length + 1)
      ∧ (bytes.takeWhile (· != 0)).length + 1 ≤ bytes.length
  | [], h => absurd h List.not_mem_nil
  | b :: bytes, h => by
    rw [List.cons_append, skipNul]
    by_cases hb : b = 0
    · rw [if_pos hb, List.takeWhile_cons_of_neg (by simp [hb])]
      exact ⟨rfl, Nat.succ_le_succ (Nat.zero_le _)⟩
    · have hmem : 0 ∈ bytes := (List.mem_cons.mp h).resolve_left fun h => hb h.symm
      obtain ⟨hskip, hle⟩ := skipNul_append rest hmem
      rw [if_neg hb, hskip, List.takeWhile_cons_of_pos (by simp [hb]), List.length_cons,
        List.length_cons]
      exact ⟨rfl, Nat.succ_le_succ hle⟩

theorem lt_of_skipNul (rest : List UInt8) : ∀ {bytes : List UInt8}, 0 ∉ bytes →
    ∀ {k}, skipNul (bytes ++ rest) = some k → bytes.length < k
  | [], _, k, h => by
    cases rest with
    | nil => cases h
    | cons b rest =>
      rw [List.nil_append, skipNul] at h
      split at h
      · cases h
        exact Nat.one_pos
      · obtain ⟨m, _, rfl⟩ := Option.map_eq_some_iff.mp h
        exact Nat.succ_pos m
  | b :: bytes, hno, k, h => by
    rw [List.mem_cons, not_or] at hno
    rw [List.cons_append, skipNul, if_neg fun hb => hno.1 hb.symm] at h
    obtain ⟨m, hm, rfl⟩ := Option.map_eq_some_iff.mp h
    exact Nat.succ_lt_succ (lt_of_skipNul rest hno.2 hm)

theorem drop_le_of_mem {b : UInt8} (h : b ∈ buf.drop a) : a ≤ buf.length := by
  by_contra hlt
  rw [List.drop_of_length_le (by omega)] at h
  exact List.not_mem_nil h

/-- A string whose NUL lies in the buffer is skipped within it. -/
theorem skipString_inside (hreads : reads ≤ buf.length)
    (h : flags &&& flag ≠ 0 → 0 ∈ buf.drop a) :
    ∃ reads' ≤ buf.length, skipString (buf ++ beyond) flags flag (a, reads)
      = some (stringEnd buf flags flag a, reads') := by
  rw [skipString, stringEnd]
  by_cases hflag : flags &&& flag ≠ 0
  · have ha := drop_le_of_mem (h hflag)
    obtain ⟨hskip, hle⟩ := skipNul_append beyond (h hflag)
    rw [List.length_drop] at hle
    refine ⟨max reads (a + ((buf.drop a).takeWhile (· != 0)).length + 1), by omega, ?_⟩
    rw [if_pos hflag, if_pos hflag, List.drop_append_of_le_length ha, hskip]
    rfl
  · exact ⟨reads, hreads, by rw [if_neg hflag, if_neg hflag]⟩

/-- For a string whose NUL does not, a byte behind the buffer is looked at. -/
theorem skipString_outside {st : Skipped} (hflag : flags &&& flag ≠ 0) (hno : 0 ∉ buf.drop a)
    (h : skipString (buf ++ beyond) flags flag (a, reads) = some st) : buf.length < st.2 := by
  rw [skipString, if_pos hflag] at h
  obtain ⟨k, hk, rfl⟩ := Option.map_eq_some_iff.mp h
  simp only at hk ⊢
  by_cases ha : a ≤ buf.length
  · rw [List.drop_append_of_le_length ha] at hk
    have hlt := lt_of_skipNul beyond (k := k) hno hk
    rw [List.length_drop] at hlt
    omega
  · omega

theorem skipString_reads {mem : List UInt8} {st st' : Skipped}
    (h : skipString mem flags flag st = some st') : st.2 ≤ st'.2 := by
  rw [skipString] at h
  split at h
  · obtain ⟨k, _, rfl⟩ := Option.map_eq_some_iff.mp h
    exact Nat.le_max_left _ _
  · cases h
    exact Nat.le_refl _

/-- Reading a list in front of another. -/
theorem getElem?_front {i : Nat} (hi : i < buf.length) :
    (buf ++ beyond)[i]? = some (buf.getD i 0) := by
  rw [List.getElem?_append_left hi, List.getElem?_eq_getElem hi, List.getD_eq_getElem _ _ hi]

theorem skipExtra_inside (h4 : 4 ≤ buf.length)
    (h : buf.getD 3 0 &&& EXTRA_FIELD ≠ 0 → 12 ≤ buf.length) :
    ∃ reads ≤ buf.length, skipExtra (buf ++ beyond) (buf.getD 3 0) = some (nameAt buf, reads) := by
  rw [skipExtra, nameAt]
  by_cases hflag : buf.getD 3 0 &&& EXTRA_FIELD ≠ 0
  · have h12 := h hflag
    refine ⟨12, h12, ?_⟩
    rw [if_pos hflag, if_pos hflag, getElem?_front (by omega), getElem?_front (by omega)]
    simp only [Nat.shiftLeft_eq, Nat.reducePow]
  · exact ⟨4, h4, by rw [if_neg hflag, if_neg hflag]⟩

theorem skipExtra_reads {mem : List UInt8} {st : Skipped} (h : skipExtra mem flags = some st) :
    4 ≤ st.2 ∧ (flags &&& EXTRA_FIELD ≠ 0 → st.2 = 12) := by
  rw [skipExtra] at h
  split at h
  · split at h
    · cases h
      exact ⟨show 4 ≤ 12 by decide, fun _ => rfl⟩
    · cases h
  · rename_i hflag
    cases h
    exact ⟨Nat.le_refl _, fun h => absurd h hflag⟩

/-- The three ends that the code looks for lie in the buffer. -/
def PartsInside (buf : List UInt8) : Prop :=
  (buf.getD 3 0 &&& EXTRA_FIELD ≠ 0 → 12 ≤ buf.length)
    ∧ (buf.getD 3 0 &&& ORIG_NAME ≠ 0 → 0 ∈ buf.drop (nameAt buf))
    ∧ (buf.getD 3 0 &&& COMMENT ≠ 0 → 0 ∈ buf.drop (commentAt buf))

theorem skipHeader_inside (h4 : 4 ≤ buf.length) (h : PartsInside buf) :
    ∃ reads ≤ buf.length, skipHeader (buf ++ beyond) (buf.getD 3 0)
      = some (headerEnd buf, reads) := by
  obtain ⟨hextra, hname, hcomment⟩ := h
  obtain ⟨r1, h1, e1⟩ := @skipExtra_inside buf beyond h4 hextra
  obtain ⟨r2, h2, e2⟩ := @skipString_inside buf beyond _ _ _ _ h1 hname
  obtain ⟨r3, h3, e3⟩ := @skipString_inside buf beyond _ _ _ _ h2 hcomment
  rw [commentAt_eq] at e3
  refine ⟨r3, h3, ?_⟩
  rw [skipHeader, e1, Option.bind_some, e2, Option.bind_some, e3]
  rfl

/-- If one of them does not, a byte behind the buffer is looked at. -/
theorem partsInside_of_reads {st : Skipped}
    (h : skipHeader (buf ++ beyond) (buf.getD 3 0) = some st) (hreads : st.2 ≤ buf.length) :
    4 ≤ buf.length ∧ PartsInside buf := by
  rw [skipHeader] at h
  obtain ⟨st3, h3, rfl⟩ := Option.map_eq_some_iff.mp h
  obtain ⟨st2, h2, h3⟩ := Option.bind_eq_some_iff.mp h3
  obtain ⟨st1, h1, h2⟩ := Option.bind_eq_some_iff.mp h2
  simp only at hreads
  have hle3 := skipString_reads h3
  have hle2 := skipString_reads h2
  obtain ⟨hle1, h12⟩ := skipExtra_reads h1
  have hextra : buf.getD 3 0 &&& EXTRA_FIELD ≠ 0 → 12 ≤ buf.length := fun hflag => by
    have := h12 hflag
    omega
  obtain ⟨r1, hr1, e1⟩ := @skipExtra_inside buf beyond (by omega) hextra
  rw [e1, Option.some.injEq] at h1
  subst h1
  have hname : buf.getD 3 0 &&& ORIG_NAME ≠ 0 → 0 ∈ buf.drop (nameAt buf) := fun hflag => by
    by_contra hno
    have := skipString_outside hflag hno h2
    omega
  obtain ⟨r2, hr2, e2⟩ := @skipString_inside buf beyond _ _ _ _ hr1 hname
  rw [e2, Option.some.injEq] at h2
  subst h2
  refine ⟨by omega, hextra, hname, fun hflag => ?_⟩
  by_contra hno
  have := skipString_outside hflag hno h3
  omega

/-! ## §2 The header -/

/-- A string part ends where the scan for the NUL says. -/
theorem stringEnd_of_isString {part front rest : List UInt8}
    (h : GzipHeader.IsString flags flag part) :
    stringEnd (front ++ (part ++ rest)) flags flag front.length = front.length + part.length := by
  rw [GzipHeader.IsString] at h
  rw [stringEnd]
  by_cases hflag : flags &&& flag ≠ 0
  · rw [if_pos hflag] at h ⊢
    obtain ⟨s, hs, rfl⟩ := h
    have hall : ∀ b ∈ s, (b != 0) = true := fun b hb => by
      simp only [bne_iff_ne, ne_eq]
      rintro rfl
      exact hs hb
    rw [List.drop_left, List.append_assoc, List.takeWhile_append_of_pos hall, List.singleton_append,
      List.takeWhile_cons_of_neg (by simp), List.append_nil, List.length_append,
      List.length_singleton, Nat.add_assoc]
  · rw [if_neg hflag] at h ⊢
    rw [h]
    rfl

theorem headerIn_accepted {i : Nat} (h : HeaderIn buf i) :
    buf.getD 2 0 = Z_DEFLATED ∧ buf.getD 3 0 &&& RESERVED = 0 := by
  obtain ⟨h, hv, ⟨rest, rfl⟩, _⟩ := h
  have hfixed := hv.fixed
  have hget (k : Nat) (hk : k < 10) : (h.bytes ++ rest).getD k 0 = h.fixed.getD k 0 := by
    simp only [GzipHeader.bytes, List.append_assoc]
    exact List.getD_append _ _ _ _ (by omega)
  exact ⟨by rw [hget 2 (by decide)]; exact hv.method,
    by rw [hget 3 (by decide)]; exact hv.reserved⟩

/-- A header ends where the scan of its parts says. -/
theorem headerIn_end {i : Nat} (h : HeaderIn buf i) : i = headerEnd buf := by
  obtain ⟨⟨fixed, extra, name, comment, crc⟩, hv, ⟨rest, rfl⟩, rfl⟩ := h
  obtain ⟨hfixed, _, _, hextra, hname, hcomment, hcrc⟩ := hv
  change fixed.length = 10 at hfixed
  simp only at hextra hname hcomment hcrc
  simp only [GzipHeader.bytes]
  generalize hbuf : fixed ++ extra ++ name ++ comment ++ crc ++ rest = buf
  have hflags : GzipHeader.flags ⟨fixed, extra, name, comment, crc⟩ = buf.getD 3 0 := by
    rw [← hbuf]
    show fixed.getD 3 0 = _
    simp only [List.append_assoc]
    exact (List.getD_append _ _ _ _ (by omega)).symm
  rw [hflags] at hextra hname hcomment hcrc
  have hnameAt : nameAt buf = (fixed ++ extra).length := by
    rw [nameAt, List.length_append, hfixed]
    by_cases hflag : buf.getD 3 0 &&& EXTRA_FIELD ≠ 0
    · rw [if_pos hflag] at hextra ⊢
      obtain ⟨lo, hi, data, rfl, hdata⟩ := hextra
      have hbuf' : buf = fixed ++ (lo :: hi :: (data ++ (name ++ (comment ++ (crc ++ rest))))) := by
        rw [← hbuf]
        simp
      have hlo : buf.getD 10 0 = lo := by
        rw [hbuf', List.getD_append_right _ _ _ _ (by omega), hfixed]
        rfl
      have hhi : buf.getD 11 0 = hi := by
        rw [hbuf', List.getD_append_right _ _ _ _ (by omega), hfixed]
        rfl
      rw [hlo, hhi, List.length_cons, List.length_cons, hdata]
      omega
    · rw [if_neg hflag] at hextra ⊢
      rw [hextra]
      rfl
  have hcommentAt : commentAt buf = (fixed ++ extra ++ name).length := by
    have hend := @stringEnd_of_isString _ _ _ (fixed ++ extra) (comment ++ (crc ++ rest)) hname
    have hsplit : fixed ++ extra ++ (name ++ (comment ++ (crc ++ rest))) = buf := by
      rw [← hbuf]
      simp
    rw [hsplit] at hend
    rw [commentAt_eq, hnameAt, hend, ← List.length_append]
  have hcommentEnd : stringEnd buf (buf.getD 3 0) COMMENT (commentAt buf)
      = (fixed ++ extra ++ name ++ comment).length := by
    have hend := @stringEnd_of_isString _ _ _ (fixed ++ extra ++ name) (crc ++ rest) hcomment
    have hsplit : fixed ++ extra ++ name ++ (comment ++ (crc ++ rest)) = buf := by
      rw [← hbuf]
      simp
    rw [hsplit] at hend
    rw [hcommentAt, hend, ← List.length_append]
  rw [headerEnd]
  simp only [hcommentEnd]
  rw [List.length_append, hcrc]
  split <;> rfl

/-- The part of a buffer that a string whose NUL lies in it takes up. -/
theorem isString_of_mem (h : flags &&& flag ≠ 0 → 0 ∈ buf.drop a) :
    GzipHeader.IsString flags flag ((buf.drop a).take (stringEnd buf flags flag a - a)) := by
  rw [GzipHeader.IsString, stringEnd]
  by_cases hflag : flags &&& flag ≠ 0
  · rw [if_pos hflag, if_pos hflag, Nat.add_assoc, Nat.add_sub_cancel_left]
    have hsplit := List.takeWhile_append_dropWhile (p := fun b : UInt8 => b != 0) (l := buf.drop a)
    have hmem := h hflag
    cases hdrop : (buf.drop a).dropWhile (· != 0) with
    | nil =>
      rw [hdrop, List.append_nil] at hsplit
      rw [← hsplit] at hmem
      exact absurd (List.mem_takeWhile_imp hmem) (by decide)
    | cons b rest =>
      have hb : b = 0 := by
        have hhead := List.head?_dropWhile_not (fun b : UInt8 => b != 0) (buf.drop a)
        rw [hdrop] at hhead
        simpa using hhead
      refine ⟨(buf.drop a).takeWhile (· != 0), fun h0 => ?_, ?_⟩
      · exact absurd (List.mem_takeWhile_imp h0) (by decide)
      · rw [hdrop, hb] at hsplit
        generalize (buf.drop a).takeWhile (· != 0) = t at hsplit ⊢
        rw [← hsplit, List.take_append, List.take_of_length_le (Nat.le_succ _),
          Nat.add_sub_cancel_left]
        rfl
  · rw [if_neg hflag, if_neg hflag, Nat.sub_self, List.take_zero]

theorem le_stringEnd (buf : List UInt8) (flags flag : UInt8) (a : Nat) :
    a ≤ stringEnd buf flags flag a := by
  rw [stringEnd]
  split
  · omega
  · exact Nat.le_refl a

theorem ten_le_nameAt (buf : List UInt8) : 10 ≤ nameAt buf := by
  rw [nameAt]
  split <;> omega

/-- Cutting a list at places in order. -/
theorem take_append_slice {l : List UInt8} {i j : Nat} (h : i ≤ j) :
    l.take i ++ (l.drop i).take (j - i) = l.take j := by
  rw [← List.take_add, Nat.add_sub_cancel' h]

/-- If the header is accepted and the place found lies in the buffer, there is a header up to it. -/
theorem headerIn_of_end (hmethod : buf.getD 2 0 = Z_DEFLATED)
    (hreserved : buf.getD 3 0 &&& RESERVED = 0) (hparts : PartsInside buf)
    (hend : headerEnd buf ≤ buf.length) : HeaderIn buf (headerEnd buf) := by
  obtain ⟨hextra, hname, hcomment⟩ := hparts
  have h10 := ten_le_nameAt buf
  have h1 : nameAt buf ≤ commentAt buf := le_stringEnd buf _ _ _
  have h2 := le_stringEnd buf (buf.getD 3 0) COMMENT (commentAt buf)
  have h3 : stringEnd buf (buf.getD 3 0) COMMENT (commentAt buf) ≤ headerEnd buf := by
    rw [headerEnd]
    split <;> omega
  have hget (k : Nat) (hk : k < 10) : (buf.take 10).getD k 0 = buf.getD k 0 := by
    rw [List.getD_eq_getElem _ _ (by rw [List.length_take]; omega),
      List.getD_eq_getElem _ _ (by omega), List.getElem_take]
  let h : GzipHeader :=
    { fixed := buf.take 10
      extra := (buf.drop 10).take (nameAt buf - 10)
      name := (buf.drop (nameAt buf)).take (commentAt buf - nameAt buf)
      comment := (buf.drop (commentAt buf)).take
        (stringEnd buf (buf.getD 3 0) COMMENT (commentAt buf) - commentAt buf)
      crc := (buf.drop (stringEnd buf (buf.getD 3 0) COMMENT (commentAt buf))).take
        (headerEnd buf - stringEnd buf (buf.getD 3 0) COMMENT (commentAt buf)) }
  have hbytes : h.bytes = buf.take (headerEnd buf) := by
    simp only [h, GzipHeader.bytes]
    rw [take_append_slice h10, take_append_slice h1, take_append_slice h2, take_append_slice h3]
  have hflags : h.flags = buf.getD 3 0 := hget 3 (by decide)
  refine ⟨h, ⟨?_, ?_, ?_, ?_, ?_, ?_, ?_⟩, ?_, ?_⟩
  · show (buf.take 10).length = 10
    rw [List.length_take]
    omega
  · show (buf.take 10).getD 2 0 = Z_DEFLATED
    rw [hget 2 (by decide), hmethod]
  · rw [hflags, hreserved]
  · rw [hflags]
    show if buf.getD 3 0 &&& EXTRA_FIELD ≠ 0 then _ else (buf.drop 10).take (nameAt buf - 10) = []
    by_cases hflag : buf.getD 3 0 &&& EXTRA_FIELD ≠ 0
    · rw [if_pos hflag]
      have h12 := hextra hflag
      have hat : nameAt buf = 12 + (buf.getD 10 0).toNat + (buf.getD 11 0).toNat * 256 := by
        rw [nameAt, if_pos hflag]
      refine ⟨buf.getD 10 0, buf.getD 11 0, (buf.drop 12).take (nameAt buf - 12), ?_, ?_⟩
      · show (buf.drop 10).take (nameAt buf - 10) = _
        have hn : nameAt buf - 10 = nameAt buf - 12 + 1 + 1 := by omega
        rw [hn, List.drop_eq_getElem_cons (by omega), List.take_succ_cons,
          List.drop_eq_getElem_cons (by omega), List.take_succ_cons,
          List.getD_eq_getElem _ _ (by omega), List.getD_eq_getElem _ _ (by omega)]
      · rw [List.length_take, List.length_drop]
        omega
    · rw [if_neg hflag, nameAt, if_neg hflag, Nat.sub_self, List.take_zero]
  · rw [hflags]
    exact isString_of_mem hname
  · rw [hflags]
    exact isString_of_mem hcomment
  · rw [hflags]
    show ((buf.drop _).take _).length = _
    rw [List.length_take, List.length_drop, Nat.min_eq_left (by omega), headerEnd]
    split
    · exact Nat.add_sub_cancel_left _ _
    · exact Nat.sub_self _
  · rw [hbytes]
    exact List.take_prefix _ _
  · rw [hbytes, List.length_take, Nat.min_eq_left hend]

/-! ## §3 The decision -/

theorem doGunzip_eq (h : 4 ≤ buf.length) : doGunzip (buf ++ beyond) buf.length =
    if buf.getD 2 0 ≠ Z_DEFLATED ∨ buf.getD 3 0 &&& RESERVED ≠ 0 then some (.abort, 4)
    else (skipHeader (buf ++ beyond) (buf.getD 3 0)).map fun st =>
      (if buf.length ≤ st.1 then .abort else .inflate st.1, st.2) := by
  rw [doGunzip, headerStart, getElem?_front (by omega), getElem?_front (by omega)]

/-- Behind the magic number the two functions are one. -/
theorem gunzipStart_eq {src : List UInt8} (h0 : src[0]? = some 0x1f) (h1 : src[1]? = some 0x8b)
    (n : Nat) : gunzipStart src n = doGunzip src n := by
  rw [gunzipStart, h0]
  simp only [ne_eq, not_true_eq_false, if_false, h1]
  rfl

/-- **The header is skipped right**, whatever stands behind the buffer, exactly if all bytes that
say where it ends lie in the buffer. -/
theorem startsRight_iff (buf beyond : List UInt8) : StartsRight buf beyond ↔ EndsInside buf := by
  have hps3 {r : Start} {reads : Nat}
      (h : doGunzip (buf ++ beyond) buf.length = some (r, reads)) (h2 : 2 ≤ buf.length)
      (h0 : buf[0]? = some 0x1f) (h1 : buf[1]? = some 0x8b) :
      ∃ reads', gunzipStart (buf ++ beyond) buf.length = some (r, reads') := by
    refine ⟨reads, ?_⟩
    rw [gunzipStart_eq (by rw [List.getElem?_append_left (by omega), h0])
      (by rw [List.getElem?_append_left (by omega), h1]), h]
  constructor
  · rintro ⟨r, reads, hstart, _, hreads, _⟩
    have h4 : 4 ≤ buf.length := by
      rw [doGunzip, headerStart] at hstart
      split at hstart
      · split at hstart
        · cases hstart
          exact hreads
        · obtain ⟨st, hst, heq⟩ := Option.map_eq_some_iff.mp hstart
          cases heq
          rw [skipHeader] at hst
          obtain ⟨st3, h3, rfl⟩ := Option.map_eq_some_iff.mp hst
          obtain ⟨st2, h2, h3⟩ := Option.bind_eq_some_iff.mp h3
          obtain ⟨st1, h1, h2⟩ := Option.bind_eq_some_iff.mp h2
          have hle1 := (skipExtra_reads h1).1
          have hle2 := skipString_reads h2
          have hle3 := skipString_reads h3
          simp only at hreads
          omega
      · cases hstart
    refine ⟨h4, fun hmethod hreserved => ?_⟩
    rw [doGunzip_eq h4, if_neg (by rw [hmethod, hreserved]; simp)] at hstart
    obtain ⟨st, hst, heq⟩ := Option.map_eq_some_iff.mp hstart
    cases heq
    exact (partsInside_of_reads hst hreads).2
  · rintro ⟨h4, hparts⟩
    by_cases haccepted : buf.getD 2 0 = Z_DEFLATED ∧ buf.getD 3 0 &&& RESERVED = 0
    · have hinside : PartsInside buf := hparts haccepted.1 haccepted.2
      obtain ⟨reads, hreads, hskip⟩ := @skipHeader_inside buf beyond h4 hinside
      have hstart : doGunzip (buf ++ beyond) buf.length =
          some (if buf.length ≤ headerEnd buf then .abort else .inflate (headerEnd buf), reads) := by
        rw [doGunzip_eq h4, if_neg (by rw [haccepted.1, haccepted.2]; simp), hskip]
        rfl
      refine ⟨_, reads, hstart, ?_, hreads, hps3 hstart (by omega)⟩
      by_cases hend : buf.length ≤ headerEnd buf
      · rw [if_pos hend]
        intro i hi
        rw [headerIn_end hi]
        exact hend
      · rw [if_neg hend]
        exact ⟨headerIn_of_end haccepted.1 haccepted.2 hinside (by omega), by omega⟩
    · have hstart : doGunzip (buf ++ beyond) buf.length = some (.abort, 4) := by
        rw [doGunzip_eq h4, if_pos]
        by_contra hneither
        rw [not_or, not_not, not_not] at hneither
        exact haccepted hneither
      exact ⟨.abort, 4, hstart, fun i hi => absurd (headerIn_accepted hi) haccepted, h4,
        hps3 hstart (by omega)⟩

/-- Ten bytes of a header that announces a name, and a NUL behind the buffer: it is looked at. -/
theorem nameBehind_read : ¬ StartsRight [0x1f, 0x8b, 8, 8, 0, 0, 0, 0, 0, 3] [0] := by
  rintro ⟨r, reads, hstart, _, hreads, _⟩
  have h : doGunzip ([0x1f, 0x8b, 8, 8, 0, 0, 0, 0, 0, 3] ++ [0]) 10 = some (.abort, 11) := by
    decide
  have hreads' : reads = 11 := by
    have := h.symm.trans hstart
    cases this
    rfl
  rw [hreads'] at hreads
  exact absurd hreads (by decide)

end LiloBoot.ZImage
