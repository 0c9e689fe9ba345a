/-
LiloBoot.Lib.StrtolTheorems — which decimals `strtol` reads.

§1 is `lib/strtol.c` once more, on the memory from the string on: a list that goes
on behind the NUL, so that every byte the function looks at is one it has to have.
§2 shows that this is `strtol` of `Lib.Strtol` unless the string is only a sign:
there the prefix test looks at the byte behind the NUL. §3 is the numeral that a
reader of the documentation expects. The prefix test lacks a pair of parentheses, so
an `x` in second place drops two characters in base 10 too; §4 says of which strings
that is seen (`strtol_decimal_iff`).
-/
import LiloBoot.Lib.Strtol

namespace LiloBoot

/-! ## §1 `strtol` on memory -/

/-- What a call leaves: the number, what `*endptr` points to, and the offset of the last byte
that was looked at. -/
structure StrtolResult where
  value : Int
  endptr : List Char
  last : Nat
  deriving DecidableEq, Repr

/-- Skip white space; `none` when memory ends first. -/
def skipWhite : List Char → Option (List Char)
  | [] => none
  | c :: s => if c.toNat ≤ 32 ∧ c ≠ '\x00' then skipWhite s else some (c :: s)

/-- The loop over the digits, `none` when memory ends first. -/
def strtolScan (base : Nat) : List Char → Nat → Bool → Option (Nat × Bool × List Char)
  | [], _, _ => none
  | c :: s, i, overflow =>
    if c = '\x00' then some (i, overflow, c :: s)
    else match digitOf c with
    | none => some (i, overflow, c :: s)
    | some d =>
      if base ≤ d then some (i, overflow, c :: s)
      else if 0x7FFFFFFF / base < i ∨ (i = 0x7FFFFFFF / base ∧ 0x7FFFFFFF % base < d) then
        strtolScan base s i true
      else strtolScan base s (i * base + d) overflow

/-- From `save = s` on; `last` is the last byte that was looked at before. -/
def strtolEnd (base : Nat) (negative : Bool) (nptr save : List Char) (last : Nat) :
    Option StrtolResult :=
  match strtolScan base save 0 false with
  | none => none
  | some (i, overflow, s) =>
    let last := max last (nptr.length - s.length)
    if s.length = save.length then
      match (nptr.take (nptr.length - save.length)).reverse with
      | x :: '0' :: _ => some ⟨0, if tolower x = 'x' then x :: save else nptr, last⟩
      | _ => some ⟨0, nptr, last⟩
    else if overflow then some ⟨if negative then -(2 ^ 31) else 2 ^ 31 - 1, s, last⟩
    else some ⟨if negative then -(i : Int) else i, s, last⟩

/-- `strtol(nptr, &end, base)` on the memory from `nptr` on. -/
def strtolAt (nptr : List Char) (base : Nat) : Option StrtolResult :=
  let base := if base = 1 ∨ 36 < base then 10 else base
  match skipWhite nptr with
  | none => none
  | some s =>
    if s.head? = some '\x00' then some ⟨0, nptr, nptr.length - s.length⟩
    else
      let negative := s.head? == some '-'
      let s := if s.head? == some '-' || s.head? == some '+' then s.tail else s
      -- `s[1] == 'x'` is evaluated in every base
      if s.length < 2 then none
      else
        let last := nptr.length - s.length + 1
        let s :=
          if (base == 16 && s.head? == some '0' && s[1]? == some 'X') || s[1]? == some 'x' then
            s.drop 2
          else s
        if base ≠ 0 then strtolEnd base negative nptr s last
        else if s.head? == some '0' then
          if s[1]? == some 'X' || s[1]? == some 'x' then
            strtolEnd 16 negative nptr (s.drop 2) (nptr.length - s.length + 1)
          else strtolEnd 8 negative nptr s (nptr.length - s.length + 1)
        else strtolEnd 10 negative nptr s last

/-! ## §2 The string alone -/

/-- A C string and what stands behind its NUL. -/
def inMemory (s : CStr) (beyond : List Char) : List Char := s ++ '\x00' :: beyond

/-- The string behind the white space. -/
def pastWhite (s : CStr) : CStr := s.dropWhile fun c => c.toNat ≤ 32

/-- Behind a sign. -/
def pastSign (s : CStr) : CStr :=
  if s.head? == some '-' || s.head? == some '+' then s.tail else s

variable {s : CStr} {beyond : List Char}

theorem skipWhite_inMemory (beyond : List Char) : ∀ {s : CStr}, '\x00' ∉ s →
    skipWhite (inMemory s beyond) = some (inMemory (pastWhite s) beyond)
  | [], _ => rfl
  | c :: s, h => by
    rw [List.mem_cons, not_or] at h
    obtain ⟨hc, hs⟩ := h
    show skipWhite (c :: inMemory s beyond) = _
    rw [skipWhite, pastWhite]
    by_cases hblank : c.toNat ≤ 32
    · rw [if_pos ⟨hblank, fun heq => hc heq.symm⟩, skipWhite_inMemory beyond hs,
        List.dropWhile_cons_of_pos (by simpa using hblank)]
      rfl
    · rw [if_neg fun h => hblank h.1, List.dropWhile_cons_of_neg (by simpa using hblank)]
      rfl

theorem strtolScan_inMemory (base : Nat) (beyond : List Char) : ∀ {s : CStr}, '\x00' ∉ s →
    ∀ i overflow, strtolScan base (inMemory s beyond) i overflow =
      some ((strtolLoop base s i overflow).1, (strtolLoop base s i overflow).2.1,
        inMemory (strtolLoop base s i overflow).2.2 beyond)
  | [], _, i, overflow => by
    show strtolScan base ('\x00' :: beyond) i overflow = _
    rw [strtolScan, if_pos rfl]
    rfl
  | c :: s, h, i, overflow => by
    rw [List.mem_cons, not_or] at h
    obtain ⟨hc, hs⟩ := h
    show strtolScan base (c :: inMemory s beyond) i overflow = _
    rw [strtolScan, strtolLoop, if_neg fun heq => hc heq.symm]
    cases digitOf c with
    | none => rfl
    | some d =>
      simp only
      split
      · rfl
      · split
        · exact strtolScan_inMemory base beyond hs i true
        · exact strtolScan_inMemory base beyond hs _ overflow

theorem inMemory_length (s : CStr) (beyond : List Char) :
    (inMemory s beyond).length = s.length + (beyond.length + 1) := by
  rw [inMemory, List.length_append, List.length_cons]

/-- Behind the prefix test the string alone matters. -/
theorem strtolEnd_inMemory {base : Nat} {negative : Bool} {nptr save : CStr} {last : Nat}
    (hnul : '\x00' ∉ save) :
    strtolEnd base negative (inMemory nptr beyond) (inMemory save beyond) last =
      some ⟨(strtolNumber base negative nptr save).1,
        inMemory (strtolNumber base negative nptr save).2 beyond,
        max last (nptr.length - (strtolLoop base save 0 false).2.2.length)⟩ := by
  have hsub (t : CStr) :
      (inMemory nptr beyond).length - (inMemory t beyond).length = nptr.length - t.length := by
    rw [inMemory_length, inMemory_length, Nat.add_sub_add_right]
  have htake : (inMemory nptr beyond).take (nptr.length - save.length)
      = nptr.take (nptr.length - save.length) :=
    List.take_append_of_le_length (Nat.sub_le _ _)
  have hsame (t : CStr) :
      (inMemory t beyond).length = (inMemory save beyond).length ↔ t.length = save.length := by
    rw [inMemory_length, inMemory_length, Nat.add_right_cancel_iff]
  rw [strtolEnd, strtolScan_inMemory base beyond hnul 0 false, strtolNumber]
  obtain ⟨i, overflow, rest⟩ := strtolLoop base save 0 false
  simp only [hsub, hsame, htake]
  generalize (nptr.take (nptr.length - save.length)).reverse = done
  by_cases hrest : rest.length = save.length
  · rw [if_pos hrest, if_pos hrest]
    split
    · split
      · rename_i hx
        simp only [hx, if_true]
        rfl
      · rename_i hx
        simp only [hx, if_false]
    · rename_i hdone
      -- the second match goes the same way as the first
      first
        | rfl
        | split
          · rename_i x tail
            exact absurd rfl (hdone x tail)
          · rfl
  · rw [if_neg hrest, if_neg hrest]
    split <;> rfl

/-- `strtol` in base 10, its steps named. -/
theorem strtol_ten_eq (s : CStr) : strtol s 10 =
    if pastWhite s = [] then (0, s)
    else strtolNumber 10 ((pastWhite s).head? == some '-') s (skipX (pastSign (pastWhite s))) := by
  have hskip (u : CStr) : (if ((10 : Nat) == 16 && u.head? == some '0' && u[1]? == some 'X')
      || u[1]? == some 'x' then u.drop 2 else u) = skipX u := by
    simp [skipX]
  rw [strtol]
  simp only [show ¬ ((10 : Nat) = 1 ∨ 36 < 10) by decide, if_false, ne_eq,
    show ¬ (10 : Nat) = 0 by decide, not_false_eq_true, if_true, hskip]
  rfl

theorem pastWhite_length_le (s : CStr) : (pastWhite s).length ≤ s.length :=
  (List.dropWhile_suffix _).length_le

theorem pastSign_suffix (s : CStr) : pastSign s <:+ s := by
  rw [pastSign]
  split
  · exact List.tail_suffix s
  · exact List.suffix_refl s

theorem skipX_suffix (s : CStr) : skipX s <:+ s := by
  rw [skipX]
  split
  · exact List.drop_suffix 2 s
  · exact List.suffix_refl s

/-- Two characters go where the second is an `x`, also in memory. -/
theorem skipX_inMemory {u : CStr} (hu : u ≠ []) :
    (if (inMemory u beyond)[1]? = some 'x' then (inMemory u beyond).drop 2
      else inMemory u beyond) = inMemory (skipX u) beyond := by
  rw [skipX]
  obtain _ | ⟨c, _ | ⟨d, u⟩⟩ := u
  · exact absurd rfl hu
  · rw [if_neg (show ¬ (inMemory [c] beyond)[1]? = some 'x' by simp [inMemory]),
      if_neg (show ¬ [c][1]? = some 'x' by simp)]
  · show (if some d = some 'x' then inMemory u beyond else inMemory (c :: d :: u) beyond) = _
    show _ = inMemory (if some d = some 'x' then u else c :: d :: u) beyond
    split <;> rfl

/-- **Unless it is only a sign**, what stands behind the string does not matter. -/
theorem strtolAt_inMemory (hnul : '\x00' ∉ s)
    (hsign : pastWhite s ≠ [] → pastSign (pastWhite s) ≠ []) :
    ∃ last ≤ s.length, strtolAt (inMemory s beyond) 10 =
      some ⟨(strtol s 10).1, inMemory (strtol s 10).2 beyond, last⟩ := by
  have hwhite : pastWhite s <:+ s := List.dropWhile_suffix _
  rw [strtolAt, strtol_ten_eq, skipWhite_inMemory beyond hnul]
  simp only [show ¬ ((10 : Nat) = 1 ∨ 36 < 10) by decide, if_false, ne_eq,
    show ¬ (10 : Nat) = 0 by decide, not_false_eq_true, if_true]
  by_cases hempty : pastWhite s = []
  · refine ⟨s.length, Nat.le_refl _, ?_⟩
    rw [hempty, if_pos rfl]
    rw [if_pos (show (inMemory [] beyond).head? = some '\x00' from rfl), inMemory_length,
      inMemory_length, Nat.add_sub_add_right]
    rfl
  · obtain ⟨c, t, ht⟩ := List.exists_cons_of_ne_nil hempty
    have hu := hsign hempty
    have hsuffix : pastSign (pastWhite s) <:+ s := (pastSign_suffix _).trans hwhite
    have hhead : (inMemory (pastWhite s) beyond).head? = (pastWhite s).head? := by rw [ht]; rfl
    have hc : c ≠ '\x00' := fun h =>
      hnul (hwhite.subset (by rw [ht, h]; exact List.mem_cons_self))
    have hmemSign : (if (pastWhite s).head? == some '-' || (pastWhite s).head? == some '+'
        then (inMemory (pastWhite s) beyond).tail else inMemory (pastWhite s) beyond)
        = inMemory (pastSign (pastWhite s)) beyond := by
      rw [pastSign, ht]
      split <;> rfl
    have hlast : (strtolLoop 10 (skipX (pastSign (pastWhite s))) 0 false).2.2.length
        ≤ s.length := Nat.le_trans (strtolLoop_length_le _ _ _ _)
      ((skipX_suffix _).trans hsuffix).length_le
    have hupos : 0 < (pastSign (pastWhite s)).length := List.length_pos_iff.mpr hu
    refine ⟨max (s.length - (pastSign (pastWhite s)).length + 1)
      (s.length - (strtolLoop 10 (skipX (pastSign (pastWhite s))) 0 false).2.2.length), ?_, ?_⟩
    · have := hsuffix.length_le
      omega
    · rw [if_neg hempty, hhead, if_neg (show ¬ (pastWhite s).head? = some '\x00' by
        rw [ht]; simpa using hc), hmemSign,
        if_neg (by rw [inMemory_length]; omega), inMemory_length, inMemory_length,
        Nat.add_sub_add_right]
      have hten : ((10 : Nat) == 16) = false := rfl
      simp only [hten, Bool.false_and, Bool.false_or, beq_iff_eq]
      rw [skipX_inMemory hu]
      exact strtolEnd_inMemory fun h => hnul (((skipX_suffix _).trans hsuffix).subset h)

/-- The end of the function looks no less far than its beginning did. -/
theorem strtolEnd_last {base : Nat} {negative : Bool} {nptr save : List Char} {last : Nat}
    {r : StrtolResult} (h : strtolEnd base negative nptr save last = some r) : last ≤ r.last := by
  rw [strtolEnd] at h
  cases hscan : strtolScan base save 0 false with
  | none =>
    rw [hscan] at h
    cases h
  | some found =>
    obtain ⟨i, overflow, rest⟩ := found
    rw [hscan] at h
    simp only at h
    have hmax : last ≤ max last (nptr.length - rest.length) := Nat.le_max_left _ _
    split at h
    · split at h <;> cases h <;> exact hmax
    · split at h <;> cases h <;> exact hmax

/-- **Only a sign**: the byte behind the NUL is looked at, if memory does not end there. -/
theorem strtolAt_sign (hnul : '\x00' ∉ s) (hwhite : pastWhite s ≠ [])
    (hsign : pastSign (pastWhite s) = []) {r : StrtolResult}
    (h : strtolAt (inMemory s beyond) 10 = some r) : s.length < r.last := by
  obtain ⟨c, t, ht⟩ := List.exists_cons_of_ne_nil hwhite
  have hsuffix : pastWhite s <:+ s := List.dropWhile_suffix _
  have hc : c ≠ '\x00' := fun h =>
    hnul (hsuffix.subset (by rw [ht, h]; exact List.mem_cons_self))
  rw [ht, pastSign] at hsign
  have hsigned : (c == '-' || c == '+') = true ∧ t = [] := by
    by_cases hs : ((c :: t).head? == some '-' || (c :: t).head? == some '+') = true
    · rw [if_pos hs] at hsign
      exact ⟨by simpa using hs, hsign⟩
    · rw [if_neg hs] at hsign
      cases hsign
  obtain ⟨hs, rfl⟩ := hsigned
  have hmem : inMemory [c] beyond = c :: '\x00' :: beyond := rfl
  have htail : (if (inMemory [c] beyond).head? == some '-' || (inMemory [c] beyond).head? == some '+'
      then (inMemory [c] beyond).tail else inMemory [c] beyond) = '\x00' :: beyond := by
    rw [hmem, if_pos (by simpa using hs)]
    rfl
  rw [strtolAt, skipWhite_inMemory beyond hnul, ht] at h
  simp only [show ¬ ((10 : Nat) = 1 ∨ 36 < 10) by decide, if_false, ne_eq,
    show ¬ (10 : Nat) = 0 by decide, not_false_eq_true, if_true, htail] at h
  rw [if_neg (by rw [hmem]; simpa using hc)] at h
  split at h
  · cases h
  · have hlast := strtolEnd_last h
    rw [inMemory_length, List.length_cons] at hlast
    omega

/-! ## §3 The decimal numeral -/

/-- The nearest number that an `int` holds. -/
def clampInt (n : Int) : Int := max (-(2 ^ 31)) (min n (2 ^ 31 - 1))

/-- The longest decimal numeral behind the white space, a sign in front allowed: its value and
what follows it. -/
def decimalNumeral (s : CStr) : Option (Int × CStr) :=
  let u := pastSign (pastWhite s)
  let value := Nat.ofDigitChars 10 (u.takeWhile (·.isDigit)) 0
  if u.takeWhile (·.isDigit) = [] then none
  else some (if (pastWhite s).head? == some '-' then -(value : Int) else value,
    u.dropWhile (·.isDigit))

/-- What is expected of `strtol(s, &end, 10)`: the clamped number and the rest behind the
numeral, or 0 and all of the string. -/
def decimalRead (s : CStr) : Int × CStr :=
  match decimalNumeral s with
  | some (value, rest) => (clampInt value, rest)
  | none => (0, s)

/-- The call does what is expected of it, and looks at no byte behind the NUL. -/
def ReadsDecimal (s : CStr) (beyond : List Char) : Prop :=
  ∃ last ≤ s.length, strtolAt (inMemory s beyond) 10 =
    some ⟨(decimalRead s).1, inMemory (decimalRead s).2 beyond, last⟩

/-- The loop computes the value until it overflows, and then says so. -/
theorem strtolLoop_value {rest : CStr} (hrest : ∀ c ∈ rest.head?, ¬ c.isDigit = true) (ds : CStr) :
    ∀ i overflow, (∀ c ∈ ds, c.isDigit = true) → i ≤ 0x7FFFFFFF →
      (strtolLoop 10 (ds ++ rest) i overflow).2.2 = rest
      ∧ ((strtolLoop 10 (ds ++ rest) i overflow).2.1 = true
          ↔ overflow = true ∨ 0x7FFFFFFF < Nat.ofDigitChars 10 ds i)
      ∧ ((strtolLoop 10 (ds ++ rest) i overflow).2.1 = false →
          (strtolLoop 10 (ds ++ rest) i overflow).1 = Nat.ofDigitChars 10 ds i) := by
  induction ds with
  | nil =>
    intro i overflow _ hi
    rw [List.nil_append, strtolLoop_stop hrest, Nat.ofDigitChars_nil]
    refine ⟨rfl, ⟨Or.inl, fun h => h.resolve_right (by omega)⟩, fun _ => rfl⟩
  | cons c ds ih =>
    intro i overflow hds hi
    obtain ⟨hd, hlt⟩ := digitOf_isDigit (hds c List.mem_cons_self)
    have hds' : ∀ c ∈ ds, c.isDigit = true := fun c hc => hds c (List.mem_cons_of_mem _ hc)
    have hge := le_ofDigitChars ds (10 * i + (c.toNat - '0'.toNat))
    rw [Nat.ofDigitChars_cons, List.cons_append, strtolLoop, hd]
    simp only
    rw [if_neg (Nat.not_le.mpr hlt)]
    by_cases hover : 0x7FFFFFFF / 10 < i ∨
        (i = 0x7FFFFFFF / 10 ∧ 0x7FFFFFFF % 10 < c.toNat - '0'.toNat)
    · rw [if_pos hover]
      obtain ⟨h1, h2, _⟩ := ih i true hds' hi
      have htrue : (strtolLoop 10 (ds ++ rest) i true).2.1 = true := h2.mpr (Or.inl rfl)
      refine ⟨h1, ⟨fun _ => Or.inr (by omega), fun _ => htrue⟩, fun h => ?_⟩
      rw [htrue] at h
      cases h
    · rw [if_neg hover, Nat.mul_comm i 10]
      exact ih _ overflow hds' (by omega)

/-- Digits in front give the clamped number. -/
theorem strtolNumber_digits {negative : Bool} {nptr ds rest : CStr}
    (hds : ∀ c ∈ ds, c.isDigit = true) (hne : ds ≠ [])
    (hrest : ∀ c ∈ rest.head?, ¬ c.isDigit = true) :
    strtolNumber 10 negative nptr (ds ++ rest) =
      (clampInt (if negative then -(Nat.ofDigitChars 10 ds 0 : Int)
        else Nat.ofDigitChars 10 ds 0), rest) := by
  obtain ⟨h1, h2, h3⟩ := strtolLoop_value hrest ds 0 false hds (Nat.zero_le _)
  have hlen : (strtolLoop 10 (ds ++ rest) 0 false).2.2.length ≠ (ds ++ rest).length := by
    have := List.length_pos_iff.mpr hne
    rw [h1, List.length_append]
    omega
  simp only [strtolNumber]
  rw [if_neg hlen, h1]
  cases hover : (strtolLoop 10 (ds ++ rest) 0 false).2.1 with
  | true =>
    have hbig := (h2.mp hover).resolve_left (by decide)
    cases negative with
    | true =>
      simp only [if_true, clampInt, Prod.mk.injEq, and_true]
      omega
    | false =>
      simp only [if_true, Bool.false_eq_true, if_false, clampInt, Prod.mk.injEq, and_true]
      omega
  | false =>
    have hsmall : ¬ 0x7FFFFFFF < Nat.ofDigitChars 10 ds 0 := fun h => by
      rw [h2.mpr (Or.inr h)] at hover
      cases hover
    rw [h3 hover]
    cases negative with
    | true =>
      simp only [if_true, Bool.false_eq_true, if_false, clampInt, Prod.mk.injEq, and_true]
      omega
    | false =>
      simp only [Bool.false_eq_true, if_false, clampInt, Prod.mk.injEq, and_true]
      omega

/-! ## §4 The prefix test in base 10 -/

/-- White space and then only a sign. -/
def LoneSign (s : CStr) : Prop := pastWhite s ≠ [] ∧ pastSign (pastWhite s) = []

/-- The second character behind white space and sign is an `x`, and a digit follows it or a digit
other than 0 comes before it. -/
def DigitsAtX (s : CStr) : Prop :=
  (pastSign (pastWhite s))[1]? = some 'x' ∧
    ((∃ c ∈ (pastSign (pastWhite s))[2]?, c.isDigit = true)
      ∨ ∃ c ∈ (pastSign (pastWhite s)).head?, c.isDigit = true ∧ c ≠ '0')

/-- White space and sign hold no 0. -/
theorem eq_front_append (s : CStr) :
    ∃ front, s = front ++ pastSign (pastWhite s) ∧ '0' ∉ front := by
  have hwhite : '0' ∉ s.takeWhile fun c => c.toNat ≤ 32 := fun h =>
    absurd (List.mem_takeWhile_imp h) (by decide)
  have hs : s = s.takeWhile (fun c => c.toNat ≤ 32) ++ pastWhite s :=
    (List.takeWhile_append_dropWhile).symm
  rw [pastSign]
  split
  · rename_i hsign
    obtain ⟨c, t, ht⟩ : ∃ c t, pastWhite s = c :: t := by
      cases h : pastWhite s with
      | nil =>
        rw [h] at hsign
        simp at hsign
      | cons c t => exact ⟨c, t, rfl⟩
    rw [ht] at hs hsign ⊢
    refine ⟨s.takeWhile (fun c => c.toNat ≤ 32) ++ [c], by rw [List.append_assoc]; exact hs, ?_⟩
    rw [List.mem_append, List.mem_singleton]
    rintro (h | rfl)
    · exact hwhite h
    · exact absurd hsign (by simp)
  · exact ⟨_, hs, hwhite⟩

/-- No digit behind white space and sign: there was no number. -/
theorem strtolNumber_stop {negative : Bool} {front save : CStr}
    (hstop : ∀ c ∈ save.head?, ¬ c.isDigit = true) (hzero : '0' ∉ front) :
    strtolNumber 10 negative (front ++ save) save = (0, front ++ save) := by
  have htake : (front ++ save).take ((front ++ save).length - save.length) = front := by
    rw [List.length_append, Nat.add_sub_cancel, List.take_left]
  simp only [strtolNumber, strtolLoop_stop hstop, htake]
  rw [if_pos trivial]
  split
  · rename_i x tail hdone
    have hmem : '0' ∈ front.reverse := by
      rw [hdone]
      exact List.mem_cons_of_mem _ List.mem_cons_self
    exact absurd (List.mem_reverse.mp hmem) hzero
  · rfl

/-- No digit behind an `x` that was dropped: the number was the 0 before it, or there was none. -/
theorem strtolNumber_stop_x {negative : Bool} {front save : CStr} {c : Char}
    (hstop : ∀ c ∈ save.head?, ¬ c.isDigit = true) :
    strtolNumber 10 negative (front ++ c :: 'x' :: save) save =
      (0, if c = '0' then 'x' :: save else front ++ c :: 'x' :: save) := by
  have hnptr : front ++ c :: 'x' :: save = (front ++ [c, 'x']) ++ save := by simp
  have htake : (front ++ c :: 'x' :: save).take ((front ++ c :: 'x' :: save).length - save.length)
      = front ++ [c, 'x'] := by
    rw [hnptr, List.length_append, Nat.add_sub_cancel, List.take_left]
  simp only [strtolNumber, strtolLoop_stop hstop, htake, List.reverse_append, List.reverse_cons,
    List.reverse_nil, List.nil_append, List.cons_append]
  rw [if_pos trivial]
  split
  · rename_i x tail hdone
    simp only [List.cons.injEq] at hdone
    obtain ⟨rfl, rfl, _⟩ := hdone
    rw [if_pos (by decide), if_pos rfl]
  · rename_i hdone
    rw [if_neg fun h => hdone 'x' front.reverse (by rw [h])]

theorem dropWhile_stop (u : CStr) :
    ∀ c ∈ (u.dropWhile (·.isDigit)).head?, ¬ c.isDigit = true := by
  intro c hc
  have h := List.head?_dropWhile_not (fun c : Char => c.isDigit) u
  rw [Option.mem_def.mp hc] at h
  simpa using h

theorem takeWhile_digits (u : CStr) : ∀ c ∈ u.takeWhile (·.isDigit), c.isDigit = true :=
  fun _ hc => List.mem_takeWhile_imp hc

/-- Where no character is dropped, the number is read as expected. -/
theorem strtol_eq_decimalRead (hx : (pastSign (pastWhite s))[1]? ≠ some 'x') :
    strtol s 10 = decimalRead s := by
  obtain ⟨front, hfront, hzero⟩ := eq_front_append s
  rw [strtol_ten_eq, decimalRead, decimalNumeral, skipX, if_neg hx]
  generalize hu : pastSign (pastWhite s) = u at hfront
  by_cases hnone : u.takeWhile (·.isDigit) = []
  · have hdrop : u.dropWhile (·.isDigit) = u := by
      have h := List.takeWhile_append_dropWhile (p := fun c : Char => c.isDigit) (l := u)
      rwa [hnone, List.nil_append] at h
    have hstop := dropWhile_stop u
    rw [hdrop] at hstop
    rw [if_pos hnone]
    split
    · rfl
    · rw [hfront]
      exact strtolNumber_stop hstop hzero
  · rw [if_neg hnone]
    have hwhite : pastWhite s ≠ [] := fun h => hnone (by rw [← hu, h]; rfl)
    have hnum := @strtolNumber_digits ((pastWhite s).head? == some '-') s _ _
      (takeWhile_digits u) hnone (dropWhile_stop u)
    rw [List.takeWhile_append_dropWhile] at hnum
    rw [if_neg hwhite, hnum]

/-- Where two characters are dropped, it depends on the characters around the `x`. -/
theorem strtol_eq_decimalRead_x_iff {c : Char} {v : CStr}
    (hu : pastSign (pastWhite s) = c :: 'x' :: v) :
    strtol s 10 = decimalRead s ↔
      (∀ d ∈ v.head?, ¬ d.isDigit = true) ∧ (c.isDigit = true → c = '0') := by
  obtain ⟨front, hfront, hzero⟩ := eq_front_append s
  have hwhite : pastWhite s ≠ [] := fun h => by
    rw [h] at hu
    cases hu
  have hskip : skipX (c :: 'x' :: v) = v := rfl
  rw [hu] at hfront
  rw [strtol_ten_eq, if_neg hwhite, hu, hskip]
  obtain ⟨value, hread, hvalue⟩ : ∃ value, decimalRead s =
      (if c.isDigit = true then (value, 'x' :: v) else (0, s)) ∧ (c = '0' → value = 0) := by
    have hx : ('x' : Char).isDigit = false := by decide
    refine ⟨clampInt (if (pastWhite s).head? == some '-' then -((c.toNat - '0'.toNat : Nat) : Int)
      else ((c.toNat - '0'.toNat : Nat) : Int)), ?_, ?_⟩
    · rw [decimalRead, decimalNumeral, hu]
      by_cases hc : c.isDigit = true
      · simp [hc, hx, Nat.ofDigitChars_cons]
      · simp [hc]
    · rintro rfl
      split <;> decide
  have hlonger : s.length ≠ v.length + 1 := by
    rw [hfront, List.length_append, List.length_cons, List.length_cons]
    omega
  rw [hread]
  by_cases hv : ∀ d ∈ v.head?, ¬ d.isDigit = true
  · have hstop := @strtolNumber_stop_x ((pastWhite s).head? == some '-') front v c hv
    rw [← hfront] at hstop
    rw [hstop]
    by_cases hc : c.isDigit = true
    · rw [if_pos hc]
      by_cases hzero' : c = '0'
      · rw [if_pos hzero', hvalue hzero']
        exact ⟨fun _ => ⟨hv, fun _ => hzero'⟩, fun _ => rfl⟩
      · rw [if_neg hzero']
        refine ⟨fun h => ?_, fun h => absurd (h.2 hc) hzero'⟩
        exact absurd (congrArg List.length (congrArg Prod.snd h)) hlonger
    · rw [if_neg hc, if_neg fun h => hc (by rw [h]; decide)]
      exact ⟨fun _ => ⟨hv, fun h => absurd h hc⟩, fun _ => rfl⟩
  · refine ⟨fun h => absurd ?_ hv, fun h => absurd h.1 hv⟩
    -- the number behind the `x` is taken, so less is left than expected
    have hne : v.takeWhile (·.isDigit) ≠ [] := by
      intro hnil
      apply hv
      have h := List.takeWhile_append_dropWhile (p := fun c : Char => c.isDigit) (l := v)
      rw [hnil, List.nil_append] at h
      have hstop := dropWhile_stop v
      rwa [h] at hstop
    have hnum := @strtolNumber_digits ((pastWhite s).head? == some '-') s _ _
      (takeWhile_digits v) hne (dropWhile_stop v)
    rw [List.takeWhile_append_dropWhile] at hnum
    rw [hnum] at h
    have hdrop : (v.dropWhile (·.isDigit)).length ≤ v.length := (List.dropWhile_suffix _).length_le
    have hlen := congrArg List.length (congrArg Prod.snd h)
    by_cases hc : c.isDigit = true
    · rw [if_pos hc] at hlen
      simp only [List.length_cons] at hlen
      omega
    · rw [if_neg hc] at hlen
      simp only at hlen
      have : s.length = front.length + (v.length + 1 + 1) := by
        rw [hfront, List.length_append, List.length_cons, List.length_cons]
      omega

theorem inMemory_inj {t : CStr} : inMemory s beyond = inMemory t beyond ↔ s = t :=
  List.append_left_inj _

/-- **`strtol` in base 10** reads the numeral, in every memory, exactly of the strings that are
not a lone sign and have no digit behind an `x` in second place and none but 0 before it. -/
theorem readsDecimal_iff (s : { s : CStr // '\x00' ∉ s }) (beyond : List Char) :
    ReadsDecimal s.val beyond ↔ ¬ (LoneSign s.val ∨ DigitsAtX s.val) := by
  obtain ⟨s, hnul⟩ := s
  simp only
  by_cases hlone : LoneSign s
  · refine ⟨fun ⟨last, hlast, h⟩ => ?_, fun h => absurd (Or.inl hlone) h⟩
    exact absurd (strtolAt_sign hnul hlone.1 hlone.2 h) (Nat.not_lt.mpr hlast)
  · obtain ⟨last, hlast, hat⟩ := @strtolAt_inMemory s beyond hnul fun h h' =>
      hlone ⟨h, h'⟩
    have hreads : ReadsDecimal s beyond ↔ strtol s 10 = decimalRead s := by
      constructor
      · rintro ⟨last', _, h⟩
        rw [hat] at h
        simp only [Option.some.injEq, StrtolResult.mk.injEq] at h
        exact Prod.ext h.1 (inMemory_inj.mp h.2.1)
      · intro h
        rw [h] at hat
        exact ⟨last, hlast, hat⟩
    rw [hreads, or_iff_right_of_imp fun h => absurd h hlone]
    by_cases hx : (pastSign (pastWhite s))[1]? = some 'x'
    · obtain ⟨c, v, hu⟩ : ∃ c v, pastSign (pastWhite s) = c :: 'x' :: v := by
        match hu : pastSign (pastWhite s) with
        | [] =>
          rw [hu] at hx
          cases hx
        | [c] =>
          rw [hu] at hx
          cases hx
        | c :: d :: v =>
          rw [hu] at hx
          cases hx
          exact ⟨c, v, rfl⟩
      rw [strtol_eq_decimalRead_x_iff hu, DigitsAtX, hu]
      simp only [List.getElem?_cons_succ, List.getElem?_cons_zero, true_and, List.head?_cons,
        Option.mem_some_iff, exists_eq_left', not_or, not_exists, not_and]
      cases v with
      | nil => simp
      | cons d v => simp
    · exact ⟨fun _ h => hx h.1, fun _ => strtol_eq_decimalRead hx⟩

/-- The string `0x5`: the 5 behind the `x` is the result, for a numeral that ends before it. -/
theorem zeroX_misread : ¬ ReadsDecimal ['0', 'x', '5'] [] := by
  rintro ⟨last, hlast, h⟩
  have h' : (strtolAt (inMemory ['0', 'x', '5'] []) 10).map (·.value) = some 5 := by decide
  have hread : (decimalRead ['0', 'x', '5']).1 = 0 := by decide
  rw [h, hread] at h'
  exact absurd h' (by simp)

end LiloBoot
