/-
LiloBoot.Lib.Strtol — numbers in strings (`lib/strtol.c`, `%d` of `sprintf`).

This is the library's function of that name; what the loader runs under the
name is in `Lib.SimpleStrtol`. `strtol` returns the number and what `endptr`
points to, as the rest of the string. The prefix test of the source reads
`(a && b) || s[1] == 'x'`, so two characters are skipped before an `x` in
every base. Behind a lone sign the test would look past the NUL; no `x` is
taken to stand there.
-/
import LiloBoot.Basic

namespace LiloBoot

/-! ## Definitions -/

/-- The value of a letter or digit. -/
def digitOf (c : Char) : Option Nat :=
  if '0' ≤ c ∧ c ≤ '9' then some (c.toNat - '0'.toNat)
  else if 'A' ≤ c ∧ c ≤ 'Z' then some (c.toNat - 'A'.toNat + 10)
  else if 'a' ≤ c ∧ c ≤ 'z' then some (c.toNat - 'a'.toNat + 10)
  else none

/-- The loop over the digits: the number so far, whether it has overflowed, and the rest. -/
def strtolLoop (base : Nat) : CStr → Nat → Bool → Nat × Bool × CStr
  | [], i, overflow => (i, overflow, [])
  | c :: s, i, overflow =>
    match digitOf c with
    | none => (i, overflow, c :: s)
    | some d =>
      if base ≤ d then (i, overflow, c :: s)
      else if 0x7FFFFFFF / base < i ∨ (i = 0x7FFFFFFF / base ∧ 0x7FFFFFFF % base < d) then
        strtolLoop base s i true
      else strtolLoop base s (i * base + d) overflow

/-- The number that starts at `s`, behind the sign and the prefix of `nptr`. -/
def strtolNumber (base : Nat) (negative : Bool) (nptr s : CStr) : Int × CStr :=
  let (i, overflow, rest) := strtolLoop base s 0 false
  if rest.length = s.length then
    -- no digits: the rest of `0x` is the `x`, else there was no number
    let done := nptr.take (nptr.length - s.length)
    match done.reverse with
    | x :: '0' :: _ => (0, if tolower x = 'x' then x :: s else nptr)
    | _ => (0, nptr)
  else if overflow then (if negative then -(2 ^ 31) else 2 ^ 31 - 1, rest)
  else (if negative then -(i : Int) else i, rest)

/-- `strtol(nptr, &end, base)`. -/
def strtol (nptr : CStr) (base : Nat) : Int × CStr :=
  let base := if base = 1 ∨ 36 < base then 10 else base
  let s := nptr.dropWhile fun c => c.toNat ≤ 32
  if s = [] then (0, nptr)
  else
    let negative := s.head? == some '-'
    let s := if s.head? == some '-' || s.head? == some '+' then s.tail else s
    let s :=
      if (base == 16 && s.head? == some '0' && s[1]? == some 'X') || s[1]? == some 'x' then s.drop 2
      else s
    let hex := s.head? == some '0' && (s[1]? == some 'X' || s[1]? == some 'x')
    let (s, base) :=
      if base ≠ 0 then (s, base)
      else if hex then (s.drop 2, 16)
      else if s.head? == some '0' then (s, 8)
      else (s, 10)
    strtolNumber base negative nptr s

/-- `%u`. -/
def decimal (n : Nat) : CStr := Nat.toDigits 10 n

/-- `%d`. -/
def decimalInt (i : Int) : CStr :=
  if i < 0 then '-' :: decimal i.natAbs else decimal i.natAbs

/-! ## Reading back a decimal -/

theorem digitOf_isDigit {c : Char} (h : c.isDigit = true) :
    digitOf c = some (c.toNat - '0'.toNat) ∧ c.toNat - '0'.toNat < 10 := by
  simp only [Char.isDigit, ge_iff_le, Bool.and_eq_true, decide_eq_true_eq] at h
  have hle : '0' ≤ c ∧ c ≤ '9' := h
  have hnat : c.toNat ≤ 57 := h.2
  refine ⟨by rw [digitOf, if_pos hle], ?_⟩
  show c.toNat - 48 < 10
  omega

/-- A character that is not a digit has no value below 10. -/
theorem digitOf_not_isDigit {c : Char} (h : ¬ c.isDigit = true) :
    ∀ d, digitOf c = some d → 10 ≤ d := by
  intro d hd
  simp only [Char.isDigit, ge_iff_le, Bool.and_eq_true, decide_eq_true_eq] at h
  have hle : ¬ ('0' ≤ c ∧ c ≤ '9') := h
  rw [digitOf, if_neg hle] at hd
  split at hd
  · cases hd
    omega
  · split at hd
    · cases hd
      omega
    · cases hd

/-- The loop of base 10 stops before a character that is not a digit. -/
theorem strtolLoop_stop {s : CStr} (h : ∀ c ∈ s.head?, ¬ c.isDigit = true) (i : Nat)
    (overflow : Bool) : strtolLoop 10 s i overflow = (i, overflow, s) := by
  cases s with
  | nil => rfl
  | cons c s =>
    have hc := digitOf_not_isDigit (h c rfl)
    rw [strtolLoop]
    cases hd : digitOf c with
    | none => rfl
    | some d => exact if_pos (hc d hd)

theorem le_ofDigitChars (ds : CStr) : ∀ i, i ≤ Nat.ofDigitChars 10 ds i := by
  induction ds with
  | nil =>
    intro i
    rw [Nat.ofDigitChars_nil]
  | cons c ds ih =>
    intro i
    rw [Nat.ofDigitChars_cons]
    have := ih (10 * i + (c.toNat - '0'.toNat))
    omega

/-- Digits whose value fits into an `int` are read without overflow. -/
theorem strtolLoop_digits (rest : CStr) (ds : CStr) : ∀ i, (∀ c ∈ ds, c.isDigit = true) →
    Nat.ofDigitChars 10 ds i ≤ 0x7FFFFFFF →
    strtolLoop 10 (ds ++ rest) i false = strtolLoop 10 rest (Nat.ofDigitChars 10 ds i) false := by
  induction ds with
  | nil =>
    intro i _ _
    rw [Nat.ofDigitChars_nil]
    rfl
  | cons c ds ih =>
    intro i hds hle
    obtain ⟨hd, hlt⟩ := digitOf_isDigit (hds c List.mem_cons_self)
    rw [Nat.ofDigitChars_cons] at hle ⊢
    have hnext := Nat.le_trans (le_ofDigitChars ds _) hle
    rw [List.cons_append, strtolLoop, hd]
    simp only
    rw [if_neg (Nat.not_le.mpr hlt), if_neg (by omega), Nat.mul_comm i 10]
    exact ih _ (fun c hc => hds c (List.mem_cons_of_mem _ hc)) hle

theorem decimal_isDigit {n : Nat} {c : Char} (h : c ∈ decimal n) : c.isDigit = true :=
  Nat.isDigit_of_mem_toDigits (by decide) (by decide) h

theorem decimal_ne_nil (n : Nat) : decimal n ≠ [] := Nat.toDigits_ne_nil

theorem strtolLoop_length_le (base : Nat) (s : CStr) : ∀ i overflow,
    (strtolLoop base s i overflow).2.2.length ≤ s.length := by
  induction s with
  | nil =>
    intro i overflow
    exact Nat.le_refl 0
  | cons c s ih =>
    intro i overflow
    rw [strtolLoop]
    cases digitOf c with
    | none => exact Nat.le_refl _
    | some d =>
      simp only
      split
      · exact Nat.le_refl _
      · split
        · exact Nat.le_succ_of_le (ih _ _)
        · exact Nat.le_succ_of_le (ih _ _)

/-- When no character was taken, nothing has changed. -/
theorem strtolLoop_none {base : Nat} {s : CStr} {i : Nat} {overflow : Bool}
    (h : (strtolLoop base s i overflow).2.2.length = s.length) :
    strtolLoop base s i overflow = (i, overflow, s) := by
  cases s with
  | nil => rfl
  | cons c s =>
    rw [strtolLoop] at h ⊢
    cases hd : digitOf c with
    | none => rfl
    | some d =>
      simp only [hd] at h ⊢
      split
      · rfl
      · rename_i hbase
        rw [if_neg hbase] at h
        have hlt : ∀ j o, (strtolLoop base s j o).2.2.length ≠ (c :: s).length := fun j o heq =>
          absurd (strtolLoop_length_le base s j o) (by rw [heq, List.length_cons]; omega)
        split at h
        · exact absurd h (hlt _ _)
        · exact absurd h (hlt _ _)

/-- The loop of base 10 keeps the number within an `int`. -/
theorem strtolLoop_le (s : CStr) : ∀ i overflow, i ≤ 0x7FFFFFFF →
    (strtolLoop 10 s i overflow).1 ≤ 0x7FFFFFFF := by
  induction s with
  | nil =>
    intro i overflow h
    exact h
  | cons c s ih =>
    intro i overflow h
    rw [strtolLoop]
    cases digitOf c with
    | none => exact h
    | some d =>
      simp only
      split
      · exact h
      · split
        · exact ih _ _ h
        · exact ih _ _ (by omega)

/-- The value without the rest of the string. -/
theorem strtolNumber_fst (base : Nat) (negative : Bool) (nptr s : CStr) :
    (strtolNumber base negative nptr s).1 =
      let r := strtolLoop base s 0 false
      if r.2.1 then (if negative then -(2 ^ 31) else 2 ^ 31 - 1)
      else if negative then -(r.1 : Int) else r.1 := by
  simp only [strtolNumber]
  by_cases hlen : (strtolLoop base s 0 false).2.2.length = s.length
  · rw [if_pos hlen, strtolLoop_none hlen]
    split <;> cases negative <;> rfl
  · rw [if_neg hlen]
    split <;> rfl

theorem strtol_lt (s : CStr) : (strtol s 10).1 < 2 ^ 31 := by
  have hnumber : ∀ negative t, (strtolNumber 10 negative s t).1 < 2 ^ 31 := by
    intro negative t
    have hle := strtolLoop_le t 0 false (Nat.zero_le _)
    rw [strtolNumber_fst]
    simp only
    split
    · cases negative with
      | true => exact show (-(2 ^ 31) : Int) < 2 ^ 31 by decide
      | false => exact show (2 ^ 31 - 1 : Int) < 2 ^ 31 by decide
    · cases negative with
      | true =>
        simp only [if_true]
        omega
      | false =>
        simp only [Bool.false_eq_true, if_false]
        omega
  simp only [strtol]
  split
  · exact show (0 : Int) < 2 ^ 31 by decide
  · exact hnumber _ _

/-- What the prefix test of the source leaves in base 10. -/
def skipX (s : CStr) : CStr := if s[1]? = some 'x' then s.drop 2 else s

/-- The value `strtol` gives for a string without white space or a sign in front. -/
theorem strtol_ten {c : Char} {s : CStr} (hspace : 32 < c.toNat) (hminus : c ≠ '-')
    (hplus : c ≠ '+') :
    (strtol (c :: s) 10).1 =
      if (strtolLoop 10 (skipX (c :: s)) 0 false).2.1 then 2 ^ 31 - 1
      else ((strtolLoop 10 (skipX (c :: s)) 0 false).1 : Int) := by
  have hdrop : (c :: s).dropWhile (fun c => decide (c.toNat ≤ 32)) = c :: s := by
    rw [List.dropWhile_cons_of_neg (by simpa using hspace)]
  have hskip : (if ((10 : Nat) == 16 && (c :: s).head? == some '0' && (c :: s)[1]? == some 'X')
      || (c :: s)[1]? == some 'x' then (c :: s).drop 2 else c :: s) = skipX (c :: s) := by
    simp [skipX]
  have hneg : ((c :: s).head? == some '-') = false := by simp [hminus]
  have hpos : ((c :: s).head? == some '+') = false := by simp [hplus]
  have hne : c :: s ≠ [] := List.cons_ne_nil c s
  rw [strtol]
  simp only [show ¬ ((10 : Nat) = 1 ∨ 36 < 10) by decide, if_false, hdrop, hne, hneg, hpos,
    Bool.or_self, Bool.false_eq_true, hskip, show (10 : Nat) ≠ 0 by decide, ne_eq,
    not_false_eq_true, if_true]
  rw [strtolNumber_fst]
  rfl

/-- **`%d` is read back**: `strtol` finds the number that was printed before a comma. -/
theorem strtol_decimal {n : Nat} (h : n < 2 ^ 31) (s : CStr) :
    (strtol (decimal n ++ ',' :: s) 10).1 = n := by
  obtain ⟨c, ds, hds⟩ : ∃ c ds, decimal n = c :: ds :=
    List.exists_cons_of_ne_nil (decimal_ne_nil n)
  have hdigit : ∀ d ∈ c :: ds, d.isDigit = true := fun d hd =>
    decimal_isDigit (n := n) (by rw [hds]; exact hd)
  have hval : Nat.ofDigitChars 10 (c :: ds) 0 = n := by
    rw [← hds]
    exact Nat.ofDigitChars_ten_toDigits
  have hskip : skipX (c :: (ds ++ ',' :: s)) = c :: ds ++ ',' :: s := by
    have hsecond : (c :: (ds ++ ',' :: s))[1]? ≠ some 'x' := by
      cases ds with
      | nil => simp
      | cons d ds =>
        intro hx
        simp only [List.cons_append, List.getElem?_cons_succ, List.getElem?_cons_zero,
          Option.some.injEq] at hx
        have hd := hdigit d (by simp)
        rw [hx] at hd
        exact absurd hd (by decide)
    rw [skipX, if_neg hsecond]
    rfl
  have hc := hdigit c List.mem_cons_self
  have hspace : 32 < c.toNat := by
    simp only [Char.isDigit, ge_iff_le, Bool.and_eq_true, decide_eq_true_eq] at hc
    have hnat : 48 ≤ c.toNat := hc.1
    omega
  rw [hds, List.cons_append, strtol_ten hspace (fun hx => absurd (hx ▸ hc) (by decide))
    fun hx => absurd (hx ▸ hc) (by decide), hskip,
    strtolLoop_digits (',' :: s) (c :: ds) 0 hdigit (by omega), hval,
    strtolLoop_stop (by simp)]
  rfl

end LiloBoot
