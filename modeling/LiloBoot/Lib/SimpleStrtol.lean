/-
LiloBoot.Lib.SimpleStrtol — the numbers the loader reads (`lib/vsprintf.c`).

`include/stdlib.h` makes `strtol` a macro for `simple_strtol`, so this is what
runs wherever the loader calls `strtol`; `lib/strtol.c` is linked and never
called. There is no white space to skip, no plus sign and no clamp: the number
is an `unsigned long` that wraps, and a minus sign negates it. What `endp`
points to is the rest of the string.
-/
import LiloBoot.Lib.Strtol

namespace LiloBoot

/-! ## §1 Definitions -/

/-- The value of a hexadecimal digit; `none` where `isxdigit` fails. -/
def xdigitOf (c : Char) : Option Nat :=
  if '0' ≤ c ∧ c ≤ '9' then some (c.toNat - '0'.toNat)
  else if 'A' ≤ c ∧ c ≤ 'F' then some (c.toNat - 'A'.toNat + 10)
  else if 'a' ≤ c ∧ c ≤ 'f' then some (c.toNat - 'a'.toNat + 10)
  else none

/-- The loop of `simple_strtoul` over the digits. -/
def simpleStrtoulLoop (base : Nat) : CStr → Nat → Nat × CStr
  | [], result => (result, [])
  | c :: cp, result =>
    match xdigitOf c with
    | none => (result, c :: cp)
    | some value =>
      if value < base then simpleStrtoulLoop base cp (u32 (result * base + value))
      else (result, c :: cp)

/-- `simple_strtoul(cp, &end, base)`. -/
def simpleStrtoul (cp : CStr) (base : Nat) : Nat × CStr :=
  if base ≠ 0 then simpleStrtoulLoop base cp 0
  else if cp.head? = some '0' then
    if cp[1]? = some 'x' ∧ (cp[2]?.bind xdigitOf).isSome then simpleStrtoulLoop 16 (cp.drop 2) 0
    else simpleStrtoulLoop 8 (cp.drop 1) 0
  else simpleStrtoulLoop 10 cp 0

/-- `simple_strtol(cp, &end, base)`. -/
def simpleStrtol (cp : CStr) (base : Nat) : Int × CStr :=
  match cp with
  | '-' :: cp =>
    let (n, rest) := simpleStrtoul cp base
    (s32 (sub32 0 n), rest)
  | cp =>
    let (n, rest) := simpleStrtoul cp base
    (s32 n, rest)

/-! ## §2 Decimal numbers -/

/-- The number that the digits in front of `s` stand for. -/
def leadingNumber (s : CStr) : Nat := Nat.ofDigitChars 10 (s.takeWhile (·.isDigit)) 0

theorem xdigitOf_isDigit {c : Char} (h : c.isDigit = true) :
    xdigitOf c = some (c.toNat - '0'.toNat) ∧ c.toNat - '0'.toNat < 10 := by
  obtain ⟨hdigit, hlt⟩ := digitOf_isDigit h
  simp only [Char.isDigit, ge_iff_le, Bool.and_eq_true, decide_eq_true_eq] at h
  have hle : '0' ≤ c ∧ c ≤ '9' := h
  exact ⟨if_pos hle, hlt⟩

/-- A character that is not a digit has no value below 10. -/
theorem xdigitOf_not_isDigit {c : Char} (h : ¬ c.isDigit = true) :
    ∀ d, xdigitOf c = some d → 10 ≤ d := by
  intro d hd
  simp only [Char.isDigit, ge_iff_le, Bool.and_eq_true, decide_eq_true_eq] at h
  have hle : ¬ ('0' ≤ c ∧ c ≤ '9') := h
  rw [xdigitOf, if_neg hle] at hd
  split at hd
  · cases hd
    omega
  · split at hd
    · cases hd
      omega
    · cases hd

theorem u32_digit (n d : Nat) : u32 (u32 n * 10 + d) = u32 (10 * n + d) := by
  simp only [u32]
  omega

/-- The loop of base 10 reads the digits in front, modulo `2 ^ 32`, and stops behind them. -/
theorem simpleStrtoulLoop_ten (s : CStr) : ∀ n, simpleStrtoulLoop 10 s (u32 n) =
    (u32 (Nat.ofDigitChars 10 (s.takeWhile (·.isDigit)) n), s.dropWhile (·.isDigit)) := by
  induction s with
  | nil =>
    intro n
    simp [simpleStrtoulLoop]
  | cons c s ih =>
    intro n
    by_cases hc : c.isDigit = true
    · obtain ⟨hvalue, hlt⟩ := xdigitOf_isDigit hc
      have hstep : simpleStrtoulLoop 10 (c :: s) (u32 n)
          = simpleStrtoulLoop 10 s (u32 (10 * n + (c.toNat - '0'.toNat))) := by
        rw [simpleStrtoulLoop, hvalue]
        simp only [if_pos hlt, u32_digit]
      rw [hstep, ih, List.takeWhile_cons_of_pos hc, List.dropWhile_cons_of_pos hc,
        Nat.ofDigitChars_cons]
    · have hvalue := xdigitOf_not_isDigit hc
      have hstop : simpleStrtoulLoop 10 (c :: s) (u32 n) = (u32 n, c :: s) := by
        rw [simpleStrtoulLoop]
        cases hd : xdigitOf c with
        | none => rfl
        | some d => exact if_neg (Nat.not_lt.mpr (hvalue d hd))
      rw [hstop, List.takeWhile_cons_of_neg hc, List.dropWhile_cons_of_neg hc,
        Nat.ofDigitChars_nil]

/-- **`strtol(s, &end, 10)`** without a minus sign. -/
theorem simpleStrtol_plain {s : CStr} (h : s.head? ≠ some '-') :
    simpleStrtol s 10 = (s32 (leadingNumber s), s.dropWhile (·.isDigit)) := by
  have hloop : simpleStrtoul s 10 = (u32 (leadingNumber s), s.dropWhile (·.isDigit)) :=
    simpleStrtoulLoop_ten s 0
  have hwrap : s32 (u32 (leadingNumber s)) = s32 (leadingNumber s) := by
    simp only [s32, u32, Nat.mod_mod]
  rw [simpleStrtol]
  · simp only [hloop, hwrap]
  · rintro cp rfl
    exact h rfl

/-- `strtol(s, &end, 10)` with a minus sign, which stands right before the digits. -/
theorem simpleStrtol_minus (s : CStr) :
    simpleStrtol ('-' :: s) 10
      = (s32 (sub32 0 (u32 (leadingNumber s))), s.dropWhile (·.isDigit)) := by
  have hloop : simpleStrtoul s 10 = (u32 (leadingNumber s), s.dropWhile (·.isDigit)) :=
    simpleStrtoulLoop_ten s 0
  rw [simpleStrtol]
  simp only [hloop]

/-- The value `strtol` gives is an `int`. -/
theorem simpleStrtol_range (s : CStr) (base : Nat) :
    -2 ^ 31 ≤ (simpleStrtol s base).1 ∧ (simpleStrtol s base).1 < 2 ^ 31 := by
  have hrange : ∀ n, -2 ^ 31 ≤ s32 n ∧ s32 n < 2 ^ 31 := by
    intro n
    simp only [s32]
    omega
  unfold simpleStrtol
  split
  · exact hrange _
  · exact hrange _

/-! ## §3 Reading back a decimal -/

/-- Digits and what is not one are told apart. -/
theorem leadingNumber_digits {ds s : CStr} (hds : ∀ c ∈ ds, c.isDigit = true)
    (hs : ∀ c ∈ s.head?, ¬ c.isDigit = true) :
    leadingNumber (ds ++ s) = Nat.ofDigitChars 10 ds 0 ∧ (ds ++ s).dropWhile (·.isDigit) = s := by
  have hstop : s.takeWhile (·.isDigit) = [] ∧ s.dropWhile (·.isDigit) = s := by
    cases s with
    | nil => exact ⟨rfl, rfl⟩
    | cons c s =>
      have hc := hs c rfl
      exact ⟨List.takeWhile_cons_of_neg hc, List.dropWhile_cons_of_neg hc⟩
  rw [leadingNumber, List.takeWhile_append_of_pos hds, hstop.1, List.append_nil,
    List.dropWhile_append_of_pos hds, hstop.2]
  exact ⟨rfl, rfl⟩

theorem leadingNumber_decimal (n : Nat) {s : CStr} (hs : ∀ c ∈ s.head?, ¬ c.isDigit = true) :
    leadingNumber (decimal n ++ s) = n ∧ (decimal n ++ s).dropWhile (·.isDigit) = s := by
  obtain ⟨hvalue, hrest⟩ := leadingNumber_digits (fun _ hc => decimal_isDigit (n := n) hc) hs
  exact ⟨hvalue.trans Nat.ofDigitChars_ten_toDigits, hrest⟩

/-- **`%u` is read back**: `strtol` finds the number that was printed, and stops behind it. -/
theorem simpleStrtol_decimal {n : Nat} (h : n < 2 ^ 31) {s : CStr}
    (hs : ∀ c ∈ s.head?, ¬ c.isDigit = true) : simpleStrtol (decimal n ++ s) 10 = ((n : Int), s) := by
  obtain ⟨hvalue, hrest⟩ := leadingNumber_decimal n hs
  have hminus : (decimal n ++ s).head? ≠ some '-' := by
    obtain ⟨c, ds, hds⟩ := List.exists_cons_of_ne_nil (decimal_ne_nil n)
    have hc : c.isDigit = true := decimal_isDigit (n := n) (by rw [hds]; exact List.mem_cons_self)
    rw [hds, List.cons_append, List.head?_cons]
    rintro heq
    cases heq
    exact absurd hc (by decide)
  rw [simpleStrtol_plain hminus, hvalue, hrest, s32_of_lt h]

end LiloBoot
