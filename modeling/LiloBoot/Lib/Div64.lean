/-
LiloBoot.Lib.Div64 — the 64-bit division of the zImage (`common/div64.S`).

The routine is modelled instruction by instruction: a register is a natural below
`2 ^ 32`, the registers of the source keep their names. Its loop subtracts the
divisor times an estimate of the quotient until the upper word is used up; the loop
takes fuel and gives `none` when it runs out. `div64_32_eq`: for divisors below
`2 ^ 31` it gives quotient and remainder. `doDiv` is the macro around it.
-/
import LiloBoot.Basic

namespace LiloBoot

/-! ## §1 The instructions -/

/-- `cntlzw`: the zero bits above the highest one. -/
def cntlzw (x : Nat) : Nat := if x = 0 then 32 else 31 - x.log2

/-- `andc`: and with the complement. -/
def andc (x y : Nat) : Nat := x &&& (2 ^ 32 - (y + 1))

/-- `rotlw`. -/
def rotlw (x n : Nat) : Nat := u32 (x <<< n) ||| (x >>> (32 - n))

/-! ## §2 The routine -/

/-- From label 1 to label 2: the estimate in `r11`, never too large. -/
def quotientEstimate (r4 r5 r6 : Nat) : Nat :=
  if r5 &&& 0xc0000000 ≠ 0 then r5
  else
    let r0 := cntlzw r5
    let r10 := 0xFFFFFFFF >>> r0
    let r9 := u32 (r4 + r10)
    let r11 := andc r6 r10
    let r9 := andc r9 r10
    let r11 := r5 ||| r11
    rotlw r11 r0 / rotlw r9 r0

/-- Labels 1 and 2: `r6` and `r8` when the upper word `r5` is zero. -/
def div64Loop (r4 : Nat) : Nat → Nat → Nat → Nat → Option (Nat × Nat)
  | 0, _, _, _ => none
  | fuel + 1, r5, r6, r8 =>
    let r11 := quotientEstimate r4 r5 r6
    let r10 := u32 (r11 * r4)
    let r9 := r11 * r4 / 2 ^ 32
    let borrow := if r6 < r10 then 1 else 0
    let r6 := sub32 r6 r10
    let r8 := u32 (r8 + r11)
    let r5 := sub32 (sub32 r5 r9) borrow
    if r5 = 0 then some (r6, r8) else div64Loop r4 fuel r5 r6 r8

/-- Labels 3 and 4: quotient and remainder, `r7` the upper word of the quotient. -/
def div64Rest (r4 r6 r7 r8 : Nat) : Nat × Nat :=
  if r6 < r4 then (r7 * 2 ^ 32 + r8, r6)
  else (r7 * 2 ^ 32 + u32 (r8 + r6 / r4), sub32 r6 (u32 (r6 / r4 * r4)))

/-- `__div64_32(&n, base)`: the quotient left in `n` and the remainder. -/
def div64_32 (n r4 : Nat) : Option (Nat × Nat) :=
  let r5 := n / 2 ^ 32
  let r6 := u32 n
  if r5 < r4 then (div64Loop r4 n r5 r6 0).map fun r => div64Rest r4 r.1 0 r.2
  else
    let r7 := r5 / r4
    let r5 := sub32 r5 (u32 (r7 * r4))
    if r5 = 0 then some (div64Rest r4 r6 r7 0)
    else (div64Loop r4 n r5 r6 0).map fun r => div64Rest r4 r.1 r7 r.2

/-- `do_div(n, base)`: what is left in `n`, and the value. -/
def doDiv (n base : Nat) : Option (Nat × Nat) :=
  if n >>> 32 = 0 then some (u32 n / base, u32 n % base) else div64_32 n base

/-! ## §3 The estimate -/

variable {d r5 r6 k : Nat}

/-- The complement of `k` low ones clears `k` bits. -/
theorem andc_low {x : Nat} (hx : x < 2 ^ 32) (hk : k ≤ 32) :
    andc x (2 ^ k - 1) = x / 2 ^ k * 2 ^ k := by
  have hpos := Nat.two_pow_pos k
  have hlt : 2 ^ k - 1 < 2 ^ 32 := by
    have := Nat.pow_le_pow_right (show 0 < 2 by decide) hk
    omega
  apply Nat.eq_of_testBit_eq
  intro i
  rw [andc, Nat.testBit_and, Nat.testBit_two_pow_sub_succ hlt, Nat.testBit_two_pow_sub_one,
    ← Nat.shiftLeft_eq, Nat.testBit_shiftLeft, ← Nat.shiftRight_eq_div_pow, Nat.testBit_shiftRight]
  by_cases hi : k ≤ i
  · rw [Nat.add_sub_cancel' hi]
    by_cases h32 : i < 32
    · simp [hi, h32]
    · have : x.testBit i = false :=
        Nat.testBit_lt_two_pow (Nat.lt_of_lt_of_le hx (Nat.pow_le_pow_right (by decide) (by omega)))
      simp [this]
  · have : i < k := by omega
    simp [this]

/-- Rotating brings the low `k` bits to the top and the others down. -/
theorem rotlw_eq {a b : Nat} (hk : k ≤ 32) (ha : a < 2 ^ (32 - k)) (hb : b < 2 ^ k) :
    rotlw (a * 2 ^ k + b) (32 - k) = b * 2 ^ (32 - k) + a := by
  have hpow : 2 ^ k * 2 ^ (32 - k) = 2 ^ 32 := by
    rw [← Nat.pow_add, Nat.add_sub_cancel' hk]
  have hup : u32 ((a * 2 ^ k + b) <<< (32 - k)) = b <<< (32 - k) := by
    have hsplit : (a * 2 ^ k + b) * 2 ^ (32 - k) = b * 2 ^ (32 - k) + 2 ^ 32 * a := by
      rw [← hpow]
      ring
    have hlt : b * 2 ^ (32 - k) < 2 ^ 32 := by
      rw [← hpow]
      exact Nat.mul_lt_mul_of_pos_right hb (Nat.two_pow_pos _)
    rw [u32, Nat.shiftLeft_eq, Nat.shiftLeft_eq, hsplit, Nat.add_mul_mod_self_left,
      Nat.mod_eq_of_lt hlt]
  have hdown : (a * 2 ^ k + b) >>> (32 - (32 - k)) = a := by
    rw [Nat.sub_sub_self hk, Nat.shiftRight_eq_div_pow, Nat.mul_comm,
      Nat.mul_add_div (Nat.two_pow_pos k), Nat.div_eq_of_lt hb, Nat.add_zero]
  rw [rotlw, hup, hdown, shiftLeft_or_eq_add ha]

/-- With `k` bits in the upper word, the estimate divides the number without its `k` low bits by
the divisor without them, rounded up. -/
theorem quotientEstimate_eq (hr5 : 0 < r5) (hr5d : r5 < d) (hd : d < 2 ^ 31) (hr6 : r6 < 2 ^ 32)
    (hsmall : r5 &&& 0xc0000000 = 0) :
    ∃ k ≤ 31, 2 ^ k ≤ 2 * r5 ∧ r5 < 2 ^ k ∧ quotientEstimate d r5 r6 =
      (r5 * 2 ^ 32 + r6) / 2 ^ k / ((d + (2 ^ k - 1)) / 2 ^ k) := by
  have hne : r5 ≠ 0 := by omega
  have hlog : r5.log2 < 31 := (Nat.log2_lt hne).mpr (by omega)
  refine ⟨r5.log2 + 1, by omega, ?_, Nat.lt_log2_self, ?_⟩
  · have := Nat.log2_self_le hne
    rw [Nat.pow_succ]
    omega
  generalize hk : r5.log2 + 1 = k
  have hk31 : k ≤ 31 := by omega
  have hpos := Nat.two_pow_pos k
  have hle : 2 ^ k ≤ 2 ^ 31 := Nat.pow_le_pow_right (by decide) hk31
  have hr5k : r5 < 2 ^ k := by
    rw [← hk]
    exact Nat.lt_log2_self
  have hpow : 2 ^ k * 2 ^ (32 - k) = 2 ^ 32 := by
    rw [← Nat.pow_add, Nat.add_sub_cancel' (by omega)]
  have hr0 : cntlzw r5 = 32 - k := by
    rw [cntlzw, if_neg hne]
    omega
  have hr10 : 0xFFFFFFFF >>> (32 - k) = 2 ^ k - 1 := by
    rw [Nat.shiftRight_eq_div_pow, show 0xFFFFFFFF = 2 ^ k * 2 ^ (32 - k) - 1 by rw [hpow]; rfl]
    have hpos' := Nat.two_pow_pos (32 - k)
    rw [Nat.div_eq_iff hpos', Nat.sub_mul, Nat.one_mul]
    have : 2 ^ (32 - k) ≤ 2 ^ k * 2 ^ (32 - k) := Nat.le_mul_of_pos_left _ hpos
    omega
  have hsum : d + (2 ^ k - 1) < 2 ^ 32 := by omega
  have hr9 : rotlw (andc (u32 (d + (2 ^ k - 1))) (2 ^ k - 1)) (32 - k)
      = (d + (2 ^ k - 1)) / 2 ^ k := by
    have hlt : (d + (2 ^ k - 1)) / 2 ^ k < 2 ^ (32 - k) := by
      rw [Nat.div_lt_iff_lt_mul hpos, Nat.mul_comm, hpow]
      exact hsum
    have h := rotlw_eq (by omega) hlt hpos
    rw [Nat.add_zero, Nat.zero_mul, Nat.zero_add] at h
    rw [u32_of_lt hsum, andc_low hsum (by omega), h]
  have hr11 : rotlw (r5 ||| andc r6 (2 ^ k - 1)) (32 - k) = (r5 * 2 ^ 32 + r6) / 2 ^ k := by
    have hlt : r6 / 2 ^ k < 2 ^ (32 - k) := by
      rw [Nat.div_lt_iff_lt_mul hpos, Nat.mul_comm, hpow]
      exact hr6
    rw [andc_low hr6 (by omega), Nat.lor_comm, ← Nat.shiftLeft_eq, shiftLeft_or_eq_add hr5k,
      rotlw_eq (by omega) hlt hr5k, ← hpow, Nat.mul_left_comm r5, Nat.mul_add_div hpos]
  rw [quotientEstimate, if_neg (fun h => h hsmall)]
  simp only [hr0, hr10, hr9, hr11]

/-- The estimate is not zero and its product with the divisor is not more than the number. -/
theorem quotientEstimate_mul_le (hr5 : 0 < r5) (hr5d : r5 < d) (hd : d < 2 ^ 31)
    (hr6 : r6 < 2 ^ 32) :
    0 < quotientEstimate d r5 r6 ∧ quotientEstimate d r5 r6 * d ≤ r5 * 2 ^ 32 + r6 := by
  by_cases hsmall : r5 &&& 0xc0000000 = 0
  · obtain ⟨k, hk, hle, hr5k, heq⟩ := quotientEstimate_eq hr5 hr5d hd hr6 hsmall
    have hpos := Nat.two_pow_pos k
    rw [heq]
    generalize hm : (d + (2 ^ k - 1)) / 2 ^ k = m
    generalize hq : (r5 * 2 ^ 32 + r6) / 2 ^ k = q
    have hdm : d ≤ m * 2 ^ k := by
      have := Nat.lt_div_mul_add (a := d + (2 ^ k - 1)) hpos
      rw [hm] at this
      omega
    have hmd : m ≤ d := by
      rw [← hm]
      apply Nat.div_le_of_le_mul
      have : 2 ^ k * 1 + 1 * d ≤ 2 ^ k * d + 1 := by nlinarith
      omega
    have hqm : 2 ^ 31 ≤ q := by
      rw [← hq, Nat.le_div_iff_mul_le hpos]
      omega
    have hmpos : 0 < m := by
      rw [← hm]
      exact Nat.div_pos (by omega) hpos
    refine ⟨Nat.div_pos (by omega) hmpos, ?_⟩
    calc q / m * d ≤ q / m * (m * 2 ^ k) := Nat.mul_le_mul_left _ hdm
      _ = q / m * m * 2 ^ k := (Nat.mul_assoc _ _ _).symm
      _ ≤ q * 2 ^ k := Nat.mul_le_mul_right _ (Nat.div_mul_le_self q m)
      _ ≤ r5 * 2 ^ 32 + r6 := by
        rw [← hq]
        exact Nat.div_mul_le_self _ _
  · rw [quotientEstimate, if_pos hsmall]
    have : r5 * d ≤ r5 * 2 ^ 32 := Nat.mul_le_mul_left r5 (Nat.le_of_lt (by omega))
    exact ⟨hr5, Nat.le_add_right_of_le this⟩

/-! ## §4 The division -/

/-- The loop ends, and what it takes off is the divisor times what it adds to the quotient. -/
theorem div64Loop_spec (hd : d < 2 ^ 31) : ∀ fuel r5 r6 r8, 0 < r5 → r5 < d → r6 < 2 ^ 32 →
    r5 * 2 ^ 32 + r6 ≤ fuel → r8 * d + (r5 * 2 ^ 32 + r6) < d * 2 ^ 32 →
    ∃ r6' r8', div64Loop d fuel r5 r6 r8 = some (r6', r8') ∧ r6' < 2 ^ 32 ∧ r8' < 2 ^ 32
      ∧ r8' * d + r6' = r8 * d + (r5 * 2 ^ 32 + r6) := by
  intro fuel
  induction fuel with
  | zero =>
    intro r5 r6 r8 hr5 hr5d hr6 hfuel
    omega
  | succ fuel ih =>
    intro r5 r6 r8 hr5 hr5d hr6 hfuel hfits
    obtain ⟨hpos, hle⟩ := quotientEstimate_mul_le hr5 hr5d hd hr6
    rw [div64Loop]
    generalize quotientEstimate d r5 r6 = r11 at hpos hle
    generalize hp : r11 * d = p at hle ⊢
    have hp_pos : 0 < p := by
      rw [← hp]
      exact Nat.mul_pos hpos (by omega)
    -- the two-word subtraction
    have hlow : sub32 r6 (u32 p) = (r5 * 2 ^ 32 + r6 - p) % 2 ^ 32 := by
      simp only [sub32, u32]
      omega
    have hhigh : sub32 (sub32 r5 (p / 2 ^ 32)) (if r6 < u32 p then 1 else 0)
        = (r5 * 2 ^ 32 + r6 - p) / 2 ^ 32 := by
      by_cases hb : r6 < u32 p
      · rw [if_pos hb]
        simp only [sub32, u32] at hb ⊢
        omega
      · rw [if_neg hb]
        simp only [sub32, u32] at hb ⊢
        omega
    have hsum : (r8 + r11) * d + (r5 * 2 ^ 32 + r6 - p) = r8 * d + (r5 * 2 ^ 32 + r6) := by
      rw [Nat.add_mul, hp]
      omega
    have hr8 : r8 + r11 < 2 ^ 32 := by
      by_contra hbig
      have : 2 ^ 32 * d ≤ (r8 + r11) * d := Nat.mul_le_mul_right d (Nat.le_of_not_lt hbig)
      rw [Nat.mul_comm] at this
      omega
    simp only [hlow, hhigh, u32_of_lt hr8]
    by_cases hzero : (r5 * 2 ^ 32 + r6 - p) / 2 ^ 32 = 0
    · rw [if_pos hzero]
      refine ⟨_, _, rfl, Nat.mod_lt _ (by decide), hr8, ?_⟩
      omega
    · rw [if_neg hzero]
      have hrest : (r5 * 2 ^ 32 + r6 - p) / 2 ^ 32 * 2 ^ 32 + (r5 * 2 ^ 32 + r6 - p) % 2 ^ 32
          = r5 * 2 ^ 32 + r6 - p := by omega
      obtain ⟨r6', r8', h, h6, h8, heq⟩ := ih ((r5 * 2 ^ 32 + r6 - p) / 2 ^ 32)
        ((r5 * 2 ^ 32 + r6 - p) % 2 ^ 32) (r8 + r11) (by omega) (by omega)
        (Nat.mod_lt _ (by decide)) (by rw [hrest]; omega) (by rw [hrest, hsum]; exact hfits)
      exact ⟨r6', r8', h, h6, h8, by rw [heq, hrest, hsum]⟩

/-- The last 32-bit division leaves quotient and remainder. -/
theorem div64Rest_eq {r6 r7 r8 : Nat} (hd : 0 < d) (hr6 : r6 < 2 ^ 32)
    (hfits : r8 + r6 / d < 2 ^ 32) :
    div64Rest d r6 r7 r8 = (r7 * 2 ^ 32 + (r8 + r6 / d), r6 % d) := by
  rw [div64Rest]
  split
  · rename_i hlt
    rw [Nat.div_eq_of_lt hlt, Nat.mod_eq_of_lt hlt, Nat.add_zero]
  · have hle := Nat.div_mul_le_self r6 d
    have hmod := Nat.div_add_mod' r6 d
    rw [u32_of_lt hfits, u32_of_lt (by omega), sub32_of_le hle hr6]
    exact Prod.ext rfl (by simp only; omega)

/-- Quotient and remainder are known from a sum and a bound. -/
theorem div_mod_of_eq {n q r : Nat} (h : q * d + r = n) (hr : r < d) : n / d = q ∧ n % d = r := by
  subst h
  rw [Nat.mul_comm]
  exact ⟨by rw [Nat.mul_add_div (by omega), Nat.div_eq_of_lt hr, Nat.add_zero],
    by rw [Nat.mul_add_mod, Nat.mod_eq_of_lt hr]⟩

/-- From label 1 on: `r7` is the upper word of the quotient, `r5` and `r6` are left to divide. -/
theorem div64Loop_rest {r7 fuel : Nat} (hd : d < 2 ^ 31) (hr5 : 0 < r5) (hr5d : r5 < d)
    (hr6 : r6 < 2 ^ 32) (hfuel : r5 * 2 ^ 32 + r6 ≤ fuel) :
    (div64Loop d fuel r5 r6 0).map (fun r => div64Rest d r.1 r7 r.2) =
      some (r7 * 2 ^ 32 + (r5 * 2 ^ 32 + r6) / d, (r5 * 2 ^ 32 + r6) % d) := by
  have hfits : 0 * d + (r5 * 2 ^ 32 + r6) < d * 2 ^ 32 := by omega
  obtain ⟨r6', r8', h, h6, h8, heq⟩ := div64Loop_spec hd fuel r5 r6 0 hr5 hr5d hr6 hfuel hfits
  rw [Nat.zero_mul, Nat.zero_add] at heq
  have hdpos : 0 < d := by omega
  have hquot : r8' + r6' / d = (r5 * 2 ^ 32 + r6) / d := by
    rw [← heq, Nat.mul_comm, Nat.mul_add_div hdpos]
  have hrem : r6' % d = (r5 * 2 ^ 32 + r6) % d := by
    rw [← heq, Nat.mul_comm, Nat.mul_add_mod]
  have hlt : (r5 * 2 ^ 32 + r6) / d < 2 ^ 32 := by
    rw [Nat.div_lt_iff_lt_mul hdpos]
    omega
  rw [h, Option.map_some, div64Rest_eq hdpos h6 (by omega), hquot, hrem]

/-- **The division is right** for divisors below `2 ^ 31`. -/
theorem div64_32_eq {n : Nat} (hn : n < 2 ^ 64) (hhigh : 2 ^ 32 ≤ n) (hpos : 0 < d)
    (hd : d < 2 ^ 31) : div64_32 n d = some (n / d, n % d) := by
  have hsplit : n / 2 ^ 32 * 2 ^ 32 + u32 n = n := Nat.div_add_mod' n _
  have hlow : u32 n < 2 ^ 32 := u32_lt n
  rw [div64_32]
  simp only
  generalize n / 2 ^ 32 = high at *
  generalize u32 n = low at *
  split
  · rename_i hlt
    have h := @div64Loop_rest d high low 0 n hd (by omega) hlt hlow (Nat.le_of_eq hsplit)
    rwa [hsplit, Nat.zero_mul, Nat.zero_add] at h
  · rename_i hge
    have hhigh32 : high < 2 ^ 32 := by omega
    have hmul := Nat.div_mul_le_self high d
    have hmod := Nat.div_add_mod' high d
    have hmodlt := Nat.mod_lt high hpos
    have hr5 : sub32 high (u32 (high / d * d)) = high % d := by
      rw [u32_of_lt (Nat.lt_of_le_of_lt hmul hhigh32), sub32_of_le hmul hhigh32]
      omega
    -- the upper word of the quotient is taken off first
    have hn' : n = d * (high / d * 2 ^ 32) + (high % d * 2 ^ 32 + low) := by
      rw [← hsplit]
      calc high * 2 ^ 32 + low = (high / d * d + high % d) * 2 ^ 32 + low := by rw [hmod]
        _ = d * (high / d * 2 ^ 32) + (high % d * 2 ^ 32 + low) := by ring
    have hquot : n / d = high / d * 2 ^ 32 + (high % d * 2 ^ 32 + low) / d := by
      rw [hn', Nat.mul_add_div hpos]
    have hrem : n % d = (high % d * 2 ^ 32 + low) % d := by
      rw [hn', Nat.mul_add_mod]
    rw [hr5, hquot, hrem]
    split
    · rename_i hzero
      rw [hzero, Nat.zero_mul, Nat.zero_add, div64Rest_eq hpos hlow]
      · rw [Nat.zero_add]
      · have := Nat.div_le_self low d
        omega
    · exact div64Loop_rest hd (by omega) hmodlt hlow (by omega)

/-- What `div64.h` documents of `do_div`. -/
theorem doDiv_eq {n : Nat} (hn : n < 2 ^ 64) (hpos : 0 < d) (hd : d < 2 ^ 31) :
    doDiv n d = some (n / d, n % d) := by
  rw [doDiv, Nat.shiftRight_eq_div_pow]
  split
  · rw [u32_of_lt (by omega)]
  · exact div64_32_eq hn (by omega) hpos hd

end LiloBoot
