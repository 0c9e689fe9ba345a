/-
LiloBoot.Lib.Cells — numbers in several cells, the highest one first.

`value` is `Nat.ofDigits` of the cells read from behind. The order is decided by the
first cell that differs (`value_cons_lt_iff`), the sum is that of paper and pencil
(`add`). The base is arbitrary.
-/
import Mathlib

namespace LiloBoot.Cells

/-! ## §1 Values -/

/-- The number in the cells. -/
def value (B : Nat) (cs : List Nat) : Nat := Nat.ofDigits B cs.reverse

/-- Every cell is below the base. -/
def Small (B : Nat) (cs : List Nat) : Prop := ∀ c ∈ cs, c < B

variable {B a b c i : Nat} {cs as bs : List Nat}

theorem value_nil : value B [] = 0 := rfl

theorem value_append (as bs : List Nat) :
    value B (as ++ bs) = value B as * B ^ bs.length + value B bs := by
  rw [value, List.reverse_append, Nat.ofDigits_append, List.length_reverse, Nat.add_comm,
    Nat.mul_comm]
  rfl

theorem value_cons (c : Nat) (cs : List Nat) : value B (c :: cs) = c * B ^ cs.length + value B cs := by
  have hsingle : value B [c] = c := Nat.ofDigits_singleton
  rw [← List.singleton_append, value_append, hsingle]

/-- Zeros in front do not count. -/
theorem value_zeros (k : Nat) (cs : List Nat) :
    value B (List.replicate k 0 ++ cs) = value B cs := by
  rw [value, List.reverse_append, List.reverse_replicate, Nat.ofDigits_append_replicate_zero]
  rfl

theorem Small.value_lt (h : Small B cs) (hB : 1 < B) : value B cs < B ^ cs.length := by
  have hlt := @Nat.ofDigits_lt_base_pow_length B cs.reverse hB fun c hc =>
    h c (List.mem_reverse.mp hc)
  rwa [List.length_reverse] at hlt

theorem small_cons : Small B (c :: cs) ↔ c < B ∧ Small B cs := List.forall_mem_cons

theorem small_append : Small B (as ++ bs) ↔ Small B as ∧ Small B bs := List.forall_mem_append

theorem small_zeros (hB : 0 < B) (k : Nat) : Small B (List.replicate k 0) := fun c hc => by
  rw [(List.mem_replicate.mp hc).2]
  exact hB

theorem Small.take (h : Small B cs) (k : Nat) : Small B (cs.take k) :=
  fun c hc => h c (List.mem_of_mem_take hc)

theorem Small.drop (h : Small B cs) (k : Nat) : Small B (cs.drop k) :=
  fun c hc => h c (List.mem_of_mem_drop hc)

/-! ## §2 Digits -/

/-- The cell in front of the others is a digit of the number. -/
theorem value_cons_div (hc : c < B) (h : Small B cs) (hB : 1 < B) :
    value B (c :: cs) / B ^ cs.length % B = c := by
  have hpos : 0 < B ^ cs.length := Nat.pow_pos (by omega)
  rw [value_cons, Nat.mul_comm, Nat.mul_add_div hpos, Nat.div_eq_of_lt (h.value_lt hB), Nat.add_zero,
    Nat.mod_eq_of_lt hc]

theorem value_cons_mod (c : Nat) (hi : i ≤ cs.length) :
    value B (c :: cs) % B ^ i = value B cs % B ^ i := by
  obtain ⟨k, hk⟩ := Nat.pow_dvd_pow B hi
  rw [value_cons, hk, ← Nat.mul_assoc, Nat.mul_comm c, Nat.mul_assoc, Nat.mul_add_mod]

/-- A digit of the cells behind. -/
theorem value_cons_digit (c : Nat) (hi : i < cs.length) :
    value B (c :: cs) / B ^ i % B = value B cs / B ^ i % B := by
  rw [← Nat.mod_mul_right_div_self, ← Nat.mod_mul_right_div_self, ← Nat.pow_succ, value_cons_mod c hi]

/-! ## §3 Order and sum -/

/-- **The order** of two numbers of as many cells. -/
theorem value_cons_lt_iff (has : Small B as) (hbs : Small B bs) (hlen : as.length = bs.length)
    (hB : 1 < B) : value B (a :: as) < value B (b :: bs) ↔
      a < b ∨ a = b ∧ value B as < value B bs := by
  have hva := has.value_lt hB
  have hvb := hbs.value_lt hB
  rw [value_cons, value_cons, hlen]
  rw [hlen] at hva
  rcases Nat.lt_trichotomy a b with hlt | rfl | hgt
  · have hmul : (a + 1) * B ^ bs.length ≤ b * B ^ bs.length := Nat.mul_le_mul_right _ hlt
    rw [Nat.add_mul, Nat.one_mul] at hmul
    exact ⟨fun _ => Or.inl hlt, fun _ => by omega⟩
  · constructor
    · exact fun h => Or.inr ⟨rfl, by omega⟩
    · rintro (h | ⟨-, h⟩)
      · exact absurd h (Nat.lt_irrefl _)
      · omega
  · have hmul : (b + 1) * B ^ bs.length ≤ a * B ^ bs.length := Nat.mul_le_mul_right _ hgt
    rw [Nat.add_mul, Nat.one_mul] at hmul
    constructor
    · intro h
      omega
    · rintro (h | ⟨h, -⟩) <;> omega

/-- The sum of the cells, and the carry. -/
def add (B : Nat) : List Nat → List Nat → List Nat × Nat
  | a :: as, b :: bs =>
    let low := add B as bs
    ((a + b + low.2) % B :: low.1, (a + b + low.2) / B)
  | _, _ => ([], 0)

theorem add_length : ∀ {as bs : List Nat}, as.length = bs.length →
    (add B as bs).1.length = as.length := by
  intro as
  induction as with
  | nil => exact fun _ => rfl
  | cons a as ih =>
    intro bs hlen
    cases bs with
    | nil => cases hlen
    | cons b bs => exact congrArg (· + 1) (ih (Nat.succ.inj hlen))

theorem add_small (hB : 0 < B) (as bs : List Nat) : Small B (add B as bs).1 := by
  induction as generalizing bs with
  | nil => exact fun c hc => by cases hc
  | cons a as ih =>
    cases bs with
    | nil => exact fun c hc => by cases hc
    | cons b bs => exact small_cons.mpr ⟨Nat.mod_lt _ hB, ih bs⟩

/-- **The sum** with its carry is that of the numbers. -/
theorem add_value : ∀ {as bs : List Nat}, as.length = bs.length →
    value B (add B as bs).1 + (add B as bs).2 * B ^ as.length = value B as + value B bs := by
  intro as
  induction as with
  | nil =>
    intro bs hlen
    rw [List.length_eq_zero_iff.mp hlen.symm]
    rfl
  | cons a as ih =>
    intro bs hlen
    cases bs with
    | nil => cases hlen
    | cons b bs =>
      have hlen := Nat.succ.inj hlen
      have hrest := ih hlen
      have hdiv := Nat.div_add_mod (a + b + (add B as bs).2) B
      rw [add]
      simp only
      rw [value_cons, value_cons, value_cons, add_length hlen, ← hlen, List.length_cons, Nat.pow_succ]
      generalize (add B as bs).2 = carry at hrest hdiv ⊢
      generalize (a + b + carry) / B = q at hdiv ⊢
      generalize (a + b + carry) % B = r at hdiv ⊢
      calc r * B ^ as.length + value B (add B as bs).1 + q * (B ^ as.length * B)
          = (B * q + r) * B ^ as.length + value B (add B as bs).1 := by ring
        _ = (a + b) * B ^ as.length + (value B (add B as bs).1 + carry * B ^ as.length) := by
          rw [hdiv]
          ring
        _ = a * B ^ as.length + value B as + (b * B ^ as.length + value B bs) := by
          rw [hrest]
          ring

/-- There is no carry exactly if the sum fits. -/
theorem add_carry_iff (hB : 1 < B) (hlen : as.length = bs.length) :
    (add B as bs).2 = 0 ↔ value B as + value B bs < B ^ as.length := by
  have hvalue := @add_value B as bs hlen
  have hlt := (add_small (by omega) as bs).value_lt hB
  rw [add_length hlen] at hlt
  rcases Nat.eq_zero_or_pos (add B as bs).2 with hzero | hpos
  · rw [hzero, Nat.zero_mul, Nat.add_zero] at hvalue
    exact ⟨fun _ => by omega, fun _ => hzero⟩
  · have hmul : 1 * B ^ as.length ≤ (add B as bs).2 * B ^ as.length := Nat.mul_le_mul_right _ hpos
    rw [Nat.one_mul] at hmul
    exact ⟨fun h => by omega, fun h => by omega⟩

end LiloBoot.Cells
