/-
LiloBoot.Lib.NumberTheorems — when the two `number()` write the same.

§1 compares the digit loops: on a number that is not negative a signed and an
unsigned division give the same digits, on a negative one the signed division gives
an index before the table. §2 puts this into the shared text. What is divided is not
negative if the number is not, or if its sign was taken off, which leaves only the
lowest number negative (`numbersAgree_iff`).
-/
import LiloBoot.Lib.Number

namespace LiloBoot

/-! ## §1 The digit loops -/

variable {base : Nat}

/-- Enough room for a digit of base 2 is enough. -/
theorem digitLoop_nat (hbase : 2 ≤ base) : ∀ room n, n < 2 ^ room →
    ∃ indices, digitLoop (fun n : Nat => (((n % base : Nat) : Int), n / base)) room n = some indices
      ∧ (indices = [] ↔ n = 0) ∧ ∀ t ∈ indices, 0 ≤ t ∧ t < base := by
  intro room
  induction room with
  | zero =>
    intro n hn
    have hzero : n = 0 := by omega
    refine ⟨[], ?_, by simp [hzero], by simp⟩
    rw [digitLoop, if_pos hzero]
  | succ room ih =>
    intro n hn
    rw [digitLoop]
    by_cases hzero : n = 0
    · refine ⟨[], by rw [if_pos hzero], by simp [hzero], by simp⟩
    · have hdiv : n / base < 2 ^ room := by
        rw [Nat.div_lt_iff_lt_mul (by omega)]
        have : 2 ^ room * 2 ≤ 2 ^ room * base := Nat.mul_le_mul_left _ hbase
        rw [Nat.pow_succ] at hn
        omega
      obtain ⟨indices, hloop, _, hrange⟩ := ih (n / base) hdiv
      refine ⟨((n % base : Nat) : Int) :: indices, ?_, by simp [hzero], ?_⟩
      · rw [if_neg hzero]
        simp only [hloop, Option.map_some]
      · intro t ht
        rcases List.mem_cons.mp ht with rfl | ht
        · have := Nat.mod_lt n (show base > 0 by omega)
          omega
        · exact hrange t ht

/-- The signed division of a number that is not negative. -/
theorem digitLoop_signed (room n : Nat) :
    digitLoop (fun n : Int => (n.tmod base, n.tdiv base)) room (n : Int)
      = digitLoop (fun n : Nat => (((n % base : Nat) : Int), n / base)) room n := by
  induction room generalizing n with
  | zero =>
    rw [digitLoop, digitLoop]
    simp only [Nat.cast_eq_zero]
  | succ room ih =>
    rw [digitLoop, digitLoop]
    by_cases hzero : n = 0
    · rw [if_pos hzero, if_pos (by rw [hzero]; rfl)]
    · rw [if_neg hzero, if_neg (by exact_mod_cast hzero)]
      have htdiv : (n : Int).tdiv base = ((n / base : Nat) : Int) := rfl
      have htmod : (n : Int).tmod base = ((n % base : Nat) : Int) := rfl
      simp only [htdiv, htmod, ih]

/-- The signed division of a negative number finds an index before the table. -/
theorem digitLoop_neg (hbase : 2 ≤ base) : ∀ room {n : Int} {indices}, n < 0 →
    digitLoop (fun n : Int => (n.tmod base, n.tdiv base)) room n = some indices →
    ∃ t ∈ indices, t < 0 := by
  intro room
  induction room with
  | zero =>
    intro n indices hn h
    rw [digitLoop, if_neg (by omega)] at h
    cases h
  | succ room ih =>
    intro n indices hn h
    rw [digitLoop, if_neg (by omega), Option.map_eq_some_iff] at h
    obtain ⟨rest, hrest, rfl⟩ := h
    by_cases hmod : n.tmod base < 0
    · exact ⟨n.tmod base, List.mem_cons_self, hmod⟩
    · -- the lowest digit is 0, so what is left is still negative
      have hneg : n.tdiv base < 0 := by
        have hsplit := Int.tmod_add_mul_tdiv n base
        have hle : n.tmod base ≤ 0 := by
          have := Int.tmod_nonneg base (a := -n) (by omega)
          rw [Int.neg_tmod] at this
          omega
        have hzero : n.tmod base = 0 := by omega
        rw [hzero, zero_add] at hsplit
        by_contra hge
        have : 0 ≤ (base : Int) * n.tdiv base := mul_nonneg (by omega) (by omega)
        omega
      obtain ⟨t, ht, htneg⟩ := ih hneg hrest
      exact ⟨t, List.mem_cons_of_mem _ ht, htneg⟩

/-- `do_div` divides. -/
theorem digitLoop_doDiv (hbase : 0 < base) (hsmall : base < 2 ^ 31) (room : Nat) {n : Nat}
    (hn : n < 2 ^ 64) : digitLoop (doDivStep base) room n
      = digitLoop (fun n : Nat => (((n % base : Nat) : Int), n / base)) room n := by
  induction room generalizing n with
  | zero => rfl
  | succ room ih =>
    have hstep : doDivStep base n = (((n % base : Nat) : Int), n / base) := by
      rw [doDivStep, doDiv_eq hn hbase hsmall]
    rw [digitLoop, digitLoop, hstep, ih (Nat.lt_of_le_of_lt (Nat.div_le_self n base) hn)]

/-! ## §2 The two functions -/

/-- Both calls write, the same characters, and take digits of the base only. -/
def NumbersAgree (around zAround : Int → Char) (num : BitVec 64) (base size precision : Int)
    (type : Nat) : Prop :=
  ∃ w zw, number around num base size precision type = .written w
    ∧ zNumber zAround num base size precision type = .written zw ∧ w.str = zw.str
    ∧ ∀ t ∈ w.indices ++ zw.indices, 0 ≤ t ∧ t < base

theorem digitAt_inside (around zAround : Int → Char) (type : Nat) {t : Int} (h0 : 0 ≤ t)
    (h36 : t < 36) : digitAt around type t = digitAt zAround type t := by
  simp only [digitAt, if_pos (And.intro h0 h36)]

theorem numberWith_indices {around : Int → Char} {negative : Bool} {indices : Option (List Int)}
    {base size precision : Int} {type : Nat} {w : Written}
    (h : numberWith around negative indices base size precision type = .written w) :
    indices = some w.indices := by
  cases indices with
  | none => cases h
  | some indices =>
    cases h
    rfl

/-- Of the bytes around the table nothing is seen while the indices stay in it. -/
theorem numberWith_inside (around zAround : Int → Char) (negative : Bool) {indices : List Int}
    (base size precision : Int) (type : Nat) (h : ∀ t ∈ indices, 0 ≤ t ∧ t < 36) :
    numberWith around negative (some indices) base size precision type
      = numberWith zAround negative (some indices) base size precision type := by
  have hmap (type : Nat) : indices.map (digitAt around type) = indices.map (digitAt zAround type) :=
    List.map_congr_left fun t ht => digitAt_inside around zAround type (h t ht).1 (h t ht).2
  have hx (type : Nat) : digitAt around type 33 = digitAt zAround type 33 :=
    digitAt_inside around zAround type (by decide) (by decide)
  simp only [numberWith, hmap, hx]

/-- What is divided is negative only where no sign was asked for, or it could not be taken off. -/
theorem unsigned_nonneg_iff (num : BitVec 64) (type : Nat) :
    0 ≤ (unsigned num type).toInt ↔
      0 ≤ num.toInt ∨ (has type SIGN = true ∧ num ≠ BitVec.intMin 64) := by
  rw [unsigned, isNegative]
  by_cases hneg : num.toInt < 0
  · cases hsign : has type SIGN with
    | false =>
      simp only [Bool.false_and, Bool.false_eq_true, if_false, false_and, or_false]
    | true =>
      simp only [Bool.true_and, decide_eq_true_eq, hneg, if_true, true_and]
      by_cases hmin : num = BitVec.intMin 64
      · rw [hmin]
        decide
      · rw [BitVec.toInt_neg_of_ne_intMin hmin]
        exact ⟨fun _ => Or.inr hmin, fun _ => by omega⟩
  · have hfalse : (has type SIGN && decide (num.toInt < 0)) = false := by
      rw [decide_eq_false hneg, Bool.and_false]
    rw [hfalse]
    simp only [Bool.false_eq_true, if_false]
    exact ⟨Or.inl, fun _ => by omega⟩

/-- The two agree if and only if what is divided is not negative. -/
theorem numbersAgree_unsigned_iff (around zAround : Int → Char) (num : BitVec 64)
    (base : { base : Int // 2 ≤ base ∧ base ≤ 36 }) (size precision : Int) (type : Nat) :
    NumbersAgree around zAround num base.val size precision type ↔
      0 ≤ (unsigned num type).toInt := by
  obtain ⟨base, h2, h36⟩ := base
  obtain ⟨b, rfl⟩ : ∃ b : Nat, base = b := ⟨base.toNat, by omega⟩
  have hb2 : 2 ≤ b := by exact_mod_cast h2
  have hb36 : b ≤ 36 := by exact_mod_cast h36
  have hrefused : ¬ ((b : Int) < 2 ∨ 36 < (b : Int)) := by omega
  simp only [NumbersAgree, number, zNumber, if_neg hrefused, Int.toNat_natCast]
  generalize unsigned num type = u
  constructor
  · rintro ⟨w, zw, hw, _, _, hrange⟩
    by_contra hneg
    obtain ⟨t, ht, htneg⟩ := digitLoop_neg hb2 66 (by omega) (numberWith_indices hw)
    have := hrange t (List.mem_append_left _ ht)
    omega
  · intro hnonneg
    have hu : u.toInt = (u.toNat : Int) := by
      rw [BitVec.toInt_eq_toNat_cond] at hnonneg ⊢
      have := u.isLt
      split at hnonneg <;> omega
    obtain ⟨indices, hloop, _, hrange⟩ := digitLoop_nat hb2 66 u.toNat
      (Nat.lt_trans u.isLt (by decide))
    have hinside : ∀ t ∈ indices, 0 ≤ t ∧ t < 36 := fun t ht => by
      have := hrange t ht
      omega
    rw [hu, digitLoop_signed, digitLoop_doDiv (by omega) (by omega) 66 u.isLt, hloop,
      numberWith_inside around zAround _ b size precision type hinside]
    refine ⟨_, _, rfl, rfl, rfl, ?_⟩
    intro t ht
    exact hrange t ((List.mem_append.mp ht).elim id id)

/-- **The two functions agree** and use only digits of the base, in all bases, widths, precisions
and flags, exactly if the number is not negative or its sign is asked for and can be taken off. -/
theorem numbersAgree_iff (around zAround : Int → Char) (num : BitVec 64)
    (base : { base : Int // 2 ≤ base ∧ base ≤ 36 }) (size precision : Int) (type : Nat) :
    NumbersAgree around zAround num base.val size precision type ↔
      0 ≤ num.toInt ∨ (has type SIGN = true ∧ num ≠ BitVec.intMin 64) := by
  rw [numbersAgree_unsigned_iff, unsigned_nonneg_iff]

/-- The number with only the top bit set, in base 10 without flags: an index leaves the table. -/
theorem topBit_disagree :
    ¬ NumbersAgree (fun _ => '?') (fun _ => '?') (BitVec.intMin 64) 10 0 0 0 := by
  intro h
  have hnonneg := (numbersAgree_unsigned_iff _ _ _ ⟨10, by decide⟩ 0 0 0).mp h
  exact absurd hnonneg (by decide)

end LiloBoot
