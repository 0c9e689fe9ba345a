/-
LiloBoot.DevTree.XlateTheorems — when a register is translated to its address.

The arithmetic of the source is compared with that of the numbers: `compare_reg`
forgets the carries of `range + size` and, where all cells equal the end, reads behind
the register (`compareReg_exact`); `sub_reg` loses a borrow that meets a full cell;
`find_range` takes the wrong number of cells. Past these the loop of `dt_xlate` is
`mapUp` (`xlateLoop_spec`).
-/
import LiloBoot.DevTree.Xlate

namespace LiloBoot.DevTree

open Cells

/-! ## §1 Comparing -/

variable {reg range rangesize sub : List Nat} {behind x : Nat}

theorem base_gt_one : 1 < 2 ^ 32 := by decide

theorem reachesRange_iff : ∀ {reg range : List Nat}, reg.length = range.length →
    Small (2 ^ 32) reg → Small (2 ^ 32) range →
    (reachesRange reg range = true ↔ value (2 ^ 32) range ≤ value (2 ^ 32) reg) := by
  intro reg
  induction reg with
  | nil =>
    intro range hlen _ _
    rw [List.length_eq_zero_iff.mp hlen.symm]
    exact ⟨fun _ => le_refl _, fun _ => rfl⟩
  | cons r reg ih =>
    intro range hlen hreg hrange
    cases range with
    | nil => cases hlen
    | cons a range =>
      have hlen := Nat.succ.inj hlen
      rw [small_cons] at hreg hrange
      have hrest := ih hlen hreg.2 hrange.2
      have horder := @value_cons_lt_iff (2 ^ 32) r a reg range hreg.2 hrange.2 hlen base_gt_one
      rw [reachesRange, ← Nat.not_lt, horder]
      rcases Nat.lt_trichotomy r a with hlt | rfl | hgt
      · rw [if_pos hlt]
        exact ⟨fun h => (by cases h), fun h => absurd (Or.inl hlt) h⟩
      · rw [if_neg (Nat.lt_irrefl r), if_neg (Nat.lt_irrefl r), hrest]
        refine ⟨fun h => ?_, fun h => ?_⟩
        · rintro (hlt | ⟨-, hlt⟩)
          · exact Nat.lt_irrefl r hlt
          · exact Nat.not_lt_of_le h hlt
        · exact Nat.le_of_not_lt fun hlt => h (Or.inr ⟨rfl, hlt⟩)
      · rw [if_neg (Nat.lt_asymm hgt), if_pos hgt]
        refine ⟨fun _ => ?_, fun _ => rfl⟩
        rintro (hlt | ⟨heq, -⟩) <;> omega

theorem stopCells_small (range rangesize : List Nat) :
    Small (2 ^ 32) (stopCells range rangesize) := by
  intro c hc
  rw [stopCells, List.mem_iff_getElem] at hc
  obtain ⟨i, hi, rfl⟩ := hc
  rw [List.getElem_zipWith]
  exact u32_lt _

theorem beforeEnd_iff : ∀ {reg range rangesize : List Nat} {stop : Nat},
    reg.length = range.length → rangesize.length = range.length → Small (2 ^ 32) reg →
    (beforeEnd behind reg range rangesize stop = true ↔
      value (2 ^ 32) reg < value (2 ^ 32) (stopCells range rangesize) ∨
        value (2 ^ 32) reg = value (2 ^ 32) (stopCells range rangesize) ∧
          behind ≠ (stopCells range rangesize).getLastD stop) := by
  intro reg
  induction reg with
  | nil =>
    intro range rangesize stop hlen hlen' _
    obtain rfl := List.length_eq_zero_iff.mp hlen.symm
    obtain rfl := List.length_eq_zero_iff.mp hlen'
    rw [beforeEnd]
    · simp [stopCells, value_nil]
    · exact fun _ _ _ _ _ _ h => by cases h
  | cons r reg ih =>
    intro range rangesize stop hlen hlen' hreg
    cases range with
    | nil => cases hlen
    | cons a range =>
      cases rangesize with
      | nil => cases hlen'
      | cons s rangesize =>
        have hlen := Nat.succ.inj hlen
        have hlen' := Nat.succ.inj hlen'
        rw [small_cons] at hreg
        have hstop : stopCells (a :: range) (s :: rangesize)
            = u32 (a + s) :: stopCells range rangesize := rfl
        have hsame : reg.length = (stopCells range rangesize).length := by
          rw [stopCells, List.length_zipWith]
          omega
        have hwords := stopCells_small range rangesize
        have hlast : (u32 (a + s) :: stopCells range rangesize).getLastD stop
            = (stopCells range rangesize).getLastD (u32 (a + s)) := List.getLastD_cons
        have hbelow := @value_cons_lt_iff (2 ^ 32) r (u32 (a + s)) reg
          (stopCells range rangesize) hreg.2 hwords hsame base_gt_one
        have habove := @value_cons_lt_iff (2 ^ 32) (u32 (a + s)) r (stopCells range rangesize) reg
          hwords hreg.2 hsame.symm base_gt_one
        rw [beforeEnd, hstop, hlast]
        rcases Nat.lt_trichotomy r (u32 (a + s)) with hlt | heq | hgt
        · rw [if_pos hlt]
          exact ⟨fun _ => Or.inl (hbelow.mpr (Or.inl hlt)),
            fun _ => decide_eq_true (Nat.ne_of_lt hlt)⟩
        · rw [if_neg (by omega), if_neg (by omega), ih hlen hlen' hreg.2, hbelow]
          rw [← heq, value_cons, value_cons, hsame]
          constructor
          · rintro (h | ⟨h, hne⟩)
            · exact Or.inl (Or.inr ⟨rfl, h⟩)
            · exact Or.inr ⟨by rw [show value (2 ^ 32) reg = value (2 ^ 32) _ from h], hne⟩
          · rintro ((h | ⟨-, h⟩) | ⟨h, hne⟩)
            · exact absurd h (Nat.lt_irrefl r)
            · exact Or.inl h
            · exact Or.inr ⟨Nat.add_left_cancel h, hne⟩
        · rw [if_neg (by omega), if_pos hgt]
          have hlt := habove.mpr (Or.inl hgt)
          refine ⟨fun h => (by cases h), fun h => ?_⟩
          rcases h with h | ⟨h, -⟩
          · exact absurd h (Nat.lt_asymm hlt)
          · exact absurd h (Nat.ne_of_gt hlt)

theorem stopCells_le : ∀ {range rangesize : List Nat}, rangesize.length = range.length →
    value (2 ^ 32) (stopCells range rangesize) ≤ value (2 ^ 32) range + value (2 ^ 32) rangesize := by
  intro range
  induction range with
  | nil => exact fun _ => Nat.zero_le _
  | cons a range ih =>
    intro rangesize hlen
    cases rangesize with
    | nil => cases hlen
    | cons s rangesize =>
      have hlen := Nat.succ.inj hlen
      have hstop : stopCells (a :: range) (s :: rangesize)
          = u32 (a + s) :: stopCells range rangesize := rfl
      have hlength : (stopCells range rangesize).length = range.length := by
        rw [stopCells, List.length_zipWith]
        omega
      have hcell : u32 (a + s) * (2 ^ 32) ^ range.length ≤ (a + s) * (2 ^ 32) ^ range.length :=
        Nat.mul_le_mul_right _ (Nat.mod_le _ _)
      have hrest := ih hlen
      rw [Nat.add_mul] at hcell
      rw [hstop, value_cons, value_cons, value_cons, hlength, hlen]
      omega

/-- **`compare_reg`** as a comparison of numbers. -/
theorem compareReg_iff (hlen : reg.length = range.length) (hlen' : rangesize.length = range.length)
    (hreg : Small (2 ^ 32) reg) (hrange : Small (2 ^ 32) range) :
    compareReg behind reg range rangesize = true ↔ value (2 ^ 32) range ≤ value (2 ^ 32) reg ∧
      (value (2 ^ 32) reg < value (2 ^ 32) (stopCells range rangesize) ∨
        value (2 ^ 32) reg = value (2 ^ 32) (stopCells range rangesize) ∧
          behind ≠ (stopCells range rangesize).getLastD 0) := by
  rw [compareReg, Bool.and_eq_true, reachesRange_iff hlen hreg hrange,
    beforeEnd_iff hlen hlen' hreg]

/-- **A range is matched by the addresses in it**, whatever stands behind the register, exactly
where the cells of the end decide as the end does. -/
theorem compareReg_exact (hlen : reg.length = range.length)
    (hlen' : rangesize.length = range.length) (hreg : Small (2 ^ 32) reg)
    (hrange : Small (2 ^ 32) range) :
    (∀ behind, compareReg behind reg range rangesize = true ↔
        value (2 ^ 32) range ≤ value (2 ^ 32) reg ∧
          value (2 ^ 32) reg < value (2 ^ 32) range + value (2 ^ 32) rangesize) ↔
      value (2 ^ 32) reg < value (2 ^ 32) range ∨
        value (2 ^ 32) reg < value (2 ^ 32) (stopCells range rangesize) ∨
        value (2 ^ 32) range + value (2 ^ 32) rangesize ≤ value (2 ^ 32) reg ∧
          value (2 ^ 32) reg ≠ value (2 ^ 32) (stopCells range rangesize) := by
  have hle := stopCells_le hlen'
  have hiff (behind : Nat) := @compareReg_iff reg range rangesize behind hlen hlen' hreg hrange
  generalize (stopCells range rangesize).getLastD 0 = last at hiff
  generalize value (2 ^ 32) (stopCells range rangesize) = stop at hle hiff ⊢
  generalize value (2 ^ 32) range = a at hle hiff ⊢
  generalize value (2 ^ 32) rangesize = size at hle hiff ⊢
  generalize value (2 ^ 32) reg = x at hiff ⊢
  constructor
  · intro h
    by_contra hnot
    rw [not_or, not_or, not_and, not_not] at hnot
    obtain ⟨hstart, hstop, heq⟩ := hnot
    by_cases hend : x = stop
    · -- all cells are equal: what stands behind decides
      have hno := (h last).mpr.mt
      have hyes := (h (last + 1)).mp ((hiff (last + 1)).mpr ⟨by omega, Or.inr ⟨hend, by omega⟩⟩)
      refine hno (fun hmatch => ?_) hyes
      rcases ((hiff last).mp hmatch).2 with hlt | ⟨-, hne⟩
      · exact hstop hlt
      · exact hne rfl
    · have hmatch := (h 0).mpr ⟨by omega, by omega⟩
      rcases ((hiff 0).mp hmatch).2 with hlt | ⟨heq', -⟩
      · exact hstop hlt
      · exact hend heq'
  · intro h behind
    rw [hiff behind]
    constructor
    · rintro ⟨hstart, hlt | ⟨heq, -⟩⟩
      · exact ⟨hstart, by omega⟩
      · omega
    · rintro ⟨hstart, hlt⟩
      exact ⟨hstart, Or.inl (by omega)⟩

/-! ## §2 Subtracting and adding -/

/-- No borrow meets a full cell. -/
def Borrows : List Nat → List Nat → Prop
  | _ :: reg, s :: sub =>
    (s = 2 ^ 32 - 1 → value (2 ^ 32) sub ≤ value (2 ^ 32) reg) ∧ Borrows reg sub
  | _, _ => True

theorem subReg_length : ∀ {reg sub : List Nat}, reg.length = sub.length →
    (subReg reg sub).1.length = reg.length := by
  intro reg
  induction reg with
  | nil => exact fun _ => rfl
  | cons r reg ih =>
    intro sub hlen
    cases sub with
    | nil => cases hlen
    | cons s sub => exact congrArg (· + 1) (ih (Nat.succ.inj hlen))

theorem subReg_small (reg sub : List Nat) : Small (2 ^ 32) (subReg reg sub).1 := by
  induction reg generalizing sub with
  | nil => exact fun c hc => by cases hc
  | cons r reg ih =>
    cases sub with
    | nil => exact fun c hc => by cases hc
    | cons s sub => exact small_cons.mpr ⟨u32_lt _, ih sub⟩

theorem sub32_add {r t : Nat} (hr : r < 2 ^ 32) (ht : t < 2 ^ 32) :
    sub32 r t + t = r + (if r < t then 1 else 0) * 2 ^ 32 := by
  rw [sub32, u32]
  split
  · rw [Nat.mod_eq_of_lt (by omega)]
    omega
  · rw [show r + (2 ^ 32 - t) = r - t + 2 ^ 32 by omega, Nat.add_mod_right,
      Nat.mod_eq_of_lt (by omega)]
    omega

/-- **`sub_reg`** subtracts the numbers where no borrow is lost. -/
theorem subReg_spec : ∀ {reg sub : List Nat}, reg.length = sub.length → Small (2 ^ 32) reg →
    Small (2 ^ 32) sub → Borrows reg sub →
    value (2 ^ 32) (subReg reg sub).1 + value (2 ^ 32) sub
        = value (2 ^ 32) reg + (subReg reg sub).2 * (2 ^ 32) ^ reg.length ∧
      (subReg reg sub).2 = if value (2 ^ 32) reg < value (2 ^ 32) sub then 1 else 0 := by
  intro reg
  induction reg with
  | nil =>
    intro sub hlen _ _ _
    obtain rfl := List.length_eq_zero_iff.mp hlen.symm
    exact ⟨rfl, rfl⟩
  | cons r reg ih =>
    intro sub hlen hreg hsub hborrows
    cases sub with
    | nil => cases hlen
    | cons s sub =>
      have hlen := Nat.succ.inj hlen
      obtain ⟨hr, hreg⟩ := small_cons.mp hreg
      obtain ⟨hs, hsub⟩ := small_cons.mp hsub
      obtain ⟨hfull, hborrows⟩ := hborrows
      obtain ⟨hvalue, hborrow⟩ := ih hlen hreg hsub hborrows
      have horder := @value_cons_lt_iff (2 ^ 32) r s reg sub hreg hsub hlen base_gt_one
      have hlow := @subReg_length reg sub hlen
      have hone : (subReg reg sub).2 ≤ 1 := by
        rw [hborrow]
        split <;> omega
      have ht : s + (subReg reg sub).2 < 2 ^ 32 := by
        by_cases hlt : value (2 ^ 32) reg < value (2 ^ 32) sub
        · have hne : s ≠ 2 ^ 32 - 1 := fun h => Nat.not_lt_of_le (hfull h) hlt
          omega
        · rw [hborrow, if_neg hlt]
          omega
      have hcell := sub32_add hr ht
      rw [subReg]
      simp only
      rw [u32_of_lt ht]
      constructor
      · rw [value_cons, value_cons, value_cons, hlow, ← hlen, List.length_cons, Nat.pow_succ]
        generalize (if r < s + (subReg reg sub).2 then 1 else 0) = d at hcell ⊢
        calc sub32 r (s + (subReg reg sub).2) * (2 ^ 32) ^ reg.length
              + value (2 ^ 32) (subReg reg sub).1
              + (s * (2 ^ 32) ^ reg.length + value (2 ^ 32) sub)
            = (sub32 r (s + (subReg reg sub).2) + s) * (2 ^ 32) ^ reg.length
              + (value (2 ^ 32) (subReg reg sub).1 + value (2 ^ 32) sub) := by ring
          _ = (sub32 r (s + (subReg reg sub).2) + (s + (subReg reg sub).2)) * (2 ^ 32) ^ reg.length
              + value (2 ^ 32) reg := by
            rw [hvalue]
            ring
          _ = r * (2 ^ 32) ^ reg.length + value (2 ^ 32) reg
              + d * ((2 ^ 32) ^ reg.length * 2 ^ 32) := by
            rw [hcell]
            ring
      · have hiff : r < s + (subReg reg sub).2
            ↔ value (2 ^ 32) (r :: reg) < value (2 ^ 32) (s :: sub) := by
          rw [horder, hborrow]
          split <;> omega
        rw [if_congr hiff rfl rfl]

/-- The borrows in terms of the digits of the numbers. -/
theorem borrows_of_digits : ∀ {reg sub : List Nat}, reg.length = sub.length →
    Small (2 ^ 32) reg → Small (2 ^ 32) sub →
    (∀ i, value (2 ^ 32) sub / (2 ^ 32) ^ i % 2 ^ 32 = 2 ^ 32 - 1 →
      value (2 ^ 32) sub % (2 ^ 32) ^ i ≤ value (2 ^ 32) reg % (2 ^ 32) ^ i) →
    Borrows reg sub := by
  intro reg
  induction reg with
  | nil => exact fun _ _ _ _ => trivial
  | cons r reg ih =>
    intro sub hlen hreg hsub h
    cases sub with
    | nil => cases hlen
    | cons s sub =>
      have hlen := Nat.succ.inj hlen
      obtain ⟨hr, hreg⟩ := small_cons.mp hreg
      obtain ⟨hs, hsub⟩ := small_cons.mp hsub
      refine ⟨fun hfull => ?_, ih hlen hreg hsub fun i hi => ?_⟩
      · have hat := h sub.length (by rw [value_cons_div hs hsub base_gt_one, hfull])
        rw [value_cons_mod s (le_refl _), value_cons_mod r (Nat.le_of_eq hlen.symm),
          Nat.mod_eq_of_lt (hsub.value_lt base_gt_one), ← hlen,
          Nat.mod_eq_of_lt (hreg.value_lt base_gt_one)] at hat
        exact hat
      · rcases Nat.lt_or_ge i sub.length with hlt | hge
        · have hat := h i (by rw [value_cons_digit s hlt, hi])
          rwa [value_cons_mod s (Nat.le_of_lt hlt), value_cons_mod r (by omega)] at hat
        · have hbelow : value (2 ^ 32) sub < (2 ^ 32) ^ i :=
            lt_of_lt_of_le (hsub.value_lt base_gt_one) (Nat.pow_le_pow_right (by decide) hge)
          rw [Nat.div_eq_of_lt hbelow] at hi
          exact absurd hi (by decide)

variable {src : List Nat} {n : Nat}

theorem copyVal_length (hn : n ≤ 4) (hsrc : n ≤ src.length) : (copyVal src n).length = 4 := by
  rw [copyVal, List.length_append, List.length_replicate, List.length_take, maxAddrCells]
  omega

theorem copyVal_value (src : List Nat) (n : Nat) :
    value (2 ^ 32) (copyVal src n) = value (2 ^ 32) (src.take n) := value_zeros _ _

theorem copyVal_small (hsrc : Small (2 ^ 32) src) (n : Nat) : Small (2 ^ 32) (copyVal src n) :=
  small_append.mpr ⟨small_zeros (by decide) _, hsrc.take n⟩

/-- **`add_reg`** adds the numbers, unless the sum needs more cells. -/
theorem addReg_spec (hlen : reg.length = 4) (hreg : Small (2 ^ 32) reg) (hn : n ≤ 4)
    (hsrc : n ≤ src.length) (hx : value (2 ^ 32) reg < (2 ^ 32) ^ n) :
    (addReg reg (copyVal src n) n).1.length = 4 ∧
      Small (2 ^ 32) (addReg reg (copyVal src n) n).1 ∧
      ((addReg reg (copyVal src n) n).2 = 0 ↔
        value (2 ^ 32) reg + value (2 ^ 32) (src.take n) < (2 ^ 32) ^ n) ∧
      ((addReg reg (copyVal src n) n).2 = 0 → value (2 ^ 32) (addReg reg (copyVal src n) n).1
        = value (2 ^ 32) reg + value (2 ^ 32) (src.take n)) := by
  have hdrop : (copyVal src n).drop (maxAddrCells - n) = src.take n :=
    List.drop_left' List.length_replicate
  have hlow : (reg.drop (maxAddrCells - n)).length = n := by
    rw [List.length_drop, hlen, maxAddrCells]
    omega
  have hsame : (reg.drop (maxAddrCells - n)).length = (src.take n).length := by
    rw [hlow, List.length_take_of_le hsrc]
  -- the cells in front are zero
  have hsplit := @value_append (2 ^ 32) (reg.take (maxAddrCells - n)) (reg.drop (maxAddrCells - n))
  rw [List.take_append_drop, hlow] at hsplit
  have hzero : value (2 ^ 32) (reg.take (maxAddrCells - n)) = 0 := by
    by_contra hne
    have hmul : 1 * (2 ^ 32) ^ n
        ≤ value (2 ^ 32) (reg.take (maxAddrCells - n)) * (2 ^ 32) ^ n :=
      Nat.mul_le_mul_right _ (Nat.pos_of_ne_zero hne)
    omega
  rw [hzero, Nat.zero_mul, Nat.zero_add] at hsplit
  have hadd := add_value (B := 2 ^ 32) hsame
  have hcarry := add_carry_iff base_gt_one hsame
  have haddlen := add_length (B := 2 ^ 32) hsame
  rw [hlow] at hadd hcarry haddlen
  rw [addReg, hdrop]
  simp only
  refine ⟨?_, ?_, ?_, fun hnone => ?_⟩
  · rw [List.length_append, haddlen, List.length_take, hlen, maxAddrCells]
    omega
  · exact small_append.mpr ⟨hreg.take _, add_small (by decide) _ _⟩
  · rw [hcarry, hsplit]
  · rw [hnone, Nat.zero_mul, Nat.add_zero] at hadd
    rw [value_append, hzero, Nat.zero_mul, Nat.zero_add, hadd, ← hsplit]

/-! ## §3 One table -/

/-- Entry `k` of a table. -/
def rowAt (n : Nat) (table : List Nat) (k : Nat) : List Nat := (table.drop (n * k)).take n

/-- The comparison of `find_range` with an entry. -/
def Format.test (f : Format) (behind : Nat) (reg row : List Nat) : Bool :=
  compareReg behind reg (copyVal row f.parentNaddr)
    (copyVal (row.drop (f.naddr + f.parentNaddr)) f.nsize)

theorem copyVal_take (hle : n ≤ x) : copyVal (src.take x) n = copyVal src n := by
  rw [copyVal, copyVal, List.take_take, Nat.min_eq_left hle]

/-- A part of an entry, seen from the table. -/
theorem copyVal_row {w k m : Nat} (hle : m + n ≤ w) :
    copyVal ((rowAt w src k).drop m) n = copyVal (src.drop (w * k + m)) n := by
  rw [rowAt, List.drop_take, copyVal_take (by omega), List.drop_drop]

theorem findRangeFrom_eq (f : Format) (hw : 0 < f.width) (behind : Nat) (reg table : List Nat) :
    ∀ {fuel k : Nat}, table.length / f.width < fuel + k →
    findRangeFrom behind reg table f.naddr f.parentNaddr f.nsize fuel (f.width * k)
      = ((List.range' k (table.length / f.width - k)).find? fun j =>
          f.test behind reg (rowAt f.width table j)).map (f.width * ·) := by
  intro fuel
  induction fuel with
  | zero =>
    intro k hk
    rw [findRangeFrom, show table.length / f.width - k = 0 by omega]
    rfl
  | succ fuel ih =>
    intro k hk
    have hwidth : f.naddr + f.parentNaddr + f.nsize = f.width := rfl
    have hroom : f.width * k + f.width ≤ table.length ↔ k < table.length / f.width := by
      rw [← Nat.mul_succ, Nat.lt_iff_add_one_le, Nat.le_div_iff_mul_le hw, Nat.mul_comm]
    rw [findRangeFrom]
    simp only [hwidth]
    by_cases hk' : k < table.length / f.width
    · have hrest : table.length / f.width - k = table.length / f.width - (k + 1) + 1 := by omega
      have hstart : copyVal (table.drop (f.width * k)) f.parentNaddr
          = copyVal (rowAt f.width table k) f.parentNaddr :=
        (copyVal_row (m := 0) (by rw [Format.width]; omega)).symm
      have hsize : copyVal (table.drop (f.width * k + f.naddr + f.parentNaddr)) f.nsize
          = copyVal ((rowAt f.width table k).drop (f.naddr + f.parentNaddr)) f.nsize := by
        rw [copyVal_row (by rw [Format.width]), Nat.add_assoc]
      rw [if_pos (hroom.mpr hk'), hrest, List.range'_succ, List.find?_cons, hstart, hsize]
      rw [show compareReg behind reg (copyVal (rowAt f.width table k) f.parentNaddr)
          (copyVal ((rowAt f.width table k).drop (f.naddr + f.parentNaddr)) f.nsize)
          = f.test behind reg (rowAt f.width table k) from rfl]
      cases f.test behind reg (rowAt f.width table k) with
      | true => rfl
      | false =>
        simp only [Bool.false_eq_true, if_false]
        rw [← Nat.mul_succ]
        exact ih (by omega)
    · rw [if_neg (mt hroom.mp hk'), show table.length / f.width - k = 0 by omega]
      rfl

/-- The numbers of cells that an entry can have. -/
structure Format.Ok (f : Format) : Prop where
  naddr_pos : 1 ≤ f.naddr
  naddr : f.naddr ≤ 4
  parentNaddr : f.parentNaddr ≤ 4
  nsize : f.nsize ≤ 4

variable {f : Format} {row table : List Nat}

/-- **An entry** that can be compared is compared rightly. -/
theorem Format.test_iff (hf : f.Ok) (hlen : reg.length = 4) (hreg : Small (2 ^ 32) reg)
    (hrow : row.length = f.width) (hsmall : Small (2 ^ 32) row)
    (h : f.Comparable row (value (2 ^ 32) reg)) (behind : Nat) :
    f.test behind reg row = true ↔ f.Contains row (value (2 ^ 32) reg) := by
  have hwidth : f.width = f.naddr + f.parentNaddr + f.nsize := rfl
  have hrange : (copyVal row f.naddr).length = 4 := copyVal_length hf.naddr (by omega)
  have hdrop : (row.drop (f.naddr + f.parentNaddr)).length = f.nsize := by
    rw [List.length_drop]
    omega
  have hsize : (copyVal (row.drop (f.naddr + f.parentNaddr)) f.nsize).length = 4 :=
    copyVal_length hf.nsize (by omega)
  have hstart : value (2 ^ 32) (copyVal row f.naddr) = f.start row := copyVal_value _ _
  have hcount : value (2 ^ 32) (copyVal (row.drop (f.naddr + f.parentNaddr)) f.nsize)
      = f.size row := by
    rw [copyVal_value, List.take_of_length_le (by omega)]
    rfl
  have hexact := @compareReg_exact reg (copyVal row f.naddr)
    (copyVal (row.drop (f.naddr + f.parentNaddr)) f.nsize) (by omega) (by omega) hreg
    (copyVal_small hsmall _)
  rw [hstart, hcount] at hexact
  rw [Format.test, h.start]
  exact hexact.mpr h.stop behind

theorem rowAt_length {w k : Nat} (hk : k < table.length / w) : (rowAt w table k).length = w := by
  have hle : w * (k + 1) ≤ table.length := by
    rw [Nat.mul_comm]
    exact (Nat.le_div_iff_mul_le (Nat.pos_of_ne_zero (by rintro rfl; simp at hk))).mp hk
  rw [Nat.mul_succ] at hle
  rw [rowAt, List.length_take, List.length_drop]
  omega

/-- In a passable table the code finds the first entry that contains the address. -/
theorem Format.find_eq (hf : f.Ok) (hlen : reg.length = 4) (hreg : Small (2 ^ 32) reg)
    (htable : Small (2 ^ 32) table) (behind : Nat) (l : List Nat) :
    (∀ j ∈ l, j < table.length / f.width) →
    f.Passable (value (2 ^ 32) reg) (l.map (rowAt f.width table)) →
    (l.find? fun j => f.test behind reg (rowAt f.width table j))
        = (l.find? fun j => decide (f.Contains (rowAt f.width table j) (value (2 ^ 32) reg))) ∧
      ∀ j, (l.find? fun j => decide (f.Contains (rowAt f.width table j) (value (2 ^ 32) reg))) = some j →
        f.Movable (rowAt f.width table j) (value (2 ^ 32) reg) := by
  induction l with
  | nil => exact fun _ _ => ⟨rfl, fun j hj => by cases hj⟩
  | cons k l ih =>
    intro hin hpass
    rw [List.forall_mem_cons] at hin
    obtain ⟨hcomparable, hthen⟩ := hpass
    have htest := f.test_iff hf hlen hreg (rowAt_length hin.1) ((htable.drop _).take _) hcomparable
      behind
    rw [List.find?_cons, List.find?_cons]
    by_cases hcontains : f.Contains (rowAt f.width table k) (value (2 ^ 32) reg)
    · rw [if_pos hcontains] at hthen
      rw [htest.mpr hcontains, decide_eq_true hcontains]
      refine ⟨rfl, fun j hj => ?_⟩
      obtain rfl := Option.some.inj hj
      exact hthen
    · rw [if_neg hcontains] at hthen
      rw [Bool.eq_false_iff.mpr (mt htest.mp hcontains), decide_eq_false hcontains]
      exact ih hin.2 hthen

/-- **One table**: `find_range` gives the place of the first entry that contains the address. -/
theorem findRange_spec (hf : f.Ok) (hlen : reg.length = 4) (hreg : Small (2 ^ 32) reg)
    (htable : Small (2 ^ 32) table) (behind : Nat)
    (hpass : f.Passable (value (2 ^ 32) reg) (rows f.width table)) :
    (findRange behind reg table f.naddr f.parentNaddr f.nsize = none ∧
        (rows f.width table).find? (fun row => decide (f.Contains row (value (2 ^ 32) reg))) = none) ∨
      ∃ j < table.length / f.width,
        findRange behind reg table f.naddr f.parentNaddr f.nsize = some (f.width * j) ∧
        (rows f.width table).find? (fun row => decide (f.Contains row (value (2 ^ 32) reg)))
          = some (rowAt f.width table j) ∧
        f.Contains (rowAt f.width table j) (value (2 ^ 32) reg) ∧
        f.Movable (rowAt f.width table j) (value (2 ^ 32) reg) := by
  have hw : 0 < f.width := by
    have hpos := hf.naddr_pos
    rw [Format.width]
    omega
  have hrows : rows f.width table
      = (List.range (table.length / f.width)).map (rowAt f.width table) := rfl
  have hcode := @findRangeFrom_eq f hw behind reg table (table.length + 1) 0
    (Nat.lt_succ_of_le (Nat.div_le_self _ _))
  rw [Nat.mul_zero, Nat.sub_zero, ← List.range_eq_range'] at hcode
  rw [hrows] at hpass
  obtain ⟨hfind, hmovable⟩ := f.find_eq hf hlen hreg htable behind _
    (fun j hj => List.mem_range.mp hj) hpass
  rw [hfind] at hcode
  rw [findRange, hcode, hrows, List.find?_map]
  cases hat : (List.range (table.length / f.width)).find? fun j =>
      decide (f.Contains (rowAt f.width table j) (value (2 ^ 32) reg)) with
  | none =>
    left
    exact ⟨rfl, by rw [show (fun row => decide (f.Contains row (value (2 ^ 32) reg)))
      ∘ rowAt f.width table = fun j => decide (f.Contains (rowAt f.width table j)
        (value (2 ^ 32) reg)) from rfl, hat]; rfl⟩
  | some j =>
    right
    have hcontains : decide (f.Contains (rowAt f.width table j) (value (2 ^ 32) reg)) = true :=
      List.find?_some (p := fun j =>
        decide (f.Contains (rowAt f.width table j) (value (2 ^ 32) reg))) hat
    refine ⟨j, List.mem_range.mp (List.mem_of_find?_eq_some hat), rfl, ?_,
      of_decide_eq_true hcontains, hmovable j hat⟩
    rw [show (fun row => decide (f.Contains row (value (2 ^ 32) reg))) ∘ rowAt f.width table
      = fun j => decide (f.Contains (rowAt f.width table j) (value (2 ^ 32) reg)) from rfl, hat]
    rfl

/-- **The move** through an entry, where the distance from its start is found exactly. -/
theorem Format.move_spec (hf : f.Ok) (hlen : reg.length = 4) (hreg : Small (2 ^ 32) reg)
    (hrow : row.length = f.width) (hsmall : Small (2 ^ 32) row)
    (hcontains : f.Contains row (value (2 ^ 32) reg)) (hmovable : f.Movable row (value (2 ^ 32) reg)) :
    (subReg reg (copyVal row f.naddr)).2 = 0 ∧
      ∃ reg' carry, addReg (subReg reg (copyVal row f.naddr)).1
          (copyVal (row.drop f.naddr) f.parentNaddr) f.parentNaddr = (reg', carry) ∧
        reg'.length = 4 ∧ Small (2 ^ 32) reg' ∧
        (carry = 0 ↔ value (2 ^ 32) reg - f.start row + f.parentStart row
          < (2 ^ 32) ^ f.parentNaddr) ∧
        (carry = 0 → value (2 ^ 32) reg'
          = value (2 ^ 32) reg - f.start row + f.parentStart row) := by
  have hwidth : f.width = f.naddr + f.parentNaddr + f.nsize := rfl
  have hsub : (copyVal row f.naddr).length = 4 := copyVal_length hf.naddr (by omega)
  have hstart : value (2 ^ 32) (copyVal row f.naddr) = f.start row := copyVal_value _ _
  have hsame : reg.length = (copyVal row f.naddr).length := by omega
  have hborrows := borrows_of_digits hsame hreg (copyVal_small hsmall _) (by
    rw [hstart]
    exact hmovable.borrow)
  obtain ⟨hvalue, hborrow⟩ := subReg_spec hsame hreg (copyVal_small hsmall _) hborrows
  rw [hstart] at hvalue hborrow
  rw [if_neg (Nat.not_lt_of_le hcontains.1)] at hborrow
  rw [hborrow, Nat.zero_mul, Nat.add_zero] at hvalue
  have hdistance : value (2 ^ 32) (subReg reg (copyVal row f.naddr)).1
      = value (2 ^ 32) reg - f.start row := by omega
  have hparent : f.parentNaddr ≤ (row.drop f.naddr).length := by
    rw [List.length_drop]
    omega
  obtain ⟨hlength, hwords, hcarry, hsum⟩ := addReg_spec ((subReg_length hsame).trans hlen)
    (subReg_small _ _) hf.parentNaddr hparent (by rw [hdistance]; exact hmovable.distance)
  rw [hdistance] at hcarry hsum
  exact ⟨hborrow, _, _, rfl, hlength, hwords, hcarry, hsum⟩

/-! ## §4 The way up -/

theorem cells_small : ∀ bytes : List UInt8, Small (2 ^ 32) (cells bytes) := by
  intro bytes
  induction bytes using cells.induct with
  | case1 a b c d bytes ih =>
    have ha := a.toNat_lt
    have hb := b.toNat_lt
    have hc := c.toNat_lt
    have hd := d.toNat_lt
    exact small_cons.mpr ⟨by omega, ih⟩
  | case2 bytes h =>
    rw [cells]
    · exact fun c hc => by cases hc
    · exact h

/-- **The loop of `dt_xlate`** maps the address up. -/
theorem xlateLoop_spec (behind : Nat → Nat) (bus : List BusNode) : ∀ {node : BusNode}
    {reg : List Nat}, (∀ n ∈ node :: bus, 1 ≤ n.naddr ∧ n.naddr ≤ 4) →
    (∀ n ∈ node :: bus, 1 ≤ n.nsize ∧ n.nsize ≤ 2) → reg.length = 4 → Small (2 ^ 32) reg →
    value (2 ^ 32) reg < (2 ^ 32) ^ node.naddr → PassableUp (value (2 ^ 32) reg) node bus →
    (xlateLoop behind node.naddr node.nsize reg node bus = none ∧
        mapUp (value (2 ^ 32) reg) node bus = none) ∨
      ∃ reg', xlateLoop behind node.naddr node.nsize reg node bus
          = some (((node :: bus).getLastD node).naddr, reg') ∧
        mapUp (value (2 ^ 32) reg) node bus = some (value (2 ^ 32) reg') ∧ reg'.length = 4 ∧
        Small (2 ^ 32) reg' ∧
        value (2 ^ 32) reg' < (2 ^ 32) ^ ((node :: bus).getLastD node).naddr := by
  induction bus with
  | nil =>
    intro node reg _ _ hlen hreg hx _
    exact Or.inr ⟨reg, rfl, rfl, hlen, hreg, hx⟩
  | cons parent bus ih =>
    intro node reg hnaddr hnsize hlen hreg hx hpass
    have hlast : (node :: parent :: bus).getLastD node = (parent :: bus).getLastD parent := rfl
    rw [List.forall_mem_cons] at hnaddr hnsize
    have hparent := hnaddr.2 parent List.mem_cons_self
    rw [hlast, xlateLoop, mapUp]
    rw [PassableUp] at hpass
    cases hranges : node.ranges with
    | none => exact Or.inl ⟨rfl, rfl⟩
    | some ranges =>
      rw [hranges] at hpass
      simp only at hpass ⊢
      by_cases hempty : ranges = []
      · rw [if_pos hempty] at hpass ⊢
        rw [if_pos (List.length_eq_zero_iff.mpr hempty), if_pos hpass.1]
        exact ih hnaddr.2 hnsize.2 hlen hreg hpass.1 hpass.2
      rw [if_neg hempty] at hpass ⊢
      rw [if_neg (mt List.length_eq_zero_iff.mp hempty)]
      by_cases hlong : maxPropLen < ranges.length
      · rw [if_pos hlong, if_pos hlong]
        exact Or.inl ⟨rfl, rfl⟩
      rw [if_neg hlong] at hpass ⊢
      rw [if_neg hlong]
      have hf : (node.format parent).Ok :=
        ⟨hnaddr.1.1, hnaddr.1.2, hparent.2, le_trans hnsize.1.2 (by decide)⟩
      have hsmall := cells_small ranges
      rcases findRange_spec hf hlen hreg hsmall (behind bus.length) hpass.1 with
        ⟨hcode, hfind⟩ | ⟨j, hj, hcode, hfind, hcontains, hmovable⟩
      · have hcode : findRange (behind bus.length) reg (cells ranges) node.naddr parent.naddr
            node.nsize = none := hcode
        rw [hcode, hfind]
        exact Or.inl ⟨rfl, rfl⟩
      · have hcode : findRange (behind bus.length) reg (cells ranges) node.naddr parent.naddr
            node.nsize = some ((node.format parent).width * j) := hcode
        have hup := hpass.2 _ hfind
        have hrow := rowAt_length hj
        obtain ⟨hborrow, reg', carry, hadd, hlen', hreg', hcarry, hvalue⟩ :=
          (node.format parent).move_spec hf hlen hreg hrow ((hsmall.drop _).take _) hcontains hmovable
        have hstart : copyVal ((cells ranges).drop ((node.format parent).width * j)) node.naddr
            = copyVal (rowAt (node.format parent).width (cells ranges) j) node.naddr :=
          (copyVal_row (m := 0) (by rw [Format.width, BusNode.format]; simp only; omega)).symm
        have hparentStart : copyVal ((cells ranges).drop
              ((node.format parent).width * j + node.naddr)) parent.naddr
            = copyVal ((rowAt (node.format parent).width (cells ranges) j).drop node.naddr)
              parent.naddr :=
          (copyVal_row (by rw [Format.width, BusNode.format]; simp only; omega)).symm
        have hborrow : (subReg reg (copyVal (rowAt (node.format parent).width (cells ranges) j)
            node.naddr)).2 = 0 := hborrow
        have hadd : addReg (subReg reg (copyVal (rowAt (node.format parent).width (cells ranges) j)
            node.naddr)).1 (copyVal ((rowAt (node.format parent).width (cells ranges) j).drop
              node.naddr) parent.naddr) parent.naddr = (reg', carry) := hadd
        have hcarry : carry = 0 ↔ _ < (2 ^ 32) ^ parent.naddr := hcarry
        rw [hcode, hfind]
        simp only
        rw [hstart, hparentStart, if_neg (not_not.mpr hborrow), hadd]
        by_cases hfits : carry = 0
        · have hroom := hcarry.mp hfits
          rw [if_neg (not_not.mpr hfits), if_pos hroom, ← hvalue hfits]
          rw [← hvalue hfits] at hup hroom
          exact ih hnaddr.2 hnsize.2 hlen' hreg' hroom (hup hroom)
        · rw [if_pos hfits, if_neg (mt hcarry.mpr hfits)]
          exact Or.inl ⟨rfl, rfl⟩

/-! ## §5 The call -/

theorem length_lt_four {bytes : List UInt8}
    (h : ∀ a b c d rest, bytes = a :: b :: c :: d :: rest → False) : bytes.length < 4 := by
  rcases bytes with _ | ⟨a, _ | ⟨b, _ | ⟨c, _ | ⟨d, bytes⟩⟩⟩⟩
  · exact Nat.zero_lt_succ 3
  · exact Nat.succ_lt_succ (Nat.zero_lt_succ 2)
  · exact Nat.succ_lt_succ (Nat.succ_lt_succ (Nat.zero_lt_succ 1))
  · exact Nat.lt_succ_self 3
  · exact absurd rfl (h a b c d bytes)

theorem cells_length (bytes : List UInt8) : (cells bytes).length = bytes.length / 4 := by
  induction bytes using cells.induct with
  | case1 a b c d bytes ih =>
    rw [cells, List.length_cons, ih]
    simp only [List.length_cons]
    omega
  | case2 bytes h =>
    rw [cells]
    · exact (Nat.div_eq_of_lt (length_lt_four h)).symm
    · exact h

/-- The words of the first bytes. -/
theorem cells_take (bytes : List UInt8) : ∀ k, cells (bytes.take (4 * k)) = (cells bytes).take k := by
  induction bytes using cells.induct with
  | case1 a b c d bytes ih =>
    intro k
    cases k with
    | zero => rfl
    | succ k =>
      rw [Nat.mul_succ]
      simp only [List.take_succ_cons, cells]
      rw [ih k]
  | case2 bytes h =>
    intro k
    have hnil : ∀ l : List UInt8, l.length < 4 → cells l = [] := by
      intro l hl
      have hlen := cells_length l
      rw [Nat.div_eq_of_lt hl] at hlen
      exact List.length_eq_zero_iff.mp hlen
    have hshort := length_lt_four h
    rw [hnil bytes hshort, hnil _ (by rw [List.length_take]; omega), List.take_nil]

/-- Two words as the source joins them. -/
theorem shift_or {a b : Nat} (hb : b < 2 ^ 32) : a <<< 32 ||| b = value (2 ^ 32) [a, b] := by
  rw [← Nat.shiftLeft_add_eq_or_of_lt hb, Nat.shiftLeft_eq, value_cons, value_cons, value_nil,
    List.length_singleton, List.length_nil, Nat.pow_one, Nat.pow_zero, Nat.mul_one, Nat.add_zero]

/-- The last two cells of an address that needs no more. -/
theorem low_cells (hlen : reg.length = 4) (hreg : Small (2 ^ 32) reg)
    (hx : value (2 ^ 32) reg < (2 ^ 32) ^ 2) :
    reg.getD 2 0 <<< 32 ||| reg.getD 3 0 = value (2 ^ 32) reg := by
  obtain ⟨a, b, c, d, rfl⟩ := List.length_eq_four.mp hlen
  have hd : d < 2 ^ 32 := hreg d (by simp)
  have hsplit := @value_append (2 ^ 32) [a, b] [c, d]
  have hzero : value (2 ^ 32) [a, b] = 0 := by
    by_contra hne
    have hmul : 1 * (2 ^ 32) ^ 2 ≤ value (2 ^ 32) [a, b] * (2 ^ 32) ^ 2 :=
      Nat.mul_le_mul_right _ (Nat.pos_of_ne_zero hne)
    have hsplit : value (2 ^ 32) [a, b, c, d]
        = value (2 ^ 32) [a, b] * (2 ^ 32) ^ 2 + value (2 ^ 32) [c, d] := hsplit
    omega
  rw [hzero, Nat.zero_mul, Nat.zero_add] at hsplit
  exact (shift_or hd).trans hsplit.symm

namespace XlateCall

variable (c : XlateCall)

/-- A part of the register in `prop_buf`. -/
theorem propBuf_part {bytes : List UInt8} {o k : Nat} (hfits : (o + k) * 4 ≤ maxPropLen) :
    ((cells (bytes.take maxPropLen)).drop o).take k = ((cells bytes).drop o).take k := by
  have hbuf : cells (bytes.take maxPropLen) = (cells bytes).take 64 := cells_take bytes 64
  rw [maxPropLen] at hfits
  rw [hbuf, List.drop_take, List.take_take, Nat.min_eq_left (by omega)]

/-- A register that is in the property and in `prop_buf`. -/
theorem register_eq {bytes : List UInt8} (hreg : c.reg = some bytes)
    (hin : (c.parent.naddr + c.parent.nsize) * (c.res + 1) ≤ bytes.length / 4)
    (hbuf : (c.parent.naddr + c.parent.nsize) * (c.res + 1) * 4 ≤ maxPropLen) :
    ∃ register, c.register = some register ∧
      register.length = c.parent.naddr + c.parent.nsize ∧ Small (2 ^ 32) register ∧
      ∀ o k, o + k ≤ c.parent.naddr + c.parent.nsize →
        ((cells (bytes.take maxPropLen)).drop
          ((c.parent.naddr + c.parent.nsize) * c.res + o)).take k = (register.drop o).take k := by
  have hlen := cells_length bytes
  have hmul : (c.parent.naddr + c.parent.nsize) * (c.res + 1)
      = (c.parent.naddr + c.parent.nsize) * c.res + (c.parent.naddr + c.parent.nsize) :=
    Nat.mul_succ _ _
  rw [hmul] at hin hbuf
  refine ⟨((cells bytes).drop ((c.parent.naddr + c.parent.nsize) * c.res)).take
    (c.parent.naddr + c.parent.nsize), ?_, ?_, ((cells_small bytes).drop _).take _, fun o k hok => ?_⟩
  · rw [register, hreg]
    simp only
    rw [hmul, if_pos ⟨hin, hbuf⟩]
  · rw [List.length_take, List.length_drop]
    omega
  · rw [propBuf_part (by omega), List.drop_take,
      List.take_take, Nat.min_eq_left (by omega), List.drop_drop]

/-- The size as the source reads it. -/
theorem size_eq {buf size : List Nat} {o nsize : Nat} (hlen : size.length = nsize)
    (hsmall : Small (2 ^ 32) size) (hnsize : 1 ≤ nsize ∧ nsize ≤ 2)
    (hbuf : (buf.drop o).take nsize = size) :
    (if nsize = 2 then buf.getD o 0 <<< 32 ||| buf.getD (o + 1) 0 else buf.getD o 0)
      = value (2 ^ 32) size := by
  have hat {i : Nat} (hi : i < nsize) : buf.getD (o + i) 0 = size.getD i 0 := by
    rw [← hbuf, List.getD_eq_getElem?_getD, List.getD_eq_getElem?_getD,
      List.getElem?_take_of_lt hi, List.getElem?_drop]
  obtain rfl | rfl : nsize = 1 ∨ nsize = 2 := by omega
  · obtain ⟨a, rfl⟩ := List.length_eq_one_iff.mp hlen
    have h0 := hat (i := 0) (by decide)
    rw [Nat.add_zero] at h0
    rw [if_neg (by decide), h0, value_cons, value_nil, List.length_nil, Nat.pow_zero, Nat.mul_one]
    rfl
  · obtain ⟨a, b, rfl⟩ := List.length_eq_two.mp hlen
    have h0 := hat (i := 0) (by decide)
    have h1 := hat (i := 1) (by decide)
    rw [Nat.add_zero] at h0
    rw [if_pos rfl, h0, h1]
    exact shift_or (hsmall b (by simp))

/-- **Every register that can be mapped up** is translated as it should be. -/
theorem right_of_passable (h : c.Passable) : c.Right := by
  intro behind
  have hnaddr := c.naddr c.parent List.mem_cons_self
  have hnsize := c.nsize c.parent List.mem_cons_self
  have hwidth : (c.parent.naddr + c.parent.nsize) * c.res + c.parent.naddr + c.parent.nsize
      = (c.parent.naddr + c.parent.nsize) * (c.res + 1) := by
    rw [Nat.mul_succ, Nat.add_assoc]
  rw [mapped]
  cases hreg : c.reg with
  | none =>
    have hnone : c.register = none := by rw [register, hreg]
    rw [hnone, dtXlateReg, dtXlate]
    simp only
    rw [if_neg (by omega), if_pos (Or.inl (by omega))]
  | some bytes =>
    rw [dtXlateReg, dtXlate]
    simp only
    rw [hwidth, if_neg (by omega)]
    by_cases hfits : (c.parent.naddr + c.parent.nsize) * (c.res + 1) ≤ bytes.length / 4 ∧
        (c.parent.naddr + c.parent.nsize) * (c.res + 1) * 4 ≤ maxPropLen
    · obtain ⟨register, hregister, hlength, hsmall, hpart⟩ := c.register_eq hreg hfits.1 hfits.2
      have haddr := hpart 0 c.parent.naddr (by omega)
      have hsize := hpart c.parent.naddr c.parent.nsize (le_refl _)
      rw [Nat.add_zero, List.drop_zero] at haddr
      rw [List.take_of_length_le (l := register.drop c.parent.naddr) (by
        rw [List.length_drop]; omega)] at hsize
      have hsizeval := size_eq (by rw [List.length_drop]; omega) (hsmall.drop _) hnsize hsize
      have hcount : (register.take c.parent.naddr).length = c.parent.naddr := by
        rw [List.length_take]
        omega
      have hread : copyVal ((cells (bytes.take maxPropLen)).drop
          ((c.parent.naddr + c.parent.nsize) * c.res)) c.parent.naddr
          = copyVal register c.parent.naddr := by rw [copyVal, copyVal, haddr]
      have hvalue : value (2 ^ 32) (copyVal register c.parent.naddr)
          = value (2 ^ 32) (register.take c.parent.naddr) := copyVal_value _ _
      have hx : value (2 ^ 32) (copyVal register c.parent.naddr) < (2 ^ 32) ^ c.parent.naddr := by
        have hlt := (hsmall.take c.parent.naddr).value_lt base_gt_one
        rwa [hcount, ← hvalue] at hlt
      rw [if_neg (by omega), hread, hsizeval, hregister]
      simp only
      rcases xlateLoop_spec behind c.bus c.naddr c.nsize
        (copyVal_length hnaddr.2 (by omega)) (copyVal_small hsmall _) hx (by
          rw [hvalue]
          exact h register hregister) with ⟨hloop, hmap⟩ | ⟨reg', hloop, hmap, hlen', hreg', hx'⟩
      · rw [hvalue] at hmap
        rw [hloop, hmap]
      · rw [hvalue] at hmap
        rw [hloop, hmap]
        simp only
        by_cases htwo : ((c.parent :: c.bus).getLastD c.parent).naddr ≤ 2
        · have hsmall' : value (2 ^ 32) reg' < (2 ^ 32) ^ 2 :=
            lt_of_lt_of_le hx' (Nat.pow_le_pow_right (by decide) htwo)
          rw [if_neg (by omega), low_cells hlen' hreg' hsmall']
          by_cases hptr : c.ptrSize = 4 → value (2 ^ 32) reg' < 2 ^ 32 ∧
              value (2 ^ 32) reg' + value (2 ^ 32) (register.drop c.parent.naddr) ≤ 2 ^ 32
          · rw [if_neg (by
              rintro ⟨hfour, hover⟩
              have hin := hptr hfour
              omega), if_pos ⟨htwo, hptr⟩]
          · rw [if_pos (by
              rw [Classical.not_imp] at hptr
              exact ⟨hptr.1, by omega⟩), if_neg (fun hboth => hptr hboth.2)]
        · rw [if_pos (by omega), if_neg (fun hboth => htwo hboth.1)]
    · rw [if_pos (by omega)]
      have hnone : c.register = none := by
        rw [register, hreg]
        simp only
        rw [if_neg hfits]
      rw [hnone]

end XlateCall

/-- Four words. -/
abbrev Register := { cs : List Nat // cs.length = 4 ∧ Small (2 ^ 32) cs }

/-- A node with its numbers of cells and its table. -/
def busNode (naddr nsize : Nat) (table : List Nat) : BusNode :=
  ⟨some naddr, some nsize, some (table.flatMap Memory.wordBytes)⟩

/-- The register `addr` of four bytes on a bus of one address cell below a root of `naddr`. -/
def busCall (naddr : { n // 1 ≤ n ∧ n ≤ 4 }) (addr : Nat) (table : List Nat) : XlateCall where
  ptrSize := 4
  reg := some (Memory.wordBytes addr ++ Memory.wordBytes 4)
  res := 0
  parent := busNode 1 1 table
  bus := [busNode naddr 1 []]
  naddr := by
    intro node hnode
    rcases List.mem_cons.mp hnode with rfl | hnode
    · exact ⟨le_refl 1, (by decide : 1 ≤ 4)⟩
    · rw [List.mem_singleton.mp hnode]
      exact naddr.property
  nsize := by
    intro node hnode
    rcases List.mem_cons.mp hnode with rfl | hnode
    · exact ⟨le_refl 1, (by decide : 1 ≤ 2)⟩
    · rw [List.mem_singleton.mp hnode]
      exact ⟨le_refl 1, (by decide : 1 ≤ 2)⟩
  place := (by decide : (1 + 1) * (0 + 1) < 2 ^ 31)

/-- 16 in the range `[0, 0x100)`, which is at 0x1000 of the root. -/
def insideCall : XlateCall := busCall ⟨1, by decide⟩ 0x10 [0, 0x1000, 0x100]

/-- The address behind that range. -/
def endCall : XlateCall := busCall ⟨1, by decide⟩ 0x100 [0, 0x1000, 0x100]

/-- An address in a range from 0x1000 on, below a root with two address cells. -/
def widerCall : XlateCall := busCall ⟨2, by decide⟩ 0x1010 [0x1000, 0, 0x80000000, 0x1000]

theorem insideCall_passable : insideCall.Passable := by
  intro register hregister
  have hcells : insideCall.register = some [0x10, 4] := by decide +kernel
  obtain rfl := Option.some.inj (hregister.symm.trans hcells)
  have hx : value (2 ^ 32) ([0x10, 4].take insideCall.parent.naddr) = 0x10 := by decide +kernel
  have hranges : insideCall.parent.ranges
      = some ([0, 0x1000, 0x100].flatMap Memory.wordBytes) := rfl
  have hformat : insideCall.parent.format (busNode 1 1 []) = ⟨1, 1, 1⟩ := rfl
  have hrows : rows (Format.width ⟨1, 1, 1⟩) (cells ([0, 0x1000, 0x100].flatMap Memory.wordBytes))
      = [[0, 0x1000, 0x100]] := by decide +kernel
  have hstart : Format.start ⟨1, 1, 1⟩ [0, 0x1000, 0x100] = 0 := by decide +kernel
  have hbus : insideCall.bus = [busNode 1 1 []] := rfl
  rw [hx, hbus, PassableUp, hranges]
  simp only [hformat, hrows]
  rw [if_neg (by decide +kernel), if_neg (by decide +kernel)]
  refine ⟨⟨⟨rfl, by decide +kernel⟩, ?_⟩, fun _ _ _ => trivial⟩
  rw [if_pos (by decide +kernel)]
  refine ⟨fun i hfull => ?_, by decide +kernel⟩
  rw [hstart, Nat.zero_div] at hfull
  exact absurd hfull (by decide)

end LiloBoot.DevTree
