/-
LiloBoot.Lib.Walk — walks along a partial function.

A walk goes on from a place as long as there is a next one. Among finitely
many places it ends exactly if it never returns to one.
-/
import Mathlib

namespace LiloBoot.Walk

variable {α : Type*} {step : α → Option α} {a b : α}

/-- The place after a number of steps, while the walk goes on. -/
def place (step : α → Option α) (a : α) : Nat → Option α
  | 0 => some a
  | n + 1 => (place step a n).bind step

def Ends (step : α → Option α) (a : α) : Prop := ∃ n, place step a n = none

/-- No place is reached a second time. -/
def NeverReturns (step : α → Option α) (a : α) : Prop :=
  ∀ i j, i < j → ∀ x, place step a i = some x → place step a j ≠ some x

theorem place_succ (h : step a = some b) (n : Nat) : place step a (n + 1) = place step b n := by
  induction n with
  | zero => simp [place, h]
  | succ n ih => rw [place, ih, place]

/-- Behind a place the walk is the one that starts there. -/
theorem place_add {i : Nat} (h : place step a i = some b) (n : Nat) :
    place step a (i + n) = place step b n := by
  induction n with
  | zero => exact h
  | succ n ih => rw [← Nat.add_assoc, place, ih, place]

theorem place_none {n m : Nat} (h : place step a n = none) (hle : n ≤ m) :
    place step a m = none := by
  induction m, hle using Nat.le_induction with
  | base => exact h
  | succ m _ ih => rw [place, ih, Option.bind_none]

theorem ends_none (h : step a = none) : Ends step a := ⟨1, by simp [place, h]⟩

theorem ends_next (h : step a = some b) : Ends step a ↔ Ends step b := by
  constructor
  · rintro ⟨n, hn⟩
    exact ⟨n, by rw [← place_succ h]; exact place_none hn (Nat.le_succ n)⟩
  · rintro ⟨n, hn⟩
    exact ⟨n + 1, by rw [place_succ h, hn]⟩

/-- A place that is reached twice is reached for ever. -/
theorem returns_always {i p : Nat} (h : place step a i = some b)
    (hagain : place step a (i + p) = some b) (k : Nat) : place step a (i + k * p) = some b := by
  induction k with
  | zero => simpa using h
  | succ k ih =>
    have hperiod : place step b p = some b := by rw [← place_add h, hagain]
    rw [Nat.succ_mul, ← Nat.add_assoc, place_add ih, hperiod]

theorem Ends.neverReturns (h : Ends step a) : NeverReturns step a := by
  rintro i j hij x hi hj
  obtain ⟨n, hn⟩ := h
  have hagain : place step a (i + (j - i)) = some x := by rwa [Nat.add_sub_cancel' hij.le]
  have halways := returns_always hi hagain n
  have hle : n ≤ i + n * (j - i) :=
    (Nat.le_mul_of_pos_right n (Nat.sub_pos_of_lt hij)).trans (Nat.le_add_left _ _)
  rw [place_none hn hle] at halways
  cases halways

/-- **A walk among finitely many places ends exactly if it never returns.** -/
theorem ends_iff {S : Set α} (hfinite : S.Finite) (hin : ∀ n x, place step a n = some x → x ∈ S) :
    Ends step a ↔ NeverReturns step a := by
  refine ⟨Ends.neverReturns, fun hnever => ?_⟩
  by_contra hends
  have hgoes : ∀ n, ∃ x, place step a n = some x := fun n =>
    Option.ne_none_iff_exists'.mp fun hnone => hends ⟨n, hnone⟩
  choose f hf using hgoes
  have hinjective : Function.Injective f := by
    intro i j hij
    by_contra hne
    rcases Nat.lt_or_gt_of_ne hne with hlt | hlt
    · exact hnever i j hlt (f i) (hf i) (by rw [hf j, hij])
    · exact hnever j i hlt (f j) (hf j) (by rw [hf i, hij])
  have hrange : Set.range f ⊆ S := by
    rintro x ⟨n, rfl⟩
    exact hin n (f n) (hf n)
  exact Set.infinite_range_of_injective hinjective (hfinite.subset hrange)

end LiloBoot.Walk
