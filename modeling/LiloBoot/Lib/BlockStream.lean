/-
LiloBoot.Lib.BlockStream — a function of blocks that is fed with lists.

`absorb` puts a list through `compress` block by block and gives what is left over.
It may be given the list in parts, if what is left over goes in front of the next
part (`absorb_append`), and that is all that a streaming hash relies on.
-/
import Mathlib

namespace LiloBoot.BlockStream

variable {σ τ α : Type*}

/-- The state after the whole blocks of a list, and what is left over. -/
def absorb (size : Nat) [NeZero size] (compress : σ → List α → σ) (s : σ) (l : List α) :
    σ × List α :=
  if size ≤ l.length then absorb size compress (compress s (l.take size)) (l.drop size) else (s, l)
termination_by l.length
decreasing_by
  have := NeZero.pos size
  rw [List.length_drop]
  omega

variable {size : Nat} [NeZero size] {compress : σ → List α → σ} {s : σ} {l : List α}

theorem absorb_of_lt (h : l.length < size) : absorb size compress s l = (s, l) := by
  rw [absorb, if_neg (by omega)]

theorem absorb_of_le (h : size ≤ l.length) : absorb size compress s l =
    absorb size compress (compress s (l.take size)) (l.drop size) := by
  rw [absorb, if_pos h]

/-- A block in front goes first. -/
theorem absorb_block {b : List α} (h : b.length = size) (rest : List α) :
    absorb size compress s (b ++ rest) = absorb size compress (compress s b) rest := by
  have htake : (b ++ rest).take size = b := List.take_left' h
  have hdrop : (b ++ rest).drop size = rest := List.drop_left' h
  rw [absorb_of_le (by rw [List.length_append]; omega), htake, hdrop]

/-- **In parts**: what is left over goes in front of what comes next. -/
theorem absorb_append (s : σ) (l next : List α) : absorb size compress s (l ++ next) =
    absorb size compress (absorb size compress s l).1 ((absorb size compress s l).2 ++ next) := by
  induction hn : l.length using Nat.strong_induction_on generalizing s l with
  | _ n ih =>
    by_cases h : size ≤ l.length
    · have hpos := NeZero.pos size
      have hlen : (l.take size).length = size := by rw [List.length_take]; omega
      rw [absorb_of_le h, ← ih (l.drop size).length (by rw [List.length_drop]; omega) _ _ rfl]
      conv_lhs => rw [← List.take_append_drop size l, List.append_assoc, absorb_block hlen]
    · rw [absorb_of_lt (l := l) (by omega)]

theorem absorb_snd_length (s : σ) (l : List α) :
    (absorb size compress s l).2.length = l.length % size := by
  induction hn : l.length using Nat.strong_induction_on generalizing s l with
  | _ n ih =>
    have hpos := NeZero.pos size
    by_cases h : size ≤ l.length
    · have hdrop : (l.drop size).length = n - size := by rw [List.length_drop, hn]
      rw [absorb_of_le h, ih (n - size) (by omega) _ _ hdrop, ← Nat.mod_eq_sub_mod (by omega)]
    · rw [absorb_of_lt (by omega), hn, Nat.mod_eq_of_lt (by omega)]

/-- Two functions of blocks that agree through a map of their states. -/
theorem absorb_map {compress' : τ → List α → τ} (f : σ → τ)
    (h : ∀ s b, f (compress s b) = compress' (f s) b) (s : σ) (l : List α) :
    absorb size compress' (f s) l
      = (f (absorb size compress s l).1, (absorb size compress s l).2) := by
  induction hn : l.length using Nat.strong_induction_on generalizing s l with
  | _ n ih =>
    by_cases hle : size ≤ l.length
    · have hpos := NeZero.pos size
      rw [absorb_of_le hle, absorb_of_le hle, ← h,
        ih (l.drop size).length (by rw [List.length_drop]; omega) _ _ rfl]
    · rw [absorb_of_lt (by omega), absorb_of_lt (by omega)]

end LiloBoot.BlockStream
