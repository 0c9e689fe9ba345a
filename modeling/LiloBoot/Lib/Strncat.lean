/-
LiloBoot.Lib.Strncat — `strncat` of `lib/vsprintf.c`.

Addresses count from the destination; the source is a memory of its own. Beside the
memory a call gives the addresses that it has written to. Behind the loop `p` points
to where the NUL belongs, and the NUL is stored at `p[1]`: what stands at `p` stays.
-/
import LiloBoot.DevTree.Memory

namespace LiloBoot

open Memory

/-! ## §1 Definitions -/

/-- The `do` loop from `src[j]` on, for `n` more characters: the memory, `p`, and the writes. -/
def strncatLoop (src : Bytes) : Nat → Nat → Bytes → Nat → Bytes × Nat × List Nat
  | 0, _, mem, p => (mem, p, [])
  | n + 1, j, mem, p =>
    if src j = 0 then (mem, p, [])
    else
      let r := strncatLoop src n (j + 1) (Function.update mem p (src j)) (p + 1)
      (r.1, r.2.1, p :: r.2.2)

/-- `strncat(dest, src, n)`: the memory and the addresses written to. -/
def strncat (mem src : Bytes) (n : Nat) : Bytes × List Nat :=
  if n = 0 then (mem, [])
  else
    let r := strncatLoop src n 0 mem (strlen mem 0)
    (Function.update r.1 (r.2.1 + 1) 0, r.2.2 ++ [r.2.1 + 1])

/-! ## §2 What a call does -/

variable {mem src : Bytes} {n : Nat}

theorem strnlen_le (mem : Bytes) (fuel p : Nat) : strnlen mem fuel p ≤ fuel := by
  induction fuel generalizing p with
  | zero => exact Nat.le_refl 0
  | succ fuel ih =>
    rw [strnlen]
    split
    · exact Nat.zero_le _
    · exact Nat.succ_le_succ (ih (p + 1))

/-- With less fuel the count stops earlier. -/
theorem strnlen_min (mem : Bytes) (fuel more p : Nat) :
    strnlen mem fuel p = min fuel (strnlen mem (fuel + more) p) := by
  induction fuel generalizing p with
  | zero => rw [strnlen, Nat.zero_min]
  | succ fuel ih =>
    rw [strnlen, Nat.add_right_comm, strnlen]
    split
    · exact (Nat.min_eq_right (Nat.zero_le _)).symm
    · rw [ih, Nat.succ_min_succ]

theorem strnlen_ne_zero {fuel p i : Nat} (h : i < strnlen mem fuel p) : mem (p + i) ≠ 0 := by
  induction fuel generalizing p i with
  | zero => exact absurd h (Nat.not_lt_zero i)
  | succ fuel ih =>
    rw [strnlen] at h
    split at h
    · exact absurd h (Nat.not_lt_zero i)
    · rename_i hp
      cases i with
      | zero => exact hp
      | succ i =>
        rw [Nat.add_comm i 1, ← Nat.add_assoc]
        exact ih (Nat.lt_of_succ_lt_succ h)

/-- The loop copies what is in front of the NUL, `n` characters at most. -/
theorem strncatLoop_eq (src : Bytes) (n j : Nat) (mem : Bytes) (p : Nat) :
    strncatLoop src n j mem p =
      (fun a => if p ≤ a ∧ a < p + strnlen src n j then src (j + (a - p)) else mem a,
        p + strnlen src n j, List.range' p (strnlen src n j)) := by
  induction n generalizing j mem p with
  | zero =>
    rw [strncatLoop, strnlen]
    refine Prod.ext (funext fun a => ?_) rfl
    exact (if_neg (by omega)).symm
  | succ n ih =>
    rw [strncatLoop, strnlen]
    split
    · refine Prod.ext (funext fun a => ?_) rfl
      exact (if_neg (by omega)).symm
    · rw [ih]
      refine Prod.ext (funext fun a => ?_) (Prod.ext ?_ ?_)
      · simp only [Function.update_apply]
        by_cases hp : a = p
        · subst hp
          rw [if_neg (by omega), if_pos rfl, if_pos (by omega), Nat.sub_self, Nat.add_zero]
        · by_cases ha : p + 1 ≤ a ∧ a < p + 1 + strnlen src n (j + 1)
          · rw [if_pos ha, if_pos (by omega)]
            congr 1
            omega
          · rw [if_neg ha, if_neg hp, if_neg (by omega)]
      · show p + 1 + strnlen src n (j + 1) = p + (strnlen src n (j + 1) + 1)
        omega
      · rfl

/-- **What `strncat` does**: the characters follow the string, and a NUL stands one place behind
the one where it belongs. -/
theorem strncat_eq (hn : 0 < n) (mem src : Bytes) :
    strncat mem src n =
      (fun a => if a = strlen mem 0 + strnlen src n 0 + 1 then 0
        else if strlen mem 0 ≤ a ∧ a < strlen mem 0 + strnlen src n 0 then src (a - strlen mem 0)
        else mem a,
      List.range' (strlen mem 0) (strnlen src n 0) ++ [strlen mem 0 + strnlen src n 0 + 1]) := by
  rw [strncat, if_neg (by omega), strncatLoop_eq]
  refine Prod.ext (funext fun a => ?_) rfl
  simp only [Function.update_apply, Nat.zero_add]

/-! ## §3 The bounded append -/

/-- A call with two strings and room for a character at least. -/
structure StrncatCall where
  mem : Bytes
  src : Bytes
  d : List UInt8
  s : List UInt8
  n : Nat
  dest_at : StringAt mem 0 d
  src_at : StringAt src 0 s
  d_lt : d.length < 2 ^ 32
  pos : 0 < n

namespace StrncatCall

variable (c : StrncatCall)

/-- The string that the call is for. -/
def expected : List UInt8 := c.d ++ c.s.take c.n

/-- It stands at the destination with its NUL. -/
def Leaves : Prop := StringAt (strncat c.mem c.src c.n).1 0 c.expected

/-- Nothing behind its NUL is written. -/
def WritesWithin : Prop := ∀ p ∈ (strncat c.mem c.src c.n).2, p ≤ c.expected.length

theorem strnlen_src : strnlen c.src c.n 0 = min c.n c.s.length := by
  rw [strnlen_min c.src c.n (c.s.length + 1), strnlen_stringAt c.s c.src_at (by omega)]

theorem expected_length : c.expected.length = c.d.length + min c.n c.s.length := by
  rw [expected, List.length_append, List.length_take]

theorem strncat_call : strncat c.mem c.src c.n =
    (fun a => if a = c.expected.length + 1 then 0
      else if c.d.length ≤ a ∧ a < c.expected.length then c.src (a - c.d.length) else c.mem a,
    List.range' c.d.length (min c.n c.s.length) ++ [c.expected.length + 1]) := by
  rw [strncat_eq c.pos, strlen_stringAt c.dest_at c.d_lt, c.strnlen_src, c.expected_length]

/-- The string is right exactly if a NUL stood in the right place before the call. -/
theorem leaves_iff : c.Leaves ↔ c.mem c.expected.length = 0 := by
  have hlen := c.expected_length
  have hnul : (strncat c.mem c.src c.n).1 (0 + c.expected.length) = c.mem c.expected.length := by
    rw [c.strncat_call, Nat.zero_add]
    simp only
    rw [if_neg (by omega), if_neg (by omega)]
  constructor
  · intro h
    rw [← hnul]
    exact h.nul
  · intro h
    refine ⟨fun i hi => ?_, hnul.trans h, ?_⟩
    · rw [c.strncat_call, Nat.zero_add]
      simp only
      rw [if_neg (by omega)]
      by_cases hd : c.d.length ≤ i
      · rw [if_pos ⟨hd, hi⟩]
        have hs := c.src_at.bytes (i - c.d.length) (by omega)
        rw [Nat.zero_add] at hs
        rw [hs, expected, List.getD_append_right _ _ _ _ hd,
          List.getD_eq_getElem _ _ (by omega),
          List.getD_eq_getElem _ _ (by rw [List.length_take]; omega), List.getElem_take]
      · have hmem := c.dest_at.bytes i (by omega)
        rw [Nat.zero_add] at hmem
        rw [if_neg (by omega), hmem, expected, List.getD_append _ _ _ _ (by omega)]
    · rw [expected, List.mem_append, not_or]
      exact ⟨c.dest_at.noNul, fun h => c.src_at.noNul (List.mem_of_mem_take h)⟩

/-- A byte behind the NUL is written in every call. -/
theorem not_writesWithin : ¬ c.WritesWithin := by
  intro h
  have hmem : c.expected.length + 1 ∈ (strncat c.mem c.src c.n).2 := by
    rw [c.strncat_call]
    exact List.mem_append_right _ List.mem_cons_self
  have := h _ hmem
  omega

end StrncatCall

end LiloBoot
