/-
LiloBoot.Lib.CommonPrefix — the longest common prefix of several lists.

It is found one element at a time: a common prefix goes on while all the
lists have the same element behind it, and is the longest where two differ.
-/
import Mathlib.Data.List.Infix

namespace LiloBoot

variable {α : Type} {ls : List (List α)} {p : List α}

/-- A prefix of all the lists. -/
def IsCommonPrefix (ls : List (List α)) (p : List α) : Prop := ∀ l ∈ ls, p <+: l

/-- The common prefix that all the others are prefixes of. -/
structure IsLongestCommonPrefix (ls : List (List α)) (p : List α) : Prop where
  common : IsCommonPrefix ls p
  longest : ∀ q, IsCommonPrefix ls q → q <+: p

theorem IsLongestCommonPrefix.unique {q : List α} (hp : IsLongestCommonPrefix ls p)
    (hq : IsLongestCommonPrefix ls q) : p = q :=
  List.IsPrefix.eq_of_length_le (hq.longest p hp.common) (hp.longest q hq.common).length_le

theorem prefix_snoc {l : List α} {c : α} (h : p <+: l) (hc : l[p.length]? = some c) :
    p ++ [c] <+: l := by
  obtain ⟨t, rfl⟩ := h
  cases t with
  | nil => simp at hc
  | cons d t =>
    obtain rfl : d = c := by simpa using hc
    exact ⟨t, by simp⟩

theorem prefix_snoc_iff {l : List α} {c : α} :
    p ++ [c] <+: l ↔ p <+: l ∧ l[p.length]? = some c := by
  constructor
  · rintro ⟨t, rfl⟩
    exact ⟨⟨c :: t, by simp⟩, by simp⟩
  · rintro ⟨h, hc⟩
    exact prefix_snoc h hc

/-- Where all the lists go on with one element, so does the prefix. -/
theorem IsCommonPrefix.snoc {c : α} (h : IsCommonPrefix ls p)
    (hc : ∀ l ∈ ls, l[p.length]? = some c) : IsCommonPrefix ls (p ++ [c]) :=
  fun l hl => prefix_snoc (h l hl) (hc l hl)

/-- Where two lists go on differently, or one ends, the prefix is the longest. -/
theorem IsCommonPrefix.isLongest (h : IsCommonPrefix ls p) {a b : List α} (ha : a ∈ ls)
    (hb : b ∈ ls) (hdiff : a[p.length]? ≠ b[p.length]?) : IsLongestCommonPrefix ls p := by
  refine ⟨h, fun q hq => ?_⟩
  rcases List.prefix_or_prefix_of_prefix (hq a ha) (h a ha) with hqp | ⟨t, rfl⟩
  · exact hqp
  · cases t with
    | nil => exact ⟨[], by simp⟩
    | cons c t =>
      -- both lists have the element `c` here
      have hnext : ∀ l ∈ ls, l[p.length]? = some c := by
        intro l hl
        obtain ⟨r, rfl⟩ := hq l hl
        simp
      exact absurd ((hnext a ha).trans (hnext b hb).symm) hdiff

/-! ## Computing it -/

section Compute

variable [DecidableEq α]

/-- The common prefix of two lists. -/
def commonPrefix : List α → List α → List α
  | a :: l, b :: r => if a = b then a :: commonPrefix l r else []
  | _, _ => []

/-- The common prefix of several lists, the first given by itself. -/
def commonPrefixes (l : List α) (ls : List (List α)) : List α := ls.foldl commonPrefix l

theorem prefix_commonPrefix_iff {q : List α} : ∀ {l r : List α},
    q <+: commonPrefix l r ↔ q <+: l ∧ q <+: r := by
  induction q with
  | nil => simp
  | cons c q ih =>
    intro l r
    cases l with
    | nil => simp [commonPrefix]
    | cons a l =>
      cases r with
      | nil => simp [commonPrefix]
      | cons b r =>
        rw [commonPrefix]
        by_cases hab : a = b
        · subst hab
          rw [if_pos rfl, List.cons_prefix_cons, List.cons_prefix_cons, List.cons_prefix_cons, ih]
          constructor
          · rintro ⟨rfl, hl, hr⟩
            exact ⟨⟨rfl, hl⟩, rfl, hr⟩
          · rintro ⟨⟨rfl, hl⟩, -, hr⟩
            exact ⟨rfl, hl, hr⟩
        · rw [if_neg hab, List.cons_prefix_cons, List.cons_prefix_cons]
          simp only [List.prefix_nil, reduceCtorEq, false_iff]
          rintro ⟨⟨rfl, -⟩, rfl, -⟩
          exact hab rfl

theorem prefix_commonPrefixes_iff {q : List α} (ls : List (List α)) : ∀ {l : List α},
    q <+: commonPrefixes l ls ↔ IsCommonPrefix (l :: ls) q := by
  induction ls with
  | nil => simp [commonPrefixes, IsCommonPrefix]
  | cons r ls ih =>
    intro l
    have hstep : commonPrefixes l (r :: ls) = commonPrefixes (commonPrefix l r) ls := rfl
    rw [hstep, ih]
    simp only [IsCommonPrefix, List.mem_cons, forall_eq_or_imp, prefix_commonPrefix_iff, and_assoc]

theorem commonPrefixes_longest (l : List α) (ls : List (List α)) :
    IsLongestCommonPrefix (l :: ls) (commonPrefixes l ls) where
  common := (prefix_commonPrefixes_iff ls).mp (List.prefix_refl _)
  longest := fun _ hq => (prefix_commonPrefixes_iff ls).mpr hq

end Compute

end LiloBoot
