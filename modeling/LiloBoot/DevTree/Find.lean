/-
LiloBoot.DevTree.Find — what it is to find a node by a path.

The components of a path are what stands between its slashes; the chain of a
node from another one is the nodes on the way down. `FirstMatch` is the first
node whose chain has the names of the path. Behind that come the lemmas about
the path as `ft_find_descendent` reads it.
-/
import LiloBoot.DevTree.CallTheorems

namespace LiloBoot.DevTree

open LiloBoot.Memory

/-! ## §1 Paths and chains -/

/-- The components of a path; repeated slashes make none. -/
def components (path : List UInt8) : List (List UInt8) := (path.splitOn 47).filter (· ≠ [])

/-- A component names a node: the whole name, or what stands before an `@`. -/
def Names (comp name : List UInt8) : Prop := name = comp ∨ comp ++ [64] <+: name

instance (comp name : List UInt8) : Decidable (Names comp name) :=
  inferInstanceAs (Decidable (_ ∨ _))

/-- The nodes on the way from `i` down to `j`, without `i` and with `j`. -/
def chain (toks : List Tok) (i j : Nat) : List Nat :=
  ((j :: enclosing toks j).takeWhile (· ≠ i)).reverse

/-- Node `j` is `i` or in it, and the names of the chain are those of the path. -/
structure Matches (toks : List Tok) (path : List UInt8) (i j : Nat) : Prop where
  node : ∃ n, IsNode toks j n
  inside : i ∈ j :: enclosing toks j
  names : ∃ ns, List.Forall₂ (IsNode toks) (chain toks i j) ns ∧
    List.Forall₂ Names (components path) ns

/-- The first node that matches, in the order of the atoms. -/
def FirstMatch (toks : List Tok) (path : List UInt8) (i : Nat) : Option Nat → Prop
  | none => ∀ j, ¬ Matches toks path i j
  | some j => Matches toks path i j ∧ ∀ k < j, ¬ Matches toks path i k

/-- A context that holds a tree, not as deep as the arrays are long, whose nodes
    have names without slashes. -/
structure HeldTree where
  cxt : FtCxt
  toks : List Tok
  holds : HoldsTree cxt toks
  space : (cxt.rgn .struct).stop < 2 ^ 32
  depth : ∀ {j n}, IsNode toks j n → (enclosing toks j).length < ftMaxDepth
  slashes : ∀ {j n}, IsNode toks j n → 47 ∉ n

/-- The address of atom `i`. -/
def HeldTree.addr (t : HeldTree) (i : Nat) : Nat := (t.cxt.rgn .struct).start + offsetOf t.toks i

/-! ## §2 Components -/

/-- The place of component `t` of a path. -/
def compPos (path : List UInt8) : Nat → Nat
  | 0 => skipSlashes path 0
  | t + 1 => skipSlashes path (compPos path t + componentLength path (compPos path t))

variable {path : List UInt8} {p t : Nat}

theorem drop_takeWhile {α : Type} (q : α → Bool) (l : List α) :
    l.drop (l.takeWhile q).length = l.dropWhile q := by
  have happend := List.takeWhile_append_dropWhile (p := q) (l := l)
  calc l.drop (l.takeWhile q).length
      = (l.takeWhile q ++ l.dropWhile q).drop (l.takeWhile q).length := by rw [happend]
    _ = l.dropWhile q := List.drop_left

theorem drop_skipSlashes (path : List UInt8) (p : Nat) :
    path.drop (skipSlashes path p) = (path.drop p).dropWhile (· = 47) := by
  rw [skipSlashes, ← List.drop_drop, drop_takeWhile]

theorem drop_componentLength (path : List UInt8) (p : Nat) :
    path.drop (p + componentLength path p) = (path.drop p).dropWhile (· ≠ 47) := by
  rw [componentLength, ← List.drop_drop, drop_takeWhile]

theorem components_slash (path : List UInt8) : components (47 :: path) = components path := by
  rw [components, List.splitOn_cons_eq_if_modifyHead, if_pos (by decide), components,
    List.filter_cons_of_neg (by decide)]

theorem components_slashes (path : List UInt8) :
    components (path.dropWhile (· = 47)) = components path := by
  induction path with
  | nil => rfl
  | cons c path ih =>
    by_cases hc : c = 47
    · rw [List.dropWhile_cons_of_pos (by simpa using hc), ih, hc, components_slash]
    · rw [List.dropWhile_cons_of_neg (by simpa using hc)]

/-- A path that does not begin with a slash begins with a component. -/
theorem components_first {c : UInt8} (hc : c ≠ 47) (path : List UInt8) :
    components (c :: path) = (c :: path).takeWhile (· ≠ 47) ::
      components ((c :: path).dropWhile (· ≠ 47)) := by
  have hne : (c :: path).takeWhile (· ≠ 47) ≠ [] := by
    rw [List.takeWhile_cons_of_pos (by simpa using hc)]
    exact List.cons_ne_nil _ _
  have hno : 47 ∉ (c :: path).takeWhile (· ≠ 47) := by
    intro hmem
    have hof := List.mem_takeWhile_imp hmem
    simp at hof
  have happend := List.takeWhile_append_dropWhile (p := (· ≠ 47)) (l := c :: path)
  generalize (c :: path).takeWhile (· ≠ 47) = comp at hne hno happend ⊢
  cases hrest : (c :: path).dropWhile (· ≠ 47) with
  | nil =>
    rw [hrest, List.append_nil] at happend
    rw [← happend, components, List.splitOn_eq_singleton hno,
      List.filter_cons_of_pos (by simpa using hne)]
    rfl
  | cons d rest =>
    obtain rfl : d = 47 := by
      have hhead := List.head?_dropWhile_not (· ≠ 47) (c :: path)
      rw [hrest] at hhead
      simpa using hhead
    rw [hrest] at happend
    rw [← happend, components_slash, components, List.splitOn_append_cons_self_of_not_mem hno,
      List.filter_cons_of_pos (by simpa using hne)]
    rfl

/-- Behind the place of a component are the components from it on, and no
    slash first. -/
theorem components_compPos (path : List UInt8) (t : Nat) :
    components (path.drop (compPos path t)) = (components path).drop t ∧
      ∀ c ∈ (path.drop (compPos path t)).head?, c ≠ 47 := by
  have hhead : ∀ p, ∀ c ∈ (path.drop (skipSlashes path p)).head?, c ≠ 47 := by
    intro p c hc
    have hnot := List.head?_dropWhile_not (· = 47) (path.drop p)
    rw [drop_skipSlashes] at hc
    rw [Option.mem_def] at hc
    rw [hc] at hnot
    simpa using hnot
  induction t with
  | zero =>
    rw [compPos, drop_skipSlashes, components_slashes, List.drop_zero, List.drop_zero]
    rw [← List.drop_zero (l := path), ← drop_skipSlashes]
    exact ⟨rfl, hhead 0⟩
  | succ t ih =>
    refine ⟨?_, hhead _⟩
    rw [compPos, drop_skipSlashes, components_slashes, drop_componentLength, ← List.tail_drop,
      ← ih.1]
    cases hu : path.drop (compPos path t) with
    | nil => rfl
    | cons c u =>
      rw [components_first (ih.2 c (by rw [hu]; rfl)), List.tail_cons]

/-- The component at its place. -/
theorem component_at (ht : t < (components path).length) :
    compPos path t < path.length ∧ 0 < componentLength path (compPos path t) ∧
      (components path)[t]? = some ((path.drop (compPos path t)).takeWhile (· ≠ 47)) := by
  obtain ⟨hcomps, hhead⟩ := components_compPos path t
  have hlt : compPos path t < path.length := by
    by_contra hge
    rw [List.drop_eq_nil_of_le (by omega)] at hcomps
    have hnil : (components path).drop t = [] := hcomps.symm
    rw [List.drop_eq_nil_iff] at hnil
    omega
  cases hu : path.drop (compPos path t) with
  | nil =>
    rw [List.drop_eq_nil_iff] at hu
    omega
  | cons c u =>
    have hc : c ≠ 47 := hhead c (by rw [hu]; rfl)
    refine ⟨hlt, ?_, ?_⟩
    · rw [componentLength, hu, List.takeWhile_cons_of_pos (by simpa using hc), List.length_cons]
      exact Nat.succ_pos _
    · rw [hu, components_first hc] at hcomps
      have hget := congrArg List.head? hcomps
      rw [List.head?_cons, List.head?_drop] at hget
      exact hget.symm

/-- The end of a path is where there is no component more. -/
theorem compPos_end (hno : 0 ∉ path) :
    path.getD (compPos path t) 0 = 0 ↔ (components path).length ≤ t := by
  constructor
  · intro hzero
    by_contra hlt
    obtain ⟨hin, -, -⟩ := component_at (Nat.lt_of_not_le hlt)
    rw [List.getD_eq_getElem _ _ hin] at hzero
    exact hno (by rw [← hzero]; exact List.getElem_mem _)
  · intro hle
    obtain ⟨hcomps, hhead⟩ := components_compPos path t
    rw [List.drop_eq_nil_of_le hle] at hcomps
    have hge : path.length ≤ compPos path t := by
      by_contra hlt
      cases hu : path.drop (compPos path t) with
      | nil =>
        rw [List.drop_eq_nil_iff] at hu
        omega
      | cons c u =>
        rw [hu, components_first (hhead c (by rw [hu]; rfl))] at hcomps
        cases hcomps
    rw [List.getD_eq_getElem?_getD, List.getElem?_eq_none hge]
    rfl

/-! ## §3 Going back -/

theorem dropSlashes_eq {q cl k : Nat} (hcl : 0 < cl) (hlast : path.getD (q + (cl - 1)) 0 ≠ 47)
    (hslash : ∀ j < k, path.getD (q + cl + j) 0 = 47) : dropSlashes path q (cl + k) = cl := by
  induction k with
  | zero =>
    obtain ⟨n, rfl⟩ : ∃ n, cl = n + 1 := ⟨cl - 1, by omega⟩
    rw [Nat.add_zero, dropSlashes, if_neg (by rwa [Nat.add_sub_cancel] at hlast)]
  | succ k ih =>
    rw [← Nat.add_assoc, dropSlashes, ← Nat.add_assoc, if_pos (hslash k (Nat.lt_succ_self k))]
    exact ih fun j hj => hslash j (Nat.lt_succ_of_lt hj)

theorem getD_of_takeWhile {q : UInt8 → Bool} {l : List UInt8} {j : Nat}
    (hj : j < (l.takeWhile q).length) : q (l.getD j 0) = true := by
  have hin : j < l.length := lt_of_lt_of_le hj (List.takeWhile_prefix q).length_le
  have heq := (List.takeWhile_prefix q (l := l)).getElem hj
  rw [List.getD_eq_getElem _ _ hin, ← heq]
  exact List.mem_takeWhile_imp (List.getElem_mem hj)

/-- From the component behind it the length of a component is found again. -/
theorem dropSlashes_compPos (ht : t + 1 < (components path).length) :
    dropSlashes path (compPos path t) (compPos path (t + 1) - compPos path t - 1) =
      componentLength path (compPos path t) := by
  obtain ⟨-, hpos, -⟩ := @component_at path t (by omega)
  obtain ⟨hnext, -, -⟩ := component_at ht
  have hplace : compPos path (t + 1) = compPos path t + componentLength path (compPos path t) +
      ((path.drop (compPos path t + componentLength path (compPos path t))).takeWhile
        (· = 47)).length := by
    rw [compPos, skipSlashes]
  -- the component ends with a slash, as another one follows
  have hslash : 0 < ((path.drop (compPos path t + componentLength path (compPos path t))).takeWhile
      (· = 47)).length := by
    cases hv : path.drop (compPos path t + componentLength path (compPos path t)) with
    | nil =>
      rw [hv] at hplace
      rw [List.drop_eq_nil_iff] at hv
      simp only [List.takeWhile_nil, List.length_nil, Nat.add_zero] at hplace
      omega
    | cons d v =>
      have hnot := List.head?_dropWhile_not (· ≠ 47) (path.drop (compPos path t))
      rw [← drop_componentLength, hv] at hnot
      obtain rfl : d = 47 := by simpa using hnot
      rw [List.takeWhile_cons_of_pos (by decide), List.length_cons]
      exact Nat.succ_pos _
  rw [hplace, show ∀ a b c : Nat, 0 < c → a + b + c - a - 1 = b + (c - 1) by omega]
  · refine dropSlashes_eq hpos ?_ fun j hj => ?_
    · have hat := @getD_of_takeWhile (· ≠ 47) (path.drop (compPos path t))
        (componentLength path (compPos path t) - 1) (by rw [componentLength] at hpos ⊢; omega)
      rw [List.getD_eq_getElem?_getD, List.getElem?_drop, ← List.getD_eq_getElem?_getD] at hat
      simpa using hat
    · have hat := @getD_of_takeWhile (· = 47)
        (path.drop (compPos path t + componentLength path (compPos path t))) j (by omega)
      rw [List.getD_eq_getElem?_getD, List.getElem?_drop, ← List.getD_eq_getElem?_getD] at hat
      simpa using hat
  · exact hslash

end LiloBoot.DevTree
