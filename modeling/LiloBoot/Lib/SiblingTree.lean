/-
LiloBoot.Lib.SiblingTree — trees by first child and next sibling.

The walk visits a node, then its first child's level, then its next sibling,
and a visit may leave the rest of its own level out. As long as nothing is
left out the walk is the fold over the nodes in preorder.
-/
import Mathlib

namespace LiloBoot

/-- A level of a tree: a node, the level below it and the rest of its own. -/
inductive SiblingTree (α : Type*) where
  | none
  | node (a : α) (child peer : SiblingTree α)

namespace SiblingTree

variable {α σ ε : Type*}

def preorder : SiblingTree α → List α
  | none => []
  | node a child peer => a :: (child.preorder ++ peer.preorder)

/-- The walk; a visit that returns `true` leaves its level. -/
def walk (visit : σ → α → Except ε (σ × Bool)) : SiblingTree α → σ → Except ε σ
  | none, s => .ok s
  | node a child peer, s =>
    match visit s a with
    | .error e => .error e
    | .ok (s₁, true) => .ok s₁
    | .ok (s₁, false) =>
      match child.walk visit s₁ with
      | .error e => .error e
      | .ok s₂ => peer.walk visit s₂

/-- The visits of a list of nodes, one after the other. -/
def visits (visit : σ → α → Except ε (σ × Bool)) : List α → σ → Except ε σ
  | [], s => .ok s
  | a :: l, s =>
    match visit s a with
    | .error e => .error e
    | .ok (s₁, _) => visits visit l s₁

variable {visit : σ → α → Except ε (σ × Bool)} {inv full : σ → Prop}

theorem visits_append (l₁ l₂ : List α) (s : σ) :
    visits visit (l₁ ++ l₂) s =
      match visits visit l₁ s with
      | .error e => .error e
      | .ok s₁ => visits visit l₂ s₁ := by
  induction l₁ generalizing s with
  | nil => rfl
  | cons a l₁ ih =>
    simp only [List.cons_append, visits]
    cases visit s a with
    | error e => rfl
    | ok r => exact ih r.1

/-- What every visit keeps the walk keeps. -/
theorem walk_invariant (hvisit : ∀ s a s' leave, inv s → visit s a = .ok (s', leave) → inv s')
    {t : SiblingTree α} {s s' : σ} (hs : inv s) (h : t.walk visit s = .ok s') : inv s' := by
  induction t generalizing s s' with
  | none =>
    simp only [walk, Except.ok.injEq] at h
    exact h ▸ hs
  | node a child peer ihc ihp =>
    rw [walk] at h
    split at h
    · cases h
    next s₁ hv =>
      cases h
      exact hvisit _ _ _ _ hs hv
    next s₁ hv =>
      split at h
      · cases h
      next s₂ hc => exact ihp (ihc (hvisit _ _ _ _ hs hv) hc) h

theorem visits_invariant (hvisit : ∀ s a s' leave, inv s → visit s a = .ok (s', leave) → inv s')
    {l : List α} {s s' : σ} (hs : inv s) (h : visits visit l s = .ok s') : inv s' := by
  induction l generalizing s with
  | nil =>
    simp only [visits, Except.ok.injEq] at h
    exact h ▸ hs
  | cons a l ih =>
    rw [visits] at h
    split at h
    · cases h
    next s₁ leave hv => exact ih (hvisit _ _ _ _ hs hv) h

/-- **A walk that leaves nothing out.** Where a level is left only when the
    state is full, a walk that does not fill it visits the whole preorder. -/
theorem walk_visits (hstay : ∀ s a s' leave, full s → visit s a = .ok (s', leave) → full s')
    (hleave : ∀ s a s', visit s a = .ok (s', true) → full s') {t : SiblingTree α} {s s' : σ}
    (h : t.walk visit s = .ok s') (hs' : ¬ full s') : visits visit t.preorder s = .ok s' := by
  induction t generalizing s s' with
  | none => simpa [walk, preorder, visits] using h
  | node a child peer ihc ihp =>
    rw [walk] at h
    split at h
    · cases h
    next s₁ hv =>
      cases h
      exact absurd (hleave _ _ _ hv) hs'
    next s₁ hv =>
      split at h
      · cases h
      next s₂ hc =>
        have hs₂ : ¬ full s₂ := fun hf => hs' (walk_invariant hstay hf h)
        simp only [preorder, visits, hv, visits_append, ihc hc hs₂]
        exact ihp h hs'

/-- The visits of the preorder are the walk, unless they fill the state. -/
theorem visits_walk (hstay : ∀ s a s' leave, full s → visit s a = .ok (s', leave) → full s')
    (hleave : ∀ s a s', visit s a = .ok (s', true) → full s') {t : SiblingTree α} {s s' : σ}
    (h : visits visit t.preorder s = .ok s') (hs' : ¬ full s') : t.walk visit s = .ok s' := by
  induction t generalizing s s' with
  | none => simpa [walk, preorder, visits] using h
  | node a child peer ihc ihp =>
    rw [preorder, visits] at h
    split at h
    · cases h
    next s₁ leave hv =>
      have hnot : leave = false := by
        cases leave with
        | false => rfl
        | true => exact absurd (visits_invariant hstay (hleave _ _ _ hv) h) hs'
      subst hnot
      rw [visits_append] at h
      split at h
      · cases h
      next s₂ hc =>
        have hs₂ : ¬ full s₂ := fun hf => hs' (visits_invariant hstay hf h)
        simp only [walk, hv, ihc hc hs₂]
        exact ihp h hs'

end SiblingTree

end LiloBoot
