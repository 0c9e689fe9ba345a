/-
LiloBoot.Lib.Marker — markers in a list, and patches of a part of it.

A marker whose first element comes in it only once does not overlap itself.
The search looks at the places behind a start, one after the other.
-/
import Mathlib

namespace LiloBoot

variable {α : Type*}

/-! ## §1 Patches -/

/-- The list with `part` in the place of as many elements from `pos` on. -/
def patch (l : List α) (pos : Nat) (part : List α) : List α :=
  l.take pos ++ part ++ l.drop (pos + part.length)

theorem patch_length {l part : List α} {pos : Nat} (h : pos + part.length ≤ l.length) :
    (patch l pos part).length = l.length := by
  simp only [patch, List.length_append, List.length_take, List.length_drop]
  omega

theorem getElem?_patch {l part : List α} {pos : Nat} (h : pos + part.length ≤ l.length) (i : Nat) :
    (patch l pos part)[i]? =
      if pos ≤ i ∧ i < pos + part.length then part[i - pos]? else l[i]? := by
  have htake : (l.take pos).length = pos := by
    rw [List.length_take]
    omega
  rw [patch, List.append_assoc]
  by_cases hlow : i < pos
  · rw [List.getElem?_append_left (by omega), if_neg (by omega), List.getElem?_take, if_pos hlow]
  · rw [List.getElem?_append_right (by omega), htake]
    by_cases hhigh : i < pos + part.length
    · rw [if_pos ⟨by omega, hhigh⟩, List.getElem?_append_left (by omega)]
    · rw [if_neg (by omega), List.getElem?_append_right (by omega), List.getElem?_drop]
      congr 1
      omega

theorem patch_append {l l' part : List α} {pos : Nat} (h : pos + part.length ≤ l.length) :
    patch (l ++ l') pos part = patch l pos part ++ l' := by
  rw [patch, patch, List.take_append_of_le_length (by omega), List.drop_append_of_le_length h,
    List.append_assoc, List.append_assoc, List.append_assoc]

/-! ## §2 Markers -/

/-- The marker stands at `q`. -/
def MarkerAt (marker l : List α) (q : Nat) : Prop := marker <+: l.drop q

instance [DecidableEq α] (marker l : List α) (q : Nat) : Decidable (MarkerAt marker l q) :=
  inferInstanceAs (Decidable (marker <+: l.drop q))

variable {marker l l' : List α} {q q' : Nat}

theorem markerAt_iff : MarkerAt marker l q ↔ ∀ i < marker.length, l[q + i]? = marker[i]? := by
  rw [MarkerAt, List.prefix_iff_getElem?]
  constructor
  · intro h i hi
    rw [← List.getElem?_drop, h i hi, List.getElem?_eq_getElem hi]
  · intro h i hi
    rw [List.getElem?_drop, h i hi, List.getElem?_eq_getElem hi]

/-- Only the places of the marker matter. -/
theorem markerAt_congr (h : ∀ i, q ≤ i → i < q + marker.length → l[i]? = l'[i]?) :
    MarkerAt marker l q ↔ MarkerAt marker l' q := by
  rw [markerAt_iff, markerAt_iff]
  refine forall₂_congr fun i hi => ?_
  rw [h (q + i) (Nat.le_add_right _ _) (by omega)]

/-- A marker that begins with an element it has no second time does not
    overlap itself. -/
theorem markerAt_apart {c : α} {rest : List α} (hc : c ∉ rest) (hq : MarkerAt (c :: rest) l q)
    (hq' : MarkerAt (c :: rest) l q') (hlt : q < q') : q + (c :: rest).length ≤ q' := by
  by_contra hover
  obtain ⟨k, rfl⟩ := Nat.exists_eq_add_of_lt hlt
  have hfirst := markerAt_iff.mp hq' 0 (by simp)
  have hinner := markerAt_iff.mp hq (k + 1) (by omega)
  rw [Nat.add_zero, Nat.add_assoc] at hfirst
  rw [hfirst, List.getElem?_cons_zero, List.getElem?_cons_succ] at hinner
  exact hc (List.mem_of_getElem? hinner.symm)

theorem markerAt_append {part : List α} (h : MarkerAt marker l q)
    (hpart : MarkerAt part l (q + marker.length)) : MarkerAt (marker ++ part) l q := by
  rw [markerAt_iff] at *
  intro i hi
  rw [List.length_append] at hi
  by_cases hlow : i < marker.length
  · rw [h i hlow, List.getElem?_append_left hlow]
  · rw [List.getElem?_append_right (by omega), ← hpart (i - marker.length) (by omega)]
    congr 1
    omega

theorem markerAt_patch {part : List α} {pos : Nat} (h : pos + part.length ≤ l.length) :
    MarkerAt part (patch l pos part) pos := by
  rw [markerAt_iff]
  intro i hi
  rw [getElem?_patch h, if_pos (by omega), Nat.add_sub_cancel_left]

/-- Two writes to places of their own. -/
def Apart (v w : Nat × List α) : Prop := v.1 + v.2.length ≤ w.1 ∨ w.1 + w.2.length ≤ v.1

/-- The list after writes, each a place and what is written there. -/
def patches (l : List α) (ws : List (Nat × List α)) : List α :=
  ws.foldl (fun l w => patch l w.1 w.2) l

/-- **Writes to places of their own.** All of them are found in the end, and
    nothing else has changed. -/
theorem patches_apart {ws : List (Nat × List α)} (hin : ∀ w ∈ ws, w.1 + w.2.length ≤ l.length)
    (hapart : ws.Pairwise Apart) :
    (patches l ws).length = l.length ∧ (∀ w ∈ ws, MarkerAt w.2 (patches l ws) w.1) ∧
      ∀ i, (∀ w ∈ ws, i < w.1 ∨ w.1 + w.2.length ≤ i) → (patches l ws)[i]? = l[i]? := by
  induction ws generalizing l with
  | nil => exact ⟨rfl, fun w hw => (by cases hw), fun _ _ => rfl⟩
  | cons w ws ih =>
    rw [List.pairwise_cons] at hapart
    have hw := hin w List.mem_cons_self
    obtain ⟨hlen, hfound, hrest⟩ := ih (l := patch l w.1 w.2)
      (fun v hv => by rw [patch_length hw]; exact hin v (List.mem_cons_of_mem _ hv)) hapart.2
    refine ⟨hlen.trans (patch_length hw), fun v hv => ?_, fun i hi => ?_⟩
    · rcases List.mem_cons.mp hv with rfl | hv
      · refine (markerAt_congr fun i hlow hhigh => hrest i fun u hu => ?_).mpr (markerAt_patch hw)
        rcases hapart.1 u hu with h | h
        · exact Or.inl (by omega)
        · exact Or.inr (by omega)
      · exact hfound v hv
    · refine (hrest i fun u hu => hi u (List.mem_cons_of_mem _ hu)).trans ?_
      rw [getElem?_patch hw, if_neg]
      have := hi w List.mem_cons_self
      omega

/-! ## §3 The search -/

/-- The first place behind `s` where the marker stands, among the next `n`. -/
def findMarker [DecidableEq α] (marker l : List α) : Nat → Nat → Option Nat
  | 0, _ => none
  | n + 1, s => if MarkerAt marker l (s + 1) then some (s + 1) else findMarker marker l n (s + 1)

theorem findMarker_eq_some_iff [DecidableEq α] {n s : Nat} :
    findMarker marker l n s = some q ↔
      s < q ∧ q ≤ s + n ∧ MarkerAt marker l q ∧ ∀ i, s < i → i < q → ¬ MarkerAt marker l i := by
  induction n generalizing s with
  | zero =>
    simp only [findMarker, reduceCtorEq, false_iff]
    omega
  | succ n ih =>
    rw [findMarker]
    by_cases h : MarkerAt marker l (s + 1)
    · rw [if_pos h, Option.some.injEq]
      constructor
      · rintro rfl
        exact ⟨Nat.lt_succ_self s, by omega, h, fun i hs hi => absurd hi (by omega)⟩
      · rintro ⟨hs, -, -, hfirst⟩
        by_contra hne
        exact hfirst (s + 1) (Nat.lt_succ_self s) (by omega) h
    · rw [if_neg h, ih]
      constructor
      · rintro ⟨hs, hn, hq, hfirst⟩
        refine ⟨by omega, by omega, hq, fun i hi hiq => ?_⟩
        rcases Nat.lt_or_eq_of_le (Nat.succ_le_of_lt hi) with hlt | rfl
        · exact hfirst i hlt hiq
        · exact h
      · rintro ⟨hs, hn, hq, hfirst⟩
        have hne : q ≠ s + 1 := fun heq => h (heq ▸ hq)
        exact ⟨by omega, by omega, hq, fun i hi => hfirst i (by omega)⟩

end LiloBoot
