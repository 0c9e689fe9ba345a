/-
LiloBoot.Boot.ManualConfigTheorems — the last `conf=` counts.

The loop goes from one occurrence to the next, so it stops behind the last one,
in `c1` or in `c2` as their number is odd or even. No occurrence overlaps
another, so none is stepped over.
-/
import LiloBoot.Boot.ManualConfig

namespace LiloBoot.Boot

/-! ## §1 `strstr` -/

variable {s needle t file bootargs : CStr}

theorem strstr_some (h : strstr s needle = some t) : ∃ pre, s = pre ++ t ∧ needle <+: t := by
  have hmem := List.mem_of_find?_eq_some h
  have hprefix := List.find?_some h
  rw [List.mem_tails] at hmem
  obtain ⟨pre, hpre⟩ := hmem
  exact ⟨pre, hpre.symm, List.isPrefixOf_iff_prefix.mp hprefix⟩

theorem strstr_none : strstr s needle = none ↔ ¬ needle <:+: s := by
  rw [strstr, List.find?_eq_none]
  constructor
  · intro h hinfix
    obtain ⟨pre, post, hs⟩ := hinfix
    rw [List.append_assoc] at hs
    refine h (needle ++ post) ((List.mem_tails _ _).mpr ⟨pre, hs⟩) ?_
    exact List.isPrefixOf_iff_prefix.mpr (List.prefix_append needle post)
  · intro h u hu hprefix
    rw [List.mem_tails] at hu
    exact h ((List.isPrefixOf_iff_prefix.mp hprefix).isInfix.trans hu.isInfix)

/-! ## §2 The last occurrence -/

/-- The last `conf=` stands between `pre` and `post`. -/
def LastToken (bootargs pre post : CStr) : Prop :=
  bootargs = pre ++ confToken ++ post
    ∧ ∀ pre' post', bootargs = pre' ++ confToken ++ post' → pre'.length ≤ pre.length

/-- Only the first character of the token is a `c`. -/
theorem confToken_getElem {j : Nat} (h : confToken[j]? = some 'c') : j = 0 := by
  have hlt := (List.getElem?_eq_some_iff.mp h).1
  have hall : ∀ j < 5, confToken[j]? = some 'c' → j = 0 := by decide
  exact hall j hlt h

/-- Without another occurrence behind it, an occurrence is the last: none overlaps it. -/
theorem lastToken_of_none_behind {pre post : CStr} (hsplit : bootargs = pre ++ confToken ++ post)
    (hnone : ¬ confToken <:+: post) : LastToken bootargs pre post := by
  refine ⟨hsplit, fun pre' post' hsplit' => ?_⟩
  by_contra hlt
  rw [Nat.not_le] at hlt
  have hlength : confToken.length = 5 := rfl
  rcases Nat.lt_or_ge pre'.length (pre.length + 5) with hnear | hfar
  · have hc : bootargs[pre'.length]? = some 'c' := by
      rw [hsplit', List.append_assoc, List.getElem?_append_right (Nat.le_refl _), Nat.sub_self]
      rfl
    rw [hsplit, List.append_assoc, List.getElem?_append_right (Nat.le_of_lt hlt),
      List.getElem?_append_left (by omega)] at hc
    have hzero := confToken_getElem hc
    omega
  · refine hnone ⟨pre'.drop (pre.length + 5), post', ?_⟩
    have hpost : bootargs.drop (pre.length + 5) = post := by
      rw [hsplit, ← hlength, ← List.length_append, List.drop_left]
    rw [← hpost, hsplit', List.append_assoc pre', List.drop_append_of_le_length hfar,
      List.append_assoc]

theorem LastToken.unique {pre post pre' post' : CStr} (h : LastToken bootargs pre post)
    (h' : LastToken bootargs pre' post') : pre = pre' ∧ post = post' := by
  have hlen : pre.length = pre'.length := by
    have hle := h.2 _ _ h'.1
    have hge := h'.2 _ _ h.1
    omega
  have hsplit := h.1.symm.trans h'.1
  rw [List.append_assoc, List.append_assoc] at hsplit
  obtain ⟨hpre, hrest⟩ := List.append_inj hsplit hlen
  exact ⟨hpre, List.append_cancel_left hrest⟩

/-- **The loop** stops behind the last occurrence. -/
theorem confLoop_spec (fuel : Nat) : ∀ {c1 : CStr}, confToken <+: c1 → c1.length ≤ fuel →
    ∃ pre, c1 = pre ++ confToken ++ loopEnd (confLoop fuel c1)
      ∧ ¬ confToken <:+: loopEnd (confLoop fuel c1) := by
  induction fuel with
  | zero =>
    intro c1 hprefix hfuel
    have hlength := hprefix.length_le
    rw [confToken] at hlength
    simp only [List.length_cons, List.length_nil] at hlength
    omega
  | succ fuel ih =>
    intro c1 hprefix hfuel
    obtain ⟨rest, rfl⟩ := hprefix
    have hdrop : (confToken ++ rest).drop confToken.length = rest := List.drop_left
    rw [confLoop]
    simp only [hdrop]
    cases hsecond : strstr rest confToken with
    | none => exact ⟨[], rfl, strstr_none.mp hsecond⟩
    | some c2 =>
      obtain ⟨pre₂, rfl, rest₂, rfl⟩ := strstr_some hsecond
      have hdrop₂ : (confToken ++ rest₂).drop confToken.length = rest₂ := List.drop_left
      simp only [hdrop₂]
      cases hthird : strstr rest₂ confToken with
      | none =>
        refine ⟨confToken ++ pre₂, ?_, strstr_none.mp hthird⟩
        show _ = _ ++ _ ++ rest₂
        simp only [List.append_assoc]
      | some c1' =>
        obtain ⟨pre₃, rfl, hprefix₃⟩ := strstr_some hthird
        simp only [List.length_append] at hfuel
        obtain ⟨pre, hpre, hnone⟩ := @ih c1' hprefix₃
          (by rw [confToken] at hfuel; simp only [List.length_cons] at hfuel; omega)
        refine ⟨confToken ++ pre₂ ++ confToken ++ pre₃ ++ pre, ?_, hnone⟩
        simp only [List.append_assoc] at hpre ⊢
        rw [← hpre]

/-! ## §3 The result -/

/-- The name at the start of `post`. -/
def confName (post : CStr) : CStr := post.takeWhile (· ≠ ' ')

/-- The memory of `post` with a NUL for the first space. -/
def endName (post : CStr) : List Char := confName post ++ (post.dropWhile (· ≠ ' ')).set 0 nul

theorem set_space (pre post : CStr) :
    (if pre.length + (confName post).length < (pre ++ post).length then
      (pre ++ post).set (pre.length + (confName post).length) nul else pre ++ post)
        = pre ++ endName post := by
  have hsplit : confName post ++ post.dropWhile (· ≠ ' ') = post := List.takeWhile_append_dropWhile
  have hset : (pre ++ post).set (pre.length + (confName post).length) nul = pre ++ endName post := by
    rw [List.set_append_right _ _ (Nat.le_add_right _ _), Nat.add_sub_cancel_left, endName]
    congr 1
    obtain ⟨name, hname⟩ : ∃ name, name = confName post := ⟨_, rfl⟩
    rw [← hname] at hsplit ⊢
    conv => lhs; rw [← hsplit]
    rw [List.set_append_right _ _ (Nat.le_refl _), Nat.sub_self]
  split
  · exact hset
  · rename_i hend
    rw [← hset, List.set_eq_of_length_le (Nat.le_of_not_lt hend)]

/-- Up to the first NUL there is the name. -/
theorem stringAt_endName {pre post : CStr} (hnul : nul ∉ post) :
    stringAt (pre ++ endName post) pre.length = confName post := by
  rw [stringAt, List.drop_left, endName]
  have hname : ∀ c ∈ confName post, decide (c ≠ nul) = true := by
    intro c hc
    refine decide_eq_true fun hc' => hnul ?_
    rw [← hc']
    exact (List.takeWhile_sublist _).subset hc
  rw [List.takeWhile_append_of_pos hname]
  cases post.dropWhile (· ≠ ' ') with
  | nil => exact List.append_nil _
  | cons c rest =>
    rw [List.set_cons_zero, List.takeWhile_cons_of_neg (by decide), List.append_nil]

/-- **The configuration file in the boot arguments** is named behind the last `conf=`, up to the
next space or the end, and that space is all that is changed. -/
theorem checkManualConfigFilepath_last (bootargs : CStr) (hnul : nul ∉ bootargs) :
    (¬ confToken <:+: bootargs → checkManualConfigFilepath bootargs = (none, bootargs))
      ∧ ∀ pre post, LastToken bootargs pre post → checkManualConfigFilepath bootargs
        = (if confName post = [] then none else some (confName post),
          pre ++ confToken ++ endName post) := by
  constructor
  · intro hnone
    rw [checkManualConfigFilepath, strstr_none.mpr hnone]
  · intro pre post hlast
    rw [checkManualConfigFilepath]
    cases hfirst : strstr bootargs confToken with
    | none =>
      exact absurd ⟨pre, post, hlast.1.symm⟩ (strstr_none.mp hfirst)
    | some c1 =>
      obtain ⟨pre₁, hpre₁, hprefix⟩ := strstr_some hfirst
      have hlength := congrArg List.length hpre₁
      rw [List.length_append] at hlength
      obtain ⟨pre₂, hpre₂, hnone⟩ := confLoop_spec bootargs.length hprefix (by omega)
      obtain ⟨file, hfile⟩ : ∃ file, file = loopEnd (confLoop bootargs.length c1) := ⟨_, rfl⟩
      rw [← hfile] at hpre₂ hnone
      have hsplit : bootargs = pre₁ ++ pre₂ ++ confToken ++ file := by
        rw [hpre₁, hpre₂]
        simp only [List.append_assoc]
      obtain ⟨hpre, hpost⟩ := hlast.unique (lastToken_of_none_behind hsplit hnone)
      subst hpost
      have hbootargs := hlast.1
      have hstart : bootargs.length - post.length = (pre ++ confToken).length := by
        rw [hbootargs, List.length_append, Nat.add_sub_cancel]
      have hmemory := set_space (pre ++ confToken) post
      rw [← hbootargs] at hmemory
      have hpostnul : nul ∉ post := by
        rw [hbootargs] at hnul
        exact fun h => hnul (List.mem_append_right _ h)
      have hstring := @stringAt_endName (pre ++ confToken) post hpostnul
      simp only [← hfile, hstart]
      rw [show post.takeWhile (fun c => decide (c ≠ ' ')) = confName post from rfl, hmemory,
        hstring]

/-- Two files are named; the second one counts, and the space behind it is changed. -/
theorem second_conf_counts : '\x00' ∉ "conf=a conf=b c".toList
    ∧ checkManualConfigFilepath "conf=a conf=b c".toList
      = (some ['b'], "conf=a conf=b".toList ++ [nul, 'c']) := by
  have hnone : ¬ confToken <:+: ['b', ' ', 'c'] := by decide
  have hlast : LastToken "conf=a conf=b c".toList "conf=a ".toList ['b', ' ', 'c'] :=
    lastToken_of_none_behind (by decide) hnone
  exact ⟨by decide, (checkManualConfigFilepath_last _ (by decide)).2 _ _ hlast⟩

end LiloBoot.Boot
