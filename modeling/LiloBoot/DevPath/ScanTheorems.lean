/-
LiloBoot.DevPath.ScanTheorems — the option scan, token by token.

A string of options is cut at its commas. `token` says what `parse_options`
makes of one token: it goes on behind the comma, stops, or goes round without
moving. `Passes` is a run over whole tokens, each with its comma, and a scan
is a run and the token it stops at. A scan looks at nothing behind that
token, which is what lets the text behind it be replaced.
-/
import LiloBoot.DevPath.BlockTheorems

namespace LiloBoot.DevPath

/-! ## §1 One token -/

/-- What `parse_options` does at a token. -/
inductive Token where
  | halt (flag len : Nat)
  | advance (flag : Nat)
  | spin
  deriving DecidableEq

/-- The token `b`, followed by a comma or by the end of the string. -/
def token (opts : List DevOption) (stopflag : Nat) (b : CStr) (comma : Bool) : Token :=
  if b.length = 0 ∨ 63 < b.length then .halt 0 0
  else
    match matchOption b opts false with
    | (_, some opt) =>
      if opt.flag &&& stopflag ≠ 0 then .halt opt.flag (opt.name.length + 1)
      else if comma then .advance opt.flag
      else .halt opt.flag 0
    | (found, none) => if found && comma then .spin else .halt 0 0

/-- The first token of a string. -/
def firstToken (opts : List DevOption) (stopflag : Nat) (s : CStr) : Token :=
  token opts stopflag (s.takeWhile (· ≠ ',')) (strchr s ',').isSome

theorem drop_token (b p : CStr) : (b ++ ',' :: p).drop (b.length + 1) = p := by
  rw [← List.drop_drop, List.drop_left]
  rfl

theorem takeWhile_no_comma {b : CStr} (h : ',' ∉ b) : b.takeWhile (· ≠ ',') = b := by
  rw [List.takeWhile_eq_self_iff]
  intro c hc
  simpa using fun heq : c = ',' => h (heq ▸ hc)

@[simp] theorem splitComma_comma {b : CStr} (h : ',' ∉ b) (s : CStr) :
    splitComma (b ++ ',' :: s) = (b, some s) := by
  rw [splitComma, takeWhile_text h, strchr_append h]
  rfl

@[simp] theorem splitComma_none {b : CStr} (h : ',' ∉ b) : splitComma b = (b, none) := by
  rw [splitComma, takeWhile_no_comma h, strchr_eq_none.mpr h]
  rfl

/-- A string is its text up to the first comma and what stands behind it. -/
theorem splitComma_eq (s : CStr) :
    ',' ∉ (splitComma s).1
      ∧ s = (splitComma s).1 ++ ((splitComma s).2.map (',' :: ·)).getD [] := by
  by_cases h : ',' ∈ s
  · obtain ⟨pre, post, rfl, hpre⟩ := List.eq_append_cons_of_mem h
    rw [splitComma_comma hpre]
    exact ⟨hpre, rfl⟩
  · rw [splitComma_none h]
    exact ⟨h, by simp⟩

theorem firstToken_comma (opts : List DevOption) (stopflag : Nat) {b : CStr} (h : ',' ∉ b)
    (s : CStr) : firstToken opts stopflag (b ++ ',' :: s) = token opts stopflag b true := by
  rw [firstToken, takeWhile_text h, strchr_append h]
  rfl

theorem firstToken_none (opts : List DevOption) (stopflag : Nat) {b : CStr} (h : ',' ∉ b) :
    firstToken opts stopflag b = token opts stopflag b false := by
  rw [firstToken, takeWhile_no_comma h, strchr_eq_none.mpr h]
  rfl

/-! ## §2 Runs over tokens -/

/-- The scan goes over the tokens of `c`, each ended by its comma. -/
inductive Passes (opts : List DevOption) (stopflag : Nat) : CStr → Nat → Nat → Prop where
  | nil (flags : Nat) : Passes opts stopflag [] flags flags
  | cons {b c : CStr} {flags flag flags' : Nat} (text : ',' ∉ b)
      (first : token opts stopflag b true = .advance flag)
      (rest : Passes opts stopflag c (flags ||| flag) flags') :
      Passes opts stopflag (b ++ ',' :: c) flags flags'

/-- The scan goes over `c` and stops at the beginning of `t`, `len` characters on. -/
def Scan (opts : List DevOption) (stopflag : Nat) (c t : CStr) (flags flags' len : Nat) : Prop :=
  ∃ mid flag, Passes opts stopflag c flags mid ∧ firstToken opts stopflag t = .halt flag len
    ∧ flags' = mid ||| flag

section Loop

variable {opts : List DevOption} {stopflag : Nat}

/-- The loop by the token it stands at. -/
theorem parseOptionsLoop_succ (fuel : Nat) (s : CStr) (flags len : Nat) :
    parseOptionsLoop opts stopflag (fuel + 1) s flags len =
      match firstToken opts stopflag s with
      | .halt flag n => some (flags ||| flag, len + n)
      | .advance flag =>
        parseOptionsLoop opts stopflag fuel (s.drop ((splitComma s).1.length + 1)) (flags ||| flag)
          (len + (splitComma s).1.length + 1)
      | .spin => parseOptionsLoop opts stopflag fuel s flags len := by
  rw [parseOptionsLoop, firstToken, token]
  simp only [splitComma]
  generalize s.takeWhile (fun c => decide (c ≠ ',')) = b
  by_cases hlen : b.length = 0 ∨ 63 < b.length
  · simp only [hlen, if_true, Nat.or_zero, Nat.add_zero]
  · simp only [hlen, if_false]
    cases hmatch : matchOption b opts false with
    | mk found entry =>
      cases entry with
      | some opt =>
        simp only
        by_cases hstop : opt.flag &&& stopflag ≠ 0
        · rw [if_pos hstop, if_pos hstop]
          rfl
        · rw [if_neg hstop, if_neg hstop]
          cases (strchr s ',').isSome with
          | true => rfl
          | false => rfl
      | none =>
        simp only
        cases hspin : found && (strchr s ',').isSome with
        | true => rfl
        | false => simp only [Bool.false_eq_true, if_false, Nat.or_zero, Nat.add_zero]

theorem token_advance {b : CStr} {comma : Bool} {flag : Nat}
    (h : token opts stopflag b comma = .advance flag) : b ≠ [] ∧ comma = true := by
  rw [token] at h
  split at h
  · cases h
  · rename_i hlen
    refine ⟨fun hnil => hlen (.inl (by rw [hnil]; rfl)), ?_⟩
    split at h
    · split at h
      · cases h
      · cases comma with
        | true => rfl
        | false => cases h
    · split at h
      · cases h
      · cases h

/-- A scan that comes to an end is a run over tokens and a stop. -/
theorem parseOptionsLoop_scan (fuel : Nat) : ∀ s flags len flags' len',
    parseOptionsLoop opts stopflag fuel s flags len = some (flags', len') →
    ∃ c t n, s = c ++ t ∧ Scan opts stopflag c t flags flags' n ∧ len' = len + c.length + n := by
  induction fuel with
  | zero =>
    intro s flags len flags' len' h
    cases h
  | succ fuel ih =>
    intro s flags len flags' len' h
    rw [parseOptionsLoop_succ] at h
    cases hfirst : firstToken opts stopflag s with
    | halt flag n =>
      rw [hfirst] at h
      cases h
      exact ⟨[], s, n, rfl, ⟨flags, flag, .nil flags, hfirst, rfl⟩, rfl⟩
    | advance flag =>
      rw [hfirst] at h
      obtain ⟨htext, hs⟩ := splitComma_eq s
      obtain ⟨hne, hcomma⟩ := token_advance hfirst
      obtain ⟨p, hp⟩ : ∃ p, (splitComma s).2 = some p := by
        obtain ⟨q, hq⟩ := Option.isSome_iff_exists.mp hcomma
        exact ⟨q.tail, by rw [splitComma, hq]; rfl⟩
      rw [hp] at hs
      simp only [Option.map_some, Option.getD_some] at hs
      have hdrop : s.drop ((splitComma s).1.length + 1) = p := by
        have hbehind := drop_token (splitComma s).1 p
        rwa [← hs] at hbehind
      have hstep : token opts stopflag (splitComma s).1 true = .advance flag := by
        rw [← firstToken_comma opts stopflag htext p, ← hs]
        exact hfirst
      simp only [hdrop] at h
      obtain ⟨c, t, n, hsplit, ⟨mid, last, hpass, hhalt, hflags⟩, hlen⟩ := ih _ _ _ _ _ h
      refine ⟨(splitComma s).1 ++ ',' :: c, t, n, ?_, ⟨mid, last, .cons htext hstep hpass, hhalt,
        hflags⟩, ?_⟩
      · rw [List.append_assoc, List.cons_append, ← hsplit]
        exact hs
      · rw [hlen, List.length_append, List.length_cons]
        omega
    | spin =>
      rw [hfirst] at h
      exact ih _ _ _ _ _ h

/-- With more fuel than characters the loop makes the run and stops. -/
theorem parseOptionsLoop_of_scan {c : CStr} {flags mid : Nat}
    (hpass : Passes opts stopflag c flags mid) {t : CStr} {flag n : Nat}
    (hhalt : firstToken opts stopflag t = .halt flag n) : ∀ fuel len, c.length < fuel →
    parseOptionsLoop opts stopflag fuel (c ++ t) flags len
      = some (mid ||| flag, len + c.length + n) := by
  induction hpass with
  | nil flags =>
    intro fuel len hfuel
    obtain ⟨fuel, rfl⟩ : ∃ k, fuel = k + 1 := ⟨fuel - 1, by omega⟩
    rw [List.nil_append, parseOptionsLoop_succ, hhalt]
    rfl
  | @cons b c flags flag' flags' htext hfirst hrest ih =>
    intro fuel len hfuel
    rw [List.length_append, List.length_cons] at hfuel
    obtain ⟨fuel, rfl⟩ : ∃ k, fuel = k + 1 := ⟨fuel - 1, by omega⟩
    rw [List.append_assoc, List.cons_append, parseOptionsLoop_succ,
      firstToken_comma opts stopflag htext, hfirst]
    simp only [splitComma_comma htext]
    rw [drop_token, ih fuel _ (by omega), List.length_append, List.length_cons]
    simp only [Option.some.injEq, Prod.mk.injEq, true_and]
    omega

end Loop

/-! ## §3 The calls of a scan -/

theorem Passes.of_nil {opts : List DevOption} {stopflag flags flags' : Nat}
    (h : Passes opts stopflag [] flags flags') : flags' = flags := by
  generalize hc : ([] : CStr) = c at h
  cases h with
  | nil => rfl
  | cons => simp at hc

/-- A run is over nothing, or over a token with its comma. -/
theorem Passes.nil_or_comma {opts : List DevOption} {stopflag flags flags' : Nat} {c : CStr}
    (h : Passes opts stopflag c flags flags') : c = [] ∨ ',' ∈ c := by
  cases h with
  | nil => exact .inl rfl
  | cons => exact .inr (List.mem_append_right _ List.mem_cons_self)

/-- What stands behind a comma does not matter to the token before it. -/
theorem firstToken_append (opts : List DevOption) (stopflag : Nat) {c : CStr} (h : ',' ∈ c)
    (t t' : CStr) : firstToken opts stopflag (c ++ t) = firstToken opts stopflag (c ++ t') := by
  obtain ⟨b, c', rfl, hb⟩ := List.eq_append_cons_of_mem h
  rw [List.append_assoc, List.append_assoc, List.cons_append, List.cons_append,
    firstToken_comma opts stopflag hb, firstToken_comma opts stopflag hb]

theorem Scan.congr {opts : List DevOption} {stopflag flags flags' n : Nat} {c t t' : CStr}
    (h : Scan opts stopflag c t flags flags' n)
    (hfirst : firstToken opts stopflag t' = firstToken opts stopflag t) :
    Scan opts stopflag c t' flags flags' n := by
  obtain ⟨mid, flag, hpass, hhalt, hflags⟩ := h
  exact ⟨mid, flag, hpass, hfirst.trans hhalt, hflags⟩

theorem parseOptions_scan {fuel : Nat} {string : CStr} {offset flags flags' len : Nat}
    {opts : List DevOption} {stopflag : Nat}
    (h : parseOptions fuel string offset flags opts stopflag = some (flags', len)) :
    ∃ c t n, string.drop offset = c ++ t ∧ Scan opts stopflag c t flags flags' n
      ∧ len = c.length + n := by
  rw [parseOptions] at h
  split at h
  · rename_i hempty
    cases h
    refine ⟨[], [], 0, by rw [hempty, List.drop_nil]; rfl, ⟨flags, 0, .nil flags, rfl, ?_⟩, rfl⟩
    exact (Nat.or_zero flags).symm
  · obtain ⟨c, t, n, hsplit, hscan, hlen⟩ := parseOptionsLoop_scan fuel _ _ _ _ _ h
    exact ⟨c, t, n, hsplit, hscan, by omega⟩

theorem parseOptions_of_scan {fuel : Nat} {string : CStr} {offset flags flags' n : Nat}
    {opts : List DevOption} {stopflag : Nat} {c t : CStr} (hsplit : string.drop offset = c ++ t)
    (h : Scan opts stopflag c t flags flags' n) (hfuel : string.length < fuel) :
    parseOptions fuel string offset flags opts stopflag = some (flags', c.length + n) := by
  obtain ⟨mid, flag, hpass, hhalt, rfl⟩ := h
  have hlen : c.length < fuel := by
    have := congrArg List.length hsplit
    rw [List.length_drop, List.length_append] at this
    omega
  rw [parseOptions]
  split
  · rename_i hempty
    rw [hempty, List.drop_nil] at hsplit
    obtain ⟨rfl, rfl⟩ := List.append_eq_nil_iff.mp hsplit.symm
    obtain rfl := hpass.of_nil
    cases hhalt
    rw [Nat.or_zero]
    rfl
  · rw [hsplit, parseOptionsLoop_of_scan hpass hhalt fuel 0 hlen, Nat.zero_add]

/-- Without a stop flag a scan stops before a token. -/
theorem token_zero {opts : List DevOption} {b : CStr} {comma : Bool} {flag n : Nat}
    (h : token opts 0 b comma = .halt flag n) : n = 0 := by
  rw [token] at h
  split at h
  · cases h
    rfl
  · split at h
    · simp only [Nat.and_zero, ne_eq, not_true_eq_false, if_false] at h
      split at h
      · cases h
      · cases h
        rfl
    · split at h
      · cases h
      · cases h
        rfl

theorem Scan.zero {opts : List DevOption} {c t : CStr} {flags flags' n : Nat}
    (h : Scan opts 0 c t flags flags' n) : n = 0 := by
  obtain ⟨mid, flag, -, hhalt, -⟩ := h
  exact token_zero hhalt

/-- The three scans of `parse_net_device` go over `c` and stop before `t`. -/
def ScanAll (c t : CStr) (flags flags' : Nat) : Prop :=
  ∃ c₁ c₂ c₃ f₁ f₂, c = c₁ ++ (c₂ ++ c₃)
    ∧ Scan interfaceOptions 0 c₁ (c₂ ++ (c₃ ++ t)) flags f₁ 0
    ∧ Scan commandKeywords 0 c₂ (c₃ ++ t) f₁ f₂ 0
    ∧ Scan qualifierOptions 0 c₃ t f₂ flags' 0

theorem scanOptions_scan {fuel : Nat} {options : CStr} {flags flags' offset : Nat}
    (h : scanOptions fuel options flags = some (flags', offset)) :
    ∃ c t, options = c ++ t ∧ ScanAll c t flags flags' ∧ offset = c.length := by
  simp only [scanOptions, Option.bind_eq_bind] at h
  obtain ⟨⟨f₁, n₁⟩, h₁, h⟩ := Option.bind_eq_some_iff.mp h
  obtain ⟨⟨f₂, n₂⟩, h₂, h⟩ := Option.bind_eq_some_iff.mp h
  obtain ⟨⟨f₃, n₃⟩, h₃, h⟩ := Option.bind_eq_some_iff.mp h
  cases h
  obtain ⟨c₁, t₁, k₁, hsplit₁, hscan₁, rfl⟩ := parseOptions_scan h₁
  obtain rfl := hscan₁.zero
  rw [List.drop_zero] at hsplit₁
  obtain ⟨c₂, t₂, k₂, hsplit₂, hscan₂, rfl⟩ := parseOptions_scan h₂
  obtain rfl := hscan₂.zero
  simp only [Nat.add_zero] at hsplit₂ h₃ ⊢
  rw [hsplit₁, List.drop_left] at hsplit₂
  obtain ⟨c₃, t₃, k₃, hsplit₃, hscan₃, rfl⟩ := parseOptions_scan h₃
  obtain rfl := hscan₃.zero
  rw [hsplit₁, hsplit₂, ← List.drop_drop, List.drop_left, List.drop_left] at hsplit₃
  rw [hsplit₃] at hsplit₂ hscan₂
  rw [hsplit₂] at hsplit₁ hscan₁
  refine ⟨c₁ ++ (c₂ ++ c₃), t₃, ?_, ⟨c₁, c₂, c₃, f₁, f₂, rfl, hscan₁, hscan₂, hscan₃⟩, ?_⟩
  · simp only [hsplit₁, List.append_assoc]
  · simp only [List.length_append]
    omega

theorem scanOptions_of_scan {fuel : Nat} {c t : CStr} {flags flags' : Nat}
    (h : ScanAll c t flags flags') (hfuel : (c ++ t).length < fuel) :
    scanOptions fuel (c ++ t) flags = some (flags', c.length) := by
  obtain ⟨c₁, c₂, c₃, f₁, f₂, rfl, h₁, h₂, h₃⟩ := h
  have hall : c₁ ++ (c₂ ++ c₃) ++ t = c₁ ++ (c₂ ++ (c₃ ++ t)) := by simp only [List.append_assoc]
  have hone : parseOptions fuel (c₁ ++ (c₂ ++ c₃) ++ t) 0 flags interfaceOptions 0
      = some (f₁, c₁.length + 0) :=
    parseOptions_of_scan (by rw [List.drop_zero]; exact hall) h₁ hfuel
  have htwo : parseOptions fuel (c₁ ++ (c₂ ++ c₃) ++ t) c₁.length f₁ commandKeywords 0
      = some (f₂, c₂.length + 0) :=
    parseOptions_of_scan (by rw [hall, List.drop_left]) h₂ hfuel
  have hthree : parseOptions fuel (c₁ ++ (c₂ ++ c₃) ++ t) (c₁.length + c₂.length) f₂
      qualifierOptions 0 = some (flags', c₃.length + 0) :=
    parseOptions_of_scan (by rw [hall, ← List.drop_drop, List.drop_left, List.drop_left]) h₃ hfuel
  simp only [Nat.add_zero] at hone htwo hthree
  simp only [scanOptions, Option.bind_eq_bind, hone, Option.bind_some, htwo, hthree]
  simp only [List.length_append, ← Nat.add_assoc]
  rfl

/-- The text the scans stop at may be replaced by one with the same first token. -/
theorem ScanAll.congr {c t t' : CStr} {flags flags' : Nat} (h : ScanAll c t flags flags')
    (hfirst : ∀ opts ∈ [interfaceOptions, commandKeywords, qualifierOptions],
      firstToken opts 0 t' = firstToken opts 0 t) : ScanAll c t' flags flags' := by
  obtain ⟨c₁, c₂, c₃, f₁, f₂, rfl, h₁, h₂, h₃⟩ := h
  obtain ⟨hint, hcmd, hqual⟩ : firstToken interfaceOptions 0 t' = firstToken interfaceOptions 0 t
      ∧ firstToken commandKeywords 0 t' = firstToken commandKeywords 0 t
      ∧ firstToken qualifierOptions 0 t' = firstToken qualifierOptions 0 t :=
    ⟨hfirst _ (by simp), hfirst _ (by simp), hfirst _ (by simp)⟩
  have hthree : ∀ opts, firstToken opts 0 t' = firstToken opts 0 t →
      firstToken opts 0 (c₃ ++ t') = firstToken opts 0 (c₃ ++ t) := by
    intro opts heq
    obtain ⟨mid, flag, hpass, -, -⟩ := h₃
    rcases hpass.nil_or_comma with rfl | hin
    · exact heq
    · exact firstToken_append opts 0 hin _ _
  have htwo : ∀ opts, firstToken opts 0 t' = firstToken opts 0 t →
      firstToken opts 0 (c₂ ++ (c₃ ++ t')) = firstToken opts 0 (c₂ ++ (c₃ ++ t)) := by
    intro opts heq
    obtain ⟨mid, flag, hpass, -, -⟩ := h₂
    rcases hpass.nil_or_comma with rfl | hin
    · exact hthree opts heq
    · exact firstToken_append opts 0 hin _ _
  exact ⟨c₁, c₂, c₃, f₁, f₂, rfl, h₁.congr (htwo _ hint), h₂.congr (hthree _ hcmd), h₃.congr hqual⟩

end LiloBoot.DevPath
