/-
LiloBoot.Cfg.ItemsTheorems — `cfg_parse` is its items.

§1 takes the loop of `cfg_parse` apart: the items of the text first, then the
loop over the items. §2 lifts the token round trip to whole texts: what is
written for a list of items is read as these items.
-/
import LiloBoot.Cfg.CfgTheorems
import LiloBoot.Cfg.Items

namespace LiloBoot.Cfg

/-! ## §1 Reading first, storing afterwards -/

/-- Where the loop is done with the items, it is done with the text. -/
theorem parseLoop_items {src : Source} (malloc : Nat → Bool) (fuel : Nat) :
    ∀ {s : Input} {st : CfgState} {items : List Item} {broken : Bool},
    readItems src fuel s = some (items, broken) →
    ∃ s', parseLoop src malloc fuel st s
      = some ((parseItems malloc broken st items).1, s', (parseItems malloc broken st items).2) := by
  induction fuel with
  | zero =>
    intro s st items broken h
    cases h
  | succ fuel ih =>
    intro s st items broken h
    rw [readItems] at h
    rw [parseLoop]
    cases hnext : cfgNext src fuel s with
    | none => simp [hnext] at h
    | some out =>
      obtain ⟨res, s₁⟩ := out
      rw [hnext] at h
      cases res with
      | null =>
        obtain ⟨rfl, rfl⟩ := Prod.mk.inj (Option.some.inj h)
        exact ⟨s₁, rfl⟩
      | error msg =>
        obtain ⟨rfl, rfl⟩ := Prod.mk.inj (Option.some.inj h)
        exact ⟨s₁, rfl⟩
      | got item =>
        obtain ⟨⟨rest, broken'⟩, hrest, heq⟩ := Option.map_eq_some_iff.mp h
        obtain ⟨rfl, rfl⟩ := Prod.mk.inj heq
        simp only [parseItems]
        split
        · exact ⟨s₁, rfl⟩
        · exact ih hrest

theorem parseItems_fst (malloc : Nat → Bool) (broken : Bool) (items : List Item) :
    ∀ st, (parseItems malloc broken st items).1 = cfgItems malloc st items := by
  induction items with
  | nil => exact fun _ => rfl
  | cons p rest ih =>
    intro st
    obtain ⟨item, value⟩ := p
    simp only [parseItems, cfgItems]
    split
    · rfl
    · exact ih _

/-- **Reading and storing come apart**: what `cfg_parse` does with a text is what its loop does with
the items of the text. -/
theorem cfgParse_items {src : Source} {fuel : Nat} {items : List Item} {broken : Bool}
    (h : textItems src fuel = some (items, broken)) (cpu : Nat) (malloc : Nat → Bool)
    (tabMalloc : Bool) :
    ∃ s, cfgParse src cpu malloc tabMalloc fuel
      = some (cfgItems malloc (cfgStart cpu) items, s,
          !(parseItems malloc broken (cfgStart cpu) items).2
            && (decide (0 < (cfgItems malloc (cfgStart cpu) items).tabCompletionLen)
              && tabMalloc)) := by
  obtain ⟨s, hloop⟩ := @parseLoop_items src malloc fuel inputStart (cfgStart cpu) items broken h
  refine ⟨s, ?_⟩
  rw [cfgParse, hloop, parseItems_fst]
  rfl

/-- With memory for its sections a text is read up to its end or its error. -/
theorem parseItems_snd (broken : Bool) (items : List Item) : ∀ st,
    (parseItems (fun _ => true) broken st items).2 = broken := by
  induction items with
  | nil => exact fun _ => rfl
  | cons p rest ih =>
    intro st
    obtain ⟨item, value⟩ := p
    simp only [parseItems]
    rw [if_neg (Int.not_lt.mpr (cfgSet_nonneg st item value))]
    exact ih _

theorem readItems_ends {src : Source} (fuel : Nat) : ∀ {s : Input} {l : List Char},
    Before src s l → s.left l + l.length + 2 < fuel → s.written ≤ maxToken + 1 →
    ∃ out, readItems src fuel s = some out := by
  induction fuel with
  | zero => exact fun _ h => absurd h (Nat.not_lt_zero _)
  | succ fuel ih =>
    intro s l h hfuel hwritten
    obtain ⟨res, s', l', hrun, -, hbefore, hwritten', hlen, hgot⟩ :=
      @cfgNext_ends src src ⟨rfl, rfl, fun _ _ => rfl⟩ fuel s l h (by omega) hwritten
    rw [readItems, hrun]
    cases res with
    | null => exact ⟨_, rfl⟩
    | error msg => exact ⟨_, rfl⟩
    | got item =>
      have hleft := hgot item rfl
      obtain ⟨out, hrest⟩ := ih hbefore (by omega) hwritten'
      simp [hrest]

/-- Every text has its items, with the fuel that parsing takes. -/
theorem textItems_ends (src : Source) (fuel : Nat) (hfuel : 3 * src.endp + 2 < fuel) :
    ∃ items broken, textItems src fuel = some (items, broken) := by
  have hlength : (src.unread inputStart).length = src.endp := by
    simp [Source.unread, inputStart]
  have hleft : inputStart.left (src.unread inputStart) = 2 * src.endp := by
    rw [Input.left, hlength]
    rfl
  obtain ⟨out, hrun⟩ := @readItems_ends src fuel inputStart (src.unread inputStart)
    ⟨Nat.zero_le _, .inl ⟨rfl, rfl⟩⟩ (by omega) (Nat.zero_le _)
  exact ⟨out.1, out.2, hrun⟩

/-! ## §2 Writing first, reading afterwards -/

section Written

variable {src : Source} {s : Input} {r : List Char} {fuel : Nat}

/-- Where the text ends there is no token. -/
theorem cfgGetToken_end (h : Before src s []) (hlast : s.lastToken = none) (hfuel : 2 ≤ fuel) :
    ∃ s', cfgGetToken src fuel s = some (.null, s') ∧ Before src s' [] ∧ s'.lastToken = none := by
  obtain ⟨fuel, rfl⟩ : ∃ k, fuel = k + 2 := ⟨fuel - 2, by omega⟩
  obtain ⟨s', hnext, hat, hsame⟩ := h.next
  refine ⟨s', ?_, hat.before, hsame.lastToken.trans hlast⟩
  rw [List.head?_nil] at hnext
  simp [cfgGetToken, hlast, skipSpace, skipBlanks, hnext]

/-- A `=` is a token of its own. -/
theorem cfgGetToken_equals (h : Before src s ('=' :: r)) (hlast : s.lastToken = none)
    (hmalloc : ∀ i, src.malloc i = true) (hfuel : 2 ≤ fuel) :
    ∃ s', cfgGetToken src fuel s = some (.got ['='], s') ∧ Before src s' r
      ∧ s'.lastToken = none := by
  obtain ⟨s₁, hskip, hat, hsame⟩ := skipSpace_spec (.blanks (fun c hc => absurd hc List.not_mem_nil))
    (show isBlank '=' = false from rfl) ⟨by decide, by decide⟩ h (show 0 + 1 < fuel by omega)
  obtain ⟨s', hdup, hkeeps, hlast'⟩ := @strdup_spec src s₁ ['='] (by simp) (hmalloc _)
  refine ⟨s', ?_, hkeeps r hat.before, hlast'.trans (hsame.lastToken.trans hlast)⟩
  simp [cfgGetToken, hlast, hskip, hdup]

/-- A string in quotes, at the start of a line or behind a `=`. -/
theorem cfgGetToken_quoted {g : CStr} (hg : ∀ c ∈ g, isBlank c = true) {str : CStr}
    (hstr : IsToken str) (h : Before src s (g ++ (quotedForm str ++ r)))
    (hlast : s.lastToken = none) (hmalloc : ∀ i, src.malloc i = true)
    (hfuel : (g ++ (quotedForm str ++ r)).length + 2 ≤ fuel) :
    ∃ s', cfgGetToken src fuel s = some (.got str, s') ∧ Before src s' r
      ∧ s'.lastToken = none :=
  ((cfgGetToken_roundTrip src s g (.blanks hg) hlast (hmalloc _) str r fuel).1 hstr.quotable h
    hfuel).1 hstr.fits

/-- The state before the items `items`: the name of the first one may have been read already. -/
def Ahead (src : Source) (s : Input) (items : List Item) : Prop :=
  (s.lastToken = none ∧ Before src s (confText items))
    ∨ ∃ name value rest, items = (name, value) :: rest ∧ s.lastToken = some name
      ∧ Before src s (valueText value ++ confText rest)

theorem newline_blank : ∀ c ∈ ['\n'], isBlank c = true := by simp [isBlank, charIsNewline]

/-- The first token of an item is its name. -/
theorem ahead_name {p : Item} {rest : List Item} (h : Ahead src s (p :: rest)) (hp : Writable p)
    (hmalloc : ∀ i, src.malloc i = true) (hfuel : (confText (p :: rest)).length + 2 ≤ fuel) :
    ∃ s', cfgGetToken src fuel s = some (.got p.1, s')
      ∧ Before src s' (valueText p.2 ++ confText rest) ∧ s'.lastToken = none := by
  have htext : confText (p :: rest)
      = ['\n'] ++ (quotedForm p.1 ++ (valueText p.2 ++ confText rest)) := by
    simp [confText, itemText]
  obtain ⟨hlast, hbefore⟩ | ⟨name, value, rest', heq, hlast, hbefore⟩ := h
  · rw [htext] at hbefore hfuel
    exact cfgGetToken_quoted newline_blank hp.name hbefore hlast hmalloc hfuel
  · obtain ⟨rfl, rfl⟩ := List.cons.inj heq
    refine ⟨{ s with lastToken := none }, ?_, ⟨hbefore.inside, hbefore.back⟩, rfl⟩
    simp [cfgGetToken, hlast]

/-- `cfg_next` reads the item, and stands before the next one. -/
theorem cfgNext_written {p : Item} {rest : List Item} (h : Ahead src s (p :: rest))
    (hp : Writable p) (hrest : ∀ q ∈ rest, Writable q) (hmalloc : ∀ i, src.malloc i = true)
    (hfuel : (confText (p :: rest)).length + 2 ≤ fuel) :
    ∃ s', cfgNext src fuel s = some (.got p, s') ∧ Ahead src s' rest := by
  obtain ⟨s₁, hname, hbefore₁, hlast₁⟩ := ahead_name h hp hmalloc hfuel
  have hlength : (confText (p :: rest)).length
      = (quotedForm p.1).length + (valueText p.2).length + (confText rest).length + 1 := by
    simp [confText, itemText]
    omega
  have hne := hp.name.notEquals
  obtain ⟨name, value⟩ := p
  cases value with
  | some v =>
    have hv := hp.value v rfl
    have hnotEquals := hv.notEquals
    have hvalue : valueText (some v) ++ confText rest
        = '=' :: ([] ++ (quotedForm v ++ confText rest)) := by
      simp [valueText]
    rw [hvalue] at hbefore₁
    obtain ⟨s₂, hequals, hbefore₂, hlast₂⟩ :=
      @cfgGetToken_equals src s₁ _ fuel hbefore₁ hlast₁ hmalloc (by omega)
    obtain ⟨s₃, hquoted, hbefore₃, hlast₃⟩ := @cfgGetToken_quoted src s₂ (confText rest) fuel []
      (by simp) v hv hbefore₂ hlast₂ hmalloc (by
        simp [valueText] at hlength ⊢
        omega)
    refine ⟨s₃, ?_, .inl ⟨hlast₃, hbefore₃⟩⟩
    simp [cfgNext, hname, hne, hequals, hquoted, hnotEquals]
  | none =>
    have hbefore₁ : Before src s₁ (confText rest) := hbefore₁
    cases rest with
    | nil =>
      obtain ⟨s₂, hend, hbefore₂, hlast₂⟩ :=
        @cfgGetToken_end src s₁ fuel hbefore₁ hlast₁ (by omega)
      refine ⟨s₂, ?_, .inl ⟨hlast₂, hbefore₂⟩⟩
      simp [cfgNext, hname, hne, hend]
    | cons q rest =>
      -- the name behind the item is read, and given back
      have hq := hrest q List.mem_cons_self
      have hnotEquals := hq.name.notEquals
      obtain ⟨s₂, hnext, hbefore₂, hlast₂⟩ :=
        @ahead_name src s₁ fuel q rest (.inl ⟨hlast₁, hbefore₁⟩) hq hmalloc (by omega)
      refine ⟨cfgReturnToken q.1 s₂, ?_, .inr ⟨q.1, q.2, rest, rfl, rfl, ?_⟩⟩
      · simp [cfgNext, hname, hne, hnext, hnotEquals]
      · exact ⟨hbefore₂.inside, hbefore₂.back⟩

theorem readItems_written (items : List Item) (hitems : ∀ p ∈ items, Writable p)
    (hmalloc : ∀ i, src.malloc i = true) : ∀ {s : Input} {fuel : Nat}, Ahead src s items →
    (confText items).length + items.length + 3 ≤ fuel →
    readItems src fuel s = some (items, false) := by
  induction items with
  | nil =>
    intro s fuel h hfuel
    obtain ⟨fuel, rfl⟩ : ∃ k, fuel = k + 1 := ⟨fuel - 1, by omega⟩
    obtain ⟨hlast, hbefore⟩ | ⟨name, value, rest, heq, -, -⟩ := h
    · obtain ⟨s', hend, -, -⟩ := @cfgGetToken_end src s fuel hbefore hlast (by omega)
      simp [readItems, cfgNext, hend]
    · cases heq
  | cons p rest ih =>
    intro s fuel h hfuel
    obtain ⟨fuel, rfl⟩ : ∃ k, fuel = k + 1 := ⟨fuel - 1, by omega⟩
    rw [List.length_cons] at hfuel
    have hrest := fun q hq => hitems q (List.mem_cons_of_mem p hq)
    obtain ⟨s', hnext, hahead⟩ := @cfgNext_written src s fuel p rest h
      (hitems p List.mem_cons_self) hrest hmalloc (by omega)
    have hlength : (confText rest).length ≤ (confText (p :: rest)).length := by
      simp [confText]
    have hread := @ih hrest s' fuel hahead (by omega)
    simp [readItems, hnext, hread]

end Written

/-- **The text round trip**: what is written for a list of items is read as these items, without an
error. -/
theorem textItems_confText (items : List Item) (hitems : ∀ p ∈ items, Writable p) (fuel : Nat)
    (hfuel : (confText items).length + items.length + 3 ≤ fuel) :
    textItems (textSource (confText items)) fuel = some (items, false) := by
  have hunread : (textSource (confText items)).unread inputStart = confText items := by
    refine List.ext_getElem (by simp [Source.unread, textSource, inputStart]) fun i h₁ h₂ => ?_
    simp [Source.unread, textSource, inputStart, List.getD, h₂]
  refine readItems_written items hitems (fun _ => rfl) (.inl ⟨rfl, ?_⟩) hfuel
  exact ⟨Nat.zero_le _, .inl ⟨rfl, hunread⟩⟩

end LiloBoot.Cfg
