/-
LiloBoot.Boot.SpellingTheorems — the case of item names (two runs).

`cfg_set` finds an entry with `strcasecmp`, but it asks with `strcmp` whether a
name is `label` or `alias` when it measures the value, and whether an opener is
one for the CPU when there is an architecture. So `LABEL` names a section and
is not measured, and with an architecture `IMAGE` opens no section and yet
takes the items behind it away.

§1 shows that no other change of case can be seen. §2 and §3 give a text for
each of these names in which the change is seen, and is not that to an unknown
name.
-/
import LiloBoot.Boot.UsedTheorems

namespace LiloBoot.Boot

open LiloBoot.Cfg

/-! ## What is observed -/

/-- The outcome of a Tab. -/
def TabEnds (st : CfgState) (tabBuf : Bool) (mem : Memory) (buf : CStr)
    (out : Called (CStr × List (CStr × Bool))) : Prop :=
  out ≠ .running ∧ ∃ fuel, tabfunc st tabBuf mem fuel buf = out

/-- Two results of `cfg_parse` cannot be told apart afterwards. -/
structure SameSeen (st st' : CfgState) (useconf useconf' : Bool) : Prop where
  result : useconf = useconf'
  strg : ∀ image item, cfgGetStrg st image item = cfgGetStrg st' image item
  flag : ∀ image item, cfgGetFlag st image item = cfgGetFlag st' image item
  default : cfgGetDefault st = cfgGetDefault st'
  tab : ∀ mem buf out, TabEnds st useconf mem buf out ↔ TabEnds st' useconf' mem buf out

theorem SameSeen.refl (st : CfgState) (useconf : Bool) : SameSeen st st useconf useconf :=
  ⟨rfl, fun _ _ => rfl, fun _ _ => rfl, rfl, fun _ _ _ => Iff.rfl⟩

/-- `cfg_parse` returns for both texts, and what it leaves cannot be told apart. -/
def SameText (cpu : Nat) (malloc : Nat → Bool) (tabMalloc : Bool) (fuel : Nat)
    (src src' : Source) : Prop :=
  ∃ st s useconf st' s' useconf',
    Cfg.cfgParse src cpu malloc tabMalloc fuel = some (st, s, useconf)
      ∧ Cfg.cfgParse src' cpu malloc tabMalloc fuel = some (st', s', useconf')
      ∧ SameSeen st st' useconf useconf'

/-- The name of no option. -/
structure Unknown (name : CStr) : Prop where
  opener : isImageItem name = false
  options : entryType cfOptions name = none
  image : entryType cfImage name = none

/-- In every text, writing `name'` for the name of one item either changes nothing that is seen or
has the effect of an unknown name. -/
def CaseConsistent (cpu : Nat) (name name' : CStr) : Prop :=
  ∀ (malloc : Nat → Bool) (tabMalloc : Bool) (fuel : Nat) (before behind : List Item)
    (value : Option CStr) (broken : Bool) (src src' : Source),
    textItems src fuel = some (before ++ (name, value) :: behind, broken) →
    textItems src' fuel = some (before ++ (name', value) :: behind, broken) →
    SameText cpu malloc tabMalloc fuel src' src
      ∨ ∃ unknown src'', Unknown unknown
        ∧ textItems src'' fuel = some (before ++ (unknown, value) :: behind, broken)
        ∧ SameText cpu malloc tabMalloc fuel src' src''

/-- The names that `cfg_set` passes to `strcmp`. -/
def exactNames (cpu : Nat) : List CStr :=
  [labelName, aliasName]
    ++ (((cfgStart cpu).archimage).map fun arch => [imageName, arch]).getD []

/-! ## §1 Names that are compared without case -/

section Respelled

variable {cpu : Nat} {name name' : CStr}

theorem isImageItem_congr (h : strcasecmpEq name name' = true) :
    isImageItem name = isImageItem name' := by
  rw [strcasecmpEq_iff] at h
  simp only [isImageItem, strcasecmpEq, h]

theorem completes_eq_false (h : name ∉ exactNames cpu) (value : Option CStr) :
    completes name value = false := by
  simp only [exactNames, List.cons_append, List.mem_cons, not_or] at h
  simp [completes, h.1, h.2.1]

/-- `cfg_set` does the same with both names. -/
theorem cfgSet_respelled {st : CfgState} (hcase : strcasecmpEq name name' = true)
    (harch : st.archimage = (cfgStart cpu).archimage)
    (hname : name ∉ exactNames cpu) (hname' : name' ∉ exactNames cpu) (malloc : Bool)
    (value : Option CStr) : cfgSet malloc st name value = cfgSet malloc st name' value := by
  have hcompletes : completes name value = completes name' value := by
    rw [completes_eq_false hname, completes_eq_false hname']
  have hassign := fun st => cfgAssign_congr hcase hcompletes st
  have hvariants : (strcasecmpEq name image32bit || strcasecmpEq name image64bit)
      = (strcasecmpEq name' image32bit || strcasecmpEq name' image64bit) := by
    rw [strcasecmpEq_iff] at hcase
    simp only [strcasecmpEq, hcase]
  unfold cfgSet
  rw [isImageItem_congr hcase]
  cases h : st.archimage with
  | none => simp [hvariants, hassign]
  | some arch =>
    -- with an architecture both names open nothing
    rw [exactNames, ← harch, h] at hname hname'
    simp only [Option.map_some, Option.getD_some, List.mem_append, List.mem_cons, not_or]
      at hname hname'
    have hnot : (name != imageName && some name != some arch) = true := by
      simp [hname.2.1, hname.2.2.1]
    have hnot' : (name' != imageName && some name' != some arch) = true := by
      simp [hname'.2.1, hname'.2.2.1]
    simp [hnot, hnot', hassign]

theorem cfgSet_archimage (malloc : Bool) (st : CfgState) (item : CStr) (value : Option CStr) :
    (cfgSet malloc st item value).1.archimage = st.archimage := by
  have hassign : ∀ (st : CfgState) (item : CStr),
      (cfgAssign st item value).1.archimage = st.archimage := by
    intro st item
    rcases cfgAssign_cases st item value with ⟨-, h⟩ | ⟨-, h⟩ <;> simp [h]
  have hstep := cfgSet_step malloc st item value
  generalize cfgSet malloc st item value = r at hstep ⊢
  cases hstep with
  | skips => rfl
  | noMemory => rfl
  | opens => exact hassign _ _
  | passes => rfl
  | assigns => exact hassign _ _

theorem parseItems_respelled (hcase : strcasecmpEq name name' = true)
    (hname : name ∉ exactNames cpu) (hname' : name' ∉ exactNames cpu) (malloc : Nat → Bool)
    (broken : Bool) (value : Option CStr) (behind : List Item) (before : List Item) :
    ∀ st : CfgState, st.archimage = (cfgStart cpu).archimage →
      parseItems malloc broken st (before ++ (name, value) :: behind)
        = parseItems malloc broken st (before ++ (name', value) :: behind) := by
  induction before with
  | nil =>
    intro st harch
    simp only [List.nil_append, parseItems, cfgSet_respelled hcase harch hname hname']
  | cons p before ih =>
    intro st harch
    obtain ⟨item, value'⟩ := p
    simp only [List.cons_append, parseItems]
    rw [ih _ ((cfgSet_archimage _ _ _ _).trans harch)]

end Respelled

/-- Texts with the same run cannot be told apart. -/
theorem sameText_of_run {cpu fuel : Nat} {malloc : Nat → Bool} {src src' : Source}
    {items items' : List Item} {broken : Bool} (tabMalloc : Bool)
    (h : textItems src fuel = some (items, broken))
    (h' : textItems src' fuel = some (items', broken))
    (hrun : parseItems malloc broken (cfgStart cpu) items
      = parseItems malloc broken (cfgStart cpu) items') :
    SameText cpu malloc tabMalloc fuel src' src := by
  obtain ⟨s, hparse⟩ := cfgParse_items h cpu malloc tabMalloc
  obtain ⟨s', hparse'⟩ := cfgParse_items h' cpu malloc tabMalloc
  rw [← parseItems_fst malloc broken, hrun] at hparse
  rw [← parseItems_fst malloc broken] at hparse'
  exact ⟨_, s', _, _, s, _, hparse', hparse, SameSeen.refl _ _⟩

/-! ## §2 Unknown names -/

/-- No table has an entry under the name. -/
structure Absent (name : CStr) (st : CfgState) : Prop where
  valid : st.Valid
  options : entryType st.options name = none
  images : ∀ table ∈ st.images, entryType table name = none

section Ignored

variable {name : CStr} {st : CfgState}

theorem Unknown.absent (h : Unknown name) (cpu : Nat) : Absent name (cfgStart cpu) where
  valid := (labelled_start cpu).valid
  options := h.options
  images := fun _ htable => absurd htable List.not_mem_nil

theorem Absent.table (h : Absent name st) : entryType st.table name = none := by
  by_cases hcurr : st.currTable = .options
  · simpa [CfgState.table, hcurr] using h.options
  · exact h.images _ (CfgState.table_mem h.valid hcurr)

theorem Absent.setTable (h : Absent name st) {t : List Config} (ht : entryType t name = none) :
    Absent name (st.setTable t) := by
  refine ⟨h.valid.setTable t, ?_, fun table htable => ?_⟩
  · rcases st.setTable_options t with hopt | ⟨hopt, -⟩
    · rw [hopt]
      exact h.options
    · rw [hopt]
      exact ht
  · rcases CfgState.mem_setTable htable with hin | ⟨rfl, -⟩
    · exact h.images table hin
    · exact ht

theorem Absent.assign (h : Absent name st) (item : CStr) (value : Option CStr) :
    Absent name (cfgAssign st item value).1 := by
  obtain ⟨len, hst, -⟩ := cfgAssign_spec h.valid item value
  have hset := h.setTable ((entryType_assign st.table (item, value) name).trans h.table)
  rw [hst]
  exact ⟨hset.valid, hset.options, hset.images⟩

theorem Absent.opened (h : Absent name st) (himage : entryType cfImage name = none) :
    Absent name st.opened := by
  refine ⟨st.opened_valid, h.options, fun table htable => ?_⟩
  rcases List.mem_append.mp htable with hin | hin
  · exact h.images table hin
  · rw [List.mem_singleton.mp hin]
    exact himage

theorem Absent.cfgSet (h : Absent name st) (himage : entryType cfImage name = none)
    (malloc : Bool) (item : CStr) (value : Option CStr) :
    Absent name (cfgSet malloc st item value).1 := by
  have hstep := cfgSet_step malloc st item value
  generalize LiloBoot.Cfg.cfgSet malloc st item value = r at hstep ⊢
  cases hstep with
  | skips => exact ⟨h.valid, h.options, h.images⟩
  | noMemory => exact ⟨h.valid, h.options, h.images⟩
  | opens => exact (h.opened himage).assign _ _
  | passes => exact h
  | assigns => exact h.assign item value

/-- `cfg_set` passes over an unknown name. -/
theorem cfgSet_unknown (hname : Unknown name) (h : Absent name st) (malloc : Bool)
    (value : Option CStr) : cfgSet malloc st name value = (st, 0) := by
  have hwalk := @walkTable_eq_none st.table name value |>.mpr h.table
  simp [cfgSet, hname.opener, cfgAssign, hwalk]

/-- An unknown name is ignored together with its value. -/
theorem cfgItems_unknown (hname : Unknown name) (malloc : Nat → Bool) (value : Option CStr)
    (behind before : List Item) : ∀ {st : CfgState}, Absent name st →
    cfgItems malloc st (before ++ (name, value) :: behind)
      = cfgItems malloc st (before ++ behind) := by
  induction before with
  | nil =>
    intro st h
    simp [cfgItems, cfgSet_unknown hname h]
  | cons p before ih =>
    intro st h
    obtain ⟨item, value'⟩ := p
    simp only [List.cons_append, cfgItems]
    rw [ih (h.cfgSet hname.image _ item value')]

end Ignored

/-! ## §3 Names that are compared with case -/

/-- The state after a list of items, with memory for every section. -/
def loaded (cpu : Nat) (items : List Item) : CfgState :=
  cfgItems (fun _ => true) (cfgStart cpu) items

/-- A text in which the name `exact` is read, `other` is not, and `other` is not ignored either. -/
structure Tells (cpu : Nat) (before : List Item) (value : Option CStr) (behind : List Item)
    (exact other : CStr) : Prop where
  read : 0 < (loaded cpu (before ++ (exact, value) :: behind)).tabCompletionLen
  notRead : ¬ 0 < (loaded cpu (before ++ (other, value) :: behind)).tabCompletionLen
  dropped : ¬ 0 < (loaded cpu (before ++ behind)).tabCompletionLen
  query : ∃ image item, cfgGetStrg (loaded cpu (before ++ (other, value) :: behind)) image item
    ≠ cfgGetStrg (loaded cpu (before ++ behind)) image item

section Tells

variable {cpu fuel : Nat} {before behind : List Item} {value : Option CStr} {exact other : CStr}

theorem sameSeen_of_sameText {src src' : Source} {items items' : List Item}
    (h : textItems src fuel = some (items, false))
    (h' : textItems src' fuel = some (items', false))
    (hsame : SameText cpu (fun _ => true) true fuel src src') :
    SameSeen (loaded cpu items) (loaded cpu items')
      (decide (0 < (loaded cpu items).tabCompletionLen))
      (decide (0 < (loaded cpu items').tabCompletionLen)) := by
  obtain ⟨s, hparse⟩ := cfgParse_items h cpu (fun _ => true) true
  obtain ⟨s', hparse'⟩ := cfgParse_items h' cpu (fun _ => true) true
  obtain ⟨st₁, s₁, u₁, st₂, s₂, u₂, hrun, hrun', hseen⟩ := hsame
  rw [hparse, parseItems_snd, Bool.not_false, Bool.true_and, Bool.and_true] at hrun
  rw [hparse', parseItems_snd, Bool.not_false, Bool.true_and, Bool.and_true] at hrun'
  cases hrun
  cases hrun'
  exact hseen

theorem loaded_unknown {unknown : CStr} (h : Unknown unknown) :
    loaded cpu (before ++ (unknown, value) :: behind) = loaded cpu (before ++ behind) :=
  cfgItems_unknown h _ value behind before (h.absent cpu)

/-- The two spellings are told apart, and neither of them from an unknown name. -/
theorem Tells.apart (h : Tells cpu before value behind exact other) {src src' : Source}
    (hexact : textItems src fuel = some (before ++ (exact, value) :: behind, false))
    (hother : textItems src' fuel = some (before ++ (other, value) :: behind, false)) :
    (¬ SameText cpu (fun _ => true) true fuel src src'
      ∧ ¬ SameText cpu (fun _ => true) true fuel src' src)
    ∧ ∀ unknown src'', Unknown unknown →
      textItems src'' fuel = some (before ++ (unknown, value) :: behind, false) →
      ¬ SameText cpu (fun _ => true) true fuel src src''
        ∧ ¬ SameText cpu (fun _ => true) true fuel src' src'' := by
  refine ⟨⟨fun hsame => ?_, fun hsame => ?_⟩, fun unknown src'' hunknown htext =>
    ⟨fun hsame => ?_, fun hsame => ?_⟩⟩
  · have hresult := (sameSeen_of_sameText hexact hother hsame).result
    rw [decide_eq_true h.read] at hresult
    exact h.notRead (of_decide_eq_true hresult.symm)
  · have hresult := (sameSeen_of_sameText hother hexact hsame).result
    rw [decide_eq_true h.read] at hresult
    exact h.notRead (of_decide_eq_true hresult)
  · have hresult := (sameSeen_of_sameText hexact htext hsame).result
    rw [decide_eq_true h.read, loaded_unknown hunknown] at hresult
    exact h.dropped (of_decide_eq_true hresult.symm)
  · obtain ⟨image, item, hne⟩ := h.query
    have hstrg := (sameSeen_of_sameText hother htext hsame).strg image item
    rw [loaded_unknown hunknown] at hstrg
    exact hne hstrg

/-- A text that tells them apart refutes both changes. -/
theorem Tells.not_consistent (h : Tells cpu before value behind exact other)
    (hexact : ∀ p ∈ before ++ (exact, value) :: behind, Writable p)
    (hother : ∀ p ∈ before ++ (other, value) :: behind, Writable p) :
    ¬ CaseConsistent cpu exact other ∧ ¬ CaseConsistent cpu other exact := by
  obtain ⟨fuel, hfuel, hfuel'⟩ : ∃ fuel,
      (confText (before ++ (exact, value) :: behind)).length
        + (before ++ (exact, value) :: behind).length + 3 ≤ fuel
      ∧ (confText (before ++ (other, value) :: behind)).length
        + (before ++ (other, value) :: behind).length + 3 ≤ fuel :=
    ⟨_, Nat.le_add_right _ _, Nat.le_add_left _ _⟩
  have hread := textItems_confText _ hexact fuel hfuel
  have hread' := textItems_confText _ hother fuel hfuel'
  obtain ⟨⟨hne, hne'⟩, hunknown⟩ := h.apart hread hread'
  constructor
  · intro hconsistent
    rcases hconsistent _ _ _ _ _ _ _ _ _ hread hread' with hsame | ⟨unknown, src'', hu, htext, hsame⟩
    · exact hne' hsame
    · exact (hunknown unknown src'' hu htext).2 hsame
  · intro hconsistent
    rcases hconsistent _ _ _ _ _ _ _ _ _ hread' hread with hsame | ⟨unknown, src'', hu, htext, hsame⟩
    · exact hne hsame
    · exact (hunknown unknown src'' hu htext).1 hsame

end Tells

/-! ### Labels and aliases -/

section Labels

variable {cpu : Nat} {exact other : CStr}

theorem opens_image (cpu : Nat) : opensSection cpu imageName = true := by
  obtain h | h | h := cfgStart_archimage cpu <;> simp [opensSection, h, strcasecmpEq]

/-- A section that goes by its label or its alias, whatever the case of that item. -/
theorem tells_label (hexact : exact = labelName ∨ exact = aliasName)
    (hcase : strcasecmpEq other exact = true) (hne : other ≠ exact) :
    Tells cpu [(imageName, some "x".toList)] (some "y".toList) [] exact other := by
  have hopener : ∀ name, strcasecmpEq name exact = true → isImageItem name = false := by
    intro name hname
    rw [isImageItem_congr hname]
    rcases hexact with rfl | rfl <;> rfl
  have hself : strcasecmpEq exact exact = true := by simp [strcasecmpEq]
  have hopened : ∀ name, strcasecmpEq name exact = true →
      openedSections cpu ([(imageName, some "x".toList)] ++ (name, some "y".toList) :: [])
        = [⟨some "x".toList, [(name, some "y".toList)]⟩] := by
    intro name hname
    simp [openedSections, opens_image, opens_of_other (hopener name hname), scope,
      hopener name hname]
  have hotherName : other ≠ labelName ∧ other ≠ aliasName := by
    rcases hexact with rfl | rfl
    · refine ⟨hne, fun heq => ?_⟩
      subst heq
      cases hcase
    · refine ⟨fun heq => ?_, hne⟩
      subst heq
      cases hcase
  have hdropped : openedSections cpu ([(imageName, some "x".toList)] ++ [])
      = [⟨some "x".toList, []⟩] := by
    simp [openedSections, opens_image, scope]
  have hvalue : (⟨some "x".toList, [(other, some "y".toList)]⟩ : Opened).value exact
      = some "y".toList := by
    have hentry : entryType cfImage other = some .strg := by
      have hsame : entryType cfImage other = entryType cfImage exact := by
        simp only [entryType, strcasecmpEq_congr hcase]
      rw [hsame]
      rcases hexact with rfl | rfl <;> rfl
    rw [Opened.value, Opened.items, lastValue_cons, lastValue_cons, if_pos hcase]
    simp [lastValue, acceptedValue, hentry, newData]
  have hname : "y".toList
      ∈ (⟨some "x".toList, [(other, some "y".toList)]⟩ : Opened).names := by
    rcases hexact with rfl | rfl
    · rw [Opened.names, hvalue]
      exact List.mem_append_left _ (List.mem_singleton_self _)
    · rw [Opened.names, hvalue]
      exact List.mem_append_right _ (List.mem_singleton_self _)
  refine ⟨?_, ?_, ?_, some "y".toList, imageName, ?_⟩
  · rw [loaded, accepted_iff, hopened exact hself]
    refine ⟨_, List.mem_singleton_self _, _, List.mem_singleton_self _, ?_⟩
    rcases hexact with rfl | rfl <;> rfl
  · rw [loaded, accepted_iff, hopened other hcase]
    rintro ⟨s, hs, p, hp, hmeasured⟩
    obtain rfl := List.mem_singleton.mp hs
    obtain rfl := List.mem_singleton.mp hp
    rw [measured, Bool.and_eq_true, completes_iff] at hmeasured
    rcases hmeasured.1.2 with heq | heq
    · exact hotherName.1 heq
    · exact hotherName.2 heq
  · rw [loaded, accepted_iff, hdropped]
    rintro ⟨s, hs, p, hp, -⟩
    obtain rfl := List.mem_singleton.mp hs
    exact absurd hp List.not_mem_nil
  · have hfound : cfgGetStrg (loaded cpu ([(imageName, some "x".toList)]
        ++ (other, some "y".toList) :: [])) (some "y".toList) imageName = some (some "x".toList) := by
      have hbody : ∀ s ∈ [(⟨some "x".toList, [(other, some "y".toList)]⟩ : Opened)],
          ∀ p ∈ s.body, isImageItem p.1 = false := by simp [hopener other hcase]
      obtain ⟨s, hs, -, hsection⟩ := sectionOf_opened hbody (by simp)
        ⟨_, List.mem_singleton_self _, hname⟩
      obtain rfl := List.mem_singleton.mp hs
      rw [← hopened other hcase, ← (loaded_tables cpu _).1] at hsection
      rw [cfgGetStrg, loaded, cfgGetStrgImages_sectionOf _ _ hsection, cfgGetStrgI_opened,
        Opened.value_image (hbody _ (List.mem_singleton_self _)), Option.some_or]
    have hmissed : cfgGetStrg (loaded cpu ([(imageName, some "x".toList)] ++ []))
        (some "y".toList) imageName = some none := by
      rw [cfgGetStrg, loaded, (loaded_tables cpu _).1, hdropped]
      rfl
    rw [hfound, hmissed]
    exact fun h => by cases h

end Labels

/-! ### Openers -/

section Openers

variable {cpu : Nat} {arch exact other : CStr}

/-- What stands behind an opener: a label, which opens the Tab key, and a global option. -/
def behindOpener : List Item :=
  [(labelName, some "y".toList), ("root".toList, some "z".toList)]

theorem opens_behindOpener (cpu : Nat) : openedSections cpu behindOpener = [] := by
  have hlabel : isImageItem labelName = false := rfl
  have hroot : isImageItem "root".toList = false := rfl
  rw [behindOpener, openedSections_other hlabel, openedSections_other hroot]
  rfl

/-- A section that is skipped with its items, where the opener is not spelled exactly. -/
theorem tells_opener (harch : (cfgStart cpu).archimage = some arch)
    (hexact : exact = imageName ∨ exact = arch) (hcase : strcasecmpEq other exact = true)
    (hne : other ≠ exact) : Tells cpu [] (some "x".toList) behindOpener exact other := by
  have hopens : opensSection cpu exact = true := by
    rcases hexact with rfl | rfl <;> simp [opensSection, harch]
  have himage : isImageItem other = true := by
    rw [isImageItem_congr hcase, isImageItem_of_opens hopens]
  have hcross : strcasecmpEq arch imageName = false ∧ strcasecmpEq imageName arch = false := by
    rcases cfgStart_archimage cpu with h | h | h <;> rw [harch] at h
    · cases h
    · obtain rfl := Option.some.inj h
      decide
    · obtain rfl := Option.some.inj h
      decide
  have hotherName : other ≠ imageName ∧ other ≠ arch := by
    rcases hexact with rfl | rfl
    · refine ⟨hne, fun heq => ?_⟩
      subst heq
      rw [hcross.1] at hcase
      cases hcase
    · refine ⟨fun heq => ?_, hne⟩
      subst heq
      rw [hcross.2] at hcase
      cases hcase
  have hskipped : opensSection cpu other = false := by simp [opensSection, harch, hotherName]
  have hopened : openedSections cpu ([] ++ (exact, some "x".toList) :: behindOpener)
      = [⟨some "x".toList, behindOpener⟩] := by
    rw [List.nil_append, openedSections, hopens, if_pos rfl, opens_behindOpener]
    rfl
  have hnone : openedSections cpu ([] ++ (other, some "x".toList) :: behindOpener) = [] := by
    rw [List.nil_append, openedSections, hskipped, if_neg Bool.false_ne_true,
      opens_behindOpener]
  refine ⟨?_, ?_, ?_, none, "root".toList, ?_⟩
  · rw [loaded, accepted_iff, hopened]
    exact ⟨_, List.mem_singleton_self _, _, List.mem_cons_self, rfl⟩
  · rw [loaded, accepted_iff, hnone]
    rintro ⟨s, hs, -⟩
    exact absurd hs List.not_mem_nil
  · rw [loaded, accepted_iff, List.nil_append, opens_behindOpener]
    rintro ⟨s, hs, -⟩
    exact absurd hs List.not_mem_nil
  · have hlost : globalValue ([] ++ (other, some "x".toList) :: behindOpener) "root".toList
        = none := by
      rw [globalValue, List.nil_append, scope_cons_opener himage]
      rfl
    have hkept : globalValue ([] ++ behindOpener) "root".toList = some "z".toList := by decide
    rw [cfgGetStrg, cfgGetStrg, loaded, loaded, (loaded_tables cpu _).2, (loaded_tables cpu _).2,
      hlost, hkept]
    exact fun h => by cases h

end Openers

/-! ## §4 The changes of case that are consistent -/

section Consistent

variable {cpu : Nat} {name exact other : CStr}

theorem exactNames_cases (h : exact ∈ exactNames cpu) :
    (exact = labelName ∨ exact = aliasName)
      ∨ ∃ arch, (cfgStart cpu).archimage = some arch ∧ (exact = imageName ∨ exact = arch) := by
  rw [exactNames, List.mem_append, List.mem_pair] at h
  rcases h with h | h
  · exact .inl h
  · cases harch : (cfgStart cpu).archimage with
    | none => simp [harch] at h
    | some arch => exact .inr ⟨arch, rfl, by simpa [harch] using h⟩

theorem exactNames_listed (h : exact ∈ exactNames cpu) :
    exact ∈ [labelName, aliasName, imageName, image32bit, image64bit] := by
  rcases exactNames_cases h with (rfl | rfl) | ⟨arch, harch, rfl | rfl⟩
  · simp
  · simp
  · simp
  · rcases cfgStart_archimage cpu with h | h | h <;> rw [harch] at h
    · cases h
    · simp [Option.some.inj h]
    · simp [Option.some.inj h]

theorem isToken_of_plain {str : CStr} (hnul : '\x00' ∉ str) (hcr : '\r' ∉ str)
    (hfits : str.length ≤ 511) (hne : str ≠ ['=']) : IsToken str :=
  ⟨fun _ hc => ⟨fun heq => hnul (heq ▸ hc), fun heq => hcr (heq ▸ hc)⟩, hfits, hne⟩

/-- A name that agrees with one of them up to case can be written. -/
theorem isToken_of_case (h : exact ∈ [labelName, aliasName, imageName, image32bit, image64bit])
    (hcase : strcasecmpEq name exact = true) : IsToken name := by
  have hletters : ∀ m ∈ [labelName, aliasName, imageName, image32bit, image64bit],
      '\x00' ∉ m.map tolower ∧ '\r' ∉ m.map tolower ∧ m.length ≤ 511 ∧ m.length ≠ 1 := by
    decide
  obtain ⟨hnul, hcr, hfits, hlong⟩ := hletters exact h
  rw [strcasecmpEq_iff] at hcase
  rw [← hcase] at hnul hcr
  have hlength : name.length = exact.length := by
    simpa using congrArg List.length hcase
  refine isToken_of_plain (fun hc => ?_) (fun hc => ?_) (by omega) fun heq => ?_
  · exact hnul (List.mem_map.mpr ⟨_, hc, rfl⟩)
  · exact hcr (List.mem_map.mpr ⟨_, hc, rfl⟩)
  · subst heq
    exact hlong hlength.symm

/-- A change to or from one of the names that are passed to `strcmp`. -/
theorem not_consistent (h : exact ∈ exactNames cpu) (hcase : strcasecmpEq other exact = true)
    (hne : other ≠ exact) :
    ¬ CaseConsistent cpu exact other ∧ ¬ CaseConsistent cpu other exact := by
  have hx : IsToken "x".toList := isToken_of_plain (by decide) (by decide) (by decide) (by decide)
  have hy : IsToken "y".toList := isToken_of_plain (by decide) (by decide) (by decide) (by decide)
  have hz : IsToken "z".toList := isToken_of_plain (by decide) (by decide) (by decide) (by decide)
  have himage : IsToken imageName := isToken_of_case (by simp) (strcasecmpEq_iff.mpr rfl)
  have hlabel : IsToken labelName := isToken_of_case (by simp) (strcasecmpEq_iff.mpr rfl)
  have hroot : IsToken "root".toList :=
    isToken_of_plain (by decide) (by decide) (by decide) (by decide)
  have hitem : ∀ {m v : CStr}, IsToken m → IsToken v → Writable (m, some v) :=
    fun hm hv => ⟨hm, fun w hw => by cases hw; exact hv⟩
  have hwrite : IsToken exact :=
    isToken_of_case (exactNames_listed h) (strcasecmpEq_iff.mpr rfl)
  have hwrite' := isToken_of_case (exactNames_listed h) hcase
  rcases exactNames_cases h with hname | ⟨arch, harch, hname⟩
  · have hitems : ∀ m, IsToken m →
        ∀ p ∈ [(imageName, some "x".toList)] ++ (m, some "y".toList) :: [], Writable p := by
      intro m hm p hp
      rcases List.mem_pair.mp hp with rfl | rfl
      · exact hitem himage hx
      · exact hitem hm hy
    exact (tells_label hname hcase hne).not_consistent (hitems _ hwrite) (hitems _ hwrite')
  · have hitems : ∀ m, IsToken m →
        ∀ p ∈ [] ++ (m, some "x".toList) :: behindOpener, Writable p := by
      intro m hm p hp
      rcases List.mem_cons.mp hp with rfl | hp
      · exact hitem hm hx
      · rcases List.mem_pair.mp hp with rfl | rfl
        · exact hitem hlabel hy
        · exact hitem hroot hz
    exact (tells_opener harch hname hcase hne).not_consistent (hitems _ hwrite) (hitems _ hwrite')

end Consistent

/-- **A change of case is consistent in every text** just where neither spelling is one that
`cfg_set` passes to `strcmp`: `label` and `alias`, and with an architecture its two openers. -/
theorem caseConsistent_iff (cpu : Nat) (name name' : CStr)
    (hcase : strcasecmpEq name name' = true) :
    CaseConsistent cpu name name'
      ↔ name = name' ∨ name ∉ exactNames cpu ∧ name' ∉ exactNames cpu := by
  have hcase' : strcasecmpEq name' name = true := by
    rw [strcasecmpEq_iff] at hcase ⊢
    exact hcase.symm
  constructor
  · intro hconsistent
    by_contra hexact
    rw [not_or, not_and_or, not_not, not_not] at hexact
    obtain ⟨hne, hname | hname⟩ := hexact
    · exact (not_consistent hname hcase' (Ne.symm hne)).1 hconsistent
    · exact (not_consistent hname hcase hne).2 hconsistent
  · rintro hspelled malloc tabMalloc fuel before behind value broken src src' h h'
    left
    rcases hspelled with rfl | ⟨hname, hname'⟩
    · exact sameText_of_run tabMalloc h h' rfl
    · exact sameText_of_run tabMalloc h h'
        (parseItems_respelled hcase hname hname' malloc broken value behind before _ rfl)

theorem rootCase_consistent : CaseConsistent 64 "root".toList "ROOT".toList :=
  (caseConsistent_iff 64 "root".toList "ROOT".toList (by decide)).mpr (.inr (by decide))

/-- A section with a label, in lower and in upper case. -/
def lowerLabelText : CStr := "image=x\nlabel=y\n".toList

def upperLabelText : CStr := "image=x\nLABEL=y\n".toList

/-- The upper case label names the section, but `cfg_parse` does not accept the file with it. -/
theorem upperLabel_half_recognised :
    textItems (textSource lowerLabelText) 40
        = some ([(imageName, some "x".toList)] ++ (labelName, some "y".toList) :: [], false)
      ∧ textItems (textSource upperLabelText) 40
        = some ([(imageName, some "x".toList)] ++ ("LABEL".toList, some "y".toList) :: [], false)
      ∧ ¬ SameText 64 (fun _ => true) true 40 (textSource upperLabelText) (textSource lowerLabelText)
      ∧ ¬ ∃ unknown src'', Unknown unknown
        ∧ textItems src'' 40
          = some ([(imageName, some "x".toList)] ++ (unknown, some "y".toList) :: [], false)
        ∧ SameText 64 (fun _ => true) true 40 (textSource upperLabelText) src'' := by
  have hlower : textItems (textSource lowerLabelText) 40
      = some ([(imageName, some "x".toList)] ++ (labelName, some "y".toList) :: [], false) := by
    decide
  have hupper : textItems (textSource upperLabelText) 40
      = some ([(imageName, some "x".toList)] ++ ("LABEL".toList, some "y".toList) :: [],
        false) := by
    decide
  have htells := @tells_label 64 labelName "LABEL".toList (.inl rfl) (by decide) (by decide)
  obtain ⟨⟨-, hne⟩, hunknown⟩ := htells.apart hlower hupper
  refine ⟨hlower, hupper, hne, ?_⟩
  rintro ⟨unknown, src'', hu, htext, hsame⟩
  exact (hunknown unknown src'' hu htext).2 hsame

end LiloBoot.Boot
