/-
LiloBoot.Boot.CompletionTheorems — queries and null pointers.

The parser establishes little: an accepted configuration has a label or an
alias somewhere. The queries need more. A query for an image goes through the
sections and takes the base name of `image` where there is no label, and
`printlabel` compares every label with the default. So the queries are safe
just where there is a default and every section has a label or an image.
-/
import LiloBoot.Boot.Completion

namespace LiloBoot.Boot

open LiloBoot.Cfg

/-! ## §1 What the queries need -/

/-- No query and no Tab passes a null pointer on or writes through one. -/
structure NeverFaults (st : CfgState) (tabBuf : Bool) : Prop where
  strg : ∀ image item, cfgGetStrg st image item ≠ none
  flag : ∀ image item, cfgGetFlag st image item ≠ none
  default : cfgGetDefault st ≠ none
  tab : ∀ mem fuel buf, tabfunc st tabBuf mem fuel buf ≠ .fault

/-- There is a default, and every section has a label or an image. -/
structure Answers (st : CfgState) : Prop where
  default : (cfgGetStrgI st.options "default".toList).isSome
  named : ∀ table ∈ st.images,
    (cfgGetStrgI table labelName).isSome ∨ (cfgGetStrgI table imageName).isSome

theorem imageLabel_eq_none {table : List Config} : imageLabel table = none
    ↔ cfgGetStrgI table labelName = none ∧ cfgGetStrgI table imageName = none := by
  rw [imageLabel]
  cases cfgGetStrgI table labelName with
  | some label => simp
  | none =>
    cases cfgGetStrgI table imageName with
    | none => simp
    | some image => cases hslash : strrchr image '/' <;> simp [hslash]

theorem imageLabel_ne_none {table : List Config} : imageLabel table ≠ none
    ↔ (cfgGetStrgI table labelName).isSome ∨ (cfgGetStrgI table imageName).isSome := by
  rw [Ne, imageLabel_eq_none, not_and_or, ← Ne, ← Ne, Option.ne_none_iff_isSome,
    Option.ne_none_iff_isSome]

/-- With a name for every section the loop comes to its end. -/
theorem cfgGetStrgImages_ne_none {options : List Config} {image item : CStr}
    {images : List (List Config)} (h : ∀ table ∈ images, imageLabel table ≠ none) :
    cfgGetStrgImages options image item images ≠ none := by
  induction images with
  | nil => simp [cfgGetStrgImages]
  | cons table rest ih =>
    obtain ⟨label, hlabel⟩ := Option.ne_none_iff_exists'.mp (h table List.mem_cons_self)
    rw [cfgGetStrgImages, hlabel]
    dsimp only
    split
    · exact Option.some_ne_none _
    · exact ih fun t ht => h t (List.mem_cons_of_mem _ ht)

/-- A name that no section has leads the loop through all of them. -/
theorem exists_unknown_name (images : List (List Config)) :
    ∃ image : CStr, ∀ table ∈ images,
      imageLabel table ≠ some image ∧ cfgGetStrgI table aliasName ≠ some image := by
  obtain ⟨image, hfresh⟩ := Infinite.exists_notMem_finset
    (images.filterMap imageLabel ++ images.filterMap fun t => cfgGetStrgI t aliasName).toFinset
  rw [List.mem_toFinset, List.mem_append, not_or] at hfresh
  refine ⟨image, fun table htable => ⟨fun h => hfresh.1 ?_, fun h => hfresh.2 ?_⟩⟩
  · exact List.mem_filterMap.mpr ⟨table, htable, h⟩
  · exact List.mem_filterMap.mpr ⟨table, htable, h⟩

theorem cfgGetStrgImages_unknown {options : List Config} {image item : CStr}
    {images : List (List Config)} (hunknown : ∀ table ∈ images,
      imageLabel table ≠ some image ∧ cfgGetStrgI table aliasName ≠ some image)
    (h : cfgGetStrgImages options image item images ≠ none) :
    ∀ table ∈ images, imageLabel table ≠ none := by
  induction images with
  | nil =>
    intro table htable
    exact absurd htable List.not_mem_nil
  | cons table rest ih =>
    obtain ⟨hlabel, halias⟩ := hunknown table List.mem_cons_self
    rw [cfgGetStrgImages] at h
    cases hname : imageLabel table with
    | none =>
      rw [hname] at h
      exact absurd rfl h
    | some label =>
      have hne : label ≠ image := fun heq => hlabel (by rw [hname, heq])
      rw [hname] at h
      simp only [hne, halias, decide_false, Bool.or_self, Bool.false_eq_true, if_false] at h
      have hrest := ih (fun t ht => hunknown t (List.mem_cons_of_mem _ ht)) h
      intro t ht
      rcases List.mem_cons.mp ht with rfl | ht
      · rw [hname]
        exact Option.some_ne_none _
      · exact hrest t ht

/-- All queries by name are safe just where every section has a name. -/
theorem strg_iff (st : CfgState) : (∀ image item, cfgGetStrg st image item ≠ none)
    ↔ ∀ table ∈ st.images, imageLabel table ≠ none := by
  constructor
  · intro h
    obtain ⟨image, hunknown⟩ := exists_unknown_name st.images
    exact cfgGetStrgImages_unknown hunknown (h (some image) [])
  · intro h image item
    cases image with
    | none => exact Option.some_ne_none _
    | some image => exact cfgGetStrgImages_ne_none h

/-! ## §2 The Tab key -/

section Tab

variable {d : CStr} {typed : List Char} {remaining : Nat} {followingChar : Option Char}

theorem matchName_ne_none (name : StrAt) (p : Pass) :
    matchName (some d) typed remaining followingChar name p ≠ none := by
  rw [matchName]
  split
  · split
    · exact Option.some_ne_none _
    · cases followingChar with
      | none => exact Option.some_ne_none _
      | some c =>
        dsimp only
        split
        · exact Option.some_ne_none _
        · exact Option.some_ne_none _
  · exact Option.some_ne_none _

theorem matchNames_ne_none (names : List StrAt) : ∀ p,
    matchNames (some d) typed remaining followingChar names p ≠ none := by
  induction names with
  | nil => exact fun p => Option.some_ne_none p
  | cons name rest ih =>
    intro p
    rw [matchNames]
    obtain ⟨⟨q, broken⟩, hstep⟩ := Option.ne_none_iff_exists'.mp
      (@matchName_ne_none d typed remaining followingChar name p)
    rw [hstep]
    cases broken with
    | true => exact Option.some_ne_none q
    | false => exact ih q

theorem completeLoop_ne_fault (names : List StrAt) (fuel : Nat) :
    ∀ typed followingChar printing printed,
    completeLoop (some d) names remaining fuel typed followingChar printing printed ≠ .fault := by
  induction fuel with
  | zero =>
    intro typed followingChar printing printed h
    cases h
  | succ fuel ih =>
    intro typed followingChar printing printed
    obtain ⟨p, hpass⟩ := Option.ne_none_iff_exists'.mp
      (@matchNames_ne_none d typed remaining followingChar names ⟨0, none, printing, printed⟩)
    rw [completeLoop, hpass]
    dsimp only
    cases p.lastMatch with
    | none =>
      dsimp only
      split
      · exact ih _ _ _ _
      · exact fun h => nomatch h
    | some last =>
      dsimp only
      split
      · exact fun h => nomatch h
      · split
        · exact ih _ _ _ _
        · exact ih _ _ _ _

theorem foldlM_printlabel (names : List StrAt) : ∀ p : Pass,
    names.foldlM (fun p name => printlabel (some d) name.text p) p ≠ none := by
  induction names with
  | nil => exact fun p => Option.some_ne_none p
  | cons name rest ih =>
    intro p
    exact ih { p with printed := p.printed ++ [(name.text, d == name.text)] }

variable {st : CfgState} {mem : Memory} {fuel : Nat}

/-- With a default and a buffer no Tab does harm. -/
theorem cfgPrintImages_ne_fault (hdefault : cfgGetStrgI st.options "default".toList = some d)
    (buf : CStr) (remaining : Nat) : cfgPrintImages st true mem fuel buf remaining ≠ .fault := by
  rw [cfgPrintImages]
  split
  · exact fun h => nomatch h
  · simp only [hdefault, Bool.not_true, Bool.false_eq_true, if_false]
    split
    · obtain ⟨p, hprint⟩ := Option.ne_none_iff_exists'.mp
        (@foldlM_printlabel d (imageNames mem st.images) ⟨0, none, 0, []⟩)
      rw [hprint]
      exact fun h => nomatch h
    · have hrun := @completeLoop_ne_fault d remaining (imageNames mem st.images) fuel buf none 0 []
      cases h : completeLoop (some d) (imageNames mem st.images) remaining fuel buf none 0 [] with
      | fault => exact absurd h hrun
      | running => exact fun h => nomatch h
      | done => exact fun h => nomatch h

theorem tabfunc_ne_fault (hdefault : cfgGetStrgI st.options "default".toList = some d) (buf : CStr) :
    tabfunc st true mem fuel buf ≠ .fault := by
  rw [tabfunc]
  split
  · have hrun := @cfgPrintImages_ne_fault d st mem fuel hdefault [] 0
    cases h : cfgPrintImages st true mem fuel [] 0 with
    | fault => exact absurd h hrun
    | running => exact fun h => nomatch h
    | done => exact fun h => nomatch h
  · dsimp only
    split
    · exact fun h => nomatch h
    · have hrun := @cfgPrintImages_ne_fault d st mem fuel hdefault (buf.dropWhile (· = ' '))
        (cmdLeng - buf.length - 1)
      cases h : cfgPrintImages st true mem fuel (buf.dropWhile (· = ' '))
          (cmdLeng - buf.length - 1) with
      | fault => exact absurd h hrun
      | running => exact fun h => nomatch h
      | done => exact fun h => nomatch h

/-- Without a buffer, a Tab at the start of the line writes through the null pointer. -/
theorem tabfunc_no_buffer : tabfunc st false mem fuel [] = .fault := rfl

/-- Without a default, it compares the first label with the null pointer. -/
theorem tabfunc_no_default (hdefault : cfgGetStrgI st.options "default".toList = none)
    (hnames : imageNames mem st.images ≠ []) : tabfunc st true mem fuel [] = .fault := by
  obtain ⟨name, rest, hcons⟩ := List.exists_cons_of_ne_nil hnames
  simp only [tabfunc, cfgPrintImages, hdefault, hcons, List.foldlM_cons, printlabel]
  rfl

end Tab

/-! ## §3 What the parser establishes -/

/-- Tables have the types they are initialised with, and a completion length comes from a label
or an alias. -/
structure Labelled (st : CfgState) : Prop where
  valid : st.Valid
  options : entryType st.options labelName = none ∧ entryType st.options aliasName = none
  images : ∀ table ∈ st.images,
    entryType table labelName = some .strg ∧ entryType table aliasName = some .strg
  length : 0 < st.tabCompletionLen → ∃ table ∈ st.images,
    (cfgGetStrgI table labelName).isSome ∨ (cfgGetStrgI table aliasName).isSome

theorem labelled_start (cpu : Nat) : Labelled (cfgStart cpu) where
  valid := fun i hi => by cases hi
  options := by
    show entryType cfOptions labelName = none ∧ entryType cfOptions aliasName = none
    decide
  images := fun table htable => absurd htable List.not_mem_nil
  length := fun h => absurd h (Nat.lt_irrefl 0)

theorem walkTable_eq_none {table : List Config} {item : CStr} {value : Option CStr} :
    walkTable item value table = none ↔ entryType table item = none := by
  induction table with
  | nil => simp [walkTable, entryType]
  | cons w rest ih =>
    simp only [entryType, Option.map_eq_none_iff] at ih
    cases h : strcasecmpEq w.name item with
    | true => simp [walkTable, entryType, h]
    | false => simp [walkTable, entryType, h, ih]

/-- An assignment takes nothing away. -/
theorem cfgGetStrgI_assign_isSome {table : List Config} {item : CStr}
    (h : (cfgGetStrgI table item).isSome) (p : Item) : (cfgGetStrgI (assign table p) item).isSome := by
  rw [cfgGetStrgI_assign, Option.isSome_or, h, Bool.or_true]

/-- A string entry takes a value. -/
theorem cfgGetStrgI_assign_self {table : List Config} {item value : CStr}
    (h : entryType table item = some .strg) :
    (cfgGetStrgI (assign table (item, some value)) item).isSome := by
  have hself : strcasecmpEq item item = true := by simp [strcasecmpEq]
  rw [cfgGetStrgI_assign, if_pos hself, Option.isSome_or]
  simp [acceptedValue, h, newData]

/-- The global table has no entry that counts as a completion. -/
theorem Labelled.not_options {st : CfgState} (h : Labelled st) {item : CStr} {value : Option CStr}
    (hcompletes : completes item value = true) {t : List Config}
    (hwalk : walkTable item value st.table = some t) : st.currTable ≠ .options := by
  intro hcurr
  have htable : st.table = st.options := by simp [CfgState.table, hcurr]
  rw [completes, Bool.and_eq_true, Bool.or_eq_true, decide_eq_true_eq, decide_eq_true_eq]
    at hcompletes
  have hnone : walkTable item value st.table = none := by
    rw [htable]
    rcases hcompletes.2 with rfl | rfl
    · exact walkTable_eq_none.mpr h.options.1
    · exact walkTable_eq_none.mpr h.options.2
  cases hnone.symm.trans hwalk

theorem Labelled.assign {st : CfgState} (h : Labelled st) (item : CStr) (value : Option CStr) :
    Labelled (cfgAssign st item value).1 := by
  rcases cfgAssign_cases st item value with ⟨-, hcases⟩ | ⟨hwalk, hcases⟩
  · rw [hcases]
    exact h
  · rw [hcases]
    generalize ht : LiloBoot.Cfg.assign st.table (item, value) = t at hwalk
    refine ⟨h.valid.setTable t, ?_, fun table hin => ?_, fun hlen => ?_⟩
    · rcases st.setTable_options t with hopt | ⟨hopt, htable⟩
      · simpa only [hopt] using h.options
      · show entryType (st.setTable t).options _ = none ∧ entryType (st.setTable t).options _ = none
        rw [hopt, ← ht, entryType_assign, entryType_assign, htable]
        exact h.options
    · rcases CfgState.mem_setTable hin with hin | ⟨rfl, hcurr⟩
      · exact h.images table hin
      · rw [← ht, entryType_assign, entryType_assign]
        exact h.images _ (CfgState.table_mem h.valid hcurr)
    · by_cases hcompletes : completes item value = true
      · have hcurr := h.not_options hcompletes hwalk
        have hentries := h.images _ (CfgState.table_mem h.valid hcurr)
        refine ⟨t, CfgState.setTable_mem h.valid hcurr t, ?_⟩
        rw [completes, Bool.and_eq_true, Bool.or_eq_true, decide_eq_true_eq, decide_eq_true_eq]
          at hcompletes
        obtain ⟨v, rfl⟩ := Option.isSome_iff_exists.mp hcompletes.1
        rw [← ht]
        rcases hcompletes.2 with rfl | rfl
        · exact .inl (cfgGetStrgI_assign_self hentries.1)
        · exact .inr (cfgGetStrgI_assign_self hentries.2)
      · simp only [hcompletes, Bool.false_eq_true, if_false] at hlen
        obtain ⟨table, hin, hnamed⟩ := h.length hlen
        rcases CfgState.setTable_keeps h.valid hin t with hin | ⟨rfl, hcurr⟩
        · exact ⟨table, hin, hnamed⟩
        · refine ⟨t, CfgState.setTable_mem h.valid hcurr t, ?_⟩
          rw [← ht]
          exact hnamed.imp (cfgGetStrgI_assign_isSome · _) (cfgGetStrgI_assign_isSome · _)

/-- A new section keeps it. -/
theorem Labelled.opened {st : CfgState} (h : Labelled st) : Labelled st.opened := by
  refine ⟨st.opened_valid, h.options, ?_, ?_⟩
  · intro table hin
    rcases List.mem_append.mp hin with hin | hin
    · exact h.images table hin
    · rw [List.mem_singleton.mp hin]
      decide
  · intro hlen
    obtain ⟨table, hin, hnamed⟩ := h.length hlen
    exact ⟨table, List.mem_append_left _ hin, hnamed⟩

theorem Labelled.cfgSet {st : CfgState} (h : Labelled st) (malloc : Bool) (item : CStr)
    (value : Option CStr) : Labelled (cfgSet malloc st item value).1 := by
  have hstep := cfgSet_step malloc st item value
  generalize LiloBoot.Cfg.cfgSet malloc st item value = r at hstep ⊢
  cases hstep with
  | skips => exact ⟨h.valid, h.options, h.images, h.length⟩
  | noMemory => exact ⟨h.valid, h.options, h.images, h.length⟩
  | opens => exact h.opened.assign _ _
  | passes => exact h
  | assigns => exact h.assign item value

theorem Labelled.cfgItems {malloc : Nat → Bool} (items : List Item) {st : CfgState}
    (h : Labelled st) : Labelled (cfgItems malloc st items) :=
  cfgItems_keeps items (fun _ h p _ memory => h.cfgSet memory p.1 p.2) st h

/-! ## §4 Queries -/

theorem imageNames_ne_nil {images : List (List Config)} (mem : Memory) (h : ∃ table ∈ images,
    (cfgGetStrgI table labelName).isSome ∨ (cfgGetStrgI table aliasName).isSome) :
    imageNames mem images ≠ [] := by
  obtain ⟨table, hin, hnamed⟩ := h
  obtain ⟨i, hi, rfl⟩ := List.mem_iff_getElem.mp hin
  have hzip : (images[i], i) ∈ images.zipIdx := List.mem_zipIdx_iff_getElem?.mpr (by simp [hi])
  intro hnil
  have hsection : sectionNames mem i images[i] = [] := List.flatMap_eq_nil_iff.mp hnil _ hzip
  rw [sectionNames, List.append_eq_nil_iff] at hsection
  rcases hnamed with hlabel | halias
  · obtain ⟨text, htext⟩ := Option.isSome_iff_exists.mp hlabel
    simp [htext] at hsection
  · obtain ⟨text, htext⟩ := Option.isSome_iff_exists.mp halias
    simp [htext] at hsection

/-- **The queries and the Tab key are safe, for a configuration that is accepted or for none, just
where there is one, with a default and with a label or an image in every section.** -/
theorem queries_never_fault_iff (cpu : Nat) (malloc : Nat → Bool) (tabMalloc : Bool)
    (conf : Option (List Item))
    (haccepted : ∀ items, conf = some items → (cfgParse cpu malloc tabMalloc items).2 = true) :
    NeverFaults (cfgLoaded cpu malloc tabMalloc conf).1 (cfgLoaded cpu malloc tabMalloc conf).2
      ↔ ∃ items, conf = some items ∧ Answers (cfgParse cpu malloc tabMalloc items).1 := by
  cases conf with
  | none =>
    constructor
    · intro h
      exact absurd tabfunc_no_buffer (h.tab (fun _ _ _ => '\x00') 0 [])
    · rintro ⟨items, hitems, -⟩
      cases hitems
  | some items =>
    have haccepted := haccepted items rfl
    have hlabelled : Labelled (cfgParse cpu malloc tabMalloc items).1 :=
      (labelled_start cpu).cfgItems items
    have hlen : 0 < (cfgParse cpu malloc tabMalloc items).1.tabCompletionLen := by
      rw [cfgParse, Bool.and_eq_true, decide_eq_true_eq] at haccepted
      exact haccepted.1
    have hnames : ∀ st : CfgState, (∀ table ∈ st.images, imageLabel table ≠ none)
        ↔ ∀ table ∈ st.images,
          (cfgGetStrgI table labelName).isSome ∨ (cfgGetStrgI table imageName).isSome :=
      fun st => forall₂_congr fun table _ => imageLabel_ne_none
    show NeverFaults (cfgParse cpu malloc tabMalloc items).1 (cfgParse cpu malloc tabMalloc items).2 ↔ _
    rw [haccepted]
    constructor
    · intro h
      refine ⟨items, rfl, ?_, (hnames _).mp ((strg_iff _).mp h.strg)⟩
      by_contra hdefault
      rw [Option.not_isSome_iff_eq_none] at hdefault
      have hprint := imageNames_ne_nil (fun _ _ _ => '\x00') (hlabelled.length hlen)
      exact h.tab _ 0 [] (tabfunc_no_default hdefault hprint)
    · rintro ⟨items', hitems, hanswers⟩
      obtain rfl := Option.some.inj hitems
      obtain ⟨d, hdefault⟩ := Option.isSome_iff_exists.mp hanswers.default
      have hstrg := (strg_iff _).mpr ((hnames _).mpr hanswers.named)
      refine ⟨hstrg, fun image item => ?_, ?_, fun mem fuel buf => tabfunc_ne_fault hdefault buf⟩
      · rw [cfgGetFlag, Ne, Option.map_eq_none_iff]
        exact hstrg image item
      · rw [cfgGetDefault, hdefault]
        exact Option.some_ne_none _

/-- Two images, one with a label, and a default. -/
def defaultItems : List Item :=
  [("default".toList, some "linux".toList), (imageName, some "/boot/vmlinux".toList),
   (labelName, some "linux".toList), (imageName, some "/boot/old".toList)]

theorem queries_safe_sample :
    NeverFaults (cfgLoaded 64 (fun _ => true) true (some defaultItems)).1
      (cfgLoaded 64 (fun _ => true) true (some defaultItems)).2 :=
  (queries_never_fault_iff 64 (fun _ => true) true (some defaultItems)
    (fun items hitems => by cases hitems; decide)).mpr
    ⟨defaultItems, rfl, by decide, by decide⟩

/-- One image with a label, and no default. -/
def noDefaultItems : List Item :=
  [(imageName, some "/boot/vmlinux".toList), (labelName, some "linux".toList)]

/-- The file is accepted, and a Tab at the empty prompt compares its label with a null pointer. -/
theorem noDefault_faults :
    (cfgParse 64 (fun _ => true) true noDefaultItems).2 = true
      ∧ tabfunc (cfgParse 64 (fun _ => true) true noDefaultItems).1 true (fun _ _ _ => '\x00') 1 []
        = .fault
      ∧ ¬ NeverFaults (cfgParse 64 (fun _ => true) true noDefaultItems).1 true := by
  have hfault : tabfunc (cfgParse 64 (fun _ => true) true noDefaultItems).1 true
      (fun _ _ _ => '\x00') 1 [] = .fault := by decide
  exact ⟨by decide, hfault, fun h => h.tab _ 1 [] hfault⟩

end LiloBoot.Boot
