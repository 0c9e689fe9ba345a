/-
LiloBoot.Boot.UsedTheorems — when a configuration is used.

`cfg_parse` returns whether there is a `tab_completion_buf`, and it allocates
one if it has measured a label or an alias: it does so only for the names
`label` and `alias` in lower case. The Tab key lists labels and aliases, and
compares each with the default. So a file whose images go by their base names
is not used at all, and one such image in a file is not listed.

§1 says when a name has been measured, and §2 what the Tab key lists and what
a query finds, both in terms of the sections of the text.
-/
import LiloBoot.Boot.TabKeyTheorems
import LiloBoot.Boot.TwoRunTheorems
import LiloBoot.Cfg.ItemsTheorems

namespace LiloBoot.Boot

open LiloBoot.Cfg

/-! ## §1 Measured names -/

/-- A label or an alias in lower case, with a value that is not empty. -/
def measured (p : Item) : Bool := completes p.1 p.2 && p.2 != some []

/-- The items that follow belong to a section that is read. -/
def InSection (st : CfgState) : Prop := st.reusePrevImage = false ∧ st.currTable ≠ .options

theorem completes_iff {item : CStr} {value : Option CStr} : completes item value = true
    ↔ (∃ v, value = some v) ∧ (item = labelName ∨ item = aliasName) := by
  simp [completes, Option.isSome_iff_exists]

theorem measured_iff {item : CStr} {value : Option CStr} : measured (item, value) = true
    ↔ completes item value = true ∧ 0 < (value.getD []).length := by
  cases value with
  | none => simp [measured, completes]
  | some v => simp [measured, List.length_pos_iff]

/-- A name is measured where there is an entry for it: in sections, but not in the global scope. -/
theorem cfgAssign_measured {st : CfgState} (h : Labelled st) (item : CStr)
    (value : Option CStr) :
    0 < (cfgAssign st item value).1.tabCompletionLen
      ↔ 0 < st.tabCompletionLen ∨ st.currTable ≠ .options ∧ measured (item, value) = true := by
  rw [measured_iff]
  rcases cfgAssign_cases st item value with ⟨hwalk, hcases⟩ | ⟨hwalk, hcases⟩
  · have hnot : ¬ (st.currTable ≠ .options ∧ completes item value = true) := by
      rintro ⟨hcurr, hcompletes⟩
      have hentries := h.images _ (CfgState.table_mem h.valid hcurr)
      rw [walkTable_eq_none] at hwalk
      rcases (completes_iff.mp hcompletes).2 with rfl | rfl
      · simp [hentries.1] at hwalk
      · simp [hentries.2] at hwalk
    simp only [hcases]
    exact ⟨.inl, fun hlen => hlen.resolve_right fun hin => hnot ⟨hin.1, hin.2.1⟩⟩
  · cases hcompletes : completes item value with
    | false => simp [hcases, hcompletes]
    | true => simp [hcases, hcompletes, h.not_options hcompletes hwalk]

theorem cfgAssign_mode {st : CfgState} (h : Labelled st) (item : CStr) (value : Option CStr) :
    (cfgAssign st item value).1.archimage = st.archimage
      ∧ (InSection (cfgAssign st item value).1 ↔ InSection st)
      ∧ (cfgAssign st item value).1.reusePrevImage = st.reusePrevImage := by
  obtain ⟨len, hst, -⟩ := cfgAssign_spec h.valid item value
  simp [hst, InSection]

/-- What the loop has measured when it ends. -/
theorem cfgItems_measured (cpu : Nat) (items : List Item) : ∀ {st : CfgState}, Labelled st →
    st.archimage = (cfgStart cpu).archimage →
    (0 < (cfgItems (fun _ => true) st items).tabCompletionLen
      ↔ 0 < st.tabCompletionLen ∨ (InSection st ∧ ∃ p ∈ scope items, measured p = true)
        ∨ ∃ s ∈ openedSections cpu items, ∃ p ∈ s.body, measured p = true) := by
  induction items with
  | nil =>
    intro st _ _
    simp [cfgItems, scope, openedSections]
  | cons p rest ih =>
    intro st h harch
    obtain ⟨item, value⟩ := p
    cases hop : isImageItem item with
    | true =>
      have hset := cfgSet_opener harch hop value
      have hscope := scope_cons_opener hop value rest
      cases hopens : opensSection cpu item with
      | false =>
        rw [hopens, if_neg Bool.false_ne_true] at hset
        have hskip : Labelled { st with reusePrevImage := true } :=
          ⟨h.valid, h.options, h.images, h.length⟩
        have hrun := ih hskip harch
        simpa [cfgItems, hset, hscope, openedSections, hopens, InSection] using hrun
      | true =>
        rw [hopens, if_pos rfl] at hset
        have hopened : Labelled st.opened := h.opened
        have hres := cfgAssign_nonneg st.opened imageName value
        obtain ⟨harch', hmode, -⟩ := cfgAssign_mode hopened imageName value
        have hlen := cfgAssign_measured hopened imageName value
        have himage : measured (imageName, value) = false := by
          cases value <;> rfl
        have hrun := ih (hopened.assign imageName value) (harch'.trans harch)
        have hin : InSection st.opened := ⟨rfl, TableRef.noConfusion⟩
        have hsame : st.opened.tabCompletionLen = st.tabCompletionLen := rfl
        rw [hlen, hmode] at hrun
        simp only [cfgItems, hset, if_neg (Int.not_lt.mpr hres), hrun]
        simp [himage, hin, hsame, hscope, openedSections, hopens]
    | false =>
      rw [openedSections_other hop, scope_cons_other hop]
      cases hreuse : st.reusePrevImage with
      | true =>
        have hset : cfgSet true st item value = (st, 0) := by simp [cfgSet, hop, hreuse]
        have hrun := ih h harch
        simpa [cfgItems, hset, InSection, hreuse] using hrun
      | false =>
        have hset : cfgSet true st item value = cfgAssign st item value := by
          simp [cfgSet, hop, hreuse]
        have hres := cfgAssign_nonneg st item value
        obtain ⟨harch', hmode, -⟩ := cfgAssign_mode h item value
        have hlen := cfgAssign_measured h item value
        have hrun := ih (h.assign item value) (harch'.trans harch)
        have hin : InSection st ↔ st.currTable ≠ .options := by simp [InSection, hreuse]
        rw [hlen, hmode, hin] at hrun
        simp only [cfgItems, hset, if_neg (Int.not_lt.mpr hres), hrun]
        simp only [hin, List.mem_cons, exists_eq_or_imp, and_or_left, or_assoc]

/-- A configuration is accepted just where it has a name that is measured. -/
theorem accepted_iff (cpu : Nat) (items : List Item) :
    0 < (cfgItems (fun _ => true) (cfgStart cpu) items).tabCompletionLen
      ↔ ∃ s ∈ openedSections cpu items, ∃ p ∈ s.body, measured p = true := by
  have hstart : ¬ 0 < (cfgStart cpu).tabCompletionLen := Nat.lt_irrefl 0
  have hglobal : ¬ InSection (cfgStart cpu) := fun hin => hin.2 rfl
  simpa [hstart, hglobal] using @cfgItems_measured cpu items _ (labelled_start cpu) rfl

/-! ## §2 Listing and finding -/

/-- With a default, a Tab at the empty prompt prints every label and every alias. -/
theorem tabfunc_lists {st : CfgState} {d : CStr} (mem : Memory) (fuel : Nat)
    (hdefault : cfgGetStrgI st.options "default".toList = some d) :
    tabfunc st true mem fuel []
      = .done ([], (imageNames mem st.images).map fun name => (name.text, d == name.text)) := by
  have hprint : ∀ (names : List StrAt) (p : Pass),
      names.foldlM (fun p name => printlabel (some d) name.text p) p
        = some { p with
            printed := p.printed ++ names.map fun name => (name.text, d == name.text) } := by
    intro names
    induction names with
    | nil => simp
    | cons name rest ih =>
      intro p
      have hstep : printlabel (some d) name.text p
          = some { p with printed := p.printed ++ [(name.text, d == name.text)] } := rfl
      rw [List.foldlM_cons, hstep]
      show rest.foldlM _ _ = _
      rw [ih]
      simp
  simp only [tabfunc, cfgPrintImages, hdefault, hprint, if_true, List.nil_append]
  rfl

/-- A query by a name of a section ends at a section of that name. -/
theorem sectionOf_opened {name : CStr} {ss : List Opened}
    (hbody : ∀ s ∈ ss, ∀ p ∈ s.body, isImageItem p.1 = false)
    (himage : ∀ s ∈ ss, s.image ≠ none) (h : ∃ s ∈ ss, name ∈ s.names) :
    ∃ s ∈ ss, name ∈ s.names ∧ sectionOf name (ss.map Opened.table) = some s.table := by
  induction ss with
  | nil =>
    obtain ⟨s, hs, -⟩ := h
    exact absurd hs List.not_mem_nil
  | cons s rest ih =>
    obtain ⟨image, hpath⟩ := Option.ne_none_iff_exists'.mp (himage s List.mem_cons_self)
    obtain ⟨label, hlabel⟩ : ∃ label, (s.value labelName).or (s.image.map basename) = some label := by
      cases s.value labelName <;> simp [hpath]
    have htest : (decide (label = name) || decide (cfgGetStrgI s.table aliasName = some name)) = true
        ↔ name ∈ s.names := by
      rw [cfgGetStrgI_opened, Bool.or_eq_true, decide_eq_true_eq, decide_eq_true_eq, Opened.names,
        hlabel, List.mem_append, Option.mem_toList, Option.mem_toList, Option.some_inj]
    rw [List.map_cons, sectionOf, imageLabel_opened (hbody s List.mem_cons_self), hlabel]
    by_cases hname : name ∈ s.names
    · exact ⟨s, List.mem_cons_self, hname, by simp only [htest.mpr hname, if_true]⟩
    · have hrest : ∃ s ∈ rest, name ∈ s.names := by
        obtain ⟨t, ht, hin⟩ := h
        rcases List.mem_cons.mp ht with rfl | ht
        · exact absurd hin hname
        · exact ⟨t, ht, hin⟩
      obtain ⟨t, ht, hin, hfound⟩ := ih (fun t ht => hbody t (List.mem_cons_of_mem _ ht))
        (fun t ht => himage t (List.mem_cons_of_mem _ ht)) hrest
      refine ⟨t, List.mem_cons_of_mem _ ht, hin, ?_⟩
      simp only [if_neg (mt htest.mp hname), hfound]

section Loaded

variable {cpu : Nat} {items : List Item}

/-- The sections and the global options of the text are in the tables. -/
theorem loaded_tables (cpu : Nat) (items : List Item) :
    (cfgItems (fun _ => true) (cfgStart cpu) items).images
        = (openedSections cpu items).map Opened.table
      ∧ ∀ item, cfgGetStrgI (cfgItems (fun _ => true) (cfgStart cpu) items).options item
        = globalValue items item := by
  obtain ⟨hoptions, himages⟩ :=
    cfgItems_opened cpu items (cfgStart cpu) (labelled_start cpu).valid rfl
  refine ⟨himages, fun item => ?_⟩
  rw [hoptions]
  exact cfgGetStrgI_global items item

theorem globalValue_unknown {item : CStr} (h : entryType cfOptions item = none) :
    globalValue items item = none := lastValue_unknown h _

/-- What the Tab key lists, by section. -/
theorem mem_listed (mem : Memory) (name : CStr) :
    name ∈ (imageNames mem (cfgItems (fun _ => true) (cfgStart cpu) items).images).map StrAt.text
      ↔ ∃ s ∈ openedSections cpu items,
        s.value labelName = some name ∨ s.value aliasName = some name := by
  rw [imageNames_text, completionNames, (loaded_tables cpu items).1]
  simp [cfgGetStrgI_opened]

end Loaded

/-! ## §3 The configuration -/

/-- What a configuration is for: it is accepted, the Tab key lists every image, and every image is
found with its options by each of its names. -/
structure Used (cpu : Nat) (items : List Item) (st : CfgState) (useconf : Bool) : Prop where
  accepted : useconf = true
  listed : ∀ mem fuel, ∃ printed, tabfunc st useconf mem fuel [] = .done ([], printed)
    ∧ ∀ s ∈ openedSections cpu items, ∃ name ∈ s.names, name ∈ printed.map Prod.fst
  bootable : ∀ s ∈ openedSections cpu items, ∀ name ∈ s.names,
    (∀ item, cfgGetStrg st (some name) item = some (s.answer items item))
      ∧ ∃ path, path ≠ [] ∧ s.answer items imageName = some path

/-- A configuration that is used: there is a default, some section has a name that is measured,
every section has an image and a label or an alias, and sections that share a name agree. -/
structure Usable (cpu : Nat) (items : List Item) : Prop where
  default : (globalValue items "default".toList).isSome
  measured : ∃ s ∈ openedSections cpu items, ∃ p ∈ s.body, measured p = true
  image : ∀ s ∈ openedSections cpu items, ∃ path, path ≠ [] ∧ s.image = some path
  named : ∀ s ∈ openedSections cpu items,
    (s.value labelName).isSome ∨ (s.value aliasName).isSome
  distinct : ∀ s ∈ openedSections cpu items, ∀ s' ∈ openedSections cpu items,
    ∀ name ∈ s.names, name ∈ s'.names → ∀ item, s.answer items item = s'.answer items item

section Loaded

variable {cpu : Nat} {items : List Item}

theorem answer_unknown {s : Opened} {item : CStr} (h : entryType cfOptions item = none) :
    s.answer items item = s.value item := by
  rw [Opened.answer, globalValue_unknown h, Option.or_none]

theorem Usable.used (h : Usable cpu items) :
    Used cpu items (cfgItems (fun _ => true) (cfgStart cpu) items) true := by
  obtain ⟨himages, hoptions⟩ := loaded_tables cpu items
  obtain ⟨d, hdefault⟩ := Option.isSome_iff_exists.mp h.default
  refine ⟨rfl, fun mem fuel => ?_, fun s hs name hname => ⟨fun item => ?_, ?_⟩⟩
  · refine ⟨_, tabfunc_lists mem fuel ((hoptions _).trans hdefault), fun s hs => ?_⟩
    have hlisted : ∀ name, s.value labelName = some name ∨ s.value aliasName = some name →
        name ∈ ((imageNames mem (cfgItems (fun _ => true) (cfgStart cpu) items).images).map
          fun name => (name.text, d == name.text)).map Prod.fst := by
      intro name hname
      rw [List.map_map]
      exact (mem_listed mem name).mpr ⟨s, hs, hname⟩
    rcases h.named s hs with hlabel | halias
    · obtain ⟨name, hname⟩ := Option.isSome_iff_exists.mp hlabel
      exact ⟨name, by simp [Opened.names, hname], hlisted name (.inl hname)⟩
    · obtain ⟨name, hname⟩ := Option.isSome_iff_exists.mp halias
      exact ⟨name, by simp [Opened.names, hname], hlisted name (.inr hname)⟩
  · have himage : ∀ t ∈ openedSections cpu items, t.image ≠ none := by
      intro t ht
      obtain ⟨path, -, hpath⟩ := h.image t ht
      simp [hpath]
    obtain ⟨t, ht, hin, hfound⟩ := sectionOf_opened openedSections_body himage ⟨s, hs, hname⟩
    rw [← himages] at hfound
    rw [cfgGetStrg, cfgGetStrgImages_sectionOf _ item hfound, cfgGetStrgI_opened, hoptions]
    exact congrArg some (h.distinct t ht s hs name hin hname item)
  · obtain ⟨path, hne, hpath⟩ := h.image s hs
    exact ⟨path, hne, by
      rw [answer_unknown (by decide), Opened.value_image (openedSections_body s hs), hpath]⟩

theorem Used.usable {useconf : Bool}
    (h : Used cpu items (cfgItems (fun _ => true) (cfgStart cpu) items) useconf)
    (haccepted : useconf = decide (0 < (cfgItems (fun _ => true) (cfgStart cpu)
      items).tabCompletionLen)) : Usable cpu items := by
  have htrue := h.accepted
  subst htrue
  obtain ⟨himages, hoptions⟩ := loaded_tables cpu items
  have hlabelled : Labelled (cfgItems (fun _ => true) (cfgStart cpu) items) :=
    (labelled_start cpu).cfgItems items
  have hlen : 0 < (cfgItems (fun _ => true) (cfgStart cpu) items).tabCompletionLen :=
    of_decide_eq_true haccepted.symm
  obtain ⟨printed, hprinted, hlisted⟩ := h.listed (fun _ _ _ => '\x00') 0
  have hdefault : (globalValue items "default".toList).isSome := by
    by_contra hnone
    rw [Option.not_isSome_iff_eq_none, ← hoptions] at hnone
    have hnames := imageNames_ne_nil (fun _ _ _ => '\x00') (hlabelled.length hlen)
    rw [tabfunc_no_default hnone hnames] at hprinted
    cases hprinted
  have hagree : ∀ s ∈ openedSections cpu items, ∀ s' ∈ openedSections cpu items,
      ∀ name ∈ s.names, name ∈ s'.names → ∀ item, s.answer items item = s'.answer items item := by
    intro s hs s' hs' name hname hname' item
    have hfound := (h.bootable s hs name hname).1 item
    rw [(h.bootable s' hs' name hname').1 item] at hfound
    exact (Option.some.inj hfound).symm
  refine ⟨hdefault, ?_, fun s hs => ?_, fun s hs => ?_, hagree⟩
  · exact (accepted_iff cpu items).mp hlen
  · obtain ⟨name, hname, -⟩ := hlisted s hs
    obtain ⟨path, hne, hpath⟩ := (h.bootable s hs name hname).2
    rw [answer_unknown (by decide), Opened.value_image (openedSections_body s hs)] at hpath
    exact ⟨path, hne, hpath⟩
  · -- a base name is listed only as the name of a section that answers otherwise
    by_contra hnone
    rw [not_or, Option.not_isSome_iff_eq_none, Option.not_isSome_iff_eq_none] at hnone
    obtain ⟨d, hd⟩ := Option.isSome_iff_exists.mp hdefault
    obtain ⟨name, hname, hin⟩ := hlisted s hs
    rw [tabfunc_lists _ _ ((hoptions _).trans hd)] at hprinted
    cases hprinted
    rw [List.map_map] at hin
    obtain ⟨s', hs', hnamed⟩ := (mem_listed (fun _ _ _ => '\x00') name).mp hin
    have hname' : name ∈ s'.names := by
      rcases hnamed with hlabel | halias
      · simp [Opened.names, hlabel]
      · simp [Opened.names, halias]
    have hlabel := hagree s hs s' hs' name hname hname' labelName
    have halias := hagree s hs s' hs' name hname hname' aliasName
    rw [answer_unknown (by decide), answer_unknown (by decide)] at hlabel halias
    rw [← hlabel, ← halias, hnone.1, hnone.2] at hnamed
    simp at hnamed

end Loaded

/-- **A text without an error is used** just where it has a default, a label or an alias in lower
case that is not empty, and an image and a label or an alias in every section, and where sections
that share a name agree. -/
theorem cfgParse_used_iff (src : Source) (cpu fuel : Nat) (items : List Item)
    (htext : textItems src fuel = some (items, false)) :
    (∃ st s useconf, Cfg.cfgParse src cpu (fun _ => true) true fuel = some (st, s, useconf)
      ∧ Used cpu items st useconf) ↔ Usable cpu items := by
  obtain ⟨s, hparse⟩ := cfgParse_items htext cpu (fun _ => true) true
  rw [parseItems_snd, Bool.not_false, Bool.true_and, Bool.and_true] at hparse
  constructor
  · rintro ⟨st, s', useconf, hrun, hused⟩
    rw [hparse] at hrun
    obtain ⟨rfl, -, rfl⟩ : _ = st ∧ s = s' ∧ _ = useconf := by simpa using hrun
    exact hused.usable rfl
  · intro husable
    refine ⟨_, s, _, hparse, ?_⟩
    rw [decide_eq_true ((accepted_iff cpu items).mpr husable.measured)]
    exact husable.used

/-- Two images, one with a label and one with an alias, and a default. -/
def usedText : CStr :=
  "default=linux\nimage=/vmlinux\nlabel=linux\nimage=/old\nalias=o\n".toList

def usedItems : List Item :=
  [("default".toList, some "linux".toList), (imageName, some "/vmlinux".toList),
   (labelName, some "linux".toList), (imageName, some "/old".toList),
   (aliasName, some "o".toList)]

theorem usedItems_usable : Usable 64 usedItems where
  default := by decide
  measured := by decide
  image := fun s hs => by
    have hopened : s ∈ [⟨some "/vmlinux".toList, [(labelName, some "linux".toList)]⟩,
        ⟨some "/old".toList, [(aliasName, some "o".toList)]⟩] := hs
    rcases List.mem_pair.mp hopened with rfl | rfl
    · exact ⟨_, by decide, rfl⟩
    · exact ⟨_, by decide, rfl⟩
  named := by decide
  distinct := fun s hs s' hs' name hname hname' item => by
    have hsame : ∀ s ∈ openedSections 64 usedItems, ∀ s' ∈ openedSections 64 usedItems,
        ∀ name ∈ s.names, name ∈ s'.names → s = s' := by decide
    rw [hsame s hs s' hs' name hname hname']

theorem usedText_used :
    ∃ st s useconf, Cfg.cfgParse (textSource usedText) 64 (fun _ => true) true 80
      = some (st, s, useconf) ∧ Used 64 usedItems st useconf :=
  (cfgParse_used_iff (textSource usedText) 64 80 usedItems (by decide)).mpr usedItems_usable

/-- One image that goes by the base name of its path. -/
def baseNameText : CStr := "default=vmlinux\nimage=/boot/vmlinux\n".toList

def baseNameItems : List Item :=
  [("default".toList, some "vmlinux".toList), (imageName, some "/boot/vmlinux".toList)]

/-- The text has a section and no error, and `cfg_parse` returns 0 for it. -/
theorem baseName_unused :
    textItems (textSource baseNameText) 50 = some (baseNameItems, false)
      ∧ openedSections 64 baseNameItems ≠ []
      ∧ (∃ st s, Cfg.cfgParse (textSource baseNameText) 64 (fun _ => true) true 50
        = some (st, s, false))
      ∧ ¬ ∃ st s useconf, Cfg.cfgParse (textSource baseNameText) 64 (fun _ => true) true 50
        = some (st, s, useconf) ∧ Used 64 baseNameItems st useconf := by
  have htext : textItems (textSource baseNameText) 50 = some (baseNameItems, false) := by decide
  obtain ⟨s, hparse⟩ := cfgParse_items htext 64 (fun _ => true) true
  have hresult : (!(parseItems (fun _ => true) false (cfgStart 64) baseNameItems).2
      && (decide (0 < (cfgItems (fun _ => true) (cfgStart 64) baseNameItems).tabCompletionLen)
        && true)) = false := by decide
  rw [hresult] at hparse
  refine ⟨htext, by decide, ⟨_, s, hparse⟩, ?_⟩
  rintro ⟨st, s', useconf, hrun, hused⟩
  rw [hparse, hused.accepted] at hrun
  cases hrun

end LiloBoot.Boot
