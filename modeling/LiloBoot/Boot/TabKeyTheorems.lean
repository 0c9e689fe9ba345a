/-
LiloBoot.Boot.TabKeyTheorems — the Tab key on a configuration that is accepted.

The names the key completes are values of items of the file, and those given
as `label` and `alias` in lower case have been measured for `tab_completion_len`.
With distinct names and a default the key completes a word to what the
candidates share, or to the only one and a blank. On other configurations the
call can go astray, and `TabOk` says on which.
-/
import LiloBoot.Boot.TabBufferTheorems

namespace LiloBoot.Boot

open LiloBoot.Cfg

/-! ## §1 Where names come from -/

/-- The string is the value of a label or an alias of the file, and no longer than `n` if that is
spelled in lower case. -/
def FromItem (items : List Item) (n : Nat) (v : CStr) : Prop :=
  ∃ p ∈ items, p.2 = some v
    ∧ (strcasecmpEq p.1 labelName = true ∨ strcasecmpEq p.1 aliasName = true)
    ∧ (p.1 = labelName ∨ p.1 = aliasName → v.length ≤ n)

theorem FromItem.mono {items : List Item} {n m : Nat} {v : CStr} (h : FromItem items n v)
    (hle : n ≤ m) : FromItem items m v := by
  obtain ⟨p, hp, hv, hname, hlen⟩ := h
  exact ⟨p, hp, hv, hname, fun hlower => (hlen hlower).trans hle⟩

/-- Every label and alias of a table is such a value. -/
def TableFrom (items : List Item) (n : Nat) (table : List Config) : Prop :=
  ∀ item ∈ [labelName, aliasName], ∀ v, cfgGetStrgI table item = some v → FromItem items n v

/-- So is every one of the configuration, for its `tab_completion_len`. -/
structure NamesFrom (items : List Item) (st : CfgState) : Prop where
  labelled : Labelled st
  images : ∀ table ∈ st.images, TableFrom items st.tabCompletionLen table

theorem TableFrom.mono {items : List Item} {n m : Nat} {table : List Config}
    (h : TableFrom items n table) (hle : n ≤ m) : TableFrom items m table :=
  fun item hitem v hv => (h item hitem v hv).mono hle

theorem namesFrom_start (items : List Item) (cpu : Nat) : NamesFrom items (cfgStart cpu) :=
  ⟨labelled_start cpu, fun _ htable => absurd htable List.not_mem_nil⟩

theorem tableFrom_cfImage (items : List Item) (n : Nat) : TableFrom items n cfImage := by
  intro item _ v hv
  rw [cfgGetStrgI_eq_none cfImage_data] at hv
  cases hv

theorem completionLen_le {n : Nat} (item : CStr) (value : Option CStr) :
    n ≤ if completes item value then max n (value.getD []).length else n := by
  split
  · exact Nat.le_max_left _ _
  · exact Nat.le_refl n

/-- One assignment to a table of an image. -/
theorem TableFrom.assign {items : List Item} {n : Nat} {table : List Config}
    (h : TableFrom items n table)
    (htypes : entryType table labelName = some .strg ∧ entryType table aliasName = some .strg)
    {p : Item} (hp : strcasecmpEq p.1 labelName = true ∨ strcasecmpEq p.1 aliasName = true → p ∈ items) :
    TableFrom items (if completes p.1 p.2 then max n (p.2.getD []).length else n)
      (LiloBoot.Cfg.assign table p) := by
  intro item hitem v hv
  have hle := @completionLen_le n p.1 p.2
  rw [cfgGetStrgI_assign] at hv
  rcases Option.or_eq_some_iff.mp hv with hnew | ⟨-, hold⟩
  · split at hnew
    · rename_i hname
      have htype : entryType table p.1 = some .strg := by
        have hcongr : entryType table p.1 = entryType table item := by
          simp only [entryType, strcasecmpEq_congr hname]
        rw [hcongr]
        simp only [List.mem_cons, List.not_mem_nil, or_false] at hitem
        rcases hitem with rfl | rfl
        · exact htypes.1
        · exact htypes.2
      have hvalue : p.2 = some v := by
        rw [acceptedValue, htype] at hnew
        cases hp2 : p.2 with
        | none => rw [hp2] at hnew; cases hnew
        | some w => rw [hp2] at hnew; exact hnew
      have hnamed : strcasecmpEq p.1 labelName = true ∨ strcasecmpEq p.1 aliasName = true := by
        simp only [List.mem_cons, List.not_mem_nil, or_false] at hitem
        rcases hitem with rfl | rfl
        · exact .inl hname
        · exact .inr hname
      refine ⟨p, hp hnamed, hvalue, hnamed, fun hlower => ?_⟩
      · have hcompletes : completes p.1 p.2 = true := by
          rw [completes, hvalue]
          simpa using hlower
        rw [if_pos hcompletes, hvalue]
        exact Nat.le_max_right _ _
    · cases hnew
  · exact (h item hitem v hold).mono hle

theorem NamesFrom.cfgAssign {items : List Item} {st : CfgState} (h : NamesFrom items st)
    {item : CStr} {value : Option CStr}
    (hp : strcasecmpEq item labelName = true ∨ strcasecmpEq item aliasName = true →
      (item, value) ∈ items) : NamesFrom items (cfgAssign st item value).1 := by
  refine ⟨h.labelled.assign item value, ?_⟩
  rcases cfgAssign_cases st item value with ⟨-, hcases⟩ | ⟨-, hcases⟩
  · rw [hcases]
    exact h.images
  · rw [hcases]
    intro table htable
    rcases CfgState.mem_setTable htable with hin | ⟨rfl, hcurr⟩
    · exact (h.images table hin).mono (completionLen_le item value)
    · have hmem := CfgState.table_mem h.labelled.valid hcurr
      exact (h.images _ hmem).assign (h.labelled.images _ hmem) hp

/-- An opener names neither. -/
theorem opener_not_name {item : CStr} (h : isImageItem item = true) :
    ¬ (strcasecmpEq item labelName = true ∨ strcasecmpEq item aliasName = true) := by
  simp only [isImageItem, Bool.or_eq_true, strcasecmpEq_iff] at h
  simp only [strcasecmpEq_iff]
  rcases h with (h | h) | h
  · rw [h]
    decide
  · rw [h]
    decide
  · rw [h]
    decide

theorem NamesFrom.opened {items : List Item} {st : CfgState} (h : NamesFrom items st) :
    NamesFrom items st.opened := by
  refine ⟨h.labelled.opened, fun table htable => ?_⟩
  rcases List.mem_append.mp htable with htable | htable
  · exact h.images table htable
  · rw [List.mem_singleton.mp htable]
    exact tableFrom_cfImage items _

theorem NamesFrom.cfgSet {items : List Item} {st : CfgState} (h : NamesFrom items st)
    (malloc : Bool) {item : CStr} {value : Option CStr} (hp : (item, value) ∈ items) :
    NamesFrom items (cfgSet malloc st item value).1 := by
  have hlabelled := h.labelled.cfgSet malloc item value
  have hstep := cfgSet_step malloc st item value
  generalize LiloBoot.Cfg.cfgSet malloc st item value = r at hlabelled hstep ⊢
  cases hstep with
  | skips => exact ⟨hlabelled, h.images⟩
  | noMemory => exact ⟨hlabelled, h.images⟩
  | opens _ hname => exact h.opened.cfgAssign fun hcase => absurd hcase (opener_not_name hname)
  | passes => exact h
  | assigns => exact h.cfgAssign fun _ => hp

theorem NamesFrom.cfgItems {items : List Item} {malloc : Nat → Bool} {st : CfgState}
    (h : NamesFrom items st) : NamesFrom items (cfgItems malloc st items) :=
  cfgItems_keeps items (fun _ h _ hp memory => h.cfgSet memory hp) st h

/-- The names of a configuration that has been parsed. -/
theorem completionNames_from {cpu : Nat} {malloc : Nat → Bool} {tabMalloc : Bool}
    {items : List Item} {name : CStr}
    (h : name ∈ completionNames (cfgParse cpu malloc tabMalloc items).1.images) :
    FromItem items (cfgParse cpu malloc tabMalloc items).1.tabCompletionLen name := by
  have hnames : NamesFrom items (cfgParse cpu malloc tabMalloc items).1 :=
    (namesFrom_start items cpu).cfgItems
  obtain ⟨table, htable, hname⟩ := List.mem_flatMap.mp h
  rcases List.mem_append.mp hname with hname | hname
  · exact hnames.images table htable labelName (by simp) name (Option.mem_toList.mp hname)
  · exact hnames.images table htable aliasName (by simp) name (Option.mem_toList.mp hname)

/-! ## §2 Completion -/

/-- Values are C strings. -/
def CStrings (items : List Item) : Prop := ∀ p ∈ items, '\x00' ∉ p.2.getD []

instance (items : List Item) : Decidable (CStrings items) :=
  inferInstanceAs (Decidable (∀ p ∈ items, _))

/-- Item names are in lower case. -/
def LowerCase (items : List Item) : Prop := ∀ p ∈ items, p.1.map tolower = p.1

instance (items : List Item) : Decidable (LowerCase items) :=
  inferInstanceAs (Decidable (∀ p ∈ items, _))

theorem lower_name {item name : CStr} (hitem : item.map tolower = item)
    (hname : name.map tolower = name) (h : strcasecmpEq item name = true) : item = name := by
  rw [strcasecmpEq_iff] at h
  rw [← hitem, h, hname]

theorem FromItem.string {items : List Item} {n : Nat} {v : CStr} (h : FromItem items n v)
    (hstrings : CStrings items) : '\x00' ∉ v := by
  obtain ⟨p, hp, hv, -, -⟩ := h
  have hclean := hstrings p hp
  rwa [hv] at hclean

theorem FromItem.length_le {items : List Item} {n : Nat} {v : CStr} (h : FromItem items n v)
    (hlower : LowerCase items) : v.length ≤ n := by
  obtain ⟨p, hp, -, hname, hlen⟩ := h
  rcases hname with hname | hname
  · exact hlen (.inl (lower_name (hlower p hp) (by decide) hname))
  · exact hlen (.inr (lower_name (hlower p hp) (by decide) hname))

/-- With measured, distinct names and a default the call has what it needs. -/
theorem tabOk_of_distinct {st : CfgState}
    (hdefault : (cfgGetStrgI st.options "default".toList).isSome)
    (hdistinct : (completionNames st.images).Nodup)
    (hmeasured : ∀ name ∈ completionNames st.images, name.length ≤ st.tabCompletionLen)
    (buf : CStr) (remaining : Nat) : TabOk st buf remaining := by
  have hmem : ∀ name ∈ candidates st.images buf remaining, name ∈ completionNames st.images :=
    fun name hname => List.mem_of_mem_filter hname
  refine ⟨fun _ _ => hdefault, fun _ _ name hone => ?_, fun _ _ htwo => ⟨hdefault, ?_, ?_⟩⟩
  · exact hmeasured name (hmem name (by rw [hone]; exact List.mem_cons_self))
  · obtain ⟨a, rest, hcons, hrest⟩ := cons_of_two_le htwo
    obtain ⟨b, rest, rfl⟩ := List.exists_cons_of_ne_nil hrest
    have hnodup : (candidates st.images buf remaining).Nodup := hdistinct.filter _
    rw [hcons] at hnodup ⊢
    refine ⟨a, List.mem_cons_self, b, by simp, fun heq => ?_⟩
    exact (List.nodup_cons.mp hnodup).1 (by simp [heq])
  · intro q hq
    obtain ⟨a, rest, hcons, -⟩ := cons_of_two_le htwo
    have ha : a ∈ candidates st.images buf remaining := by
      rw [hcons]
      exact List.mem_cons_self
    have hle := (hq a ha).length_le
    have := hmeasured a (hmem a ha)
    omega

/-- **The Tab key completes a word to the one name that starts with it, or to the longest common
prefix of those that do, and returns how many characters it has added.** -/
theorem cfgPrintImages_completes (cpu : Nat) (malloc : Nat → Bool) (tabMalloc : Bool)
    (items : List Item) (haccepted : (cfgParse cpu malloc tabMalloc items).2 = true)
    (hstrings : CStrings items) (hlower : LowerCase items)
    (hdefault : (cfgGetStrgI (cfgParse cpu malloc tabMalloc items).1.options
      "default".toList).isSome)
    (hdistinct : (completionNames (cfgParse cpu malloc tabMalloc items).1.images).Nodup)
    (mem : Memory) (buf : CStr) (hbuf : buf ≠ []) (hnul : '\x00' ∉ buf) (remaining : Nat) :
    ∃ after, Completed (candidates (cfgParse cpu malloc tabMalloc items).1.images buf remaining)
        buf after
      ∧ ∃ bound printed, ∀ fuel, bound ≤ fuel →
        cfgPrintImages (cfgParse cpu malloc tabMalloc items).1
            (cfgParse cpu malloc tabMalloc items).2 mem fuel buf remaining = .done (after, printed)
          ∧ cfgPrintImagesAdded (cfgParse cpu malloc tabMalloc items).1
            (cfgParse cpu malloc tabMalloc items).2 mem fuel buf remaining
              = .done ((after.length : Int) - buf.length) := by
  rw [haccepted]
  have hfrom := @completionNames_from cpu malloc tabMalloc items
  generalize (cfgParse cpu malloc tabMalloc items).1 = st at hdefault hdistinct hfrom ⊢
  have hmeasured : ∀ name ∈ completionNames st.images, name.length ≤ st.tabCompletionLen :=
    fun name hname => (hfrom hname).length_le hlower
  have hnames : ∀ name ∈ completionNames st.images, '\x00' ∉ name :=
    fun name hname => (hfrom hname).string hstrings
  by_cases hlen : buf.length ≤ st.tabCompletionLen
  · let room := max remaining buf.length + 1
    have hok := tabOk_of_distinct hdefault hdistinct hmeasured buf remaining
    obtain ⟨bound, r, hdone⟩ := (@printImages_ends_iff st mem buf remaining room hnames hnul
      (by omega) (by omega)).mpr hok
    have hresult := completed_of_done hnames hnul hbuf hlen (hdone bound (Nat.le_refl _))
    refine ⟨r.1, hresult.2.1, bound, r.2, fun fuel hfuel => ?_⟩
    have hrun := cfgPrintImages_of_checked (hdone fuel hfuel)
    refine ⟨hrun, ?_⟩
    rw [cfgPrintImagesAdded, if_neg (by omega), hrun]
  · -- no name is as long as the word
    have hnone : candidates st.images buf remaining = [] := by
      refine List.filter_eq_nil_iff.mpr fun name hname hcand => ?_
      have hpre : name.length < remaining ∧ buf <+: name := by simpa using hcand
      have := hpre.2.length_le
      have := hmeasured name hname
      omega
    refine ⟨buf, by rw [hnone]; rfl, 0, [], fun fuel _ => ⟨if_pos (by omega), ?_⟩⟩
    rw [cfgPrintImagesAdded, if_pos (by omega), Int.sub_self]

/-- Two images, `linux` and `linus`. -/
def twoLabelItems : List Item :=
  [("default".toList, some "linux".toList), (imageName, some "/boot/vmlinux".toList),
   (labelName, some "linux".toList), (imageName, some "/boot/old".toList),
   (labelName, some "linus".toList)]

theorem twoLabels_completed :
    ∃ after, Completed (candidates (cfgParse 64 (fun _ => true) true twoLabelItems).1.images
        ['l'] 500) ['l'] after
      ∧ ∃ bound printed, ∀ fuel, bound ≤ fuel →
        cfgPrintImages (cfgParse 64 (fun _ => true) true twoLabelItems).1
            (cfgParse 64 (fun _ => true) true twoLabelItems).2 (fun _ _ _ => '\x00') fuel ['l'] 500
              = .done (after, printed)
          ∧ cfgPrintImagesAdded (cfgParse 64 (fun _ => true) true twoLabelItems).1
            (cfgParse 64 (fun _ => true) true twoLabelItems).2 (fun _ _ _ => '\x00') fuel ['l'] 500
              = .done ((after.length : Int) - 1) :=
  cfgPrintImages_completes 64 (fun _ => true) true twoLabelItems (by decide)
    (by decide) (by decide) (by decide) (by decide) (fun _ _ _ => '\x00') ['l'] (by decide)
    (by decide) 500

/-! ## §3 Safety -/

/-- With `blanks` before the word, the call ends and stays within the labels, the line and
`tab_completion_buf`. -/
def TabSafe (st : CfgState) (mem : Memory) (blanks : Nat) (buf : CStr) : Prop :=
  ∃ bound r, ∀ fuel, bound ≤ fuel →
    cfgPrintImagesChecked st true mem fuel (cmdLeng - blanks) buf
      (cmdLeng - (blanks + buf.length) - 1) = .done r

/-- **A Tab is safe just where there is a default to compare the names with that are printed, the
candidates do not all read the same, and what is completed has been measured.** -/
theorem tab_safe_iff (cpu : Nat) (malloc : Nat → Bool) (tabMalloc : Bool) (items : List Item)
    (haccepted : (cfgParse cpu malloc tabMalloc items).2 = true) (hstrings : CStrings items)
    (mem : Memory) (blanks : Nat) (buf : CStr) (hnul : '\x00' ∉ buf)
    (hline : blanks + buf.length ≤ cmdLeng - 2) :
    TabSafe (cfgParse cpu malloc tabMalloc items).1 mem blanks buf ↔
      TabOk (cfgParse cpu malloc tabMalloc items).1 buf (cmdLeng - (blanks + buf.length) - 1) := by
  have hnames : ∀ name ∈ completionNames (cfgParse cpu malloc tabMalloc items).1.images,
      '\x00' ∉ name := fun name hname => (completionNames_from hname).string hstrings
  have hleng : cmdLeng = 512 := rfl
  exact printImages_ends_iff hnames hnul (by omega) (by omega)

theorem twoLabels_safe :
    TabSafe (cfgParse 64 (fun _ => true) true twoLabelItems).1 (fun _ _ _ => '\x00') 0 ['l'] ↔
      TabOk (cfgParse 64 (fun _ => true) true twoLabelItems).1 ['l'] 510 :=
  tab_safe_iff 64 (fun _ => true) true twoLabelItems (by decide) (by decide) (fun _ _ _ => '\x00') 0
    ['l'] (by decide) (by decide)

/-- Two images with one label. -/
def oneLabelItems : List Item :=
  [("default".toList, some "linux".toList), (imageName, some "/boot/vmlinux".toList),
   (labelName, some "linux".toList), (imageName, some "/boot/old".toList),
   (labelName, some "linux".toList)]

/-- The labels agree in their NUL too, and are read behind it. -/
theorem oneLabel_unsafe :
    (cfgParse 64 (fun _ => true) true oneLabelItems).2 = true
      ∧ ¬ TabSafe (cfgParse 64 (fun _ => true) true oneLabelItems).1 (fun _ _ _ => '\x00') 0
        ['l'] := by
  refine ⟨by decide, fun hsafe => ?_⟩
  have hnames : ∀ name ∈ completionNames (cfgParse 64 (fun _ => true) true oneLabelItems).1.images,
      '\x00' ∉ name := fun name hname => (completionNames_from hname).string (by decide)
  have hok := (printImages_ends_iff hnames (by decide) (by decide) (by decide)).mp hsafe
  have hcand : candidates (cfgParse 64 (fun _ => true) true oneLabelItems).1.images ['l'] 510
      = ["linux".toList, "linux".toList] := by
    decide
  obtain ⟨-, ⟨a, ha, b, hb, hne⟩, -⟩ := hok.several (by decide) (by decide) (by
    show 2 ≤ (candidates _ ['l'] 510).length
    rw [hcand]
    decide)
  have ha : a ∈ candidates (cfgParse 64 (fun _ => true) true oneLabelItems).1.images ['l'] 510 := ha
  have hb : b ∈ candidates (cfgParse 64 (fun _ => true) true oneLabelItems).1.images ['l'] 510 := hb
  rw [hcand] at ha hb
  simp only [List.mem_cons, List.not_mem_nil, or_false, or_self] at ha hb
  exact hne (ha.trans hb.symm)

end LiloBoot.Boot
