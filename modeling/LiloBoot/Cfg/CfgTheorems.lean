/-
LiloBoot.Cfg.CfgTheorems — the queries of `cfg.c` answer what the file means.

`cfgGetStrg_meaning`: after any list of items has been fed to `cfg_set`, every
query returns the value `meaning` gives, and no query dereferences NULL.

The proof is in two halves. §1 and §2 are about one table: what a walk stores
is what the next look-up of the name finds, so a look-up after a list of
assignments finds the last accepted value. §3 is about the parser state: the
three modes of `cfg_set` (global scope, inside a section that is read, inside
one that is skipped) leave the tables that the scopes of `Meaning` prescribe.
-/
import LiloBoot.Cfg.Opened

namespace LiloBoot.Cfg

/-! ## §1 One assignment -/

/-- Comparing with either of two names that agree up to case is the same test. -/
theorem strcasecmpEq_congr {s t : CStr} (h : strcasecmpEq s t = true) (r : CStr) :
    strcasecmpEq r s = strcasecmpEq r t := by
  rw [strcasecmpEq_iff] at h
  simp only [strcasecmpEq, h]

/-- The table a walk leaves; a walk into `cft_end` leaves it alone. -/
def assign (table : List Config) (p : Item) : List Config :=
  (walkTable p.1 p.2 table).getD table

theorem walkTable_cons_hit {w : Config} {item : CStr} {value : Option CStr}
    {rest : List Config} (h : strcasecmpEq w.name item = true) :
    walkTable item value (w :: rest)
      = some ({ w with data := (newData w.type value).or w.data } :: rest) := by
  simp [walkTable, h]

theorem walkTable_cons_miss {w : Config} {item : CStr} {value : Option CStr}
    {rest : List Config} (h : strcasecmpEq w.name item = false) :
    walkTable item value (w :: rest) = (walkTable item value rest).map (w :: ·) := by
  simp [walkTable, h]

theorem assign_cons_hit {w : Config} {p : Item} {rest : List Config}
    (h : strcasecmpEq w.name p.1 = true) :
    assign (w :: rest) p = { w with data := (newData w.type p.2).or w.data } :: rest := by
  simp [assign, walkTable_cons_hit h]

theorem assign_cons_miss {w : Config} {p : Item} {rest : List Config}
    (h : strcasecmpEq w.name p.1 = false) : assign (w :: rest) p = w :: assign rest p := by
  unfold assign
  rw [walkTable_cons_miss h]
  cases walkTable p.1 p.2 rest <;> rfl

/-- A walk changes data only: names and types of the entries stay. -/
theorem entryType_assign (table : List Config) (p : Item) (name : CStr) :
    entryType (assign table p) name = entryType table name := by
  induction table with
  | nil => rfl
  | cons w rest ih =>
    simp only [entryType] at ih ⊢
    cases h : strcasecmpEq w.name p.1 with
    | true => cases hn : strcasecmpEq w.name name <;> simp [assign_cons_hit h, hn]
    | false => cases hn : strcasecmpEq w.name name <;> simp [assign_cons_miss h, hn, ih]

/-- A look-up after an assignment finds the new value if the names agree and the
entry accepts the value, and what it found before otherwise. -/
theorem cfgGetStrgI_assign (table : List Config) (p : Item) (item : CStr) :
    cfgGetStrgI (assign table p) item
      = (if strcasecmpEq p.1 item then acceptedValue table p else none).or
          (cfgGetStrgI table item) := by
  induction table with
  | nil => simp [assign, walkTable, cfgGetStrgI, acceptedValue, entryType]
  | cons w rest ih =>
    cases hp : strcasecmpEq p.1 item with
    | true =>
      -- both names select the same entry
      have hcongr := strcasecmpEq_congr hp w.name
      cases h : strcasecmpEq w.name p.1 with
      | true =>
        simp [assign_cons_hit h, cfgGetStrgI, ← hcongr, h, acceptedValue, entryType]
      | false =>
        simp only [hp, if_true] at ih
        simp [assign_cons_miss h, cfgGetStrgI, ← hcongr, h, ih, acceptedValue, entryType]
    | false =>
      simp only [hp] at ih
      cases h : strcasecmpEq w.name p.1 with
      | true =>
        have hne : strcasecmpEq w.name item = false := by
          rw [← hp]
          rw [strcasecmpEq_iff] at h
          simp only [strcasecmpEq, h]
        simp [assign_cons_hit h, cfgGetStrgI, hne]
      | false =>
        cases hn : strcasecmpEq w.name item with
        | true => simp [assign_cons_miss h, cfgGetStrgI, hn]
        | false => simp [assign_cons_miss h, cfgGetStrgI, hn, ih]

/-! ## §2 A list of assignments -/

theorem acceptedValue_assign (table : List Config) (p q : Item) :
    acceptedValue (assign table p) q = acceptedValue table q := by
  simp only [acceptedValue, entryType_assign]

theorem lastValue_assign (table : List Config) (p : Item) (items : List Item)
    (item : CStr) : lastValue (assign table p) items item = lastValue table items item := by
  simp only [lastValue, acceptedValue_assign]

theorem lastValue_cons (table : List Config) (p : Item) (items : List Item)
    (item : CStr) :
    lastValue table (p :: items) item
      = (lastValue table items item).or
          (if strcasecmpEq p.1 item then acceptedValue table p else none) := by
  simp only [lastValue, List.filterMap_cons]
  cases hv : (if strcasecmpEq p.1 item then acceptedValue table p else none) with
  | none => simp
  | some v =>
    simp only [List.getLast?_cons]
    cases List.getLast? _ <;> rfl

/-- A name that the table does not list has no value. -/
theorem lastValue_unknown {table : List Config} {item : CStr} (h : entryType table item = none)
    (items : List Item) : lastValue table items item = none := by
  have hnone : (items.filterMap fun p =>
      if strcasecmpEq p.1 item then acceptedValue table p else none) = [] := by
    rw [List.filterMap_eq_nil_iff]
    intro p _
    split
    · rename_i hname
      have hsame : entryType table p.1 = entryType table item := by
        simp only [entryType, strcasecmpEq_congr hname]
      simp [acceptedValue, hsame, h]
    · rfl
  rw [lastValue, hnone]
  rfl

/-- A look-up after assignments finds the last value they give. -/
theorem cfgGetStrgI_foldl (items : List Item) (table : List Config) (item : CStr) :
    cfgGetStrgI (items.foldl assign table) item
      = (lastValue table items item).or (cfgGetStrgI table item) := by
  induction items generalizing table with
  | nil => simp [lastValue]
  | cons p items ih =>
    rw [List.foldl_cons, ih, lastValue_assign, cfgGetStrgI_assign, lastValue_cons]
    exact Option.or_assoc.symm

/-- A table without data answers NULL. -/
theorem cfgGetStrgI_eq_none {table : List Config} (h : ∀ w ∈ table, w.data = none)
    (item : CStr) : cfgGetStrgI table item = none := by
  induction table with
  | nil => rfl
  | cons w rest ih =>
    have hw := h w List.mem_cons_self
    have hrest := ih fun v hv => h v (List.mem_cons_of_mem _ hv)
    simp [cfgGetStrgI, hw, hrest]

theorem cfgOptions_data : ∀ w ∈ cfOptions, w.data = none := by decide

theorem cfImage_data : ∀ w ∈ cfImage, w.data = none := by decide

/-- The table of a section that is read. -/
def Section.table (s : Section) : List Config :=
  ((imageName, some s.image) :: s.body).foldl assign cfImage

/-- The table of a section as it is opened. -/
def Opened.table (s : Opened) : List Config := s.items.foldl assign cfImage

theorem cfgGetStrgI_opened (s : Opened) (item : CStr) : cfgGetStrgI s.table item = s.value item := by
  rw [Opened.table, cfgGetStrgI_foldl, cfgGetStrgI_eq_none cfImage_data]
  simp [Opened.value]

theorem cfgGetStrgI_section (s : Section) (item : CStr) :
    cfgGetStrgI s.table item = s.value item := by
  rw [Section.table, cfgGetStrgI_foldl, cfgGetStrgI_eq_none cfImage_data]
  simp [Section.value]

theorem cfgGetStrgI_global (items : List Item) (item : CStr) :
    cfgGetStrgI ((scope items).foldl assign cfOptions) item = globalValue items item := by
  rw [cfgGetStrgI_foldl, cfgGetStrgI_eq_none cfgOptions_data]
  simp [globalValue]

/-! ## §3 The parser state -/

/-- `curr_table` points at a table that exists. -/
def CfgState.Valid (st : CfgState) : Prop :=
  ∀ i, st.currTable = .image i → i < st.images.length

theorem CfgState.table_setTable {st : CfgState} (hv : st.Valid) (t : List Config) :
    (st.setTable t).table = t := by
  cases h : st.currTable with
  | options => simp [setTable, table, h]
  | image i => simp [setTable, table, h, List.getD, hv i h]

theorem CfgState.setTable_table {st : CfgState} (hv : st.Valid) :
    st.setTable st.table = st := by
  obtain ⟨arch, reuse, options, images, curr, len⟩ := st
  cases curr with
  | options => rfl
  | image i =>
    have hi : i < images.length := hv i rfl
    simp [setTable, table, List.getD, hi]

theorem CfgState.setTable_setTable (st : CfgState) (t u : List Config) :
    (st.setTable t).setTable u = st.setTable u := by
  cases h : st.currTable <;> simp [setTable, h]

@[simp] theorem CfgState.setTable_archimage (st : CfgState) (t : List Config) :
    (st.setTable t).archimage = st.archimage := by
  cases h : st.currTable <;> simp [setTable, h]

@[simp] theorem CfgState.setTable_reusePrevImage (st : CfgState) (t : List Config) :
    (st.setTable t).reusePrevImage = st.reusePrevImage := by
  cases h : st.currTable <;> simp [setTable, h]

@[simp] theorem CfgState.setTable_currTable (st : CfgState) (t : List Config) :
    (st.setTable t).currTable = st.currTable := by
  cases h : st.currTable <;> simp [setTable, h]

theorem CfgState.Valid.setTable {st : CfgState} (hv : st.Valid) (t : List Config) :
    (st.setTable t).Valid := by
  intro i hi
  rw [CfgState.setTable_currTable] at hi
  simpa [CfgState.setTable, hi] using hv i hi

/-- The current table of a section is one of `images`. -/
theorem CfgState.table_mem {st : CfgState} (hv : st.Valid) (hcurr : st.currTable ≠ .options) :
    st.table ∈ st.images := by
  cases h : st.currTable with
  | options => exact absurd h hcurr
  | image i => simp [table, h, List.getD, hv i h]

theorem CfgState.setTable_mem {st : CfgState} (hv : st.Valid) (hcurr : st.currTable ≠ .options)
    (t : List Config) : t ∈ (st.setTable t).images := by
  have hmem := table_mem (hv.setTable t) (by rwa [CfgState.setTable_currTable])
  rwa [CfgState.table_setTable hv] at hmem

/-- Replacing the current table adds one section at most, -/
theorem CfgState.mem_setTable {st : CfgState} {t u : List Config}
    (h : u ∈ (st.setTable t).images) : u ∈ st.images ∨ u = t ∧ st.currTable ≠ .options := by
  cases hcurr : st.currTable with
  | options => exact .inl (by simpa [setTable, hcurr] using h)
  | image i =>
    simp only [setTable, hcurr] at h
    rcases List.mem_or_eq_of_mem_set h with h | h
    · exact .inl h
    · exact .inr ⟨h, TableRef.noConfusion⟩

/-- and takes away the current one at most. -/
theorem CfgState.setTable_keeps {st : CfgState} (hv : st.Valid) {u : List Config}
    (h : u ∈ st.images) (t : List Config) :
    u ∈ (st.setTable t).images ∨ u = st.table ∧ st.currTable ≠ .options := by
  cases hcurr : st.currTable with
  | options => exact .inl (by simpa [setTable, hcurr] using h)
  | image i =>
    obtain ⟨j, hj, rfl⟩ := List.mem_iff_getElem.mp h
    by_cases hij : i = j
    · subst hij
      exact .inr ⟨by simp [table, hcurr, List.getD, hj], TableRef.noConfusion⟩
    · left
      simp only [setTable, hcurr]
      exact List.mem_iff_getElem.mpr ⟨j, by rwa [List.length_set], List.getElem_set_ne hij _⟩

/-- The global table is replaced if it is the current one. -/
theorem CfgState.setTable_options (st : CfgState) (t : List Config) :
    (st.setTable t).options = st.options ∨ (st.setTable t).options = t ∧ st.table = st.options := by
  cases h : st.currTable <;> simp [setTable, table, h]

/-- What an assignment can do: there is no entry for the name, or the walk stores and the length
of a completion is counted. -/
theorem cfgAssign_cases (st : CfgState) (item : CStr) (value : Option CStr) :
    (walkTable item value st.table = none ∧ cfgAssign st item value = (st, 0))
      ∨ (walkTable item value st.table = some (assign st.table (item, value))
        ∧ cfgAssign st item value
          = ({ st.setTable (assign st.table (item, value)) with
              tabCompletionLen := if completes item value then
                max st.tabCompletionLen (value.getD []).length else st.tabCompletionLen }, 1)) := by
  have hlen : ∀ t, (st.setTable t).tabCompletionLen = st.tabCompletionLen := by
    intro t
    cases h : st.currTable <;> simp [CfgState.setTable, h]
  cases hwalk : walkTable item value st.table with
  | none => exact .inl ⟨rfl, by simp [cfgAssign, hwalk]⟩
  | some t =>
    refine .inr ⟨by simp [assign, hwalk], ?_⟩
    cases hcompletes : completes item value with
    | true => simp [cfgAssign, assign, hwalk, hcompletes, hlen]
    | false =>
      simp only [cfgAssign, assign, hwalk, hcompletes, Bool.false_eq_true, if_false,
        Option.getD_some, ← hlen t]

theorem cfgAssign_nonneg (st : CfgState) (item : CStr) (value : Option CStr) :
    0 ≤ (cfgAssign st item value).2 := by
  rcases cfgAssign_cases st item value with ⟨-, h⟩ | ⟨-, h⟩ <;> simp [h]

/-- An assignment replaces the current table, never fails, and otherwise touches
`tab_completion_len` only. -/
theorem cfgAssign_spec {st : CfgState} (hv : st.Valid) (item : CStr) (value : Option CStr) :
    ∃ len, (cfgAssign st item value).1
        = { st.setTable (assign st.table (item, value)) with tabCompletionLen := len }
      ∧ 0 ≤ (cfgAssign st item value).2 := by
  rcases cfgAssign_cases st item value with ⟨hwalk, h⟩ | ⟨-, h⟩
  · refine ⟨st.tabCompletionLen, ?_, cfgAssign_nonneg st item value⟩
    have hsame : assign st.table (item, value) = st.table := by simp [assign, hwalk]
    rw [h, hsame, CfgState.setTable_table hv]
  · exact ⟨_, by rw [h], cfgAssign_nonneg st item value⟩

/-- The state once the items up to the next opener have been read. -/
def CfgState.afterScope (st : CfgState) (items : List Item) : CfgState :=
  if st.reusePrevImage then st else st.setTable ((scope items).foldl assign st.table)

theorem scope_cons_opener {item : CStr} (h : isImageItem item = true)
    (value : Option CStr) (rest : List Item) : scope ((item, value) :: rest) = [] := by
  simp [scope, h]

theorem scope_cons_other {item : CStr} (h : isImageItem item = false)
    (value : Option CStr) (rest : List Item) :
    scope ((item, value) :: rest) = (item, value) :: scope rest := by
  simp [scope, h]

theorem afterScope_opener {st : CfgState} (hv : st.Valid) {item : CStr}
    (h : isImageItem item = true) (value : Option CStr) (rest : List Item) :
    st.afterScope ((item, value) :: rest) = st := by
  simp only [CfgState.afterScope, scope_cons_opener h, List.foldl_nil,
    CfgState.setTable_table hv, ite_self]

/-! ### Names of openers -/

theorem cfgStart_archimage (cpu : Nat) : (cfgStart cpu).archimage = none
    ∨ (cfgStart cpu).archimage = some image32bit ∨ (cfgStart cpu).archimage = some image64bit := by
  simp only [cfgStart]
  split
  · simp
  · split <;> simp

theorem isImageItem_of_opens {cpu : Nat} {item : CStr} (h : opensSection cpu item = true) :
    isImageItem item = true := by
  unfold opensSection at h
  obtain harch | harch | harch := cfgStart_archimage cpu
  · simp only [harch] at h
    simp [isImageItem, h]
  · simp only [harch, Bool.or_eq_true, decide_eq_true_eq] at h
    rcases h with rfl | rfl <;> rfl
  · simp only [harch, Bool.or_eq_true, decide_eq_true_eq] at h
    rcases h with rfl | rfl <;> rfl

theorem opens_of_other {cpu : Nat} {item : CStr} (h : isImageItem item = false) :
    opensSection cpu item = false := by
  cases hopens : opensSection cpu item with
  | false => rfl
  | true => simp [isImageItem_of_opens hopens] at h

/-- `image` and its two variants differ in more than case. -/
theorem strcasecmpEq_image {item : CStr} (h : strcasecmpEq item imageName = true) :
    strcasecmpEq item image32bit = false ∧ strcasecmpEq item image64bit = false := by
  rw [strcasecmpEq_iff] at h
  simp only [strcasecmpEq, h]
  decide

/-- A walk does not see the case of a name. -/
theorem walkTable_congr {s t : CStr} (h : strcasecmpEq s t = true) (value : Option CStr)
    (table : List Config) : walkTable s value table = walkTable t value table := by
  induction table with
  | nil => rfl
  | cons w rest ih => simp [walkTable, strcasecmpEq_congr h, ih]

/-- An assignment sees it only where `strcmp` asks for a label or an alias. -/
theorem cfgAssign_congr {s t : CStr} {value : Option CStr} (h : strcasecmpEq s t = true)
    (hcompletes : completes s value = completes t value) (st : CfgState) :
    cfgAssign st s value = cfgAssign st t value := by
  simp only [cfgAssign, walkTable_congr h, hcompletes]

/-- The state in which a section has just been opened. -/
def CfgState.opened (st : CfgState) : CfgState :=
  { st with
    reusePrevImage := false
    images := st.images ++ [cfImage]
    currTable := .image st.images.length }

theorem CfgState.opened_valid (st : CfgState) : st.opened.Valid := by
  intro i hi
  simp only [CfgState.opened, TableRef.image.injEq] at hi
  simp [CfgState.opened, ← hi]

/-- What `cfg_set` can do. -/
inductive SetStep (malloc : Bool) (st : CfgState) (item : CStr) (value : Option CStr) :
    CfgState × Int → Prop where
  | skips (hopener : isImageItem item = true) :
    SetStep malloc st item value ({ st with reusePrevImage := true }, 0)
  | noMemory (hopener : isImageItem item = true) (hmalloc : malloc = false) :
    SetStep malloc st item value ({ st with reusePrevImage := false }, -1)
  | opens (hopener : isImageItem item = true) {name : CStr} (hname : isImageItem name = true) :
    SetStep malloc st item value (cfgAssign st.opened name value)
  | passes (hreuse : st.reusePrevImage = true) : SetStep malloc st item value (st, 0)
  | assigns (hitem : isImageItem item = false) (hreuse : st.reusePrevImage = false) :
    SetStep malloc st item value (cfgAssign st item value)

theorem cfgSet_step (malloc : Bool) (st : CfgState) (item : CStr) (value : Option CStr) :
    SetStep malloc st item value (cfgSet malloc st item value) := by
  unfold cfgSet
  split
  · rename_i hopener
    split
    · exact .skips hopener
    · split
      · exact .skips hopener
      · split
        · rename_i hmalloc
          exact .noMemory hopener (by simpa using hmalloc)
        · refine .opens hopener ?_
          split
          · rfl
          · exact hopener
  · rename_i hitem
    split
    · rename_i hreuse
      exact .passes hreuse
    · rename_i hreuse
      exact .assigns (by simpa using hitem) (by simpa using hreuse)

/-- With memory for its sections `cfg_set` never fails. -/
theorem cfgSet_nonneg (st : CfgState) (item : CStr) (value : Option CStr) :
    0 ≤ (cfgSet true st item value).2 := by
  have hstep := cfgSet_step true st item value
  generalize cfgSet true st item value = r at hstep ⊢
  cases hstep with
  | skips => simp
  | noMemory _ hmalloc => cases hmalloc
  | opens => exact cfgAssign_nonneg _ _ _
  | passes => simp
  | assigns => exact cfgAssign_nonneg _ _ _

/-- What every item keeps, the loop of `cfg_parse` keeps. -/
theorem cfgItems_keeps {P : CfgState → Prop} {malloc : Nat → Bool} (items : List Item)
    (hstep : ∀ st, P st → ∀ p ∈ items, ∀ memory, P (cfgSet memory st p.1 p.2).1) :
    ∀ st, P st → P (cfgItems malloc st items) := by
  induction items with
  | nil => exact fun _ h => h
  | cons p rest ih =>
    intro st h
    obtain ⟨item, value⟩ := p
    have hset := hstep st h (item, value) List.mem_cons_self (malloc st.images.length)
    rw [cfgItems]
    split
    · exact hset
    · exact ih (fun st h q hq => hstep st h q (List.mem_cons_of_mem _ hq)) _ hset

/-- An opener either appends a table and assigns `image` in it, or starts the skipping. -/
theorem cfgSet_opener {cpu : Nat} {st : CfgState}
    (harch : st.archimage = (cfgStart cpu).archimage) {item : CStr}
    (hop : isImageItem item = true) (value : Option CStr) :
    cfgSet true st item value
      = if opensSection cpu item then cfgAssign st.opened imageName value
        else ({ st with reusePrevImage := true }, 0) := by
  unfold cfgSet opensSection
  rw [if_pos hop, ← harch]
  cases h : st.archimage with
  | none =>
    cases himage : strcasecmpEq item imageName with
    | true =>
      obtain ⟨h32, h64⟩ := strcasecmpEq_image himage
      have hnot : completes item value = completes imageName value := by
        have hlabel : item ≠ labelName := fun heq => by
          subst heq
          cases himage
        have halias : item ≠ aliasName := fun heq => by
          subst heq
          cases himage
        simp only [completes, hlabel, halias]
        rfl
      simp [h, h32, h64, CfgState.opened, ← cfgAssign_congr himage hnot]
    | false =>
      have hvariant : (strcasecmpEq item image32bit || strcasecmpEq item image64bit) = true := by
        simpa [isImageItem, himage] using hop
      simp [hvariant]
  | some arch =>
    by_cases himage : item = imageName
    · simp [h, himage, CfgState.opened]
    · by_cases hvariant : item = arch
      · simp [h, hvariant, CfgState.opened]
      · simp [himage, hvariant]

/-! ### The loop -/

theorem openedSections_other {item : CStr} (h : isImageItem item = false) (cpu : Nat)
    (value : Option CStr) (rest : List Item) :
    openedSections cpu ((item, value) :: rest) = openedSections cpu rest := by
  simp [openedSections, opens_of_other h]

/-- What the loop of `cfg_parse` leaves: the current table has the items of the scope
that was open, and every section that is read has appended its table. -/
theorem cfgItems_opened (cpu : Nat) (items : List Item) :
    ∀ st : CfgState, st.Valid → st.archimage = (cfgStart cpu).archimage →
      (cfgItems (fun _ => true) st items).options = (st.afterScope items).options
      ∧ (cfgItems (fun _ => true) st items).images
          = (st.afterScope items).images ++ (openedSections cpu items).map Opened.table := by
  induction items with
  | nil =>
    intro st hv _
    simp [cfgItems, CfgState.afterScope, scope, CfgState.setTable_table hv, openedSections]
  | cons p rest ih =>
    intro st hv harch
    obtain ⟨item, value⟩ := p
    cases hop : isImageItem item with
    | true =>
      have hset := cfgSet_opener harch hop value
      rw [afterScope_opener hv hop]
      cases hopens : opensSection cpu item with
      | false =>
        rw [hopens, if_neg Bool.false_ne_true] at hset
        have hrun := ih { st with reusePrevImage := true } hv harch
        simpa [cfgItems, hset, openedSections, hopens, CfgState.afterScope] using hrun
      | true =>
        rw [hopens, if_pos rfl] at hset
        obtain ⟨len, hst, hres⟩ := cfgAssign_spec st.opened_valid imageName value
        have hrun := ih (cfgAssign st.opened imageName value).1
          (by rw [hst]; exact st.opened_valid.setTable _)
          (by rw [hst]; simp [CfgState.opened, harch])
        rw [hst] at hrun
        simp only [cfgItems, hset, hst, if_neg (Int.not_lt.mpr hres)]
        simpa [openedSections, hopens, CfgState.opened, CfgState.afterScope, CfgState.setTable,
          CfgState.table, Opened.table, Opened.items, List.getD] using hrun
    | false =>
      rw [openedSections_other hop]
      cases hreuse : st.reusePrevImage with
      | true =>
        have hset : cfgSet true st item value = (st, 0) := by simp [cfgSet, hop, hreuse]
        have hrun := ih st hv harch
        simpa [cfgItems, hset, CfgState.afterScope, hreuse] using hrun
      | false =>
        have hset : cfgSet true st item value = cfgAssign st item value := by
          simp [cfgSet, hop, hreuse]
        obtain ⟨len, hst, hres⟩ := cfgAssign_spec hv item value
        have hrun := ih (cfgAssign st item value).1
          (by rw [hst]; exact hv.setTable _) (by rw [hst]; simp [harch])
        rw [hst] at hrun
        simp only [cfgItems, hset, hst, if_neg (Int.not_lt.mpr hres)]
        cases hcurr : st.currTable <;>
          simpa [CfgState.afterScope, hreuse, scope_cons_other hop, CfgState.setTable,
            CfgState.table, hcurr, List.getD, hv _] using hrun

/-- A well-spelled opener opens a section just where the CPU looks at it. -/
theorem opens_eq_selects {item : CStr}
    (hitem : item = imageName ∨ item = image32bit ∨ item = image64bit) (cpu : Nat)
    (image : CStr) (body : List Item) :
    opensSection cpu item = Section.selects cpu ⟨item, image, body⟩ := by
  by_cases h32 : cpu = 32
  · subst h32
    rcases hitem with rfl | rfl | rfl <;> rfl
  · by_cases h64 : cpu = 64
    · subst h64
      rcases hitem with rfl | rfl | rfl <;> rfl
    · have hstart : (cfgStart cpu).archimage = none := by simp [cfgStart, h32, h64]
      simp only [opensSection, hstart, Section.selects, h32, h64]
      rcases hitem with rfl | rfl | rfl <;> rfl

theorem WellSpelled.tail {p : Item} {rest : List Item} (h : WellSpelled (p :: rest)) :
    WellSpelled rest := fun q hq => h q (List.mem_cons_of_mem _ hq)

/-- In a well-spelled file the sections that are read are those the CPU looks at. -/
theorem openedSections_wellSpelled (cpu : Nat) (items : List Item) (hw : WellSpelled items) :
    openedSections cpu items
      = (selectedSections cpu items).map fun s => ⟨some s.image, s.body⟩ := by
  induction items with
  | nil => rfl
  | cons p rest ih =>
    have ih := ih hw.tail
    obtain ⟨item, value⟩ := p
    cases hop : isImageItem item with
    | false =>
      rw [openedSections_other hop, ih]
      simp [selectedSections, sections, hop]
    | true =>
      obtain ⟨hitem, hval⟩ := hw (item, value) List.mem_cons_self hop
      obtain ⟨image, rfl⟩ := Option.isSome_iff_exists.mp hval
      have hsel := opens_eq_selects hitem cpu image (scope rest)
      simp only [selectedSections] at ih
      cases hopens : opensSection cpu item with
      | false =>
        rw [hopens] at hsel
        simp [openedSections, hopens, ih, selectedSections, sections, hop, ← hsel]
      | true =>
        rw [hopens] at hsel
        simp [openedSections, hopens, ih, selectedSections, sections, hop, ← hsel]

theorem cfgItems_spec (cpu : Nat) (items : List Item) (hw : WellSpelled items) (st : CfgState)
    (hv : st.Valid) (harch : st.archimage = (cfgStart cpu).archimage) :
    (cfgItems (fun _ => true) st items).options = (st.afterScope items).options
      ∧ (cfgItems (fun _ => true) st items).images
          = (st.afterScope items).images ++ (selectedSections cpu items).map Section.table := by
  obtain ⟨hoptions, himages⟩ := cfgItems_opened cpu items st hv harch
  refine ⟨hoptions, ?_⟩
  rw [himages, openedSections_wellSpelled cpu items hw, List.map_map]
  rfl

/-! ## §4 Queries -/

theorem strrchr_eq_none {s : CStr} {c : Char} : strrchr s c = none ↔ c ∉ s := by
  induction s with
  | nil => simp [strrchr]
  | cons d rest ih =>
    cases h : strrchr rest c with
    | some tail =>
      have hmem : c ∈ rest := by simpa [h] using ih
      simp [strrchr, h, hmem]
    | none =>
      have hmem : c ∉ rest := ih.mp h
      by_cases hd : d = c
      · simp [strrchr, h, hd]
      · simp [strrchr, h, hd, hmem, Ne.symm hd]

theorem takeWhile_ne_of_notMem {s : CStr} {c : Char} (h : c ∉ s) :
    s.takeWhile (· ≠ c) = s := by
  rw [List.takeWhile_eq_self_iff]
  intro d hd
  have hne : d ≠ c := fun e => h (e ▸ hd)
  simpa using hne

/-- The part behind the last `/`, found as `cfg_get_strg` finds it. -/
theorem basename_eq (path : CStr) :
    basename path = match strrchr path '/' with
      | some slash => slash.drop 1
      | none => path := by
  induction path with
  | nil => rfl
  | cons d rest ih =>
    cases h : strrchr rest '/' with
    | none =>
      have hmem : '/' ∉ rest := strrchr_eq_none.mp h
      have hrev : rest.reverse.takeWhile (· ≠ '/') = rest.reverse :=
        takeWhile_ne_of_notMem (by simpa using hmem)
      have hstep : basename (d :: rest) = ([d].takeWhile (· ≠ '/')).reverse ++ rest := by
        unfold basename
        rw [List.reverse_cons, List.takeWhile_append, hrev, if_pos rfl, List.reverse_append,
          List.reverse_reverse]
      rw [hstep]
      by_cases hd : d = '/'
      · simp [strrchr, h, hd]
      · simp [strrchr, h, hd]
    | some slash =>
      have hmem : '/' ∈ rest := by
        by_contra hno
        simp [strrchr_eq_none.mpr hno] at h
      -- the reversed tail already holds a slash, so `d` is never reached
      have hlt : (rest.reverse.takeWhile (· ≠ '/')).length ≠ rest.reverse.length := by
        intro heq
        have hself := (List.takeWhile_prefix (l := rest.reverse) (· ≠ '/')).eq_of_length heq
        have hall := List.takeWhile_eq_self_iff.mp hself '/' (by simpa using hmem)
        simp at hall
      have hstep : basename (d :: rest) = basename rest := by
        unfold basename
        rw [List.reverse_cons, List.takeWhile_append, if_neg hlt]
      rw [hstep, ih, h]
      simp [strrchr, h]

/-- No item of a scope opens a section. -/
theorem scope_not_opener {items : List Item} : ∀ p ∈ scope items, isImageItem p.1 = false := by
  intro p hp
  simpa using List.mem_takeWhile_imp hp

theorem sections_body {items : List Item} :
    ∀ s ∈ sections items, ∀ p ∈ s.body, isImageItem p.1 = false := by
  induction items with
  | nil => simp [sections]
  | cons q rest ih =>
    obtain ⟨item, value⟩ := q
    intro s hs
    cases h : isImageItem item with
    | false => exact ih s (by simpa [sections, h] using hs)
    | true =>
      simp only [sections, h, if_true, List.mem_cons] at hs
      rcases hs with rfl | hs
      · exact scope_not_opener
      · exact ih s hs

theorem openedSections_body {cpu : Nat} {items : List Item} :
    ∀ s ∈ openedSections cpu items, ∀ p ∈ s.body, isImageItem p.1 = false := by
  induction items with
  | nil => simp [openedSections]
  | cons q rest ih =>
    obtain ⟨item, value⟩ := q
    intro s hs
    cases h : opensSection cpu item with
    | false => exact ih s (by simpa [openedSections, h] using hs)
    | true =>
      simp only [openedSections, h, if_true, List.mem_cons] at hs
      rcases hs with rfl | hs
      · exact scope_not_opener
      · exact ih s hs

/-- In a section `image` keeps the value of the opener. -/
theorem Opened.value_image {s : Opened} (h : ∀ p ∈ s.body, isImageItem p.1 = false) :
    s.value imageName = s.image := by
  have hbody : (s.body.filterMap fun p =>
      if strcasecmpEq p.1 imageName then acceptedValue cfImage p else none) = [] := by
    rw [List.filterMap_eq_nil_iff]
    intro p hp
    have hp := h p hp
    simp only [isImageItem, Bool.or_eq_false_iff] at hp
    simp [hp.1.1]
  have hself : strcasecmpEq imageName imageName = true := by simp [strcasecmpEq]
  rw [Opened.value, Opened.items, lastValue_cons, lastValue, hbody, if_pos hself]
  cases s.image <;> rfl

theorem imageLabel_opened {s : Opened} (h : ∀ p ∈ s.body, isImageItem p.1 = false) :
    imageLabel s.table = (s.value labelName).or (s.image.map basename) := by
  unfold imageLabel
  rw [cfgGetStrgI_opened, cfgGetStrgI_opened, Opened.value_image h]
  cases s.value labelName with
  | some label => rfl
  | none =>
    cases himage : s.image with
    | none => rfl
    | some image =>
      rw [Option.map_some, basename_eq]
      cases hs : strrchr image '/' <;> simp [hs]

theorem imageLabel_section {s : Section} (h : ∀ p ∈ s.body, isImageItem p.1 = false) :
    imageLabel s.table = some ((s.value labelName).getD (basename s.image)) := by
  have hlabel := @imageLabel_opened ⟨some s.image, s.body⟩ h
  rw [show s.table = Opened.table ⟨some s.image, s.body⟩ from rfl, hlabel]
  show (s.value labelName).or (some (basename s.image)) = _
  cases s.value labelName <;> rfl

/-- The loop over the sections stops at the first one that answers to the name. -/
theorem cfgGetStrgImages_sections (options : List Config) (name item : CStr)
    (ss : List Section) (h : ∀ s ∈ ss, ∀ p ∈ s.body, isImageItem p.1 = false) :
    cfgGetStrgImages options name item (ss.map Section.table)
      = some (match ss.find? (Section.answersTo · name) with
          | some s => (s.value item).or (cfgGetStrgI options item)
          | none => none) := by
  induction ss with
  | nil => rfl
  | cons s rest ih =>
    have ih := ih fun t ht => h t (List.mem_cons_of_mem _ ht)
    simp only [List.map_cons, cfgGetStrgImages, imageLabel_section (h s List.mem_cons_self),
      cfgGetStrgI_section, List.find?_cons]
    cases hans : s.answersTo name with
    | true =>
      rw [if_pos (by simpa [Section.answersTo] using hans)]
    | false =>
      rw [if_neg (by simpa [Section.answersTo] using hans), ih]

/-- **The queries mean what the file says**: whatever the CPU and the items, no query
dereferences NULL and every query returns the value the file gives the option. -/
theorem cfgGetStrg_meaning (cpu : Nat) (items : List Item) (hw : WellSpelled items)
    (image : Option CStr) (item : CStr) :
    cfgGetStrg (cfgItems (fun _ => true) (cfgStart cpu) items) image item
      = some (meaning cpu items image item) := by
  have hvalid : (cfgStart cpu).Valid := by
    intro i hi
    simp [cfgStart] at hi
  obtain ⟨hopt, himg⟩ := cfgItems_spec cpu items hw (cfgStart cpu) hvalid rfl
  have hopt' : (cfgItems (fun _ => true) (cfgStart cpu) items).options
      = (scope items).foldl assign cfOptions := hopt
  have himg' : (cfgItems (fun _ => true) (cfgStart cpu) items).images
      = (selectedSections cpu items).map Section.table := himg
  cases image with
  | none => simp only [cfgGetStrg, meaning, hopt', cfgGetStrgI_global]
  | some name =>
    have hbody : ∀ s ∈ selectedSections cpu items, ∀ p ∈ s.body, isImageItem p.1 = false :=
      fun s hs => sections_body s (List.mem_filter.mp hs).1
    cases hfind : (selectedSections cpu items).find? (Section.answersTo · name) with
    | none =>
      simp only [cfgGetStrg, meaning, himg', hopt',
        cfgGetStrgImages_sections _ _ _ _ hbody, hfind]
    | some s =>
      simp only [cfgGetStrg, meaning, himg', hopt', cfgGetStrgI_global,
        cfgGetStrgImages_sections _ _ _ _ hbody, hfind]

/-- A two-section file for a 64-bit CPU: the 32-bit section is skipped with its items. -/
def sampleItems : List Item :=
  [("root".toList, some "/dev/sda1".toList), ("Image[32bit]".toList.map tolower, some "/a".toList),
   ("root".toList, some "/dev/sda2".toList), (image64bit, some "/boot/vmlinux".toList),
   ("alias".toList, some "l".toList), ("READ-ONLY".toList, none)]

theorem cfgGetStrg_meaning_sample :
    cfgGetStrg (cfgItems (fun _ => true) (cfgStart 64) sampleItems) (some "vmlinux".toList)
        "root".toList = some (some "/dev/sda1".toList)
    ∧ cfgGetStrg (cfgItems (fun _ => true) (cfgStart 64) sampleItems) (some "l".toList)
        "read-only".toList = some (some []) := by
  have hw : WellSpelled sampleItems := by decide
  rw [cfgGetStrg_meaning 64 sampleItems hw, cfgGetStrg_meaning 64 sampleItems hw]
  decide

end LiloBoot.Cfg
