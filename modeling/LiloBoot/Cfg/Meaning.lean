/-
LiloBoot.Cfg.Meaning — what a configuration file means.

The file is a list of items. Items before the first section opener are global;
every opener starts a section that runs to the next one, and a section counts
only if its opener selects the CPU. An option has, in a scope, the last value
that an item of the scope gives it and that its type accepts. Nothing here
mentions the parser state of `cfg.c`; `CfgTheorems` connects the two.
-/
import LiloBoot.Cfg.Cfg

namespace LiloBoot.Cfg

/-- One item of the file, `name` or `name = value`. -/
abbrev Item := CStr × Option CStr

/-! ## Scopes -/

/-- A section: the value of its opener and the items up to the next opener. -/
structure Section where
  opener : CStr
  image : CStr
  body : List Item
  deriving DecidableEq, Repr

/-- The items of a scope that starts here. -/
def scope (items : List Item) : List Item := items.takeWhile (fun p => !isImageItem p.1)

/-- The sections of a file, in order. -/
def sections : List Item → List Section
  | [] => []
  | (item, value) :: rest =>
    if isImageItem item then ⟨item, value.getD [], scope rest⟩ :: sections rest
    else sections rest

/-- Whether a section is one the CPU looks at. -/
def Section.selects (cpu : Nat) (s : Section) : Bool :=
  s.opener = imageName || (cpu = 32 && s.opener = image32bit)
    || (cpu = 64 && s.opener = image64bit)

/-- The sections the CPU looks at. -/
def selectedSections (cpu : Nat) (items : List Item) : List Section :=
  (sections items).filter (Section.selects cpu)

/-! ## Values -/

/-- The type under which a table lists a name. -/
def entryType (table : List Config) (name : CStr) : Option ConfigType :=
  (table.find? (fun w => strcasecmpEq w.name name)).map Config.type

/-- The value an item gives: a string item needs one, a flag item must not have one. -/
def acceptedValue (table : List Config) (p : Item) : Option CStr :=
  match entryType table p.1 with
  | some type => newData type p.2
  | none => none

/-- The last value the items give to `item`. -/
def lastValue (table : List Config) (items : List Item) (item : CStr) : Option CStr :=
  (items.filterMap fun p =>
    if strcasecmpEq p.1 item then acceptedValue table p else none).getLast?

/-- The value of an option in the global scope. -/
def globalValue (items : List Item) (item : CStr) : Option CStr :=
  lastValue cfOptions (scope items) item

/-- The value of an option in a section; the opener itself sets `image`. -/
def Section.value (s : Section) (item : CStr) : Option CStr :=
  lastValue cfImage ((imageName, some s.image) :: s.body) item

/-! ## Names and queries -/

/-- The part of a path behind its last `/`. -/
def basename (path : CStr) : CStr := (path.reverse.takeWhile (· ≠ '/')).reverse

/-- Whether a section is called `name`, by label, file name or alias. -/
def Section.answersTo (s : Section) (name : CStr) : Bool :=
  (s.value labelName).getD (basename s.image) = name || s.value aliasName = some name

/-- The answer to a query: for an image, its own value or else the global one. -/
def meaning (cpu : Nat) (items : List Item) (image : Option CStr) (item : CStr) :
    Option CStr :=
  match image with
  | none => globalValue items item
  | some name =>
    match (selectedSections cpu items).find? (Section.answersTo · name) with
    | some s => (s.value item).or (globalValue items item)
    | none => none

/-- Section openers are spelled exactly and carry a value. -/
def WellSpelled (items : List Item) : Prop :=
  ∀ p ∈ items, isImageItem p.1 = true →
    (p.1 = imageName ∨ p.1 = image32bit ∨ p.1 = image64bit) ∧ p.2.isSome = true

instance (items : List Item) : Decidable (WellSpelled items) :=
  inferInstanceAs (Decidable (∀ p ∈ items, _ → _))

end LiloBoot.Cfg
