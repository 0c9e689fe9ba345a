/-
LiloBoot.Cfg.Opened — the sections of a file as `cfg_set` opens them.

`Meaning` takes section openers as the manual spells them. `cfg_set` asks twice:
whether a name is that of an opener in any case, and whether it opens a section
for the CPU, where `strcmp` counts if the CPU is a 32 or a 64 bit one. An opener
without a value opens a section as well.
-/
import LiloBoot.Cfg.Meaning

namespace LiloBoot.Cfg

/-- Whether an item opens a section that is read. -/
def opensSection (cpu : Nat) (item : CStr) : Bool :=
  match (cfgStart cpu).archimage with
  | none => strcasecmpEq item imageName
  | some arch => item = imageName || item = arch

/-- A section that is read: what its opener gives to `image`, and the items up to the next one. -/
structure Opened where
  image : Option CStr
  body : List Item
  deriving DecidableEq, Repr

/-- The sections that are read, in order. -/
def openedSections (cpu : Nat) : List Item → List Opened
  | [] => []
  | (item, value) :: rest =>
    if opensSection cpu item then ⟨value, scope rest⟩ :: openedSections cpu rest
    else openedSections cpu rest

/-- The items of a section, with its opener. -/
def Opened.items (s : Opened) : List Item := (imageName, s.image) :: s.body

/-- The value of an option in a section. -/
def Opened.value (s : Opened) (item : CStr) : Option CStr := lastValue cfImage s.items item

/-- The names of a section: its label or else the base name of its image, and its alias. -/
def Opened.names (s : Opened) : List CStr :=
  ((s.value labelName).or (s.image.map basename)).toList ++ (s.value aliasName).toList

/-- The answer to a query in a section, which falls back on the global options. -/
def Opened.answer (s : Opened) (items : List Item) (item : CStr) : Option CStr :=
  (s.value item).or (globalValue items item)

end LiloBoot.Cfg
