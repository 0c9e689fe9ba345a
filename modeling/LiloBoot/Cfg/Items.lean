/-
LiloBoot.Cfg.Items — the items of a text.

The loop of `cfg_parse` takes turns: `cfg_next` reads an item, `cfg_set` stores
it. What is read does not depend on what is stored, so the text is its list of
items, with a flag for the error that ends it. `parseItems` is the loop over
such a list; `ItemsTheorems` shows that the two together are `parseLoop`.

`confText` goes the other way: a text for a list of items.
-/
import LiloBoot.Cfg.Meaning
import LiloBoot.Cfg.TokenTheorems

namespace LiloBoot.Cfg

/-! ## Reading -/

/-- The items `cfg_next` delivers, and whether an error ends them. -/
def readItems (src : Source) : Nat → Input → Option (List Item × Bool)
  | 0, _ => none
  | fuel + 1, s =>
    match cfgNext src fuel s with
    | none => none
    | some (.null, _) => some ([], false)
    | some (.error _, _) => some ([], true)
    | some (.got item, s) => (readItems src fuel s).map fun r => (item :: r.1, r.2)

/-- The items of a whole text. -/
def textItems (src : Source) (fuel : Nat) : Option (List Item × Bool) :=
  readItems src fuel inputStart

/-- The loop of `cfg_parse` over the items of a text: the tables, and whether `longjmp` has ended
it. A section that gets no memory ends it before an error does. -/
def parseItems (malloc : Nat → Bool) (broken : Bool) (st : CfgState) :
    List Item → CfgState × Bool
  | [] => (st, broken)
  | (item, value) :: rest =>
    let r := cfgSet (malloc st.images.length) st item value
    if r.2 < 0 then (r.1, false) else parseItems malloc broken r.1 rest

/-! ## Writing -/

/-- What stands behind the name of an item. -/
def valueText (value : Option CStr) : CStr := (value.map fun v => '=' :: quotedForm v).getD []

/-- A line with one item. -/
def itemText (p : Item) : CStr := '\n' :: (quotedForm p.1 ++ valueText p.2)

/-- A text for a list of items. -/
def confText (items : List Item) : CStr := items.flatMap itemText

/-- A string that is read as it is written: a token of its own is a `=` to the parser. -/
structure IsToken (str : CStr) : Prop where
  quotable : ∀ c ∈ str, Quotable c
  fits : str.length ≤ 511
  notEquals : str ≠ ['=']

/-- An item that can be written. -/
structure Writable (p : Item) : Prop where
  name : IsToken p.1
  value : ∀ v, p.2 = some v → IsToken v

end LiloBoot.Cfg
