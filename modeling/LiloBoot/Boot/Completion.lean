/-
LiloBoot.Boot.Completion — the Tab key (`tabfunc` of `second/cmdline.c`,
`cfg_print_images` of `second/cfg.c`).

`cfg_print_images` goes through the labels and aliases again and again: as
long as they agree in the next character it is appended, once they differ they
are printed. `tab_completion_buf` is the list of its first `curlen` bytes, with
a NUL behind them. `memcmp` goes on behind the NUL of a label, so a label is a
pointer into memory.

A call has three outcomes: a null pointer is passed on or written through, it
is still running when the fuel is used up, or it is done. Not modelled: the
columns `printlabel` prints in, and the echo of what is completed.
-/
import LiloBoot.Boot.Params
import LiloBoot.Cfg.CfgTheorems

namespace LiloBoot.Boot

open LiloBoot.Cfg

/-! ## Strings in memory -/

/-- A string and the memory behind its NUL. -/
structure StrAt where
  text : CStr
  behind : Nat → Char

/-- `s[i]`. -/
def StrAt.byte (s : StrAt) (i : Nat) : Char :=
  if i < s.text.length then s.text.getD i '\x00'
  else if i = s.text.length then '\x00' else s.behind (i - s.text.length - 1)

/-- `memcmp(s, typed, curlen) == 0`. -/
def StrAt.startsWith (s : StrAt) (typed : List Char) : Bool :=
  (List.range typed.length).all fun i => s.byte i == typed.getD i '\x00'

/-- What is behind the label (`false`) and the alias (`true`) of each section. -/
abbrev Memory := Nat → Bool → Nat → Char

/-- The label and the alias of a section, if it has them. A section without either has nothing
to print: the base name of its image is looked for and dropped. -/
def sectionNames (mem : Memory) (i : Nat) (table : List Config) : List StrAt :=
  ((cfgGetStrgI table labelName).map fun text => ⟨text, mem i false⟩).toList
    ++ ((cfgGetStrgI table aliasName).map fun text => ⟨text, mem i true⟩).toList

/-- The names in the order in which the loop over `images` comes to them. -/
def imageNames (mem : Memory) (images : List (List Config)) : List StrAt :=
  images.zipIdx.flatMap fun (table, i) => sectionNames mem i table

/-! ## `cfg_print_images` -/

/-- The outcome of a call. -/
inductive Called (α : Type) where
  | fault
  | running
  | done (a : α)
  deriving DecidableEq, Repr

/-- A loop over the names: `label_match_count`, `last_match`, `print_matching_labels`, and the
labels printed so far, with the flag for the default. -/
structure Pass where
  labelMatchCount : Nat
  lastMatch : Option StrAt
  printMatchingLabels : Nat
  printed : List (CStr × Bool)

/-- `printlabel(label, strcmp(def, label) == 0)`; `none` for a `def` that is NULL. -/
def printlabel (def_ : Option CStr) (label : CStr) (p : Pass) : Option Pass :=
  def_.map fun d => { p with printed := p.printed ++ [(label, d == label)] }

/-- A label or an alias with `len` not 0; the flag says whether the loop breaks. The first
characters are `typed`, and `followingChar` is `none` for -1. -/
def matchName (def_ : Option CStr) (typed : List Char) (remaining : Nat)
    (followingChar : Option Char) (name : StrAt) (p : Pass) : Option (Pass × Bool) :=
  if name.text.length < remaining ∧ name.startsWith typed then
    if p.printMatchingLabels ≠ 0 then
      (printlabel def_ name.text { p with printMatchingLabels := p.printMatchingLabels + 1 }).map
        fun p => (p, false)
    else
      let matched :=
        { p with lastMatch := p.lastMatch.or (some name), labelMatchCount := p.labelMatchCount + 1 }
      match followingChar with
      | none => some (matched, false)
      | some c =>
        if name.byte typed.length = c then some (matched, false)
        else some ({ p with printMatchingLabels := 1, labelMatchCount := 0 }, true)
  else some (p, false)

/-- The `for` loop with `len` not 0. -/
def matchNames (def_ : Option CStr) (typed : List Char) (remaining : Nat)
    (followingChar : Option Char) : List StrAt → Pass → Option Pass
  | [], p => some p
  | name :: rest, p =>
    match matchName def_ typed remaining followingChar name p with
    | none => none
    | some (p, true) => some p
    | some (p, false) => matchNames def_ typed remaining followingChar rest p

/-- The `do` loop with `len` not 0: the bytes in `tab_completion_buf` and the labels printed. -/
def completeLoop (def_ : Option CStr) (names : List StrAt) (remaining : Nat) :
    Nat → List Char → Option Char → Nat → List (CStr × Bool) →
      Called (List Char × List (CStr × Bool))
  | 0, _, _, _, _ => .running
  | fuel + 1, typed, followingChar, printMatchingLabels, printed =>
    match matchNames def_ typed remaining followingChar names
      ⟨0, none, printMatchingLabels, printed⟩ with
    | none => .fault
    | some p =>
      match p.lastMatch with
      | some last =>
        if p.labelMatchCount = 1 then .done (last.text ++ [' '], p.printed)
        else if p.labelMatchCount = 0 then
          -- the names differ in the next character
          completeLoop def_ names remaining fuel typed none p.printMatchingLabels p.printed
        else
          let typed := typed ++ followingChar.toList
          completeLoop def_ names remaining fuel typed (some (last.byte typed.length))
            p.printMatchingLabels p.printed
      | none =>
        if p.printMatchingLabels = 1 then
          completeLoop def_ names remaining fuel typed none p.printMatchingLabels p.printed
        else .done (typed, p.printed)

/-- The string in `tab_completion_buf`. -/
def tabString (typed : List Char) : CStr := typed.takeWhile (· ≠ '\x00')

/-- `cfg_print_images`, on the word in `buf`: the word afterwards, and the labels printed.
`tabBuf` says whether there is a `tab_completion_buf`. -/
def cfgPrintImages (st : CfgState) (tabBuf : Bool) (mem : Memory) (fuel : Nat) (buf : CStr)
    (remaining : Nat) : Called (CStr × List (CStr × Bool)) :=
  if st.tabCompletionLen < buf.length then .done (buf, [])
  else if !tabBuf then .fault
  else
    let def_ := cfgGetStrgI st.options "default".toList
    let names := imageNames mem st.images
    if buf = [] then
      match names.foldlM (fun p name => printlabel def_ name.text p) ⟨0, none, 0, []⟩ with
      | none => .fault
      | some p => .done ([], p.printed)
    else
      match completeLoop def_ names remaining fuel buf none 0 [] with
      | .fault => .fault
      | .running => .running
      | .done (typed, printed) => .done (tabString typed, printed)

/-- `tabfunc`: the line afterwards, and the labels printed. -/
def tabfunc (st : CfgState) (tabBuf : Bool) (mem : Memory) (fuel : Nat) (buf : CStr) :
    Called (CStr × List (CStr × Bool)) :=
  if buf = [] then
    match cfgPrintImages st tabBuf mem fuel [] 0 with
    | .fault => .fault
    | .running => .running
    | .done (_, printed) => .done (buf, printed)
  else
    let blanks := buf.takeWhile (· = ' ')
    let p := buf.dropWhile (· = ' ')
    if p = [] ∨ ' ' ∈ p then .done (buf, [])
    else
      match cfgPrintImages st tabBuf mem fuel p (cmdLeng - buf.length - 1) with
      | .fault => .fault
      | .running => .running
      | .done (p, printed) => .done (blanks ++ p, printed)

/-! ## `cfg_parse` -/

/-- The loop of `cfg_parse` and what follows it: the state, and the result, which is whether
there is a `tab_completion_buf`. `tabMalloc` is the outcome of its allocation. -/
def cfgParse (cpu : Nat) (malloc : Nat → Bool) (tabMalloc : Bool) (items : List Item) :
    CfgState × Bool :=
  let st := cfgItems malloc (cfgStart cpu) items
  (st, decide (0 < st.tabCompletionLen) && tabMalloc)

/-- The state that the queries find: `cfg_parse` is called only if there is a configuration. -/
def cfgLoaded (cpu : Nat) (malloc : Nat → Bool) (tabMalloc : Bool) :
    Option (List Item) → CfgState × Bool
  | none => (cfgStart 0, false)
  | some items => cfgParse cpu malloc tabMalloc items

end LiloBoot.Boot
