/-
LiloBoot.Boot.TabBuffer — the memory of the Tab key (`cfg_print_images`).

The same function as in `Completion`, with the bounds of the memory it uses:
a label is read up to its NUL and no further, `tab_completion_buf` has
`tab_completion_len + 2` bytes, and the word typed has the bytes to the end of
the line. A read or a write outside is a fault, so a call that is done has
made none. `memcmp` stops at the first difference.
-/
import LiloBoot.Boot.Completion

namespace LiloBoot.Boot

open LiloBoot.Cfg

/-- `s[i]`; `none` behind the NUL. -/
def StrAt.read (s : StrAt) (i : Nat) : Option Char :=
  if i ≤ s.text.length then some (s.byte i) else none

/-- `memcmp(s + i, typed, n) == 0` for the `n` characters of `typed`. -/
def StrAt.memcmpEq (s : StrAt) : Nat → List Char → Option Bool
  | _, [] => some true
  | i, c :: typed =>
    match s.read i with
    | none => none
    | some b => if b = c then s.memcmpEq (i + 1) typed else some false

/-- `matchName` with checked reads. -/
def matchNameChecked (def_ : Option CStr) (typed : List Char) (remaining : Nat)
    (followingChar : Option Char) (name : StrAt) (p : Pass) : Option (Pass × Bool) :=
  if name.text.length < remaining then
    match name.memcmpEq 0 typed with
    | none => none
    | some false => some (p, false)
    | some true =>
      if p.printMatchingLabels ≠ 0 then
        (printlabel def_ name.text { p with printMatchingLabels := p.printMatchingLabels + 1 }).map
          fun p => (p, false)
      else
        let matched :=
          { p with lastMatch := p.lastMatch.or (some name), labelMatchCount := p.labelMatchCount + 1 }
        match followingChar with
        | none => some (matched, false)
        | some c =>
          match name.read typed.length with
          | none => none
          | some b =>
            if b = c then some (matched, false)
            else some ({ p with printMatchingLabels := 1, labelMatchCount := 0 }, true)
  else some (p, false)

/-- `matchNames` with checked reads. -/
def matchNamesChecked (def_ : Option CStr) (typed : List Char) (remaining : Nat)
    (followingChar : Option Char) : List StrAt → Pass → Option Pass
  | [], p => some p
  | name :: rest, p =>
    match matchNameChecked def_ typed remaining followingChar name p with
    | none => none
    | some (p, true) => some p
    | some (p, false) => matchNamesChecked def_ typed remaining followingChar rest p

/-- `completeLoop`, with `size` bytes in `tab_completion_buf` and `room` bytes in the line. -/
def completeLoopChecked (def_ : Option CStr) (names : List StrAt) (remaining size room : Nat) :
    Nat → List Char → Option Char → Nat → List (CStr × Bool) →
      Called (List Char × List (CStr × Bool))
  | 0, _, _, _, _ => .running
  | fuel + 1, typed, followingChar, printMatchingLabels, printed =>
    match matchNamesChecked def_ typed remaining followingChar names
      ⟨0, none, printMatchingLabels, printed⟩ with
    | none => .fault
    | some p =>
      match p.lastMatch with
      | some last =>
        if p.labelMatchCount = 1 then
          -- the name, a blank and a NUL are written to both
          if last.text.length + 2 ≤ size ∧ last.text.length + 2 ≤ room then
            .done (last.text ++ [' '], p.printed)
          else .fault
        else if p.labelMatchCount = 0 then
          completeLoopChecked def_ names remaining size room fuel typed none p.printMatchingLabels
            p.printed
        else if followingChar.isSome ∧ size < typed.length + 2 then .fault
        else
          let typed := typed ++ followingChar.toList
          match last.read typed.length with
          | none => .fault
          | some c =>
            completeLoopChecked def_ names remaining size room fuel typed (some c)
              p.printMatchingLabels p.printed
      | none =>
        if p.printMatchingLabels = 1 then
          completeLoopChecked def_ names remaining size room fuel typed none p.printMatchingLabels
            p.printed
        else .done (typed, p.printed)

/-- `cfgPrintImages`, with `room` bytes in the line from `buf` on. -/
def cfgPrintImagesChecked (st : CfgState) (tabBuf : Bool) (mem : Memory) (fuel room : Nat)
    (buf : CStr) (remaining : Nat) : Called (CStr × List (CStr × Bool)) :=
  if st.tabCompletionLen < buf.length then .done (buf, [])
  else
    let size := if tabBuf then st.tabCompletionLen + 2 else 0
    if size < buf.length + 1 then .fault
    else
      let def_ := cfgGetStrgI st.options "default".toList
      let names := imageNames mem st.images
      if buf = [] then
        match names.foldlM (fun p name => printlabel def_ name.text p) ⟨0, none, 0, []⟩ with
        | none => .fault
        | some p => .done ([], p.printed)
      else
        match completeLoopChecked def_ names remaining size room fuel buf none 0 [] with
        | .fault => .fault
        | .running => .running
        | .done (typed, printed) =>
          if (tabString typed).length + 1 ≤ room then .done (tabString typed, printed) else .fault

/-- What `cfg_print_images` returns: the string in `tab_completion_buf`, less `len`. -/
def cfgPrintImagesAdded (st : CfgState) (tabBuf : Bool) (mem : Memory) (fuel : Nat) (buf : CStr)
    (remaining : Nat) : Called Int :=
  if st.tabCompletionLen < buf.length then .done 0
  else
    match cfgPrintImages st tabBuf mem fuel buf remaining with
    | .fault => .fault
    | .running => .running
    | .done (after, _) => .done ((after.length : Int) - buf.length)

end LiloBoot.Boot
