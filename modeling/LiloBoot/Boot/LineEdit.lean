/-
LiloBoot.Boot.LineEdit — the line at the prompt (`buffer_edit` of
`second/cmdline.c`, with the Tab key).

`Params` edits a string. Here the line is what the source has: a buffer of
bytes and the length `len`, which the editor and `tabfunc` keep each in their
way. A write outside the buffer is a fault, and so is what
`cfg_print_images` may not do. What is printed is not modelled.
-/
import LiloBoot.Boot.TabBuffer
import LiloBoot.Lib.CommonPrefix

namespace LiloBoot.Boot

open LiloBoot.Cfg

/-! ## The buffer -/

/-- `buf` and `len`. -/
structure EditLine where
  buf : List Char
  len : Int
  deriving DecidableEq, Repr

/-- `buf[i] = c`; `none` outside. -/
def poke (buf : List Char) (i : Int) (c : Char) : Option (List Char) :=
  if 0 ≤ i ∧ i < buf.length then some (buf.set i.toNat c) else none

/-- `memcpy(buf + offset, src, n)` for the `n` bytes `src`; `none` outside. -/
def copyTo (buf : List Char) (offset : Nat) (src : List Char) : Option (List Char) :=
  if offset + src.length ≤ buf.length then
    some (buf.take offset ++ src ++ buf.drop (offset + src.length))
  else none

/-- A write that has to be inside. -/
def written (len : Int) : Option (List Char) → Called EditLine
  | none => .fault
  | some buf => .done ⟨buf, len⟩

/-! ## `tabfunc` -/

/-- `tabfunc`: the buffer, and the length that is returned. -/
def tabfuncAt (st : CfgState) (tabBuf : Bool) (mem : Memory) (fuel : Nat) (e : EditLine) :
    Called EditLine :=
  if 0 < e.len then
    if e.buf.length < e.len then .fault
    else
      let line := e.buf.take e.len.toNat
      let blanks := line.takeWhile (· = ' ')
      let p := line.dropWhile (· = ' ')
      if p = [] ∨ ' ' ∈ p then .done e
      else
        match cfgPrintImagesChecked st tabBuf mem fuel (e.buf.length - blanks.length) p
          (cmdLeng - e.len - 1).toNat with
        | .fault => .fault
        | .running => .running
        | .done (after, _) =>
          -- a word longer than any name is left alone
          if st.tabCompletionLen < p.length then .done e
          else
            written (e.len + ((after.length : Int) - p.length))
              (copyTo e.buf blanks.length (after ++ ['\x00']))
  else
    match cfgPrintImagesChecked st tabBuf mem fuel 0 [] 0 with
    | .fault => .fault
    | .running => .running
    | .done (after, _) => .done { e with len := e.len + after.length }

/-! ## `buffer_edit` -/

/-- The body of the loop, for a key that does not end it. -/
def editKeyAt (st : CfgState) (tabBuf : Bool) (mem : Memory) (fuel : Nat) (c : Int) (e : EditLine) :
    Called EditLine :=
  if charIsTab c then tabfuncAt st tabBuf mem fuel e
  else if charIsBackspace c then
    if 0 < e.len then written (e.len - 1) (poke e.buf (e.len - 1) '\x00')
    else .done e
  else
    let c := charToAscii c
    if c ≠ 0 ∧ e.len < cmdLeng - 2 then
      written (e.len + 1) ((poke e.buf e.len (Char.ofNat c.toNat)).bind fun buf =>
        poke buf (e.len + 1) '\x00')
    else .done e

/-- The loop of `buffer_edit`, and the string that is returned; `running` while it waits for a
key. -/
def bufferEditLoop (st : CfgState) (tabBuf : Bool) (mem : Memory) (fuel : Nat) :
    List Int → EditLine → Called CStr
  | [], _ => .running
  | c :: keys, e =>
    if c = -1 ∨ charIsNewline c then
      match poke e.buf e.len '\x00' with
      | none => .fault
      | some buf => .done (tabString buf)
    else
      match editKeyAt st tabBuf mem fuel c e with
      | .fault => .fault
      | .running => .running
      | .done e => bufferEditLoop st tabBuf mem fuel keys e

/-- `buffer_edit(buf, func)`. -/
def bufferEditAt (st : CfgState) (tabBuf : Bool) (mem : Memory) (fuel : Nat) (keys : List Int)
    (buf : List Char) : Called CStr :=
  bufferEditLoop st tabBuf mem fuel keys ⟨buf, (tabString buf).length⟩

/-- The buffer after keys that do not end the loop. -/
def editKeysAt (st : CfgState) (tabBuf : Bool) (mem : Memory) (fuel : Nat) :
    List Int → EditLine → Called EditLine
  | [], e => .done e
  | c :: keys, e =>
    match editKeyAt st tabBuf mem fuel c e with
    | .fault => .fault
    | .running => .running
    | .done e => editKeysAt st tabBuf mem fuel keys e

/-! ## The reference editor -/

/-- What a word is completed to. -/
def completeWord : List CStr → CStr → CStr
  | [], word => word
  | [name], _ => name ++ [' ']
  | name :: names, _ => commonPrefixes name names

/-- What a Tab makes of a line: its one word is completed. -/
def completeLine (names : List CStr) (line : CStr) : CStr :=
  let blanks := line.takeWhile (· = ' ')
  let word := line.dropWhile (· = ' ')
  if word = [] ∨ ' ' ∈ word then line
  else
    blanks ++ completeWord
      (names.filter fun name => name.length < cmdLeng - line.length - 1 ∧ word <+: name) word

/-- A key at the prompt: a Tab completes, a backspace deletes the last character, a printable
character is appended while there is room, and all else is ignored. -/
def referenceKey (names : List CStr) (c : Int) (line : CStr) : CStr :=
  if charIsTab c then completeLine names line
  else if charIsBackspace c then line.dropLast
  else if 32 ≤ c ∧ c < 0x7f ∧ line.length < 510 then line ++ [Char.ofNat c.toNat]
  else line

/-- The line after the keys. -/
def referenceEdit (names : List CStr) (keys : List Int) : CStr :=
  keys.foldl (fun line c => referenceKey names c line) []

end LiloBoot.Boot
