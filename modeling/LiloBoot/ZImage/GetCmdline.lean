/-
LiloBoot.ZImage.GetCmdline — the command line editor of the zImage.

`get_cmdline` of `lilo/bootheader/common/get_cmdline.c` edits the built-in
command line in place. The input is what the calls of `getchar` return: a key,
or 0 where there is none (or several at once). A character is a byte, `char`
being unsigned on PowerPC. Every access to the buffer is kept with its index,
which can be the byte before the buffer; what is printed is not modelled.
-/
import LiloBoot.Basic

namespace LiloBoot.ZImage

/-! ## §1 The keys -/

def keyEscape : Nat := 0x1b
def keyBracket : Nat := 0x5b
def keyBlank : Nat := 0x20

def isNewline (c : Nat) : Prop := c = 0x0a ∨ c = 0x0d
def isBackspace (c : Nat) : Prop := c = 0x08 ∨ c = 0x7f
def isAbort (c : Nat) : Prop := c = 0x03
def isLineErase (c : Nat) : Prop := c = 0x18 ∨ c = 0x15
def isWordErase (c : Nat) : Prop := c = 0x17

instance (c : Nat) : Decidable (isNewline c) := inferInstanceAs (Decidable (_ ∨ _))
instance (c : Nat) : Decidable (isBackspace c) := inferInstanceAs (Decidable (_ ∨ _))
instance (c : Nat) : Decidable (isAbort c) := inferInstanceAs (Decidable (_ = _))
instance (c : Nat) : Decidable (isLineErase c) := inferInstanceAs (Decidable (_ ∨ _))
instance (c : Nat) : Decidable (isWordErase c) := inferInstanceAs (Decidable (_ = _))

/-! ## §2 `get_cmdline` -/

/-- The buffer `p`, `len`, and the indices that were accessed. -/
structure Line where
  buf : List Nat
  len : Nat
  accesses : List Int
  deriving DecidableEq

/-- The line after `p[i] = c;`. -/
def Line.poke (e : Line) (i c : Nat) : Line :=
  { e with buf := e.buf.set i c, accesses := e.accesses ++ [(i : Int)] }

/-- An access that changes nothing. -/
def Line.peek (e : Line) (i : Int) : Line := { e with accesses := e.accesses ++ [i] }

/-- `p[--len] = '\0';` where `len` becomes `n`. -/
def Line.delete (e : Line) (n : Nat) : Line := { e.poke n 0 with len := n }

/-- `p[len - 1]`, where `before` is the byte in front of the buffer. -/
def leftOf (before : Nat) (buf : List Nat) (len : Nat) : Nat :=
  if len = 0 then before else buf.getD (len - 1) 0

/-- The line erase, at a length. -/
def eraseLine (e : Line) : Nat → Line
  | 0 => e
  | n + 1 => eraseLine (e.delete n) n

/-- The word delete, at a length: it looks at the character to the left of each
    one that it deletes and is no blank. -/
def eraseWordLoop (before : Nat) (e : Line) : Nat → Line
  | 0 => e
  | n + 1 =>
    let c := e.buf.getD n 0
    let e := (e.peek n).delete n
    if c ≠ keyBlank then
      if leftOf before e.buf n = keyBlank then e.peek ((n : Int) - 1)
      else eraseWordLoop before (e.peek ((n : Int) - 1)) n
    else eraseWordLoop before e n

/-- The tests behind those for the escape state and the newline. -/
def editKey (before max : Nat) (c : Nat) (e : Line) : Line :=
  if isBackspace c then
    if e.len = 0 then e else e.delete (e.len - 1)
  else if isLineErase c then eraseLine e e.len
  else if isWordErase c then eraseWordLoop before e e.len
  else if keyBlank ≤ c ∧ e.len < max then { e.poke e.len c with len := e.len + 1 }
  else e

/-- How an edit ends: it returns `len`, it is left by `abort`, or it waits for
    a key. -/
inductive Edited where
  | returned (e : Line)
  | aborted
  | waiting
  deriving DecidableEq

/-- The loop over the keys, `max` being the room less one. -/
def editLoop (before max : Nat) : Nat → Line → List Nat → Edited
  | _, _, [] => .waiting
  | escape, e, c :: input =>
    if c = 0 then editLoop before max escape e input
    else if c = keyEscape then editLoop before max 1 e input
    else if c = keyBracket ∧ escape = 1 then editLoop before max 2 e input
    else if escape = 2 then editLoop before max 0 e input
    else if isNewline c then .returned (e.poke e.len 0)
    else if isAbort c then .aborted
    else editLoop before max escape (editKey before max c e) input

/-- The loop that waits for the first key, for as many rounds as are left:
    what there is to read from that key on. -/
def firstKey : Nat → List Nat → List Nat
  | 0, _ => []
  | _ + 1, [] => []
  | rounds + 1, c :: input => if c ≠ 0 then c :: input else firstKey rounds input

/-- `10 * seconds` rounds and the one that finds none left. -/
def rounds : Nat := 101

/-- The characters of a buffer before its first NUL. -/
def string (buf : List Nat) : List Nat := buf.takeWhile (· ≠ 0)

/-- `get_cmdline(p, l, max)`; printing the line reads it with its NUL. -/
def getCmdline (before : Nat) (input buf : List Nat) (l max : Nat) : Edited :=
  let e : Line := ⟨buf, l, (List.range ((string buf).length + 1)).map Int.ofNat⟩
  match firstKey rounds input with
  | [] => .returned (e.poke l 0)
  | keys => editLoop before (max - 1) 0 e keys

/-! ## §3 The reference editor -/

/-- Trailing blanks go, then one word. -/
def eraseWord (text : List Nat) : List Nat :=
  (text.rdropWhile (· = keyBlank)).rdropWhile (· ≠ keyBlank)

/-- A key on a line with room for `max - 1` characters. -/
def referenceKey (max c : Nat) (text : List Nat) : List Nat :=
  if isBackspace c then text.dropLast
  else if isLineErase c then []
  else if isWordErase c then eraseWord text
  else if keyBlank ≤ c ∧ text.length < max - 1 then text ++ [c]
  else text

/-- The keys acted on, up to the newline that ends them: ESC, `[` and the key
    behind them are not. -/
def acted : List Nat → Option (List Nat)
  | [] => none
  | c :: keys =>
    if isNewline c then some []
    else
      match c, keys with
      | 0x1b, 0x5b :: _ :: keys => acted keys
      | _, keys => (acted keys).map (c :: ·)

/-- The line after keys that are acted on. -/
def referenceKeys (max : Nat) (text keys : List Nat) : List Nat :=
  keys.foldl (fun text c => referenceKey max c text) text

/-- The line at the newline. -/
def referenceEdit (max : Nat) (text keys : List Nat) : Option (List Nat) :=
  (acted keys).map (referenceKeys max text)

end LiloBoot.ZImage
