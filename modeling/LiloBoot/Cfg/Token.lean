/-
LiloBoot.Cfg.Token — from the text to the items (`cfg_get_token`, `cfg_next` and
`cfg_parse` of `second/cfg.c`).

Characters are those of an unsigned `char`, and EOF is `none`, so that it is no
character. The text is a memory, of which the bytes before `endp` are the text.
`again` keeps one character in `back`, where 0 stands for none. `cfg_error` leaves
through `longjmp` and is the outcome `error`, with its message.

The loops take fuel, and the result is `none` when it runs out. `written` is added:
it counts the bytes of `buf` that a call has written, the highest count so far.
`last_item` is never set, and not modelled.
-/
import LiloBoot.Cfg.Cfg

namespace LiloBoot.Cfg

/-! ## Characters -/

/-- `MAX_TOKEN`. -/
def maxToken : Nat := 512

/-- `char_is_newline(c)`. -/
def charIsNewline (c : Char) : Bool := c = '\n' || c = '\r'

/-- `char_is_tab(c)`. -/
def charIsTab (c : Char) : Bool := c = '\t'

/-- A text in memory, and the outcome of each `malloc` of a token. -/
structure Source where
  buff : Nat → Char
  endp : Nat
  malloc : Nat → Bool

/-- The variables of the tokenizer. -/
structure Input where
  currp : Nat
  back : Option (Option Char)
  lineNum : Nat
  lastToken : Option CStr
  mallocs : Nat
  written : Nat
  deriving DecidableEq, Repr

/-- `getc`. -/
def getc (src : Source) (s : Input) : Option Char × Input :=
  if s.currp = src.endp then (none, s)
  else (some (src.buff s.currp), { s with currp := s.currp + 1 })

/-- `next`. -/
def next (src : Source) (s : Input) : Option Char × Input :=
  match s.back with
  | none => getc src s
  | some ch => (ch, { s with back := none })

/-- `again`. -/
def again (ch : Option Char) (s : Input) : Input :=
  { s with back := if ch = some '\x00' then none else some ch }

/-- `line_num++`. -/
def countLine (s : Input) : Input := { s with lineNum := s.lineNum + 1 }

/-- What a call that reads tokens ends with: 0, the message of `cfg_error`, or a result. -/
inductive Read (α : Type) where
  | null
  | error (msg : CStr)
  | got (a : α)
  deriving DecidableEq, Repr

/-! ## Blanks and comments -/

/-- `ch == ' ' || char_is_tab(ch) || char_is_newline(ch)`. -/
def isBlank (c : Char) : Bool := c = ' ' || charIsTab c || charIsNewline c

/-- The loop over blanks: the character behind them. -/
def skipBlanks (src : Source) : Nat → Input → Option (Option Char × Input)
  | 0, _ => none
  | fuel + 1, s =>
    match next src s with
    | (none, s) => some (none, s)
    | (some c, s) =>
      if isBlank c then skipBlanks src fuel (if charIsNewline c then countLine s else s)
      else some (some c, s)

/-- The loop over a comment: whether it has an end. -/
def skipComment (src : Source) : Nat → Input → Option (Bool × Input)
  | 0, _ => none
  | fuel + 1, s =>
    match next src s with
    | (none, s) => some (false, s)
    | (some c, s) => if charIsNewline c then some (true, s) else skipComment src fuel s

/-- The first loop of `cfg_get_token`: the first character of a token, `none` where the call
returns NULL. -/
def skipSpace (src : Source) : Nat → Input → Option (Option Char × Input)
  | 0, _ => none
  | fuel + 1, s =>
    match skipBlanks src fuel s with
    | none => none
    | some (none, s) => some (none, s)
    | some (some c, s) =>
      if c = '\x00' then some (none, s)
      else if c ≠ '#' then some (some c, s)
      else
        match skipComment src fuel s with
        | none => none
        | some (false, s) => some (none, s)
        | some (true, s) => skipSpace src fuel (countLine s)

/-! ## Tokens -/

/-- The loop over the blanks behind an escaped newline. -/
def skipIndent (src : Source) : Nat → Input → Option (Option Char × Input)
  | 0, _ => none
  | fuel + 1, s =>
    match next src s with
    | (none, s) => some (none, s)
    | (some c, s) => if c = ' ' || charIsTab c then skipIndent src fuel s else some (some c, s)

/-- The loop of a quoted string; `buf` holds what is stored so far. -/
def quotedLoop (src : Source) : Nat → CStr → Input → Option (Read Unit × CStr × Input)
  | 0, _, _ => none
  | fuel + 1, buf, s =>
    if maxToken ≤ buf.length then some (.error "Quoted string is too long".toList, buf, s)
    else
      match next src s with
      | (none, s) => some (.error "EOF in quoted string".toList, buf, s)
      | (some c, s) =>
        if c = '"' then some (.got (), buf, s)
        else if c = '\\' then
          match next src s with
          | (none, s) => some (.error "Bad use of \\ in quoted string".toList, buf, s)
          | (some c, s) =>
            if c = '"' || c = '\\' then quotedLoop src fuel (buf ++ [c]) s
            else if charIsNewline c then
              match skipIndent src fuel s with
              | none => none
              | some (ch, s) =>
                if ch = some '\x00' then quotedLoop src fuel buf s
                else quotedLoop src fuel (buf ++ [' ']) (again ch s)
            else if c = 'n' then quotedLoop src fuel (buf ++ ['\n']) s
            else some (.error "Bad use of \\ in quoted string".toList, buf, s)
        else if charIsNewline c then
          some (.error "newline is not allowed in quoted strings".toList, buf, s)
        else quotedLoop src fuel (buf ++ [c]) s

/-- Whether a character ends a token without quotes. -/
def endsToken (c : Char) : Bool := isBlank c || c = '#' || c = '='

/-- The loop of a token without quotes, at the character `ch`. -/
def bareLoop (src : Source) :
    Nat → CStr → Bool → Option Char → Input → Option (Read Unit × CStr × Input)
  | 0, _, _, _, _ => none
  | fuel + 1, buf, escaped, ch, s =>
    if maxToken ≤ buf.length then some (.error "Token is too long".toList, buf, s)
    else
      match ch with
      | none =>
        if escaped then some (.error "\\ precedes EOF".toList, buf, s)
        else some (.got (), buf, again none s)
      | some c =>
        if escaped then
          let s := if c = '\n' then countLine s else s
          let buf := if c = '\n' then buf else buf ++ [if charIsTab c then ' ' else c]
          let (ch, s) := next src s
          bareLoop src fuel buf false ch s
        else if endsToken c then some (.got (), buf, again (some c) s)
        else
          let (ch, s) := next src s
          if c = '\\' then bareLoop src fuel buf true ch s
          else bareLoop src fuel (buf ++ [c]) false ch s

/-- `strdup(buf)`. -/
def strdup (src : Source) (buf : CStr) (s : Input) : Read CStr × Input :=
  (if src.malloc s.mallocs then .got (buf.takeWhile (· ≠ '\x00')) else .null,
    { s with mallocs := s.mallocs + 1 })

/-- The end of a token: the NUL behind it, and the copy. -/
def finishToken (src : Source) : Read Unit × CStr × Input → Read CStr × Input
  | (.got (), buf, s) => strdup src buf { s with written := max s.written (buf.length + 1) }
  | (.error msg, buf, s) => (.error msg, { s with written := max s.written buf.length })
  | (.null, buf, s) => (.null, { s with written := max s.written buf.length })

/-- `cfg_get_token`. -/
def cfgGetToken (src : Source) (fuel : Nat) (s : Input) : Option (Read CStr × Input) :=
  match s.lastToken with
  | some here => some (.got here, { s with lastToken := none })
  | none =>
    match skipSpace src fuel s with
    | none => none
    | some (none, s) => some (.null, s)
    | some (some c, s) =>
      if c = '=' then some (strdup src ['='] s)
      else if c = '"' then (quotedLoop src fuel [] s).map (finishToken src)
      else (bareLoop src fuel [] false (some c) s).map (finishToken src)

/-! ## Items -/

/-- `cfg_return_token`. -/
def cfgReturnToken (token : CStr) (s : Input) : Input := { s with lastToken := some token }

/-- `cfg_next`. -/
def cfgNext (src : Source) (fuel : Nat) (s : Input) :
    Option (Read (CStr × Option CStr) × Input) :=
  match cfgGetToken src fuel s with
  | none => none
  | some (.null, s) => some (.null, s)
  | some (.error msg, s) => some (.error msg, s)
  | some (.got item, s) =>
    if item = ['='] then some (.error "Syntax error".toList, s)
    else
      match cfgGetToken src fuel s with
      | none => none
      | some (.null, s) => some (.got (item, none), s)
      | some (.error msg, s) => some (.error msg, s)
      | some (.got this, s) =>
        if this ≠ ['='] then some (.got (item, none), cfgReturnToken this s)
        else
          match cfgGetToken src fuel s with
          | none => none
          | some (.null, s) => some (.error "Value expected at EOF".toList, s)
          | some (.error msg, s) => some (.error msg, s)
          | some (.got value, s) =>
            if value = ['='] then some (.error ("Syntax error after ".toList ++ item), s)
            else some (.got (item, some value), s)

/-! ## `cfg_parse` -/

/-- The loop of `cfg_parse`: the tables, the tokenizer, and whether `longjmp` has ended it. -/
def parseLoop (src : Source) (malloc : Nat → Bool) :
    Nat → CfgState → Input → Option (CfgState × Input × Bool)
  | 0, _, _ => none
  | fuel + 1, st, s =>
    match cfgNext src fuel s with
    | none => none
    | some (.null, s) => some (st, s, false)
    | some (.error _, s) => some (st, s, true)
    | some (.got (item, value), s) =>
      let r := cfgSet (malloc st.images.length) st item value
      if r.2 < 0 then some (r.1, s, false) else parseLoop src malloc fuel r.1 s

/-- The tokenizer when `cfg_parse` starts. -/
def inputStart : Input where
  currp := 0
  back := none
  lineNum := 0
  lastToken := none
  mallocs := 0
  written := 0

/-- `cfg_parse(buff, len, cpu)`: the tables, the tokenizer, and the result. `tabMalloc` is the
outcome of the `malloc` of `tab_completion_buf`. -/
def cfgParse (src : Source) (cpu : Nat) (malloc : Nat → Bool) (tabMalloc : Bool) (fuel : Nat) :
    Option (CfgState × Input × Bool) :=
  (parseLoop src malloc fuel (cfgStart cpu) inputStart).map fun r =>
    (r.1, r.2.1, !r.2.2 && (decide (0 < r.1.tabCompletionLen) && tabMalloc))

end LiloBoot.Cfg
