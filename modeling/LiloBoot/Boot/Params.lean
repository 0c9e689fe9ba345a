/-
LiloBoot.Boot.Params — the prompt (`get_params` of `second/yaboot.c`).

A line is read from the keyboard or taken from `lilo once`, its first word is
looked up among the labels, and the password is asked for where the image or
the command is protected. The call is a function of what it is given: the
configuration, the keys, the outcomes of `malloc`. What it does to the world
is a list of events.

A call need not return: it waits for a key that does not come, runs through a
null pointer in the configuration, or resets the machine. Where the source
measures or prints a missing name or missing arguments for the NVRAM, it goes on.
What it leaves in `params` and in the NVRAM is not modelled: no check looks at
that.
-/
import LiloBoot.Cfg.Cfg

namespace LiloBoot.Boot

open LiloBoot.Cfg

/-! ## Keys -/

def charIsNewline (c : Int) : Bool := c = 10 || c = 13

def charIsBackspace (c : Int) : Bool := c = 8 || c = 0x7f

def charIsTab (c : Int) : Bool := c = 9

def charToAscii (c : Int) : Int := if 0x7f < c then 0 else if c < 32 then 0 else c

/-- `CMD_LENG`. -/
def cmdLeng : Nat := 512

/-- The loop body of `buffer_edit`. `tab` is what `tabfunc` leaves in the buffer, and missing
for a password. -/
def editKey (tab : Option (CStr → CStr)) (c : Int) (buf : CStr) : CStr :=
  if charIsTab c ∧ tab.isSome then tab.getD id buf
  else if charIsBackspace c then buf.dropLast
  else if charToAscii c ≠ 0 ∧ buf.length < cmdLeng - 2 then
    buf ++ [Char.ofNat (charToAscii c).toNat]
  else buf

/-- `buffer_edit`: the line, and the keys behind it; `none` when the keys run out first. -/
def bufferEdit (tab : Option (CStr → CStr)) : List Int → CStr → Option (CStr × List Int)
  | [], _ => none
  | c :: keys, buf =>
    if c = -1 ∨ charIsNewline c then some (buf, keys) else bufferEdit tab keys (editKey tab c buf)

/-! ## What a call is given -/

/-- The configuration and the environment of a call. `cmdbuff` says whether `cmdlineinit` has a
buffer to return, `malloc i` the outcome of the `i`-th allocation in `passwdinit`, `pressed` the
key that ended the wait for the timeout, 0 or -1 for none. `parse` is whether
`imagepath_to_path_description` accepts the image, `md5` whether `check_md5_password` does a typed
password. -/
structure PromptInput where
  useconf : Bool
  cfg : CfgState
  password : Option CStr
  liloOnceCmdline : CStr
  gprOk : Bool
  cmdbuff : Bool
  passwdbuff : Option CStr
  malloc : Nat → Bool
  pressed : Int
  keys : List Int
  tab : CStr → CStr
  parse : CStr → Bool
  md5 : CStr → CStr → Bool

/-- What a call does. -/
inductive Event where
  | typed (text : CStr)
  | resetAll
  | interpret (cmd : CStr)
  | halt
  | bye
  deriving DecidableEq, Repr

/-- What a call changes. -/
structure Session where
  keys : List Int
  passwdbuff : Option CStr
  mallocs : Nat
  events : List Event
  deriving DecidableEq, Repr

/-- `enum get_params_result`. -/
inductive GetParamsResult where
  | fatal
  | ok
  | stop
  deriving DecidableEq, Repr

/-! ## `check_password` -/

/-- `passwdinit`. -/
def passwdinit (inp : PromptInput) (s : Session) : Session :=
  match s.passwdbuff with
  | some _ => { s with passwdbuff := some [] }
  | none =>
    { s with
      passwdbuff := if inp.malloc s.mallocs then some [] else none
      mallocs := s.mallocs + 1 }

/-- `"$1$"`. -/
def md5Mark : CStr := ['$', '1', '$']

/-- Whether a typed password is the configured one. -/
def passwordMatches (inp : PromptInput) (password typed : CStr) : Bool :=
  if md5Mark.isPrefixOf password then inp.md5 typed password else password == typed

/-- The attempts left. The buffer is not cleared between them. The flag says whether the function
returns. -/
def passwordLoop (inp : PromptInput) (password : CStr) : Nat → CStr → Session → Session × Bool
  | 0, _, s => ({ s with events := s.events ++ [.resetAll] }, false)
  | attempts + 1, buf, s =>
    match bufferEdit none s.keys buf with
    | none => (s, false)
    | some (typed, keys) =>
      let s := { s with
        keys := keys, passwdbuff := some typed, events := s.events ++ [.typed typed] }
      if passwordMatches inp password typed then (s, true)
      else passwordLoop inp password attempts typed s

/-- `check_password`; the flag says whether it returns. -/
def checkPassword (inp : PromptInput) (password : CStr) (s : Session) : Session × Bool :=
  let s := passwdinit inp s
  match s.passwdbuff with
  | none => (s, true)
  | some buf => passwordLoop inp password 3 buf s

/-! ## The line -/

/-- `word_split`: the first word and what follows it, null pointers where there is nothing. -/
def wordSplit (line : CStr) : Option CStr × Option CStr :=
  match line.dropWhile (· = ' ') with
  | [] => (none, none)
  | p =>
    match (p.dropWhile (· ≠ ' ')).dropWhile (· = ' ') with
    | [] => (some (p.takeWhile (· ≠ ' ')), none)
    | params => (some (p.takeWhile (· ≠ ' ')), some params)

/-- `cfg_get_default`. -/
def cfgGetDefault (st : CfgState) : Option (Option CStr) :=
  match cfgGetStrgI st.options "default".toList with
  | some name => some (some name)
  | none =>
    match st.images with
    | [] => some none
    | table :: _ => (imageLabel table).map some

/-- Whether there is a timeout to wait for. -/
def hasTimeout (inp : PromptInput) : Bool :=
  inp.gprOk && inp.useconf
    && (match cfgGetStrgI inp.cfg.options "timeout".toList with
        | some p => p ≠ []
        | none => false)

/-- The key that starts the line, and the buffer with it. -/
def firstKey (inp : PromptInput) : Int × CStr :=
  if hasTimeout inp then
    let c := inp.pressed
    if c = -1 ∨ c = 0 then (10, [])
    else if !charIsNewline c && !charIsTab c && !charIsBackspace c then
      let c := charToAscii c
      (c, if c = 0 then [] else [Char.ofNat c.toNat])
    else (c, [])
  else (0, [])

/-- The image name, the arguments and the keys left. Arguments start as the empty string. -/
def readLine (inp : PromptInput) : Option (Option CStr × Option CStr × List Int) :=
  if inp.liloOnceCmdline ≠ [] then
    let (imagename, args) := wordSplit inp.liloOnceCmdline
    some (imagename, args, inp.keys)
  else
    let (c, cmdbuff) := firstKey inp
    if charIsNewline c then
      (cfgGetDefault inp.cfg).map fun imagename => (imagename, some [], inp.keys)
    else
      let edit := (bufferEdit (some inp.tab) inp.keys cmdbuff).map fun (line, keys) =>
        let (imagename, args) := wordSplit line
        (imagename, args, keys)
      if 32 ≤ c ∧ inp.useconf then
        match cfgGetFlag inp.cfg (some cmdbuff) "single-key".toList with
        | none => none
        | some true => some (some cmdbuff, some [], inp.keys)
        | some false => edit
      else edit

/-- The request: `read_line`, or the default image for an empty name. -/
def request (inp : PromptInput) : Option (Option CStr × Option CStr × List Int) :=
  match readLine inp with
  | none => none
  | some (imagename, args, keys) =>
    if inp.useconf ∧ imagename.getD [] = [] then
      (cfgGetDefault inp.cfg).map fun imagename => (imagename, args, keys)
    else some (imagename, args, keys)

/-- What an image name stands for. -/
structure Target where
  label : Option CStr
  imagename : Option CStr
  restricted : Bool
  deriving DecidableEq, Repr

/-- The look-up in the configuration. -/
def findTarget (inp : PromptInput) (imagename : Option CStr) : Option Target :=
  if inp.useconf then
    match cfgGetFlag inp.cfg none "restricted".toList,
      cfgGetStrg inp.cfg imagename imageName with
    | some restricted, some p =>
      if p.getD [] ≠ [] then
        (cfgGetFlag inp.cfg imagename "restricted".toList).map fun flag =>
          ⟨imagename, p, restricted || flag⟩
      else some ⟨none, imagename, restricted⟩
    | _, _ => none
  else some ⟨none, imagename, false⟩

/-! ## `get_params` -/

/-- Whether the password is asked for before the image of a label is used. -/
def asksForLabel (t : Target) (args : Option CStr) : Bool :=
  t.label.isSome && (args.isSome && t.restricted || !t.restricted)

/-- A check where `asks` says so; nothing is asked without a password. -/
def checkIf (asks : Bool) (inp : PromptInput) (s : Session) : Session × Bool :=
  match asks, inp.password with
  | true, some password => checkPassword inp password s
  | _, _ => (s, true)

def helpName : CStr := ['h', 'e', 'l', 'p']
def haltName : CStr := ['h', 'a', 'l', 't']
def byeName : CStr := ['b', 'y', 'e']

/-- A command that a name stands for, other than `help`. -/
def commandOf (name : CStr) : Option (Event × GetParamsResult) :=
  if name = haltName then some (.halt, .fatal)
  else if name = byeName then some (.bye, .fatal)
  else
    match name with
    | '$' :: cmd => some (.interpret cmd, .stop)
    | _ => none

/-- From the look-up of the label on, with the image name found. -/
def runTarget (inp : PromptInput) (t : Target) (s : Session) :
    Session × Option GetParamsResult :=
  match t.imagename with
  | none => (s, some .stop)
  | some name =>
    if name = helpName then (s, some .stop)
    else
      match commandOf name with
      | some (event, result) =>
        match checkIf true inp s with
        | (s, false) => (s, none)
        | (s, true) => ({ s with events := s.events ++ [event] }, some result)
      | none =>
        match checkIf t.label.isNone inp s with
        | (s, false) => (s, none)
        | (s, true) => (s, some (if inp.parse name then .ok else .stop))

/-- `get_params`; without a result it does not return. -/
def getParams (inp : PromptInput) : Session × Option GetParamsResult :=
  let s : Session := ⟨inp.keys, inp.passwdbuff, 0, []⟩
  if !inp.cmdbuff then (s, some .fatal)
  else
    match request inp with
    | none => (s, none)
    | some (imagename, args, keys) =>
      match findTarget inp imagename with
      | none => ({ s with keys := keys }, none)
      | some t =>
        match checkIf (asksForLabel t args) inp { s with keys := keys } with
        | (s, false) => (s, none)
        | (s, true) => runTarget inp t s

end LiloBoot.Boot
