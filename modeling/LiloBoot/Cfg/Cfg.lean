/-
LiloBoot.Cfg.Cfg — the option tables of `second/cfg.c`, the parser state
they live in, `cfg_set`, and the queries.

`curr_table` points either at `cf_options` or at the table of one `IMAGES`
node; it is the reference `TableRef`. The singly linked list `images` is the
list of its tables, in link order. A `void *data` is `none` for NULL; the
address `&flag_set` that a flag stores is the empty C string, which is what
the one NUL byte at that address reads as.

`cfg_get_strg` passes the value of `image` to `strrchr` without a test. The
queries therefore return in `Option`: `none` is the NULL dereference, `some`
the pointer the C function returns.

Not modelled: the tokenizer in front of `cfg_set`, and the warnings, which
only print.
-/
import LiloBoot.Basic

namespace LiloBoot.Cfg

/-! ## Tables -/

/-- `CONFIG_TYPE`, less `cft_end`, which is the end of a table. -/
inductive ConfigType where
  | strg
  | flag
  deriving DecidableEq, Repr

/-- One `CONFIG` entry. -/
structure Config where
  type : ConfigType
  name : CStr
  data : Option CStr
  deriving DecidableEq, Repr

/-- What `&flag_set` reads as. -/
def flagSet : CStr := []

def strgEntry (name : String) : Config := ⟨.strg, name.toList, none⟩

def flagEntry (name : String) : Config := ⟨.flag, name.toList, none⟩

def cfOptions : List Config :=
  [strgEntry "device", strgEntry "partition", strgEntry "default", strgEntry "timeout",
   strgEntry "password", flagEntry "restricted", strgEntry "message", strgEntry "root",
   strgEntry "ramdisk", flagEntry "read-only", flagEntry "read-write", strgEntry "append",
   strgEntry "initrd", flagEntry "initrd-prompt", strgEntry "initrd-size",
   strgEntry "init-code", strgEntry "init-message", strgEntry "fgcolor", strgEntry "bgcolor"]

def cfImage : List Config :=
  [strgEntry "image", strgEntry "label", strgEntry "alias", flagEntry "single-key",
   flagEntry "restricted", strgEntry "device", strgEntry "partition", strgEntry "root",
   strgEntry "ramdisk", flagEntry "read-only", flagEntry "read-write", strgEntry "append",
   strgEntry "literal", strgEntry "initrd", flagEntry "initrd-prompt",
   strgEntry "initrd-size", flagEntry "novideo"]

def imageName : CStr := "image".toList

def image32bit : CStr := "image[32bit]".toList

def image64bit : CStr := "image[64bit]".toList

def labelName : CStr := "label".toList

def aliasName : CStr := "alias".toList

/-! ## The parser state -/

/-- Where `curr_table` points. -/
inductive TableRef where
  | options
  | image (i : Nat)
  deriving DecidableEq, Repr

/-- The file-scope variables of `cfg.c` that `cfg_set` and the queries use. -/
structure CfgState where
  archimage : Option CStr
  reusePrevImage : Bool
  options : List Config
  images : List (List Config)
  currTable : TableRef
  tabCompletionLen : Nat
  deriving DecidableEq, Repr

/-- The state `cfg_parse` starts its loop in, for the value of `cpu`. -/
def cfgStart (cpu : Nat) : CfgState where
  archimage := if cpu = 32 then some image32bit else if cpu = 64 then some image64bit else none
  reusePrevImage := false
  options := cfOptions
  images := []
  currTable := .options
  tabCompletionLen := 0

/-! ## `cfg_set` -/

/-- The guard of the section branch: any of the three names, in any case. -/
def isImageItem (item : CStr) : Bool :=
  strcasecmpEq item imageName || strcasecmpEq item image32bit || strcasecmpEq item image64bit

/-- The pointer the walk stores in an entry of type `type`; `none` where it only warns. -/
def newData (type : ConfigType) (value : Option CStr) : Option CStr :=
  match type, value with
  | .strg, some v => some v
  | .flag, none => some flagSet
  | _, _ => none

/-- The walk over `curr_table`: `none` when it runs into `cft_end`. -/
def walkTable (item : CStr) (value : Option CStr) : List Config → Option (List Config)
  | [] => none
  | walk :: rest =>
    if strcasecmpEq walk.name item then
      some ({ walk with data := (newData walk.type value).or walk.data } :: rest)
    else (walkTable item value rest).map (walk :: ·)

/-- The table `curr_table` points at. -/
def CfgState.table (st : CfgState) : List Config :=
  match st.currTable with
  | .options => st.options
  | .image i => st.images.getD i []

/-- The state with the table `curr_table` points at replaced. -/
def CfgState.setTable (st : CfgState) (t : List Config) : CfgState :=
  match st.currTable with
  | .options => { st with options := t }
  | .image i => { st with images := st.images.set i t }

/-- Whether the walk stored a string under one of the two names `strcmp` tests for. -/
def completes (item : CStr) (value : Option CStr) : Bool :=
  value.isSome && (item = labelName || item = aliasName)

/-- The second half of `cfg_set`: the walk, `tab_completion_len`, and the result. -/
def cfgAssign (st : CfgState) (item : CStr) (value : Option CStr) : CfgState × Int :=
  match walkTable item value st.table with
  | none => (st, 0)
  | some t =>
    let st := st.setTable t
    if completes item value then
      ({ st with tabCompletionLen := max st.tabCompletionLen (value.getD []).length }, 1)
    else (st, 1)

/-- `cfg_set`; `malloc` says whether the allocation of a section succeeds. -/
def cfgSet (malloc : Bool) (st : CfgState) (item : CStr) (value : Option CStr) :
    CfgState × Int :=
  if isImageItem item then
    if st.archimage.isNone
        && (strcasecmpEq item image32bit || strcasecmpEq item image64bit) then
      ({ st with reusePrevImage := true }, 0)
    else if st.archimage.isSome && item != imageName && some item != st.archimage then
      ({ st with reusePrevImage := true }, 0)
    else if !malloc then
      ({ st with reusePrevImage := false }, -1)
    else
      let item := if st.archimage.isSome then imageName else item
      cfgAssign
        { st with
          reusePrevImage := false
          images := st.images ++ [cfImage]
          currTable := .image st.images.length }
        item value
  else if st.reusePrevImage then (st, 0)
  else cfgAssign st item value

/-- The loop of `cfg_parse` over the pairs `cfg_next` delivers. `malloc i` is the
outcome of the allocation of the `i`-th section. -/
def cfgItems (malloc : Nat → Bool) (st : CfgState) : List (CStr × Option CStr) → CfgState
  | [] => st
  | (item, value) :: rest =>
    let r := cfgSet (malloc st.images.length) st item value
    if r.2 < 0 then r.1 else cfgItems malloc r.1 rest

/-! ## The queries -/

/-- `cfg_get_strg_i`. -/
def cfgGetStrgI : List Config → CStr → Option CStr
  | [], _ => none
  | walk :: rest, item =>
    if strcasecmpEq walk.name item then walk.data else cfgGetStrgI rest item

/-- The name an image section answers to besides its alias: its label, else the
part of its `image` value behind the last `/`. Outer `none`: `strrchr(NULL, '/')`. -/
def imageLabel (table : List Config) : Option CStr :=
  match cfgGetStrgI table labelName with
  | some label => some label
  | none =>
    match cfgGetStrgI table imageName with
    | none => none
    | some image =>
      match strrchr image '/' with
      | some slash => some (slash.drop 1)
      | none => some image

/-- The loop of `cfg_get_strg` over the sections. -/
def cfgGetStrgImages (options : List Config) (image item : CStr) :
    List (List Config) → Option (Option CStr)
  | [] => some none
  | p :: rest =>
    match imageLabel p with
    | none => none
    | some label =>
      if label = image || cfgGetStrgI p aliasName = some image then
        some ((cfgGetStrgI p item).or (cfgGetStrgI options item))
      else cfgGetStrgImages options image item rest

/-- `cfg_get_strg`; `image = none` is the NULL that asks for a global option. -/
def cfgGetStrg (st : CfgState) (image : Option CStr) (item : CStr) : Option (Option CStr) :=
  match image with
  | none => some (cfgGetStrgI st.options item)
  | some name => cfgGetStrgImages st.options name item st.images

/-- `cfg_get_flag`. -/
def cfgGetFlag (st : CfgState) (image : Option CStr) (item : CStr) : Option Bool :=
  (cfgGetStrg st image item).map Option.isSome

end LiloBoot.Cfg
