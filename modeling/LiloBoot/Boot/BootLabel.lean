/-
LiloBoot.Boot.BootLabel — the strings that `get_params` of `second/yaboot.c`
handles: the calls of `strlen`, `sprintf`, `strcmp` and `strstr` on the image
name and the arguments, and the label that is left in the NVRAM.

On this machine a null pointer can be read: `zero` is the string that lies at
address 0. `nvram` says whether the `malloc` for the label finds memory.
-/
import LiloBoot.Boot.Params
import LiloBoot.Boot.MakeParamsTheorems

namespace LiloBoot.Boot

open LiloBoot.Cfg

/-! ## The calls -/

/-- A call on the image name or the arguments. `sprintf` has both. -/
inductive StringCall where
  | strlen (s : Option CStr)
  | sprintf (imagename args : Option CStr)
  | strcmp (imagename : Option CStr)
  | strstr (args : Option CStr)
  deriving DecidableEq, Repr

/-- No argument is a null pointer. -/
def StringCall.NonNull : StringCall → Prop
  | .strlen s => s.isSome = true
  | .sprintf imagename args => imagename.isSome = true ∧ args.isSome = true
  | .strcmp imagename => imagename.isSome = true
  | .strstr args => args.isSome = true

/-- The calls for the NVRAM. -/
def nvramCalls (nvram : Bool) (imagename args : Option CStr) : List StringCall :=
  [.strlen imagename, .strlen args] ++ if nvram then [.sprintf imagename args] else []

/-- `params->args` behind the look-up of the label; `none` when a query of `make_params` runs
through a null pointer. -/
def labelArgs (inp : PromptInput) (t : Target) (args : Option CStr) : Option (Option CStr) :=
  match t.label with
  | none => some args
  | some label => (paramValues inp.cfg label).map fun v => some (commandLine v args)

/-- The calls from the look-up of the label on. -/
def targetCalls (inp : PromptInput) (t : Target) (args : Option CStr) (s : Session) :
    List StringCall :=
  match t.imagename with
  | none => []
  | some name =>
    if name = helpName then [.strcmp (some name)]
    else if name = haltName then [.strcmp (some name), .strcmp (some name)]
    else
      [.strcmp (some name), .strcmp (some name), .strcmp (some name)] ++
        if (commandOf name).isSome then []
        else if (checkIf t.label.isNone inp s).2 && inp.parse name then [.strstr args, .strstr args]
        else []

/-- The calls of `get_params`. -/
def stringCalls (inp : PromptInput) (nvram : Bool) : List StringCall :=
  if !inp.cmdbuff then []
  else
    match request inp with
    | none => []
    | some (imagename, args, keys) =>
      nvramCalls nvram imagename args ++
        match findTarget inp imagename with
        | none => []
        | some t =>
          match checkIf (asksForLabel t args) inp ⟨keys, inp.passwdbuff, 0, []⟩ with
          | (_, false) => []
          | (s, true) =>
            match labelArgs inp t args with
            | none => []
            | some args => targetCalls inp t args s

/-! ## The label in the NVRAM -/

/-- What `sprintf` writes for a null pointer. -/
def nullText : CStr := ['<', 'N', 'U', 'L', 'L', '>']

/-- The text behind the space: `params->args[0] ? params->args : ""`. -/
def labelText (zero : CStr) (args : Option CStr) : CStr :=
  args.getD (if zero ≠ [] then nullText else [])

/-- What `sprintf` leaves at `p`. -/
def bootLabel (zero name : CStr) (args : Option CStr) : CStr :=
  name ++ ' ' :: labelText zero args

/-- The number of bytes that are stored. -/
def bootLabelSize (zero name : CStr) (args : Option CStr) : Nat :=
  name.length + 1 + (args.getD zero).length + 1

/-- `lilo_once_cmdline` after the reboot: the first 512 of the bytes that were stored. Without a
NUL among them the string goes on in the memory that follows. -/
def reloadedLine (zero name : CStr) (args : Option CStr) (after : CStr) : CStr :=
  let loaded := min (bootLabelSize zero name args) 512
  if (bootLabel zero name args).length < loaded then bootLabel zero name args
  else (bootLabel zero name args).take loaded ++ after

end LiloBoot.Boot
