/-
LiloBoot.Boot.MakeParams — the kernel command line (`make_params` of
`second/yaboot.c`).

The buffer is a memory that has no end, with the pointer `q` as an index and the
number of bytes that have been touched. The values of the options are looked up
first; nothing that is written changes them. `strchr(q, 0)` behind a `strcpy` to
`q` is the end of what was copied.
-/
import LiloBoot.Boot.ManualConfig
import LiloBoot.Cfg.Cfg

namespace LiloBoot.Boot

open LiloBoot.Cfg

/-! ## The options -/

/-- The options that `make_params` looks up for a label. -/
structure ParamValues where
  literal : Option CStr
  root : Option CStr
  readOnly : Bool
  readWrite : Bool
  ramdisk : Option CStr
  novideo : Bool
  append : Option CStr
  deriving DecidableEq, Repr

/-- The options of a label; `none` when a query runs through a null pointer. -/
def paramValues (st : CfgState) (label : CStr) : Option ParamValues :=
  (cfgGetStrg st (some label) "literal".toList).bind fun literal =>
  (cfgGetStrg st (some label) "root".toList).bind fun root =>
  (cfgGetFlag st (some label) "read-only".toList).bind fun readOnly =>
  (cfgGetFlag st (some label) "read-write".toList).bind fun readWrite =>
  (cfgGetStrg st (some label) "ramdisk".toList).bind fun ramdisk =>
  (cfgGetFlag st (some label) "novideo".toList).bind fun novideo =>
  (cfgGetStrg st (some label) "append".toList).map fun append =>
    ⟨literal, root, readOnly, readWrite, ramdisk, novideo, append⟩

/-! ## The buffer -/

/-- The size of `make_params_buffer`. -/
def paramsBufferSize : Nat := 2048

/-- `make_params_buffer`: its content, `q`, and the number of bytes up to the last one touched. -/
structure ParamsBuffer where
  mem : Nat → Char
  q : Nat
  touched : Nat

/-- `b[i] = c`. -/
def ParamsBuffer.poke (i : Nat) (c : Char) (b : ParamsBuffer) : ParamsBuffer :=
  { b with mem := Function.update b.mem i c, touched := max b.touched (i + 1) }

/-- `strcpy(b + i, s)`. -/
def ParamsBuffer.strcpy (i : Nat) (s : CStr) (b : ParamsBuffer) : ParamsBuffer :=
  { b with
    mem := fun a => if i ≤ a ∧ a < i + s.length then s.getD (a - i) nul
      else if a = i + s.length then nul else b.mem a
    touched := max b.touched (i + s.length + 1) }

/-- `*q++ = c`. -/
def ParamsBuffer.push (c : Char) (b : ParamsBuffer) : ParamsBuffer :=
  { b.poke b.q c with q := b.q + 1 }

/-- A word at `q`, which moves to its end. -/
def ParamsBuffer.word (s : CStr) (b : ParamsBuffer) : ParamsBuffer :=
  { b.strcpy b.q s with q := b.q + s.length }

/-- A prefix and a value, and a space behind them. -/
def ParamsBuffer.option (name value : CStr) (b : ParamsBuffer) : ParamsBuffer :=
  let b' := (b.strcpy b.q name).strcpy (b.q + name.length) value
  ({ b' with q := b.q + name.length + value.length } : ParamsBuffer).push ' '

def rootPrefix : CStr := ['r', 'o', 'o', 't', '=']
def ramdiskPrefix : CStr := ['r', 'a', 'm', 'd', 'i', 's', 'k', '=']
def roWord : CStr := ['r', 'o', ' ']
def rwWord : CStr := ['r', 'w', ' ']
def videoWord : CStr := ['v', 'i', 'd', 'e', 'o', '=', 'o', 'f', 'o', 'n', 'l', 'y']

/-! ## `make_params` -/

/-- The branch for `literal`. -/
def literalParams (p : CStr) (params : Option CStr) (b : ParamsBuffer) : ParamsBuffer :=
  let b := b.word p
  params.elim b fun params =>
    let b := if p ≠ [] then b.push ' ' else b
    b.strcpy b.q params

/-- `make_params`, with the options of the label. -/
def makeParams (v : ParamValues) (params : Option CStr) : ParamsBuffer :=
  let b := (⟨fun _ => nul, 0, 0⟩ : ParamsBuffer).poke 0 nul
  match v.literal with
  | some p => literalParams p params b
  | none =>
    let b := v.root.elim b fun p => b.option rootPrefix p
    let b := if v.readOnly then b.word roWord else b
    let b := if v.readWrite then b.word rwWord else b
    let b := v.ramdisk.elim b fun p => b.option ramdiskPrefix p
    let b := if v.novideo then (b.word videoWord).push ' ' else b
    let b := v.append.elim b fun p => (b.word p).push ' '
    let b := b.poke b.q nul
    params.elim b fun params => b.strcpy b.q params

end LiloBoot.Boot
