/-
LiloBoot.DevTree.Call — calls on an open device tree, and what it is for a run of
them to be local.

A program sees a context through the phandles it was given: `Denotes` says which
node of the tree one stands for, `Shows` what `ft_get_prop` answers for it.
`EditsLocal` goes through a run call by call.
-/
import LiloBoot.DevTree.WriteTheorems

namespace LiloBoot.DevTree

open LiloBoot.Memory

/-! ## §1 Calls -/

/-- A call on an open tree. -/
inductive Call where
  | findDevice (top : Option Nat) (path : List UInt8)
  | setProp (phandle : Nat) (name value : List UInt8)
  | createNode (parent : Option Nat) (name : List UInt8)

/-- The context behind a call; `none` when `ft_find_descendent` leaves its arrays. -/
def Call.run (realloc : Realloc) (cxt : FtCxt) : Call → Option FtCxt
  | .findDevice top path => (ftFindDevice cxt top path).map (·.2)
  | .setProp phandle name value => some (ftSetProp realloc phandle name value cxt).2
  | .createNode parent name => some (ftCreateNode realloc parent name cxt).2

/-- The names of a call are C strings. -/
def Call.Texts : Call → Prop
  | .findDevice _ path => 0 ∉ path
  | .setProp _ name _ => 0 ∉ name
  | .createNode _ name => 0 ∉ name

/-- A bound on the bytes that a call adds to the blob, the reserve of `realloc` apart. -/
def Call.growth : Call → Nat
  | .findDevice _ _ => 0
  | .setProp _ name value => name.length + value.length + 16
  | .createNode _ name => name.length + 12

/-! ## §2 What a program sees -/

/-- The phandle stands for node `i`. -/
def Denotes (cxt : FtCxt) (toks : List Tok) (phandle i : Nat) : Prop :=
  ftNodePh2node cxt phandle = some ((cxt.rgn .struct).start + offsetOf toks i)
    ∧ ∃ name, IsNode toks i name

/-- The context shows the tree: every phandle stands for a node, and `ft_get_prop` reads the
properties of that node. -/
structure Shows (cxt : FtCxt) (toks : List Tok) : Prop where
  tree : HoldsTree cxt toks
  closed : nest 0 toks = some 0
  phandles : ∀ {phandle node}, ftNodePh2node cxt phandle = some node →
    ∃ i, Denotes cxt toks phandle i
  reads : ∀ {phandle i name}, Denotes cxt toks phandle i → 0 ∉ name → ∀ buflen,
    ftGetProp cxt phandle name buflen
      = (propOf toks i name).map fun value => (value.length, value.take buflen)

/-- The property that a call sets. -/
def Call.Touches (cxt : FtCxt) (toks : List Tok) : Call → Nat → List UInt8 → Prop
  | .setProp phandle name _, i, m => Denotes cxt toks phandle i ∧ m = name
  | _, _, _ => False

/-- The node that a call adds. -/
def Call.Adds : Call → Nat → List UInt8 → Prop
  | .createNode _ name, _, m => m = name
  | _, _, _ => False

/-- A call is local: it changes what it is to change, and the phandles follow. -/
structure Local (cxt : FtCxt) (toks : List Tok) (call : Call) (cxt' : FtCxt) (toks' : List Tok) :
    Prop where
  kept : ∃ move, TreeKept toks toks' move (call.Touches cxt toks) call.Adds
    ∧ ∀ {phandle i}, Denotes cxt toks phandle i → Denotes cxt' toks' phandle (move i)
  set : ∀ {phandle name value i}, call = .setProp phandle name value → Denotes cxt toks phandle i →
    ∀ buflen, ftGetProp cxt' phandle name buflen = some (value.length, value.take buflen)

/-- Every call of a run is local, and the tree is shown before and after it. -/
def EditsLocal (realloc : Realloc) : FtCxt → List Tok → List Call → Prop
  | cxt, toks, [] => Shows cxt toks
  | cxt, toks, call :: calls =>
    Shows cxt toks ∧ ∃ cxt' toks', call.run realloc cxt = some cxt'
      ∧ Local cxt toks call cxt' toks' ∧ EditsLocal realloc cxt' toks' calls

/-! ## §3 What a call needs -/

/-- The property stands in the header of the node, so that it is overwritten. -/
def Overwrites (cxt : FtCxt) (phandle : Nat) (name : List UInt8) : Prop :=
  ∃ toks i, HoldsTree cxt toks ∧ Denotes cxt toks phandle i
    ∧ hasProp name (toks.drop (i + 1)) = true

/-- The condition on a call in a context. -/
def Call.Safe (cxt : FtCxt) : Call → Prop
  | .findDevice top path => ftFindDevice cxt top path ≠ none
  | .setProp phandle name _ => Overwrites cxt phandle name ∨ NameFits cxt name
  | .createNode _ _ => True

/-- Every call of a run is safe where it is made, and leaves the blob below 2 GiB. -/
def SafeRun (realloc : Realloc) (need : Nat) : FtCxt → List Call → Prop
  | _, [] => True
  | cxt, call :: calls =>
    call.Safe cxt ∧ call.Texts ∧ call.growth ≤ need ∧ cxt.total + call.growth + 2142 < 2 ^ 31
      ∧ ∀ cxt', call.run realloc cxt = some cxt' → SafeRun realloc need cxt' calls

/-- A blob as `ft_open` finds it: a tree whose node ends match, and strings that end with a NUL. -/
structure Opened (cxt : FtCxt) (toks : List Tok) : Prop where
  tree : HoldsTree cxt toks
  closed : nest 0 toks = some 0
  space : (cxt.rgn .struct).stop < 2 ^ 32
  strings : StringsOk cxt
  apart : Apart cxt

end LiloBoot.DevTree
