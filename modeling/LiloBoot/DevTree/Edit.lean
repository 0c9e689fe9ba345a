/-
LiloBoot.DevTree.Edit — editing a tree, on its atoms.

A tree is a list of atoms whose node ends match. A node is the index of its
beginning, and its properties are those at depth one behind it. An edit cuts the
list in three and puts something else into the middle; `Edit.move` is where an
index goes. `TreeKept` says what it is for an edit to be local.
-/
import LiloBoot.DevTree.FlatTreeTheorems

namespace LiloBoot.DevTree

/-! ## §1 Nodes -/

/-- The depth behind the atoms, when none of them ends a node that has not begun. -/
def nest : Nat → List Tok → Option Nat
  | d, [] => some d
  | d, .beginNode _ :: toks => nest (d + 1) toks
  | d, .endNode :: toks => if d = 0 then none else nest (d - 1) toks
  | d, .prop _ _ :: toks => nest d toks
  | d, .nop :: toks => nest d toks

/-- Atom `i` begins a node of this name. -/
def IsNode (toks : List Tok) (i : Nat) (name : List UInt8) : Prop :=
  toks[i]? = some (.beginNode name)

/-- The value of a property of the node whose beginning the atoms follow at depth `d`. -/
def valueOf (name : List UInt8) : Nat → List Tok → Option (List UInt8)
  | _, [] => none
  | d, .beginNode _ :: toks => valueOf name (d + 1) toks
  | d, .endNode :: toks => if d ≤ 1 then none else valueOf name (d - 1) toks
  | d, .prop n value :: toks => if d = 1 ∧ n = name then some value else valueOf name d toks
  | d, .nop :: toks => valueOf name d toks

/-- The value of a property of node `i`. -/
def propOf (toks : List Tok) (i : Nat) (name : List UInt8) : Option (List UInt8) :=
  valueOf name 0 (toks.drop i)

/-- The atoms that make the nesting. -/
def Tok.isNode : Tok → Bool
  | .beginNode _ => true
  | .endNode => true
  | _ => false

/-- The nodes that are open behind the atoms, which begin at index `k`, when those of `stack` are
open before them; the innermost one comes first. -/
def opened : Nat → List Nat → List Tok → List Nat
  | _, stack, [] => stack
  | k, stack, .beginNode _ :: toks => opened (k + 1) (k :: stack) toks
  | k, stack, .endNode :: toks => opened (k + 1) stack.tail toks
  | k, stack, .prop _ _ :: toks => opened (k + 1) stack toks
  | k, stack, .nop :: toks => opened (k + 1) stack toks

/-- The nodes around atom `i`. -/
def enclosing (toks : List Tok) (i : Nat) : List Nat := opened 0 [] (toks.take i)

/-- The nodes of `toks` are in `toks'`, with their names, their nesting and their properties, the
touched ones apart; every other node there is new. -/
structure TreeKept (toks toks' : List Tok) (move : Nat → Nat)
    (touched : Nat → List UInt8 → Prop) (new : Nat → List UInt8 → Prop) : Prop where
  node : ∀ {i name}, IsNode toks i name → IsNode toks' (move i) name
  injective : ∀ {i j n m}, IsNode toks i n → IsNode toks j m → move i = move j → i = j
  all : ∀ {k name}, IsNode toks' k name → (∃ i, IsNode toks i name ∧ move i = k) ∨ new k name
  nesting : ∀ {i n}, IsNode toks i n → enclosing toks' (move i) = (enclosing toks i).map move
  prop : ∀ {i n name}, IsNode toks i n → ¬ touched i name →
    propOf toks' (move i) name = propOf toks i name

/-! ## §2 Edits -/

/-- A list with `old` or `new` between `front` and `back`. -/
structure Edit where
  front : List Tok
  old : List Tok
  new : List Tok
  back : List Tok

def Edit.before (e : Edit) : List Tok := e.front ++ (e.old ++ e.back)

def Edit.after (e : Edit) : List Tok := e.front ++ (e.new ++ e.back)

/-- Where an index of `before` goes. -/
def Edit.move (e : Edit) (i : Nat) : Nat :=
  if i < e.front.length then i else i - e.old.length + e.new.length

/-- The edit behind more atoms. -/
def Edit.behind (front : List Tok) (e : Edit) : Edit := { e with front := front ++ e.front }

/-- The edit that sets a property in the header of a node, the atoms before its first child or
its end. -/
def headerEdit (name value : List UInt8) : List Tok → Option Edit
  | [] => none
  | .beginNode n :: toks => some ⟨[], [], [.prop name value], .beginNode n :: toks⟩
  | .endNode :: toks => some ⟨[], [], [.prop name value], .endNode :: toks⟩
  | .prop n w :: toks =>
    if n = name then some ⟨[], [.prop n w], [.prop name value], toks⟩
    else (headerEdit name value toks).map (Edit.behind [.prop n w])
  | .nop :: toks => (headerEdit name value toks).map (Edit.behind [.nop])

/-- The edit that adds an empty node at the end of the node that is open at depth `d`. -/
def closeEdit (name : List UInt8) : Nat → List Tok → Option Edit
  | _, [] => none
  | d, .beginNode n :: toks => (closeEdit name (d + 1) toks).map (Edit.behind [.beginNode n])
  | d, .endNode :: toks =>
    if d ≤ 1 then some ⟨[], [], [.beginNode name, .endNode], .endNode :: toks⟩
    else (closeEdit name (d - 1) toks).map (Edit.behind [.endNode])
  | d, .prop n w :: toks => (closeEdit name d toks).map (Edit.behind [.prop n w])
  | d, .nop :: toks => (closeEdit name d toks).map (Edit.behind [.nop])

/-- The edit that sets a property of node `i`. -/
def setEdit (toks : List Tok) (i : Nat) (name value : List UInt8) : Option Edit :=
  (headerEdit name value (toks.drop (i + 1))).map (Edit.behind (toks.take (i + 1)))

/-- The edit that adds an empty node at the end of node `i`. -/
def createEdit (toks : List Tok) (i : Nat) (name : List UInt8) : Option Edit :=
  (closeEdit name 1 (toks.drop (i + 1))).map (Edit.behind (toks.take (i + 1)))

/-- The property stands in the header. -/
def hasProp (name : List UInt8) : List Tok → Bool
  | .prop n _ :: toks => n = name || hasProp name toks
  | .nop :: toks => hasProp name toks
  | _ => false

end LiloBoot.DevTree
