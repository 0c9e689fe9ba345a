/-
LiloBoot.DevTree.Parent — `ft_get_parent`, and the chain of nodes that it trusts.

A search leaves the addresses of the nodes on its way in `genealogy`, and
`__ft_get_parent` looks there first. The chain ends with NULL. The edits do not write
it: they move nodes, and the entries stay. `GenCxt` is a context with its chain; an
entry is `none` for NULL, and what would be written or read behind the array is
undefined (`none`).
-/
import LiloBoot.DevTree.Call

namespace LiloBoot.DevTree

/-! ## §1 The chain -/

/-- `genealogy`, which has `FT_MAX_DEPTH + 1` entries. -/
abbrev Genealogy := Nat → Option Nat

/-- A context with its chain. -/
structure GenCxt where
  cxt : FtCxt
  genealogy : Genealogy

namespace GenCxt

/-- The loop of `ft_find_descendent`, as `DevTree.findLoop` has it, with the chain. -/
def findLoop (cxt : FtCxt) (path : List UInt8) :
    Nat → Nat → FindState → Genealogy → Option (Option Nat × Genealogy)
  | 0, _, _, gen => some (none, gen)
  | fuel + 1, p, s, gen =>
    match ftNext cxt p with
    | none => some (none, gen)
    | some (next, .beginNode name data) =>
      let s := { s with depth := s.depth + 1 }
      -- `depth` is one more than that of the source
      if s.depth ≠ s.dmatch + 1 then findLoop cxt path fuel next s gen
      else if s.dmatch ≥ ftMaxDepth then none
      else
        let gen := Function.update (Function.update gen s.dmatch (some data)) (s.dmatch + 1) none
        if s.dmatch ≠ 0 ∧ nameMatches cxt path s name = false then
          findLoop cxt path fuel next s gen
        else
          let cp := skipSlashes path (s.cp + s.cl)
          if path.getD cp 0 = 0 then some (some data, gen)
          else
            findLoop cxt path fuel next { s with
              pathComp := Function.update s.pathComp s.dmatch s.cp
              cp := cp
              cl := componentLength path cp
              dmatch := s.dmatch + 1 } gen
    | some (next, .endNode) =>
      if s.depth ≤ 1 then some (none, gen)
      else if s.dmatch ≥ s.depth then
        let comp := s.pathComp (s.dmatch - 1)
        findLoop cxt path fuel next { s with
          dmatch := s.dmatch - 1
          cl := dropSlashes path comp (s.cp - comp - 1)
          cp := comp
          depth := s.depth - 1 } gen
      else findLoop cxt path fuel next { s with depth := s.depth - 1 } gen
    | some (next, _) => findLoop cxt path fuel next s gen

def ftFindDescendent (s : GenCxt) (top : Nat) (path : List UInt8) :
    Option (Option Nat × Genealogy) :=
  findLoop s.cxt path (2 ^ 32) top ⟨0, 0, 0, 0, fun _ => 0⟩ s.genealogy

/-- The node that a search has found, as a phandle. -/
def found (s : GenCxt) (r : Option Nat × Genealogy) : Option Nat × GenCxt :=
  let (phandle, cxt) := ftGetPhandle s.cxt r.1
  (phandle, ⟨cxt, r.2⟩)

def ftFindDevice (s : GenCxt) (top : Option Nat) (path : List UInt8) :
    Option (Option Nat × GenCxt) :=
  match top with
  | none => (s.ftFindDescendent (ftRootNode s.cxt) path).map s.found
  | some phandle =>
    match ftNodePh2node s.cxt phandle with
    | none => some (none, s)
    | some node => (s.ftFindDescendent node path).map s.found

/-! ## §2 `ft_get_parent` -/

/-- The loop over the chain, with `room` entries left from `d` on: what is returned for the node,
or `none` if it is not there. -/
def chainLoop (gen : Genealogy) (node : Nat) : Nat → Nat → Option (Option (Option Nat))
  | 0, _ => none
  | room + 1, d =>
    match gen d with
    | none => some none
    | some a =>
      if a = node then some (some (if 0 < d then gen (d - 1) else none))
      else chainLoop gen node room (d + 1)

/-- The loop over the tree, "the hard way". -/
def hardLoop (cxt : FtCxt) (node : Nat) :
    Nat → Nat → Int → Genealogy → Option (Option Nat × Genealogy)
  | 0, _, _, gen => some (none, gen)
  | fuel + 1, p, d, gen =>
    match ftNext cxt p with
    | none => some (none, gen)
    | some (next, .beginNode _ data) =>
      if d < 0 ∨ ftMaxDepth < d then none
      else
        let gen := Function.update gen d.toNat (some data)
        if node = data then
          if ftMaxDepth < d + 1 then none
          else
            let gen := Function.update gen (d.toNat + 1) none
            some (if 0 < d then gen (d.toNat - 1) else none, gen)
        else hardLoop cxt node fuel next (d + 1) gen
    | some (next, .endNode) => hardLoop cxt node fuel next (d - 1) gen
    | some (next, _) => hardLoop cxt node fuel next d gen

/-- `__ft_get_parent`. -/
def getParent (s : GenCxt) (node : Nat) : Option (Option Nat × Genealogy) :=
  match chainLoop s.genealogy node (ftMaxDepth + 1) 0 with
  | none => none
  | some (some parent) => some (parent, s.genealogy)
  | some none => hardLoop s.cxt node (2 ^ 32) (ftRootNode s.cxt) 0 s.genealogy

/-- `ft_get_parent`. -/
def ftGetParent (s : GenCxt) (phandle : Nat) : Option (Option Nat × GenCxt) :=
  match ftNodePh2node s.cxt phandle with
  | none => some (none, s)
  | some node => (s.getParent node).map s.found

end GenCxt

/-! ## §3 Runs -/

/-- A call on a context with its chain. -/
inductive GenCall where
  | call (c : Call)
  | getParent (phandle : Nat)

/-- What a call leaves. -/
def GenCall.run (realloc : Realloc) (s : GenCxt) : GenCall → Option GenCxt
  | .call (.findDevice top path) => (s.ftFindDevice top path).map (·.2)
  | .call (.setProp phandle name value) =>
    some { s with cxt := (ftSetProp realloc phandle name value s.cxt).2 }
  | .call (.createNode parent name) =>
    some { s with cxt := (ftCreateNode realloc parent name s.cxt).2 }
  | .getParent phandle => (s.ftGetParent phandle).map (·.2)

/-- The answer for a phandle is NULL if it stands for a node that is in no other one, and else a
phandle of the node around it. -/
def GenCxt.ParentRight (s : GenCxt) (toks : List Tok) (phandle : Nat) : Prop :=
  ∀ i, Denotes s.cxt toks phandle i → ∃ parent s', s.ftGetParent phandle = some (parent, s') ∧
    (enclosing toks i = [] → parent = none) ∧
    ∀ j outer, enclosing toks i = j :: outer →
      ∃ ph, parent = some ph ∧ Denotes s'.cxt toks ph j

/-- The answer of a call is right in the tree that the context holds. -/
def GenCall.Answers (s : GenCxt) : GenCall → Prop
  | .call _ => True
  | .getParent phandle => ∃ toks, HoldsTree s.cxt toks ∧ nest 0 toks = some 0 ∧
      s.ParentRight toks phandle

/-- Every call of a run returns, and every parent is right where it is asked for. -/
def ParentsRight (realloc : Realloc) : GenCxt → List GenCall → Prop
  | _, [] => True
  | s, call :: calls => call.Answers s ∧
      ∃ s', call.run realloc s = some s' ∧ ParentsRight realloc s' calls

/-! ## §4 What a call needs -/

/-- The first place of a node in the chain. -/
def Genealogy.At (gen : Genealogy) (node d : Nat) : Prop :=
  d ≤ ftMaxDepth ∧ gen d = some node ∧ ∀ t < d, ∃ a, gen t = some a ∧ a ≠ node

/-- The chain is not stale for node `i`: where it has the address of the node, it has that of the
node around it before; and where it has not, the tree up to the node is not too deep for it. There
is room for a phandle of the node around it. -/
structure GenCxt.Fresh (s : GenCxt) (toks : List Tok) (i : Nat) : Prop where
  hit : ∀ d, s.genealogy.At ((s.cxt.rgn .struct).start + offsetOf toks i) d →
    (d = 0 ↔ enclosing toks i = []) ∧
    ∀ t j outer, d = t + 1 → enclosing toks i = j :: outer →
      s.genealogy t = some ((s.cxt.rgn .struct).start + offsetOf toks j)
  miss : (∀ d, ¬ s.genealogy.At ((s.cxt.rgn .struct).start + offsetOf toks i) d) →
    (∀ j < i, ∀ n, IsNode toks j n → (enclosing toks j).length ≤ ftMaxDepth) ∧
      (enclosing toks i).length < ftMaxDepth
  room : ∀ j outer, enclosing toks i = j :: outer →
    (s.cxt.rgn .struct).start + offsetOf toks j ∈ s.cxt.nodeTbl ∨
      s.cxt.nodeTbl.length + 1 < s.cxt.nodeMax

/-- The condition on a call. -/
def GenCall.Safe (need : Nat) (s : GenCxt) : GenCall → Prop
  | .call c => c.Safe s.cxt ∧ c.Texts ∧ c.growth ≤ need ∧ s.cxt.total + c.growth + 2142 < 2 ^ 31
  | .getParent phandle => ∀ toks i, HoldsTree s.cxt toks → Denotes s.cxt toks phandle i →
      s.Fresh toks i

/-- Every call of a run is safe where it is made. -/
def GenSafeRun (realloc : Realloc) (need : Nat) : GenCxt → List GenCall → Prop
  | _, [] => True
  | s, call :: calls => call.Safe need s ∧
      ∀ s', call.run realloc s = some s' → GenSafeRun realloc need s' calls

end LiloBoot.DevTree
