/-
LiloBoot.Prom.FindType — the search for devices of a type.

`walk_dev_tree` and `find_type_devices` of `yaboot/second/prom.c`; the copy in
`lilo/bootheader/chrp/of1275_find_type_devices.c` differs in the names of the
client services only. The firmware is what `child`, `peer` and `getprop`
answer. The state of a search is the three statics (`ptype`, `nc` and the
array behind `nodes`) and the places of the array it has stored to; the array
is as long as the memory behind it, so that a store past its end is seen.
-/
import LiloBoot.Lib.SiblingTree

namespace LiloBoot.Prom

/-! ## §1 The firmware -/

/-- The client services the search calls, on node handles; 0 is no node. -/
structure Firmware where
  child : Nat → Nat
  peer : Nat → Nat
  /-- The bytes of the property `device_type`, if the node has it. -/
  deviceType : Nat → Option (List UInt8)

/-- `getprop(node, "device_type", ptype, sizeof(ptype))`: as much of the value
    as fits is copied; without the property the buffer stays as it is. -/
def getprop (value : Option (List UInt8)) (ptype : List UInt8) : List UInt8 :=
  match value with
  | none => ptype
  | some v => (v ++ ptype.drop v.length).take ptype.length

/-- `strcmp(type, ptype) == 0` for the characters of `type` before its NUL;
    `none` if the comparison runs over the end of `ptype`. -/
def strcmpEq : List UInt8 → List UInt8 → Option Bool
  | _, [] => none
  | [], b :: _ => some (b == 0)
  | c :: type, b :: ptype => if c = b then strcmpEq type ptype else some false

/-! ## §2 The search -/

/-- Why a search has no result: `strcmp` left `ptype`, or the fuel is used up. -/
inductive Stop where
  | overrun
  | fuel

structure Search where
  ptype : List UInt8
  nc : Nat
  nodes : Nat → Nat
  stores : List Nat

/-- `nodes[i] = node;` -/
def Search.store (s : Search) (i node : Nat) : Search :=
  { s with nodes := Function.update s.nodes i node, stores := s.stores ++ [i] }

/-- The handles counted so far. -/
def Search.listed (s : Search) : List Nat := (List.range s.nc).map s.nodes

/-- A pass of the loop up to the recursive call; `true` for its `return`. -/
def visit (type : List UInt8) (ncmax : Nat) (s : Search) (node : Nat)
    (value : Option (List UInt8)) : Except Stop (Search × Bool) :=
  let s := { s with ptype := getprop value s.ptype }
  match strcmpEq type s.ptype with
  | none => .error .overrun
  | some false => .ok (s, false)
  | some true =>
    let s := s.store s.nc node
    if s.nc = ncmax then .ok (s, true)
    else .ok ({ s with nc := s.nc + 1 }.store (s.nc + 1) 0, false)

/-- The loop of `walk_dev_tree` from a node on; the recursive call enters it
    again at the node's first child. -/
def walkDevTree (fw : Firmware) (type : List UInt8) (ncmax : Nat) :
    Nat → Nat → Search → Except Stop Search
  | 0, _, _ => .error .fuel
  | fuel + 1, node, s =>
    if node = 0 then .ok s
    else
      match visit type ncmax s node (fw.deviceType node) with
      | .error e => .error e
      | .ok (s₁, true) => .ok s₁
      | .ok (s₁, false) =>
        match walkDevTree fw type ncmax fuel (fw.child node) s₁ with
        | .error e => .error e
        | .ok s₂ => walkDevTree fw type ncmax fuel (fw.peer node) s₂

/-- `find_type_devices`, from the buffer and the array as they are. -/
def findTypeDevices (fw : Firmware) (fuel : Nat) (type : List UInt8) (max : Nat)
    (ptype : List UInt8) (nodes : Nat → Nat) : Except Stop Search :=
  let root := fw.peer 0
  walkDevTree fw type max fuel (fw.child root) ⟨ptype, 0, nodes, []⟩

/-! ## §3 The tree -/

structure DevNode where
  handle : Nat
  deviceType : Option (List UInt8)

/-- The level that starts at a handle, as the firmware tells it. -/
def Firmware.Shows (fw : Firmware) : SiblingTree DevNode → Nat → Prop
  | .none, h => h = 0
  | .node n child peer, h =>
    h = n.handle ∧ h ≠ 0 ∧ fw.deviceType h = n.deviceType ∧
      fw.Shows child (fw.child h) ∧ fw.Shows peer (fw.peer h)

/-- A device tree: the root and the levels below it. -/
structure DeviceTree where
  root : DevNode
  below : SiblingTree DevNode
  /-- No two nodes have one handle. -/
  distinct : ((root :: below.preorder).map DevNode.handle).Nodup

/-- The nodes in preorder. -/
def DeviceTree.nodes (t : DeviceTree) : List DevNode := t.root :: t.below.preorder

/-- The firmware has this tree: its root is the peer of no node. -/
def Firmware.Has (fw : Firmware) (t : DeviceTree) : Prop :=
  fw.Shows (.node t.root t.below .none) (fw.peer 0)

/-- The text of a property: its bytes up to the first NUL or its end. -/
def text (v : List UInt8) : List UInt8 := v.takeWhile (· ≠ 0)

/-- The node has the type. -/
def DevNode.OfType (type : List UInt8) (n : DevNode) : Prop := n.deviceType.map text = some type

instance (type : List UInt8) (n : DevNode) : Decidable (n.OfType type) :=
  inferInstanceAs (Decidable (n.deviceType.map text = some type))

/-- The nodes of the type in preorder. -/
def DeviceTree.ofType (t : DeviceTree) (type : List UInt8) : List DevNode :=
  t.nodes.filter (fun n => n.OfType type)

end LiloBoot.Prom
