/-
LiloBoot.DevTree.Siblings — `ft_create_node` and the names of siblings.

§1 says what the call is to do: to fail if the parent has a child of the name, else
to add an empty node behind its other children. §2 is that the tree with the new
node is right whenever there was no such child. The scan of the source begins at the
parent itself, so depth one is the parent: what it compares with the name is the
parent's own name (`createNode_siblings_iff`).
-/
import LiloBoot.DevTree.FindTheorems

namespace LiloBoot.DevTree

open LiloBoot.Memory

/-! ## §1 Children -/

/-- Atom `k` stands in node `i`, and in none that is in `i`. -/
def IsChild (toks : List Tok) (i k : Nat) : Prop := (enclosing toks k).head? = some i

/-- Node `i` has a child of the name. -/
def HasChild (toks : List Tok) (i : Nat) (name : List UInt8) : Prop :=
  ∃ k, IsNode toks k name ∧ IsChild toks i k

/-- The children of one node have different names. -/
def SiblingsDistinct (toks : List Tok) : Prop :=
  ∀ {i j k name}, IsNode toks j name → IsNode toks k name → IsChild toks i j → IsChild toks i k →
    j = k

/-- The first node for NULL, else the node that the phandle stands for. -/
def IsParent (cxt : FtCxt) (toks : List Tok) : Option Nat → Nat → Prop
  | none, i => ∀ j n, IsNode toks j n → i ≤ j
  | some phandle, i => Denotes cxt toks phandle i

/-- The tree has a node `k` more, which is empty and the last child of node `i`. -/
structure LastAdded (toks toks' : List Tok) (move : Nat → Nat) (i k : Nat) (name : List UInt8) :
    Prop where
  kept : TreeKept toks toks' move (fun _ _ => False) (fun j m => j = k ∧ m = name)
  node : IsNode toks' k name
  child : IsChild toks' (move i) k
  last : ∀ {j n}, IsNode toks j n → IsChild toks i j → move j < k
  noProps : ∀ m, propOf toks' k m = none
  noChildren : ∀ m, ¬ HasChild toks' k m

/-- What `ft_create_node` is to give and to leave. -/
def CreatesRightly (toks : List Tok) (i : Nat) (name : List UInt8) (call : Option Nat × FtCxt) :
    Prop :=
  (call.1 = none ↔ HasChild toks i name) ∧
    (call.1 ≠ none → ∃ toks' move k, HoldsTree call.2 toks' ∧ LastAdded toks toks' move i k name ∧
      SiblingsDistinct toks')

/-! ## §2 The tree with the new node -/

variable {toks : List Tok} {i : Nat} {name : List UInt8} {e : Edit}

/-- Behind the place of the new node its parent ends. -/
theorem createEdit_back (h : createEdit toks i name = some e) : ∃ rest, e.back = .endNode :: rest := by
  obtain ⟨e', hclose, rfl⟩ := Option.map_eq_some_iff.mp h
  obtain ⟨-, -, -, hback⟩ := closeEdit_spec _ hclose
  exact hback

/-- A child of node `i` begins before that place. -/
theorem AddsNode.child_lt {j : Nat} {n : List UInt8} (he : AddsNode e toks i name)
    (hback : ∃ rest, e.back = .endNode :: rest) (hj : IsNode toks j n) (hchild : IsChild toks i j) :
    j < e.front.length := by
  obtain ⟨rest, hback⟩ := hback
  have htoks : toks = e.front ++ .endNode :: rest := by
    rw [← he.before, Edit.before, he.old, hback, List.nil_append]
  by_contra hge
  obtain ⟨m, rfl⟩ : ∃ m, j = e.front.length + m := ⟨j - e.front.length, by omega⟩
  have hm : m ≠ 0 := by
    rintro rfl
    rw [IsNode, htoks, Nat.add_zero, List.getElem?_append_right (le_refl _), Nat.sub_self] at hj
    cases hj
  obtain ⟨m, rfl⟩ := Nat.exists_eq_succ_of_ne_zero hm
  have htake : toks.take (e.front.length + (m + 1)) = e.front ++ .endNode :: rest.take m := by
    rw [htoks, List.take_length_add_append, List.take_succ_cons]
  -- node `i` is closed by the end, and its index is not used again
  have hmem : i ∈ enclosing toks (e.front.length + (m + 1)) := List.mem_of_mem_head? hchild
  rw [enclosing, htake, opened_append, he.parent, opened] at hmem
  rcases opened_mem _ hmem with hin | hbehind
  · exact absurd (enclosing_lt _ _ _ hin) (lt_irrefl i)
  · have hindex := he.index
    omega

theorem AddsNode.move_eq (he : AddsNode e toks i name) (j : Nat) :
    e.move j = if j < e.front.length then j else j + 2 := by
  rw [Edit.move, he.old, he.new]
  rfl

/-- The children of the moved nodes are those that there were. -/
theorem AddsNode.isChild_move {j x : Nat} {n : List UInt8} (he : AddsNode e toks i name)
    (hj : IsNode toks j n) : IsChild e.after x (e.move j) ↔ ∃ y, IsChild toks y j ∧ e.move y = x := by
  rw [IsChild, he.kept.nesting hj, List.head?_map, Option.map_eq_some_iff]
  rfl

theorem AddsNode.move_injective (he : AddsNode e toks i name) {x y : Nat}
    (h : e.move x = e.move y) : x = y := by
  rw [he.move_eq, he.move_eq] at h
  split at h <;> split at h <;> omega

theorem AddsNode.move_ne (he : AddsNode e toks i name) (x : Nat) : e.move x ≠ e.front.length := by
  rw [he.move_eq]
  split <;> omega

theorem AddsNode.move_parent (he : AddsNode e toks i name) : e.move i = i := by
  rw [he.move_eq, if_pos he.index]

theorem AddsNode.child (he : AddsNode e toks i name) : IsChild e.after i e.front.length := by
  rw [IsChild, he.added.2.1]
  rfl

/-- **The new node** is the last child of its parent, and empty. -/
theorem AddsNode.lastAdded (he : AddsNode e toks i name) (hback : ∃ rest, e.back = .endNode :: rest) :
    LastAdded toks e.after e.move i e.front.length name := by
  refine ⟨he.kept, he.added.1, by rw [he.move_parent]; exact he.child, fun {j n} hj hchild => ?_,
    he.added.2.2, ?_⟩
  · have hlt := he.child_lt hback hj hchild
    rw [he.move_eq, if_pos hlt]
    exact hlt
  · rintro m ⟨j, hj, hchild⟩
    rcases he.kept.all hj with ⟨j, hold, rfl⟩ | ⟨rfl, -⟩
    · obtain ⟨y, -, hy⟩ := (he.isChild_move hold).mp hchild
      exact he.move_ne y hy
    · exact lt_irrefl _ (enclosing_lt _ _ _ (List.mem_of_mem_head? hchild))

/-- A child of the name of the new one. -/
theorem AddsNode.hasChild {j x : Nat} (he : AddsNode e toks i name) (hj : IsNode toks j name)
    (hnew : IsChild e.after x e.front.length) (hold : IsChild e.after x (e.move j)) :
    HasChild toks i name := by
  obtain ⟨y, hy, rfl⟩ := (he.isChild_move hj).mp hold
  have hx : e.move i = e.move y := by
    rw [he.move_parent]
    exact Option.some.inj (he.child.symm.trans hnew)
  rw [he.move_injective hx]
  exact ⟨j, hj, hy⟩

/-- Where no child had the name, siblings have different names as before. -/
theorem AddsNode.siblings (he : AddsNode e toks i name) (hdistinct : SiblingsDistinct toks)
    (hno : ¬ HasChild toks i name) : SiblingsDistinct e.after := by
  intro x j k m hj hk hchildj hchildk
  rcases he.kept.all hj with ⟨j, hoj, rfl⟩ | ⟨rfl, rfl⟩
  · rcases he.kept.all hk with ⟨k, hok, rfl⟩ | ⟨rfl, rfl⟩
    · obtain ⟨y, hy, hmove⟩ := (he.isChild_move hoj).mp hchildj
      obtain ⟨z, hz, rfl⟩ := (he.isChild_move hok).mp hchildk
      rw [he.move_injective hmove] at hy
      rw [hdistinct hoj hok hy hz]
    · exact absurd (he.hasChild hoj hchildk hchildj) hno
  · rcases he.kept.all hk with ⟨k, hok, rfl⟩ | ⟨rfl, -⟩
    · exact absurd (he.hasChild hok hchildj hchildk) hno
    · rfl

/-! ## §3 The call -/

variable {cxt : FtCxt} {nodes : List Nat} {used : Nat → Prop} {need : Nat} {realloc : Realloc}
  {n : List UInt8} {parent : Option Nat}

/-- The scan begins at the parent. -/
theorem Open.createNode_at (h : Open cxt toks nodes used need)
    (hparent : IsParent cxt toks parent i) (hi : IsNode toks i n) :
    ∃ fuel, toks.length < fuel + i ∧ ftCreateNode realloc parent name cxt
      = createNodeLoop realloc name fuel ((cxt.rgn .struct).start + offsetOf toks i) 0 cxt := by
  have hlength := h.length_lt
  cases parent with
  | none =>
    rcases @createNodeLoop_root cxt realloc name h.editable.struct toks [] (2 ^ 32) h.tree hlength
      h.closed with ⟨-, hnone⟩ | ⟨j, m, fuel, hj, hfuel, hfirst, hrun⟩
    · exact absurd hi (hnone i n (Nat.zero_le i))
    · have hle : j ≤ i := hfirst i n (Nat.zero_le i) hi
      have hge : i ≤ j := hparent j m hj
      obtain rfl := Nat.le_antisymm hle hge
      exact ⟨fuel, hfuel, hrun⟩
  | some phandle =>
    obtain ⟨hnode, -⟩ := hparent
    refine ⟨2 ^ 32, by omega, ?_⟩
    rw [ftCreateNode, hnode]

theorem Open.table_length (h : Open cxt toks nodes used need) : cxt.nodeTbl.length = nodes.length := by
  have htable : cxt.nodeTbl
      = (nodes.map (offsetOf toks)).map ((cxt.rgn .struct).start + ·) := h.handles.table
  rw [htable, List.length_map, List.length_map]

/-- A table with a free entry has a phandle for every node. -/
theorem ftGetPhandle_ne_none (hroom : cxt.nodeTbl.length + 1 < cxt.nodeMax) (a : Nat) :
    (ftGetPhandle cxt (some a)).1 ≠ none := by
  rw [ftGetPhandle]
  cases cxt.nodeTbl.idxOf? a with
  | some k => exact Option.some_ne_none _
  | none =>
    simp only
    rw [if_pos hroom]
    exact Option.some_ne_none _

/-- A context in which nothing but the name can make a call fail: `realloc` gives memory, and the
table has a free entry. -/
structure RoomyCall (cxt : FtCxt) (used : Nat → Prop) (need : Nat) (realloc : Realloc)
    (name : List UInt8) : Prop where
  realloc : GoodRealloc realloc used need
  noNul : 0 ∉ name
  need : name.length + 12 ≤ need
  total : cxt.total + (name.length + 12) + 1071 < 2 ^ 31
  table : cxt.nodeTbl.length + 1 < cxt.nodeMax

/-- **The call** fails exactly if the parent itself has the name, else it adds the node. -/
theorem Open.createNode_spec (h : Open cxt toks nodes used need)
    (hroom : RoomyCall cxt used need realloc name) (hparent : IsParent cxt toks parent i)
    (hi : IsNode toks i n) :
    ((ftCreateNode realloc parent name cxt).1 = none ↔ n = name) ∧
      (n ≠ name → ∃ e, AddsNode e toks i name ∧ (∃ rest, e.back = .endNode :: rest) ∧
        HoldsTree (ftCreateNode realloc parent name cxt).2 e.after) := by
  obtain ⟨fuel, hfuel, hat⟩ := @Open.createNode_at toks i name cxt nodes used need realloc n parent h
    hparent hi
  have hlt := hi.lt
  rw [hat]
  by_cases hsame : n = name
  · subst hsame
    rw [h.createNode_same hi hroom.noNul (by omega)]
    exact ⟨⟨fun _ => rfl, fun _ => rfl⟩, fun hne => absurd rfl hne⟩
  · obtain ⟨e, c, hcreate, he, hrun, hmax, hopen⟩ := h.createNode_other hroom.realloc hi hsame
      hroom.noNul hroom.need hroom.total hfuel
    have hlength : c.nodeTbl.length = cxt.nodeTbl.length := by
      rw [hopen.table_length, h.table_length, List.length_map]
    have hfree : c.nodeTbl.length + 1 < c.nodeMax := by
      rw [hlength, hmax]
      exact hroom.table
    obtain ⟨more, hmore⟩ := @Open.getPhandle c used need _ _ hopen
      (some ((c.rgn .struct).start + toksSize e.front)) (by
        intro a ha
        obtain rfl := Option.mem_some_iff.mp ha
        refine ⟨_, name, he.added.1, ?_⟩
        rw [offsetOf, Edit.after, List.take_left])
    rw [hrun]
    refine ⟨⟨fun hnone => absurd hnone (ftGetPhandle_ne_none hfree _), fun heq => absurd heq hsame⟩,
      fun _ => ⟨e, he, createEdit_back hcreate, hmore.tree⟩⟩

/-- **Node creation**, where memory permits, does what it is to do exactly if the parent has a
child of the new name just in the case that the parent itself is called so. -/
theorem createNode_siblings_iff (cxt : FtCxt) (toks : List Tok) (nodes : List Nat)
    (used : Nat → Prop) (need : Nat) (h : Open cxt toks nodes used need) (realloc : Realloc)
    (name : List UInt8) (hroom : RoomyCall cxt used need realloc name) (parent : Option Nat) (i : Nat)
    (n : List UInt8) (hi : IsNode toks i n) (hparent : IsParent cxt toks parent i)
    (hdistinct : SiblingsDistinct toks) :
    CreatesRightly toks i name (ftCreateNode realloc parent name cxt) ↔
      (n = name ↔ HasChild toks i name) := by
  obtain ⟨hfails, hadds⟩ := h.createNode_spec hroom hparent hi
  constructor
  · exact fun hright => hfails.symm.trans hright.1
  · intro hname
    refine ⟨hfails.trans hname, fun hne => ?_⟩
    have hother : n ≠ name := fun heq => hne (hfails.mpr heq)
    obtain ⟨e, he, hback, htree⟩ := hadds hother
    exact ⟨e.after, e.move, _, htree, he.lastAdded hback,
      he.siblings hdistinct fun hchild => hother (hname.mpr hchild)⟩

/-! ## §4 A root with a child -/

/-- A blob of 84 bytes: a root node with the node `a`. -/
def childBlob : List UInt8 :=
  [0xd0, 0x0d, 0xfe, 0xed] ++ wordBytes 84 ++ wordBytes 56 ++ wordBytes 84 ++ wordBytes 40
    ++ wordBytes 16 ++ wordBytes 16 ++ wordBytes 0 ++ wordBytes 0 ++ wordBytes 0
    ++ List.replicate 16 0
    ++ wordBytes 1 ++ wordBytes 0 ++ wordBytes 1 ++ [97, 0, 0, 0] ++ wordBytes 2 ++ wordBytes 2
    ++ wordBytes 9

def childTree : List Tok := [.beginNode [], .beginNode [97], .endNode, .endNode]

/-- The blob at 4096. -/
def childMem : Bytes := fun a => childBlob.getD (a - 4096) 0

def childOpened : FtCxt := (ftOpen childMem 4096 84 8).get (by decide +kernel)

theorem childOpened_blob : Opened childOpened childTree := by
  have hroot : Tok.At childOpened 4152 (.beginNode []) := by
    rw [Tok.At]
    decide +kernel
  have hchild : Tok.At childOpened 4160 (.beginNode [97]) := by
    rw [Tok.At]
    decide +kernel
  have hend : Tok.At childOpened 4168 .endNode := by
    rw [Tok.At]
    decide +kernel
  have hlast : Tok.At childOpened 4172 .endNode := by
    rw [Tok.At]
    decide +kernel
  have hstart : (childOpened.rgn .struct).start = 4152 := by decide +kernel
  refine ⟨⟨?_, by decide +kernel, by decide +kernel⟩, by decide, by decide +kernel,
    ⟨by decide +kernel, by decide +kernel, by decide +kernel, Or.inl (by decide +kernel)⟩,
    Or.inl (by decide +kernel)⟩
  rw [hstart]
  exact ⟨hroot, hchild, hend, hlast, trivial⟩

theorem childOpened_open : Open childOpened childTree [] childOpened.Uses (2 ^ 20) :=
  childOpened_blob.open (Option.some_get _).symm (2 ^ 20)

theorem childTree_distinct : SiblingsDistinct childTree := by
  intro i j k name hj hk _ _
  have hall : ∀ j < 4, ∀ k < 4, j ≠ k → childTree[j]? = childTree[k]? →
      childTree[j]? = some .endNode := by decide
  by_contra hne
  have hend := hall j hj.lt k hk.lt hne (hj.trans hk.symm)
  rw [hj] at hend
  cases hend

/-- A name of one character can be added. -/
theorem childOpened_roomy (c : UInt8) (hc : c ≠ 0) :
    RoomyCall childOpened childOpened.Uses (2 ^ 20) fixedRealloc [c] := by
  have htotal : childOpened.total < 4096 := by decide +kernel
  refine ⟨fixedRealloc_beside (by decide +kernel) fun r => ?_, ?_, ?_, ?_, by decide +kernel⟩
  · cases r with
    | rsvmap => decide +kernel
    | struct => decide +kernel
    | strings => decide +kernel
  · rw [List.mem_singleton]
    exact hc.symm
  · rw [List.length_singleton]
    omega
  · rw [List.length_singleton]
    generalize childOpened.total = total at htotal ⊢
    omega

theorem root_isParent : IsParent childOpened childTree none 0 := fun j _ _ => Nat.zero_le j

/-- A node `b` is added to the root as it should be. -/
theorem createNode_siblings_b :
    CreatesRightly childTree 0 [98] (ftCreateNode fixedRealloc none [98] childOpened) := by
  refine (createNode_siblings_iff childOpened childTree [] childOpened.Uses (2 ^ 20)
    childOpened_open fixedRealloc [98] (childOpened_roomy 98 (by decide)) none 0 [] rfl root_isParent
    childTree_distinct).mpr ⟨fun h => absurd h (by decide), ?_⟩
  rintro ⟨k, hk, -⟩
  have hall : ∀ k < 4, childTree[k]? ≠ some (.beginNode [98]) := by decide
  exact absurd hk (hall k hk.lt)

/-- **A second `a`** is added to the root. -/
theorem second_child_added :
    ¬ CreatesRightly childTree 0 [97] (ftCreateNode fixedRealloc none [97] childOpened) := by
  intro hright
  obtain ⟨hfails, -⟩ := @Open.createNode_spec childTree 0 [97] childOpened [] childOpened.Uses
    (2 ^ 20) fixedRealloc [] none childOpened_open (childOpened_roomy 97 (by decide)) root_isParent rfl
  have hnone := hright.1.mpr ⟨1, rfl, rfl⟩
  exact absurd (hfails.mp hnone) (by decide)

end LiloBoot.DevTree
