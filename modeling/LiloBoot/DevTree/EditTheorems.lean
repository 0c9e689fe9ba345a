/-
LiloBoot.DevTree.EditTheorems — an edit changes what it is meant to change.

A walk from a node to its properties goes the same way before and after an edit,
as long as the atoms of the edit are silent about the property at the depth at
which the walk comes to them. Setting a property and adding a node are such
edits for every other node and property.
-/
import LiloBoot.DevTree.Edit

namespace LiloBoot.DevTree

/-! ## §1 What the edits find -/

variable {toks front rest : List Tok} {name value : List UInt8} {e : Edit} {d i : Nat}

theorem Edit.before_behind (front : List Tok) (e : Edit) :
    (e.behind front).before = front ++ e.before := by
  simp [Edit.before, Edit.behind]

theorem Edit.after_behind (front : List Tok) (e : Edit) :
    (e.behind front).after = front ++ e.after := by
  simp [Edit.after, Edit.behind]

/-- An atom that a header may have beside the property. -/
def Tok.Other (name : List UInt8) : Tok → Prop
  | .prop n _ => n ≠ name
  | .nop => True
  | _ => False

/-- **What `headerEdit` finds**: the property, or its place. -/
theorem headerEdit_spec (toks : List Tok) : ∀ {e : Edit}, headerEdit name value toks = some e →
    e.before = toks ∧ e.new = [.prop name value] ∧ (∀ tok ∈ e.front, tok.Other name)
      ∧ ((e.old = [] ∧ hasProp name toks = false
          ∧ ∃ tok rest, e.back = tok :: rest ∧ tok.isNode = true)
        ∨ (hasProp name toks = true ∧ ∃ w, e.old = [.prop name w])) := by
  induction toks with
  | nil =>
    intro e h
    cases h
  | cons tok toks ih =>
    intro e h
    cases tok with
    | beginNode n =>
      cases h
      exact ⟨rfl, rfl, fun _ h => absurd h List.not_mem_nil, Or.inl ⟨rfl, rfl, _, _, rfl, rfl⟩⟩
    | endNode =>
      cases h
      exact ⟨rfl, rfl, fun _ h => absurd h List.not_mem_nil, Or.inl ⟨rfl, rfl, _, _, rfl, rfl⟩⟩
    | prop n w =>
      rw [headerEdit] at h
      by_cases hn : n = name
      · rw [if_pos hn] at h
        cases h
        refine ⟨rfl, rfl, fun _ h => absurd h List.not_mem_nil, Or.inr ⟨?_, w, by rw [hn]⟩⟩
        simp [hasProp, hn]
      · rw [if_neg hn, Option.map_eq_some_iff] at h
        obtain ⟨e', he', rfl⟩ := h
        obtain ⟨hbefore, hnew, hother, hcases⟩ := ih he'
        refine ⟨by rw [Edit.before_behind, hbefore]; rfl, hnew, ?_, ?_⟩
        · intro tok htok
          rcases List.mem_cons.mp htok with rfl | htok
          · exact hn
          · exact hother tok htok
        · have hhas : hasProp name (.prop n w :: toks) = hasProp name toks := by
            simp [hasProp, hn]
          rw [hhas]
          exact hcases
    | nop =>
      rw [headerEdit, Option.map_eq_some_iff] at h
      obtain ⟨e', he', rfl⟩ := h
      obtain ⟨hbefore, hnew, hother, hcases⟩ := ih he'
      refine ⟨by rw [Edit.before_behind, hbefore]; rfl, hnew, ?_, hcases⟩
      intro tok htok
      rcases List.mem_cons.mp htok with rfl | htok
      · trivial
      · exact hother tok htok

/-- **What `closeEdit` finds**: the end of the node. -/
theorem closeEdit_spec (toks : List Tok) : ∀ {d : Nat} {e : Edit},
    closeEdit name d toks = some e →
    e.before = toks ∧ e.old = [] ∧ e.new = [.beginNode name, .endNode]
      ∧ ∃ rest, e.back = .endNode :: rest := by
  induction toks with
  | nil =>
    intro d e h
    cases h
  | cons tok toks ih =>
    intro d e h
    have hmap : ∀ d', (closeEdit name d' toks).map (Edit.behind [tok]) = some e →
        e.before = tok :: toks ∧ e.old = [] ∧ e.new = [.beginNode name, .endNode]
          ∧ ∃ rest, e.back = .endNode :: rest := by
      intro d' h
      obtain ⟨e', he', rfl⟩ := Option.map_eq_some_iff.mp h
      obtain ⟨hbefore, hold, hnew, hback⟩ := ih he'
      exact ⟨by rw [Edit.before_behind, hbefore]; rfl, hold, hnew, hback⟩
    cases tok with
    | beginNode n => exact hmap _ h
    | prop n w => exact hmap _ h
    | nop => exact hmap _ h
    | endNode =>
      rw [closeEdit] at h
      split at h
      · cases h
        exact ⟨rfl, rfl, rfl, _, rfl⟩
      · exact hmap _ h

/-! ## §2 Nesting -/

theorem nest_append (front : List Tok) : ∀ (d : Nat) (rest : List Tok),
    nest d (front ++ rest) = (nest d front).bind fun d' => nest d' rest := by
  induction front with
  | nil =>
    intro d rest
    rfl
  | cons tok front ih =>
    intro d rest
    cases tok with
    | endNode =>
      rw [List.cons_append, nest, nest]
      split
      · rfl
      · exact ih _ _
    | beginNode n => exact ih _ _
    | prop n w => exact ih _ _
    | nop => exact ih _ _

/-- Atoms that do not change the depth, wherever they stand. -/
def Level (toks : List Tok) : Prop := ∀ d, nest d toks = some d

theorem level_node (name : List UInt8) : Level [.beginNode name, .endNode] := by
  intro d
  rw [nest, nest, if_neg (Nat.succ_ne_zero d)]
  rfl

theorem Edit.nest_after (hold : Level e.old) (hnew : Level e.new) (d : Nat) :
    nest d e.after = nest d e.before := by
  rw [Edit.after, Edit.before, nest_append, nest_append]
  congr 1
  funext d'
  rw [nest_append, nest_append, hold, hnew]

/-- A header of a tree whose node ends match comes to an end. -/
theorem headerEdit_isSome (name value : List UInt8) (toks : List Tok) :
    ∀ {d : Nat}, nest d toks = some 0 → 0 < d → ∃ e, headerEdit name value toks = some e := by
  induction toks with
  | nil =>
    intro d h hpos
    cases h
    exact absurd hpos (Nat.lt_irrefl 0)
  | cons tok toks ih =>
    intro d h hpos
    cases tok with
    | beginNode n => exact ⟨_, rfl⟩
    | endNode => exact ⟨_, rfl⟩
    | prop n w =>
      obtain ⟨e, he⟩ := @ih d h hpos
      rw [headerEdit, he]
      split
      · exact ⟨_, rfl⟩
      · exact ⟨_, rfl⟩
    | nop =>
      obtain ⟨e, he⟩ := @ih d h hpos
      rw [headerEdit, he]
      exact ⟨_, rfl⟩

theorem closeEdit_isSome (name : List UInt8) (toks : List Tok) : ∀ {d k : Nat},
    nest d toks = some 0 → 0 < k → k ≤ d → ∃ e, closeEdit name k toks = some e := by
  induction toks with
  | nil =>
    intro d k h hpos hle
    cases h
    omega
  | cons tok toks ih =>
    intro d k h hpos hle
    cases tok with
    | beginNode n =>
      obtain ⟨e, he⟩ := @ih (d + 1) (k + 1) h (by omega) (by omega)
      rw [closeEdit, he]
      exact ⟨_, rfl⟩
    | endNode =>
      rw [closeEdit]
      by_cases hone : k ≤ 1
      · rw [if_pos hone]
        exact ⟨_, rfl⟩
      · rw [nest, if_neg (by omega)] at h
        obtain ⟨e, he⟩ := @ih (d - 1) (k - 1) h (by omega) (by omega)
        rw [if_neg hone, he]
        exact ⟨_, rfl⟩
    | prop n w =>
      obtain ⟨e, he⟩ := @ih d k h hpos hle
      rw [closeEdit, he]
      exact ⟨_, rfl⟩
    | nop =>
      obtain ⟨e, he⟩ := @ih d k h hpos hle
      rw [closeEdit, he]
      exact ⟨_, rfl⟩

/-- Behind a node of a tree, the node is still open. -/
theorem nest_behind {n : List UInt8} (h : nest 0 toks = some 0) (hi : IsNode toks i n) :
    toks.drop i = .beginNode n :: toks.drop (i + 1)
      ∧ ∃ d, 0 < d ∧ nest d (toks.drop (i + 1)) = some 0 := by
  obtain ⟨hlt, hat⟩ := List.getElem?_eq_some_iff.mp hi
  have hdrop : toks.drop i = .beginNode n :: toks.drop (i + 1) := by
    rw [List.drop_eq_getElem_cons hlt, hat]
  refine ⟨hdrop, ?_⟩
  rw [← List.take_append_drop i toks, nest_append, hdrop] at h
  obtain ⟨d, -, hrest⟩ := Option.bind_eq_some_iff.mp h
  exact ⟨d + 1, Nat.succ_pos d, hrest⟩

/-! ## §3 Where a node goes -/

theorem isNode_before_cases {n : List UInt8} (hold : ∀ tok ∈ e.old, tok.isNode = false)
    (hi : IsNode e.before i n) :
    i < e.front.length ∨ e.front.length + e.old.length ≤ i := by
  by_contra hin
  rw [not_or, Nat.not_lt, Nat.not_le] at hin
  rw [IsNode, Edit.before, List.getElem?_append_right hin.1,
    List.getElem?_append_left (by omega)] at hi
  have hnode := hold _ (List.mem_of_getElem? hi)
  cases hnode

theorem Edit.move_isNode {n : List UInt8} (hold : ∀ tok ∈ e.old, tok.isNode = false)
    (hi : IsNode e.before i n) : IsNode e.after (e.move i) n := by
  have hcases := isNode_before_cases hold hi
  rw [IsNode, Edit.before] at hi
  rw [IsNode, Edit.after, Edit.move]
  rcases hcases with hlt | hge
  · rw [if_pos hlt, List.getElem?_append_left hlt]
    rwa [List.getElem?_append_left hlt] at hi
  · rw [if_neg (by omega), List.getElem?_append_right (by omega),
      List.getElem?_append_right (by omega)]
    rw [List.getElem?_append_right (by omega), List.getElem?_append_right (by omega)] at hi
    rwa [show i - e.old.length + e.new.length - e.front.length - e.new.length
      = i - e.front.length - e.old.length by omega]

theorem Edit.move_injective {n m : List UInt8} {j : Nat}
    (hold : ∀ tok ∈ e.old, tok.isNode = false) (hi : IsNode e.before i n)
    (hj : IsNode e.before j m) (h : e.move i = e.move j) : i = j := by
  have hci := isNode_before_cases hold hi
  have hcj := isNode_before_cases hold hj
  rw [Edit.move, Edit.move] at h
  split at h <;> split at h <;> omega

/-- Behind the edit the atoms are the same. -/
theorem Edit.drop_move (hge : e.front.length + e.old.length ≤ i) :
    e.after.drop (e.move i) = e.before.drop i := by
  have hskip : ∀ x y : List Tok, ∀ j, x.length + y.length ≤ j →
      (x ++ (y ++ e.back)).drop j = e.back.drop (j - (x.length + y.length)) := by
    intro x y j hj
    rw [← List.append_assoc, List.drop_append, List.length_append,
      List.drop_eq_nil_of_le (by rw [List.length_append]; exact hj), List.nil_append]
  have hmove : e.move i = i - e.old.length + e.new.length := if_neg (by omega)
  rw [Edit.after, Edit.before, hmove, hskip _ _ _ hge, hskip _ _ _ (by omega)]
  congr 1
  omega

/-- Before the edit the atoms go on to it. -/
theorem Edit.drop_front (hlt : i ≤ e.front.length) :
    e.before.drop i = e.front.drop i ++ (e.old ++ e.back)
      ∧ e.after.drop i = e.front.drop i ++ (e.new ++ e.back) := by
  rw [Edit.before, Edit.after, List.drop_append_of_le_length hlt,
    List.drop_append_of_le_length hlt]
  exact ⟨rfl, rfl⟩

theorem Edit.isNode_after {n : List UInt8} {k : Nat} (hk : IsNode e.after k n) :
    (∃ i, IsNode e.before i n ∧ e.move i = k)
      ∨ (e.front.length ≤ k ∧ IsNode e.new (k - e.front.length) n) := by
  rw [IsNode, Edit.after] at hk
  rcases Nat.lt_or_ge k e.front.length with hlt | hge
  · left
    refine ⟨k, ?_, if_pos hlt⟩
    rw [IsNode, Edit.before, List.getElem?_append_left hlt]
    rwa [List.getElem?_append_left hlt] at hk
  · rw [List.getElem?_append_right hge] at hk
    rcases Nat.lt_or_ge (k - e.front.length) e.new.length with hnew | hback
    · right
      rw [List.getElem?_append_left hnew] at hk
      exact ⟨hge, hk⟩
    · left
      rw [List.getElem?_append_right hback] at hk
      refine ⟨k - e.new.length + e.old.length, ?_, ?_⟩
      · rw [IsNode, Edit.before, List.getElem?_append_right (by omega),
          List.getElem?_append_right (by omega)]
        rwa [show k - e.new.length + e.old.length - e.front.length - e.old.length
          = k - e.front.length - e.new.length by omega]
      · rw [Edit.move, if_neg (by omega)]
        omega

/-! ## §4 Nodes around a node -/

theorem opened_append (front : List Tok) : ∀ (k : Nat) (stack : List Nat) (rest : List Tok),
    opened k stack (front ++ rest) = opened (k + front.length) (opened k stack front) rest := by
  induction front with
  | nil =>
    intro k stack rest
    rfl
  | cons tok front ih =>
    intro k stack rest
    rw [List.length_cons, show k + (front.length + 1) = k + 1 + front.length by omega]
    cases tok with
    | beginNode n => exact ih _ _ _
    | endNode => exact ih _ _ _
    | prop n w => exact ih _ _ _
    | nop => exact ih _ _ _

/-- Atoms that leave the nodes open that are open before them. -/
def Closed (toks : List Tok) : Prop := ∀ k stack, opened k stack toks = stack

theorem closed_of_not_isNode (toks : List Tok) (h : ∀ tok ∈ toks, tok.isNode = false) :
    Closed toks := by
  induction toks with
  | nil => exact fun _ _ => rfl
  | cons tok toks ih =>
    intro k stack
    have hrest := ih fun tok' htok' => h tok' (List.mem_cons_of_mem _ htok')
    have htok := h tok List.mem_cons_self
    cases tok with
    | beginNode n => cases htok
    | endNode => cases htok
    | prop n w => exact hrest _ _
    | nop => exact hrest _ _

theorem closed_node (name : List UInt8) : Closed [.beginNode name, .endNode] := fun _ _ => rfl

theorem opened_bound (toks : List Tok) : ∀ {k : Nat} {stack : List Nat}, (∀ x ∈ stack, x < k) →
    ∀ x ∈ opened k stack toks, x < k + toks.length := by
  induction toks with
  | nil =>
    intro k stack h x hx
    exact h x hx
  | cons tok toks ih =>
    intro k stack h x hx
    have hstep : ∀ stack', (∀ x ∈ stack', x < k + 1) → x ∈ opened (k + 1) stack' toks →
        x < k + (tok :: toks).length := by
      intro stack' hstack' hx'
      have hlt := ih hstack' x hx'
      rw [List.length_cons]
      omega
    have hsame : ∀ x ∈ stack, x < k + 1 := fun x hx => Nat.lt_succ_of_lt (h x hx)
    cases tok with
    | beginNode n =>
      refine hstep (k :: stack) (fun y hy => ?_) hx
      rcases List.mem_cons.mp hy with rfl | hy
      · exact Nat.lt_succ_self _
      · exact hsame y hy
    | endNode => exact hstep _ (fun y hy => hsame y (List.mem_of_mem_tail hy)) hx
    | prop n w => exact hstep _ hsame hx
    | nop => exact hstep _ hsame hx

/-- The same atoms at other indices. -/
theorem opened_map (move : Nat → Nat) (toks : List Tok) : ∀ {k k' : Nat} {stack : List Nat},
    (∀ i, move (k + i) = k' + i) →
    opened k' (stack.map move) toks = (opened k stack toks).map move := by
  induction toks with
  | nil =>
    intro k k' stack _
    rfl
  | cons tok toks ih =>
    intro k k' stack h
    have hnext : ∀ i, move (k + 1 + i) = k' + 1 + i := by
      intro i
      rw [show k + 1 + i = k + (1 + i) by omega, h]
      omega
    cases tok with
    | beginNode n =>
      have hhere := h 0
      rw [Nat.add_zero, Nat.add_zero] at hhere
      rw [opened, opened, ← ih hnext, List.map_cons, hhere]
    | endNode =>
      rw [opened, opened, ← ih hnext, List.map_tail]
    | prop n w => exact ih hnext
    | nop => exact ih hnext

theorem Edit.enclosing_move {n : List UInt8} (hnode : ∀ tok ∈ e.old, tok.isNode = false)
    (hnew : Closed e.new) (hi : IsNode e.before i n) :
    enclosing e.after (e.move i) = (enclosing e.before i).map e.move := by
  have hstays : ∀ l : List Nat, (∀ x ∈ l, x < e.front.length) → l.map e.move = l := by
    intro l hl
    refine (List.map_congr_left fun x hx => ?_).trans (List.map_id l)
    exact if_pos (hl x hx)
  have hbound : ∀ front : List Tok, ∀ x ∈ opened 0 [] front, x < front.length := by
    intro front x hx
    have hlt := @opened_bound front 0 [] (fun y hy => absurd hy List.not_mem_nil) x hx
    rwa [Nat.zero_add] at hlt
  rw [enclosing, enclosing, Edit.before, Edit.after]
  rcases isNode_before_cases hnode hi with hlt | hge
  · rw [Edit.move, if_pos hlt, List.take_append_of_le_length (Nat.le_of_lt hlt),
      List.take_append_of_le_length (Nat.le_of_lt hlt), hstays]
    intro x hx
    have hx' := hbound _ x hx
    rw [List.length_take] at hx'
    omega
  · have hmove : e.move i = i - e.old.length + e.new.length := if_neg (by omega)
    have htake : ∀ x : List Tok, Closed x → ∀ j, e.front.length + x.length ≤ j →
        opened 0 [] ((e.front ++ (x ++ e.back)).take j)
          = opened (e.front.length + x.length) (opened 0 [] e.front)
            (e.back.take (j - e.front.length - x.length)) := by
      intro x hx j hj
      have hfront : e.front.take j = e.front := List.take_of_length_le (by omega)
      have hmiddle : x.take (j - e.front.length) = x := List.take_of_length_le (by omega)
      rw [List.take_append, hfront, List.take_append, hmiddle, opened_append, opened_append, hx,
        Nat.zero_add]
    rw [htake _ hnew _ (by omega), htake _ (closed_of_not_isNode _ hnode) _ hge,
      ← opened_map e.move _ (fun j => ?_), hstays _ (hbound _), hmove]
    · congr 2
      omega
    · rw [Edit.move, if_neg (by omega)]
      omega

/-! ## §5 Properties -/

/-- Equal rests behind equal atoms. -/
theorem valueOf_congr {x y : List Tok} (front : List Tok) : ∀ {d : Nat}, 1 ≤ d →
    (∀ d', 1 ≤ d' → valueOf name d' x = valueOf name d' y) →
    valueOf name d (front ++ x) = valueOf name d (front ++ y) := by
  induction front with
  | nil =>
    intro d hd h
    exact h d hd
  | cons tok front ih =>
    intro d hd h
    cases tok with
    | beginNode n => exact ih (Nat.le_succ_of_le hd) h
    | endNode =>
      rw [List.cons_append, List.cons_append, valueOf, valueOf]
      by_cases hlast : d ≤ 1
      · rw [if_pos hlast, if_pos hlast]
      · rw [if_neg hlast, if_neg hlast]
        exact ih (by omega) h
    | prop n w =>
      rw [List.cons_append, List.cons_append, valueOf, valueOf, ih hd h]
    | nop => exact ih hd h

/-- From depth `m` on the atoms say nothing about the property. -/
def Silent (name : List UInt8) (m : Nat) (toks : List Tok) : Prop :=
  ∀ d rest, m ≤ d → valueOf name d (toks ++ rest) = valueOf name d rest

theorem silent_nil (name : List UInt8) (m : Nat) : Silent name m [] := fun _ _ _ => rfl

/-- Below depth one a property belongs to another node. -/
theorem silent_prop_deep (name n w : List UInt8) : Silent name 2 [.prop n w] := by
  intro d rest hd
  exact if_neg (by omega)

theorem silent_prop_other {n : List UInt8} (w : List UInt8) (hn : n ≠ name) :
    Silent name 1 [.prop n w] := by
  intro d rest _
  exact if_neg (by rw [not_and]; exact fun _ => hn)

theorem silent_node (name n : List UInt8) : Silent name 1 [.beginNode n, .endNode] := by
  intro d rest hd
  exact if_neg (by omega)

theorem Silent.mono {m m' : Nat} (h : Silent name m toks) (hm : m ≤ m') : Silent name m' toks :=
  fun d rest hd => h d rest (Nat.le_trans hm hd)

/-- The atoms of a header say nothing below depth one. -/
theorem silent_header {n : List UInt8} (name : List UInt8) (front : List Tok) :
    (∀ tok ∈ front, tok.Other n) → Silent name 2 front := by
  induction front with
  | nil => exact fun _ => silent_nil name 2
  | cons tok front ih =>
    intro h d rest hd
    have hrest := ih (fun tok' htok' => h tok' (List.mem_cons_of_mem _ htok')) d rest hd
    have htok := h tok List.mem_cons_self
    cases tok with
    | beginNode m => exact absurd htok id
    | endNode => exact absurd htok id
    | prop m w =>
      rw [List.cons_append, valueOf, if_neg (by omega)]
      exact hrest
    | nop => exact hrest

/-- The first property of the name is the one that counts. -/
theorem valueOf_header (front : List Tok) : (∀ tok ∈ front, tok.Other name) →
    valueOf name 1 (front ++ .prop name value :: rest) = some value := by
  induction front with
  | nil => exact fun _ => if_pos ⟨rfl, rfl⟩
  | cons tok front ih =>
    intro h
    have hrest := ih fun tok' htok' => h tok' (List.mem_cons_of_mem _ htok')
    have htok := h tok List.mem_cons_self
    cases tok with
    | beginNode m => exact absurd htok id
    | endNode => exact absurd htok id
    | prop m w =>
      rw [List.cons_append, valueOf, if_neg (fun hm => htok hm.2)]
      exact hrest
    | nop => exact hrest

theorem propOf_node {n : List UInt8} (hi : IsNode toks i n) (name : List UInt8) :
    propOf toks i name = valueOf name 1 (toks.drop (i + 1)) := by
  obtain ⟨hlt, hat⟩ := List.getElem?_eq_some_iff.mp hi
  rw [propOf, List.drop_eq_getElem_cons hlt, hat]
  rfl

/-- **An edit with silent atoms** changes the property of no node. -/
theorem Edit.propOf_move {n : List UInt8} (hnode : ∀ tok ∈ e.old, tok.isNode = false)
    (hold : Silent name 1 e.old) (hnew : Silent name 1 e.new) (hi : IsNode e.before i n) :
    propOf e.after (e.move i) name = propOf e.before i name := by
  rcases isNode_before_cases hnode hi with hlt | hge
  · have hmoved := Edit.move_isNode hnode hi
    rw [Edit.move, if_pos hlt] at hmoved ⊢
    obtain ⟨hbefore, hafter⟩ := @Edit.drop_front e (i + 1) hlt
    rw [propOf_node hi, propOf_node hmoved, hbefore, hafter]
    refine valueOf_congr _ (Nat.le_refl 1) fun d hd => ?_
    rw [hold d _ hd, hnew d _ hd]
  · rw [propOf, propOf, Edit.drop_move hge]

/-! ## §6 What the two edits do -/

theorem take_node {n : List UInt8} (hi : IsNode toks i n) :
    toks.take (i + 1) = toks.take i ++ [.beginNode n] := by
  rw [List.take_add_one, hi]
  rfl

/-- A change of the header of node `i` does not show in a node before it. -/
theorem propOf_before {n : List UInt8} {j : Nat} {m : List UInt8} {front x y : List Tok}
    (hj : IsNode (front ++ .beginNode n :: x) j m) (hlt : j < front.length)
    (hxy : ∀ d, 2 ≤ d → valueOf name d x = valueOf name d y) :
    propOf (front ++ .beginNode n :: y) j name = propOf (front ++ .beginNode n :: x) j name := by
  have hj' : IsNode (front ++ .beginNode n :: y) j m := by
    rw [IsNode, List.getElem?_append_left hlt] at hj ⊢
    exact hj
  rw [propOf_node hj, propOf_node hj', List.drop_append_of_le_length hlt,
    List.drop_append_of_le_length hlt]
  exact valueOf_congr _ (Nat.le_refl 1) fun d hd => (hxy (d + 1) (by omega)).symm

/-- At most one atom, and that is the property. -/
def AtMostProp (name : List UInt8) (toks : List Tok) : Prop :=
  toks = [] ∨ ∃ w, toks = [.prop name w]

theorem AtMostProp.notNode (h : AtMostProp name toks) : ∀ tok ∈ toks, tok.isNode = false := by
  intro tok htok
  rcases h with rfl | ⟨w, rfl⟩
  · cases htok
  · rw [List.mem_singleton.mp htok]
    rfl

theorem AtMostProp.level (h : AtMostProp name toks) : Level toks := by
  rcases h with rfl | ⟨w, rfl⟩
  · exact fun _ => rfl
  · exact fun _ => rfl

theorem AtMostProp.silent_other {m : List UInt8} (h : AtMostProp name toks) (hm : m ≠ name) :
    Silent m 1 toks := by
  rcases h with rfl | ⟨w, rfl⟩
  · exact silent_nil m 1
  · exact silent_prop_other w hm.symm

theorem AtMostProp.silent_deep (h : AtMostProp name toks) (m : List UInt8) : Silent m 2 toks := by
  rcases h with rfl | ⟨w, rfl⟩
  · exact silent_nil m 2
  · exact silent_prop_deep m name w

/-- An edit that sets a property in the header of node `i`. -/
structure SetsProp (e : Edit) (toks : List Tok) (i : Nat) (name value : List UInt8) : Prop where
  before : e.before = toks
  front : ∃ n h, e.front = toks.take i ++ .beginNode n :: h ∧ ∀ tok ∈ h, tok.Other name
  index : (toks.take i).length = i
  old : AtMostProp name e.old
  new : e.new = [.prop name value]

theorem setEdit_spec {n : List UInt8} (hnest : nest 0 toks = some 0) (hi : IsNode toks i n)
    (name value : List UInt8) :
    ∃ e, setEdit toks i name value = some e ∧ SetsProp e toks i name value := by
  obtain ⟨-, d, hd, hrest⟩ := nest_behind hnest hi
  obtain ⟨h, hh⟩ := headerEdit_isSome name value _ hrest hd
  obtain ⟨hbefore, hnew, hother, hcases⟩ := headerEdit_spec _ hh
  have hlt := (List.getElem?_eq_some_iff.mp hi).1
  refine ⟨h.behind (toks.take (i + 1)), by rw [setEdit, hh]; rfl, ?_, ⟨n, h.front, ?_, hother⟩,
    List.length_take_of_le (Nat.le_of_lt hlt), ?_, hnew⟩
  · rw [Edit.before_behind, hbefore, List.take_append_drop]
  · show toks.take (i + 1) ++ h.front = _
    rw [take_node hi, List.append_assoc]
    rfl
  · rcases hcases with ⟨hempty, -⟩ | ⟨-, w, hprop⟩
    · exact Or.inl hempty
    · exact Or.inr ⟨w, hprop⟩

variable (he : SetsProp e toks i name value)

include he

theorem SetsProp.newProp : AtMostProp name e.new := Or.inr ⟨value, he.new⟩

theorem SetsProp.lt_front : i < e.front.length := by
  obtain ⟨n, h, hfront, -⟩ := he.front
  have hindex := he.index
  rw [hfront, List.length_append, List.length_cons]
  omega

/-- The atoms from node `i` on, before and after. -/
theorem SetsProp.atoms : ∃ n h, (∀ tok ∈ h, tok.Other name)
    ∧ e.front.length = i + 1 + h.length
    ∧ e.before = toks.take i ++ .beginNode n :: (h ++ (e.old ++ e.back))
    ∧ e.after = toks.take i ++ .beginNode n :: (h ++ (e.new ++ e.back)) := by
  obtain ⟨n, h, hfront, hother⟩ := he.front
  refine ⟨n, h, hother, ?_, ?_, ?_⟩
  · rw [hfront, List.length_append, List.length_cons, he.index]
    omega
  · rw [Edit.before, hfront, List.append_assoc, List.cons_append]
  · rw [Edit.after, hfront, List.append_assoc, List.cons_append]

theorem SetsProp.value_set : propOf e.after i name = some value := by
  obtain ⟨n, h, hother, -, -, hafter⟩ := he.atoms
  have hi : IsNode e.after i n := by
    rw [IsNode, hafter, List.getElem?_append_right (Nat.le_of_eq he.index), he.index, Nat.sub_self]
    rfl
  rw [propOf_node hi, hafter, List.drop_append, he.index, Nat.add_sub_cancel_left,
    List.drop_eq_nil_of_le (by rw [he.index]; exact Nat.le_succ i)]
  show valueOf name 1 (h ++ (e.new ++ e.back)) = _
  rw [he.new]
  exact valueOf_header _ hother

/-- No node begins between node `i` and the edit. -/
theorem SetsProp.not_between {j : Nat} {m : List UInt8} (hj : IsNode e.before j m)
    (hlt : j < e.front.length) : j ≤ i := by
  obtain ⟨n, h, hother, hlength, hbefore, -⟩ := he.atoms
  by_contra hgt
  have hindex := he.index
  rw [IsNode, hbefore, List.getElem?_append_right (by omega), hindex,
    show j - i = j - i - 1 + 1 by omega, List.getElem?_cons_succ,
    List.getElem?_append_left (by omega)] at hj
  exact hother _ (List.mem_of_getElem? hj)

theorem SetsProp.prop_kept {j : Nat} {m name' : List UInt8} (hj : IsNode e.before j m)
    (hother : ¬ (j = i ∧ name' = name)) :
    propOf e.after (e.move j) name' = propOf e.before j name' := by
  by_cases hname : name' = name
  swap
  · exact Edit.propOf_move he.old.notNode (he.old.silent_other hname)
      (he.newProp.silent_other hname) hj
  rcases isNode_before_cases he.old.notNode hj with hlt | hge
  · have hji : j < i := by
      have hle := he.not_between hj hlt
      have hne : j ≠ i := fun hji => hother ⟨hji, hname⟩
      omega
    obtain ⟨n, h, hheader, -, hbefore, hafter⟩ := he.atoms
    rw [Edit.move, if_pos hlt, hbefore, hafter]
    refine propOf_before (hbefore ▸ hj) (by rw [he.index]; exact hji) fun d hd => ?_
    -- one level down, the header and the atoms of the edit are all silent
    have hsilent := silent_header name' h hheader
    rw [hsilent d _ hd, hsilent d _ hd, he.old.silent_deep name' d _ hd,
      he.newProp.silent_deep name' d _ hd]
  · rw [propOf, propOf, Edit.drop_move hge]

/-- **Setting a property** changes that one, and nothing else of the tree. -/
theorem SetsProp.kept :
    TreeKept toks e.after e.move (fun j m => j = i ∧ m = name) (fun _ _ => False) := by
  have hbefore := he.before
  have hnode := he.old.notNode
  rw [← hbefore]
  refine ⟨Edit.move_isNode hnode, Edit.move_injective hnode, ?_, ?_, he.prop_kept⟩
  · intro k m hk
    rcases Edit.isNode_after hk with hmoved | ⟨-, hin⟩
    · exact Or.inl hmoved
    · have htok := he.newProp.notNode _ (List.mem_of_getElem? hin)
      cases htok
  · exact Edit.enclosing_move hnode (closed_of_not_isNode _ he.newProp.notNode)

theorem SetsProp.nest_eq : nest 0 e.after = nest 0 toks := by
  rw [Edit.nest_after he.old.level he.newProp.level, he.before]

omit he

/-- The end that `closeEdit` finds is that of the node on top of the stack, when the nodes of
`inner` are closed before it. -/
theorem closeEdit_opened {x : Nat} {stack : List Nat} (toks : List Tok) :
    ∀ {k d : Nat} {inner : List Nat} {e : Edit}, closeEdit name d toks = some e →
    d = inner.length + 1 → opened k (inner ++ x :: stack) e.front = x :: stack := by
  induction toks with
  | nil =>
    intro k d inner e h
    cases h
  | cons tok toks ih =>
    intro k d inner e h hd
    cases tok with
    | beginNode n =>
      obtain ⟨e', he', rfl⟩ := Option.map_eq_some_iff.mp h
      exact @ih (k + 1) _ (k :: inner) e' he' (by rw [hd, List.length_cons])
    | endNode =>
      rw [closeEdit] at h
      by_cases hlast : d ≤ 1
      · rw [if_pos hlast] at h
        cases h
        rw [List.length_eq_zero_iff.mp (show inner.length = 0 by omega)]
        rfl
      · rw [if_neg hlast] at h
        obtain ⟨e', he', rfl⟩ := Option.map_eq_some_iff.mp h
        cases inner with
        | nil => exact absurd (Nat.le_of_eq hd) hlast
        | cons y inner =>
          rw [List.length_cons] at hd
          exact @ih (k + 1) _ inner e' he' (by omega)
    | prop n w =>
      obtain ⟨e', he', rfl⟩ := Option.map_eq_some_iff.mp h
      exact @ih (k + 1) _ inner e' he' hd
    | nop =>
      obtain ⟨e', he', rfl⟩ := Option.map_eq_some_iff.mp h
      exact @ih (k + 1) _ inner e' he' hd

/-- An edit that adds an empty node at the end of node `i`. -/
structure AddsNode (e : Edit) (toks : List Tok) (i : Nat) (name : List UInt8) : Prop where
  before : e.before = toks
  index : i < e.front.length
  old : e.old = []
  new : e.new = [.beginNode name, .endNode]
  parent : opened 0 [] e.front = i :: enclosing toks i

theorem createEdit_spec {n : List UInt8} (hnest : nest 0 toks = some 0) (hi : IsNode toks i n)
    (name : List UInt8) : ∃ e, createEdit toks i name = some e ∧ AddsNode e toks i name := by
  obtain ⟨-, d, hd, hrest⟩ := nest_behind hnest hi
  obtain ⟨h, hh⟩ := closeEdit_isSome name _ hrest Nat.one_pos hd
  obtain ⟨hbefore, hold, hnew, -⟩ := closeEdit_spec _ hh
  have hlt := (List.getElem?_eq_some_iff.mp hi).1
  refine ⟨h.behind (toks.take (i + 1)), by rw [createEdit, hh]; rfl, ?_, ?_, hold, hnew, ?_⟩
  · rw [Edit.before_behind, hbefore, List.take_append_drop]
  · show i < (toks.take (i + 1) ++ h.front).length
    rw [List.length_append, List.length_take_of_le hlt]
    omega
  · show opened 0 [] (toks.take (i + 1) ++ h.front) = _
    have hopen : opened 0 [] (toks.take (i + 1)) = i :: enclosing toks i := by
      rw [take_node hi, opened_append, List.length_take_of_le (Nat.le_of_lt hlt), Nat.zero_add]
      rfl
    rw [opened_append, hopen]
    exact @closeEdit_opened name i (enclosing toks i) _ _ 1 [] _ hh rfl

variable (ha : AddsNode e toks i name)

include ha

theorem AddsNode.notNode : ∀ tok ∈ e.old, tok.isNode = false := by
  rw [ha.old]
  exact fun _ h => absurd h List.not_mem_nil

/-- **Adding a node** changes nothing that was there. -/
theorem AddsNode.kept : TreeKept toks e.after e.move (fun _ _ => False)
    (fun k m => k = e.front.length ∧ m = name) := by
  have hnode := ha.notNode
  rw [← ha.before]
  refine ⟨Edit.move_isNode hnode, Edit.move_injective hnode, ?_, ?_, ?_⟩
  · intro k m hk
    rcases Edit.isNode_after hk with hmoved | ⟨hge, hin⟩
    · exact Or.inl hmoved
    · right
      rw [ha.new, IsNode] at hin
      rcases Nat.eq_zero_or_pos (k - e.front.length) with hzero | hpos
      · rw [hzero] at hin
        cases hin
        exact ⟨by omega, rfl⟩
      · rw [show k - e.front.length = k - e.front.length - 1 + 1 by omega,
          List.getElem?_cons_succ] at hin
        cases List.mem_singleton.mp (List.mem_of_getElem? hin)
  · refine Edit.enclosing_move hnode ?_
    rw [ha.new]
    exact closed_node name
  · intro j n m hj _
    refine Edit.propOf_move hnode ?_ ?_ hj
    · rw [ha.old]
      exact silent_nil m 1
    · rw [ha.new]
      exact silent_node m name

theorem AddsNode.nest_eq : nest 0 e.after = nest 0 toks := by
  rw [Edit.nest_after (by rw [ha.old]; exact fun _ => rfl) (by rw [ha.new]; exact level_node name),
    ha.before]

/-- The new node is a child of node `i`, and is empty. -/
theorem AddsNode.added : IsNode e.after e.front.length name
    ∧ enclosing e.after e.front.length = i :: enclosing toks i
    ∧ ∀ m, propOf e.after e.front.length m = none := by
  have hnew : IsNode e.after e.front.length name := by
    rw [IsNode, Edit.after, List.getElem?_append_right (Nat.le_refl _), Nat.sub_self, ha.new]
    rfl
  refine ⟨hnew, ?_, fun m => ?_⟩
  · rw [enclosing, Edit.after, List.take_left, ha.parent]
  · rw [propOf, Edit.after, List.drop_left, ha.new]
    rfl

end LiloBoot.DevTree
