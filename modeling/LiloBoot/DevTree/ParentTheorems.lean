/-
LiloBoot.DevTree.ParentTheorems — when `ft_get_parent` finds the node around a node.

The chain always ends inside its array (§1), so the loop over it returns. Where the
node is not in it, the loop over the tree keeps the addresses of the open nodes in the
chain while the atoms go by, and so has the parent before the node (§3). Where it is,
what is returned is as old as the last search.
-/
import LiloBoot.DevTree.Parent
import LiloBoot.DevTree.GetPath

namespace LiloBoot.DevTree

open LiloBoot.Memory

variable {cxt : FtCxt} {toks front rest : List Tok} {gen gen' : Genealogy} {node i : Nat}
  {path : List UInt8} {realloc : Realloc} {used : Nat → Prop} {need : Nat} {nodes : List Nat}

/-! ## §1 Searches -/

/-- The chain ends inside the array. -/
def Genealogy.Ends (gen : Genealogy) : Prop := ∃ d ≤ ftMaxDepth, gen d = none

/-- The search is the one without the chain. -/
theorem GenCxt.findLoop_fst (fuel : Nat) : ∀ (p : Nat) (s : FindState) (gen : Genealogy),
    (GenCxt.findLoop cxt path fuel p s gen).map Prod.fst = DevTree.findLoop cxt path fuel p s := by
  induction fuel with
  | zero => exact fun _ _ _ => rfl
  | succ fuel ih =>
    intro p s gen
    rw [GenCxt.findLoop, DevTree.findLoop]
    cases ftNext cxt p with
    | none => rfl
    | some step =>
      obtain ⟨next, atom⟩ := step
      cases atom with
      | prop name data size => exact ih _ _ _
      | nop => exact ih _ _ _
      | endNode =>
        simp only
        split
        · rfl
        · split
          · exact ih _ _ _
          · exact ih _ _ _
      | beginNode name data =>
        simp only
        split
        · exact ih _ _ _
        · split
          · rfl
          · split
            · exact ih _ _ _
            · split
              · rfl
              · exact ih _ _ _

/-- A search leaves a chain that ends. -/
theorem GenCxt.findLoop_ends (fuel : Nat) : ∀ {p : Nat} {s : FindState} {gen : Genealogy}
    {r : Option Nat × Genealogy}, gen.Ends →
    GenCxt.findLoop cxt path fuel p s gen = some r → Genealogy.Ends r.2 := by
  induction fuel with
  | zero =>
    intro p s gen r hends hrun
    cases hrun
    exact hends
  | succ fuel ih =>
    intro p s gen r hends hrun
    rw [GenCxt.findLoop] at hrun
    cases hnext : ftNext cxt p with
    | none =>
      rw [hnext] at hrun
      cases hrun
      exact hends
    | some step =>
      obtain ⟨next, atom⟩ := step
      rw [hnext] at hrun
      cases atom with
      | prop name data size => exact ih hends hrun
      | nop => exact ih hends hrun
      | endNode =>
        simp only at hrun
        split at hrun
        · cases hrun
          exact hends
        · split at hrun
          · exact ih hends hrun
          · exact ih hends hrun
      | beginNode name data =>
        simp only at hrun
        split at hrun
        · exact ih hends hrun
        · split at hrun
          · cases hrun
          · rename_i hdepth
            have hwritten : Genealogy.Ends (Function.update
                (Function.update gen s.dmatch (some data)) (s.dmatch + 1) none) :=
              ⟨s.dmatch + 1, by omega, Function.update_self _ _ _⟩
            split at hrun
            · exact ih hwritten hrun
            · split at hrun
              · cases hrun
                exact hwritten
              · exact ih hwritten hrun

/-! ## §2 The loop over the chain -/

theorem GenCxt.chainLoop_spec (room : Nat) : ∀ {d : Nat}, d + room = ftMaxDepth + 1 →
    (∀ t < d, ∃ a, gen t = some a ∧ a ≠ node) → (∃ e, d ≤ e ∧ e ≤ ftMaxDepth ∧ gen e = none) →
    (∃ k, gen.At node k ∧ chainLoop gen node room d
        = some (some (if 0 < k then gen (k - 1) else none))) ∨
      ((∀ k, ¬ gen.At node k) ∧ chainLoop gen node room d = some none) := by
  induction room with
  | zero =>
    rintro d hroom - ⟨e, hde, he, -⟩
    omega
  | succ room ih =>
    rintro d hroom hbefore ⟨e, hde, he, hend⟩
    rw [chainLoop]
    cases hd : gen d with
    | none =>
      refine Or.inr ⟨fun k hk => ?_, rfl⟩
      rcases Nat.lt_trichotomy k d with hlt | rfl | hgt
      · obtain ⟨a, ha, hne⟩ := hbefore k hlt
        exact hne (Option.some.inj (ha.symm.trans hk.2.1))
      · exact absurd (hd.symm.trans hk.2.1) (by simp)
      · obtain ⟨a, ha, -⟩ := hk.2.2 d hgt
        exact absurd (hd.symm.trans ha) (by simp)
    | some a =>
      simp only
      by_cases hnode : a = node
      · rw [if_pos hnode]
        exact Or.inl ⟨d, ⟨by omega, by rw [hd, hnode], hbefore⟩, rfl⟩
      · rw [if_neg hnode]
        refine ih (by omega) (fun t ht => ?_) ⟨e, ?_, he, hend⟩
        · rcases Nat.lt_succ_iff_lt_or_eq.mp ht with hlt | rfl
          · exact hbefore t hlt
          · exact ⟨a, hd, hnode⟩
        · have hne : e ≠ d := by
            rintro rfl
            rw [hd] at hend
            cases hend
          omega

/-! ## §3 The loop over the tree -/

/-- The address of atom `i`. -/
def atomAddr (cxt : FtCxt) (toks : List Tok) (i : Nat) : Nat :=
  (cxt.rgn .struct).start + offsetOf toks i

/-- The chain begins with the addresses of the open nodes, from the outermost one on. -/
def Lists (cxt : FtCxt) (toks : List Tok) (gen : Genealogy) (stack : List Nat) : Prop :=
  ∀ d k, stack.reverse[d]? = some k → gen d = some (atomAddr cxt toks k)

variable {stack : List Nat}

theorem Lists.update (h : Lists cxt toks gen stack) {d : Nat} (hd : stack.length ≤ d)
    (x : Option Nat) : Lists cxt toks (Function.update gen d x) stack := by
  intro t k ht
  have hlt := (List.getElem?_eq_some_iff.mp ht).1
  rw [List.length_reverse] at hlt
  rw [Function.update_of_ne (by omega)]
  exact h t k ht

theorem Lists.push (h : Lists cxt toks gen stack) (k : Nat) :
    Lists cxt toks (Function.update gen stack.length (some (atomAddr cxt toks k)))
      (k :: stack) := by
  intro d x hx
  rw [List.reverse_cons] at hx
  rcases Nat.lt_trichotomy d stack.length with hlt | rfl | hgt
  · rw [List.getElem?_append_left (by rw [List.length_reverse]; exact hlt)] at hx
    exact h.update (le_refl _) _ d x hx
  · rw [List.getElem?_append_right (by rw [List.length_reverse]), List.length_reverse,
      Nat.sub_self] at hx
    obtain rfl := Option.some.inj hx
    exact Function.update_self _ _ _
  · rw [List.getElem?_eq_none (by
      rw [List.length_append, List.length_reverse, List.length_singleton]; omega)] at hx
    cases hx

theorem Lists.pop {b : Nat} (h : Lists cxt toks gen (b :: stack)) : Lists cxt toks gen stack := by
  intro d k hk
  have hlt := (List.getElem?_eq_some_iff.mp hk).1
  refine h d k ?_
  rw [List.reverse_cons, List.getElem?_append_left hlt]
  exact hk

/-- The innermost of the open nodes. -/
theorem Lists.innermost (h : Lists cxt toks gen stack) :
    (if 0 < stack.length then gen (stack.length - 1) else none)
      = stack.head?.map (atomAddr cxt toks) := by
  cases stack with
  | nil => rfl
  | cons b stack =>
    rw [if_pos (show 0 < (b :: stack).length from Nat.succ_pos _), List.head?_cons, Option.map_some]
    refine h _ b ?_
    rw [List.reverse_cons, List.length_cons, Nat.add_sub_cancel,
      List.getElem?_append_right (by rw [List.length_reverse]), List.length_reverse, Nat.sub_self]
    rfl

/-- **The loop over the tree** gets to the node with its parent in the chain. -/
theorem GenCxt.hardLoop_spec {n : List UInt8} (htree : HoldsTree cxt toks)
    (hspace : (cxt.rgn .struct).stop < 2 ^ 32) (hclosed : nest 0 toks = some 0)
    (hi : IsNode toks i n)
    (hdeep : ∀ j < i, ∀ m, IsNode toks j m → (enclosing toks j).length ≤ ftMaxDepth)
    (hshallow : (enclosing toks i).length < ftMaxDepth) (rest : List Tok) :
    ∀ {front : List Tok} {fuel : Nat} {gen : Genealogy}, toks = front ++ rest →
    rest.length < fuel → front.length ≤ i → Lists cxt toks gen (opened 0 [] front) →
    ∃ gen', hardLoop cxt (atomAddr cxt toks i) fuel ((cxt.rgn .struct).start + toksSize front)
        (opened 0 [] front).length gen
      = some ((enclosing toks i).head?.map (atomAddr cxt toks), gen') ∧ Genealogy.Ends gen' := by
  induction rest with
  | nil =>
    intro front fuel gen htoks _ hbehind _
    have hlt := hi.lt
    rw [htoks, List.append_nil] at hlt
    omega
  | cons tok rest ih =>
    intro front fuel gen htoks hfuel hbehind h
    rw [List.length_cons] at hfuel
    obtain ⟨fuel, rfl⟩ : ∃ k, fuel = k + 1 := ⟨fuel - 1, by omega⟩
    have htoks' : toks = (front ++ [tok]) ++ rest := by
      rw [htoks, List.append_assoc]
      rfl
    have hlength : (front ++ [tok]).length = front.length + 1 := List.length_append
    have hholds : HoldsTree cxt (front ++ tok :: rest) := htoks ▸ htree
    have hopened : opened 0 [] (front ++ [tok]) = opened front.length (opened 0 [] front) [tok] := by
      rw [opened_append, Nat.zero_add]
    have hother : (∀ m, tok ≠ .beginNode m) → (front ++ [tok]).length ≤ i := by
      intro hnot
      rw [hlength]
      by_contra hge
      obtain rfl : i = front.length := by omega
      rw [htoks, IsNode, List.getElem?_append_right (le_refl _), Nat.sub_self] at hi
      exact hnot n (Option.some.inj hi)
    have hgo {gen : Genealogy} {d : Int} (hbehind : (front ++ [tok]).length ≤ i)
        (hd : d = (opened 0 [] (front ++ [tok])).length)
        (h : Lists cxt toks gen (opened 0 [] (front ++ [tok]))) :=
      hd ▸ ih htoks' (show rest.length < fuel by omega) hbehind h
    rw [hardLoop, hholds.step hspace]
    cases tok with
    | prop m w =>
      exact hgo (hother fun _ => by simp) (by rw [hopened]; rfl) (by rw [hopened]; exact h)
    | nop => exact hgo (hother fun _ => by simp) (by rw [hopened]; rfl) (by rw [hopened]; exact h)
    | endNode =>
      simp only [Tok.atom]
      obtain ⟨b, stack, hstack⟩ := List.exists_cons_of_ne_nil (opened_ne_nil (htoks ▸ hclosed))
      have hpopped : opened 0 [] (front ++ [.endNode]) = stack := by
        rw [hopened, hstack]
        rfl
      refine hgo (hother fun _ => by simp) ?_ ?_
      · rw [hpopped, hstack, List.length_cons]
        omega
      · rw [hpopped]
        rw [hstack] at h
        exact h.pop
    | beginNode m =>
      simp only [Tok.atom]
      have hnode : IsNode toks front.length m := by
        rw [htoks, IsNode, List.getElem?_append_right (le_refl _), Nat.sub_self]
        rfl
      have hstack : enclosing toks front.length = opened 0 [] front := by
        rw [htoks, enclosing_front]
      have haddr : (cxt.rgn .struct).start + toksSize front = atomAddr cxt toks front.length := by
        rw [atomAddr, htoks, offsetOf, List.take_left]
      have hfits : (opened 0 [] front).length ≤ ftMaxDepth := by
        rw [← hstack]
        rcases Nat.lt_or_eq_of_le hbehind with hlt | heq
        · exact hdeep _ hlt m hnode
        · rw [heq]
          exact Nat.le_of_lt hshallow
      rw [if_neg (by omega), haddr, Int.toNat_natCast]
      by_cases hhere : atomAddr cxt toks i = atomAddr cxt toks front.length
      · obtain rfl : i = front.length := offsetOf_inj hi.lt hnode.lt (Nat.add_left_cancel hhere)
        rw [hstack] at hshallow ⊢
        rw [if_pos rfl, if_neg (by omega)]
        have hlisted := (h.update (le_refl _) (some (atomAddr cxt toks front.length))).update
          (Nat.le_succ _) none
        refine ⟨_, congrArg (fun x => some (x, _)) ?_,
          ⟨_, hshallow, Function.update_self _ _ _⟩⟩
        rw [← hlisted.innermost]
        simp only [Int.natCast_pos]
      · rw [if_neg hhere]
        have hne : i ≠ front.length := fun heq => hhere (by rw [heq])
        refine hgo (by omega) ?_ ?_
        · rw [hopened]
          rfl
        · rw [hopened]
          exact h.push front.length

/-! ## §4 One call -/

variable {s s' : GenCxt} {phandle : Nat}

theorem GenCxt.ftFindDevice_fst (top : Option Nat) (path : List UInt8) :
    (s.ftFindDevice top path).map (fun r => (r.1, r.2.cxt))
      = DevTree.ftFindDevice s.cxt top path := by
  have hfound (node : Nat) : ((s.ftFindDescendent node path).map s.found).map
      (fun r => (r.1, r.2.cxt))
      = (DevTree.ftFindDescendent s.cxt node path).map fun node => ftGetPhandle s.cxt node := by
    rw [DevTree.ftFindDescendent, ← GenCxt.findLoop_fst _ _ _ s.genealogy, Option.map_map,
      Option.map_map]
    rfl
  cases top with
  | none => exact hfound _
  | some phandle =>
    simp only [ftFindDevice, DevTree.ftFindDevice]
    cases ftNodePh2node s.cxt phandle with
    | none => rfl
    | some node => exact hfound node

theorem GenCxt.ftFindDevice_ends {top : Option Nat} {r : Option Nat × GenCxt}
    (hends : s.genealogy.Ends) (hrun : s.ftFindDevice top path = some r) :
    Genealogy.Ends r.2.genealogy := by
  have hfound {node : Nat} (hrun : (s.ftFindDescendent node path).map s.found = some r) :
      Genealogy.Ends r.2.genealogy := by
    obtain ⟨found, hsearch, rfl⟩ := Option.map_eq_some_iff.mp hrun
    exact GenCxt.findLoop_ends _ hends hsearch
  cases top with
  | none => exact hfound hrun
  | some phandle =>
    simp only [ftFindDevice] at hrun
    cases hnode : ftNodePh2node s.cxt phandle with
    | none =>
      rw [hnode] at hrun
      cases hrun
      exact hends
    | some node =>
      rw [hnode] at hrun
      exact hfound hrun

/-- A node that is in the table, or has room in it, gets a phandle. -/
theorem ftGetPhandle_spec {a : Nat} (h : a ∈ cxt.nodeTbl ∨ cxt.nodeTbl.length + 1 < cxt.nodeMax) :
    ∃ ph, (ftGetPhandle cxt (some a)).1 = some ph
      ∧ ftNodePh2node (ftGetPhandle cxt (some a)).2 ph = some a
      ∧ (ftGetPhandle cxt (some a)).2.rgn = cxt.rgn := by
  rw [ftGetPhandle]
  cases hidx : cxt.nodeTbl.idxOf? a with
  | some k =>
    obtain ⟨hk, hat, -⟩ := List.idxOf?_eq_some_iff.mp hidx
    refine ⟨k + 1, rfl, ?_, rfl⟩
    rw [ftNodePh2node, if_neg (Nat.succ_ne_zero k), Nat.add_sub_cancel, List.getElem?_eq_getElem hk,
      hat]
  | none =>
    rw [if_pos (h.resolve_left (List.idxOf?_eq_none_iff.mp hidx))]
    refine ⟨cxt.nodeTbl.length + 1, rfl, ?_, rfl⟩
    rw [ftNodePh2node, if_neg (Nat.succ_ne_zero _), Nat.add_sub_cancel,
      List.getElem?_append_right (le_refl _), Nat.sub_self]
    rfl

/-- **`__ft_get_parent`** for a node that the chain is not stale for. -/
theorem GenCxt.getParent_spec {n : List UInt8} (h : Open s.cxt toks nodes used need)
    (hends : s.genealogy.Ends) (hi : IsNode toks i n) (hfresh : s.Fresh toks i) :
    ∃ gen', s.getParent (atomAddr s.cxt toks i)
      = some ((enclosing toks i).head?.map (atomAddr s.cxt toks), gen') ∧ Genealogy.Ends gen' := by
  obtain ⟨e, he, hend⟩ := hends
  rw [getParent]
  rcases @GenCxt.chainLoop_spec s.genealogy (atomAddr s.cxt toks i) (ftMaxDepth + 1) 0
    (Nat.zero_add _) (fun t ht => absurd ht (Nat.not_lt_zero t)) ⟨e, Nat.zero_le _, he, hend⟩ with
    ⟨k, hk, hrun⟩ | ⟨hnone, hrun⟩
  · obtain ⟨hroot, hparent⟩ := hfresh.hit k hk
    rw [hrun]
    refine ⟨s.genealogy, congrArg (fun x => some (x, _)) ?_, e, he, hend⟩
    cases k with
    | zero =>
      rw [hroot.mp rfl]
      rfl
    | succ t =>
      obtain ⟨j, outer, henclosing⟩ := List.exists_cons_of_ne_nil fun hnil =>
        Nat.succ_ne_zero t (hroot.mpr hnil)
      rw [henclosing, if_pos (Nat.succ_pos t), Nat.add_sub_cancel,
        hparent t j outer rfl henclosing]
      rfl
  · obtain ⟨hdeep, hshallow⟩ := hfresh.miss hnone
    rw [hrun]
    exact GenCxt.hardLoop_spec h.tree h.editable.struct h.closed hi hdeep hshallow toks
      (show toks = [] ++ toks from rfl) h.length_lt (Nat.zero_le _) fun d k hk => by simp [opened] at hk

/-- **`ft_get_parent`** for a live phandle that the chain is not stale for. -/
theorem GenCxt.ftGetParent_spec (h : Open s.cxt toks nodes used need) (hends : s.genealogy.Ends)
    (hden : Denotes s.cxt toks phandle i) (hfresh : s.Fresh toks i) :
    ∃ parent s' more, s.ftGetParent phandle = some (parent, s') ∧
      Open s'.cxt toks (nodes ++ more) used need ∧ Genealogy.Ends s'.genealogy ∧
      (enclosing toks i = [] → parent = none) ∧
      ∀ j outer, enclosing toks i = j :: outer →
        ∃ ph, parent = some ph ∧ Denotes s'.cxt toks ph j := by
  obtain ⟨hnode, n, hi⟩ := hden
  obtain ⟨gen', hrun, hends'⟩ := GenCxt.getParent_spec h hends hi hfresh
  obtain ⟨more, hopen⟩ := @Open.getPhandle s.cxt used need toks nodes h
    ((enclosing toks i).head?.map (atomAddr s.cxt toks)) (by
      intro a ha
      obtain ⟨j, hj, rfl⟩ := Option.map_eq_some_iff.mp ha
      obtain ⟨m, hm⟩ := enclosing_isNode (List.mem_of_mem_head? hj)
      exact ⟨j, m, hm, rfl⟩)
  let found := s.found ((enclosing toks i).head?.map (atomAddr s.cxt toks), gen')
  refine ⟨found.1, found.2, more, ?_, hopen, hends', fun hnil => ?_, fun j outer henclosing => ?_⟩
  · rw [ftGetParent, hnode]
    exact congrArg (Option.map s.found) hrun
  · simp only [found, hnil]
    rfl
  · obtain ⟨ph, hph, hback, hrgn⟩ := ftGetPhandle_spec (hfresh.room j outer henclosing)
    obtain ⟨m, hm⟩ := enclosing_isNode (i := i) (x := j) (by
      rw [henclosing]
      exact List.mem_cons_self)
    simp only [found, henclosing]
    have hdenotes : Denotes (ftGetPhandle s.cxt (some (atomAddr s.cxt toks j))).2 toks ph j :=
      ⟨hback.trans (by rw [← hrgn]; rfl), m, hm⟩
    exact ⟨ph, hph, hdenotes⟩

/-- **One call** is answered right, and leaves an open context and a chain that ends. -/
theorem GenCall.step (hgood : GoodRealloc realloc used need) (h : Open s.cxt toks nodes used need)
    (hends : s.genealogy.Ends) (call : GenCall) (hsafe : call.Safe need s) :
    call.Answers s ∧ ∃ s' toks' nodes', call.run realloc s = some s' ∧
      Open s'.cxt toks' nodes' used need ∧ Genealogy.Ends s'.genealogy := by
  cases call with
  | call c =>
    obtain ⟨hc, htexts, hneed, hfits⟩ := hsafe
    obtain ⟨cxt', toks', nodes', hrun, -, hopen⟩ := h.call hgood c hc htexts hneed hfits
    refine ⟨trivial, ?_⟩
    cases c with
    | findDevice top path =>
      rw [Call.run, ← GenCxt.ftFindDevice_fst, Option.map_map] at hrun
      obtain ⟨r, hfound, rfl⟩ := Option.map_eq_some_iff.mp hrun
      exact ⟨r.2, toks', nodes', by rw [GenCall.run, hfound]; rfl, hopen,
        GenCxt.ftFindDevice_ends hends hfound⟩
    | setProp phandle name value =>
      cases hrun
      exact ⟨_, toks', nodes', rfl, hopen, hends⟩
    | createNode parent name =>
      cases hrun
      exact ⟨_, toks', nodes', rfl, hopen, hends⟩
  | getParent phandle =>
    by_cases hden : ∃ i, Denotes s.cxt toks phandle i
    · obtain ⟨i, hden⟩ := hden
      obtain ⟨parent, s', more, hrun, hopen, hends', hroot, hparent⟩ :=
        GenCxt.ftGetParent_spec h hends hden (hsafe toks i h.tree hden)
      refine ⟨⟨toks, h.tree, h.closed, fun k hk => ?_⟩, s', toks, nodes ++ more, ?_, hopen, hends'⟩
      · have hsame := (h.denotes_iff.mp hk).2
        rw [(h.denotes_iff.mp hden).2] at hsame
        obtain rfl := Option.some.inj hsame
        exact ⟨parent, s', hrun, hroot, hparent⟩
      · rw [GenCall.run, hrun]
        rfl
    · have hnone : ftNodePh2node s.cxt phandle = none := by
        cases hnode : ftNodePh2node s.cxt phandle with
        | none => rfl
        | some a => exact absurd (h.shows.phandles hnode) hden
      refine ⟨⟨toks, h.tree, h.closed, fun k hk => absurd ⟨k, hk⟩ hden⟩, s, toks, nodes, ?_, h, hends⟩
      rw [GenCall.run, GenCxt.ftGetParent, hnone]
      rfl

/-! ## §5 Runs -/

theorem GenCxt.run_right (hgood : GoodRealloc realloc used need) (calls : List GenCall) :
    ∀ {s : GenCxt} {toks : List Tok} {nodes : List Nat}, Open s.cxt toks nodes used need →
    s.genealogy.Ends → GenSafeRun realloc need s calls → ParentsRight realloc s calls := by
  induction calls with
  | nil => exact fun _ _ _ => trivial
  | cons call calls ih =>
    intro s toks nodes h hends hsafe
    obtain ⟨hcall, hrest⟩ := hsafe
    obtain ⟨hanswer, s', toks', nodes', hrun, hopen, hends'⟩ :=
      GenCall.step hgood h hends call hcall
    exact ⟨hanswer, s', hrun, ih hopen hends' (hrest s' hrun)⟩

theorem runAll_cons {s s' : GenCxt} {call : GenCall} {calls : List GenCall}
    (h : call.run realloc s = some s') :
    (call :: calls).foldlM (fun s c => GenCall.run realloc s c) s
      = calls.foldlM (fun s c => GenCall.run realloc s c) s' := by
  rw [List.foldlM_cons, h]
  rfl

/-- A run up to a call: the call is answered right. -/
theorem ParentsRight.answers {call : GenCall} {rest : List GenCall} (calls : List GenCall) :
    ∀ {s : GenCxt}, ParentsRight realloc s (calls ++ call :: rest) →
    ∃ s', calls.foldlM (fun s c => GenCall.run realloc s c) s = some s' ∧ call.Answers s' := by
  induction calls with
  | nil => exact fun h => ⟨_, rfl, h.1⟩
  | cons c calls ih =>
    rintro s ⟨-, s₁, hrun, hrest⟩
    obtain ⟨s', hruns, hanswer⟩ := ih hrest
    exact ⟨s', (runAll_cons hrun).trans hruns, hanswer⟩

/-- A blob of 110 bytes: a root with the nodes `a`, which has a node `c`, and `b`. -/
def cousinsBlob : List UInt8 :=
  [0xd0, 0x0d, 0xfe, 0xed] ++ wordBytes 110 ++ wordBytes 56 ++ wordBytes 108 ++ wordBytes 40
    ++ wordBytes 16 ++ wordBytes 16 ++ wordBytes 0 ++ wordBytes 2 ++ wordBytes 0
    ++ List.replicate 16 0
    ++ wordBytes 1 ++ wordBytes 0 ++ wordBytes 1 ++ [97, 0, 0, 0] ++ wordBytes 1 ++ [99, 0, 0, 0]
    ++ wordBytes 2 ++ wordBytes 2 ++ wordBytes 1 ++ [98, 0, 0, 0] ++ wordBytes 2 ++ wordBytes 2
    ++ wordBytes 9 ++ [97, 0]

def cousinsToks : List Tok :=
  [.beginNode [], .beginNode [97], .beginNode [99], .endNode, .endNode, .beginNode [98], .endNode,
    .endNode]

def cousinsMem : Bytes := fun a => cousinsBlob.getD (a - 4096) 0

def cousinsOpened : FtCxt := (ftOpen cousinsMem 4096 110 8).get (by decide +kernel)

theorem cousinsOpened_blob : Opened cousinsOpened cousinsToks := by
  have hstart : (cousinsOpened.rgn .struct).start = 4152 := by decide +kernel
  have hbegin : ∀ p n, word cousinsOpened.mem p = ofDtBeginNode →
      StringAt cousinsOpened.mem (p + 4) n → (Tok.beginNode n).At cousinsOpened p :=
    fun p n h h' => ⟨h, h'⟩
  have hend : ∀ p, word cousinsOpened.mem p = ofDtEndNode → Tok.endNode.At cousinsOpened p :=
    fun p h => h
  refine ⟨⟨?_, by decide +kernel, by decide +kernel⟩, by decide, by decide +kernel,
    ⟨by decide +kernel, by decide +kernel, by decide +kernel, Or.inr (by decide +kernel)⟩,
    Or.inl (by decide +kernel)⟩
  rw [hstart]
  refine ⟨hbegin _ _ ?_ ?_, hbegin _ _ ?_ ?_, hbegin _ _ ?_ ?_, hend _ ?_, hend _ ?_,
    hbegin _ _ ?_ ?_, hend _ ?_, hend _ ?_, trivial⟩ <;> decide +kernel

theorem cousins_good : GoodRealloc fixedRealloc cousinsOpened.Uses (2 ^ 20) := by
  refine fixedRealloc_beside (by decide +kernel) fun r => ?_
  cases r with
  | rsvmap => decide +kernel
  | struct => decide +kernel
  | strings => decide +kernel

/-- The chain is left by the search for `b`; then the second value of `a` moves `c` to where `b`
was. -/
def cousinsRun : List GenCall :=
  [.call (.findDevice none [47, 97]), .call (.findDevice none [47, 97, 47, 99]),
    .call (.setProp 1 [97] [1, 2, 3, 4]), .call (.findDevice none [47, 98]),
    .call (.setProp 1 [97] (List.replicate 20 1))]

def staleGen : GenCxt :=
  (cousinsRun.foldlM (fun s c => GenCall.run fixedRealloc s c) ⟨cousinsOpened, fun _ => none⟩).get
    (by decide +kernel)

def staleToks : List Tok :=
  [.beginNode [], .beginNode [97], .prop [97] (List.replicate 20 1), .beginNode [99], .endNode,
    .endNode, .beginNode [98], .endNode, .endNode]

theorem staleGen_holds : HoldsTree staleGen.cxt staleToks := by
  have hstart : (staleGen.cxt.rgn .struct).start = 268435512 := by decide +kernel
  have hbegin : ∀ p n, word staleGen.cxt.mem p = ofDtBeginNode →
      StringAt staleGen.cxt.mem (p + 4) n → (Tok.beginNode n).At staleGen.cxt p :=
    fun p n h h' => ⟨h, h'⟩
  have hend : ∀ p, word staleGen.cxt.mem p = ofDtEndNode → Tok.endNode.At staleGen.cxt p :=
    fun p h => h
  have hprop : (Tok.prop [97] (List.replicate 20 1)).At staleGen.cxt 268435528 :=
    ⟨by decide +kernel, by decide +kernel, ⟨0, by decide +kernel, by decide +kernel,
      by decide +kernel⟩, by decide +kernel⟩
  refine ⟨?_, by decide +kernel, by decide +kernel⟩
  rw [hstart]
  refine ⟨hbegin _ _ ?_ ?_, hbegin _ _ ?_ ?_, hprop, hbegin _ _ ?_ ?_, hend _ ?_, hend _ ?_,
    hbegin _ _ ?_ ?_, hend _ ?_, hend _ ?_, trivial⟩ <;> decide +kernel

/-- A node that is not in the chain, up to the end of the chain. -/
theorem Genealogy.not_at {e : Nat} (hend : gen e = none) (hnot : ∀ t < e, gen t ≠ some node) :
    ∀ d, ¬ gen.At node d := by
  intro d hd
  rcases Nat.lt_trichotomy d e with hlt | rfl | hgt
  · exact hnot d hlt hd.2.1
  · exact absurd (hend.symm.trans hd.2.1) (by simp)
  · obtain ⟨a, ha, -⟩ := hd.2.2 e hgt
    exact absurd (hend.symm.trans ha) (by simp)

/-- The chain has the root, and what was `b`. -/
theorem staleGen_fresh : staleGen.Fresh staleToks 1 := by
  have hnone : ∀ d, ¬ staleGen.genealogy.At
      ((staleGen.cxt.rgn .struct).start + offsetOf staleToks 1) d := by
    refine Genealogy.not_at (e := 2) (by decide +kernel) fun t ht => ?_
    interval_cases t <;> decide +kernel
  refine ⟨fun d hd => absurd hd (hnone d), fun _ => ⟨fun j hj m _ => ?_, by decide⟩,
    fun j outer hj => Or.inr (by decide +kernel)⟩
  obtain rfl : j = 0 := by omega
  decide

theorem cousinsRun_safe :
    GenSafeRun fixedRealloc (2 ^ 20) ⟨cousinsOpened, fun _ => none⟩
      (cousinsRun ++ [.getParent 1]) := by
  have hget {call : GenCall} {s s' : GenCxt} (h : call.run fixedRealloc s = some s')
      (hsome : (call.run fixedRealloc s).isSome) : s' = (call.run fixedRealloc s).get hsome := by
    rw [Option.get_of_eq_some _ h]
  refine ⟨⟨by rw [Call.Safe]; decide +kernel, by rw [Call.Texts]; decide, by decide,
    by decide +kernel⟩, fun s₁ h₁ => ?_⟩
  obtain rfl := hget h₁ (by decide +kernel)
  refine ⟨⟨by rw [Call.Safe]; decide +kernel, by rw [Call.Texts]; decide, by decide,
    by decide +kernel⟩, fun s₂ h₂ => ?_⟩
  obtain rfl := hget h₂ (by decide +kernel)
  refine ⟨⟨Or.inr (Or.inl (by decide +kernel)), by rw [Call.Texts]; decide, by decide,
    by decide +kernel⟩, fun s₃ h₃ => ?_⟩
  obtain rfl := hget h₃ (by decide +kernel)
  refine ⟨⟨by rw [Call.Safe]; decide +kernel, by rw [Call.Texts]; decide, by decide,
    by decide +kernel⟩, fun s₄ h₄ => ?_⟩
  obtain rfl := hget h₄ (by decide +kernel)
  refine ⟨⟨Or.inr (Or.inl (by decide +kernel)), by rw [Call.Texts]; decide, by decide,
    by decide +kernel⟩, fun s₅ h₅ => ?_⟩
  have hrun : cousinsRun.foldlM (fun s c => GenCall.run fixedRealloc s c)
      ⟨cousinsOpened, fun _ => none⟩ = some s₅ := by
    rw [cousinsRun, runAll_cons h₁, runAll_cons h₂, runAll_cons h₃, runAll_cons h₄, runAll_cons h₅]
    exact List.foldlM_nil
  obtain rfl : s₅ = staleGen := by rw [staleGen, Option.get_of_eq_some _ hrun]
  refine ⟨fun toks i htree hden => ?_, fun _ _ => trivial⟩
  obtain rfl := htree.unique staleGen_holds
  obtain ⟨hnode, n, hi⟩ := hden
  have hfirst : ftNodePh2node staleGen.cxt 1
      = some ((staleGen.cxt.rgn .struct).start + offsetOf staleToks 1) := by decide +kernel
  have hsame := Option.some.inj (hnode.symm.trans hfirst)
  obtain rfl : i = 1 := offsetOf_inj hi.lt (by decide) (by omega)
  exact staleGen_fresh

end LiloBoot.DevTree
