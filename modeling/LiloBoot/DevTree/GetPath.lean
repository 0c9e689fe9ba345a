/-
LiloBoot.DevTree.GetPath — `ft_get_path`, with the `strncpy` of `bootheader/ps3/string.S`.

The path is built in the buffer one component at a time. This `strncpy` stops behind
the NUL, so what the last byte of the buffer held before the call is still there when
`ft_get_path` reads it to see whether a component was cut. `path_comp` is left when a
node lies deeper than the array is long; that is `none`.
-/
import LiloBoot.DevTree.FindTheorems

namespace LiloBoot.DevTree

open LiloBoot.Memory

/-! ## §1 Definitions -/

/-- `strncpy(dst, src, n)`: there is no padding. -/
def strncpy : Bytes → Nat → Nat → Nat → Bytes
  | mem, _, _, 0 => mem
  | mem, dst, src, n + 1 =>
    if mem src = 0 then store mem dst [0]
    else strncpy (store mem dst [mem src]) (dst + 1) (src + 1) n

/-- The loop over the atoms: `depth` and `path_comp` behind it, or NULL. -/
def pathCompLoop (cxt : FtCxt) (node : Nat) :
    Nat → Nat → Int → (Nat → Nat) → Option (Option (Int × (Nat → Nat)))
  | 0, _, depth, pathComp => some (some (depth, pathComp))
  | fuel + 1, p, depth, pathComp =>
    match ftNext cxt p with
    | none => some (some (depth, pathComp))
    | some (next, .beginNode name _) =>
      if depth < 0 ∨ (ftMaxDepth : Int) ≤ depth then none
      else
        let pathComp := Function.update pathComp depth.toNat name
        if p = node then some (some (depth + 1, pathComp))
        else pathCompLoop cxt node fuel next (depth + 1) pathComp
    | some (next, .endNode) =>
      if depth - 1 = 0 then some none else pathCompLoop cxt node fuel next (depth - 1) pathComp
    | some (next, _) => pathCompLoop cxt node fuel next depth pathComp

/-- The loop over the components: whether it comes to its end, and the memory. -/
def pathLoop : List Nat → Nat → Nat → Bytes → Bool × Bytes
  | [], _, _, mem => (true, mem)
  | comp :: comps, pos, len, mem =>
    if len ≤ 1 then (false, mem)
    else
      let mem := store mem pos [47]
      let pos := pos + 1
      let len := len - 1
      let mem := strncpy mem pos comp len
      if mem (pos + (len - 1)) ≠ 0 then (false, mem)
      else
        let thisLen := strlen mem pos
        pathLoop comps (pos + thisLen) (len - thisLen) mem

/-- `ft_get_path(cxt, phandle, buf, len)`: what it returns, and the memory. -/
def ftGetPath (cxt : FtCxt) (phandle buf len : Nat) : Option (Option Nat × Bytes) :=
  match ftNodePh2node cxt phandle with
  | none => some (none, cxt.mem)
  | some node =>
    match pathCompLoop cxt node (2 ^ 32) (ftRootNode cxt) 0 (fun _ => 0) with
    | none => none
    | some none => some (none, cxt.mem)
    | some (some (depth, pathComp)) =>
      let r := pathLoop ((List.range' 1 (depth - 1).toNat).map pathComp) buf len cxt.mem
      some (if r.1 then some buf else none, r.2)

/-! ## §2 Paths -/

/-- The name of a node. -/
def nameOf (toks : List Tok) (i : Nat) : List UInt8 :=
  match toks[i]? with
  | some (.beginNode n) => n
  | _ => []

/-- The names on the way down to a node, without that of the root. -/
def pathNames (toks : List Tok) (i : Nat) : List (List UInt8) :=
  ((i :: enclosing toks i).reverse.map (nameOf toks)).tail

/-- Each name behind a slash. -/
def joined (names : List (List UInt8)) : List UInt8 := names.flatMap (47 :: ·)

/-- The full path of a node. -/
def fullPath (toks : List Tok) (i : Nat) : List UInt8 :=
  if pathNames toks i = [] then [47] else joined (pathNames toks i)

/-- A context that holds a tree with one root, not as deep as `path_comp` is long. -/
structure PathTree where
  cxt : FtCxt
  toks : List Tok
  holds : HoldsTree cxt toks
  space : (cxt.rgn .struct).stop < 2 ^ 32
  closed : nest 0 toks = some 0
  root : Nat
  rooted : ∀ {j n}, IsNode toks j n → root ∈ j :: enclosing toks j
  depth : ∀ {j n}, IsNode toks j n → (enclosing toks j).length < ftMaxDepth

/-- A call for a node of the tree, with a buffer beside the structure block. -/
structure PathCall where
  tree : PathTree
  phandle : Nat
  node : Nat
  denotes : Denotes tree.cxt tree.toks phandle node
  buf : Nat
  len : Nat
  len_pos : 1 ≤ len
  apart : buf + len ≤ (tree.cxt.rgn .struct).start ∨ (tree.cxt.rgn .struct).stop ≤ buf

/-- The call gives the path if it fits with its NUL, else NULL, and writes nothing outside the
buffer. -/
def PathCall.Right (c : PathCall) : Prop :=
  ∃ ret mem, ftGetPath c.tree.cxt c.phandle c.buf c.len = some (ret, mem) ∧
    ((fullPath c.tree.toks c.node).length < c.len →
      ret = some c.buf ∧ StringAt mem c.buf (fullPath c.tree.toks c.node)) ∧
    (c.len ≤ (fullPath c.tree.toks c.node).length → ret = none) ∧
    ∀ a, a < c.buf ∨ c.buf + c.len ≤ a → mem a = c.tree.cxt.mem a

/-- What the buffer must hold before the call. -/
def PathCall.Prepared (c : PathCall) : Prop :=
  if pathNames c.tree.toks c.node = [] then 2 ≤ c.len ∧ StringAt c.tree.cxt.mem c.buf [47]
  else (fullPath c.tree.toks c.node).length < c.len →
    c.tree.cxt.mem (c.buf + (c.len - 1)) = 0 ∨
      (pathNames c.tree.toks c.node).length = 1 ∧
        (fullPath c.tree.toks c.node).length + 1 = c.len

/-! ## §3 The buffer -/

variable {mem : Bytes} {dst src n pos len : Nat} {s text : List UInt8}

theorem store_nil (mem : Bytes) (p : Nat) : store mem p [] = mem := by
  funext a
  exact store_out (by rw [List.length_nil]; omega)

theorem store_cons (mem : Bytes) (p : Nat) (c : UInt8) (bytes : List UInt8) :
    store (store mem p [c]) (p + 1) bytes = store mem p (c :: bytes) := by
  funext a
  rcases Nat.lt_trichotomy a p with hlt | rfl | hgt
  · rw [store_out (Or.inl (by omega)), store_out (Or.inl hlt), store_out (Or.inl hlt)]
  · rw [store_out (Or.inl (by omega)), store, store, if_pos ⟨le_refl _, Nat.lt_succ_self _⟩,
      if_pos ⟨le_refl _, by rw [List.length_cons]; omega⟩, Nat.sub_self]
    rfl
  · obtain ⟨i, rfl⟩ : ∃ i, a = p + 1 + i := ⟨a - (p + 1), by omega⟩
    by_cases hin : i < bytes.length
    · rw [store_at _ _ _ i hin, show p + 1 + i = p + (i + 1) by omega,
        store_at _ _ (c :: bytes) (i + 1) (Nat.succ_lt_succ hin), List.getD_cons_succ]
    · rw [store_out (Or.inr (by omega)), store_out (Or.inr (by rw [List.length_singleton]; omega)),
        store_out (Or.inr (by rw [List.length_cons]; omega))]

/-- **`strncpy`** copies the string and its NUL, `n` bytes at most. -/
theorem strncpy_eq (s : List UInt8) : ∀ {mem : Bytes} {dst src n : Nat}, StringAt mem src s →
    dst + n ≤ src ∨ src + s.length < dst →
    strncpy mem dst src n = store mem dst ((s ++ [0]).take n) := by
  induction s with
  | nil =>
    intro mem dst src n hs _
    cases n with
    | zero => rw [strncpy, List.take_zero, store_nil]
    | succ n =>
      have hnul := hs.nul
      rw [List.length_nil, Nat.add_zero] at hnul
      rw [strncpy, if_pos hnul, List.nil_append, List.take_succ_cons, List.take_nil]
  | cons c s ih =>
    intro mem dst src n hs hapart
    cases n with
    | zero => rw [strncpy, List.take_zero, store_nil]
    | succ n =>
      rw [List.length_cons] at hapart
      obtain ⟨hc, hne⟩ := hs.head_ne
      have htail : StringAt (store mem dst [c]) (src + 1) s :=
        hs.tail.carried (carried_store (by rw [List.length_singleton]; omega))
      rw [strncpy, hc, if_neg hne, ih htail (by omega), store_cons, List.cons_append,
        List.take_succ_cons]

theorem StringAt.append {t : List UInt8} (hs : BytesAt mem pos s) (hno : 0 ∉ s)
    (ht : StringAt mem (pos + s.length) t) : StringAt mem pos (s ++ t) := by
  refine ⟨fun i hi => ?_, ?_, ?_⟩
  · rw [List.length_append] at hi
    rcases Nat.lt_or_ge i s.length with hlt | hge
    · rw [hs i hlt, List.getD_append _ _ _ _ hlt]
    · have hat := ht.bytes (i - s.length) (by omega)
      rw [show pos + s.length + (i - s.length) = pos + i by omega] at hat
      rw [hat, List.getD_append_right _ _ _ _ hge]
  · rw [List.length_append, ← Nat.add_assoc]
    exact ht.nul
  · rw [List.mem_append, not_or]
    exact ⟨hno, ht.noNul⟩

/-- A component whose name does not leave room for the NUL is cut, and has no NUL at the end. -/
theorem last_cut (hno : 0 ∉ s) (hlen : 0 < len) (hcut : len ≤ s.length) :
    store mem pos ((s ++ [0]).take len) (pos + (len - 1)) ≠ 0 := by
  have htake : (s ++ [0]).take len = s.take len := List.take_append_of_le_length hcut
  have hlength : (s.take len).length = len := List.length_take_of_le hcut
  rw [htake, store_at _ _ _ (len - 1) (by omega), List.getD_eq_getElem _ _ (by omega),
    List.getElem_take]
  exact fun hzero => hno (by rw [← hzero]; exact List.getElem_mem _)

/-- A component that fits, with its slash and its NUL. -/
theorem strncpy_fits {comp : Nat} (hs : StringAt mem comp s)
    (hapart : pos + len ≤ comp ∨ comp + s.length < pos) (hfits : s.length + 2 ≤ len) :
    strncpy (store mem pos [47]) (pos + 1) comp (len - 1) = store mem pos (47 :: (s ++ [0])) := by
  have hmoved : StringAt (store mem pos [47]) comp s :=
    hs.carried (carried_store (by rw [List.length_singleton]; omega))
  rw [strncpy_eq s hmoved (by omega), List.take_of_length_le (by
    rw [List.length_append, List.length_singleton]; omega), store_cons]

/-- The last byte behind a component that fits. -/
theorem last_fits (hfits : s.length + 2 ≤ len) :
    store mem pos (47 :: (s ++ [0])) (pos + (len - 1))
      = if s.length + 2 = len then 0 else mem (pos + (len - 1)) := by
  have hlength : (47 :: (s ++ [0]) : List UInt8).length = s.length + 2 := by
    rw [List.length_cons, List.length_append]
    rfl
  split
  · rw [store_at _ _ _ (len - 1) (by omega), List.getD_eq_getElem?_getD,
      show len - 1 = s.length + 1 by omega, List.getElem?_cons_succ,
      List.getElem?_append_right (le_refl _), Nat.sub_self]
    rfl
  · exact store_out (by omega)

theorem joined_cons (s : List UInt8) (names : List (List UInt8)) :
    joined (s :: names) = 47 :: s ++ joined names := List.flatMap_cons

theorem joined_length_eq_zero (names : List (List UInt8)) :
    (joined names).length = 0 ↔ names = [] := by
  cases names with
  | nil => exact ⟨fun _ => rfl, fun _ => rfl⟩
  | cons s names =>
    rw [joined_cons, List.length_append, List.length_cons]
    exact ⟨fun h => by omega, fun h => by cases h⟩

theorem stringAt_store (mem : Bytes) (p : Nat) (hno : 0 ∉ s) :
    StringAt (store mem p (s ++ [0])) p s := by
  have hlength : (s ++ [0]).length = s.length + 1 := List.length_append
  refine ⟨fun i hi => ?_, ?_, hno⟩
  · rw [store_at _ _ _ i (by omega), List.getD_append _ _ _ _ hi]
  · rw [store_at _ _ _ s.length (by omega), List.getD_append_right _ _ _ _ (le_refl _), Nat.sub_self]
    rfl

/-- **The loop over the components** comes to its end exactly if they fit and the last byte was 0
before, or there is one that fills the buffer. -/
theorem pathLoop_spec (names : List (List UInt8)) : ∀ {comps : List Nat} {pos len : Nat}
    {mem : Bytes}, 1 ≤ len →
    List.Forall₂ (fun a s => StringAt mem a s ∧ s.length < 2 ^ 32 ∧
      (pos + len ≤ a ∨ a + s.length < pos)) comps names →
    ∃ ok mem', pathLoop comps pos len mem = (ok, mem') ∧
      (∀ a, a < pos ∨ pos + len ≤ a → mem' a = mem a) ∧
      (ok = true ↔ names = [] ∨ (joined names).length < len ∧
        (mem (pos + (len - 1)) = 0 ∨ names.length = 1 ∧ (joined names).length + 1 = len)) ∧
      (ok = true → names ≠ [] ∨ mem pos = 0 → StringAt mem' pos (joined names)) := by
  induction names with
  | nil =>
    intro comps pos len mem _ hcomps
    cases hcomps
    refine ⟨true, mem, rfl, fun _ _ => rfl, by simp, fun _ hzero => ?_⟩
    exact ⟨fun i hi => absurd hi (Nat.not_lt_zero i), hzero.resolve_left fun h => h rfl,
      List.not_mem_nil⟩
  | cons s names ih =>
    intro comps pos len mem hlen hcomps
    obtain ⟨comp, comps, ⟨hs, hsmall, hapart⟩, hrest, rfl⟩ := List.forall₂_cons_right_iff.mp hcomps
    have hjoined : (joined (s :: names)).length = s.length + 1 + (joined names).length := by
      rw [joined_cons, List.length_append, List.length_cons]
    rw [hjoined, pathLoop]
    by_cases hshort : len ≤ 1
    · refine ⟨false, mem, by rw [if_pos hshort], fun _ _ => rfl, ?_, fun h => by cases h⟩
      refine ⟨fun h => (by cases h), ?_⟩
      rintro (h | ⟨h, -⟩)
      · cases h
      · omega
    rw [if_neg hshort]
    simp only
    rw [show pos + 1 + (len - 1 - 1) = pos + (len - 1) by omega]
    rcases Nat.lt_or_ge (s.length + 1) len with hroom | hcut
    · rw [strncpy_fits hs hapart hroom]
      obtain ⟨mem₂, hmem₂⟩ : ∃ mem₂, mem₂ = store mem pos (47 :: (s ++ [0])) := ⟨_, rfl⟩
      have hlast : mem₂ (pos + (len - 1))
          = if s.length + 2 = len then 0 else mem (pos + (len - 1)) := by
        rw [hmem₂, last_fits hroom]
      have hframe : ∀ a, a < pos ∨ pos + len ≤ a → mem₂ a = mem a := by
        intro a ha
        rw [hmem₂, store_out (by rw [List.length_cons, List.length_append, List.length_singleton]; omega)]
      have hname : StringAt mem₂ (pos + 1) s := by
        rw [hmem₂, ← store_cons]
        exact stringAt_store _ _ hs.noNul
      rw [← hmem₂, strlen_stringAt hname hsmall]
      by_cases hnul : mem₂ (pos + (len - 1)) = 0
      · rw [if_neg (not_not.mpr hnul)]
        obtain ⟨ok, mem', hrun, hframe', hok, htext⟩ := @ih comps (pos + 1 + s.length)
          (len - 1 - s.length) mem₂ (by omega) (hrest.imp fun a t ⟨ht, hsmall', hapart'⟩ =>
            ⟨ht.carried fun i hi => hframe _ (by omega), hsmall', by omega⟩)
        rw [show pos + 1 + s.length + (len - 1 - s.length - 1) = pos + (len - 1) by omega, hnul,
          eq_self, true_or, and_true] at hok
        refine ⟨ok, mem', hrun, fun a ha => ?_, ?_, fun h _ => ?_⟩
        · rw [hframe' a (by omega), hframe a ha]
        · have hempty := joined_length_eq_zero names
          rw [hok, List.length_cons]
          rw [hlast] at hnul
          split at hnul
          · -- the buffer is full: there is no room for another component
            constructor
            · intro hdone
              have hnames : names = [] := hdone.elim id fun h => hempty.mp (by omega)
              have hzero := hempty.mpr hnames
              exact Or.inr ⟨by omega, Or.inr ⟨by rw [hnames]; rfl, by omega⟩⟩
            · rintro (h | ⟨h, -⟩)
              · cases h
              · exact Or.inl (hempty.mp (by omega))
          · constructor
            · intro hdone
              have hroom' : (joined names).length < len - 1 - s.length :=
                hdone.elim (fun h => by rw [hempty.mpr h]; omega) id
              exact Or.inr ⟨by omega, Or.inl hnul⟩
            · rintro (h | ⟨h, -⟩)
              · cases h
              · exact Or.inr (by omega)
        · have hbytes : BytesAt mem' pos (47 :: s) := by
            intro i hi
            rw [List.length_cons] at hi
            have hat := store_at mem pos (47 :: (s ++ [0])) i (by
              rw [List.length_cons, List.length_append]; omega)
            rw [hframe' _ (Or.inl (by omega)), hmem₂, hat, ← List.cons_append,
              List.getD_append _ _ _ _ (by rw [List.length_cons]; exact hi)]
          have hno : 0 ∉ 47 :: s := by
            rw [List.mem_cons, not_or]
            exact ⟨by decide, hs.noNul⟩
          have hend : pos + (47 :: s : List UInt8).length = pos + 1 + s.length := by
            rw [List.length_cons]
            omega
          rw [joined_cons]
          refine StringAt.append hbytes hno ?_
          rw [hend]
          exact htext h (Or.inr hname.nul)
      · rw [if_pos hnul]
        refine ⟨false, mem₂, rfl, hframe, ⟨fun h => (by cases h), ?_⟩, fun h => by cases h⟩
        rw [hlast] at hnul
        split at hnul
        · exact absurd rfl hnul
        · rw [List.length_cons]
          rintro (h | ⟨-, hzero | ⟨hone, hexact⟩⟩)
          · cases h
          · exact absurd hzero hnul
          · have hzero := (joined_length_eq_zero names).mpr (List.length_eq_zero_iff.mp (by omega))
            omega
    · -- the component is cut
      have hmoved : StringAt (store mem pos [47]) comp s :=
        hs.carried (carried_store (by rw [List.length_singleton]; omega))
      have hlast := @last_cut (store mem pos [47]) (pos + 1) (len - 1) s hs.noNul (by omega) (by omega)
      rw [show pos + 1 + (len - 1 - 1) = pos + (len - 1) by omega] at hlast
      rw [strncpy_eq s hmoved (by omega), if_pos hlast]
      refine ⟨false, _, rfl, fun a ha => ?_, ?_, fun h => by cases h⟩
      · rw [store_out (by rw [List.length_take]; omega), store_out (by
          rw [List.length_singleton]; omega)]
      · refine ⟨fun h => (by cases h), ?_⟩
        rintro (h | ⟨h, -⟩)
        · cases h
        · omega

/-! ## §4 The open nodes -/

variable {toks front rest : List Tok} {i : Nat}

/-- An open node is one of before or begins in the atoms. -/
theorem opened_isNode (toks : List Tok) : ∀ {k : Nat} {stack : List Nat} {x : Nat},
    x ∈ opened k stack toks → x ∈ stack ∨ ∃ m n, x = k + m ∧ IsNode toks m n := by
  induction toks with
  | nil => exact fun h => Or.inl h
  | cons tok toks ih =>
    have hlater {k x : Nat} : (∃ m n, x = k + 1 + m ∧ IsNode toks m n) →
        ∃ m n, x = k + m ∧ IsNode (tok :: toks) m n := by
      rintro ⟨m, n, rfl, hm⟩
      exact ⟨m + 1, n, by omega, hm⟩
    intro k stack x hx
    cases tok with
    | beginNode n =>
      rcases ih hx with hin | hnode
      · rcases List.mem_cons.mp hin with rfl | hin
        · exact Or.inr ⟨0, n, rfl, rfl⟩
        · exact Or.inl hin
      · exact Or.inr (hlater hnode)
    | endNode => exact (ih hx).imp List.mem_of_mem_tail hlater
    | prop n w => exact (ih hx).imp_right hlater
    | nop => exact (ih hx).imp_right hlater

/-- Where node ends match, the depth is the number of open nodes. -/
theorem nest_opened (toks : List Tok) : ∀ {d d' k : Nat} {stack : List Nat},
    nest d toks = some d' → stack.length = d → (opened k stack toks).length = d' := by
  induction toks with
  | nil =>
    intro d d' k stack h hstack
    exact hstack.trans (Option.some.inj h)
  | cons tok toks ih =>
    intro d d' k stack h hstack
    cases tok with
    | beginNode n => exact ih h (by rw [List.length_cons, hstack])
    | endNode =>
      rw [nest] at h
      by_cases hd : d = 0
      · rw [if_pos hd] at h
        cases h
      · rw [if_neg hd] at h
        exact ih h (by rw [List.length_tail, hstack])
    | prop n w => exact ih h hstack
    | nop => exact ih h hstack

/-- An end ends a node. -/
theorem opened_ne_nil (h : nest 0 (front ++ .endNode :: rest) = some 0) : opened 0 [] front ≠ [] := by
  rw [nest_append, Option.bind_eq_some_iff] at h
  obtain ⟨d, hfront, hrest⟩ := h
  have hlength := nest_opened front (k := 0) hfront (rfl : ([] : List Nat).length = 0)
  intro hnil
  rw [hnil] at hlength
  obtain rfl : d = 0 := hlength.symm
  cases hrest

theorem enclosing_isNode {x : Nat} (h : x ∈ enclosing toks i) : ∃ n, IsNode toks x n := by
  rcases opened_isNode _ h with hin | ⟨m, n, rfl, hm⟩
  · cases hin
  · have hlt := hm.lt
    rw [IsNode, List.getElem?_take] at hm
    split at hm
    · exact ⟨n, by rw [Nat.zero_add]; exact hm⟩
    · cases hm

/-! ## §5 The walk -/

/-- The address of atom `i`. -/
def PathTree.addr (t : PathTree) (i : Nat) : Nat := (t.cxt.rgn .struct).start + offsetOf t.toks i

/-- `depth` and `path_comp` are about the open nodes. -/
structure Walking (t : PathTree) (stack : List Nat) (depth : Int) (pathComp : Nat → Nat) : Prop where
  depth : depth = stack.length
  comps : ∀ {d k}, stack.reverse[d]? = some k → pathComp d = t.addr k + 4

variable {t : PathTree} {stack : List Nat} {depth : Int} {pathComp : Nat → Nat}

theorem Walking.push (h : Walking t stack depth pathComp) (k : Nat) :
    Walking t (k :: stack) (depth + 1) (Function.update pathComp depth.toNat (t.addr k + 4)) := by
  have hdepth := h.depth
  refine ⟨by rw [hdepth, List.length_cons]; rfl, fun {d x} hx => ?_⟩
  rw [List.reverse_cons] at hx
  rcases Nat.lt_trichotomy d stack.length with hlt | rfl | hgt
  · rw [List.getElem?_append_left (by rw [List.length_reverse]; exact hlt)] at hx
    rw [Function.update_of_ne (by omega)]
    exact h.comps hx
  · rw [List.getElem?_append_right (by rw [List.length_reverse]), List.length_reverse,
      Nat.sub_self] at hx
    obtain rfl := Option.some.inj hx
    rw [hdepth, Int.toNat_natCast, Function.update_self]
  · rw [List.getElem?_eq_none (by
      rw [List.length_append, List.length_reverse, List.length_singleton]; omega)] at hx
    cases hx

theorem Walking.pop {b : Nat} (h : Walking t (b :: stack) depth pathComp) :
    Walking t stack (depth - 1) pathComp := by
  have hdepth := h.depth
  rw [List.length_cons] at hdepth
  refine ⟨by omega, fun {d k} hk => h.comps ?_⟩
  have hlt := (List.getElem?_eq_some_iff.mp hk).1
  rw [List.reverse_cons, List.getElem?_append_left hlt]
  exact hk

/-- The root is not closed before a node that comes later. -/
theorem PathTree.not_last (t : PathTree) {n : List UInt8} {b : Nat}
    (htoks : t.toks = front ++ .endNode :: rest) (hstack : opened 0 [] front = b :: stack)
    (hi : IsNode t.toks i n) (hbehind : front.length ≤ i) : stack ≠ [] := by
  rintro rfl
  have hne : i ≠ front.length := by
    rintro rfl
    rw [htoks, IsNode, List.getElem?_append_right (le_refl _), Nat.sub_self] at hi
    cases hi
  obtain ⟨m, rfl⟩ : ∃ m, i = front.length + (m + 1) := ⟨i - front.length - 1, by omega⟩
  have hb : b ∈ opened 0 [] front := by
    rw [hstack]
    exact List.mem_singleton_self b
  have hlt : b < front.length := by
    have hbound := opened_bound front (fun y hy => absurd hy List.not_mem_nil) b hb
    omega
  rw [← enclosing_front front (.endNode :: rest), ← htoks] at hb
  obtain ⟨nb, hnb⟩ := enclosing_isNode hb
  have hle : t.root ≤ b := by
    rcases List.mem_cons.mp (t.rooted hnb) with heq | hin
    · exact Nat.le_of_eq heq
    · exact Nat.le_of_lt (enclosing_lt _ _ _ hin)
  have hge : front.length ≤ t.root := by
    rcases List.mem_cons.mp (t.rooted hi) with heq | hin
    · omega
    · rw [enclosing, htoks, List.take_length_add_append, List.take_succ_cons, opened_append, hstack,
        opened, List.tail_cons] at hin
      rcases opened_mem _ hin with h | h
      · cases h
      · omega
  omega

/-- **The loop over the atoms** comes to the node with the names above it in `path_comp`. -/
theorem pathCompLoop_spec (t : PathTree) {n : List UInt8} (hi : IsNode t.toks i n)
    (rest : List Tok) : ∀ {front : List Tok} {fuel : Nat} {depth : Int} {pathComp : Nat → Nat},
    t.toks = front ++ rest → rest.length < fuel → front.length ≤ i →
    Walking t (opened 0 [] front) depth pathComp →
    ∃ depth' pathComp', pathCompLoop t.cxt (t.addr i) fuel
        ((t.cxt.rgn .struct).start + toksSize front) depth pathComp = some (some (depth', pathComp')) ∧
      Walking t (i :: enclosing t.toks i) depth' pathComp' := by
  induction rest with
  | nil =>
    intro front fuel depth pathComp htoks _ hbehind _
    have hlt := hi.lt
    rw [htoks, List.append_nil] at hlt
    omega
  | cons tok rest ih =>
    intro front fuel depth pathComp htoks hfuel hbehind h
    rw [List.length_cons] at hfuel
    obtain ⟨fuel, rfl⟩ : ∃ k, fuel = k + 1 := ⟨fuel - 1, by omega⟩
    have htoks' : t.toks = (front ++ [tok]) ++ rest := by
      rw [htoks, List.append_assoc]
      rfl
    have hlength : (front ++ [tok]).length = front.length + 1 := List.length_append
    have hholds : HoldsTree t.cxt (front ++ tok :: rest) := htoks ▸ t.holds
    have hopened : opened 0 [] (front ++ [tok]) = opened front.length (opened 0 [] front) [tok] := by
      rw [opened_append, Nat.zero_add]
    have hother : (∀ m, tok ≠ .beginNode m) → (front ++ [tok]).length ≤ i := by
      intro hnot
      rw [hlength]
      by_contra hge
      obtain rfl : i = front.length := by omega
      rw [htoks, IsNode, List.getElem?_append_right (le_refl _), Nat.sub_self] at hi
      exact hnot n (Option.some.inj hi)
    rw [pathCompLoop, hholds.step t.space]
    cases tok with
    | prop m w =>
      exact ih htoks' (by omega) (hother fun _ => by simp) (by rw [hopened]; exact h)
    | nop => exact ih htoks' (by omega) (hother fun _ => by simp) (by rw [hopened]; exact h)
    | endNode =>
      simp only [Tok.atom]
      obtain ⟨b, stack, hstack⟩ := List.exists_cons_of_ne_nil (opened_ne_nil (htoks ▸ t.closed))
      have hnonempty := t.not_last htoks hstack hi hbehind
      have hdepth := h.depth
      rw [hstack] at h hdepth
      rw [List.length_cons] at hdepth
      have hpos := List.length_pos_iff.mpr hnonempty
      rw [if_neg (by omega)]
      exact ih htoks' (by omega) (hother fun _ => by simp) (by
        rw [hopened, hstack]
        exact h.pop)
    | beginNode m =>
      simp only [Tok.atom]
      have hnode : IsNode t.toks front.length m := by
        rw [htoks, IsNode, List.getElem?_append_right (le_refl _), Nat.sub_self]
        rfl
      have hdeep := t.depth hnode
      rw [htoks, enclosing_front] at hdeep
      have hdepth := h.depth
      have haddr : (t.cxt.rgn .struct).start + toksSize front = t.addr front.length := by
        rw [PathTree.addr, htoks, offsetOf, List.take_left]
      have hpush := h.push front.length
      rw [if_neg (by omega), haddr]
      by_cases hhere : t.addr front.length = t.addr i
      · rw [if_pos hhere]
        obtain rfl : front.length = i :=
          offsetOf_inj hnode.lt hi.lt (Nat.add_left_cancel hhere)
        rw [htoks, enclosing_front]
        exact ⟨_, _, rfl, hpush⟩
      · rw [if_neg hhere]
        have hne : i ≠ front.length := fun heq => hhere (by rw [heq])
        exact ih htoks' (by omega) (by omega) (by
          rw [hopened]
          exact hpush)

/-! ## §6 The call -/

theorem nameOf_eq {n : List UInt8} (h : IsNode toks i n) : nameOf toks i = n := by
  rw [nameOf, h]

namespace PathCall

variable (c : PathCall)

/-- The names of the path stand in the structure block, beside the buffer. -/
theorem names_at {below : List Nat} (h : ∀ k ∈ below, ∃ n, IsNode c.tree.toks k n) :
    List.Forall₂ (fun a s => StringAt c.tree.cxt.mem a s ∧ s.length < 2 ^ 32 ∧
      (c.buf + c.len ≤ a ∨ a + s.length < c.buf))
      (below.map fun k => c.tree.addr k + 4) (below.map (nameOf c.tree.toks)) := by
  induction below with
  | nil => exact List.Forall₂.nil
  | cons k below ih =>
    rw [List.forall_mem_cons] at h
    obtain ⟨⟨n, hn⟩, hrest⟩ := h
    refine List.Forall₂.cons ?_ (ih hrest)
    obtain ⟨hname, hin⟩ := c.tree.holds.nameAt hn
    have hspace := c.tree.space
    have hapart := c.apart
    rw [FtRegion.stop] at hspace hapart
    have haddr : c.tree.addr k = (c.tree.cxt.rgn .struct).start + offsetOf c.tree.toks k := rfl
    simp only [nameOf_eq hn, haddr]
    exact ⟨hname, by omega, by omega⟩

/-- **The call** runs the loop over the names of the path. -/
theorem run_eq : ∃ comps,
    ftGetPath c.tree.cxt c.phandle c.buf c.len =
      some (if (pathLoop comps c.buf c.len c.tree.cxt.mem).1 then some c.buf else none,
        (pathLoop comps c.buf c.len c.tree.cxt.mem).2) ∧
    List.Forall₂ (fun a s => StringAt c.tree.cxt.mem a s ∧ s.length < 2 ^ 32 ∧
      (c.buf + c.len ≤ a ∨ a + s.length < c.buf)) comps (pathNames c.tree.toks c.node) := by
  obtain ⟨hnode, n, hn⟩ := c.denotes
  have hlength : c.tree.toks.length < 2 ^ 32 := by
    have hsize := c.tree.holds.size
    have hspace := c.tree.space
    have hbound := length_le_toksSize c.tree.toks
    rw [FtRegion.stop] at hspace
    omega
  obtain ⟨depth, pathComp, hwalk, hat⟩ := @pathCompLoop_spec c.node c.tree n hn c.tree.toks []
    (2 ^ 32) 0 (fun _ => 0) rfl hlength (Nat.zero_le _) ⟨rfl, fun {d k} hk => by cases hk⟩
  obtain ⟨root, below, hdown⟩ : ∃ root below,
      (c.node :: enclosing c.tree.toks c.node).reverse = root :: below :=
    List.exists_cons_of_ne_nil (by simp)
  have hdepth : (depth - 1).toNat = below.length := by
    have hsum := congrArg List.length hdown
    rw [List.length_reverse, List.length_cons] at hsum
    have hcount := hat.depth
    rw [List.length_cons, hsum, List.length_cons] at hcount
    omega
  have hcomps : (List.range' 1 (depth - 1).toNat).map pathComp
      = below.map fun k => c.tree.addr k + 4 := by
    rw [hdepth]
    apply List.ext_getElem
    · rw [List.length_map, List.length_map, List.length_range']
    · intro d h1 h2
      rw [List.length_map] at h2
      rw [List.getElem_map, List.getElem_map, List.getElem_range', Nat.one_mul, Nat.add_comm 1 d]
      apply hat.comps
      rw [hdown, List.getElem?_cons_succ, List.getElem?_eq_getElem h2]
  have hnames : pathNames c.tree.toks c.node = below.map (nameOf c.tree.toks) := by
    rw [pathNames, hdown, List.map_cons, List.tail_cons]
  refine ⟨(List.range' 1 (depth - 1).toNat).map pathComp, ?_, ?_⟩
  · have hwalk : pathCompLoop c.tree.cxt ((c.tree.cxt.rgn .struct).start
        + offsetOf c.tree.toks c.node) (2 ^ 32) (ftRootNode c.tree.cxt) 0 (fun _ => 0)
        = some (some (depth, pathComp)) := hwalk
    rw [ftGetPath, hnode]
    simp only [hwalk]
  · rw [hcomps, hnames]
    refine c.names_at fun k hk => ?_
    have hmem : k ∈ c.node :: enclosing c.tree.toks c.node := by
      rw [← List.mem_reverse, hdown]
      exact List.mem_cons_of_mem _ hk
    rcases List.mem_cons.mp hmem with rfl | hin
    · exact ⟨n, hn⟩
    · exact enclosing_isNode hin

/-- The call of a node below the root. -/
theorem right_iff_of_names (hnames : pathNames c.tree.toks c.node ≠ []) :
    c.Right ↔ c.Prepared := by
  obtain ⟨comps, hrun, hcomps⟩ := c.run_eq
  obtain ⟨ok, mem, hloop, hframe, hok, htext⟩ := pathLoop_spec _ c.len_pos hcomps
  have hpath : fullPath c.tree.toks c.node = joined (pathNames c.tree.toks c.node) := if_neg hnames
  rw [Right, Prepared, if_neg hnames, hpath, hrun, hloop]
  rw [or_iff_right hnames] at hok
  constructor
  · rintro ⟨ret, mem', hret, hfits, -⟩ hlt
    cases hret
    have hsome := (hfits hlt).1
    cases ok with
    | true => exact (hok.mp rfl).2
    | false => cases hsome
  · intro hprepared
    refine ⟨_, _, rfl, fun hlt => ?_, fun hge => ?_, hframe⟩
    · have htrue := hok.mpr ⟨hlt, hprepared hlt⟩
      rw [if_pos htrue]
      exact ⟨rfl, htext htrue (Or.inl hnames)⟩
    · cases ok with
      | true => exact absurd (hok.mp rfl).1 (Nat.not_lt_of_le hge)
      | false => rfl

/-- The call of the root leaves the buffer as it was. -/
theorem right_iff_of_root (hnames : pathNames c.tree.toks c.node = []) : c.Right ↔ c.Prepared := by
  obtain ⟨comps, hrun, hcomps⟩ := c.run_eq
  rw [hnames] at hcomps
  cases hcomps
  have hpath : fullPath c.tree.toks c.node = [47] := if_pos hnames
  have hrun : ftGetPath c.tree.cxt c.phandle c.buf c.len = some (some c.buf, c.tree.cxt.mem) := hrun
  rw [Right, Prepared, if_pos hnames, hpath, hrun, List.length_singleton]
  constructor
  · rintro ⟨ret, mem, hret, hfits, hlong, -⟩
    cases hret
    have hlen : 1 < c.len := by
      by_contra hle
      cases hlong (Nat.le_of_not_lt hle)
    exact ⟨hlen, (hfits hlen).2⟩
  · rintro ⟨hlen, htext⟩
    exact ⟨_, _, rfl, fun _ => ⟨rfl, htext⟩, fun hle => absurd hlen (Nat.not_lt_of_le hle),
      fun _ _ => rfl⟩

end PathCall

/-- **`ft_get_path`** gives the path of a node, or NULL where it does not fit, exactly if the
buffer was prepared for it. -/
theorem getPath_right_iff (c : PathCall) : c.Right ↔ c.Prepared := by
  by_cases hnames : pathNames c.tree.toks c.node = []
  · exact c.right_iff_of_root hnames
  · exact c.right_iff_of_names hnames

/-! ## §7 A buffer that was used before -/

/-- The tree of two siblings, with the phandles 1 for the root and 2 for the node `b`; the memory
behind it is full of ones. -/
def usedCxt : FtCxt :=
  { siblingCxt with
    mem := fun a => if a < 8192 then siblingBlob.getD (a - 4096) 0 else 255
    nodeTbl := [4096, 4096 + offsetOf siblingToks 4] }

theorem usedCxt_at : ToksAt usedCxt 4096 siblingToks := by
  have hbegin : ∀ p n, word usedCxt.mem p = ofDtBeginNode → StringAt usedCxt.mem (p + 4) n →
      Tok.At usedCxt p (.beginNode n) := fun p n h h' => ⟨h, h'⟩
  have hend : ∀ p, word usedCxt.mem p = ofDtEndNode → Tok.At usedCxt p .endNode := fun p h => h
  refine ⟨hbegin _ _ ?_ ?_, hbegin _ _ ?_ ?_, hend _ ?_, hbegin _ _ ?_ ?_, hbegin _ _ ?_ ?_,
    hend _ ?_, hend _ ?_, hend _ ?_, trivial⟩ <;> decide +kernel

def usedTree : PathTree where
  cxt := usedCxt
  toks := siblingToks
  holds := ⟨usedCxt_at, by decide +kernel, by decide +kernel⟩
  space := by decide
  closed := by decide
  root := 0
  rooted := by
    intro j n hj
    have hall : ∀ k < 8, siblingToks[k]? = some .endNode ∨ 0 ∈ k :: enclosing siblingToks k := by
      decide
    refine (hall j hj.lt).resolve_left fun hend => ?_
    cases hj.symm.trans hend
  depth := @HeldTree.depth siblingTree

/-- The path `/a@1/b`, and 16 bytes for it. -/
def belowCall : PathCall where
  tree := usedTree
  phandle := 2
  node := 4
  denotes := ⟨by decide +kernel, [98], rfl⟩
  buf := 8192
  len := 16
  len_pos := by decide
  apart := Or.inr (by decide)

/-- The path `/`. -/
def rootCall : PathCall where
  tree := usedTree
  phandle := 1
  node := 0
  denotes := ⟨by decide +kernel, [], rfl⟩
  buf := 8192
  len := 16
  len_pos := by decide
  apart := Or.inr (by decide)

/-- **A path that fits** is refused, and that of the root is not written. -/
theorem used_buffer_wrong : ¬ belowCall.Right ∧ ¬ rootCall.Right := by
  have hbelow : pathNames belowCall.tree.toks belowCall.node ≠ [] := by decide
  have hroot : pathNames rootCall.tree.toks rootCall.node = [] := by decide
  refine ⟨fun h => ?_, fun h => ?_⟩
  · have hprepared := (belowCall.right_iff_of_names hbelow).mp h
    rw [PathCall.Prepared, if_neg hbelow] at hprepared
    revert hprepared
    decide +kernel
  · have hprepared := (rootCall.right_iff_of_root hroot).mp h
    rw [PathCall.Prepared, if_pos hroot] at hprepared
    revert hprepared
    decide +kernel

end LiloBoot.DevTree
