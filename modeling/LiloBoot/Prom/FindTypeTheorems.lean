/-
LiloBoot.Prom.FindTypeTheorems — what the search for devices of a type finds.

A visit counts a node by the text left in `ptype`, which is the node's own
only if the node has a value with its NUL among the first 32 bytes; otherwise
the end of an earlier value shows through (§1). A search that does not reach
the end of its array visits the whole preorder (§2), and the counted nodes are
those of the type exactly if every node reads right (§3).
-/
import LiloBoot.Prom.FindType

namespace LiloBoot.Prom

/-! ## §1 One comparison -/

section Compare

variable {type ptype left v : List UInt8}

theorem strcmpEq_none_iff : strcmpEq type ptype = none ↔ ptype <+: type := by
  induction ptype generalizing type with
  | nil => simp [strcmpEq]
  | cons b ptype ih =>
    cases type with
    | nil => simp [strcmpEq]
    | cons c type =>
      by_cases h : c = b
      · simp [strcmpEq, h, ih, List.cons_prefix_cons]
      · simp only [strcmpEq, if_neg h, List.cons_prefix_cons, Ne.symm h]
        simp

theorem strcmpEq_true_iff : strcmpEq type ptype = some true ↔ type ++ [0] <+: ptype := by
  induction ptype generalizing type with
  | nil => simp [strcmpEq]
  | cons b ptype ih =>
    cases type with
    | nil =>
      simp only [strcmpEq, Option.some.injEq, beq_iff_eq, List.nil_append, List.cons_prefix_cons,
        List.nil_prefix, and_true]
      exact eq_comm
    | cons c type =>
      by_cases h : c = b
      · simp [strcmpEq, h, ih, List.cons_prefix_cons]
      · simp [strcmpEq, h, List.cons_prefix_cons]

/-- The comparison fails unless the buffer starts with the type, or with as
    much of it as there is room for. -/
theorem strcmpEq_false_iff :
    strcmpEq type ptype = some false ↔ ¬ (type ++ [0]).take ptype.length <+: ptype := by
  have hsplit : (type ++ [0]).take ptype.length <+: ptype ↔
      type ++ [0] <+: ptype ∨ ptype <+: type := by
    by_cases hlen : type.length < ptype.length
    · rw [List.take_of_length_le (by simp; omega)]
      constructor
      · exact Or.inl
      · rintro (h | h)
        · exact h
        · have := h.length_le
          omega
    · rw [List.take_append_of_le_length (by omega)]
      constructor
      · intro h
        have heq : type.take ptype.length = ptype := h.eq_of_length (by simp; omega)
        exact Or.inr (heq ▸ List.take_prefix _ _)
      · rintro (h | h)
        · have := h.length_le
          simp at this
          omega
        · rw [← List.prefix_iff_eq_take.mp h]
  rw [hsplit, ← strcmpEq_true_iff, ← strcmpEq_none_iff]
  cases h : strcmpEq type ptype with
  | none => simp
  | some b => cases b <;> simp

/-- The buffer does not tell the type, whole or cut off. -/
def Quiet (type ptype : List UInt8) : Prop := ¬ (type ++ [0]).take ptype.length <+: ptype

/-- A node's value makes the buffer tell the node's own type: nothing of the
    type is left over where the node has no value, and a value without a NUL
    among the first 32 bytes is the type and meets a NUL behind it, or does not
    make up the type with what is behind it. -/
def ReadsRight (type left : List UInt8) : Option (List UInt8) → Prop
  | none => Quiet type left
  | some v => 0 ∈ v.take left.length ∨ (v = type ∧ left[v.length]? = some 0) ∨
      (v ≠ type ∧ Quiet type (getprop (some v) left))

theorem getprop_length (value : Option (List UInt8)) : (getprop value ptype).length = ptype.length := by
  cases value with
  | none => rfl
  | some v =>
    simp only [getprop, List.length_take, List.length_append, List.length_drop]
    omega

/-- Before the first NUL of the buffer the comparison is that of the texts. -/
theorem strcmpEq_nul {s r : List UInt8} (hs : 0 ∉ s) (htype : 0 ∉ type) :
    strcmpEq type (s ++ 0 :: r) = some (decide (s = type)) := by
  induction s generalizing type with
  | nil =>
    cases type with
    | nil => rfl
    | cons c type =>
      have hc : c ≠ 0 := fun h => htype (by simp [h])
      simp [strcmpEq, hc]
  | cons b s ih =>
    cases type with
    | nil =>
      have hb : b ≠ 0 := fun h => hs (by simp [h])
      simp [strcmpEq, hb]
    | cons c type =>
      by_cases h : c = b
      · simp only [List.cons_append, strcmpEq, h, if_true]
        rw [ih (fun h => hs (List.mem_cons_of_mem _ h)) (fun h => htype (List.mem_cons_of_mem _ h))]
        simp
      · simp [strcmpEq, h, Ne.symm h]

theorem text_nul {s r : List UInt8} (hs : 0 ∉ s) : text (s ++ 0 :: r) = s := by
  induction s with
  | nil => rfl
  | cons b s ih =>
    have hb : b ≠ 0 := fun h => hs (by simp [h])
    have hrest := ih fun h => hs (List.mem_cons_of_mem _ h)
    simpa [text, hb] using hrest

theorem text_of_notMem {v : List UInt8} (h : 0 ∉ v) : text v = v := by
  refine List.takeWhile_eq_self_iff.mpr fun b hb => ?_
  simp only [decide_eq_true_eq, ne_eq]
  rintro rfl
  exact h hb

theorem nul_behind :
    [0] <+: left.drop v.length ∧ (v ++ [0]).length ≤ left.length ↔
      left[v.length]? = some 0 := by
  rw [← List.head?_drop]
  cases h : left.drop v.length with
  | nil => simp
  | cons b rest =>
    have hlen := congrArg List.length h
    simp only [List.length_drop, List.length_cons] at hlen
    simp only [List.cons_prefix_cons, List.nil_prefix, and_true, List.head?_cons,
      Option.some.injEq, List.length_append, List.length_singleton]
    constructor
    · exact fun h => h.1.symm
    · exact fun h => ⟨h.symm, by omega⟩

/-- A value that is the type but not at its end is cut off before the NUL. -/
theorem cut_type (hv : v ≠ type) (htext : text v = type) (hnul : 0 ∉ v.take left.length) :
    left.length ≤ type.length ∧ getprop (some v) left = type.take left.length := by
  have hmem : 0 ∈ v := by
    by_contra h
    exact hv (text_of_notMem h ▸ htext)
  obtain ⟨s, r, rfl, hs⟩ := List.eq_append_cons_of_mem hmem
  rw [text_nul hs] at htext
  subst htext
  have hlong : left.length ≤ s.length := by
    by_contra h
    refine hnul ?_
    rw [List.take_append, List.take_of_length_le (by omega)]
    obtain ⟨k, hk⟩ := Nat.exists_eq_add_of_lt (Nat.not_le.mp h)
    have hpos : left.length - s.length = k + 1 := by omega
    simp [hpos]
  refine ⟨hlong, ?_⟩
  rw [getprop, List.append_assoc, List.take_append_of_le_length hlong]

/-- **One node.** The comparison tells whether the node has the type exactly
    if the node's value reads right over what is left in the buffer. -/
theorem readsRight_iff (htype : 0 ∉ type) (n : DevNode) :
    strcmpEq type (getprop n.deviceType left) = some (decide (n.OfType type)) ↔
      ReadsRight type left n.deviceType := by
  cases hv : n.deviceType with
  | none =>
    have hnot : ¬ n.OfType type := by simp [DevNode.OfType, hv]
    simp only [hnot, decide_false, strcmpEq_false_iff, ReadsRight, Quiet, getprop]
  | some v =>
    have hof : n.OfType type ↔ text v = type := by simp [DevNode.OfType, hv]
    by_cases hnul : 0 ∈ v.take left.length
    · obtain ⟨s, r, htake, hs⟩ := List.eq_append_cons_of_mem hnul
      have hvsplit : v = s ++ 0 :: (r ++ v.drop left.length) := by
        rw [← List.cons_append, ← List.append_assoc, ← htake, List.take_append_drop]
      have htext : text v = s := by
        rw [hvsplit]
        exact text_nul hs
      have hbuf : getprop (some v) left =
          s ++ 0 :: (r ++ (left.drop v.length).take (left.length - v.length)) := by
        rw [getprop, List.take_append, htake, List.append_assoc, List.cons_append]
      simp only [hbuf, strcmpEq_nul hs htype, ReadsRight, hnul, true_or, hof, htext]
    · by_cases htypev : v = type
      · subst htypev
        have hyes : n.OfType v := hof.mpr (text_of_notMem htype)
        simp only [hyes, decide_true, ReadsRight, hnul, false_or, true_and, ne_eq,
          not_true_eq_false, false_and, or_false]
        rw [strcmpEq_true_iff, getprop, List.prefix_take_iff, List.prefix_append_right_inj]
        exact nul_behind
      · simp only [ReadsRight, hnul, htypev, false_and, false_or, ne_eq, not_false_eq_true,
          true_and]
        by_cases hyes : n.OfType type
        · -- The type's own NUL is behind the 32 bytes, so the buffer is all type.
          obtain ⟨hlong, hbuf⟩ := cut_type htypev (hof.mp hyes) hnul
          have hover : strcmpEq type (getprop (some v) left) = none := by
            rw [strcmpEq_none_iff, hbuf]
            exact List.take_prefix _ _
          have hfull : (type ++ [0]).take (getprop (some v) left).length
              <+: getprop (some v) left := by
            rw [getprop_length, List.take_append_of_le_length hlong, hbuf]
          simp [hover, Quiet, hfull]
        · simp only [hyes, decide_false, strcmpEq_false_iff, Quiet]

end Compare

/-! ## §2 The counted nodes -/

/-- The nodes that the comparisons count, if none of them runs over. -/
def counted (type : List UInt8) : List UInt8 → List DevNode → Option (List DevNode)
  | _, [] => some []
  | ptype, n :: ns =>
    let ptype := getprop n.deviceType ptype
    match strcmpEq type ptype with
    | none => none
    | some true => (counted type ptype ns).map (n :: ·)
    | some false => counted type ptype ns

/-- What the values of the nodes before leave in the buffer. -/
def leftOver (ptype : List UInt8) (before : List DevNode) : List UInt8 :=
  before.foldl (fun p n => getprop n.deviceType p) ptype

/-- Every node of the list reads right over what is left by those before it. -/
def AllRight (type ptype : List UInt8) (ns : List DevNode) : Prop :=
  ∀ before n after, ns = before ++ n :: after →
    ReadsRight type (leftOver ptype before) n.deviceType

section Counted

variable {type ptype : List UInt8} {n : DevNode} {ns c : List DevNode}

theorem allRight_cons : AllRight type ptype (n :: ns) ↔
    ReadsRight type ptype n.deviceType ∧ AllRight type (getprop n.deviceType ptype) ns := by
  constructor
  · intro h
    refine ⟨h [] n ns rfl, fun before m after hsplit => ?_⟩
    exact h (n :: before) m after (by rw [hsplit, List.cons_append])
  · rintro ⟨hn, hns⟩ before m after hsplit
    cases before with
    | nil =>
      cases hsplit
      exact hn
    | cons b before =>
      cases hsplit
      exact hns before m after rfl

theorem counted_of_allRight (htype : 0 ∉ type) (h : AllRight type ptype ns) :
    counted type ptype ns = some (ns.filter (fun n => n.OfType type)) := by
  induction ns generalizing ptype with
  | nil => rfl
  | cons n ns ih =>
    obtain ⟨hn, hns⟩ := allRight_cons.mp h
    rw [← readsRight_iff htype] at hn
    by_cases hof : n.OfType type
    · simp [counted, hn, hof, ih hns]
    · simp [counted, hn, hof, ih hns]

theorem counted_subset (h : counted type ptype ns = some c) : c ⊆ ns := by
  induction ns generalizing ptype c with
  | nil =>
    cases h
    exact List.Subset.refl _
  | cons n ns ih =>
    rw [counted] at h
    cases hcmp : strcmpEq type (getprop n.deviceType ptype) with
    | none => simp [hcmp] at h
    | some b =>
      cases b with
      | true =>
        simp only [hcmp, Option.map_eq_some_iff] at h
        obtain ⟨c', h', rfl⟩ := h
        exact List.cons_subset_cons n (ih h')
      | false =>
        simp only [hcmp] at h
        exact List.subset_cons_of_subset n (ih h)

/-- Among nodes with handles of their own, counting those of the type means
    that each of them reads right. -/
theorem allRight_of_counted (htype : 0 ∉ type) (hdist : (ns.map DevNode.handle).Nodup)
    (h : counted type ptype ns = some c)
    (hc : c.map DevNode.handle = (ns.filter (fun n => n.OfType type)).map DevNode.handle) :
    AllRight type ptype ns := by
  induction ns generalizing ptype c with
  | nil =>
    intro before n after hsplit
    simp at hsplit
  | cons n ns ih =>
    rw [List.map_cons, List.nodup_cons] at hdist
    obtain ⟨hnew, hdist⟩ := hdist
    rw [allRight_cons, ← readsRight_iff htype]
    rw [counted] at h
    cases hcmp : strcmpEq type (getprop n.deviceType ptype) with
    | none => simp [hcmp] at h
    | some b =>
      cases b with
      | true =>
        simp only [hcmp, Option.map_eq_some_iff] at h
        obtain ⟨c', h', rfl⟩ := h
        by_cases hof : n.OfType type
        · simp only [hof, decide_true, List.filter_cons_of_pos, List.map_cons,
            List.cons.injEq, true_and] at hc
          exact ⟨by simp [hof], ih hdist h' hc⟩
        · -- The counted node would have the handle of a later one.
          simp only [hof, decide_false, Bool.false_eq_true, not_false_eq_true,
            List.filter_cons_of_neg, List.map_cons] at hc
          have hin : n.handle ∈ (ns.filter (fun n => n.OfType type)).map DevNode.handle := by
            rw [← hc]
            exact List.mem_cons_self
          exact absurd (List.map_subset _ (List.filter_subset_self ns) hin) hnew
      | false =>
        simp only [hcmp] at h
        by_cases hof : n.OfType type
        · -- The node left out would have to be counted later.
          simp only [hof, decide_true, List.filter_cons_of_pos, List.map_cons] at hc
          have hin : n.handle ∈ c.map DevNode.handle := by
            rw [hc]
            exact List.mem_cons_self
          exact absurd (List.map_subset _ (counted_subset h) hin) hnew
        · simp only [hof, decide_false, Bool.false_eq_true, not_false_eq_true,
            List.filter_cons_of_neg] at hc
          exact ⟨by simp [hof], ih hdist h hc⟩

end Counted

/-! ## §3 The search -/

section Search

variable {type : List UInt8} {max : Nat} {s s' : Search} {leave : Bool}

/-- The visit of a node of the tree. -/
def visitNode (type : List UInt8) (max : Nat) (s : Search) (n : DevNode) :
    Except Stop (Search × Bool) :=
  visit type max s n.handle n.deviceType

/-- The state after a match, with the terminator behind it. -/
def Search.found (s : Search) (ptype : List UInt8) (node : Nat) : Search :=
  { ({ s with ptype := ptype } : Search).store s.nc node with nc := s.nc + 1 }.store (s.nc + 1) 0

/-- What a visit does: nothing but to read the property, or to store the node
    and leave, or to store it and a terminator behind it. -/
theorem visitNode_cases {n : DevNode} (h : visitNode type max s n = .ok (s', leave)) :
    (strcmpEq type (getprop n.deviceType s.ptype) = some false ∧ leave = false ∧
        s' = { s with ptype := getprop n.deviceType s.ptype }) ∨
      (strcmpEq type (getprop n.deviceType s.ptype) = some true ∧ s.nc = max ∧ leave = true ∧
        s' = ({ s with ptype := getprop n.deviceType s.ptype } : Search).store s.nc n.handle) ∨
      (strcmpEq type (getprop n.deviceType s.ptype) = some true ∧ s.nc ≠ max ∧ leave = false ∧
        s' = s.found (getprop n.deviceType s.ptype) n.handle) := by
  simp only [visitNode, visit] at h
  split at h
  · cases h
  next hcmp =>
    cases h
    exact Or.inl ⟨hcmp, rfl, rfl⟩
  next hcmp =>
    split at h
    next hfull =>
      cases h
      exact Or.inr (Or.inl ⟨hcmp, hfull, rfl, rfl⟩)
    next hroom =>
      cases h
      exact Or.inr (Or.inr ⟨hcmp, hroom, rfl, rfl⟩)

/-- The array is full: a further match would leave its level. -/
def Search.Full (max : Nat) (s : Search) : Prop := max ≤ s.nc

theorem visitNode_stays {s s' : Search} {n : DevNode} {leave : Bool} (hs : s.Full max)
    (h : visitNode type max s n = .ok (s', leave)) : s'.Full max := by
  obtain ⟨-, -, rfl⟩ | ⟨-, -, -, rfl⟩ | ⟨-, -, -, rfl⟩ := visitNode_cases h
  · exact hs
  · exact hs
  · exact Nat.le_succ_of_le hs

theorem visitNode_leaves {s s' : Search} {n : DevNode}
    (h : visitNode type max s n = .ok (s', true)) : s'.Full max := by
  obtain ⟨-, hl, -⟩ | ⟨-, hfull, -, rfl⟩ | ⟨-, -, hl, -⟩ := visitNode_cases h
  · cases hl
  · exact hfull.ge
  · cases hl

/-- A full array has its terminator behind its end. -/
def Search.Bounded (max : Nat) (s : Search) : Prop :=
  s.nc ≤ max ∧ (s.nc = max → max ∈ s.stores)

theorem visitNode_bounded {s s' : Search} {n : DevNode} {leave : Bool} (hs : s.Bounded max)
    (h : visitNode type max s n = .ok (s', leave)) : s'.Bounded max := by
  obtain ⟨hle, hfull⟩ := hs
  obtain ⟨-, -, rfl⟩ | ⟨-, hmax, -, rfl⟩ | ⟨-, hroom, -, rfl⟩ := visitNode_cases h
  · exact ⟨hle, hfull⟩
  · exact ⟨hle, fun _ => by simp [Search.store, hmax]⟩
  · refine ⟨?_, fun heq => ?_⟩
    · simp only [Search.found, Search.store]
      omega
    · simp only [Search.found, Search.store] at heq ⊢
      simp [heq]

theorem listed_found (s : Search) (ptype : List UInt8) (node : Nat) :
    (s.found ptype node).listed = s.listed ++ [node] := by
  simp only [Search.listed, Search.found, Search.store, List.range_succ, List.map_append,
    List.map_cons, List.map_nil]
  congr 1
  · refine List.map_congr_left fun i hi => ?_
    have hlt : i < s.nc := List.mem_range.mp hi
    rw [Function.update_of_ne (by omega), Function.update_of_ne (by omega)]
  · rw [Function.update_of_ne (by omega), Function.update_self]

/-- Visits that end before the array is full have counted what `counted`
    says, and stored no further than the terminator. -/
theorem visits_counted {ns : List DevNode} {s s' : Search}
    (h : SiblingTree.visits (visitNode type max) ns s = .ok s') (hs' : ¬ s'.Full max) :
    ∃ c, counted type s.ptype ns = some c ∧ s'.listed = s.listed ++ c.map DevNode.handle ∧
      s'.nc = s.nc + c.length ∧ ∀ i ∈ s'.stores, i ∈ s.stores ∨ i ≤ s'.nc := by
  induction ns generalizing s with
  | nil =>
    cases h
    exact ⟨[], rfl, by simp, rfl, fun i hi => Or.inl hi⟩
  | cons n ns ih =>
    rw [SiblingTree.visits] at h
    split at h
    · cases h
    next s₁ leave hv =>
      obtain ⟨c, hc, hlisted, hnc, hstores⟩ := ih h
      obtain ⟨hcmp, -, rfl⟩ | ⟨-, hfull, -, rfl⟩ | ⟨hcmp, -, -, rfl⟩ := visitNode_cases hv
      · exact ⟨c, by simp [counted, hcmp, hc], hlisted, hnc, hstores⟩
      · refine absurd ?_ hs'
        simp only [Search.store] at hnc
        simp only [Search.Full]
        omega
      · refine ⟨n :: c, ?_, ?_, ?_, fun i hi => ?_⟩
        · simp only [counted, hcmp]
          exact congrArg (Option.map _) hc
        · rw [hlisted, listed_found, List.append_assoc, List.map_cons, List.singleton_append]
        · simp only [Search.found, Search.store] at hnc
          rw [hnc, List.length_cons]
          omega
        · rcases hstores i hi with hmem | hle
          · simp only [Search.found, Search.store, List.mem_append, List.mem_singleton] at hmem hnc
            rcases hmem with (hold | hi) | hi
            · exact Or.inl hold
            · exact Or.inr (by omega)
            · exact Or.inr (by omega)
          · exact Or.inr hle

theorem visits_of_counted {ns c : List DevNode} {s : Search}
    (h : counted type s.ptype ns = some c) (hroom : s.nc + c.length < max) :
    ∃ s', SiblingTree.visits (visitNode type max) ns s = .ok s' ∧ s'.nc = s.nc + c.length := by
  induction ns generalizing s c with
  | nil =>
    cases h
    exact ⟨s, rfl, rfl⟩
  | cons n ns ih =>
    rw [counted] at h
    cases hcmp : strcmpEq type (getprop n.deviceType s.ptype) with
    | none => simp [hcmp] at h
    | some b =>
      cases b with
      | false =>
        simp only [hcmp] at h
        obtain ⟨s', hv, hnc⟩ :=
          ih (s := { s with ptype := getprop n.deviceType s.ptype }) h hroom
        exact ⟨s', by simpa [SiblingTree.visits, visitNode, visit, hcmp] using hv, hnc⟩
      | true =>
        simp only [hcmp, Option.map_eq_some_iff] at h
        obtain ⟨c', h', rfl⟩ := h
        rw [List.length_cons] at hroom
        have hne : s.nc ≠ max := by omega
        obtain ⟨s', hv, hnc⟩ := ih (s := s.found (getprop n.deviceType s.ptype) n.handle) h'
          (by simp only [Search.found, Search.store]; omega)
        refine ⟨s', ?_, ?_⟩
        · simpa [SiblingTree.visits, visitNode, visit, hcmp, hne, Search.store, Search.found]
            using hv
        · simp only [Search.found, Search.store] at hnc
          rw [hnc, List.length_cons]
          omega

/-- On the handles of a tree the loop is the walk over the tree. -/
theorem walkDevTree_walk {fw : Firmware} {t : SiblingTree DevNode} {h fuel : Nat}
    (hshows : fw.Shows t h) (hfuel : t.preorder.length < fuel) (s : Search) :
    walkDevTree fw type max fuel h s = t.walk (visitNode type max) s := by
  induction t generalizing h fuel s with
  | none =>
    obtain ⟨fuel, rfl⟩ := Nat.exists_eq_add_of_lt hfuel
    simp [walkDevTree, SiblingTree.walk, show h = 0 from hshows]
  | node n child peer ihc ihp =>
    obtain ⟨rfl, hne, htype, hchild, hpeer⟩ := hshows
    simp only [SiblingTree.preorder, List.length_cons, List.length_append] at hfuel
    obtain ⟨fuel, rfl⟩ : ∃ k, fuel = k + 1 := ⟨fuel - 1, by omega⟩
    rw [walkDevTree, if_neg hne, SiblingTree.walk, htype, ← visitNode]
    rcases visitNode type max s n with e | ⟨s₁, leave | leave⟩
    · rfl
    · simp only
      rw [ihc hchild (by omega)]
      cases child.walk (visitNode type max) s₁ with
      | error e => rfl
      | ok s₂ => exact ihp hpeer (by omega) s₂
    · rfl

end Search

/-! ## §4 What is found -/

section Found

variable {fw : Firmware} {t : DeviceTree} {type ptype : List UInt8} {max : Nat}
  {nodes : Nat → Nat}

/-- The search returns with the first of the nodes of the type counted, has
    stored below `max` only, and counts no node without a `device_type`. -/
def FindsDevices (fw : Firmware) (t : DeviceTree) (type : List UInt8) (max : Nat)
    (ptype : List UInt8) (nodes : Nat → Nat) : Prop :=
  ∃ s, (∃ enough, ∀ fuel, enough ≤ fuel →
      findTypeDevices fw fuel type max ptype nodes = .ok s) ∧
    s.listed = ((t.ofType type).take max).map DevNode.handle ∧
    (∀ i ∈ s.stores, i < max) ∧
    ∀ n ∈ t.nodes, n.deviceType = none → n.handle ∉ s.listed

/-- The search of the firmware is the walk over the levels below the root. -/
theorem findTypeDevices_walk (hfw : fw.Has t) {fuel : Nat}
    (hfuel : t.below.preorder.length < fuel) :
    findTypeDevices fw fuel type max ptype nodes =
      t.below.walk (visitNode type max) ⟨ptype, 0, nodes, []⟩ := by
  obtain ⟨hroot, -, -, hbelow, -⟩ := hfw
  exact walkDevTree_walk hbelow hfuel _

/-- The root is not below itself. -/
theorem root_handle_notMem (t : DeviceTree) : t.root.handle ∉ t.below.preorder.map DevNode.handle :=
  (List.nodup_cons.mp t.distinct).1

/-- The nodes of the type are those below the root, unless the root has it. -/
theorem ofType_below (hroot : ¬ t.root.OfType type) :
    t.ofType type = t.below.preorder.filter (fun n => n.OfType type) := by
  rw [DeviceTree.ofType, DeviceTree.nodes, List.filter_cons_of_neg (by simpa using hroot)]

theorem finds_of_right (hfw : fw.Has t) (htype : 0 ∉ type) (hroot : ¬ t.root.OfType type)
    (hroom : (t.ofType type).length < max) (hright : AllRight type ptype t.below.preorder) :
    FindsDevices fw t type max ptype nodes := by
  have hcounted := counted_of_allRight htype hright
  rw [← ofType_below hroot] at hcounted
  obtain ⟨s, hvisits, hnc⟩ :=
    @visits_of_counted _ max _ _ ⟨ptype, 0, nodes, []⟩ hcounted (by simpa using hroom)
  have hfull : ¬ s.Full max := by
    simp only [Search.Full, hnc]
    omega
  have hwalk := SiblingTree.visits_walk (fun _ _ _ _ => visitNode_stays)
    (fun _ _ _ => visitNode_leaves) hvisits hfull
  obtain ⟨c, hc, hlisted, -, hstores⟩ := visits_counted hvisits hfull
  obtain rfl : t.ofType type = c := Option.some.inj (hcounted.symm.trans hc)
  have hall : s.listed = (t.ofType type).map DevNode.handle := by
    rw [hlisted]
    rfl
  refine ⟨s, ⟨t.below.preorder.length + 1, fun fuel hfuel => ?_⟩, ?_, fun i hi => ?_, ?_⟩
  · rw [findTypeDevices_walk hfw hfuel, hwalk]
  · rw [hall, List.take_of_length_le hroom.le]
  · rcases hstores i hi with hmem | hle
    · cases hmem
    · simp only [hnc] at hle
      omega
  · intro n hn hnone hin
    rw [hall, List.mem_map] at hin
    obtain ⟨m, hm, hsame⟩ := hin
    obtain ⟨hmem, hof⟩ := List.mem_filter.mp hm
    obtain rfl : m = n := List.inj_on_of_nodup_map t.distinct hmem hn hsame
    simp [DevNode.OfType, hnone] at hof

theorem right_of_finds (hfw : fw.Has t) (hmax : 1 ≤ max) (htype : 0 ∉ type)
    (h : FindsDevices fw t type max ptype nodes) :
    ¬ t.root.OfType type ∧ (t.ofType type).length < max ∧
      AllRight type ptype t.below.preorder := by
  obtain ⟨s, ⟨enough, hrun⟩, hlisted, hstores, -⟩ := h
  have hwalk : t.below.walk (visitNode type max) ⟨ptype, 0, nodes, []⟩ = .ok s := by
    rw [← findTypeDevices_walk hfw (Nat.lt_succ_of_le (Nat.le_max_right enough _))]
    exact hrun _ (Nat.le_succ_of_le (Nat.le_max_left _ _))
  -- A full array would have its terminator at `max`.
  have hbounded : s.Bounded max := SiblingTree.walk_invariant
    (fun _ _ _ _ => visitNode_bounded) ⟨Nat.zero_le _, fun h0 => absurd h0 (by simp; omega)⟩ hwalk
  have hfull : ¬ s.Full max := fun hf =>
    absurd (hstores max (hbounded.2 (le_antisymm hbounded.1 hf))) (lt_irrefl max)
  have hvisits := SiblingTree.walk_visits (fun _ _ _ _ => visitNode_stays)
    (fun _ _ _ => visitNode_leaves) hwalk hfull
  obtain ⟨c, hc, hall, hnc, -⟩ := visits_counted hvisits hfull
  have hcount : c.map DevNode.handle = ((t.ofType type).take max).map DevNode.handle := by
    rw [← hlisted, hall]
    rfl
  have hlen : c.length < max := by
    simp only [Search.Full] at hfull
    omega
  have hroom : (t.ofType type).length < max := by
    have := congrArg List.length hcount
    simp only [List.length_map, List.length_take] at this
    omega
  rw [List.take_of_length_le hroom.le] at hcount
  have hroot : ¬ t.root.OfType type := by
    intro hof
    refine root_handle_notMem t (List.map_subset _ (counted_subset hc) ?_)
    rw [hcount, DeviceTree.ofType, DeviceTree.nodes, List.filter_cons_of_pos (by simpa using hof)]
    exact List.mem_cons_self
  rw [ofType_below hroot] at hcount
  exact ⟨hroot, hroom, allRight_of_counted htype (List.nodup_cons.mp t.distinct).2 hc hcount⟩

/-- **What is found.** The search is right exactly if the root is not of the
    type, fewer than `max` nodes are, and every node below the root reads right
    over what the values before it left in the buffer. -/
theorem findTypeDevices_iff (hfw : fw.Has t) (hmax : 1 ≤ max) (htype : 0 ∉ type) :
    FindsDevices fw t type max ptype nodes ↔
      ¬ t.root.OfType type ∧ (t.ofType type).length < max ∧
        AllRight type ptype t.below.preorder :=
  ⟨right_of_finds hfw hmax htype, fun h => finds_of_right hfw htype h.1 h.2.1 h.2.2⟩

end Found

/-! ## §5 One processor -/

/-- The type `cpu`. -/
def cpu : List UInt8 := [99, 112, 117]

/-- A root with one node below it, a processor. -/
def cpuTree : DeviceTree where
  root := ⟨1, none⟩
  below := .node ⟨2, some (cpu ++ [0])⟩ .none .none
  distinct := by decide

def cpuFirmware : Firmware where
  child h := if h = 1 then 2 else 0
  peer h := if h = 0 then 1 else 0
  deviceType h := if h = 2 then some (cpu ++ [0]) else none

theorem cpuFirmware_has : cpuFirmware.Has cpuTree := by
  simp [Firmware.Has, Firmware.Shows, cpuFirmware, cpuTree]

/-- With room for two the processor is found. -/
theorem cpu_found : FindsDevices cpuFirmware cpuTree cpu 2 (List.replicate 32 0) (fun _ => 0) := by
  refine (findTypeDevices_iff cpuFirmware_has (by decide) (by decide)).mpr ⟨by decide, by decide, ?_⟩
  refine allRight_cons.mpr ⟨Or.inl (by decide), fun before n after hsplit => ?_⟩
  simp [SiblingTree.preorder] at hsplit

/-- With room for one, as both loaders ask for it, the terminator is stored
    behind the array. -/
theorem cpu_stored_behind :
    ¬ FindsDevices cpuFirmware cpuTree cpu 1 (List.replicate 32 0) (fun _ => 0) := by
  rintro ⟨s, ⟨enough, hrun⟩, -, hstores, -⟩
  have hwalk := hrun (enough + 2) (Nat.le_add_right _ _)
  rw [findTypeDevices_walk cpuFirmware_has (by simp [cpuTree, SiblingTree.preorder])] at hwalk
  have hs : s.stores = [0, 1] := by
    cases hwalk
    rfl
  exact absurd (hstores 1 (by simp [hs])) (lt_irrefl 1)

end LiloBoot.Prom
