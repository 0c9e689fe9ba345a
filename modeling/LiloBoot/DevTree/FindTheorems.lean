/-
LiloBoot.DevTree.FindTheorems — `ft_find_descendent` finds the first match.

While the atoms go by, the search knows how many of the open nodes match, from
the outermost one on: that is `dmatch`, and the component pointer stands behind
as many components (§2). A node that does not match is passed over with all that
is in it; one that does and ends is taken back (§3).
-/
import LiloBoot.DevTree.Find

namespace LiloBoot.DevTree

open LiloBoot.Memory

/-! ## §1 Names that match -/

variable {cxt : FtCxt} {mem : Bytes} {path : List UInt8} {a i : Nat} {c n comp : List UInt8}
  {cs ns : List (List UInt8)}

theorem strncmpEq_iff (comp : List UInt8) : ∀ {a : Nat} {n rest : List UInt8}, StringAt mem a n →
    0 ∉ comp → (strncmpEq mem comp.length a (comp ++ rest) = true ↔ comp <+: n) := by
  induction comp with
  | nil => exact fun _ _ => ⟨fun _ => List.nil_prefix, fun _ => rfl⟩
  | cons d comp ih =>
    intro a n rest hn hno
    rw [List.mem_cons, not_or] at hno
    rw [List.length_cons, List.cons_append, strncmpEq, List.headD_cons, List.tail_cons]
    cases n with
    | nil =>
      have hnul := hn.nul
      rw [List.length_nil, Nat.add_zero] at hnul
      simp [hnul, hno.1]
    | cons e n =>
      have hd : d ≠ 0 := fun h => hno.1 h.symm
      rw [hn.head_ne.1, List.cons_prefix_cons, ← @ih (a + 1) n rest hn.tail hno.2,
        Bool.and_eq_true, Bool.or_eq_true, decide_eq_true_eq, decide_eq_true_eq]
      exact ⟨fun h => ⟨h.1.symm, h.2.resolve_left hd⟩, fun h => ⟨h.1.symm, Or.inr h.2⟩⟩

/-- What is compared is whether the component names the node. -/
theorem nameMatches_iff {s : FindState} (hn : StringAt cxt.mem a n) (hslash : 47 ∉ n)
    (hno : 0 ∉ path) (hcl : s.cl = componentLength path s.cp) :
    nameMatches cxt path s a = true ↔ Names ((path.drop s.cp).takeWhile (· ≠ 47)) n := by
  have hcomp : 0 ∉ (path.drop s.cp).takeWhile (· ≠ 47) := fun h =>
    hno (List.drop_subset _ _ ((List.takeWhile_prefix _).subset h))
  have happend := List.takeWhile_append_dropWhile (p := (· ≠ 47)) (l := path.drop s.cp)
  rw [componentLength] at hcl
  rw [nameMatches, hcl]
  generalize (path.drop s.cp).takeWhile (· ≠ 47) = comp at hcomp happend ⊢
  rw [← happend, Bool.and_eq_true, strncmpEq_iff comp hn hcomp, Names]
  have hnext : comp <+: n →
      ((cxt.mem (a + comp.length) = 47 || cxt.mem (a + comp.length) = 0 ||
        cxt.mem (a + comp.length) = 64) = true ↔ n = comp ∨ comp ++ [64] <+: n) := by
    rintro ⟨v, rfl⟩
    cases v with
    | nil =>
      have hnul := hn.nul
      rw [List.append_nil] at hnul
      simp [hnul]
    | cons d v =>
      have hat := hn.bytes comp.length (by simp)
      rw [List.getD_append_right _ _ _ _ (le_refl _), Nat.sub_self, List.getD_cons_zero] at hat
      have hd : d ∈ comp ++ d :: v := by simp
      have h47 : d ≠ 47 := fun h => hslash (h ▸ hd)
      have h0 : d ≠ 0 := fun h => hn.noNul (h ▸ hd)
      rw [hat, List.prefix_append_right_inj]
      simp [h47, h0, List.cons_prefix_cons, eq_comm (a := d)]
  constructor
  · rintro ⟨hfront, hchar⟩
    exact (hnext hfront).mp hchar
  · intro hnames
    have hfront : comp <+: n := by
      rcases hnames with rfl | h
      · exact List.prefix_refl _
      · exact (List.prefix_append _ _).trans h
    exact ⟨hfront, (hnext hfront).mpr hnames⟩

/-- The number of nodes, from the outermost one on, that have the names. -/
def matched : List (List UInt8) → List (List UInt8) → Nat
  | c :: cs, n :: ns => if Names c n then matched cs ns + 1 else 0
  | _, _ => 0

theorem matched_nil (cs : List (List UInt8)) : matched cs [] = 0 := by
  cases cs with
  | nil => rfl
  | cons c cs => rfl

theorem matched_le (cs ns : List (List UInt8)) : matched cs ns ≤ ns.length := by
  induction cs, ns using matched.induct with
  | case1 c cs n ns hc ih =>
    rw [matched, if_pos hc, List.length_cons]
    omega
  | case2 c cs n ns hc =>
    rw [matched, if_neg hc]
    exact Nat.zero_le _
  | case3 cs ns h =>
    rw [matched]
    · exact Nat.zero_le _
    · exact h

/-- A node below nodes that all match, and matches. -/
theorem matched_snoc_pos (hall : matched cs ns = ns.length) (hc : cs[ns.length]? = some c)
    (hn : Names c n) : matched cs (ns ++ [n]) = ns.length + 1 := by
  induction cs generalizing ns with
  | nil => cases hc
  | cons d cs ih =>
    cases ns with
    | nil =>
      obtain rfl : d = c := Option.some.inj hc
      rw [List.nil_append, matched, if_pos hn, matched_nil]
      rfl
    | cons m ns =>
      rw [matched] at hall
      split at hall
      next hd =>
        rw [List.length_cons, List.getElem?_cons_succ] at hc
        rw [List.cons_append, matched, if_pos hd, ih (Nat.succ.inj hall) hc]
        rfl
      · cases hall

/-- A node that does not match, or is below one that does not. -/
theorem matched_snoc_neg
    (h : matched cs ns ≠ ns.length ∨ ∀ c, cs[ns.length]? = some c → ¬ Names c n) :
    matched cs (ns ++ [n]) = matched cs ns := by
  induction cs generalizing ns with
  | nil =>
    rw [matched, matched]
    · exact fun _ _ _ _ h => by cases h
    · exact fun _ _ _ _ h => by cases h
  | cons d cs ih =>
    cases ns with
    | nil =>
      have hd : ¬ Names d n := by
        rcases h with h | h
        · exact absurd rfl h
        · exact h d rfl
      rw [List.nil_append, matched, if_neg hd]
      rfl
    | cons m ns =>
      rw [List.cons_append, matched, matched]
      by_cases hd : Names d m
      · rw [if_pos hd, if_pos hd, ih]
        rw [matched, if_pos hd, List.length_cons] at h
        rcases h with h | h
        · exact Or.inl fun heq => h (by rw [heq])
        · exact Or.inr h
      · rw [if_neg hd, if_neg hd]

/-- Without the innermost node. -/
theorem matched_dropLast (cs ns : List (List UInt8)) (n : List UInt8) :
    (matched cs (ns ++ [n]) = ns.length + 1 ∧ matched cs ns = ns.length) ∨
      (matched cs (ns ++ [n]) ≤ ns.length ∧ matched cs (ns ++ [n]) = matched cs ns) := by
  by_cases h : matched cs ns = ns.length ∧ ∃ c, cs[ns.length]? = some c ∧ Names c n
  · obtain ⟨hall, c, hc, hn⟩ := h
    exact Or.inl ⟨matched_snoc_pos hall hc hn, hall⟩
  · have hneg : matched cs ns ≠ ns.length ∨ ∀ c, cs[ns.length]? = some c → ¬ Names c n := by
      rw [not_and_or] at h
      rcases h with h | h
      · exact Or.inl h
      · exact Or.inr fun c hc hn => h ⟨c, hc, hn⟩
    have heq := matched_snoc_neg hneg
    exact Or.inr ⟨by rw [heq]; exact matched_le cs ns, heq⟩

theorem forall₂_names_iff (cs ns : List (List UInt8)) :
    List.Forall₂ Names cs ns ↔ matched cs ns = cs.length ∧ ns.length = cs.length := by
  induction cs generalizing ns with
  | nil =>
    cases ns with
    | nil => exact ⟨fun _ => ⟨rfl, rfl⟩, fun _ => List.Forall₂.nil⟩
    | cons m ns => exact ⟨fun h => (by cases h), fun h => (by cases h.2)⟩
  | cons d cs ih =>
    cases ns with
    | nil => exact ⟨fun h => (by cases h), fun h => (by cases h.2)⟩
    | cons m ns =>
      rw [List.forall₂_cons, ih, matched, List.length_cons, List.length_cons]
      by_cases hd : Names d m
      · rw [if_pos hd]
        simp [hd]
      · rw [if_neg hd]
        simp [hd]

/-! ## §2 What the search knows -/

/-- The search below node `i`, when the atoms of `front` have gone by: `below`
    are the open nodes in `i`, the innermost one first, and `names` their names;
    `outer` are those around `i`. -/
structure Searching (toks : List Tok) (path : List UInt8) (i : Nat) (front : List Tok)
    (below outer : List Nat) (names : List (List UInt8)) (s : FindState) : Prop where
  stack : opened 0 [] front = below ++ i :: outer
  named : List.Forall₂ (IsNode toks) below names
  behind : ∀ k ∈ below, i < k
  before : ∀ k ∈ outer, k < i
  depth : s.depth = below.length + 1
  dmatch : s.dmatch = matched (components path) names.reverse + 1
  more : matched (components path) names.reverse < (components path).length
  cp : s.cp = compPos path (matched (components path) names.reverse)
  cl : s.cl = componentLength path s.cp
  pathComp : ∀ k < matched (components path) names.reverse, s.pathComp (k + 1) = compPos path k
  none : ∀ j < front.length, ¬ Matches toks path i j

variable {toks front rest : List Tok} {below outer : List Nat} {names : List (List UInt8)}
  {s : FindState} {j : Nat}

theorem opened_mem (toks : List Tok) : ∀ {k : Nat} {stack : List Nat} {x : Nat},
    x ∈ opened k stack toks → x ∈ stack ∨ k ≤ x := by
  induction toks with
  | nil => exact fun h => Or.inl h
  | cons tok toks ih =>
    intro k stack x hx
    cases tok with
    | beginNode n =>
      rcases ih hx with h | h
      · rcases List.mem_cons.mp h with rfl | h
        · exact Or.inr (le_refl _)
        · exact Or.inl h
      · exact Or.inr (by omega)
    | endNode =>
      rcases ih hx with h | h
      · exact Or.inl (List.mem_of_mem_tail h)
      · exact Or.inr (by omega)
    | prop n w =>
      rcases ih hx with h | h
      · exact Or.inl h
      · exact Or.inr (by omega)
    | nop =>
      rcases ih hx with h | h
      · exact Or.inl h
      · exact Or.inr (by omega)

theorem enclosing_lt (toks : List Tok) (j : Nat) : ∀ k ∈ enclosing toks j, k < j := by
  intro k hk
  have hlt := opened_bound (toks.take j) (fun y hy => absurd hy List.not_mem_nil) k hk
  rw [List.length_take, Nat.zero_add] at hlt
  omega

theorem Matches.le (h : Matches toks path i j) : i ≤ j := by
  rcases List.mem_cons.mp h.inside with rfl | h
  · exact le_refl _
  · exact Nat.le_of_lt (enclosing_lt _ _ _ h)

/-- The atom that is next, below the open nodes. -/
theorem enclosing_front (front rest : List Tok) :
    enclosing (front ++ rest) front.length = opened 0 [] front := by
  rw [enclosing, List.take_left]

/-- A node in the open nodes matches if all their names and its own do. -/
theorem Searching.matches_iff (h : Searching toks path i front below outer names s)
    (htoks : toks = front ++ .beginNode n :: rest) :
    Matches toks path i front.length ↔
      List.Forall₂ Names (components path) (names.reverse ++ [n]) := by
  have hnode : IsNode toks front.length n := by
    rw [htoks, IsNode, List.getElem?_append_right (le_refl _), Nat.sub_self]
    rfl
  have henclosing : enclosing toks front.length = below ++ i :: outer := by
    rw [htoks, enclosing_front, h.stack]
  have hlt : i < front.length := enclosing_lt toks _ i (by
    rw [henclosing]
    exact List.mem_append_right _ List.mem_cons_self)
  have hchain : chain toks i front.length = (front.length :: below).reverse := by
    rw [chain, henclosing, ← List.cons_append, List.takeWhile_append_of_pos]
    · rw [List.takeWhile_cons_of_neg (by simp), List.append_nil]
    · intro k hk
      rcases List.mem_cons.mp hk with rfl | hk
      · simp
        omega
      · have := h.behind k hk
        simp
        omega
  have hnames : ∀ ns, List.Forall₂ (IsNode toks) (chain toks i front.length) ns ↔
      ns = names.reverse ++ [n] := by
    intro ns
    have hall : List.Forall₂ (IsNode toks) (chain toks i front.length) (names.reverse ++ [n]) := by
      rw [hchain, ← List.reverse_cons, List.forall₂_reverse_iff]
      exact List.Forall₂.cons hnode h.named
    constructor
    · intro hns
      exact List.right_unique_forall₂' (fun _ _ _ h h' => by
        rw [IsNode] at h h'
        cases h.symm.trans h'
        rfl) hns hall
    · rintro rfl
      exact hall
  constructor
  · rintro ⟨-, -, ns, hns, hmatch⟩
    rwa [(hnames ns).mp hns] at hmatch
  · intro hmatch
    refine ⟨⟨n, hnode⟩, ?_, _, (hnames _).mpr rfl, hmatch⟩
    rw [henclosing]
    exact List.mem_cons_of_mem _ (List.mem_append_right _ List.mem_cons_self)

/-! ## §3 The search -/

/-- An atom that begins no node does not match. -/
theorem none_snoc {tok : Tok} (hnone : ∀ j < front.length, ¬ Matches toks path i j)
    (hhere : ¬ Matches toks path i front.length) :
    ∀ j < (front ++ [tok]).length, ¬ Matches toks path i j := by
  intro j hj
  rw [List.length_append, List.length_singleton] at hj
  rcases Nat.lt_succ_iff_lt_or_eq.mp hj with h | rfl
  · exact hnone j h
  · exact hhere

theorem not_matches_of_tok {tok : Tok} (htoks : toks = front ++ tok :: rest)
    (hnot : ∀ n, tok ≠ .beginNode n) : ¬ Matches toks path i front.length := by
  rintro ⟨⟨n, hn⟩, -, -⟩
  rw [htoks, IsNode, List.getElem?_append_right (le_refl _), Nat.sub_self] at hn
  exact hnot n (Option.some.inj hn)

/-- An atom between nodes changes nothing. -/
theorem Searching.skip {tok : Tok} (h : Searching toks path i front below outer names s)
    (htoks : toks = front ++ tok :: rest) (htok : tok.isNode = false) :
    Searching toks path i (front ++ [tok]) below outer names s := by
  refine { h with stack := ?_, none := none_snoc h.none (not_matches_of_tok htoks ?_) }
  · rw [opened_append, closed_of_not_isNode [tok], h.stack]
    intro tok' htok'
    rw [List.mem_singleton.mp htok']
    exact htok
  · rintro n rfl
    cases htok

/-- A node that does not match, or is in one that does not, is passed over. -/
theorem Searching.pass (h : Searching toks path i front below outer names s)
    (htoks : toks = front ++ .beginNode n :: rest) (hi : i < front.length)
    (hneg : matched (components path) names.reverse ≠ names.reverse.length ∨
      ∀ c, (components path)[names.reverse.length]? = some c → ¬ Names c n) :
    Searching toks path i (front ++ [.beginNode n]) (front.length :: below) outer (n :: names)
      { s with depth := s.depth + 1 } := by
  have hsame := matched_snoc_neg hneg
  have hnode : IsNode toks front.length n := by
    rw [htoks, IsNode, List.getElem?_append_right (le_refl _), Nat.sub_self]
    rfl
  have hnot : ¬ Matches toks path i front.length := by
    rw [h.matches_iff htoks, forall₂_names_iff, hsame]
    exact fun hall => absurd hall.1 (Nat.ne_of_lt h.more)
  have hmore := h.more
  have hdmatch := h.dmatch
  have hcp := h.cp
  have hpath := h.pathComp
  rw [← hsame, ← List.reverse_cons] at hmore hdmatch hcp hpath
  refine ⟨?_, List.Forall₂.cons hnode h.named, List.forall_mem_cons.mpr ⟨hi, h.behind⟩, h.before,
    ?_, hdmatch, hmore, hcp, h.cl, hpath, none_snoc h.none hnot⟩
  · rw [opened_append, h.stack, Nat.zero_add]
    rfl
  · rw [h.depth, List.length_cons]

/-- A node that matches, and is not the last of the path. -/
theorem Searching.enter (h : Searching toks path i front below outer names s)
    (htoks : toks = front ++ .beginNode n :: rest) (hi : i < front.length)
    (hall : matched (components path) names.reverse = names.reverse.length)
    (hc : (components path)[names.reverse.length]? = some c) (hn : Names c n)
    (hmore : names.reverse.length + 1 < (components path).length) :
    Searching toks path i (front ++ [.beginNode n]) (front.length :: below) outer (n :: names)
      { depth := s.depth + 1
        dmatch := s.dmatch + 1
        cp := compPos path (names.reverse.length + 1)
        cl := componentLength path (compPos path (names.reverse.length + 1))
        pathComp := Function.update s.pathComp s.dmatch s.cp } := by
  have hnew := matched_snoc_pos hall hc hn
  rw [← List.reverse_cons] at hnew
  have hnode : IsNode toks front.length n := by
    rw [htoks, IsNode, List.getElem?_append_right (le_refl _), Nat.sub_self]
    rfl
  have hnot : ¬ Matches toks path i front.length := by
    rw [h.matches_iff htoks, forall₂_names_iff, ← List.reverse_cons, hnew]
    exact fun hlast => absurd hlast.1 (Nat.ne_of_lt hmore)
  refine ⟨?_, List.Forall₂.cons hnode h.named, List.forall_mem_cons.mpr ⟨hi, h.behind⟩, h.before,
    ?_, ?_, ?_, ?_, rfl, fun k hk => ?_, none_snoc h.none hnot⟩
  · rw [opened_append, h.stack, Nat.zero_add]
    rfl
  · rw [h.depth, List.length_cons]
  · rw [hnew, h.dmatch, hall]
  · rw [hnew]
    exact hmore
  · rw [hnew]
  · rw [hnew] at hk
    show Function.update s.pathComp s.dmatch s.cp (k + 1) = _
    rw [h.dmatch, h.cp, hall]
    by_cases hlast : k = names.reverse.length
    · rw [hlast, Function.update_self]
    · rw [Function.update_of_ne (by omega), h.pathComp k (by omega)]

/-- The end of a node below `i`: one that did not match changes nothing else. -/
theorem Searching.leave {b : Nat} (h : Searching toks path i front (b :: below) outer (n :: names) s)
    (htoks : toks = front ++ .endNode :: rest) (hd : s.dmatch < s.depth) :
    Searching toks path i (front ++ [.endNode]) below outer names
      { s with depth := s.depth - 1 } := by
  have hlen := h.named.length_eq
  have hdmatch := h.dmatch
  have hdepth := h.depth
  rw [List.length_cons] at hlen hdepth
  rw [List.length_cons] at hlen
  have hsame : matched (components path) (n :: names).reverse =
      matched (components path) names.reverse := by
    rw [List.reverse_cons] at hdmatch ⊢
    rcases matched_dropLast (components path) names.reverse n with ⟨hall, -⟩ | ⟨-, hsame⟩
    · rw [List.length_reverse] at hall
      omega
    · exact hsame
  have hmore := h.more
  have hcp := h.cp
  have hpath := h.pathComp
  rw [hsame] at hdmatch hmore hcp hpath
  refine ⟨?_, (List.forall₂_cons.mp h.named).2, (List.forall_mem_cons.mp h.behind).2, h.before,
    ?_, hdmatch, hmore, hcp, h.cl, hpath,
    none_snoc h.none (not_matches_of_tok htoks fun _ => by simp)⟩
  · rw [opened_append, h.stack]
    rfl
  · rw [hdepth, Nat.add_sub_cancel]

/-- The end of a node that matched: the component before is the one to match
    again. -/
theorem Searching.back {b : Nat} (h : Searching toks path i front (b :: below) outer (n :: names) s)
    (htoks : toks = front ++ .endNode :: rest) (hd : s.depth ≤ s.dmatch) :
    Searching toks path i (front ++ [.endNode]) below outer names
      { s with
        dmatch := s.dmatch - 1
        cl := dropSlashes path (s.pathComp (s.dmatch - 1)) (s.cp - s.pathComp (s.dmatch - 1) - 1)
        cp := s.pathComp (s.dmatch - 1)
        depth := s.depth - 1 } := by
  have hlen := h.named.length_eq
  have hdmatch := h.dmatch
  have hdepth := h.depth
  rw [List.length_cons] at hlen hdepth
  rw [List.length_cons] at hlen
  have hmatched : matched (components path) (n :: names).reverse = names.length + 1 ∧
      matched (components path) names.reverse = names.length := by
    rw [List.reverse_cons] at hdmatch ⊢
    rcases matched_dropLast (components path) names.reverse n with hall | ⟨hle, -⟩
    · rwa [List.length_reverse] at hall
    · rw [List.length_reverse] at hle
      omega
  have hmore := h.more
  have hcp := h.cp
  rw [hmatched.1] at hdmatch hmore hcp
  have hcomp : s.pathComp (s.dmatch - 1) = compPos path names.length := by
    rw [hdmatch, Nat.add_sub_cancel, h.pathComp names.length (by rw [hmatched.1]; omega)]
  refine ⟨?_, (List.forall₂_cons.mp h.named).2, (List.forall_mem_cons.mp h.behind).2, h.before,
    ?_, ?_, ?_, ?_, ?_, fun k hk => h.pathComp k (by rw [hmatched.1]; omega),
    none_snoc h.none (not_matches_of_tok htoks fun _ => by simp)⟩
  · rw [opened_append, h.stack]
    rfl
  · rw [hdepth, Nat.add_sub_cancel]
  · rw [hdmatch, hmatched.2, Nat.add_sub_cancel]
  · rw [hmatched.2]
    omega
  · rw [hmatched.2, hcomp]
  · rw [hcomp, hcp]
    exact dropSlashes_compPos hmore

/-- The node `i` is closed: what follows is not in it. -/
theorem not_matches_behind (htoks : toks = front ++ .endNode :: rest)
    (h : Searching toks path i front [] outer names s) (hi : i < front.length)
    (hge : front.length ≤ j) : ¬ Matches toks path i j := by
  intro hmatch
  have hne : j ≠ front.length := by
    rintro rfl
    exact not_matches_of_tok htoks (fun _ => by simp) hmatch
  obtain ⟨m, rfl⟩ : ∃ m, j = front.length + (m + 1) := ⟨j - front.length - 1, by omega⟩
  have hin : i ∈ enclosing toks (front.length + (m + 1)) := by
    rcases List.mem_cons.mp hmatch.inside with heq | hin
    · omega
    · exact hin
  rw [enclosing, htoks, List.take_length_add_append, List.take_succ_cons, opened_append, h.stack,
    Nat.zero_add, opened, List.nil_append, List.tail_cons] at hin
  rcases opened_mem _ hin with hin | hle
  · exact Nat.lt_irrefl _ (h.before i hin)
  · omega

/-- The search goes on to the first match. -/
theorem findLoop_first (t : HeldTree) (hno : 0 ∉ path) (rest : List Tok) :
    ∀ {front : List Tok} {fuel : Nat} {below : List Nat} {names : List (List UInt8)}
      {s : FindState}, t.toks = front ++ rest → rest.length < fuel → i < front.length →
      Searching t.toks path i front below outer names s →
      ∃ o, FirstMatch t.toks path i o ∧
        findLoop t.cxt path fuel ((t.cxt.rgn .struct).start + toksSize front) s =
          some (o.map t.addr) := by
  induction rest with
  | nil =>
    intro front fuel below names s htoks hfuel hi h
    obtain ⟨fuel, rfl⟩ : ∃ k, fuel = k + 1 := ⟨fuel - 1, by simp at hfuel; omega⟩
    rw [List.append_nil] at htoks
    refine ⟨none, fun j hmatch => ?_, ?_⟩
    · obtain ⟨n, hn⟩ := hmatch.node
      have hlt := hn.lt
      rw [htoks] at hlt
      exact h.none j hlt hmatch
    · have hend := (htoks ▸ t.holds).last_step
      rw [findLoop, hend]
      rfl
  | cons tok rest ih =>
    intro front fuel below names s htoks hfuel hi h
    rw [List.length_cons] at hfuel
    obtain ⟨fuel, rfl⟩ : ∃ k, fuel = k + 1 := ⟨fuel - 1, by omega⟩
    have htoks' : t.toks = (front ++ [tok]) ++ rest := by
      rw [htoks, List.append_assoc]
      rfl
    have hi' : i < (front ++ [tok]).length := by
      rw [List.length_append]
      omega
    have hholds : HoldsTree t.cxt (front ++ tok :: rest) := htoks ▸ t.holds
    rw [findLoop, hholds.step t.space]
    cases tok with
    | prop m w => exact ih htoks' (by omega) hi' (h.skip htoks rfl)
    | nop => exact ih htoks' (by omega) hi' (h.skip htoks rfl)
    | endNode =>
      simp only [Tok.atom]
      cases below with
      | nil =>
        rw [if_pos (by rw [h.depth]; exact le_refl _)]
        refine ⟨none, fun j => ?_, rfl⟩
        rcases Nat.lt_or_ge j front.length with hlt | hge
        · exact h.none j hlt
        · exact not_matches_behind htoks h hi hge
      | cons b below =>
        obtain ⟨n, names, rfl⟩ : ∃ n ns, names = n :: ns := by
          cases names with
          | nil => cases h.named
          | cons n names => exact ⟨n, names, rfl⟩
        rw [if_neg (by rw [h.depth, List.length_cons]; omega)]
        by_cases hd : s.depth ≤ s.dmatch
        · rw [if_pos hd]
          exact ih htoks' (by omega) hi' (h.back htoks hd)
        · rw [if_neg hd]
          exact ih htoks' (by omega) hi' (h.leave htoks (Nat.lt_of_not_le hd))
    | beginNode n =>
      simp only [Tok.atom]
      have hlen := h.named.length_eq
      have hnode : IsNode t.toks front.length n := by
        rw [htoks, IsNode, List.getElem?_append_right (le_refl _), Nat.sub_self]
        rfl
      by_cases hall : matched (components path) names.reverse = names.reverse.length
      · -- every open node matches, so the name is looked at
        have hmore := h.more
        rw [hall] at hmore
        obtain ⟨hin, hpos, hcomp⟩ := component_at hmore
        have hdeep := t.depth hnode
        rw [htoks, enclosing_front, h.stack, List.length_append, List.length_cons] at hdeep
        have hcp : s.cp = compPos path names.reverse.length := by rw [h.cp, hall]
        rw [if_neg (by rw [h.depth, h.dmatch, hall, List.length_reverse]; omega),
          if_neg (by rw [h.dmatch, hall, List.length_reverse]; omega)]
        have hname := @nameMatches_iff t.cxt path
          ((t.cxt.rgn .struct).start + toksSize front + 4) n { s with depth := s.depth + 1 }
          hholds.atom.2 (t.slashes hnode) hno h.cl
        dsimp only at hname
        rw [← hcp] at hcomp
        by_cases hn : Names ((path.drop s.cp).takeWhile (· ≠ 47)) n
        · have htrue := hname.mpr hn
          have hstep : skipSlashes path (s.cp + s.cl) = compPos path (names.reverse.length + 1) := by
            rw [h.cl, hcp, compPos]
          rw [if_neg (by rw [htrue]; simp), hstep]
          by_cases hlast : (components path).length ≤ names.reverse.length + 1
          · rw [if_pos ((compPos_end hno).mpr hlast)]
            refine ⟨some front.length, ⟨?_, h.none⟩, ?_⟩
            · rw [h.matches_iff htoks, forall₂_names_iff, matched_snoc_pos hall hcomp hn,
                List.length_append, List.length_singleton]
              omega
            · rw [Option.map_some, HeldTree.addr, htoks, offsetOf, List.take_left]
          · rw [if_neg fun hzero => hlast ((compPos_end hno).mp hzero)]
            exact ih htoks' (by omega) hi'
              (h.enter htoks hi hall hcomp hn (Nat.lt_of_not_le hlast))
        · have hfalse : nameMatches t.cxt path { s with depth := s.depth + 1 }
              ((t.cxt.rgn .struct).start + toksSize front + 4) = false := by
            rw [Bool.eq_false_iff]
            exact fun htrue => hn (hname.mp htrue)
          rw [if_pos ⟨by rw [h.dmatch]; omega, hfalse⟩]
          refine ih htoks' (by omega) hi' (h.pass htoks hi (Or.inr fun c hc => ?_))
          rw [hcomp] at hc
          cases hc
          exact hn
      · have hle := matched_le (components path) names.reverse
        rw [if_pos (by rw [h.depth, h.dmatch, hlen]; rw [List.length_reverse] at hall hle; omega)]
        exact ih htoks' (by omega) hi' (h.pass htoks hi (Or.inl hall))

/-- **`ft_find_descendent` finds the first match.** From any node, by any path,
    the arrays are not left; NULL says that there is no match. -/
theorem ftFindDescendent_first (t : HeldTree) (i : { i // ∃ n, IsNode t.toks i n })
    (path : { s : List UInt8 // 0 ∉ s }) :
    ∃ o, FirstMatch t.toks path.val i.val o ∧
      ftFindDescendent t.cxt (t.addr i.val) path.val = some (o.map t.addr) := by
  obtain ⟨i, n, hn⟩ := i
  obtain ⟨path, hno⟩ := path
  dsimp only
  have hi := hn.lt
  have htoks : t.toks = t.toks.take i ++ .beginNode n :: t.toks.drop (i + 1) := by
    rw [← (List.getElem_eq_iff hi).mpr hn, List.getElem_cons_drop, List.take_append_drop]
  have hbound := length_le_toksSize t.toks
  have hsize := t.holds.size
  have hspace := t.space
  rw [FtRegion.stop] at hspace
  have hlen : (t.toks.take i).length = i := by
    rw [List.length_take]
    omega
  have hbefore : ∀ j < i, ¬ Matches t.toks path i j := fun j hj hmatch =>
    absurd hmatch.le (Nat.not_le_of_lt hj)
  have hself : ∀ ns, List.Forall₂ (IsNode t.toks) (chain t.toks i i) ns → ns = [] := by
    intro ns hns
    rw [chain, List.takeWhile_cons_of_neg (by simp)] at hns
    cases hns
    rfl
  rw [ftFindDescendent, HeldTree.addr, offsetOf, show 2 ^ 32 = (2 ^ 32 - 1) + 1 from rfl, findLoop,
    (htoks ▸ t.holds : HoldsTree t.cxt (t.toks.take i ++ .beginNode n :: t.toks.drop (i + 1))).step
      t.space]
  simp only [Tok.atom]
  rw [if_neg (by decide), if_neg (by decide), if_neg (by simp),
    show skipSlashes path (0 + 0) = compPos path 0 from rfl]
  by_cases hnone : (components path).length ≤ 0
  · rw [if_pos ((compPos_end hno).mpr hnone)]
    refine ⟨some i, ⟨⟨⟨n, hn⟩, List.mem_cons_self, [], ?_, ?_⟩, hbefore⟩, rfl⟩
    · rw [chain, List.takeWhile_cons_of_neg (by simp)]
      exact List.Forall₂.nil
    · rw [List.length_eq_zero_iff.mp (Nat.le_zero.mp hnone)]
      exact List.Forall₂.nil
  · rw [if_neg fun hzero => hnone ((compPos_end hno).mp hzero)]
    refine findLoop_first t hno (t.toks.drop (i + 1)) ?_ ?_ ?_
      (?_ : Searching t.toks path i (t.toks.take i ++ [.beginNode n]) [] (enclosing t.toks i) [] _)
    · rw [List.append_assoc]
      exact htoks
    · rw [List.length_drop]
      omega
    · rw [List.length_append, hlen]
      exact Nat.lt_succ_self i
    · have hzero : matched (components path) ([] : List (List UInt8)).reverse = 0 := matched_nil _
      refine ⟨?_, List.Forall₂.nil, fun k hk => absurd hk List.not_mem_nil, enclosing_lt _ _, rfl,
        by rw [hzero], by rw [hzero]; omega, by rw [hzero], rfl,
        fun k hk => absurd hk (by rw [hzero]; omega), ?_⟩
      · rw [opened_append, hlen, Nat.zero_add]
        rfl
      · intro j hj
        rw [List.length_append, hlen, List.length_singleton] at hj
        rcases Nat.lt_succ_iff_lt_or_eq.mp hj with h | rfl
        · exact hbefore j h
        · rintro ⟨-, -, ns, hns, hmatch⟩
          rw [hself ns hns] at hmatch
          cases hcs : components path with
          | nil => exact hnone (by rw [hcs]; exact le_refl _)
          | cons c cs =>
            rw [hcs] at hmatch
            cases hmatch

/-! ## §4 Two siblings -/

/-- A root with the nodes `a` and `a@1`; only the second one has a node `b`. -/
def siblingToks : List Tok :=
  [.beginNode [], .beginNode [97], .endNode, .beginNode [97, 64, 49], .beginNode [98], .endNode,
    .endNode, .endNode]

def siblingBlob : List UInt8 :=
  wordBytes 1 ++ [0, 0, 0, 0] ++ wordBytes 1 ++ [97, 0, 0, 0] ++ wordBytes 2 ++ wordBytes 1 ++
    [97, 64, 49, 0] ++ wordBytes 1 ++ [98, 0, 0, 0] ++ wordBytes 2 ++ wordBytes 2 ++ wordBytes 2 ++
    wordBytes 9

def siblingCxt : FtCxt :=
  { mem := fun a => siblingBlob.getD (a - 4096) 0
    bph := 4096
    maxSize := 52
    isordered := false
    strAnchor := 4148
    p := 4096
    rgn := fun r => if r = .struct then ⟨4096, 52⟩ else ⟨4148, 0⟩
    nodeTbl := []
    nodeMax := 8 }

theorem siblingToks_at : ToksAt siblingCxt 4096 siblingToks := by
  have hbegin : ∀ p n, word siblingCxt.mem p = ofDtBeginNode → StringAt siblingCxt.mem (p + 4) n →
      Tok.At siblingCxt p (.beginNode n) := fun p n h h' => ⟨h, h'⟩
  have hend : ∀ p, word siblingCxt.mem p = ofDtEndNode → Tok.At siblingCxt p .endNode :=
    fun p h => h
  refine ⟨hbegin _ _ ?_ ?_, hbegin _ _ ?_ ?_, hend _ ?_, hbegin _ _ ?_ ?_, hbegin _ _ ?_ ?_,
    hend _ ?_, hend _ ?_, hend _ ?_, trivial⟩ <;> decide +kernel

def siblingTree : HeldTree where
  cxt := siblingCxt
  toks := siblingToks
  holds := ⟨siblingToks_at, by decide +kernel, by decide +kernel⟩
  space := by decide
  depth := by
    intro j n hj
    have hall : ∀ k < 8, (enclosing siblingToks k).length < ftMaxDepth := by decide
    exact hall j hj.lt
  slashes := by
    intro j n hj
    have hmem := List.mem_of_getElem? hj
    simp only [siblingToks, List.mem_cons, Tok.beginNode.injEq, reduceCtorEq, List.not_mem_nil,
      or_false, false_or] at hmem
    rcases hmem with rfl | rfl | rfl | rfl
    · decide
    · decide
    · decide
    · decide

/-- `/a//b` is in the second of the siblings. -/
example : ftFindDescendent siblingTree.cxt 4096 [47, 97, 47, 47, 98] =
    some (some (siblingTree.addr 4)) := by decide +kernel

end LiloBoot.DevTree
