/-
LiloBoot.XFS.PathTheorems — which chains of links `xfs_dir` follows.

The rest of the path is copied behind the target of a link before it is read on.
From the second link on it stands in the buffer that the target is read into, and
is still there only if the target is not longer than what has been read of the
buffer. §2 is one link, §3 the simulation of the reference resolution.
-/
import LiloBoot.XFS.Path

namespace LiloBoot.XFS

/-! ## §1 The reference -/

/-- The next name of a path, and what follows it. -/
def component (path : CStr) : CStr := (path.dropWhile (· = '/')).takeWhile (· ≠ '/')

def remainder (path : CStr) : CStr := (path.dropWhile (· = '/')).dropWhile (· ≠ '/')

/-- The resolution of a path from a directory: the target of a link comes in front of the rest of
the path. The result is that of the last inode, with the links that were followed: their targets,
and the rest at each. -/
def resolve (t : Tree) : Nat → Nat → Nat → CStr →
    Option (List (CStr × CStr) × Except FileErr Nat)
  | 0, _, _, _ => none
  | fuel + 1, ino, parent, path =>
    match t.node ino with
    | .lnk target =>
      (resolve t fuel (if target.head? = some '/' then t.rootino else parent) parent
        (target ++ path)).map fun r => ((target, path) :: r.1, r.2)
    | node =>
      if path = [] then some ([], if node = .reg then .ok ino else .error .badType)
      else
        match node with
        | .dir entries =>
          match findDentry (component path) entries with
          | some newIno => resolve t fuel (if newIno ≠ 0 then newIno else ino) ino (remainder path)
          | none => some ([], .error .notfound)
        | _ => some ([], .error .notdir)

/-- A text of a path. -/
def Plain (s : CStr) : Prop := ∀ c ∈ s, isspace c = false ∧ c ≠ eos

instance (s : CStr) : Decidable (Plain s) :=
  List.decidableBAll (fun c => isspace c = false ∧ c ≠ eos) s

/-- The targets of a tree are texts that are not empty. -/
def Tree.Plain (t : Tree) : Prop :=
  ∀ ino target, t.node ino = .lnk target → target ≠ [] ∧ XFS.Plain target

/-- The length of a spliced name. -/
def spliceLength (x : CStr × CStr) : Nat := x.1.length + x.2.length

/-- No spliced name is longer than the one before it; `last` is the length of the one before. -/
def Shrinks : Option Nat → List (CStr × CStr) → Prop
  | _, [] => True
  | last, x :: xs => (∀ n ∈ last, spliceLength x ≤ n) ∧ Shrinks (some (spliceLength x)) xs

/-! ## §2 A link -/

/-- The string `s` stands at `off`. -/
structure StrAt (mem : Nat → Char) (off : Nat) (s : CStr) : Prop where
  chars : ∀ i < s.length, mem (off + i) = s.getD i eos
  ends : mem (off + s.length) = eos

section Splice

variable {t : Tree} {s : PathState} {target path : CStr} {mem : Nat → Char}

theorem Plain.append {s₁ s₂ : CStr} (h₁ : Plain s₁) (h₂ : Plain s₂) : Plain (s₁ ++ s₂) := by
  intro c hc
  rcases List.mem_append.mp hc with hc | hc
  · exact h₁ c hc
  · exact h₂ c hc

theorem getD_mem {s : CStr} {i : Nat} (h : i < s.length) : s.getD i eos ∈ s := by
  rw [List.getD_eq_getElem _ _ h]
  exact List.getElem_mem h

theorem cstrAt_eq {off bound : Nat} (h : StrAt mem off path) (hplain : Plain path)
    (hin : off + path.length < bound) : cstrAt mem off bound = path := by
  have hsplit : bound - off = path.length + (bound - off - path.length) := by omega
  have hfirst : (List.range path.length).map (fun i => mem (off + i)) = path := by
    apply List.ext_getElem
    · simp
    · intro i h1 h2
      simp only [List.getElem_map, List.getElem_range]
      rw [h.chars i h2, List.getD_eq_getElem _ _ h2]
  have hrest : ∃ n, bound - off - path.length = n + 1 := ⟨bound - off - path.length - 1, by omega⟩
  obtain ⟨n, hn⟩ := hrest
  rw [cstrAt, hsplit, List.range_add, List.map_append, hfirst, hn, List.range_succ_eq_map,
    List.map_cons, List.map_cons, Nat.add_zero, h.ends,
    List.takeWhile_append_of_pos fun c hc => by simpa using (hplain c hc).2,
    List.takeWhile_cons_of_neg (by simp), List.append_nil]

/-- A write to `linkbuf` before the place that is read. -/
theorem char_update {n i : Nat} {c : Char} (h : s.inLink = true → n < i) :
    s.char (Function.update mem n c) i = s.char mem i := by
  rw [PathState.char, PathState.char]
  split
  · rename_i hin
    rw [Function.update_of_ne (Nat.ne_of_gt (h hin))]
  · rfl

/-- The copy of a rest that stands outside of `linkbuf`, or not before the place it goes to. -/
theorem copyRest_spec (s : PathState) (path : CStr) : ∀ room mem n d, path.length ≤ room →
    (∀ i < path.length, s.char mem (d + i) = path.getD i eos) →
    s.char mem (d + path.length) = eos → Plain path → (s.inLink = true → n ≤ d) →
    StrAt (Function.update (copyRest s room mem n d).1 (copyRest s room mem n d).2 eos) n path
      ∧ ∀ i < n, Function.update (copyRest s room mem n d).1 (copyRest s room mem n d).2 eos i
        = mem i := by
  induction path with
  | nil =>
    intro room mem n d _ _ hend _ _
    rw [List.length_nil, Nat.add_zero] at hend
    cases room with
    | zero =>
      refine ⟨⟨fun i hi => absurd hi (Nat.not_lt_zero i), ?_⟩, fun i hi => ?_⟩
      · exact Function.update_self _ _ _
      · exact Function.update_of_ne (Nat.ne_of_lt hi) _ _
    | succ room =>
      have hcopy : copyRest s (room + 1) mem n d = (Function.update mem n eos, n + 1) := by
        rw [copyRest, hend]
        rfl
      rw [hcopy]
      simp only
      refine ⟨⟨fun i hi => absurd hi (Nat.not_lt_zero i), ?_⟩, fun i hi => ?_⟩
      · exact (Function.update_of_ne (Nat.ne_of_lt (Nat.lt_succ_self n)) _ _).trans
          (Function.update_self _ _ _)
      · rw [Function.update_of_ne (Nat.ne_of_lt (Nat.lt_succ_of_lt hi)),
          Function.update_of_ne (Nat.ne_of_lt hi)]
  | cons c path ih =>
    intro room mem n d hroom hchars hend hplain hbehind
    rw [List.length_cons] at hroom hchars hend
    obtain ⟨room, rfl⟩ : ∃ m, room = m + 1 := ⟨room - 1, by omega⟩
    have hc : s.char mem d = c := hchars 0 (Nat.succ_pos _)
    have hne : c ≠ eos := (hplain c List.mem_cons_self).2
    have hcopy : copyRest s (room + 1) mem n d
        = copyRest s room (Function.update mem n c) (n + 1) (d + 1) := by
      rw [copyRest, hc]
      exact if_neg hne
    obtain ⟨⟨hread, hstop⟩, hkeep⟩ := ih room (Function.update mem n c) (n + 1) (d + 1) (by omega)
      (fun i hi => by
        rw [char_update (fun hin => by have := hbehind hin; omega), Nat.add_assoc, Nat.add_comm 1 i]
        exact hchars (i + 1) (by omega))
      (by
        rw [char_update (fun hin => by have := hbehind hin; omega), Nat.add_assoc,
          Nat.add_comm 1 path.length]
        exact hend)
      (fun x hx => hplain x (List.mem_cons_of_mem _ hx)) (fun hin => by have := hbehind hin; omega)
    rw [hcopy]
    refine ⟨⟨fun i hi => ?_, ?_⟩, fun i hi => ?_⟩
    · cases i with
      | zero => exact (hkeep n (Nat.lt_succ_self n)).trans (Function.update_self _ _ _)
      | succ i =>
        rw [← Nat.add_assoc, Nat.add_right_comm]
        exact hread i (by simpa using hi)
    · rw [List.length_cons, ← Nat.add_assoc, Nat.add_right_comm]
      exact hstop
    · rw [hkeep i (by omega), Function.update_of_ne (Nat.ne_of_lt hi)]

/-- The rest of the path stands at `dirname`. -/
structure Unread (t : Tree) (s : PathState) (path : CStr) : Prop where
  chars : ∀ i < path.length, s.char s.linkbuf (s.dirname + i) = path.getD i eos
  ends : s.char s.linkbuf (s.dirname + path.length) = eos
  plain : Plain path
  inside : s.inLink = true → s.dirname + path.length < t.bsize

theorem char_readLink {i : Nat} (h : s.inLink = true → target.length ≤ i) :
    s.char (readLink target s.linkbuf) i = s.char s.linkbuf i := by
  rw [PathState.char, PathState.char]
  split
  · rename_i hin
    rw [readLink, if_neg (Nat.not_lt.mpr (h hin))]
  · rfl

/-- **A link is spliced** into the path, if the rest does not stand where the target goes. -/
theorem spliceLink_spec (h : Unread t s path)
    (hroom : target.length + path.length < t.bsize)
    (hsaved : s.inLink = true → target.length ≤ s.dirname) :
    StrAt (spliceLink t target s) 0 (target ++ path) := by
  obtain ⟨⟨hread, hstop⟩, hkeep⟩ := copyRest_spec s path (t.bsize - 1 - target.length)
    (readLink target s.linkbuf) target.length s.dirname (by omega)
    (fun i hi => by
      rw [char_readLink fun hin => Nat.le_trans (hsaved hin) (Nat.le_add_right _ _)]
      exact h.chars i hi)
    (by
      rw [char_readLink fun hin => Nat.le_trans (hsaved hin) (Nat.le_add_right _ _)]
      exact h.ends)
    h.plain hsaved
  refine ⟨fun i hi => ?_, ?_⟩
  · rw [Nat.zero_add]
    by_cases hfirst : i < target.length
    · rw [List.getD_append _ _ _ _ hfirst]
      refine (hkeep i hfirst).trans ?_
      rw [readLink, if_pos hfirst]
    · rw [List.getD_append_right _ _ _ _ (Nat.le_of_not_lt hfirst)]
      rw [List.length_append] at hi
      have hchar := hread (i - target.length) (by omega)
      rw [Nat.add_sub_cancel' (Nat.le_of_not_lt hfirst)] at hchar
      exact hchar
  · rw [Nat.zero_add, List.length_append]
    exact hstop

/-- A rest that is overwritten is never ended: the copy reads what it has just written. -/
theorem copyRest_lost (hin : s.inLink = true) : ∀ room mem n d, d < n →
    (∀ i, d ≤ i → i < n → mem i ≠ eos) →
    (copyRest s room mem n d).2 = n + room
      ∧ (∀ i, d ≤ i → i < n + room → (copyRest s room mem n d).1 i ≠ eos)
      ∧ ∀ i < n, (copyRest s room mem n d).1 i = mem i := by
  intro room
  induction room with
  | zero =>
    intro mem n d _ hmem
    exact ⟨rfl, fun i hd hi => hmem i hd hi, fun _ _ => rfl⟩
  | succ room ih =>
    intro mem n d hlt hmem
    have hchar : s.char mem d = mem d := by rw [PathState.char, if_pos hin]
    have hne : mem d ≠ eos := hmem d (Nat.le_refl d) hlt
    have hcopy : copyRest s (room + 1) mem n d
        = copyRest s room (Function.update mem n (mem d)) (n + 1) (d + 1) := by
      rw [copyRest, hchar]
      exact if_neg hne
    obtain ⟨hlength, hnonzero, hkeep⟩ := ih (Function.update mem n (mem d)) (n + 1) (d + 1)
      (by omega) (fun i hd hi => by
        by_cases hn : i = n
        · rw [hn, Function.update_self]
          exact hne
        · rw [Function.update_of_ne hn]
          exact hmem i (by omega) (by omega))
    rw [hcopy]
    refine ⟨by omega, fun i hd hi => ?_, fun i hi => ?_⟩
    · by_cases hfirst : i = d
      · rw [hfirst, hkeep d (by omega), Function.update_of_ne (by omega)]
        exact hne
      · exact hnonzero i (by omega) (by omega)
    · rw [hkeep i (by omega), Function.update_of_ne (Nat.ne_of_lt hi)]

theorem cstrAt_full {off n : Nat} (h : ∀ i < n, mem (off + i) ≠ eos) (hend : mem (off + n) = eos) :
    (cstrAt mem off (off + n + 1)).length = n := by
  have hrange : off + n + 1 - off = n + 1 := by omega
  have hall : ∀ c ∈ (List.range n).map (fun i => mem (off + i)), decide (c ≠ eos) = true := by
    intro c hc
    obtain ⟨i, hi, rfl⟩ := List.mem_map.mp hc
    exact decide_eq_true (h i (List.mem_range.mp hi))
  rw [cstrAt, hrange, List.range_succ, List.map_append, List.takeWhile_append_of_pos hall,
    List.map_cons, hend, List.takeWhile_cons_of_neg (by simp), List.append_nil, List.length_map,
    List.length_range]

/-- **When the next path is right**: with a spliced name that does not fill the buffer, just if
the rest did not stand in the way of the target. -/
theorem spliceLink_iff (h : Unread t s path) (htarget : Plain target)
    (hroom : target.length + path.length + 1 < t.bsize) :
    cstrAt (spliceLink t target s) 0 t.bsize = target ++ path
      ↔ (s.inLink = true → target.length ≤ s.dirname) := by
  constructor
  · intro heq hin
    by_contra hlost
    obtain ⟨hlength, hnonzero, hkeep⟩ := copyRest_lost hin (t.bsize - 1 - target.length)
      (readLink target s.linkbuf) target.length s.dirname (by omega) (fun i _ hi => by
        rw [readLink, if_pos hi]
        exact (htarget _ (getD_mem hi)).2)
    rw [Nat.add_sub_cancel' (by omega)] at hlength hnonzero
    have hfull := @cstrAt_full (spliceLink t target s) 0 (t.bsize - 1)
      (fun i hi => by
        rw [Nat.zero_add, spliceLink, hlength, Function.update_of_ne (Nat.ne_of_lt hi)]
        by_cases hfirst : i < target.length
        · rw [hkeep i hfirst, readLink, if_pos hfirst]
          exact (htarget _ (getD_mem hfirst)).2
        · exact hnonzero i (by omega) hi)
      (by
        rw [Nat.zero_add, spliceLink, hlength, Function.update_self])
    rw [Nat.zero_add, Nat.sub_add_cancel (by omega), heq, List.length_append] at hfull
    omega
  · intro hsaved
    refine cstrAt_eq (spliceLink_spec h (by omega) hsaved) (htarget.append h.plain) ?_
    rw [List.length_append]
    omega

end Splice

/-! ## §3 The simulation -/

section Simulation

variable {t : Tree} {s : PathState} {ino parent : Nat} {path : CStr} {last : Option Nat}

/-- The state of `xfs_dir` for a state of the reference; `last` is the length of the name that was
spliced last. -/
structure Rel (t : Tree) (s : PathState) (ino parent : Nat) (path : CStr) (last : Option Nat) :
    Prop where
  ino : s.ino = ino
  parent : s.parentIno = parent
  unread : Unread t s path
  last : s.inLink = true → last = some (s.dirname + path.length)
  buffer : s.inLink = false → s.buffer.drop s.dirname = path

theorem Rel.path_eq (h : Rel t s ino parent path last) : s.path t = path := by
  rw [PathState.path]
  split
  · rename_i hin
    refine cstrAt_eq ⟨fun i hi => ?_, ?_⟩ h.unread.plain (h.unread.inside hin)
    · have hchar := h.unread.chars i hi
      rw [PathState.char, if_pos hin] at hchar
      exact hchar
    · have hend := h.unread.ends
      rw [PathState.char, if_pos hin] at hend
      exact hend
  · rename_i hin
    exact h.buffer (Bool.eq_false_iff.mpr hin)

theorem atEnd_iff (h : Plain path) : atEnd path = true ↔ path = [] := by
  cases path with
  | nil => simp [atEnd]
  | cons c path =>
    have hc := (h c List.mem_cons_self).1
    simp [atEnd, hc]

/-- In a text a name ends only at a slash. -/
theorem firstName_eq (h : Plain path) : firstName path = component path := by
  have hsame : ∀ p : CStr, Plain p →
      p.takeWhile (fun c => !isspace c && decide (c ≠ '/')) = p.takeWhile fun c => decide (c ≠ '/') := by
    intro p
    induction p with
    | nil => exact fun _ => rfl
    | cons c p ih =>
      intro hp
      have hc := (hp c List.mem_cons_self).1
      rw [List.takeWhile_cons, List.takeWhile_cons, hc,
        ih fun x hx => hp x (List.mem_cons_of_mem _ hx)]
      simp
  rw [firstName, component]
  exact hsame _ fun c hc => h c ((List.dropWhile_sublist _).subset hc)

/-- The name is taken from the front of the path. -/
theorem path_split (path : CStr) : ∃ front, path = front ++ remainder path
    ∧ front.length = (slashes path).length + (component path).length := by
  refine ⟨slashes path ++ component path, ?_, List.length_append⟩
  rw [slashes, component, remainder, List.append_assoc, List.takeWhile_append_dropWhile,
    List.takeWhile_append_dropWhile]

/-- A name is read. -/
theorem Rel.enter (h : Rel t s ino parent path last) (newIno : Nat) :
    Rel t (enterEntry newIno path s) (if newIno ≠ 0 then newIno else ino) ino (remainder path)
      last := by
  obtain ⟨hino, hparent, ⟨hchars, hend, hplain, hinside⟩, hlast, hbuffer⟩ := h
  obtain ⟨front, hsplit, hfront⟩ := path_split path
  have hlength : path.length = front.length + (remainder path).length := by
    have happend := @List.length_append _ front (remainder path)
    rwa [← hsplit] at happend
  have hget : ∀ i, path.getD (front.length + i) eos = (remainder path).getD i eos := by
    intro i
    have hright := List.getD_append_right front (remainder path) eos (front.length + i)
      (Nat.le_add_right _ _)
    rwa [← hsplit, Nat.add_sub_cancel_left] at hright
  have hchar : ∀ i, (enterEntry newIno path s).char (enterEntry newIno path s).linkbuf i
      = s.char s.linkbuf i := fun _ => rfl
  have hdirname : (enterEntry newIno path s).dirname = s.dirname + front.length := by
    rw [enterEntry, firstName_eq hplain, Nat.add_assoc, hfront]
  refine ⟨?_, hino, ⟨fun i hi => ?_, ?_, fun c hc => ?_, fun hin => ?_⟩, fun hin => ?_, fun hin => ?_⟩
  · rw [enterEntry, hino]
  · rw [hchar, hdirname, Nat.add_assoc, hchars _ (by omega), hget]
  · rw [hchar, hdirname, Nat.add_assoc, ← hlength]
    exact hend
  · refine hplain c ?_
    rw [hsplit]
    exact List.mem_append_right _ hc
  · have hin' := hinside hin
    rw [hdirname]
    omega
  · rw [hlast hin, hdirname]
    congr 1
    omega
  · have hold : s.buffer.drop s.dirname = path := hbuffer hin
    have hdrop := @List.drop_left _ front (remainder path)
    rw [← hsplit] at hdrop
    rw [hdirname, ← List.drop_drop]
    exact (congrArg (List.drop front.length) hold).trans hdrop

/-- A link is followed. -/
theorem Rel.follow (h : Rel t s ino parent path last) {target : CStr} (hne : target ≠ [])
    (htarget : Plain target) (hroom : target.length + path.length < t.bsize)
    (hsaved : ∀ n ∈ last, target.length + path.length ≤ n) :
    Rel t (followLink t target s) (if target.head? = some '/' then t.rootino else parent) parent
      (target ++ path) (some (target.length + path.length)) := by
  obtain ⟨hino, hparent, hunread, hlast, hbuffer⟩ := h
  have hbehind : s.inLink = true → target.length ≤ s.dirname := by
    intro hin
    have hle := hsaved _ (hlast hin)
    omega
  obtain ⟨hread, hstop⟩ := spliceLink_spec hunread hroom hbehind
  have hfirst : readLink target s.linkbuf 0 = target.getD 0 eos := by
    rw [readLink, if_pos (List.length_pos_of_ne_nil hne)]
  refine ⟨?_, hparent, ⟨fun i hi => ?_, ?_, htarget.append hunread.plain, fun _ => ?_⟩,
    fun _ => ?_, fun hin => ?_⟩
  · rw [followLink, hfirst, hparent]
    cases target with
    | nil => exact absurd rfl hne
    | cons c target => simp
  · exact hread i hi
  · exact hstop
  · rw [List.length_append]
    exact (Nat.zero_add _).symm ▸ hroom
  · rw [List.length_append]
    exact congrArg some (Nat.zero_add _).symm
  · cases hin

/-- `xfs_dir` goes the way of the reference. -/
theorem xfsDirLoop_resolve (htree : t.Plain) (fuel : Nat) : ∀ s ino parent path last splices r,
    Rel t s ino parent path last → resolve t fuel ino parent path = some (splices, r) →
    s.linkCount + splices.length ≤ maxLinkCount →
    (∀ x ∈ splices, x.1.length + 1 < t.bsize ∧ spliceLength x < t.bsize) →
    Shrinks last splices → xfsDirLoop t fuel s = some r := by
  induction fuel with
  | zero =>
    intro s ino parent path last splices r _ hresolve
    cases hresolve
  | succ fuel ih =>
    intro s ino parent path last splices r h hresolve hlinks hroom hshrinks
    by_cases hlink : ∃ target, t.node ino = .lnk target
    · obtain ⟨target, hnode⟩ := hlink
      obtain ⟨hne, hplain⟩ := htree ino target hnode
      rw [resolve, hnode] at hresolve
      obtain ⟨⟨links, r'⟩, hrest, heq⟩ := Option.map_eq_some_iff.mp hresolve
      cases heq
      obtain ⟨hsize, hsplice⟩ := hroom (target, path) List.mem_cons_self
      obtain ⟨hsaved, hshrinks⟩ := hshrinks
      have hlinks : s.linkCount + (links.length + 1) ≤ maxLinkCount := hlinks
      have hsize : target.length + 1 < t.bsize := hsize
      have hcount : (followLink t target s).linkCount = s.linkCount + 1 := rfl
      have hnext := ih _ _ _ _ _ _ _ (h.follow hne hplain hsplice hsaved) hrest
        (by rw [hcount]; omega) (fun x hx => hroom x (List.mem_cons_of_mem _ hx)) hshrinks
      rw [xfsDirLoop, h.ino, hnode]
      simp only
      rw [if_neg (by omega), if_pos (by omega), hnext]
    · rw [xfsDirLoop, h.ino, h.path_eq]
      rw [resolve] at hresolve
      cases hkind : t.node ino with
      | lnk target => exact absurd ⟨target, hkind⟩ hlink
      | reg =>
        rw [hkind] at hresolve
        by_cases hempty : path = []
        · simp only [(atEnd_iff h.unread.plain).mpr hempty, if_pos hempty, if_true, Option.some.injEq,
            Prod.mk.injEq] at hresolve ⊢
          exact hresolve.2
        · simp only [atEnd_iff h.unread.plain, if_neg hempty, Option.some.injEq,
            Prod.mk.injEq] at hresolve ⊢
          exact hresolve.2
      | other =>
        rw [hkind] at hresolve
        by_cases hempty : path = []
        · simp only [(atEnd_iff h.unread.plain).mpr hempty, if_pos hempty, if_true, reduceCtorEq, if_false,
            Option.some.injEq, Prod.mk.injEq] at hresolve ⊢
          exact hresolve.2
        · simp only [atEnd_iff h.unread.plain, if_neg hempty, Option.some.injEq,
            Prod.mk.injEq] at hresolve ⊢
          exact hresolve.2
      | dir entries =>
        rw [hkind] at hresolve
        by_cases hempty : path = []
        · simp only [(atEnd_iff h.unread.plain).mpr hempty, if_pos hempty, if_true, reduceCtorEq, if_false,
            Option.some.injEq, Prod.mk.injEq] at hresolve ⊢
          exact hresolve.2
        · simp only [atEnd_iff h.unread.plain, firstName_eq h.unread.plain,
            if_neg hempty] at hresolve ⊢
          cases hfind : findDentry (component path) entries with
          | none =>
            simp only [hfind, Option.some.injEq, Prod.mk.injEq] at hresolve ⊢
            exact hresolve.2
          | some newIno =>
            rw [hfind] at hresolve
            exact ih _ _ _ _ _ _ _ (h.enter newIno) hresolve hlinks hroom hshrinks

end Simulation

/-- **The resolution of a path** is that of the reference, if every target leaves room for two
bytes in a block, and no spliced name is longer than the one before it. -/
theorem xfsDir_resolves (t : Tree) (htree : t.Plain) (path : CStr) (hpath : Plain path)
    (linkbuf : Nat → Char) (fuel : Nat) (splices : List (CStr × CStr)) (r : Except FileErr Nat)
    (hresolve : resolve t fuel t.rootino t.rootino path = some (splices, r))
    (hlinks : splices.length ≤ maxLinkCount) (hroom : ∀ x ∈ splices, spliceLength x < t.bsize)
    (hfits : ∀ x ∈ splices, x.1.length + 1 < t.bsize) (hshrinks : Shrinks none splices) :
    xfsDir t fuel linkbuf path = some r := by
  have hstart : Rel t ⟨t.rootino, t.rootino, 0, path, linkbuf, false, 0⟩ t.rootino t.rootino path
      none := by
    refine ⟨rfl, rfl, ⟨fun i _ => ?_, ?_, hpath, fun hin => ?_⟩, fun hin => ?_, fun _ => rfl⟩
    · rw [Nat.zero_add]
      rfl
    · rw [Nat.zero_add]
      exact List.getD_eq_default _ _ (Nat.le_refl _)
    · cases hin
    · cases hin
  exact xfsDirLoop_resolve htree fuel _ _ _ _ _ _ _ hstart hresolve (by rw [Nat.zero_add]; exact hlinks)
    (fun x hx => ⟨hfits x hx, hroom x hx⟩) hshrinks

/-! ## §4 Two links -/

/-- `a` is a link to `b`, `b` a link to `cc`, `d` a link to `./b`, and `cc` a file. -/
def linkTree : Tree where
  rootino := 128
  bsize := 512
  node := fun ino =>
    if ino = 128 then .dir [(['.'], 128), (['a'], 1), (['b'], 2), (['c', 'c'], 3), (['d'], 4)]
    else if ino = 1 then .lnk ['b']
    else if ino = 2 then .lnk ['c', 'c']
    else if ino = 4 then .lnk ['.', '/', 'b']
    else .reg

theorem linkTree_plain : linkTree.Plain := by
  intro ino target h
  simp only [linkTree] at h
  split at h
  · cases h
  · split at h
    · cases h
      exact ⟨by decide, by decide⟩
    · split at h
      · cases h
        exact ⟨by decide, by decide⟩
      · split at h
        · cases h
          exact ⟨by decide, by decide⟩
        · cases h

/-- The second target is shorter than what has been read of the first one. -/
theorem shrinkingLinks_resolved :
    xfsDir linkTree 7 (fun _ => eos) ['/', 'd'] = some (.ok 3) :=
  xfsDir_resolves linkTree linkTree_plain ['/', 'd'] (by decide) (fun _ => eos) 7
    [(['.', '/', 'b'], []), (['c', 'c'], [])] (.ok 3) (by decide +kernel) (by decide)
    (by decide) (by decide)
    ⟨fun _ h => (by cases h), fun n h => (by cases h; decide), trivial⟩

/-- The second target is longer than what has been read of the first one, and the file is not
found. -/
theorem secondLink_lost :
    linkTree.Plain ∧ Plain ['/', 'a']
      ∧ resolve linkTree 6 128 128 ['/', 'a'] = some ([(['b'], []), (['c', 'c'], [])], .ok 3)
      ∧ (∀ x ∈ [((['b'] : CStr), ([] : CStr)), (['c', 'c'], [])],
        spliceLength x < linkTree.bsize ∧ x.1.length + 1 < linkTree.bsize)
      ∧ xfsDir linkTree 6 (fun _ => eos) ['/', 'a'] = some (.error .notfound)
      ∧ xfsDir linkTree 6 (fun _ => eos) ['/', 'a'] ≠ some (.ok 3) := by
  have hlost : xfsDir linkTree 6 (fun _ => eos) ['/', 'a'] = some (.error .notfound) := by
    decide +kernel
  refine ⟨linkTree_plain, by decide, by decide +kernel, by decide, hlost, ?_⟩
  rw [hlost]
  decide

end LiloBoot.XFS
