/-
LiloBoot.ReiserFS.OpenFileTheorems — `reiserfs_open_file` finds what the name stands
for.

The directory tree is a function from keys to objects, with a reference resolution
on it. An object is on the disk as a stat item and what follows it. §3 is the search
in a directory, §4 a link, §5 goes through the loop beside the reference.
-/
import LiloBoot.ReiserFS.OpenFile
import LiloBoot.ReiserFS.ReadDataTheorems

namespace LiloBoot.ReiserFS

open LiloBoot.Memory

/-! ## §1 The reference -/

/-- An entry of a directory. -/
structure DirEntry where
  visible : Bool
  name : List UInt8
  dirId : Nat
  objectid : Nat
  deriving DecidableEq, Repr

/-- What the stat data of a key stand for. -/
inductive Obj where
  | reg (size : Nat)
  | dir (entries : List DirEntry)
  | lnk (target : List UInt8)
  | other

/-- A directory tree, by directory and object id. -/
abbrev FsTree := Nat → Nat → Option Obj

/-- What a name stands for in a directory. -/
def lookup (name : List UInt8) (entries : List DirEntry) : Option (Nat × Nat) :=
  (entries.find? fun e => e.visible && e.name = name).map fun e => (e.dirId, e.objectid)

/-- The next name of a path, and what follows it. -/
def firstName (path : List UInt8) : List UInt8 := (path.dropWhile (· = slash)).takeWhile (· ≠ slash)

def remainder (path : List UInt8) : List UInt8 := (path.dropWhile (· = slash)).dropWhile (· ≠ slash)

/-- The resolution of a path in `n` steps: the links that are followed, with the rest of the path at
each, and, if it comes to an end, the key and the size of the regular file, where there is one. -/
def resolve (t : FsTree) : Nat → Nat × Nat → Nat × Nat → List UInt8 →
    List (List UInt8 × List UInt8) × Option (Option ((Nat × Nat) × Nat))
  | 0, _, _, _ => ([], none)
  | n + 1, key, parent, path =>
    match t key.1 key.2 with
    | none => ([], some none)
    | some (.lnk target) =>
      let r := resolve t n (if target.head? = some slash then rootDir else parent) parent
        (target ++ path)
      ((target, path) :: r.1, r.2)
    | some (.reg size) => ([], some (if path = [] then some (key, size) else none))
    | some (.dir entries) =>
      if firstName path = [] then ([], some none)
      else
        match lookup (firstName path) entries with
        | some next => resolve t n next key (remainder path)
        | none => ([], some none)
    | some .other => ([], some none)

/-- A text of a path. -/
def Plain (s : List UInt8) : Prop := ∀ c ∈ s, isspace c = false ∧ c ≠ 0

instance Plain.decidable (s : List UInt8) : Decidable (Plain s) :=
  List.decidableBAll (fun c => isspace c = false ∧ c ≠ 0) s

/-- The targets of a tree are texts, and neither they nor the names in it are empty. -/
structure PlainTree (t : FsTree) : Prop where
  target : ∀ {d o target}, t d o = some (.lnk target) → target ≠ [] ∧ Plain target
  names : ∀ {d o entries}, t d o = some (.dir entries) → ∀ e ∈ entries, e.name ≠ []

/-- The length of a spliced name. -/
def spliceLength (x : List UInt8 × List UInt8) : Nat := x.1.length + x.2.length

theorem remainder_length {path : List UInt8} (h : firstName path ≠ []) :
    (remainder path).length < path.length := by
  have hsplit := congrArg List.length
    (@List.takeWhile_append_dropWhile _ (· ≠ slash) (path.dropWhile (· = slash)))
  have hle := (List.dropWhile_sublist (l := path) (· = slash)).length_le
  have hpos := List.length_pos_of_ne_nil h
  rw [List.length_append] at hsplit
  rw [firstName] at hpos
  rw [remainder]
  omega

/-- The reference comes to an end, or it goes through as many links as one likes: between two links
the path gets shorter. -/
theorem resolve_ends (t : FsTree) (links : Nat) : ∀ (length : Nat) {key parent : Nat × Nat}
    {path : List UInt8}, path.length < length →
    ∃ n, (∃ found, (resolve t n key parent path).2 = some found)
      ∨ links ≤ (resolve t n key parent path).1.length := by
  induction links with
  | zero => exact fun _ _ _ _ _ => ⟨0, Or.inr (Nat.zero_le _)⟩
  | succ links ih =>
    intro length
    induction length with
    | zero => exact fun h => absurd h (Nat.not_lt_zero _)
    | succ length ihl =>
      intro key parent path hlength
      cases hkind : t key.1 key.2 with
      | none => exact ⟨1, Or.inl ⟨none, by simp only [resolve, hkind]⟩⟩
      | some obj =>
        cases obj with
        | other => exact ⟨1, Or.inl ⟨none, by simp only [resolve, hkind]⟩⟩
        | reg size =>
          refine ⟨1, Or.inl ⟨if path = [] then some (key, size) else none, ?_⟩⟩
          simp only [resolve, hkind]
        | lnk target =>
          obtain ⟨n, hn⟩ := @ih _ (if target.head? = some slash then rootDir else parent) parent
            (target ++ path) (Nat.lt_succ_self _)
          refine ⟨n + 1, ?_⟩
          simp only [resolve, hkind, List.length_cons]
          exact hn.imp_right Nat.succ_le_succ
        | dir entries =>
          by_cases hname : firstName path = []
          · exact ⟨1, Or.inl ⟨none, by simp only [resolve, hkind, if_pos hname]⟩⟩
          · cases hfound : lookup (firstName path) entries with
            | none => exact ⟨1, Or.inl ⟨none, by simp only [resolve, hkind, if_neg hname, hfound]⟩⟩
            | some next =>
              have hshorter := remainder_length hname
              obtain ⟨n, hn⟩ := @ihl next key (remainder path) (by omega)
              refine ⟨n + 1, ?_⟩
              simp only [resolve, hkind, if_neg hname, hfound]
              exact hn

/-- More steps go further in the same way. -/
theorem resolve_le (t : FsTree) (n : Nat) : ∀ {n' : Nat} {key parent : Nat × Nat} {path : List UInt8},
    n ≤ n' → (resolve t n key parent path).1 <+: (resolve t n' key parent path).1
      ∧ ∀ found, (resolve t n key parent path).2 = some found →
        resolve t n' key parent path = resolve t n key parent path := by
  induction n with
  | zero =>
    intro n' key parent path _
    exact ⟨List.nil_prefix, fun found h => by cases h⟩
  | succ n ih =>
    intro n' key parent path hle
    obtain ⟨n', rfl⟩ : ∃ k, n' = k + 1 := ⟨n' - 1, by omega⟩
    cases hkind : t key.1 key.2 with
    | none =>
      simp only [resolve, hkind]
      exact ⟨List.prefix_rfl, fun _ _ => trivial⟩
    | some obj =>
      cases obj with
      | other =>
        simp only [resolve, hkind]
        exact ⟨List.prefix_rfl, fun _ _ => trivial⟩
      | reg size =>
        simp only [resolve, hkind]
        exact ⟨List.prefix_rfl, fun _ _ => trivial⟩
      | lnk target =>
        obtain ⟨hpre, hsame⟩ := @ih n' (if target.head? = some slash then rootDir else parent)
          parent (target ++ path) (by omega)
        simp only [resolve, hkind]
        refine ⟨List.prefix_cons_inj (target, path) |>.mpr hpre, fun found h => ?_⟩
        rw [hsame found h]
      | dir entries =>
        by_cases hname : firstName path = []
        · simp only [resolve, hkind, if_pos hname]
          exact ⟨List.prefix_rfl, fun _ _ => trivial⟩
        · cases hfound : lookup (firstName path) entries with
          | none =>
            simp only [resolve, hkind, if_neg hname, hfound]
            exact ⟨List.prefix_rfl, fun _ _ => trivial⟩
          | some next =>
            simp only [resolve, hkind, if_neg hname, hfound]
            exact ih (by omega)

/-! ## §2 The tree on the disk -/

/-- A name that ends at `stop` or with a NUL before it. -/
structure NameIn (leaf : Bytes) (p stop : Nat) (name : List UInt8) : Prop where
  bytes : BytesAt leaf p name
  noNul : 0 ∉ name
  inside : p + name.length ≤ stop
  nul : p + name.length < stop → leaf (p + name.length) = 0

/-- The entries of a directory item, from a head on; the first name ends at `nameEnd`. -/
def EntriesAt (leaf : Bytes) (item : Nat) : Nat → Nat → List DirEntry → Prop
  | _, _, [] => True
  | deHead, nameEnd, e :: rest =>
    (dehVisible leaf deHead = e.visible ∧ dehDirId leaf deHead = e.dirId
      ∧ dehObjectid leaf deHead = e.objectid
      ∧ NameIn leaf (item + dehLocation leaf deHead) nameEnd e.name)
    ∧ EntriesAt leaf item (deHead + dehSize) (item + dehLocation leaf deHead) rest

/-- An item of a directory. -/
structure DirItem (leaf : Bytes) (ih objectid : Nat) (entries : List DirEntry) : Prop where
  objectid : (ihKey leaf ih).objectid = objectid
  count : ihEntryCount leaf ih = entries.length
  entries : EntriesAt leaf (ihLocation leaf ih) (ihLocation leaf ih)
    (ihLocation leaf ih + ihItemLen leaf ih) entries

/-- Items with the entries of a directory. -/
def DirParts (disk : Nat → Bytes) (objectid : Nat) : List (List DirEntry) → List (Nat × Nat) → Prop
  | [], items => items = []
  | _ :: _, [] => False
  | part :: parts, item :: items =>
    DirItem (disk item.1) (itemHead item.2) objectid part ∧ DirParts disk objectid parts items

/-- What comes behind the items of an object is of another object; at the end of the tree it is the
delimiting key of the last leaf. -/
def Ends (disk : Nat → Bytes) (objectid : Nat) (last : Nat) : List (Nat × Nat) → Prop
  | [] => (ihKey (disk last) blkRightDelimKey).objectid ≠ objectid
  | item :: _ => (itemKey disk item).objectid ≠ objectid

instance NameIn.decidable (leaf : Bytes) (p stop : Nat) (name : List UInt8) :
    Decidable (NameIn leaf p stop name) :=
  decidable_of_iff (BytesAt leaf p name ∧ 0 ∉ name ∧ p + name.length ≤ stop
      ∧ (p + name.length < stop → leaf (p + name.length) = 0))
    ⟨fun h => ⟨h.1, h.2.1, h.2.2.1, h.2.2.2⟩, fun h => ⟨h.bytes, h.noNul, h.inside, h.nul⟩⟩

instance EntriesAt.decidable (leaf : Bytes) (item : Nat) :
    ∀ deHead nameEnd entries, Decidable (EntriesAt leaf item deHead nameEnd entries)
  | _, _, [] => isTrue trivial
  | deHead, nameEnd, e :: rest =>
    have := EntriesAt.decidable leaf item (deHead + dehSize) (item + dehLocation leaf deHead) rest
    inferInstanceAs (Decidable ((dehVisible leaf deHead = e.visible
      ∧ dehDirId leaf deHead = e.dirId ∧ dehObjectid leaf deHead = e.objectid
      ∧ NameIn leaf (item + dehLocation leaf deHead) nameEnd e.name)
      ∧ EntriesAt leaf item (deHead + dehSize) (item + dehLocation leaf deHead) rest))

instance DirItem.decidable (leaf : Bytes) (ih objectid : Nat) (entries : List DirEntry) :
    Decidable (DirItem leaf ih objectid entries) :=
  decidable_of_iff ((ihKey leaf ih).objectid = objectid ∧ ihEntryCount leaf ih = entries.length
      ∧ EntriesAt leaf (ihLocation leaf ih) (ihLocation leaf ih)
        (ihLocation leaf ih + ihItemLen leaf ih) entries)
    ⟨fun h => ⟨h.1, h.2.1, h.2.2⟩, fun h => ⟨h.objectid, h.count, h.entries⟩⟩

/-- The file that a key stands for, as `reiserfs_read_data` sees it. -/
def Mounted.file (m : Mounted) (d o : Nat) : OpenFile := ⟨m.info, m.version, d, o⟩

/-- `sd_mode` of a stat item. -/
def statMode (disk : Nat → Bytes) (stat : Nat × Nat) : Nat :=
  sdMode (disk stat.1) (ihLocation (disk stat.1) (itemHead stat.2))

/-- `sd_size` of a stat item. -/
def statSize (disk : Nat → Bytes) (stat : Nat × Nat) : Nat :=
  sdSize (disk stat.1) (itemHead stat.2) (ihLocation (disk stat.1) (itemHead stat.2))

/-- The stat item and the items behind it are those of the object. -/
def ObjectAt (m : Mounted) (disk : Nat → Bytes) (d o : Nat) (stat : Nat × Nat)
    (items rest : List (Nat × Nat)) : Obj → Prop
  | .reg size => isReg (statMode disk stat) = true ∧ statSize disk stat = size
  | .dir entries => isDir (statMode disk stat) = true
    ∧ (∃ parts, parts.flatten = entries ∧ DirParts disk o parts items)
    ∧ Ends disk o ((stat :: items).getLast (List.cons_ne_nil _ _)).1 rest
  | .lnk target => isLnk (statMode disk stat) = true ∧ statSize disk stat = target.length
    ∧ ∃ bodies, FileOnDisk (m.file d o) disk bodies stat items
      ∧ target.length ≤ bodiesSize (2 ^ m.info.blocksizeShift) bodies
      ∧ ∀ i < target.length,
        fileByte disk (2 ^ m.info.blocksizeShift) bodies i = target.getD i 0
  | .other => isReg (statMode disk stat) = false ∧ isDir (statMode disk stat) = false
    ∧ isLnk (statMode disk stat) = false

/-- `search_stat` and `next_key` enumerate the items of the tree correctly, in every state of a
class that they do not leave; no object has as many items as the loops have fuel. -/
structure Enumerated (m : Mounted) (disk : Nat → Bytes) (t : FsTree) (good : TreeState → Prop) :
    Prop where
  search : ∀ {s d o}, good s → good (searchStat m.io m.info d o s).1
  next : ∀ {s}, good s → good (nextKey m.io m.info s).1
  errnum : ∀ {s err}, good s → good { s with errnum := err }
  absent : ∀ {s d o}, t d o = none → good s → (searchStat m.io m.info d o s).2 = false
  present : ∀ {d o obj}, t d o = some obj → ∃ stat items rest,
    ObjectAt m disk d o stat items rest obj ∧ items.length + 1 < m.fuel
      ∧ ∀ {s}, good s → Enumerates m.io (m.file d o) disk stat items rest s

section Search

variable {m : Mounted} {disk : Nat → Bytes} {t : FsTree} {good : TreeState → Prop} {s : TreeState}
  {leaf : Bytes} {name : List UInt8} {d o : Nat}

/-! ## §3 A directory -/

/-- Behind the NUL that is put at its end, a name is a string. -/
theorem NameIn.string {p stop : Nat} (h : NameIn leaf p stop name) :
    StringAt (Function.update leaf stop 0) p name := by
  have hinside := h.inside
  refine ⟨fun i hi => ?_, ?_, h.noNul⟩
  · rw [Function.update_of_ne (by omega)]
    exact h.bytes i hi
  · by_cases hend : p + name.length = stop
    · rw [hend, Function.update_self]
    · rw [Function.update_of_ne hend]
      exact h.nul (by omega)

/-- The loop over the entries of an item looks the name up in them. -/
theorem scanEntries_lookup {item : Nat} (hno : 0 ∉ name) (entries : List DirEntry) :
    ∀ {deHead nameEnd : Nat}, EntriesAt leaf item deHead nameEnd entries →
    scanEntries leaf item name entries.length deHead nameEnd = lookup name entries := by
  induction entries with
  | nil => exact fun _ => rfl
  | cons e rest ih =>
    intro deHead nameEnd h
    obtain ⟨⟨hvisible, hdirId, hobjectid, hname⟩, hrest⟩ := h
    have hcmp := strcmpEq_stringAt name hname.string hno
    rw [List.length_cons, scanEntries, lookup, List.find?_cons]
    simp only [hvisible, hcmp]
    by_cases hfound : e.visible = true ∧ e.name = name
    · rw [if_pos hfound, hfound.1, decide_eq_true hfound.2, hdirId, hobjectid]
      rfl
    · rw [if_neg hfound, ih hrest]
      have hnot : (e.visible && decide (e.name = name)) = false := by
        rw [Bool.eq_false_iff]
        intro h
        rw [Bool.and_eq_true, decide_eq_true_eq] at h
        exact hfound h
      rw [hnot]
      rfl

theorem lookup_append (name : List UInt8) (x y : List DirEntry) :
    lookup name (x ++ y) = (lookup name x).or (lookup name y) := by
  rw [lookup, lookup, lookup, List.find?_append]
  cases x.find? fun e => e.visible && decide (e.name = name) with
  | none => rfl
  | some e => rfl

/-- What the search in a directory ends with, for what the name stands for. -/
def Lookup.of : Option (Nat × Nat) → Lookup
  | none => .notfound
  | some (d, o) => .found d o

/-- **The search in a directory** goes through all of its items. -/
theorem scanDir_lookup (hgood : Enumerated m disk t good) (hno : 0 ∉ name)
    (parts : List (List DirEntry)) : ∀ {s : TreeState} {items rest : List (Nat × Nat)} {fuel last : Nat},
    good s → s.slots 1 = disk last → DirParts disk o parts items →
    Visits m.io m.info disk (items ++ rest) s →
    Ends disk o ((items.getLast?.map (·.1)).getD last) rest → items.length < fuel →
    ∃ s', scanDir m.io m.info o name fuel s = some (Lookup.of (lookup name parts.flatten), s')
      ∧ good s' := by
  induction parts with
  | nil =>
    intro s items rest fuel last hs hlast hparts hvisits hends hfuel
    obtain ⟨fuel, rfl⟩ : ∃ k, fuel = k + 1 := ⟨fuel - 1, by omega⟩
    obtain rfl : items = [] := hparts
    have hnext := hgood.next hs
    have hother : (nextKey m.io m.info s).2 = true
        ∧ (ihKey ((nextKey m.io m.info s).1.slots 1)
          (nextKey m.io m.info s).1.currentIh).objectid ≠ o := by
      cases rest with
      | nil =>
        obtain ⟨hok, hih, hslot⟩ := hvisits
        refine ⟨hok, ?_⟩
        rw [hih, hslot, hlast]
        exact hends
      | cons item rest =>
        obtain ⟨hok, ⟨hslot, hih, -⟩, -⟩ := hvisits
        refine ⟨hok, ?_⟩
        rw [hih, hslot]
        exact hends
    rcases hrun : nextKey m.io m.info s with ⟨s', ok⟩
    rw [hrun] at hother hnext
    obtain ⟨rfl, hne⟩ := hother
    refine ⟨s', ?_, hnext⟩
    rw [scanDir, hrun]
    simp only
    rw [if_pos hne]
    rfl
  | cons part parts ih =>
    intro s items rest fuel last hs hlast hparts hvisits hends hfuel
    obtain ⟨fuel, rfl⟩ : ∃ k, fuel = k + 1 := ⟨fuel - 1, by omega⟩
    cases items with
    | nil => exact absurd hparts id
    | cons item items =>
      obtain ⟨⟨hobjectid, hcount, hentries⟩, hparts⟩ := hparts
      obtain ⟨hok, ⟨hslot, hih, hitem⟩, hvisits⟩ := hvisits
      have hnext := hgood.next hs
      rcases hrun : nextKey m.io m.info s with ⟨s', ok⟩
      rw [hrun] at hok hslot hih hitem hvisits hnext
      simp only at hok hslot hih hitem hvisits hnext
      subst hok
      rw [scanDir, hrun]
      simp only [hslot, hih, hitem]
      rw [if_neg (not_not_intro hobjectid), hcount, scanEntries_lookup hno part hentries,
        List.flatten_cons, lookup_append]
      cases hfound : lookup name part with
      | some key => exact ⟨s', rfl, hnext⟩
      | none =>
        rw [List.length_cons] at hfuel
        refine ih hnext hslot hparts hvisits ?_ (by omega)
        rw [List.getLast?_cons] at hends
        cases hitems : items.getLast? with
        | none =>
          rw [hitems] at hends
          exact hends
        | some x =>
          rw [hitems] at hends
          exact hends

/-! ## §4 A link -/

/-- The text of a C string. -/
theorem textAt_eq {mem : Bytes} {off bound : Nat} {path : List UInt8} (h : StringAt mem off path)
    (hbound : off + path.length < bound) : textAt mem off bound = path := by
  obtain ⟨room, hroom⟩ : ∃ room, bound - off = path.length + (room + 1) :=
    ⟨bound - off - path.length - 1, by omega⟩
  have hfront : ((List.range path.length).map fun i => mem (off + i)) = path := by
    refine List.ext_getElem (by simp) fun i hi hpath => ?_
    rw [List.getElem_map, List.getElem_range, h.bytes i hpath, List.getD_eq_getElem _ _ hpath]
  have hnul := h.nul
  rw [textAt, hroom, List.range_add, List.map_append, hfront, List.takeWhile_append_of_pos]
  · simp [List.range_succ_eq_map, hnul]
  · intro c hc
    exact decide_eq_true fun hzero => h.noNul (hzero ▸ hc)

theorem Plain.append {x y : List UInt8} (hx : Plain x) (hy : Plain y) : Plain (x ++ y) := by
  intro c hc
  rcases List.mem_append.mp hc with h | h
  · exact hx c h
  · exact hy c h

theorem Plain.noNul {path : List UInt8} (h : Plain path) : 0 ∉ path :=
  fun hzero => (h 0 hzero).2 rfl

theorem Plain.sublist {x y : List UInt8} (h : Plain y) (hsub : x.Sublist y) : Plain x :=
  fun c hc => h c (hsub.subset hc)

/-- The whole of a text is left. -/
theorem nameLength_eq {path : List UInt8} (h : Plain path) : nameLength path = path.length := by
  rw [nameLength, List.takeWhile_eq_self_iff.mpr fun c hc => by rw [(h c hc).1]; rfl]

section Read

variable {read : DataRead} {f : OpenFile} {io : NodeRead}

theorem readOrClear_tree (blocknr blkOffset toRead : Nat) (s : ReadState) :
    (readOrClear read blocknr blkOffset toRead s).tree = s.tree := by
  rw [readOrClear]
  split
  · rfl
  · rfl

/-- The loop over the blocks does not move the cursor. -/
theorem readBlocks_tree (shift blocksize fuel : Nat) : ∀ {offset : Nat} {s s' : ReadState}
    {done : Bool}, readBlocks read shift blocksize fuel offset s = some (done, s') →
    s'.tree = s.tree := by
  induction fuel with
  | zero =>
    intro offset s s' done h
    cases h
  | succ fuel ih =>
    intro offset s s' done h
    rw [readBlocks] at h
    split at h
    · simp only at h
      generalize (if 2 ^ shift - (offset &&& 2 ^ shift - 1) > s.len then s.len
        else 2 ^ shift - (offset &&& 2 ^ shift - 1)) = toRead at h
      split at h
      · cases h
        exact readOrClear_tree _ _ _ s
      · exact (ih h).trans (readOrClear_tree _ _ _ s)
    · cases h
      rfl

/-- A turn of the main loop neither. -/
theorem readItem_tree {fuel : Nat} {s s' : ReadState} {done : Bool}
    (h : readItem read f fuel s = some (done, s')) : s'.tree = s.tree := by
  simp only [readItem] at h
  generalize (if ihItemLen s.leaf s.tree.currentIh
      - u32 (u64 (sub64 s.pos (ihKeyOffset f.version s.leaf s.tree.currentIh) + 1)) > s.len then s.len
    else ihItemLen s.leaf s.tree.currentIh
      - u32 (u64 (sub64 s.pos (ihKeyOffset f.version s.leaf s.tree.currentIh) + 1))) = toRead at h
  split at h
  · split at h
    · cases h
      rfl
    · have htree := readBlocks_tree _ _ _ h
      exact htree
  · split at h
    · exact readBlocks_tree _ _ _ h
    · cases h
      rfl

/-- The main loop moves the cursor by `next_key` only. -/
theorem readLoop_good (hnext : ∀ {s}, good s → good (nextKey io f.tree s).1) (fuel : Nat) :
    ∀ {s s' : ReadState}, good s.tree → readLoop io read f fuel s = some s' → good s'.tree := by
  induction fuel with
  | zero =>
    intro s s' _ h
    cases h
  | succ fuel ih =>
    intro s s' hs h
    rw [readLoop] at h
    split at h
    · cases h
      exact hs
    · split at h
      · cases h
        exact hs
      · split at h
        · cases h
        · rename_i hturn
          cases h
          rw [readItem_tree hturn]
          exact hs
        · rename_i r hturn
          refine ih ?_ h
          rw [getNextKey, readItem_tree hturn]
          exact hnext hs

/-- `reiserfs_read_data` leaves a good state. -/
theorem reiserfsReadData_good (hnext : ∀ {s}, good s → good (nextKey io f.tree s).1)
    (hsearch : ∀ {s}, good s → good (searchStat io f.tree f.dirId f.objectid s).1)
    (herrnum : good { s with errnum := 0 }) {fuel len pos n : Nat} {r : ReadState}
    (h : reiserfsReadData io read f fuel len pos s = some (n, r)) : good r.tree := by
  rw [reiserfsReadData] at h
  obtain ⟨r', hloop, heq⟩ := Option.map_eq_some_iff.mp h
  cases heq
  refine readLoop_good hnext fuel ?_ hloop
  split
  · exact hnext (hsearch herrnum)
  · exact herrnum

/-- Behind the stat data of a link, its target is read. -/
theorem link_read (hgood : Enumerated m disk t good) {stat : Nat × Nat}
    {items rest : List (Nat × Nat)} {bodies : List Body} {target : List UInt8}
    (hshift : m.info.blocksizeShift ≤ 13)
    (hread : ReadsData m.read disk (2 ^ m.info.blocksizeShift))
    (hfile : FileOnDisk (m.file d o) disk bodies stat items)
    (hcover : target.length ≤ bodiesSize (2 ^ m.info.blocksizeShift) bodies)
    (hbytes : ∀ i < target.length,
      fileByte disk (2 ^ m.info.blocksizeShift) bodies i = target.getD i 0)
    (henum : ∀ {s}, good s → Enumerates m.io (m.file d o) disk stat items rest s)
    (hne : target ≠ []) (hsize : target.length < 2 ^ 32) (hfuel : items.length + 1 < m.fuel)
    (hs : good s) :
    (nextKey m.io m.info (searchStat m.io m.info d o s).1).2 = true
      ∧ ∃ r, reiserfsReadData m.io m.read ⟨m.info, m.version, d, o⟩ m.fuel target.length 0
          (nextKey m.io m.info (searchStat m.io m.info d o s).1).1 = some (target.length, r)
        ∧ r.buf = Buffer.filled target.length (fun i => target.getD i 0) ∧ r.pos = target.length
        ∧ good r.tree := by
  have hpos := List.length_pos_of_ne_nil hne
  have hnext := hgood.next (hgood.search (d := d) (o := o) hs)
  cases items with
  | nil =>
    obtain rfl : bodies = [] := by
      cases bodies with
      | nil => rfl
      | cons body bodies => exact absurd hfile.items id
    rw [bodiesSize, List.map_nil, List.sum_nil] at hcover
    omega
  | cons item items =>
    have hfound : (searchStat m.io m.info d o s).2 = true := (henum hs).found
    obtain ⟨hok, hon, hvisits⟩ : Visits m.io m.info disk (item :: (items ++ rest))
      (searchStat m.io m.info d o s).1 := (henum hs).visits
    refine ⟨hok, ?_⟩
    have herr : (nextKey m.io m.info (searchStat m.io m.info d o s).1).1.errnum = 0 :=
      nextKey_errnum hok (searchStat_errnum hfound)
    generalize (nextKey m.io m.info (searchStat m.io m.info d o s).1).1 = tree at *
    have hcursor : Cursor m.io (m.file d o) disk stat (item :: items) rest
        { tree with errnum := 0 } := by
      refine Or.inr ⟨[stat], item, items, rfl, hon, ?_⟩
      rw [show ({ tree with errnum := 0 } : TreeState) = tree by rw [← herr]]
      exact hvisits
    obtain ⟨r, hrun, hrpos, hbuf⟩ := reiserfsReadData_file hshift hread hfile hsize hcover
      (henum hnext) hcursor hpos (Nat.le_of_eq (Nat.zero_add _)) hfuel
    refine ⟨r, hrun, ?_, hrpos.trans (Nat.zero_add _),
      reiserfsReadData_good hgood.next hgood.search (hgood.errnum hnext) hrun⟩
    rw [hbuf]
    funext i
    rw [Buffer.filled, Buffer.filled]
    split
    · rename_i hi
      rw [Nat.zero_add]
      exact congrArg some (hbytes i hi)
    · rfl

end Read

/-! ## §5 The loop -/

/-- The state of `reiserfs_open_file` for a state of the reference. -/
structure Rel (m : Mounted) (good : TreeState → Prop) (s : OpenState) (key parent : Nat × Nat)
    (path : List UInt8) : Prop where
  good : good s.tree
  key : (s.dirId, s.objectid) = key
  parent : (s.parentDirId, s.parentObjectid) = parent
  plain : Plain path
  linkbuf : s.inLink = true → StringAt s.linkbuf s.dirname path ∧ s.dirname + path.length < pathMax
  buffer : s.inLink = false → m.buffer.drop s.dirname = path

section Loop

variable {s : OpenState} {key parent : Nat × Nat} {path target : List UInt8}

theorem Rel.path_eq (h : Rel m good s key parent path) : s.path m.buffer = path := by
  rw [OpenState.path]
  split
  · rename_i hin
    obtain ⟨hstring, hinside⟩ := h.linkbuf hin
    exact textAt_eq hstring hinside
  · rename_i hin
    exact h.buffer (Bool.eq_false_iff.mpr hin)

/-- The bytes of the name, and the NUL behind it. -/
theorem Rel.char (h : Rel m good s key parent path) {i : Nat} (hi : i ≤ path.length) :
    s.char m.buffer i = path.getD i 0 := by
  rw [OpenState.char]
  split
  · rename_i hin
    obtain ⟨hstring, -⟩ := h.linkbuf hin
    rcases Nat.lt_or_eq_of_le hi with hlt | rfl
    · exact hstring.bytes i hlt
    · rw [hstring.nul, List.getD_eq_default _ _ (Nat.le_refl _)]
  · rename_i hin
    rw [← h.buffer (Bool.eq_false_iff.mpr hin), List.getD_eq_getElem?_getD,
      List.getD_eq_getElem?_getD, List.getElem?_drop]

theorem atEnd_iff (h : Plain path) : atEnd path = true ↔ path = [] := by
  cases path with
  | nil => simp [atEnd]
  | cons c path =>
    have hc := (h c List.mem_cons_self).1
    simp [atEnd, hc]

/-- In a text a component ends only at a slash. -/
theorem component_eq (h : Plain path) : component path = firstName path := by
  have hsame : ∀ p : List UInt8, Plain p →
      p.takeWhile (fun c => !isspace c && decide (c ≠ slash))
        = p.takeWhile fun c => decide (c ≠ slash) := by
    intro p
    induction p with
    | nil => exact fun _ => rfl
    | cons c p ih =>
      intro hp
      have hc := (hp c List.mem_cons_self).1
      rw [List.takeWhile_cons, List.takeWhile_cons, hc,
        ih fun x hx => hp x (List.mem_cons_of_mem _ hx)]
      simp
  rw [component, firstName]
  exact hsame _ (h.sublist (List.dropWhile_sublist _))

/-- The component is taken from the front of the path. -/
theorem path_split (path : List UInt8) : ∃ front, path = front ++ remainder path
    ∧ front.length = (slashes path).length + (firstName path).length := by
  refine ⟨slashes path ++ firstName path, ?_, List.length_append⟩
  rw [slashes, firstName, remainder, List.append_assoc, List.takeWhile_append_dropWhile,
    List.takeWhile_append_dropWhile]

theorem stringAt_behind {mem : Bytes} {p : Nat} {front : List UInt8}
    (h : StringAt mem p (front ++ path)) : StringAt mem (p + front.length) path := by
  refine ⟨fun i hi => ?_, ?_, fun hzero => h.noNul (List.mem_append_right _ hzero)⟩
  · rw [Nat.add_assoc, h.bytes _ (by rw [List.length_append]; omega),
      List.getD_append_right _ _ _ _ (Nat.le_add_right _ _), Nat.add_sub_cancel_left]
  · have hnul := h.nul
    rwa [List.length_append, ← Nat.add_assoc] at hnul

/-- A component is found. -/
theorem Rel.enter (h : Rel m good s key parent path) {tree : TreeState} (htree : good tree)
    (next : Nat × Nat) :
    Rel m good ({ s with tree := tree }.enter m.buffer next.1 next.2) next key (remainder path) := by
  obtain ⟨front, hsplit, hfront⟩ := path_split path
  have hdirname : ({ s with tree := tree }.enter m.buffer next.1 next.2).dirname
      = s.dirname + front.length := by
    show s.dirname + (slashes (s.path m.buffer)).length + (component (s.path m.buffer)).length = _
    rw [h.path_eq, component_eq h.plain, Nat.add_assoc, hfront]
  have hlength : path.length = front.length + (remainder path).length := by
    have happend := @List.length_append _ front (remainder path)
    rwa [← hsplit] at happend
  refine ⟨htree, rfl, h.key, ?_, fun hin => ?_, fun hin => ?_⟩
  · exact h.plain.sublist ((List.dropWhile_sublist _).trans (List.dropWhile_sublist _))
  · obtain ⟨hstring, hinside⟩ := h.linkbuf hin
    rw [hsplit] at hstring
    rw [hdirname]
    exact ⟨stringAt_behind hstring, by omega⟩
  · have hdrop := @List.drop_left _ front (remainder path)
    rw [← hsplit] at hdrop
    rw [hdirname, ← List.drop_drop]
    exact (congrArg (List.drop front.length) (h.buffer hin)).trans hdrop

/-- A link is followed: the rest of the name stands behind the target. -/
theorem Rel.follow (h : Rel m good s key parent path) {r : ReadState} {tree : TreeState}
    (hr : good r.tree) (hbuf : r.buf = Buffer.filled target.length fun i => target.getD i 0)
    (hne : target ≠ []) (htarget : Plain target) (hroom : target.length + path.length < pathMax) :
    Rel m good ({ s with tree := tree }.follow m.buffer target.length r)
      (if target.head? = some slash then rootDir else parent) parent (target ++ path) := by
  have hpath := h.path_eq
  have hchar : ∀ i ≤ path.length, s.char m.buffer i = path.getD i 0 := fun i hi => h.char hi
  obtain ⟨s', hs'⟩ : ∃ s', s' = { s with tree := tree }.follow m.buffer target.length r := ⟨_, rfl⟩
  have hbytes : ∀ i ≤ target.length + path.length, s'.linkbuf i = (target ++ path).getD i 0 := by
    intro i hi
    have hsaved : s'.linkbuf i = (r.buf i).getD (s.saved m.buffer target.length i) := by
      rw [hs']
      rfl
    rw [hsaved, hbuf, Buffer.filled]
    split
    · rename_i hlt
      rw [List.getD_append _ _ _ _ hlt]
      rfl
    · rename_i hge
      rw [Option.getD_none, OpenState.saved, hpath, nameLength_eq h.plain, if_pos (by omega),
        hchar _ (by omega), List.getD_append_right _ _ _ _ (by omega)]
  have hstart : s'.linkbuf 0 = slash ↔ target.head? = some slash := by
    rw [hbytes 0 (Nat.zero_le _)]
    cases target with
    | nil => exact absurd rfl hne
    | cons c target => simp
  have hkey : (s'.dirId, s'.objectid)
      = if s'.linkbuf 0 = slash then rootDir else (s.parentDirId, s.parentObjectid) := by
    rw [hs']
    simp only [OpenState.follow]
    split
    · rfl
    · rfl
  have hplain := htarget.append h.plain
  have hlength := @List.length_append _ target path
  rw [← hs']
  have hdirname : s'.dirname = 0 := by rw [hs']; rfl
  refine ⟨by rw [hs']; exact hr, ?_, by rw [hs']; exact h.parent, hplain, fun _ => ?_, fun hin => ?_⟩
  · rw [hkey, h.parent]
    simp only [hstart]
  · rw [hdirname, Nat.zero_add, hlength]
    refine ⟨⟨fun i hi => ?_, ?_, hplain.noNul⟩, hroom⟩
    · rw [Nat.zero_add, hbytes i (by omega)]
    · rw [Nat.zero_add, hbytes _ (by omega), List.getD_eq_default _ _ (Nat.le_refl _)]
  · rw [hs'] at hin
    cases hin

/-- The state of an opened file. -/
def Opened (found : Option ((Nat × Nat) × Nat)) (s : OpenState) : Prop :=
  ∀ key size, found = some (key, size) → s.fileinfo = key ∧ s.len = size ∧ s.pos = 0

theorem opened_none (s : OpenState) : Opened none s := fun _ _ h => by cases h

theorem isReg_apart {mode : Nat} (h : isReg mode = true) :
    isLnk mode = false ∧ isDir mode = false := by
  have hmode : mode &&& 0o170000 = 0o100000 := of_decide_eq_true h
  rw [isLnk, isDir, hmode]
  exact ⟨rfl, rfl⟩

theorem isDir_apart {mode : Nat} (h : isDir mode = true) :
    isLnk mode = false ∧ isReg mode = false := by
  have hmode : mode &&& 0o170000 = 0o040000 := of_decide_eq_true h
  rw [isLnk, isReg, hmode]
  exact ⟨rfl, rfl⟩

/-- The cursor stands on the stat data of an object. -/
structure AtStat (m : Mounted) (disk : Nat → Bytes) (stat : Nat × Nat) (behind : List (Nat × Nat))
    (tree : TreeState) : Prop where
  slot : tree.slots 1 = disk stat.1
  mode : sdMode (tree.slots 1) tree.currentItem = statMode disk stat
  size : sdSize (tree.slots 1) tree.currentIh tree.currentItem = statSize disk stat
  visits : Visits m.io m.info disk behind tree

theorem searchStat_present (hgood : Enumerated m disk t good) {tree : TreeState} (htree : good tree)
    {stat : Nat × Nat} {items rest : List (Nat × Nat)}
    (henum : Enumerates m.io (m.file d o) disk stat items rest tree) :
    ∃ tree', searchStat m.io m.info d o tree = (tree', true) ∧ good tree'
      ∧ AtStat m disk stat (items ++ rest) tree' := by
  have hon : On disk stat (searchStat m.io m.info d o tree).1 := henum.on
  refine ⟨_, Prod.ext rfl henum.found, hgood.search htree, hon.1, ?_, ?_, henum.visits⟩
  · rw [hon.1, hon.2.2]
    rfl
  · rw [hon.1, hon.2.1, hon.2.2]
    rfl

/-- Behind the stat data of a regular file `next_key` comes to something. -/
theorem nextKey_visits {items : List (Nat × Nat)} {tree : TreeState}
    (h : Visits m.io m.info disk items tree) : (nextKey m.io m.info tree).2 = true := by
  cases items with
  | nil => exact h.1
  | cons item items => exact h.1

/-- No entry has the empty name. -/
theorem lookup_empty {entries : List DirEntry} (h : ∀ e ∈ entries, e.name ≠ []) :
    lookup [] entries = none := by
  rw [lookup, List.find?_eq_none.mpr]
  · rfl
  · intro e he hfound
    rw [Bool.and_eq_true, decide_eq_true_eq] at hfound
    exact h e he hfound.2

/-- The turn of the loop at a link. -/
theorem openFileLoop_link (hgood : Enumerated m disk t good) (h : Rel m good s key parent path)
    (hshift : m.info.blocksizeShift ≤ 13)
    (hread : ReadsData m.read disk (2 ^ m.info.blocksizeShift))
    (hkind : t key.1 key.2 = some (.lnk target)) (hne : target ≠ []) (htarget : Plain target)
    (hlinks : s.linkCount + 1 ≤ maxLinkCount) (hroom : target.length + path.length < pathMax)
    (fuel : Nat) :
    ∃ s', openFileLoop m (fuel + 1) s = openFileLoop m fuel s'
      ∧ s'.linkCount = s.linkCount + 1
      ∧ Rel m good s' (if target.head? = some slash then rootDir else parent) parent
        (target ++ path) := by
  obtain ⟨stat, items, rest, ⟨hlnk, hsize, bodies, hfile, hcover, hbytes⟩, hfuel, henum⟩ :=
    hgood.present hkind
  have hkey := h.key
  have hpathMax : pathMax = 1024 := rfl
  obtain ⟨hnext, r, hrun, hbuf, -, hr⟩ := link_read hgood hshift hread hfile hcover hbytes henum
    hne (by omega) hfuel h.good
  subst hkey
  obtain ⟨tree, hsearch, -, hat⟩ := searchStat_present hgood h.good (henum h.good)
  rw [hsearch] at hnext hrun
  have hpath : ∀ tree, ({ s with tree := tree } : OpenState).path m.buffer = path :=
    fun _ => h.path_eq
  refine ⟨{ s with tree := tree }.follow m.buffer target.length r, ?_, rfl,
    h.follow hr hbuf hne htarget hroom⟩
  rcases hmove : nextKey m.io m.info tree with ⟨tree', ok⟩
  rw [hmove] at hnext hrun
  obtain rfl : ok = true := hnext
  simp only [openFileLoop, hsearch, hat.mode, hlnk, hat.size, hsize, hpath,
    nameLength_eq h.plain, hmove, if_true]
  rw [if_neg (by omega), u64_of_lt (by omega), if_neg (by omega), u32_of_lt (by omega), hrun]
  simp only
  rw [if_neg (not_not_intro rfl)]

/-- The turn of the loop at a directory, for a name that does not end there. -/
theorem openFileLoop_dir (hgood : Enumerated m disk t good) (h : Rel m good s key parent path)
    {entries : List DirEntry} (hkind : t key.1 key.2 = some (.dir entries)) (hne : path ≠ [])
    (fuel : Nat) :
    (lookup (firstName path) entries = none →
      ∃ s', openFileLoop m (fuel + 1) s = some (false, s'))
    ∧ ∀ next, lookup (firstName path) entries = some next →
      ∃ s', openFileLoop m (fuel + 1) s = openFileLoop m fuel s' ∧ s'.linkCount = s.linkCount
        ∧ Rel m good s' next key (remainder path) := by
  obtain ⟨stat, items, rest, ⟨hdir, ⟨parts, rfl, hparts⟩, hends⟩, hfuel, henum⟩ :=
    hgood.present hkind
  obtain ⟨hnotLnk, -⟩ := isDir_apart hdir
  have hkey := h.key
  have hpath : ∀ tree, ({ s with tree := tree } : OpenState).path m.buffer = path :=
    fun _ => h.path_eq
  subst hkey
  obtain ⟨tree, hsearch, htree, hat⟩ := searchStat_present hgood h.good (henum h.good)
  have hlast : ((stat :: items).getLast (List.cons_ne_nil _ _)).1
      = (items.getLast?.map (·.1)).getD stat.1 := by
    have hsome := List.getLast?_eq_some_getLast (List.cons_ne_nil stat items)
    rw [List.getLast?_cons, Option.some.injEq] at hsome
    rw [← hsome]
    cases items.getLast? with
    | none => rfl
    | some item => rfl
  rw [hlast] at hends
  have hno : 0 ∉ firstName path :=
    (h.plain.sublist ((List.takeWhile_sublist _).trans (List.dropWhile_sublist _))).noNul
  obtain ⟨tree', hscan, htree'⟩ := scanDir_lookup hgood hno parts htree hat.slot hparts
    hat.visits hends (show items.length < m.fuel by omega)
  simp only [openFileLoop, hsearch, hat.mode, hpath, hdir, hnotLnk, atEnd_iff h.plain,
    component_eq h.plain, if_neg hne, hscan, Bool.false_eq_true, if_false, if_true]
  refine ⟨fun hnone => ?_, fun next hnext => ?_⟩
  · rw [hnone]
    exact ⟨_, rfl⟩
  · rw [hnext]
    exact ⟨_, rfl, rfl, h.enter htree' next⟩

/-- `reiserfs_open_file` goes the way of the reference. -/
theorem openFileLoop_resolve (hgood : Enumerated m disk t good) (htree : PlainTree t)
    (hshift : m.info.blocksizeShift ≤ 13)
    (hread : ReadsData m.read disk (2 ^ m.info.blocksizeShift)) (n : Nat) :
    ∀ {fuel : Nat} {s : OpenState} {key parent : Nat × Nat} {path : List UInt8}
      {splices : List (List UInt8 × List UInt8)} {found : Option ((Nat × Nat) × Nat)}, n ≤ fuel →
    Rel m good s key parent path → resolve t n key parent path = (splices, some found) →
    s.linkCount + splices.length ≤ maxLinkCount → (∀ x ∈ splices, spliceLength x < pathMax) →
    ∃ s', openFileLoop m fuel s = some (found.isSome, s') ∧ Opened found s' := by
  induction n with
  | zero =>
    intro fuel s key parent path splices found _ _ hresolve
    cases hresolve
  | succ n ih =>
    intro fuel s key parent path splices found hfuel h hresolve hlinks hroom
    obtain ⟨fuel, rfl⟩ : ∃ k, fuel = k + 1 := ⟨fuel - 1, by omega⟩
    by_cases hlink : ∃ target, t key.1 key.2 = some (.lnk target)
    · obtain ⟨target, hkind⟩ := hlink
      obtain ⟨hne, hplain⟩ := htree.target hkind
      rcases hrest : resolve t n (if target.head? = some slash then rootDir else parent) parent
        (target ++ path) with ⟨links, found'⟩
      simp only [resolve, hkind, hrest, Prod.mk.injEq] at hresolve
      obtain ⟨rfl, rfl⟩ := hresolve
      rw [List.length_cons] at hlinks
      obtain ⟨s', hstep, hcount, h'⟩ := openFileLoop_link hgood h hshift hread hkind hne hplain
        (by omega) (hroom _ List.mem_cons_self) fuel
      rw [hstep]
      exact ih (by omega) h' hrest (by rw [hcount]; omega)
        fun x hx => hroom x (List.mem_cons_of_mem _ hx)
    · have hkey := h.key
      have hpath : ∀ tree, ({ s with tree := tree } : OpenState).path m.buffer = path :=
        fun _ => h.path_eq
      cases hkind : t key.1 key.2 with
      | none =>
        have habsent := hgood.absent hkind h.good
        subst hkey
        rcases hsearch : searchStat m.io m.info s.dirId s.objectid s.tree with ⟨tree, ok⟩
        rw [hsearch] at habsent
        obtain rfl : ok = false := habsent
        simp only [resolve, hkind, Prod.mk.injEq, Option.some.injEq] at hresolve
        obtain ⟨-, rfl⟩ := hresolve
        simp only [openFileLoop, hsearch]
        exact ⟨_, rfl, opened_none _⟩
      | some obj =>
        obtain ⟨stat, items, rest, hobj, -, henum⟩ := hgood.present hkind
        subst hkey
        obtain ⟨tree, hsearch, -, hat⟩ := searchStat_present hgood h.good (henum h.good)
        cases obj with
        | lnk target => exact absurd ⟨target, hkind⟩ hlink
        | reg size =>
          obtain ⟨hreg, hlen⟩ := hobj
          obtain ⟨hnotLnk, hnotDir⟩ := isReg_apart hreg
          simp only [resolve, hkind, Prod.mk.injEq, Option.some.injEq] at hresolve
          obtain ⟨-, rfl⟩ := hresolve
          simp only [openFileLoop, hsearch, hat.mode, hat.size, hpath, hreg, hnotLnk,
            hnotDir, atEnd_iff h.plain, Bool.false_eq_true, if_false, if_true]
          by_cases hempty : path = []
          · rw [if_pos hempty, if_pos hempty, nextKey_visits hat.visits]
            refine ⟨_, rfl, fun key size heq => ?_⟩
            cases heq
            exact ⟨rfl, hlen, rfl⟩
          · rw [if_neg hempty, if_neg hempty]
            exact ⟨_, rfl, opened_none _⟩
        | other =>
          obtain ⟨hnotReg, hnotDir, hnotLnk⟩ := hobj
          simp only [resolve, hkind, Prod.mk.injEq, Option.some.injEq] at hresolve
          obtain ⟨-, rfl⟩ := hresolve
          simp only [openFileLoop, hsearch, hat.mode, hnotReg, hnotDir, hnotLnk,
            Bool.false_eq_true, if_false]
          split
          · exact ⟨_, rfl, opened_none _⟩
          · exact ⟨_, rfl, opened_none _⟩
        | dir entries =>
          by_cases hempty : path = []
          · obtain ⟨hnotLnk, hnotReg⟩ := isDir_apart hobj.1
            subst hempty
            rw [resolve, hkind] at hresolve
            cases hresolve
            simp only [openFileLoop, hsearch, hat.mode, hpath, hnotLnk, hnotReg,
              atEnd_iff h.plain, Bool.false_eq_true, if_false, if_true]
            exact ⟨_, rfl, opened_none _⟩
          · obtain ⟨hfail, hfound⟩ := openFileLoop_dir hgood h hkind hempty fuel
            simp only [resolve, hkind] at hresolve
            by_cases hname : firstName path = []
            · rw [if_pos hname] at hresolve
              cases hresolve
              obtain ⟨s', hrun⟩ := hfail (by rw [hname, lookup_empty (htree.names hkind)])
              exact ⟨s', hrun, opened_none _⟩
            · rw [if_neg hname] at hresolve
              cases hnext : lookup (firstName path) entries with
              | none =>
                rw [hnext] at hresolve
                cases hresolve
                obtain ⟨s', hrun⟩ := hfail hnext
                exact ⟨s', hrun, opened_none _⟩
              | some next =>
                rw [hnext] at hresolve
                obtain ⟨s', hrun, hcount, h'⟩ := hfound next hnext
                rw [hrun]
                exact ih (by omega) h' hresolve (by rw [hcount]; exact hlinks) hroom

/-- **`reiserfs_open_file` resolves the name**: it comes to an end, and opens a file just when the
reference does, with its key and its size. -/
theorem reiserfsOpenFile_resolves (m : Mounted) (disk : Nat → Bytes) (t : FsTree)
    (good : TreeState → Prop) (hgood : Enumerated m disk t good)
    (hread : ReadsData m.read disk (2 ^ m.info.blocksizeShift)) (hshift : m.info.blocksizeShift ≤ 13)
    (htree : PlainTree t) (hname : Plain m.buffer)
    (hlinks : ∀ n, (resolve t n rootDir (0, 0) m.buffer).1.length ≤ maxLinkCount)
    (hroom : ∀ n, ∀ x ∈ (resolve t n rootDir (0, 0) m.buffer).1, spliceLength x < pathMax)
    (linkbuf : Bytes) (fileinfo : Nat × Nat) (pos len : Nat) (tree : TreeState) (hs : good tree) :
    ∃ n found, (resolve t n rootDir (0, 0) m.buffer).2 = some found ∧ ∀ fuel ≥ n,
      ∃ s, reiserfsOpenFile m fuel linkbuf fileinfo pos len tree = some (found.isSome, s)
        ∧ ∀ key size, found = some (key, size) → s.fileinfo = key ∧ s.len = size ∧ s.pos = 0 := by
  obtain ⟨n, hend⟩ := @resolve_ends t (maxLinkCount + 1) _ rootDir (0, 0) m.buffer
    (Nat.lt_succ_self _)
  have hle := hlinks n
  obtain ⟨found, hfound⟩ := hend.resolve_right (by omega)
  refine ⟨n, found, hfound, fun fuel hfuel => ?_⟩
  have hstart : Rel m good ⟨{ tree with errnum := 0 }, fileinfo, pos, len, linkbuf, false, 0,
      rootDir.1, rootDir.2, 0, 0, 0⟩ rootDir (0, 0) m.buffer :=
    ⟨hgood.errnum hs, rfl, rfl, hname, fun hin => (by cases hin), fun _ => rfl⟩
  exact openFileLoop_resolve hgood htree hshift hread n hfuel hstart (Prod.ext rfl hfound)
    (by rw [Nat.zero_add]; exact hle) (hroom n)

end Loop

end Search

/-! ## §6 A link in a tree of one leaf -/

/-- The head of an item. -/
def nameItem (dirId objectid union count len location version : Nat) : List UInt8 :=
  leField dirId 4 ++ leField objectid 4 ++ leField union 8 ++ leField count 2 ++ leField len 2
    ++ leField location 2 ++ leField version 2

/-- Stat data of the new form. -/
def nameStat (mode size : Nat) : List UInt8 :=
  leField mode 2 ++ leField 0 2 ++ leField 1 4 ++ leField size 8 ++ List.replicate 16 0

/-- A visible entry. -/
def nameEntry (dirId objectid location : Nat) : List UInt8 :=
  leField 0 4 ++ leField dirId 4 ++ leField objectid 4 ++ leField location 2 ++ leField 4 2

/-- The root with the entries `.`, `f` and `l`, whose names have no end of their own; the file `f`
of three bytes; and the link `l` to `f`. -/
def nameLeaf : List UInt8 :=
  leField 1 2 ++ leField 6 2 ++ List.replicate 20 0
    ++ nameItem 1 2 0 0 32 480 1 ++ nameItem 1 2 (1 + 2 ^ 32 * 500) 3 51 429 0
    ++ nameItem 2 5 0 0 32 397 1 ++ nameItem 2 5 (1 + 2 ^ 60 * 2) 0 3 394 1
    ++ nameItem 2 6 0 0 32 362 1 ++ nameItem 2 6 (1 + 2 ^ 60 * 2) 0 1 361 1
    ++ List.replicate 193 0
    ++ [102] ++ nameStat 0o120777 1 ++ [97, 98, 99] ++ nameStat 0o100644 3
    ++ nameEntry 1 2 50 ++ nameEntry 2 5 49 ++ nameEntry 2 6 48 ++ [108, 102, 46]
    ++ nameStat 0o040755 51

def nameDisk (block : Nat) : Bytes := fun i => if block = 1 then nameLeaf.getD i 0 else 0

def nameTree : FsTree := fun d o =>
  if (d, o) = (1, 2) then some (.dir [⟨true, [46], 1, 2⟩, ⟨true, [102], 2, 5⟩, ⟨true, [108], 2, 6⟩])
  else if (d, o) = (2, 5) then some (.reg 3)
  else if (d, o) = (2, 6) then some (.lnk [102])
  else none

/-- The name is `/l`. -/
def nameMounted : Mounted where
  io _ block _ := (512, nameDisk block)
  read _ block start n := (n, fun i => nameDisk block (start + i))
  info := ⟨9, 1⟩
  version := 2
  buffer := [slash, 108]
  fuel := 4

def nameState : TreeState where
  slots _ := nameDisk 1
  blocks _ := 0
  nextKeyNr _ := 0
  currentIh := 0
  currentItem := 0
  errnum := 0
  reads := 0


/-- In a tree of one leaf `next_key` stays in it. -/
theorem nextKey_oneLeaf {info : TreeInfo} (hdepth : info.treeDepth = 1) (io : NodeRead)
    (s : TreeState) : ∃ ih, nextKey io info s = (setCurrent ih s, true) := by
  have hclimb : climb info.treeDepth s.nextKeyNr (2 ^ 16) blkhLevelLeaf = none :=
    climb_none (by omega) (by rw [hdepth]; decide) (by omega) fun d hd hle => by
      rw [blkhLevelLeaf] at hd
      omega
  by_cases hend : s.currentIh + ihSize = itemHead (blkhNrItem (s.slots 1))
  · refine ⟨blkRightDelimKey, ?_⟩
    simp only [nextKey, hend, hclimb, if_true]
  · exact ⟨s.currentIh + ihSize, by simp only [nextKey, hend, if_false]⟩

/-- In a tree of one leaf `search_stat` looks through it. -/
theorem searchStat_oneLeaf {info : TreeInfo} (hdepth : info.treeDepth = 1) (io : NodeRead)
    (d o : Nat) (s : TreeState) : searchStat io info d o s
      = ((searchLeaf (s.slots 1) d o (blkhNrItem (s.slots 1)) 0).elim
          ({ s with errnum := fileErrBadFsys }, false)
          fun ih => (setCurrent ih { s with errnum := 0 }, true)) := by
  have hdown : ∀ s, searchDown io info d o info.treeDepth 0 s = (s, true) := by
    intro s
    rw [hdepth]
    exact if_pos (by decide)
  simp only [searchStat, hdown]
  cases searchLeaf (s.slots 1) d o (blkhNrItem (s.slots 1)) 0 with
  | none => rfl
  | some ih => rfl

/-- A key that no item has is not found. -/
theorem searchLeaf_none {leaf : Bytes} {d o : Nat} (n : Nat) : ∀ {i : Nat},
    (∀ j < i + n, ihKey leaf (itemHead j) ≠ statKey d o) → searchLeaf leaf d o n i = none := by
  induction n with
  | zero => exact fun _ => rfl
  | succ n ih =>
    intro i h
    rw [searchLeaf, if_neg (h i (by omega))]
    exact ih fun j hj => h j (by omega)

theorem nameTree_enumerated :
    Enumerated nameMounted nameDisk nameTree (Cache nameMounted.info nameDisk 1) := by
  have henum : ∀ d o stat items rest, stat ∈ LiloBoot.ReiserFS.items nameDisk 0 1 →
      itemKey nameDisk stat = statKey d o →
      following heapPos nameDisk 0 1 (statKey d o) = items ++ rest →
      ∀ {s}, Cache nameMounted.info nameDisk 1 s →
        Enumerates nameMounted.io (nameMounted.file d o) nameDisk stat items rest s :=
    fun d o stat items rest hstat hkey hitems s hs =>
      Enumerates.of_tree (fun _ _ _ => rfl) heapPos_statFirst
        (show Formed heapPos nameDisk 0 1 by decide +kernel) rfl (by decide)
        (show 9 ≤ 9 ∧ 9 ≤ 13 by decide) hs hstat hkey
        (seamsCached_small (show 9 ≤ 12 by decide) (by decide) _) hitems
  refine ⟨fun {s d o} hs => ?_, fun {s} hs => ?_, fun hs => ⟨hs.rootSlot, hs.leafSlot, hs.cached⟩,
    fun {s d o} habsent hs => ?_, fun {d o obj} hobj => ?_⟩
  · rw [searchStat_oneLeaf rfl]
    cases searchLeaf (s.slots 1) d o (blkhNrItem (s.slots 1)) 0 with
    | none => exact ⟨hs.rootSlot, hs.leafSlot, hs.cached⟩
    | some ih => exact ⟨hs.rootSlot, hs.leafSlot, hs.cached⟩
  · obtain ⟨ih, hnext⟩ := @nextKey_oneLeaf nameMounted.info rfl nameMounted.io s
    rw [hnext]
    exact ⟨hs.rootSlot, hs.leafSlot, hs.cached⟩
  · have hitems : ∀ j < 6, (nameTree (ihKey (nameDisk 1) (itemHead j)).dirId
        (ihKey (nameDisk 1) (itemHead j)).objectid).isSome := by decide +kernel
    have hnr : blkhNrItem (nameDisk 1) = 6 := by decide +kernel
    rw [searchStat_oneLeaf rfl, hs.leafSlot rfl, hnr, searchLeaf_none]
    · rfl
    · intro j hj hkey
      have hsome := hitems j (by omega)
      rw [hkey, statKey, habsent] at hsome
      cases hsome
  · rw [nameTree] at hobj
    split at hobj
    · rename_i hkey
      cases hkey
      cases hobj
      refine ⟨(1, 0), [(1, 1)], [(1, 2), (1, 3), (1, 4), (1, 5)], ⟨by decide +kernel, ?_,
        show (itemKey nameDisk (1, 2)).objectid ≠ 2 by decide +kernel⟩, by decide,
        henum _ _ _ _ _ (by decide +kernel) (by decide +kernel) (by decide +kernel)⟩
      exact ⟨[_], List.append_nil _,
        show DirItem (nameDisk 1) (itemHead 1) 2 _ by decide +kernel, rfl⟩
    · split at hobj
      · rename_i hkey
        cases hkey
        cases hobj
        exact ⟨(1, 2), [(1, 3)], [(1, 4), (1, 5)], ⟨by decide +kernel, by decide +kernel⟩, by decide,
          henum _ _ _ _ _ (by decide +kernel) (by decide +kernel) (by decide +kernel)⟩
      · split at hobj
        · rename_i hkey
          cases hkey
          cases hobj
          refine ⟨(1, 4), [(1, 5)], [], ⟨by decide +kernel, by decide +kernel, [.direct [102]], ?_,
            by decide, by decide⟩, by decide,
            henum _ _ _ _ _ (by decide +kernel) (by decide +kernel) (by decide +kernel)⟩
          exact ⟨⟨by decide +kernel, by decide +kernel, by decide +kernel, by decide +kernel⟩,
            ⟨by decide +kernel, by decide +kernel, by decide +kernel, by decide +kernel,
              by decide +kernel⟩, rfl⟩
        · cases hobj

theorem nameTree_plain : PlainTree nameTree := by
  refine ⟨fun {d o target} h => ?_, fun {d o entries} h => ?_⟩
  · rw [nameTree] at h
    split at h
    · cases h
    · split at h
      · cases h
      · split at h
        · cases h
          exact ⟨by decide, by decide⟩
        · cases h
  · rw [nameTree] at h
    split at h
    · cases h
      decide
    · split at h
      · cases h
      · split at h
        · cases h
        · cases h

/-- What the reference follows for `/l`, in any number of steps. -/
theorem nameTree_follows (n : Nat) :
    (resolve nameTree n rootDir (0, 0) nameMounted.buffer).1 <+: [([102], [])] := by
  have hend : resolve nameTree 4 rootDir (0, 0) nameMounted.buffer
      = ([([102], [])], some (some ((2, 5), 3))) := by decide +kernel
  rcases Nat.le_total n 4 with hle | hge
  · have hpre := (@resolve_le nameTree n 4 rootDir (0, 0) nameMounted.buffer hle).1
    rwa [hend] at hpre
  · have hsame := (@resolve_le nameTree 4 n rootDir (0, 0) nameMounted.buffer hge).2
      (some ((2, 5), 3)) (by rw [hend])
    rw [hsame, hend]

/-- The name `/l` opens the file behind the link. -/
theorem linkName_opened :
    ∃ n found, (resolve nameTree n rootDir (0, 0) nameMounted.buffer).2 = some found
      ∧ ∀ fuel ≥ n, ∃ s, reiserfsOpenFile nameMounted fuel (fun _ => 0) (0, 0) 0 0 nameState
          = some (found.isSome, s)
        ∧ ∀ key size, found = some (key, size) → s.fileinfo = key ∧ s.len = size ∧ s.pos = 0 :=
  reiserfsOpenFile_resolves nameMounted nameDisk nameTree _ nameTree_enumerated
    (fun _ _ _ _ _ => ⟨rfl, fun _ _ => rfl⟩) (by decide) nameTree_plain (by decide)
    (fun n => (nameTree_follows n).length_le.trans (by decide))
    (fun n x hx => by
      rw [List.mem_singleton.mp ((nameTree_follows n).subset hx)]
      decide)
    (fun _ => 0) (0, 0) 0 0 nameState ⟨rfl, fun _ => rfl, fun _ _ _ hne => absurd rfl hne⟩

end LiloBoot.ReiserFS
