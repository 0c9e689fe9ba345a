/-
LiloBoot.ZImage.BootInfo — the boot record list (`lilo/bootheader/prep/main.c`).

A record is a tag, its size and data; the list ends with the record `BI_LAST`,
which `bootinfo_append` looks for and writes over. `BootInfoAt` is what the list
in memory means; `bootinfoInit` and `bootinfoAppend` keep it.
-/
import LiloBoot.DevTree.Memory

namespace LiloBoot.ZImage

open Memory

/-! ## §1 Records -/

def biFirst : Nat := 0x1010

def biLast : Nat := 0x1011

def biCmdLine : Nat := 0x1012

def biInitrd : Nat := 0x1014

def biMemsize : Nat := 0x1017

/-- `struct bi_record`. -/
structure BiRecord where
  tag : Nat
  data : List UInt8

def BiRecord.size (r : BiRecord) : Nat := 8 + r.data.length

/-- A record whose tag and size are words, and that does not end a list. -/
structure BiRecord.Fits (r : BiRecord) : Prop where
  size : r.size < 2 ^ 32
  tag : r.tag < 2 ^ 32
  notLast : r.tag ≠ biLast

def recordsSize (rs : List BiRecord) : Nat := (rs.map BiRecord.size).sum

/-- The records that stand at an address, one behind the other. -/
def RecordsAt (mem : Bytes) : Nat → List BiRecord → Prop
  | _, [] => True
  | a, r :: rs =>
    word mem a = r.tag ∧ word mem (a + 4) = r.size ∧ BytesAt mem (a + 8) r.data ∧
      RecordsAt mem (a + r.size) rs

/-- The whole list, with what it begins and ends with. -/
def bootInfo (rs : List BiRecord) : List BiRecord := ⟨biFirst, []⟩ :: (rs ++ [⟨biLast, []⟩])

/-- A list of these records is at `a`. -/
structure BootInfoAt (mem : Bytes) (a : Nat) (rs : List BiRecord) : Prop where
  records : RecordsAt mem a (bootInfo rs)
  notLast : ∀ r ∈ rs, r.tag ≠ biLast

/-! ## §2 The code -/

/-- `__bootinfo_build`: the record, and the place behind it. -/
def bootinfoBuild (mem : Bytes) (place tag : Nat) (data : List UInt8) : Bytes × Nat :=
  let mem := storeWord mem place tag
  let mem := Memory.store mem (place + 8) data
  let mem := storeWord mem (place + 4) (8 + data.length)
  (mem, place + word mem (place + 4))

def bootinfoInit (mem : Bytes) (birec : Nat) : Bytes :=
  let first := bootinfoBuild mem birec biFirst []
  (bootinfoBuild first.1 first.2 biLast []).1

/-- `while (rec->tag != BI_LAST)`, for a number of records. -/
def findLast (mem : Bytes) : Nat → Nat → Option Nat
  | 0, _ => none
  | n + 1, place =>
    if word mem place = biLast then some place else findLast mem n (place + word mem (place + 4))

/-- `bootinfo_append`; `none` if there is no end of the list among as many
    records as there are addresses. -/
def bootinfoAppend (mem : Bytes) (birec tag : Nat) (data : List UInt8) : Option Bytes :=
  if birec = 0 ∨ word mem birec ≠ biFirst then some mem
  else
    (findLast mem (2 ^ 32) birec).map fun place =>
      let new := bootinfoBuild mem place tag data
      (bootinfoBuild new.1 new.2 biLast []).1

/-! ## §3 The list -/

variable {mem mem' : Bytes} {a place birec tag n : Nat} {data : List UInt8}
  {rs rs' : List BiRecord} {r : BiRecord}

theorem recordsSize_cons (r : BiRecord) (rs : List BiRecord) :
    recordsSize (r :: rs) = r.size + recordsSize rs := by
  rw [recordsSize, List.map_cons, List.sum_cons, recordsSize]

theorem recordsSize_append (rs rs' : List BiRecord) :
    recordsSize (rs ++ rs') = recordsSize rs + recordsSize rs' := by
  rw [recordsSize, List.map_append, List.sum_append, recordsSize, recordsSize]

theorem recordsSize_bootInfo (rs : List BiRecord) :
    recordsSize (bootInfo rs) = 16 + recordsSize rs := by
  rw [bootInfo, recordsSize_cons, recordsSize_append, recordsSize_cons]
  simp only [recordsSize, BiRecord.size, List.length_nil, List.map_nil, List.sum_nil]
  omega

theorem recordsSize_bootInfo_le (rs rs' : List BiRecord) :
    recordsSize (bootInfo rs) ≤ recordsSize (bootInfo (rs ++ rs')) := by
  rw [recordsSize_bootInfo, recordsSize_bootInfo, recordsSize_append]
  omega

theorem recordsAt_append : ∀ {a : Nat} (rs : List BiRecord), RecordsAt mem a (rs ++ rs') ↔
    RecordsAt mem a rs ∧ RecordsAt mem (a + recordsSize rs) rs' := by
  intro a rs
  induction rs generalizing a with
  | nil => exact ⟨fun h => ⟨trivial, h⟩, fun h => h.2⟩
  | cons r rs ih =>
    rw [List.cons_append, RecordsAt, RecordsAt, ih, recordsSize_cons, ← Nat.add_assoc, and_assoc,
      and_assoc, and_assoc]

/-- The records are where their bytes are. -/
theorem RecordsAt.carried {a : Nat} (h : RecordsAt mem a rs)
    (hc : Carried mem a mem' a (recordsSize rs)) : RecordsAt mem' a rs := by
  induction rs generalizing a with
  | nil => trivial
  | cons r rs ih =>
    obtain ⟨htag, hsize, hdata, hrest⟩ := h
    rw [recordsSize_cons] at hc
    have hr : r.size = 8 + r.data.length := rfl
    refine ⟨?_, ?_, hdata.carried (hc.part 8 (by omega)), ih hrest (hc.part r.size (le_refl _))⟩
    · rw [word_carried (hc.take (by omega)), htag]
    · rw [word_carried (hc.part 4 (by omega)), hsize]

theorem bootinfoBuild_mem : (bootinfoBuild mem place tag data).1 =
    storeWord (Memory.store (storeWord mem place tag) (place + 8) data) (place + 4) (8 + data.length) := rfl

theorem BootInfoAt.carried (h : BootInfoAt mem a rs)
    (hc : Carried mem a mem' a (recordsSize (bootInfo rs))) : BootInfoAt mem' a rs :=
  ⟨h.records.carried hc, h.notLast⟩

/-- The record is there, and nothing else has changed. -/
theorem bootinfoBuild_spec (hr : r.size < 2 ^ 32) (htag : r.tag < 2 ^ 32) :
    RecordsAt (bootinfoBuild mem place r.tag r.data).1 place [r] ∧
      (bootinfoBuild mem place r.tag r.data).2 = place + r.size ∧
      ∀ x, x < place ∨ place + r.size ≤ x →
        (bootinfoBuild mem place r.tag r.data).1 x = mem x := by
  have hsize : r.size = 8 + r.data.length := rfl
  have hword : word (bootinfoBuild mem place r.tag r.data).1 (place + 4) = r.size := by
    rw [bootinfoBuild_mem, word_storeWord, Nat.mod_eq_of_lt (by omega), hsize]
  refine ⟨⟨?_, hword, ?_, trivial⟩, ?_, fun x hx => ?_⟩
  · rw [bootinfoBuild_mem, word_storeWord_ne (by omega),
      word_carried (carried_store (by omega)), word_storeWord, Nat.mod_eq_of_lt htag]
  · exact (store_at _ _ _).carried (carried_storeWord (by omega))
  · show place + word (bootinfoBuild mem place r.tag r.data).1 (place + 4) = _
    rw [hword]
  · have hbefore : x < place ∨ place + 4 ≤ x := by omega
    have hbehind : x < place + 4 ∨ place + 4 + 4 ≤ x := by omega
    have hdata : x < place + 8 ∨ place + 8 + r.data.length ≤ x := by omega
    rw [bootinfoBuild_mem, storeWord, store_out hbehind, store_out hdata, storeWord,
      store_out hbefore]

/-- The walk finds the end of the list. -/
theorem findLast_spec {a n : Nat} (h : RecordsAt mem a (rs ++ [⟨biLast, []⟩]))
    (hne : ∀ r ∈ rs, r.tag ≠ biLast) (hn : rs.length < n) :
    findLast mem n a = some (a + recordsSize rs) := by
  induction rs generalizing a n with
  | nil =>
    obtain ⟨n, rfl⟩ := Nat.exists_eq_add_of_lt hn
    rw [findLast, if_pos h.1]
    rfl
  | cons r rs ih =>
    obtain ⟨n, rfl⟩ : ∃ k, n = k + 1 := ⟨n - 1, by omega⟩
    obtain ⟨htag, hsize, -, hrest⟩ := h
    rw [List.length_cons] at hn
    rw [findLast, if_neg (by rw [htag]; exact hne r List.mem_cons_self), hsize,
      ih hrest (fun r hr => hne r (List.mem_cons_of_mem _ hr)) (by omega), recordsSize_cons,
      Nat.add_assoc]

/-- Two records are written one behind the other. -/
theorem bootinfoBuild_pair (hr : r.size < 2 ^ 32) (htag : r.tag < 2 ^ 32) :
    RecordsAt (bootinfoBuild (bootinfoBuild mem place r.tag r.data).1
        (bootinfoBuild mem place r.tag r.data).2 biLast []).1 place [r, ⟨biLast, []⟩] ∧
      ∀ x, x < place ∨ place + (r.size + 8) ≤ x →
        (bootinfoBuild (bootinfoBuild mem place r.tag r.data).1
          (bootinfoBuild mem place r.tag r.data).2 biLast []).1 x = mem x := by
  obtain ⟨hat, hnext, hframe⟩ := @bootinfoBuild_spec mem place r hr htag
  rw [hnext]
  obtain ⟨hlast, -, hframe'⟩ := @bootinfoBuild_spec (bootinfoBuild mem place r.tag r.data).1
    (place + r.size) ⟨biLast, []⟩ (by decide) (by decide)
  have hsize : (⟨biLast, []⟩ : BiRecord).size = 8 := rfl
  rw [hsize] at hframe'
  refine ⟨?_, fun x hx => ?_⟩
  · rw [show [r, (⟨biLast, []⟩ : BiRecord)] = [r] ++ [⟨biLast, []⟩] from rfl, recordsAt_append]
    have hone : recordsSize [r] = r.size := Nat.add_zero _
    refine ⟨hat.carried fun i hi => ?_, by rw [hone]; exact hlast⟩
    rw [hone] at hi
    exact hframe' _ (by omega)
  · rw [hframe' x (by omega), hframe x (by omega)]

theorem bootinfoInit_spec (mem : Bytes) (birec : Nat) :
    BootInfoAt (bootinfoInit mem birec) birec [] ∧
      ∀ x, x < birec ∨ birec + recordsSize (bootInfo []) ≤ x →
        bootinfoInit mem birec x = mem x := by
  obtain ⟨hat, hframe⟩ := @bootinfoBuild_pair mem birec ⟨biFirst, []⟩ (by decide) (by decide)
  exact ⟨⟨hat, fun r hr => absurd hr List.not_mem_nil⟩, hframe⟩

/-- **A record more.** The walk ends, the new record stands where the end of
    the list was, and nothing outside the list has changed. -/
theorem bootinfoAppend_spec (h : BootInfoAt mem birec rs) (hpos : 0 < birec)
    (hn : rs.length < 2 ^ 32 - 1) (hr : r.Fits) :
    ∃ mem', bootinfoAppend mem birec r.tag r.data = some mem' ∧
      BootInfoAt mem' birec (rs ++ [r]) ∧
      ∀ x, x < birec ∨ birec + recordsSize (bootInfo (rs ++ [r])) ≤ x → mem' x = mem x := by
  have hlist : bootInfo rs = (⟨biFirst, []⟩ :: rs) ++ [⟨biLast, []⟩] := rfl
  have hat := h.records
  rw [hlist] at hat
  have hlast := findLast_spec hat (List.forall_mem_cons.mpr ⟨by decide, h.notLast⟩)
    (show (⟨biFirst, []⟩ :: rs).length < 2 ^ 32 by rw [List.length_cons]; omega)
  rw [recordsAt_append] at hat
  obtain ⟨hpair, hframe⟩ := @bootinfoBuild_pair mem
    (birec + recordsSize (⟨biFirst, []⟩ :: rs)) r hr.size hr.tag
  have hfirst : word mem birec = biFirst := h.records.1
  have hsize : recordsSize (bootInfo (rs ++ [r])) =
      recordsSize (⟨biFirst, []⟩ :: rs) + (r.size + 8) := by
    rw [recordsSize_bootInfo, recordsSize_append, recordsSize_cons, recordsSize_cons]
    simp only [recordsSize, BiRecord.size, List.length_nil, List.map_nil, List.sum_nil]
    omega
  refine ⟨_, ?_, ⟨?_, ?_⟩, fun x hx => hframe x (by omega)⟩
  · rw [bootinfoAppend, if_neg (by rw [hfirst]; simp; omega), hlast]
    rfl
  · rw [show bootInfo (rs ++ [r]) = (⟨biFirst, []⟩ :: rs) ++ [r, ⟨biLast, []⟩] by
      rw [bootInfo, List.append_assoc]; rfl, recordsAt_append]
    exact ⟨hat.1.carried fun i hi => hframe _ (by omega), hpair⟩
  · intro r' hr'
    rcases List.mem_append.mp hr' with hr' | hr'
    · exact h.notLast r' hr'
    · rw [List.mem_singleton.mp hr']
      exact hr.notLast

end LiloBoot.ZImage
