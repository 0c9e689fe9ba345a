/-
LiloBoot.Boot.SystemInfo — the line about the machine (`second/yaboot.c`).

`append_system_info` reads a property into a buffer on the stack and appends it to
the line with five or six calls of `strncat`; the buffer is not cleared and its last
byte is never read into, so a value without a NUL goes on into the stack. The line
is a static array, zero behind the string. `room` is the size of the array, which is
one more than the size that `get_system_info` is given.
-/
import LiloBoot.Lib.Strncat

namespace LiloBoot

open Memory

/-! ## §1 Definitions -/

/-- The line: its memory, `off`, and the addresses written to. -/
structure Sysinfo where
  mem : Bytes
  off : Nat
  writes : List Nat

/-- `strncat(s, src, size - off); off = strlen(s);`. -/
def Sysinfo.cat (size : Nat) (i : Sysinfo) (src : Bytes) : Sysinfo :=
  let r := strncat i.mem src (sub32 size i.off)
  ⟨r.1, strlen r.1 0, i.writes ++ r.2⟩

/-- A string constant. -/
def literal (s : String) : Bytes := fun j => (s.toList.map fun c => UInt8.ofNat c.toNat).getD j 0

/-- What a call of `append_system_info` finds and gets: the property, if the node has it, the
stack from `buf` on, and the arguments. -/
structure SystemInfoCall where
  value : Option (List UInt8)
  stack : Bytes
  ident : String
  last : Bool
  macSerial : Bool

namespace SystemInfoCall

/-- What `prom_getprop` returns: the size of the property, -1 without it. -/
def len (c : SystemInfoCall) : Int :=
  match c.value with
  | some value => value.length
  | none => -1

/-- `buf[32]` and the stack behind it; the firmware fills in 31 bytes at most. -/
def buf (c : SystemInfoCall) : Bytes := store c.stack 0 ((c.value.getD []).take 31)

end SystemInfoCall

/-- `append_system_info(node, prop, s, size, off, ident, last, mac_serial)`. -/
def appendSystemInfo (size : Nat) (i : Sysinfo) (c : SystemInfoCall) : Sysinfo :=
  if 0 < c.len ∧ c.len < 32 then
    let i := if c.last then i.cat size (literal ",") else i
    let i := i.cat size (literal " ")
    let i := i.cat size (literal c.ident)
    let i := i.cat size (literal " '")
    let p := if c.macSerial then 0xd else 0
    let i := i.cat size fun j => c.buf (p + j)
    i.cat size (literal "'")
  else i

/-- The properties that `get_system_info` asks for, and the stack of each call. -/
structure SystemInfoProps where
  openpromModel : Option (List UInt8)
  model : Option (List UInt8)
  serial : Option (List UInt8)
  systemid : Option (List UInt8)
  partitionName : Option (List UInt8)
  stack : Nat → Bytes

/-- The calls of `get_system_info`: the serial number if it has one byte at least. -/
def SystemInfoProps.calls (f : SystemInfoProps) : List SystemInfoCall :=
  [⟨f.openpromModel, f.stack 0, "with firmware", false, false⟩,
    ⟨f.model, f.stack 1, "on model", false, false⟩,
    if 0 < (f.serial.getD []).length then ⟨f.serial, f.stack 2, "serial", true, true⟩
    else ⟨f.systemid, f.stack 2, "serial", true, false⟩,
    ⟨f.partitionName, f.stack 3, "partition", true, false⟩]

/-- `sysinfo` behind the `sprintf`. -/
def sysinfoStart : Sysinfo := ⟨literal "running", 7, List.range 8⟩

/-- `get_system_info(s, size)`. -/
def getSystemInfo (size : Nat) (f : SystemInfoProps) : Sysinfo :=
  f.calls.foldl (appendSystemInfo size) sysinfoStart

/-! ## §2 The line stays in its array -/

/-- The line ends in the array and nothing outside it is written. -/
def KeepsWithin (room : Nat) (i : Sysinfo) : Prop :=
  (∃ t, StringAt i.mem 0 t ∧ t.length < room) ∧ ∀ p ∈ i.writes, p < room

/-- What holds before each append: `off` is the length of the line and the array is zero behind
it, with room for two bytes at least. -/
structure Blank (room : Nat) (i : Sysinfo) : Prop where
  front : ∀ a < i.off, i.mem a ≠ 0
  behind : ∀ a, i.off ≤ a → a < room → i.mem a = 0
  off_le : i.off + 2 ≤ room
  writes : ∀ p ∈ i.writes, p < room

/-- The characters of a source that an append asks for, as far as the line could hold them. -/
def need (size : Nat) (src : Bytes) : Nat := strnlen src size 0

/-- The sources that a call appends. -/
def SystemInfoCall.sources (c : SystemInfoCall) : List Bytes :=
  if 0 < c.len ∧ c.len < 32 then
    (if c.last then [literal ","] else []) ++ [literal " ", literal c.ident, literal " '",
      fun j => c.buf ((if c.macSerial then 0xd else 0) + j), literal "'"]
  else []

/-- What a call adds to the line. -/
def SystemInfoCall.added (size : Nat) (c : SystemInfoCall) : Nat :=
  (c.sources.map (need size)).sum

theorem appendSystemInfo_eq (size : Nat) (i : Sysinfo) (c : SystemInfoCall) :
    appendSystemInfo size i c = c.sources.foldl (Sysinfo.cat size) i := by
  rw [appendSystemInfo, SystemInfoCall.sources]
  split
  · cases c.last <;> rfl
  · rfl

variable {room size : Nat} {i : Sysinfo} {src : Bytes}

theorem strlen_eq {mem : Bytes} {n : Nat} (hfront : ∀ a < n, mem a ≠ 0) (hnul : mem n = 0)
    (hn : n < 2 ^ 32) : strlen mem 0 = n := by
  have hcount (fuel : Nat) : ∀ p, p ≤ n → n - p < fuel → strnlen mem fuel p = n - p := by
    induction fuel with
    | zero =>
      intro p _ h
      omega
    | succ fuel ih =>
      intro p hp h
      rw [strnlen]
      by_cases heq : p = n
      · rw [if_pos (by rw [heq]; exact hnul), heq, Nat.sub_self]
      · rw [if_neg (hfront p (by omega)), ih (p + 1) (by omega) (by omega)]
        omega
  rw [strlen, hcount (2 ^ 32) 0 (Nat.zero_le n) hn, Nat.sub_zero]

theorem Blank.keepsWithin (h : Blank room i) : KeepsWithin room i := by
  have hoff := h.off_le
  refine ⟨⟨(List.range i.off).map i.mem, ⟨fun a ha => ?_, ?_, ?_⟩, ?_⟩, h.writes⟩
  · rw [List.length_map, List.length_range] at ha
    rw [Nat.zero_add, List.getD_eq_getElem _ _ (by simpa using ha), List.getElem_map,
      List.getElem_range]
  · rw [List.length_map, List.length_range, Nat.zero_add]
    exact h.behind i.off (Nat.le_refl _) (by omega)
  · intro hmem
    obtain ⟨a, ha, hzero⟩ := List.mem_map.mp hmem
    exact h.front a (List.mem_range.mp ha) hzero
  · rw [List.length_map, List.length_range]
    omega

/-- The writes of an append are kept. -/
theorem writes_cat : i.writes ⊆ (i.cat size src).writes := List.subset_append_left _ _

theorem writes_foldl (srcs : List Bytes) (i : Sysinfo) :
    i.writes ⊆ (srcs.foldl (Sysinfo.cat size) i).writes := by
  induction srcs generalizing i with
  | nil => exact List.Subset.refl _
  | cons src srcs ih => exact List.Subset.trans writes_cat (ih _)

/-- **One append**: with room for two more bytes the line is as it was before, only longer;
without, a byte behind the array is written. -/
theorem Blank.cat (h : Blank room i) (hsize : room ≤ size + 1) (hlt : size < 2 ^ 32) :
    if i.off + need size src + 2 ≤ room then
      Blank room (i.cat size src) ∧ (i.cat size src).off = i.off + need size src
    else ∃ p ∈ (i.cat size src).writes, room ≤ p := by
  have hoff := h.off_le
  have hlen : strlen i.mem 0 = i.off :=
    strlen_eq h.front (h.behind _ (Nat.le_refl _) (by omega)) (by omega)
  have hn : sub32 size i.off = size - i.off := sub32_of_le (by omega) hlt
  have hcopied : strnlen src (size - i.off) 0 = min (size - i.off) (need size src) := by
    have hmin := strnlen_min src (size - i.off) i.off 0
    rwa [Nat.sub_add_cancel (by omega)] at hmin
  have hcat := strncat_eq (show 0 < size - i.off by omega) i.mem src
  rw [hlen] at hcat
  split
  · rename_i hfits
    have hk : strnlen src (size - i.off) 0 = need size src := by omega
    rw [hk] at hcat
    have hmem : (i.cat size src).mem = fun a => if a = i.off + need size src + 1 then 0
        else if i.off ≤ a ∧ a < i.off + need size src then src (a - i.off) else i.mem a := by
      simp only [Sysinfo.cat, hn, hcat]
    have hfront : ∀ a < i.off + need size src, (i.cat size src).mem a ≠ 0 := by
      intro a ha
      rw [hmem]
      simp only
      rw [if_neg (by omega)]
      split
      · have hne := @strnlen_ne_zero src size 0 (a - i.off) (by rw [← need]; omega)
        rwa [Nat.zero_add] at hne
      · exact h.front a (by omega)
    have hbehind : ∀ a, i.off + need size src ≤ a → a < room → (i.cat size src).mem a = 0 := by
      intro a ha hroom
      rw [hmem]
      simp only
      split
      · rfl
      · rw [if_neg (by omega)]
        exact h.behind a (by omega) hroom
    have hstrlen : (i.cat size src).off = i.off + need size src :=
      strlen_eq hfront (hbehind _ (Nat.le_refl _) (by omega)) (by omega)
    refine ⟨⟨?_, ?_, by omega, ?_⟩, hstrlen⟩
    · rw [hstrlen]
      exact hfront
    · rw [hstrlen]
      exact hbehind
    · intro p hp
      simp only [Sysinfo.cat, hn, hcat, List.mem_append, List.mem_range'_1,
        List.mem_singleton] at hp
      rcases hp with hp | hp | hp
      · exact h.writes p hp
      · omega
      · omega
  · rename_i hfull
    refine ⟨i.off + strnlen src (size - i.off) 0 + 1, ?_, by omega⟩
    simp only [Sysinfo.cat, hn, hcat]
    exact List.mem_append_right _ (List.mem_append_right _ List.mem_cons_self)

/-- **A run of appends** keeps the line within the array exactly if all of it fits, with one more
byte behind its NUL. -/
theorem foldl_cat_iff (hsize : room ≤ size + 1) (hlt : size < 2 ^ 32) (srcs : List Bytes)
    (h : Blank room i) :
    (KeepsWithin room (srcs.foldl (Sysinfo.cat size) i)
      ↔ i.off + (srcs.map (need size)).sum + 2 ≤ room)
    ∧ (i.off + (srcs.map (need size)).sum + 2 ≤ room →
      Blank room (srcs.foldl (Sysinfo.cat size) i)
        ∧ (srcs.foldl (Sysinfo.cat size) i).off = i.off + (srcs.map (need size)).sum) := by
  induction srcs generalizing i with
  | nil => exact ⟨⟨fun _ => h.off_le, fun _ => h.keepsWithin⟩, fun _ => ⟨h, rfl⟩⟩
  | cons src srcs ih =>
    have hcat := @Blank.cat room size i src h hsize hlt
    rw [List.map_cons, List.sum_cons, ← Nat.add_assoc, List.foldl_cons]
    split at hcat
    · rw [← hcat.2]
      exact ih hcat.1
    · obtain ⟨p, hp, hle⟩ := hcat
      refine ⟨⟨fun hkeeps => ?_, fun hfits => by omega⟩, fun hfits => by omega⟩
      have := hkeeps.2 p (writes_foldl srcs _ hp)
      omega

theorem foldl_appendSystemInfo (size : Nat) (calls : List SystemInfoCall) (i : Sysinfo) :
    calls.foldl (appendSystemInfo size) i
      = (calls.flatMap SystemInfoCall.sources).foldl (Sysinfo.cat size) i := by
  induction calls generalizing i with
  | nil => rfl
  | cons c calls ih =>
    rw [List.foldl_cons, appendSystemInfo_eq, ih, List.flatMap_cons, List.foldl_append]

theorem added_sum (size : Nat) (calls : List SystemInfoCall) :
    ((calls.flatMap SystemInfoCall.sources).map (need size)).sum
      = (calls.map (SystemInfoCall.added size)).sum := by
  induction calls with
  | nil => rfl
  | cons c calls ih =>
    rw [List.flatMap_cons, List.map_append, List.sum_append, ih, List.map_cons, List.sum_cons]
    rfl

/-- A run of `append_system_info` on an array of `room` bytes, the size given being the array's or
one less. -/
structure SystemInfoRun where
  room : Nat
  size : Nat
  start : Sysinfo
  calls : List SystemInfoCall
  blank : Blank room start
  room_le : room ≤ size + 1
  size_lt : size < 2 ^ 32

namespace SystemInfoRun

variable (r : SystemInfoRun)

def Keeps : Prop := KeepsWithin r.room (r.calls.foldl (appendSystemInfo r.size) r.start)

/-- All that is appended fits, with one more byte behind its NUL. -/
def Fits : Prop :=
  r.start.off + (r.calls.map (SystemInfoCall.added r.size)).sum + 2 ≤ r.room

instance : Decidable r.Fits := inferInstanceAs (Decidable (_ ≤ _))

theorem keeps_iff : r.Keeps ↔ r.Fits := by
  rw [Keeps, Fits, foldl_appendSystemInfo, ← added_sum]
  exact (foldl_cat_iff r.room_le r.size_lt _ r.blank).1

end SystemInfoRun

/-! ## §3 The line about the machine -/

theorem sysinfoStart_blank : Blank 234 sysinfoStart where
  front := by decide
  behind := by
    intro a ha _
    show (("running".toList.map fun c => UInt8.ofNat c.toNat).getD a 0) = 0
    exact List.getD_eq_default _ _ ha
  off_le := by decide
  writes := by decide

/-- `get_system_info(sysinfo, sizeof(sysinfo) - 1)`. -/
def systemInfoRun (f : SystemInfoProps) : SystemInfoRun where
  room := 234
  size := 233
  start := sysinfoStart
  calls := f.calls
  blank := sysinfoStart_blank
  room_le := by decide
  size_lt := by decide

theorem systemInfoRun_getSystemInfo (f : SystemInfoProps) :
    (systemInfoRun f).Keeps ↔ KeepsWithin 234 (getSystemInfo 233 f) := Iff.rfl

/-- **The bounded append**: no call of `strncat` keeps to the string it is for, whose NUL it leaves
to what stood there; a run of `append_system_info` on a cleared array keeps to the array exactly
if all of it fits with one byte to spare. -/
theorem boundedAppend_iff (c : StrncatCall) (r : SystemInfoRun) :
    ¬ (c.Leaves ∧ c.WritesWithin) ∧ (c.Leaves ↔ c.mem c.expected.length = 0)
      ∧ (r.Keeps ↔ r.Fits) :=
  ⟨fun h => c.not_writesWithin h.2, c.leaves_iff, r.keeps_iff⟩

/-- An empty string, `bb` behind its NUL. -/
def staleMem : Bytes := fun a => if a = 0 then 0 else if a ≤ 2 then 98 else 0

/-- `a` appended to the empty string. -/
def staleCall : StrncatCall where
  mem := staleMem
  src := literal "a"
  d := []
  s := [97]
  n := 1
  dest_at := by decide
  src_at := by decide
  d_lt := by decide
  pos := by decide

/-- The line reads `ab`, and the array of a machine whose partition name has no NUL, with no zero
on the stack behind it, is overrun. -/
theorem stale_append :
    ¬ staleCall.Leaves ∧ StringAt (strncat staleMem (literal "a") 1).1 0 [97, 98]
      ∧ ¬ (systemInfoRun ⟨none, none, none, none, some (List.replicate 31 120),
        fun _ _ => 120⟩).Keeps := by
  refine ⟨?_, by decide, ?_⟩
  · rw [StrncatCall.leaves_iff]
    decide
  · rw [SystemInfoRun.keeps_iff]
    decide +kernel

end LiloBoot
