/-
LiloBoot.DevTree.Memory — words and strings in a memory.

A memory is a function from addresses to bytes. The operations are those of a C
program on it: a store, `memmove`, a read of a big-endian word, `strlen`,
`strcmp`. `Carried` says that the bytes of one area of a memory stand in an area
of another; what is known of an area is carried along with its bytes.
-/
import LiloBoot.Basic

namespace LiloBoot.Memory

/-! ## §1 Operations -/

/-- The memory with `bytes` at `p`. -/
def store (mem : Bytes) (p : Nat) (bytes : List UInt8) : Bytes :=
  fun a => if p ≤ a ∧ a < p + bytes.length then bytes.getD (a - p) 0 else mem a

/-- `memmove(dst, src, n)`. -/
def memmove (mem : Bytes) (dst src n : Nat) : Bytes :=
  fun a => if dst ≤ a ∧ a < dst + n then mem (src + (a - dst)) else mem a

/-- The big-endian 32-bit word at `p`. -/
def word (mem : Bytes) (p : Nat) : Nat :=
  (mem p).toNat * 2 ^ 24 + (mem (p + 1)).toNat * 2 ^ 16 + (mem (p + 2)).toNat * 2 ^ 8
    + (mem (p + 3)).toNat

/-- The bytes of a word. -/
def wordBytes (value : Nat) : List UInt8 :=
  [UInt8.ofNat (value / 2 ^ 24), UInt8.ofNat (value / 2 ^ 16), UInt8.ofNat (value / 2 ^ 8),
    UInt8.ofNat value]

/-- The memory with a word at `p`. -/
def storeWord (mem : Bytes) (p value : Nat) : Bytes := store mem p (wordBytes value)

/-- The number of bytes before the first NUL, among `fuel` bytes from `p` on. -/
def strnlen (mem : Bytes) : Nat → Nat → Nat
  | 0, _ => 0
  | fuel + 1, p => if mem p = 0 then 0 else strnlen mem fuel (p + 1) + 1

/-- `strlen(p)` in an address space of 32 bits. -/
def strlen (mem : Bytes) (p : Nat) : Nat := strnlen mem (2 ^ 32) p

/-- `strcmp(p, s) == 0`. -/
def strcmpEq (mem : Bytes) : Nat → List UInt8 → Bool
  | p, [] => mem p = 0
  | p, c :: s => mem p = c && strcmpEq mem (p + 1) s

/-! ## §2 Areas -/

/-- The `n` bytes at `p` of `mem` are those at `p'` of `mem'`. -/
def Carried (mem : Bytes) (p : Nat) (mem' : Bytes) (p' n : Nat) : Prop :=
  ∀ i < n, mem' (p' + i) = mem (p + i)

/-- The bytes that stand at `p`. -/
def BytesAt (mem : Bytes) (p : Nat) (bytes : List UInt8) : Prop :=
  ∀ i < bytes.length, mem (p + i) = bytes.getD i 0

/-- The C string that stands at `p`. -/
structure StringAt (mem : Bytes) (p : Nat) (s : List UInt8) : Prop where
  bytes : BytesAt mem p s
  nul : mem (p + s.length) = 0
  noNul : 0 ∉ s

instance BytesAt.decidable (mem : Bytes) (p : Nat) (bytes : List UInt8) :
    Decidable (BytesAt mem p bytes) :=
  inferInstanceAs (Decidable (∀ i < bytes.length, mem (p + i) = bytes.getD i 0))

instance StringAt.decidable (mem : Bytes) (p : Nat) (s : List UInt8) :
    Decidable (StringAt mem p s) :=
  decidable_of_iff (BytesAt mem p s ∧ mem (p + s.length) = 0 ∧ 0 ∉ s)
    ⟨fun h => ⟨h.1, h.2.1, h.2.2⟩, fun h => ⟨h.bytes, h.nul, h.noNul⟩⟩

variable {mem mem' mem'' : Bytes} {p p' p'' n k dst src : Nat} {bytes s : List UInt8}

theorem Carried.refl (mem : Bytes) (p n : Nat) : Carried mem p mem p n := fun _ _ => rfl

theorem Carried.trans (h : Carried mem p mem' p' n) (h' : Carried mem' p' mem'' p'' n) :
    Carried mem p mem'' p'' n := fun i hi => (h' i hi).trans (h i hi)

/-- A part of an area. -/
theorem Carried.part (h : Carried mem p mem' p' n) (start : Nat) (hk : start + k ≤ n) :
    Carried mem (p + start) mem' (p' + start) k := by
  intro i hi
  rw [Nat.add_assoc, Nat.add_assoc]
  exact h (start + i) (by omega)

theorem Carried.take (h : Carried mem p mem' p' n) (hk : k ≤ n) : Carried mem p mem' p' k :=
  fun i hi => h i (by omega)

/-- Two areas one behind the other. -/
theorem Carried.append (h : Carried mem p mem' p' n)
    (h' : Carried mem (p + n) mem' (p' + n) k) : Carried mem p mem' p' (n + k) := by
  intro i hi
  rcases Nat.lt_or_ge i n with hlt | hge
  · exact h i hlt
  · have hat := h' (i - n) (by omega)
    rwa [show p' + n + (i - n) = p' + i by omega, show p + n + (i - n) = p + i by omega] at hat

theorem word_carried (h : Carried mem p mem' p' 4) : word mem' p' = word mem p := by
  have h0 := h 0 (by decide)
  rw [Nat.add_zero, Nat.add_zero] at h0
  rw [word, word, h0, h 1 (by decide), h 2 (by decide), h 3 (by decide)]

theorem BytesAt.carried (hbytes : BytesAt mem p bytes) (h : Carried mem p mem' p' bytes.length) :
    BytesAt mem' p' bytes := fun i hi => (h i hi).trans (hbytes i hi)

theorem StringAt.carried (hs : StringAt mem p s) (h : Carried mem p mem' p' (s.length + 1)) :
    StringAt mem' p' s :=
  ⟨hs.bytes.carried (h.take (Nat.le_succ _)), (h s.length (Nat.lt_succ_self _)).trans hs.nul,
    hs.noNul⟩

/-! ## §3 Stores -/

theorem store_out {a : Nat} (h : a < p ∨ p + bytes.length ≤ a) : store mem p bytes a = mem a := by
  rw [store, if_neg (by omega)]

theorem store_at (mem : Bytes) (p : Nat) (bytes : List UInt8) :
    BytesAt (store mem p bytes) p bytes := by
  intro i hi
  rw [store, if_pos (by omega), Nat.add_sub_cancel_left]

/-- An area beside a store. -/
theorem carried_store (h : src + n ≤ p ∨ p + bytes.length ≤ src) :
    Carried mem src (store mem p bytes) src n := fun i hi => store_out (by omega)

theorem memmove_out {a : Nat} (h : a < dst ∨ dst + n ≤ a) : memmove mem dst src n a = mem a := by
  rw [memmove, if_neg (by omega)]

theorem memmove_carried (mem : Bytes) (dst src n : Nat) :
    Carried mem src (memmove mem dst src n) dst n := by
  intro i hi
  rw [memmove, if_pos (by omega), Nat.add_sub_cancel_left]

/-- An area beside the destination of a `memmove`. -/
theorem carried_memmove (h : p + k ≤ dst ∨ dst + n ≤ p) :
    Carried mem p (memmove mem dst src n) p k := fun i hi => memmove_out (by omega)

theorem wordBytes_length (value : Nat) : (wordBytes value).length = 4 := rfl

theorem word_storeWord (mem : Bytes) (p value : Nat) :
    word (storeWord mem p value) p = value % 2 ^ 32 := by
  have hat : ∀ i < 4, store mem p (wordBytes value) (p + i) = (wordBytes value).getD i 0 :=
    store_at mem p (wordBytes value)
  have h0 := hat 0 (by decide)
  rw [Nat.add_zero] at h0
  rw [storeWord, word, h0, hat 1 (by decide), hat 2 (by decide), hat 3 (by decide)]
  simp only [wordBytes, List.getD_cons_zero, List.getD_cons_succ, UInt8.toNat_ofNat']
  omega

theorem carried_storeWord {value : Nat} (h : src + n ≤ p ∨ p + 4 ≤ src) :
    Carried mem src (storeWord mem p value) src n := carried_store h

theorem word_storeWord_ne {q value : Nat} (h : q + 4 ≤ p ∨ p + 4 ≤ q) :
    word (storeWord mem p value) q = word mem q := word_carried (carried_storeWord h)

/-! ## §4 Strings -/

theorem StringAt.head_ne {c : UInt8} (hs : StringAt mem p (c :: s)) : mem p = c ∧ c ≠ 0 :=
  ⟨hs.bytes 0 (Nat.succ_pos _), fun h => hs.noNul (by rw [h]; exact List.mem_cons_self)⟩

theorem StringAt.tail {c : UInt8} (hs : StringAt mem p (c :: s)) : StringAt mem (p + 1) s := by
  refine ⟨fun i hi => ?_, ?_, fun h => hs.noNul (List.mem_cons_of_mem _ h)⟩
  · rw [Nat.add_assoc, Nat.add_comm 1 i]
    exact hs.bytes (i + 1) (Nat.succ_lt_succ hi)
  · rw [Nat.add_assoc, Nat.add_comm 1]
    exact hs.nul

theorem strnlen_stringAt (s : List UInt8) : ∀ {fuel p : Nat}, StringAt mem p s → s.length < fuel →
    strnlen mem fuel p = s.length := by
  induction s with
  | nil =>
    intro fuel p hs hfuel
    obtain ⟨fuel, rfl⟩ : ∃ k, fuel = k + 1 := ⟨fuel - 1, by omega⟩
    have hnul := hs.nul
    rw [List.length_nil, Nat.add_zero] at hnul
    rw [strnlen, if_pos hnul, List.length_nil]
  | cons c s ih =>
    intro fuel p hs hfuel
    rw [List.length_cons] at hfuel
    obtain ⟨fuel, rfl⟩ : ∃ k, fuel = k + 1 := ⟨fuel - 1, by omega⟩
    obtain ⟨hc, hne⟩ := hs.head_ne
    rw [strnlen, if_neg (by rw [hc]; exact hne), ih hs.tail (by omega), List.length_cons]

theorem strlen_stringAt (hs : StringAt mem p s) (hlen : s.length < 2 ^ 32) :
    strlen mem p = s.length := strnlen_stringAt s hs hlen

/-- `strcmp` tells strings apart. -/
theorem strcmpEq_stringAt (t : List UInt8) : ∀ {p : Nat} {s : List UInt8}, StringAt mem p s →
    0 ∉ t → (strcmpEq mem p t = true ↔ s = t) := by
  induction t with
  | nil =>
    intro p s hs _
    cases s with
    | nil =>
      have hnul := hs.nul
      rw [List.length_nil, Nat.add_zero] at hnul
      simp [strcmpEq, hnul]
    | cons c s =>
      obtain ⟨hc, hne⟩ := hs.head_ne
      simp [strcmpEq, hc, hne]
  | cons c t ih =>
    intro p s hs hno
    rw [List.mem_cons, not_or] at hno
    cases s with
    | nil =>
      have hnul := hs.nul
      rw [List.length_nil, Nat.add_zero] at hnul
      simp [strcmpEq, hnul, hno.1]
    | cons d s =>
      rw [strcmpEq, hs.head_ne.1, Bool.and_eq_true, decide_eq_true_eq, ih hs.tail hno.2,
        List.cons.injEq]

/-- The string at an address is one string. -/
theorem StringAt.unique {t : List UInt8} (hs : StringAt mem p s) (ht : StringAt mem p t) : s = t :=
  (strcmpEq_stringAt t hs ht.noNul).mp ((strcmpEq_stringAt t ht ht.noNul).mpr rfl)

theorem BytesAt.unique {bytes' : List UInt8} (h : BytesAt mem p bytes) (h' : BytesAt mem p bytes')
    (hlen : bytes.length = bytes'.length) : bytes = bytes' := by
  refine List.ext_getElem hlen fun i hi hi' => ?_
  have hat := (h i hi).symm.trans (h' i hi')
  rwa [List.getD_eq_getElem _ _ hi, List.getD_eq_getElem _ _ hi'] at hat

theorem stringAt_of_strcmpEq (name : List UInt8) : ∀ {p : Nat},
    strcmpEq mem p name = true → 0 ∉ name → StringAt mem p name := by
  induction name with
  | nil =>
    intro p h _
    exact ⟨fun i hi => absurd hi (Nat.not_lt_zero i), of_decide_eq_true h, List.not_mem_nil⟩
  | cons c name ih =>
    intro p h hno
    rw [strcmpEq, Bool.and_eq_true, decide_eq_true_eq] at h
    rw [List.mem_cons, not_or] at hno
    have hrest := ih h.2 hno.2
    refine ⟨fun i hi => ?_, ?_, by rw [List.mem_cons, not_or]; exact hno⟩
    · cases i with
      | zero => exact h.1
      | succ i =>
        rw [Nat.add_comm i 1, ← Nat.add_assoc, Nat.add_comm 1 i]
        exact hrest.bytes i (Nat.lt_of_succ_lt_succ hi)
    · rw [List.length_cons, Nat.add_comm name.length 1, ← Nat.add_assoc]
      exact hrest.nul

/-- A string that begins in a terminated area ends in it. -/
theorem StringAt.inside {stop : Nat} (hs : StringAt mem p s)
    (hp : p < stop) (hlast : mem (stop - 1) = 0) : p + s.length < stop := by
  by_contra hover
  have hat := hs.bytes (stop - 1 - p) (by omega)
  rw [show p + (stop - 1 - p) = stop - 1 by omega, hlast,
    List.getD_eq_getElem _ _ (by omega)] at hat
  exact hs.noNul (by rw [hat]; exact List.getElem_mem _)

end LiloBoot.Memory
