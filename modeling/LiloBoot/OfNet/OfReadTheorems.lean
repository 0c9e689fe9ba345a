/-
LiloBoot.OfNet.OfReadTheorems — `of_read` keeps its accounts.

A turn of the loop either accepts a read, and then the three counters move by
its length, or counts a retry. `Accounts` is what holds between the turns;
`8 * size + (7 - i)` goes down with each.
-/
import LiloBoot.OfNet.OfRead

namespace LiloBoot.OfNet

/-! ## §1 `prom_read` -/

variable {fw : Nat → FwRead} {s s' : ReadLog} {p n size pos : Nat} {mem : Bytes}

/-- A `prom_read` offers the firmware its own area, some times, and changes nothing else. -/
structure Offers (s s' : ReadLog) (p n : Nat) : Prop where
  mem : ∀ a, a < p ∨ p + n ≤ a → s'.mem a = s.mem a
  offered : ∃ k, s'.offered = s.offered ++ List.replicate k (p, n)

theorem Offers.refl (s : ReadLog) (p n : Nat) : Offers s s p n :=
  ⟨fun _ _ => rfl, 0, (List.append_nil _).symm⟩

theorem offers_fwCall (fw : Nat → FwRead) (p n : Nat) (s : ReadLog) :
    Offers s (fwCall fw p n s) p n := by
  refine ⟨fun a ha => ?_, 1, rfl⟩
  exact if_neg (by omega)

theorem Offers.trans {s'' : ReadLog} (h : Offers s s' p n) (h' : Offers s' s'' p n) :
    Offers s s'' p n := by
  obtain ⟨k, hk⟩ := h.offered
  obtain ⟨k', hk'⟩ := h'.offered
  refine ⟨fun a ha => (h'.mem a ha).trans (h.mem a ha), k + k', ?_⟩
  rw [hk', hk, List.append_assoc, List.replicate_append_replicate]

theorem promReadLoop_spec (fw : Nat → FwRead) (p n : Nat) (retries : Nat) : ∀ s : ReadLog,
    Offers s (promReadLoop fw p n retries s).2 p n
      ∧ (promReadLoop fw p n retries s).2.reads = s.reads := by
  induction retries with
  | zero => exact fun s => ⟨Offers.refl s p n, rfl⟩
  | succ retries ih =>
    intro s
    rw [promReadLoop]
    obtain ⟨hoffers, hreads⟩ := ih (fwCall fw p n s)
    split
    · exact ⟨offers_fwCall fw p n s, rfl⟩
    · exact ⟨(offers_fwCall fw p n s).trans hoffers, hreads⟩

/-- **`prom_read`** notes its result and what it has left in the offered area. -/
theorem promRead_spec (fw : Nat → FwRead) (p n : Nat) (s : ReadLog) :
    Offers s (promRead fw p n s).2 p n
      ∧ (promRead fw p n s).2.reads = s.reads ++ [⟨p, n, (promRead fw p n s).1,
        (List.range n).map fun i => (promRead fw p n s).2.mem (p + i)⟩] := by
  rw [promRead]
  by_cases hzero : n = 0
  · rw [if_pos hzero]
    exact ⟨⟨fun _ _ => rfl, 0, (List.append_nil _).symm⟩, rfl⟩
  · rw [if_neg hzero]
    obtain ⟨hoffers, hreads⟩ := promReadLoop_spec fw p n 9 s
    refine ⟨⟨hoffers.mem, hoffers.offered⟩, ?_⟩
    show _ ++ _ = _ ++ _
    rw [hreads]

/-! ## §2 The accounts -/

/-- The read was accepted: it delivered bytes, and no more than were asked for. -/
def PromRead.accepted (r : PromRead) : Bool := 0 < r.result && r.result ≤ r.n

/-- The bytes that the accepted reads delivered, in order. -/
def delivered (reads : List PromRead) : List UInt8 :=
  (reads.filter PromRead.accepted).flatMap fun r => r.bytes.take r.result

/-- What holds behind a turn in which `p` bytes of `size` have been accepted so far, in a buffer
that was `mem`. -/
structure Accounts (mem : Bytes) (size p : Nat) (s : ReadLog) : Prop where
  le : p ≤ size
  bytes : (List.range p).map s.mem = delivered s.reads
  beyond : ∀ a, size ≤ a → s.mem a = mem a
  offered : ∀ area ∈ s.offered, area.1 + area.2 ≤ size

/-- An area that is offered is the rest of the buffer. -/
theorem Offers.accounts (h : Offers s s' p n) (hs : Accounts mem size p s) (hn : p + n = size) :
    (List.range p).map s'.mem = delivered s.reads ∧ (∀ a, size ≤ a → s'.mem a = mem a)
      ∧ ∀ area ∈ s'.offered, area.1 + area.2 ≤ size := by
  refine ⟨?_, fun a ha => ?_, fun area harea => ?_⟩
  · rw [← hs.bytes]
    exact List.map_congr_left fun a ha => h.mem a (Or.inl (List.mem_range.mp ha))
  · rw [h.mem a (Or.inr (by omega))]
    exact hs.beyond a ha
  · obtain ⟨k, hk⟩ := h.offered
    rw [hk, List.mem_append] at harea
    rcases harea with hold | hnew
    · exact hs.offered area hold
    · rw [List.eq_of_mem_replicate hnew]
      exact Nat.le_of_eq hn

/-- A read that is not accepted. -/
theorem Accounts.retry (hs : Accounts mem size p s) (hn : p + n = size)
    (hno : (promRead fw p n s).1 = 0 ∨ n < (promRead fw p n s).1) :
    Accounts mem size p (promRead fw p n s).2 := by
  obtain ⟨hoffers, hreads⟩ := promRead_spec fw p n s
  obtain ⟨hbytes, hbeyond, hoffered⟩ := hoffers.accounts hs hn
  refine ⟨hs.le, ?_, hbeyond, hoffered⟩
  rw [hbytes, hreads, delivered, delivered, List.filter_append, List.filter_singleton]
  have hrefused : PromRead.accepted ⟨p, n, (promRead fw p n s).1,
      (List.range n).map fun i => (promRead fw p n s).2.mem (p + i)⟩ = false := by
    rw [PromRead.accepted, Bool.and_eq_false_iff]
    rcases hno with hzero | hmore
    · exact Or.inl (decide_eq_false (Nat.not_lt.mpr (Nat.le_of_eq hzero)))
    · exact Or.inr (decide_eq_false (Nat.not_le.mpr hmore))
  rw [hrefused]
  simp

/-- A read that is accepted. -/
theorem Accounts.accept (hs : Accounts mem size p s) (hn : p + n = size)
    (hpos : 0 < (promRead fw p n s).1) (hle : (promRead fw p n s).1 ≤ n) :
    Accounts mem size (p + (promRead fw p n s).1) (promRead fw p n s).2 := by
  obtain ⟨hoffers, hreads⟩ := promRead_spec fw p n s
  obtain ⟨hbytes, hbeyond, hoffered⟩ := hoffers.accounts hs hn
  obtain ⟨r, hr⟩ : ∃ r, r = (promRead fw p n s).1 := ⟨_, rfl⟩
  obtain ⟨s', hs'⟩ : ∃ s', s' = (promRead fw p n s).2 := ⟨_, rfl⟩
  rw [← hr, ← hs'] at hreads
  rw [← hr] at hpos hle ⊢
  rw [← hs'] at hbytes hbeyond hoffered ⊢
  refine ⟨by omega, ?_, hbeyond, hoffered⟩
  have haccepted : PromRead.accepted ⟨p, n, r, (List.range n).map fun i => s'.mem (p + i)⟩
      = true := by
    rw [PromRead.accepted, Bool.and_eq_true]
    exact ⟨decide_eq_true hpos, decide_eq_true hle⟩
  have hnew : ((List.range n).map fun i => s'.mem (p + i)).take r
      = (List.range r).map fun i => s'.mem (p + i) := by
    rw [← List.map_take, List.take_range, Nat.min_eq_left hle]
  rw [hreads, delivered, List.filter_append, List.filter_singleton, haccepted, List.flatMap_append]
  rw [cond_true, List.flatMap_singleton, hnew, List.range_add, List.map_append, hbytes,
    List.map_map]
  rfl

/-! ## §3 The loop -/

/-- **The loop** comes to an end, and its accounts are right there. -/
theorem ofReadLoop_spec (hsize : size < 2 ^ 31) (fuel : Nat) : ∀ {i n p : Nat} {s : ReadLog},
    i ≤ 6 → p + n = size → 8 * n + (7 - i) < fuel → Accounts mem size p s →
    ∃ count s', ofReadLoop fw fuel i n p p s = some (count, s') ∧ Accounts mem size count s' := by
  induction fuel with
  | zero =>
    intro i n p s _ _ hfuel _
    exact absurd hfuel (Nat.not_lt_zero _)
  | succ fuel ih =>
    intro i n p s hi hn hfuel hs
    rw [ofReadLoop]
    obtain ⟨r, s', hread⟩ : ∃ r s', promRead fw p n s = (r, s') := ⟨_, _, rfl⟩
    simp only [hread]
    -- a read that counts as a retry
    have hretry : (r = 0 ∨ n < r) → ∃ count out, (if i > 5 then some (p, s')
        else if n > 0 then ofReadLoop fw fuel (i + 1) n p p s' else some (p, s'))
          = some (count, out) ∧ Accounts mem size count out := by
      intro hno
      have hkept : Accounts mem size p s' := by
        have hkept := @Accounts.retry fw s p n size mem hs hn (by rw [hread]; exact hno)
        rwa [hread] at hkept
      by_cases hlast : i > 5
      · rw [if_pos hlast]
        exact ⟨p, s', rfl, hkept⟩
      · rw [if_neg hlast]
        by_cases hmore : n > 0
        · rw [if_pos hmore]
          exact ih (by omega) hn (by omega) hkept
        · rw [if_neg hmore]
          exact ⟨p, s', rfl, hkept⟩
    by_cases hzero : r = 0
    · rw [if_pos hzero]
      exact hretry (Or.inl hzero)
    · rw [if_neg hzero]
      by_cases hgood : r > 0 ∧ r ≤ n
      · rw [if_pos hgood]
        have hnext : Accounts mem size (p + r) s' := by
          have hnext := @Accounts.accept fw s p n size mem hs hn (by rw [hread]; exact hgood.1)
            (by rw [hread]; exact hgood.2)
          rwa [hread] at hnext
        have hcount : u32 (p + r) = p + r := u32_of_lt (by omega)
        rw [hcount]
        by_cases hmore : n - r > 0
        · rw [if_pos hmore]
          exact ih (by omega) (by omega) (by omega) hnext
        · rw [if_neg hmore]
          exact ⟨p + r, s', rfl, hnext⟩
      · rw [if_neg hgood]
        exact hretry (Or.inr (by omega))

/-- A firmware that answers 0 once, then two bytes, then -1 for ever. -/
def stubbornFirmware : Nat → FwRead
  | 0 => ⟨0, fun _ => none⟩
  | 1 => ⟨2, fun i => some (UInt8.ofNat (65 + i))⟩
  | _ => ⟨2 ^ 32 - 1, fun _ => some 0⟩

end LiloBoot.OfNet
