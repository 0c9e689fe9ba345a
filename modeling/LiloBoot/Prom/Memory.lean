/-
LiloBoot.Prom.Memory — claiming memory from the firmware (`second/prom.c`).

The firmware's `claim` service answers for one address; yaboot tries one
address after the other until it gets an answer. What is claimed at a moment
is a list of regions; `release` takes one off it.
-/
import LiloBoot.Basic

namespace LiloBoot

/-! ## Claiming -/

def promClaimMaxAddr : Nat := 0x10000000

/-- `0x100000/sizeof(addr)`. -/
def promClaimStep : Nat := 0x40000

/-- The loop of `prom_claim_chunk` over the `n` addresses left, `addr` the next one.
`claim` is the firmware's `claim` service; `none` is its -1. -/
def promClaimLoop (claim : Nat → Nat → Option Nat) (size : Nat) : Nat → Nat → Option Nat
  | 0, _ => none
  | n + 1, addr =>
    match claim addr size with
    | some found => some found
    | none => promClaimLoop claim size n (addr + promClaimStep)

/-- `prom_claim_chunk(virt, size, 0)`. -/
def promClaimChunk (claim : Nat → Nat → Option Nat) (virt size : Nat) : Option Nat :=
  if virt ≤ promClaimMaxAddr then
    promClaimLoop claim size ((promClaimMaxAddr - virt) / promClaimStep + 1) virt
  else none

/-- The loop of `prom_claim_chunk_top`, downwards. -/
def promClaimTopLoop (claim : Nat → Nat → Option Nat) (size : Nat) : Nat → Nat → Option Nat
  | 0, _ => none
  | n + 1, addr =>
    match claim addr size with
    | some found => some found
    | none => promClaimTopLoop claim size n (addr - promClaimStep)

/-- `prom_claim_chunk_top(size, 0)`. -/
def promClaimChunkTop (claim : Nat → Nat → Option Nat) (size : Nat) : Option Nat :=
  if size ≤ promClaimMaxAddr then
    promClaimTopLoop claim size ((promClaimMaxAddr - size) / promClaimStep + 1) promClaimMaxAddr
  else none

/-- Whatever address a chunk was found at, the firmware gave it in one answer. -/
theorem promClaimLoop_answer {claim : Nat → Nat → Option Nat} {size found : Nat} (n : Nat) :
    ∀ addr, promClaimLoop claim size n addr = some found → ∃ a, claim a size = some found := by
  induction n with
  | zero =>
    intro addr h
    cases h
  | succ n ih =>
    intro addr h
    rw [promClaimLoop] at h
    cases hc : claim addr size with
    | none =>
      rw [hc] at h
      exact ih _ h
    | some a =>
      rw [hc] at h
      exact ⟨addr, hc.trans h⟩

theorem promClaimTopLoop_answer {claim : Nat → Nat → Option Nat} {size found : Nat} (n : Nat) :
    ∀ addr, promClaimTopLoop claim size n addr = some found →
      ∃ a, claim a size = some found := by
  induction n with
  | zero =>
    intro addr h
    cases h
  | succ n ih =>
    intro addr h
    rw [promClaimTopLoop] at h
    cases hc : claim addr size with
    | none =>
      rw [hc] at h
      exact ih _ h
    | some a =>
      rw [hc] at h
      exact ⟨addr, hc.trans h⟩

theorem promClaimChunk_answer {claim : Nat → Nat → Option Nat} {virt size found : Nat}
    (h : promClaimChunk claim virt size = some found) : ∃ a, claim a size = some found := by
  rw [promClaimChunk] at h
  split at h
  · exact promClaimLoop_answer _ _ h
  · cases h

theorem promClaimChunkTop_answer {claim : Nat → Nat → Option Nat} {size found : Nat}
    (h : promClaimChunkTop claim size = some found) : ∃ a, claim a size = some found := by
  rw [promClaimChunkTop] at h
  split at h
  · exact promClaimTopLoop_answer _ _ h
  · cases h

/-! ## What is claimed -/

/-- A region of memory. -/
structure Region where
  base : Nat
  size : Nat
  deriving DecidableEq, Repr

/-- `prom_release`. -/
def promRelease (r : Region) (claimed : List Region) : List Region := claimed.erase r

/-- Of two regions that share no byte, and are not empty, neither is the other. -/
def Region.Apart (r t : Region) : Prop := r.base + r.size ≤ t.base ∨ t.base + t.size ≤ r.base

/-- The firmware gives memory that nobody has. -/
def FreshClaims (claim : Nat → Nat → Option Nat) (claimed : List Region) : Prop :=
  ∀ addr size found, claim addr size = some found → ∀ r ∈ claimed, Region.Apart ⟨found, size⟩ r

theorem FreshClaims.notMem {claim : Nat → Nat → Option Nat} {claimed : List Region}
    (h : FreshClaims claim claimed) {addr size found : Nat} (hsize : 0 < size)
    (hc : claim addr size = some found) : (⟨found, size⟩ : Region) ∉ claimed := by
  intro hmem
  have hap := h addr size found hc _ hmem
  simp only [Region.Apart] at hap
  omega

/-- Releasing what has just been claimed leaves what there was. -/
theorem promRelease_cons (r : Region) (claimed : List Region) :
    promRelease r (r :: claimed) = claimed := List.erase_cons_head r claimed

end LiloBoot
