/-
LiloBoot.Basic — the C types and library routines every module shares.

A C string is the list of its characters up to the terminating NUL, each
character a byte value below 256. The unsigned C types are naturals; an
operation that can leave its type is followed by the wrap of that type
(`u16`, `u32`, `u64`), so the places where the source truncates are the
places where one of these stands. `sub32` and `sub64` are the unsigned
subtractions, which borrow instead of going negative.
-/
import Mathlib

namespace LiloBoot

/-! ## Unsigned arithmetic -/

/-- Conversion to `u16`. -/
def u16 (n : Nat) : Nat := n % 2 ^ 16

/-- Conversion to `u32` (also `unsigned int` and `unsigned long`: 32-bit PowerPC). -/
def u32 (n : Nat) : Nat := n % 2 ^ 32

/-- Conversion to `u64`. -/
def u64 (n : Nat) : Nat := n % 2 ^ 64

/-- Unsigned 32-bit subtraction of operands below `2 ^ 32`. -/
def sub32 (a b : Nat) : Nat := u32 (a + (2 ^ 32 - b))

/-- Unsigned 64-bit subtraction of operands below `2 ^ 64`. -/
def sub64 (a b : Nat) : Nat := u64 (a + (2 ^ 64 - b))

/-- Conversion of an unsigned value to a signed 32-bit `int`. -/
def s32 (n : Nat) : Int :=
  if n % 2 ^ 32 < 2 ^ 31 then (n % 2 ^ 32 : Nat) else ((n % 2 ^ 32 : Nat) : Int) - 2 ^ 32

theorem u32_of_lt {n : Nat} (h : n < 2 ^ 32) : u32 n = n := Nat.mod_eq_of_lt h

theorem u64_of_lt {n : Nat} (h : n < 2 ^ 64) : u64 n = n := Nat.mod_eq_of_lt h

theorem u32_lt (n : Nat) : u32 n < 2 ^ 32 := Nat.mod_lt _ (by decide)

theorem u64_lt (n : Nat) : u64 n < 2 ^ 64 := Nat.mod_lt _ (by decide)

/-- Without a borrow the unsigned subtraction is the subtraction. -/
theorem sub32_of_le {a b : Nat} (hab : b ≤ a) (ha : a < 2 ^ 32) : sub32 a b = a - b := by
  simp only [sub32, u32]
  omega

theorem sub64_of_le {a b : Nat} (hab : b ≤ a) (ha : a < 2 ^ 64) : sub64 a b = a - b := by
  simp only [sub64, u64]
  omega

theorem sub32_lt (a b : Nat) : sub32 a b < 2 ^ 32 := u32_lt _

theorem s32_of_lt {n : Nat} (h : n < 2 ^ 31) : s32 n = n := by
  have h' : n % 2 ^ 32 = n := Nat.mod_eq_of_lt (by omega)
  rw [s32, h', if_pos h]

/-- `|` of parts that do not overlap is `+`. -/
theorem shiftLeft_or_eq_add {a b i : Nat} (h : b < 2 ^ i) : a <<< i ||| b = a * 2 ^ i + b := by
  rw [Nat.shiftLeft_eq, Nat.mul_comm, Nat.two_pow_add_eq_or_of_lt h]

/-! ## Bytes -/

/-- The bytes of a memory area or of the device. -/
abbrev Bytes := Nat → UInt8

/-- The destination of a read: the bytes stored so far. -/
abbrev Buffer := Nat → Option UInt8

/-- The buffer after `n` bytes `f 0`, `f 1`, … have been stored from `stored` on. -/
def Buffer.store (buf : Buffer) (stored n : Nat) (f : Nat → UInt8) : Buffer :=
  fun i => if stored ≤ i ∧ i < stored + n then some (f (i - stored)) else buf i

/-- The buffer that holds the first `n` bytes of `f` and nothing behind them. -/
def Buffer.filled (n : Nat) (f : Nat → UInt8) : Buffer :=
  fun i => if i < n then some (f i) else none

theorem Buffer.filled_zero (f : Nat → UInt8) : Buffer.filled 0 f = fun _ => none := by
  funext i
  simp [Buffer.filled]

theorem Buffer.store_zero (buf : Buffer) (stored : Nat) (f : Nat → UInt8) :
    buf.store stored 0 f = buf := by
  funext i
  simp only [Buffer.store]
  rw [if_neg (by omega)]

/-- Storing the next bytes of `f` extends what is filled. -/
theorem Buffer.store_filled {n m : Nat} {f g : Nat → UInt8} (h : ∀ i < m, g i = f (n + i)) :
    (Buffer.filled n f).store n m g = Buffer.filled (n + m) f := by
  funext i
  simp only [Buffer.store, Buffer.filled]
  by_cases hi : n ≤ i ∧ i < n + m
  · rw [if_pos hi, if_pos hi.2, h (i - n) (by omega), Nat.add_sub_cancel' hi.1]
  · rw [if_neg hi]
    by_cases hn : i < n
    · rw [if_pos hn, if_pos (by omega)]
    · rw [if_neg hn, if_neg (by omega)]

theorem Buffer.store_before {buf : Buffer} {stored n i : Nat} {f : Nat → UInt8}
    (h : i < stored) : buf.store stored n f i = buf i := by
  simp only [Buffer.store]
  rw [if_neg (by omega)]

theorem Buffer.store_first {buf : Buffer} {stored n : Nat} {f : Nat → UInt8}
    (h : 0 < n) : buf.store stored n f stored = some (f 0) := by
  simp only [Buffer.store]
  rw [if_pos (by omega), Nat.sub_self]

/-! ## C strings -/

/-- The characters of a C string before its NUL. -/
abbrev CStr := List Char

/-- ASCII lower case, as the loop of `strcasecmp` folds it. -/
def tolower (c : Char) : Char :=
  if 'A' ≤ c ∧ c ≤ 'Z' then Char.ofNat (c.toNat + 32) else c

/-- `strcasecmp(s, t) == 0`; its callers test nothing else. -/
def strcasecmpEq (s t : CStr) : Bool := s.map tolower == t.map tolower

theorem strcasecmpEq_iff {s t : CStr} :
    strcasecmpEq s t = true ↔ s.map tolower = t.map tolower := by
  simp [strcasecmpEq]

/-- `strrchr(s, c)`: the string from the last `c` on, `none` for NULL. -/
def strrchr (s : CStr) (c : Char) : Option CStr :=
  match s with
  | [] => none
  | d :: rest =>
    match strrchr rest c with
    | some tail => some tail
    | none => if d = c then some (d :: rest) else none

end LiloBoot
