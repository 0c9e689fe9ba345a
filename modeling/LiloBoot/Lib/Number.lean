/-
LiloBoot.Lib.Number — the two `number()` of the `printf` family.

`lib/vsprintf.c` of yaboot and `common/stdio.c` of the zImage hold the same function
twice, but for the type of the number: yaboot's is a `long long` and is divided as
one, the zImage's is an `unsigned long long` that goes through `do_div`. §1 is what
the two share, with the sign and the digits left open; §2 is the two functions.
An index into the digit table can leave the table, so the bytes around it are a
parameter; `-num` of the lowest number is taken to wrap. `int` is unbounded here.
-/
import LiloBoot.Lib.Div64

namespace LiloBoot

/-! ## §1 The shared text -/

def ZEROPAD : Nat := 1
def SIGN : Nat := 2
def PLUS : Nat := 4
def SPACE : Nat := 8
def LEFT : Nat := 16
def SPECIAL : Nat := 32
def LARGE : Nat := 64

/-- `type & flag`. -/
def has (type flag : Nat) : Bool := type &&& flag != 0

/-- `digits[t]`; `around` is what stands before and behind the table. -/
def digitAt (around : Int → Char) (type : Nat) (t : Int) : Char :=
  if 0 ≤ t ∧ t < 36 then
    (if has type LARGE then "0123456789ABCDEFGHIJKLMNOPQRSTUVWXYZ".toList
      else "0123456789abcdefghijklmnopqrstuvwxyz".toList).getD t.toNat '0'
  else around t

/-- What a call writes, and the indices into `digits` that it took the digits from, lowest digit
first. -/
structure Written where
  str : List Char
  indices : List Int
  deriving DecidableEq, Repr

/-- What becomes of a call. -/
inductive NumberResult where
  /-- The base is refused: NULL. -/
  | null
  /-- `tmp` is full. -/
  | overrun
  | written (w : Written)
  deriving DecidableEq, Repr

/-- The digit loop: `step` gives the digit and what is left of the number, `room` is what is left
of `tmp[66]`. -/
def digitLoop {α : Type} [Zero α] [DecidableEq α] (step : α → Int × α) :
    Nat → α → Option (List Int)
  | 0, num => if num = 0 then some [] else none
  | room + 1, num =>
    if num = 0 then some []
    else (digitLoop step room (step num).2).map ((step num).1 :: ·)

/-- `while (size-- > 0) *str++ = c`: what is written and what is left in `size`. -/
def fill (c : Char) (size : Int) : List Char × Int :=
  (List.replicate size.toNat c, min size 0 - 1)

/-- `number` behind the test of the base; `negative` says that the number had a minus sign taken
off, `indices` is what the digit loop finds. -/
def numberWith (around : Int → Char) (negative : Bool) (indices : Option (List Int))
    (base size precision : Int) (type : Nat) : NumberResult :=
  match indices with
  | none => .overrun
  | some indices =>
    let type := if has type LEFT then type - (type &&& ZEROPAD) else type
    let c := if has type ZEROPAD then '0' else ' '
    let sign :=
      if ¬ has type SIGN then none
      else if negative then some '-'
      else if has type PLUS then some '+'
      else if has type SPACE then some ' '
      else none
    let size := if sign.isSome then size - 1 else size
    let size :=
      if has type SPECIAL then (if base = 16 then size - 2 else if base = 8 then size - 1 else size)
      else size
    let tmp := if indices = [] then ['0'] else indices.map (digitAt around type)
    let precision := max precision tmp.length
    let size := size - precision
    let (before, size) := if ¬ has type (ZEROPAD + LEFT) then fill ' ' size else ([], size)
    let marks :=
      if has type SPECIAL then
        (if base = 8 then ['0'] else if base = 16 then ['0', digitAt around type 33] else [])
      else []
    let (between, size) := if ¬ has type LEFT then fill c size else ([], size)
    let zeros := List.replicate (precision - tmp.length).toNat '0'
    .written ⟨before ++ sign.toList ++ marks ++ between ++ zeros ++ tmp.reverse ++ (fill ' ' size).1,
      indices⟩

/-! ## §2 The two functions -/

/-- The sign is taken off a negative number if the flag asks for it. -/
def isNegative (num : BitVec 64) (type : Nat) : Bool := has type SIGN && decide (num.toInt < 0)

/-- The number without that sign; the negation wraps. -/
def unsigned (num : BitVec 64) (type : Nat) : BitVec 64 := if isNegative num type then -num else num

/-- `number` of `lib/vsprintf.c`: `num % (unsigned int)base` and `num / (unsigned int)base` on a
`long long`. -/
def number (around : Int → Char) (num : BitVec 64) (base size precision : Int) (type : Nat) :
    NumberResult :=
  if base < 2 ∨ 36 < base then .null
  else
    numberWith around (isNegative num type)
      (digitLoop (fun n : Int => (n.tmod base, n.tdiv base)) 66 (unsigned num type).toInt)
      base size precision type

/-- `do_div` as a step of the digit loop. -/
def doDivStep (base : Nat) (n : Nat) : Int × Nat :=
  match doDiv n base with
  | some (quotient, rem) => (rem, quotient)
  | none => (0, n)

/-- `number` of `common/stdio.c`: `do_div(num, base)` on an `unsigned long long`. -/
def zNumber (around : Int → Char) (num : BitVec 64) (base size precision : Int) (type : Nat) :
    NumberResult :=
  if base < 2 ∨ 36 < base then .null
  else
    numberWith around (isNegative num type)
      (digitLoop (doDivStep base.toNat) 66 (unsigned num type).toNat) base size precision type

end LiloBoot
