/-
LiloBoot.Lib.Md5Password — `md5_password` of `second/md5.c`.

A string is the list of its bytes in front of the NUL. In check mode the stored
string is only read, and a read in front of it or behind its NUL is `none`; a length
that came out negative counts as a `size_t`, as `memcpy` takes it. In crypt mode the
array that holds the salt is written to, and the result is the array.
-/
import LiloBoot.Lib.Md5

namespace LiloBoot.Md5

/-! ## §1 The stored string -/

/-- `'$'`. -/
def dollar : UInt8 := 36

/-- `s[i]`. -/
def byteAt (s : List UInt8) (i : Nat) : Option UInt8 := (s ++ [0])[i]?

/-- `n` bytes from `s + pos` on. -/
def bytesAt (s : List UInt8) (pos : Nat) (n : Int) : Option (List UInt8) :=
  let n := (n % 2 ^ 32).toNat
  if pos + n ≤ s.length + 1 then some (((s ++ [0]).drop pos).take n) else none

/-- `strstr(salt, "$") - salt`; `none` for NULL. -/
def dollarAt (salt : List UInt8) : Option Nat := salt.findIdx? (· == dollar)

/-! ## §2 The computation -/

/-- `for (i = keylen; i > 16; i -= 16)` and the call behind it. -/
def altInputs (altResult : List UInt8) (i : Nat) : List (List UInt8) :=
  if 16 < i then altResult :: altInputs altResult (i - 16) else [altResult.take i]
termination_by i

/-- `for (i = keylen; i > 0; i >>= 1)`: the NUL of the key or its first byte. -/
def bitInputs (key : List UInt8) (i : Nat) : List (List UInt8) :=
  if 0 < i then
    [if i &&& 1 ≠ 0 then 0 else key.getD 0 0] :: bitInputs key (i >>> 1)
  else []
termination_by i
decreasing_by
  rw [Nat.shiftRight_eq_div_pow]
  omega

/-- Pass `i` of the thousand. -/
def roundInputs (key salt altResult : List UInt8) (i : Nat) : List (List UInt8) :=
  [if i &&& 1 ≠ 0 then key else altResult] ++ (if i % 3 ≠ 0 then [salt] else [])
    ++ (if i % 7 ≠ 0 then [key] else []) ++ [if i &&& 1 ≠ 0 then altResult else key]

/-- The static variables and the digest behind the thousand passes; `header` is the `$1$` and the
salt as they stand in `crypted`. -/
def cryptDigest (m : Statics) (key salt header : List UInt8) : Statics × List UInt8 :=
  let alt := md5Run m [key, salt, key]
  let digest := md5Run alt.1
    ([key, header] ++ altInputs alt.2 key.length ++ bitInputs key key.length)
  (List.range 1000).foldl (fun st i => md5Run st.1 (roundInputs key salt st.2 i)) digest

def b64t : List UInt8 :=
  "./0123456789ABCDEFGHIJKLMNOPQRSTUVWXYZabcdefghijklmnopqrstuvwxyz".toList.map fun c =>
    UInt8.ofNat c.toNat

/-- `n` digits of `w`. -/
def encodeWord (w n : Nat) : List UInt8 :=
  (List.range n).map fun k => b64t.getD ((w >>> (6 * k)) &&& 0x3f) 0

/-- The digits that are compared or stored, in turn. -/
def encode (digest : List UInt8) : List UInt8 :=
  let byte (i : Nat) : Nat := (digest.getD i 0).toNat
  ((List.range 5).flatMap fun i =>
    encodeWord (byte (if i = 4 then 5 else 12 + i) ||| (byte (6 + i) <<< 8) ||| (byte i <<< 16)) 4)
    ++ encodeWord (byte 11) 2

/-! ## §3 The two modes -/

/-- The comparison: 1 at the first difference, else the byte behind the digits. -/
def checkLoop (stored : List UInt8) : Nat → List UInt8 → Option Nat
  | p, [] => (byteAt stored p).map (·.toNat)
  | p, c :: digits =>
    match byteAt stored p with
    | none => none
    | some b => if b ≠ c then some 1 else checkLoop stored (p + 1) digits

/-- `md5_password(key, crypted, 1)` of a string at `addr`. -/
def md5PasswordCheck (m : Statics) (key crypted : List UInt8) (addr : Nat) : Option Nat :=
  let saltlen : Int :=
    match dollarAt (crypted.drop 3) with
    | some k => k
    | none => s32 (sub32 0 (addr + 3))
  match bytesAt crypted 3 saltlen, bytesAt crypted 0 (3 + saltlen) with
  | some salt, some header =>
    checkLoop crypted (3 + saltlen.toNat + 1) (encode (cryptDigest m key salt header).2)
  | _, _ => none

/-- `md5_password(key, crypted, 0)`: the array afterwards, `behind` what it held behind the NUL. -/
def md5PasswordCrypt (m : Statics) (key crypted behind : List UInt8) : List UInt8 :=
  let saltlen :=
    match dollarAt (crypted.drop 3) with
    | some k => if k < 8 then k else 8
    | none => 8
  let array := (crypted ++ 0 :: behind).set (3 + saltlen) dollar
  let digest := (cryptDigest m key ((array.drop 3).take saltlen) (array.take (3 + saltlen))).2
  array.take (3 + saltlen + 1) ++ encode digest ++ [0] ++ array.drop (3 + saltlen + 1 + 22 + 1)

/-! ## §4 Agreement -/

/-- `$1$`. -/
def magic : List UInt8 := [36, 49, 36]

/-- The string in an array. -/
def cString (array : List UInt8) : List UInt8 := array.takeWhile (· != 0)

/-- The salt that a stored string contains: up to a `$`, at most 8 characters. -/
def containedSalt (rest : List UInt8) : List UInt8 := (rest.takeWhile (· != dollar)).take 8

/-- Two calls: the static variables before each, the key, and what the array of the second holds
behind its string. -/
structure PasswordCalls where
  checkStatics : Statics
  cryptStatics : Statics
  key : List UInt8
  behind : List UInt8
  checkBuffer : checkStatics.buffer.length = 64
  cryptBuffer : cryptStatics.buffer.length = 64

/-- The check of `$1$` and `rest` reads nothing outside the string, and accepts it exactly if
crypt mode makes it from the salt that it contains. -/
def PasswordCalls.Right (c : PasswordCalls) (rest : List UInt8) (addr : Nat) : Prop :=
  ∃ r, md5PasswordCheck c.checkStatics c.key (magic ++ rest) addr = some r
    ∧ (r = 0 ↔ magic ++ rest = cString (md5PasswordCrypt c.cryptStatics c.key
      (magic ++ (containedSalt rest ++ [dollar])) c.behind))

end LiloBoot.Md5
