/-
LiloBoot.Lib.Md5 — `second/md5.c` but for the passwords.

The static variables are a record. The machine is big-endian: `loadWord` and
`storeWord` are accesses through a `UINT4 *`, and `le32_to_cpu` swaps the bytes of
what they see. `inputlen` is the length of the list that stands for the input.
-/
import LiloBoot.Basic

namespace LiloBoot.Md5

/-! ## §1 Words -/

/-- `UINT4`. -/
abbrev UINT4 := BitVec 32

/-- `le32_to_cpu`, and `cpu_to_le32`. -/
def le32ToCpu (x : UINT4) : UINT4 :=
  ((x &&& 0x000000ff#32) <<< 24) ||| ((x &&& 0x0000ff00#32) <<< 8)
    ||| ((x &&& 0x00ff0000#32) >>> 8) ||| ((x &&& 0xff000000#32) >>> 24)

/-- `((UINT4 *) block)[i]`. -/
def loadWord (block : List UInt8) (i : Nat) : UINT4 :=
  ((block.getD (4 * i) 0).toBitVec.setWidth 32 <<< 24)
    ||| ((block.getD (4 * i + 1) 0).toBitVec.setWidth 32 <<< 16)
    ||| ((block.getD (4 * i + 2) 0).toBitVec.setWidth 32 <<< 8)
    ||| (block.getD (4 * i + 3) 0).toBitVec.setWidth 32

/-- The bytes that a store of a word leaves. -/
def wordBytes (x : UINT4) : List UInt8 :=
  [24, 16, 8, 0].map fun shift => UInt8.ofNat (x >>> shift).toNat

def F (x y z : UINT4) : UINT4 := (x &&& y) ||| (~~~x &&& z)
def G (x y z : UINT4) : UINT4 := (x &&& z) ||| (y &&& ~~~z)
def H (x y z : UINT4) : UINT4 := x ^^^ y ^^^ z
def I (x y z : UINT4) : UINT4 := y ^^^ (x ||| ~~~z)

/-- `ROTATE_LEFT(x, n)`. -/
def rotateLeft (x : UINT4) (n : Nat) : UINT4 := (x <<< n) ||| (x >>> (32 - n))

def s1 : List Nat := [7, 12, 17, 22]
def s2 : List Nat := [5, 9, 14, 20]
def s3 : List Nat := [4, 11, 16, 23]
def s4 : List Nat := [6, 10, 15, 21]

def T : List UINT4 :=
  [0xd76aa478, 0xe8c7b756, 0x242070db, 0xc1bdceee,
    0xf57c0faf, 0x4787c62a, 0xa8304613, 0xfd469501,
    0x698098d8, 0x8b44f7af, 0xffff5bb1, 0x895cd7be,
    0x6b901122, 0xfd987193, 0xa679438e, 0x49b40821,
    0xf61e2562, 0xc040b340, 0x265e5a51, 0xe9b6c7aa,
    0xd62f105d, 0x02441453, 0xd8a1e681, 0xe7d3fbc8,
    0x21e1cde6, 0xc33707d6, 0xf4d50d87, 0x455a14ed,
    0xa9e3e905, 0xfcefa3f8, 0x676f02d9, 0x8d2a4c8a,
    0xfffa3942, 0x8771f681, 0x6d9d6122, 0xfde5380c,
    0xa4beea44, 0x4bdecfa9, 0xf6bb4b60, 0xbebfbc70,
    0x289b7ec6, 0xeaa127fa, 0xd4ef3085, 0x04881d05,
    0xd9d4d039, 0xe6db99e5, 0x1fa27cf8, 0xc4ac5665,
    0xf4292244, 0x432aff97, 0xab9423a7, 0xfc93a039,
    0x655b59c3, 0x8f0ccc92, 0xffeff47d, 0x85845dd1,
    0x6fa87e4f, 0xfe2ce6e0, 0xa3014314, 0x4e0811a1,
    0xf7537e82, 0xbd3af235, 0x2ad7d2bb, 0xeb86d391]

/-! ## §2 `md5_transform` -/

/-- `state[4]`, and the variables `a`, `b`, `c`, `d`. -/
structure State where
  a : UINT4
  b : UINT4
  c : UINT4
  d : UINT4
  deriving DecidableEq, Repr

def initstate : State := ⟨0x67452301, 0xefcdab89, 0x98badcfe, 0x10325476⟩

/-- A pass of the loop of a round: `f` and `s` are the round's, `x` the word and `t` the entry of
the table that are added. -/
def roundStep (f : UINT4 → UINT4 → UINT4 → UINT4) (s : Nat) (x t : UINT4) (q : State) : State :=
  let tmp := q.a + f q.b q.c q.d + le32ToCpu x + t
  let tmp := rotateLeft tmp s
  let tmp := tmp + q.b
  ⟨q.d, tmp, q.b, q.c⟩

/-- A round: `j` starts at `j0` and goes on by `jstep`. -/
def round (f : UINT4 → UINT4 → UINT4 → UINT4) (s : List Nat) (j0 jstep offset : Nat)
    (block : List UInt8) (q : State) : State :=
  (List.range 16).foldl (fun q i => roundStep f (s.getD (i &&& 3) 0)
    (loadWord block ((j0 + jstep * i) &&& 15)) (T.getD (i + offset) 0) q) q

/-- `md5_transform(block)` on `state`. -/
def md5Transform (state : State) (block : List UInt8) : State :=
  let q := round F s1 0 1 0 block state
  let q := round G s2 1 5 16 block q
  let q := round H s3 5 3 32 block q
  let q := round I s4 0 7 48 block q
  ⟨state.a + q.a, state.b + q.b, state.c + q.c, state.d + q.d⟩

/-! ## §3 The functions -/

/-- The static variables. -/
structure Statics where
  state : State
  length : Nat
  buffer : List UInt8
  deriving DecidableEq, Repr

/-- `memcpy(buffer + at, bytes, …)`. -/
def memcpy (buffer : List UInt8) (pos : Nat) (bytes : List UInt8) : List UInt8 :=
  buffer.take pos ++ bytes ++ buffer.drop (pos + bytes.length)

def md5Init (m : Statics) : Statics := { m with state := initstate, length := 0 }

/-- `while (inputlen >= 64)`: the state and the input that is left. -/
def updateLoop (state : State) (input : List UInt8) : State × List UInt8 :=
  if 64 ≤ input.length then updateLoop (md5Transform state (input.take 64)) (input.drop 64)
  else (state, input)
termination_by input.length
decreasing_by
  rw [List.length_drop]
  omega

def md5Update (m : Statics) (input : List UInt8) : Statics :=
  let buflen := m.length &&& 63
  let length := u32 (m.length + input.length)
  if buflen + input.length < 64 then
    { m with length := length, buffer := memcpy m.buffer buflen input }
  else
    let buffer := memcpy m.buffer buflen (input.take (64 - buflen))
    let state := md5Transform m.state buffer
    let (state, input) := updateLoop state (input.drop (64 - buflen))
    ⟨state, length, memcpy buffer 0 input⟩

/-- `md5_final`: the static variables and the 16 bytes that it returns a pointer to. -/
def md5Final (m : Statics) : Statics × List UInt8 :=
  let buflen := m.length &&& 63
  let buffer := memcpy m.buffer buflen [0x80]
  let buflen := buflen + 1
  let buffer := memcpy buffer buflen (List.replicate (64 - buflen) 0)
  let (state, buffer) :=
    if 56 < buflen then (md5Transform m.state buffer, memcpy buffer 0 (List.replicate 64 0))
    else (m.state, buffer)
  let buffer := memcpy buffer 56 (wordBytes (le32ToCpu (BitVec.ofNat 32 (8 * m.length))))
  let buffer := memcpy buffer 60 (wordBytes 0)
  let state := md5Transform state buffer
  let state : State :=
    ⟨le32ToCpu state.a, le32ToCpu state.b, le32ToCpu state.c, le32ToCpu state.d⟩
  (⟨state, m.length, buffer⟩,
    wordBytes state.a ++ wordBytes state.b ++ wordBytes state.c ++ wordBytes state.d)

/-- `md5_init`, `md5_update` on each string in turn, `md5_final`. -/
def md5Run (m : Statics) (inputs : List (List UInt8)) : Statics × List UInt8 :=
  md5Final (inputs.foldl md5Update (md5Init m))

/-- `md5sum(input, len)`. -/
def md5sum (m : Statics) (input : List UInt8) : Statics × List UInt8 := md5Run m [input]

end LiloBoot.Md5
