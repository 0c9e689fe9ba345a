/-
LiloBoot.Lib.Rfc1321 — MD5 as RFC 1321 has it.

The registers A, B, C, D are indexed, and an operation `[abcd k s i]` writes the one
that it names first; the operations take the registers in the orders ABCD, DABC,
CDAB, BCDA in turn. The table holds the integer parts of 4294967296 times the
absolute value of sin(i), i in radians from 1 to 64.
-/
import LiloBoot.Lib.BlockStream

namespace LiloBoot.Rfc1321

/-- A 32-bit word. -/
abbrev Word := BitVec 32

/-! ## §1 Words and bytes -/

/-- The word of four bytes, the low-order byte first. -/
def wordOf (b0 b1 b2 b3 : UInt8) : Word :=
  (b3.toBitVec.setWidth 32 <<< 24) ||| (b2.toBitVec.setWidth 32 <<< 16)
    ||| (b1.toBitVec.setWidth 32 <<< 8) ||| b0.toBitVec.setWidth 32

/-- `X[k]` of a block. -/
def wordAt (block : List UInt8) (k : Nat) : Word :=
  wordOf (block.getD (4 * k) 0) (block.getD (4 * k + 1) 0) (block.getD (4 * k + 2) 0)
    (block.getD (4 * k + 3) 0)

/-- The `n` low-order bytes of a number, the lowest first. -/
def lowBytes (n value : Nat) : List UInt8 :=
  (List.range n).map fun i => UInt8.ofNat (value / 256 ^ i)

/-! ## §2 Padding -/

/-- A one bit, zero bits up to 448 modulo 512, and the length in bits as a 64-bit number. -/
def pad (message : List UInt8) : List UInt8 :=
  message ++ (0x80 :: List.replicate ((119 - message.length % 64) % 64) 0)
    ++ lowBytes 8 (8 * message.length)

/-! ## §3 The rounds -/

def F (x y z : Word) : Word := (x &&& y) ||| (~~~x &&& z)
def G (x y z : Word) : Word := (x &&& z) ||| (y &&& ~~~z)
def H (x y z : Word) : Word := x ^^^ y ^^^ z
def I (x y z : Word) : Word := y ^^^ (x ||| ~~~z)

/-- `T[i + 1]`. -/
def T (i : Nat) : Word :=
  [0xd76aa478, 0xe8c7b756, 0x242070db, 0xc1bdceee, 0xf57c0faf, 0x4787c62a, 0xa8304613, 0xfd469501,
    0x698098d8, 0x8b44f7af, 0xffff5bb1, 0x895cd7be, 0x6b901122, 0xfd987193, 0xa679438e, 0x49b40821,
    0xf61e2562, 0xc040b340, 0x265e5a51, 0xe9b6c7aa, 0xd62f105d, 0x02441453, 0xd8a1e681, 0xe7d3fbc8,
    0x21e1cde6, 0xc33707d6, 0xf4d50d87, 0x455a14ed, 0xa9e3e905, 0xfcefa3f8, 0x676f02d9, 0x8d2a4c8a,
    0xfffa3942, 0x8771f681, 0x6d9d6122, 0xfde5380c, 0xa4beea44, 0x4bdecfa9, 0xf6bb4b60, 0xbebfbc70,
    0x289b7ec6, 0xeaa127fa, 0xd4ef3085, 0x04881d05, 0xd9d4d039, 0xe6db99e5, 0x1fa27cf8, 0xc4ac5665,
    0xf4292244, 0x432aff97, 0xab9423a7, 0xfc93a039, 0x655b59c3, 0x8f0ccc92, 0xffeff47d, 0x85845dd1,
    0x6fa87e4f, 0xfe2ce6e0, 0xa3014314, 0x4e0811a1, 0xf7537e82, 0xbd3af235, 0x2ad7d2bb,
    0xeb86d391].getD i 0

/-- A round: its function, the words that it takes in turn, and its four shifts. -/
structure Round where
  f : Word → Word → Word → Word
  k : List Nat
  s : List Nat

def round1 : Round := ⟨F, [0, 1, 2, 3, 4, 5, 6, 7, 8, 9, 10, 11, 12, 13, 14, 15], [7, 12, 17, 22]⟩
def round2 : Round := ⟨G, [1, 6, 11, 0, 5, 10, 15, 4, 9, 14, 3, 8, 13, 2, 7, 12], [5, 9, 14, 20]⟩
def round3 : Round := ⟨H, [5, 8, 11, 14, 1, 4, 7, 10, 13, 0, 3, 6, 9, 12, 15, 2], [4, 11, 16, 23]⟩
def round4 : Round := ⟨I, [0, 7, 14, 5, 12, 3, 10, 1, 8, 15, 6, 13, 4, 11, 2, 9], [6, 10, 15, 21]⟩

/-- The registers A, B, C, D. -/
abbrev Registers := Vector Word 4

/-- The register that operation `n` names first: A, D, C, B in turn. -/
def first (n : Nat) : Fin 4 := Fin.ofNat 4 (4 - n % 4)

/-- Operation `n` of a round whose table entries start at `t`:
a = b + ((a + f(b, c, d) + X[k] + T[i]) <<< s). -/
def operation (r : Round) (t : Nat) (block : List UInt8) (regs : Registers) (n : Nat) :
    Registers :=
  let a := first n
  let sum := regs[a] + r.f regs[a + 1] regs[a + 2] regs[a + 3] + wordAt block (r.k.getD n 0)
    + T (n + t)
  regs.set a (regs[a + 1] + sum.rotateLeft (r.s.getD (n % 4) 0))

/-- The registers in the order in which operation `n` names them. -/
def named (n : Nat) (regs : Registers) : Word × Word × Word × Word :=
  (regs[first n], regs[first n + 1], regs[first n + 2], regs[first n + 3])

/-- The sixteen operations of a round. -/
def Round.run (r : Round) (t : Nat) (block : List UInt8) (regs : Registers) : Registers :=
  (List.range 16).foldl (operation r t block) regs

/-- A block: the rounds, and the sum with the registers before. -/
def compress (regs : Registers) (block : List UInt8) : Registers :=
  let r := round4.run 48 block (round3.run 32 block (round2.run 16 block (round1.run 0 block regs)))
  Vector.ofFn fun i : Fin 4 => regs[i] + r[i]

def initial : Registers := #v[0x67452301, 0xefcdab89, 0x98badcfe, 0x10325476]

/-- The digest: the registers behind the last block, low-order bytes first, A first. -/
def digest (message : List UInt8) : List UInt8 :=
  let regs := (BlockStream.absorb 64 compress initial (pad message)).1
  regs.toList.flatMap fun r => lowBytes 4 r.toNat

end LiloBoot.Rfc1321
