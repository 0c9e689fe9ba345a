/-
LiloBoot.ZImage.AddSystemMap — the tool that puts a System.map behind a kernel.

`main` of `lilo/bootheader/utils/iseries-addSystemMap.c` looks up `_end` in the
last line of the System.map, writes the kernel and the System.map in pages of
4096 bytes, and stores where the System.map begins and ends in the kernel's
first page. The host is the 64-bit PowerPC of `AddRamDisk`. The buffer for the
lines is on the stack, behind ten bytes that the look-up may reach.
-/
import LiloBoot.ZImage.AddRamDisk

namespace LiloBoot.ZImage

/-! ## §1 The System.map -/

/-- `" _end"`. -/
def endSymbol : List UInt8 := [0x20, 0x5f, 0x65, 0x6e, 0x64]

/-- The last line of a text, without its newline. -/
def lastLine (text : List UInt8) : List UInt8 :=
  let body := if text.getLast? = some 0x0a then text.dropLast else text
  (body.reverse.takeWhile (· ≠ 0x0a)).reverse

/-- A System.map whose last line has `_end`. -/
abbrev SystemMap :=
  { bytes : List UInt8 // bytes.length < 2 ^ 63 ∧ endSymbol <:+: lastLine bytes }

/-- What lies on the stack in front of `inbuf`. -/
abbrev StackInFront := { bytes : List UInt8 // bytes.length = 10 }

/-! ## §2 The library -/

/-- `fgets` of at most `n` bytes: a line, and the file behind it. -/
def fgets : Nat → List UInt8 → List UInt8 × List UInt8
  | 0, file => ([], file)
  | _ + 1, [] => ([], [])
  | n + 1, c :: file =>
    if c = 0x0a then ([c], file) else (c :: (fgets n file).1, (fgets n file).2)

theorem fgets_rest_length (n : Nat) (file : List UInt8) :
    (fgets n file).2.length ≤ file.length ∧
      (0 < n → file ≠ [] → (fgets n file).2.length < file.length) := by
  induction n, file using fgets.induct with
  | case1 file => exact ⟨le_refl _, fun h => absurd h (lt_irrefl 0)⟩
  | case2 n => exact ⟨le_refl _, fun _ h => absurd rfl h⟩
  | case3 n file =>
    rw [fgets, if_pos rfl, List.length_cons]
    exact ⟨Nat.le_succ _, fun _ _ => Nat.lt_succ_self _⟩
  | case4 n c file hc ih =>
    rw [fgets, if_neg hc, List.length_cons]
    exact ⟨Nat.le_succ_of_le ih.1, fun _ _ => Nat.lt_succ_of_le ih.1⟩

/-- `while (fgets(inbuf, 4096, sysmap));`: what the buffer holds in the end. -/
def lastRead (inbuf file : List UInt8) : List UInt8 :=
  if h : file = [] then inbuf
  else
    have := (fgets_rest_length 4095 file).2 (by decide) h
    lastRead (fgets 4095 file).1 (fgets 4095 file).2
termination_by file.length

/-- `strstr`, for the place. -/
def strstr (s sub : List UInt8) : Option Nat :=
  (List.range (s.length + 1)).find? fun i => MarkerAt sub s i

def isSpace (c : UInt8) : Bool := c == 0x20 || (0x09 ≤ c && c ≤ 0x0d)

def hexDigit (c : UInt8) : Option Nat :=
  if 0x30 ≤ c ∧ c ≤ 0x39 then some (c.toNat - 0x30)
  else if 0x41 ≤ c ∧ c ≤ 0x46 then some (c.toNat - 0x41 + 10)
  else if 0x61 ≤ c ∧ c ≤ 0x66 then some (c.toNat - 0x61 + 10)
  else none

/-- The number that the digits in front give, behind `n`. -/
def hexNumber (n : Nat) : List UInt8 → Nat
  | [] => n
  | c :: s =>
    match hexDigit c with
    | some d => hexNumber (n * 16 + d) s
    | none => n

/-- `strtol(s, NULL, 16)` of a 64-bit host. -/
def strtolHex (s : List UInt8) : Int :=
  let s := s.dropWhile isSpace
  let negative := s.head? = some 0x2d
  let s := if s.head? = some 0x2d ∨ s.head? = some 0x2b then s.tail else s
  let s := if s.head? = some 0x30 ∧ (s[1]? = some 0x78 ∨ s[1]? = some 0x58) then s.drop 2 else s
  let n := hexNumber 0 s
  if negative then max (-2 ^ 63) (-n) else min (2 ^ 63 - 1) n

/-! ## §3 The tool -/

/-- The address of `_end`, `(unsigned int)strtol(ptr_end - 10, NULL, 16)`;
    `none` where the buffer does not have the symbol. -/
def sysmapEnd (front : StackInFront) (sysmap : List UInt8) : Option Nat :=
  let inbuf := (lastRead [] sysmap).takeWhile (· ≠ 0)
  (strstr inbuf endSymbol).map fun pos =>
    (strtolHex ((front.val ++ inbuf).drop pos) % 2 ^ 32).toNat

/-- `padPages` and `sysmapStartOffs`, by the sign of the difference. -/
def padAndStart (kernelLen address : Nat) : Nat × Nat :=
  let rounded := roundedKernelLen kernelLen
  let pad := sub64 (address / 4096) (rounded / 4096)
  if 2 ^ 63 ≤ pad then (0, rounded) else (pad, address)

/-- `sysmapPages`: there is always something to round up. -/
def sysmapPages (sysmapFileLen : Nat) : Nat :=
  u64 (sysmapFileLen + (4096 - sysmapFileLen % 4096)) / 4096

/-- An `unsigned long` in the host's byte order. -/
def be64 (v : Nat) : List UInt8 := be32 (v / 2 ^ 32) ++ be32 v

/-- `*p = sysmapStartOffs` at 0x3c and `*p = sysmapStartOffs + sysmapFileLen` at
    0x44 of a page. -/
def storeOffsets (start end' : Nat) (page : List UInt8) : List UInt8 :=
  patch (patch page 0x3c (be64 start)) 0x44 (be64 end')

/-- The loop over the kernel's pages. -/
def copyKernel (start end' : Nat) (kernel : List UInt8) : Nat → List UInt8
  | 0 => []
  | n + 1 =>
    storeOffsets start end' (get4k kernel elfHeaderSize) ++
      copyPages kernel n (elfHeaderSize + 4096)

/-- What is written. -/
def embed (kernel sysmap : List UInt8) (start end' padPages : Nat) : List UInt8 :=
  copyPages kernel elfPages 0 ++
    copyKernel start end' kernel (roundedKernelLen kernel.length / 4096) ++
    zeroPages padPages ++ copyPages sysmap (sysmapPages sysmap.length) 0

/-- The file written, and the offsets if there was a page to store them in. -/
structure Embedded where
  out : List UInt8
  stored : Option (Nat × Nat)

/-- `main`; `none` where it gives up. -/
def addSystemMap (front : StackInFront) (kernel : HostFile) (sysmap : SystemMap) :
    Option Embedded :=
  if kernel.val.length = 0 then none
  else
    (sysmapEnd front sysmap.val).map fun address =>
      let start := (padAndStart kernel.val.length address).2
      let end' := u64 (start + sysmap.val.length)
      { out := embed kernel.val sysmap.val start end' (padAndStart kernel.val.length address).1,
        stored := if 0 < roundedKernelLen kernel.val.length / 4096 then some (start, end') else none }

end LiloBoot.ZImage
