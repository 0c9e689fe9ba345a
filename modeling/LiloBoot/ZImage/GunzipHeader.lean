/-
LiloBoot.ZImage.GunzipHeader — the gzip header in front of the kernel.

`do_gunzip` (`common/gunzip.c`) and `gunzip_start` (`ps3/gunzip_util.c`) skip the
header with the same code, of which the second asks for the magic number first. The
memory is the list of the bytes from `src` on, which goes on behind the `n` bytes of
the buffer; `none` is a read behind the memory. Beside the decision a call gives the
number of bytes that it has looked at, counted from the start. §3 is the header as
RFC 1952 lays it out, but for the magic number, which `do_gunzip` leaves to its
callers. `char` is unsigned on PowerPC.
-/
import LiloBoot.Basic

namespace LiloBoot.ZImage

/-! ## §1 The header is skipped -/

def HEAD_CRC : UInt8 := 2
def EXTRA_FIELD : UInt8 := 4
def ORIG_NAME : UInt8 := 8
def COMMENT : UInt8 := 0x10
def RESERVED : UInt8 := 0xe0
def Z_DEFLATED : UInt8 := 8

/-- What is decided. -/
inductive Start where
  /-- Inflate from `src + i` on. -/
  | inflate (i : Nat)
  /-- `abort`, `fatal`. -/
  | abort
  /-- Not compressed. -/
  | copy
  deriving DecidableEq, Repr

/-- `while (src[i++] != 0);`: how far `i` gets. -/
def skipNul : List UInt8 → Option Nat
  | [] => none
  | b :: bytes => if b = 0 then some 1 else (skipNul bytes).map (· + 1)

/-- `i`, and how many bytes have been looked at. -/
abbrev Skipped := Nat × Nat

/-- The fixed part and the extra field. -/
def skipExtra (mem : List UInt8) (flags : UInt8) : Option Skipped :=
  if flags &&& EXTRA_FIELD ≠ 0 then
    match mem[10]?, mem[11]? with
    | some lo, some hi => some (12 + lo.toNat + (hi.toNat <<< 8), 12)
    | _, _ => none
  else some (10, 4)

/-- A string that a flag announces. -/
def skipString (mem : List UInt8) (flags flag : UInt8) (st : Skipped) : Option Skipped :=
  if flags &&& flag ≠ 0 then
    (skipNul (mem.drop st.1)).map fun k => (st.1 + k, max st.2 (st.1 + k))
  else some st

def skipHeader (mem : List UInt8) (flags : UInt8) : Option Skipped :=
  ((skipExtra mem flags).bind (skipString mem flags ORIG_NAME)).bind (skipString mem flags COMMENT)
    |>.map fun st => (if flags &&& HEAD_CRC ≠ 0 then st.1 + 2 else st.1, st.2)

/-- From the flags to the test of the length. -/
def headerStart (mem : List UInt8) (n : Nat) : Option (Start × Nat) :=
  match mem[3]?, mem[2]? with
  | some flags, some method =>
    if method ≠ Z_DEFLATED ∨ flags &&& RESERVED ≠ 0 then some (.abort, 4)
    else (skipHeader mem flags).map fun st =>
      (if n ≤ st.1 then .abort else .inflate st.1, st.2)
  | _, _ => none

/-! ## §2 The two functions -/

/-- `do_gunzip(dst, dstlen, src, &n)` up to `zlib_inflate`. -/
def doGunzip (src : List UInt8) (n : Nat) : Option (Start × Nat) := headerStart src n

/-- `gunzip_start(state, src, n)`. -/
def gunzipStart (src : List UInt8) (n : Nat) : Option (Start × Nat) :=
  match src[0]? with
  | none => none
  | some b =>
    if b ≠ 0x1f then some (.copy, 1)
    else match src[1]? with
    | none => none
    | some b => if b ≠ 0x8b then some (.copy, 2) else headerStart src n

/-! ## §3 The header of RFC 1952 -/

/-- The parts of a header. -/
structure GzipHeader where
  fixed : List UInt8
  extra : List UInt8
  name : List UInt8
  comment : List UInt8
  crc : List UInt8

namespace GzipHeader

def bytes (h : GzipHeader) : List UInt8 := h.fixed ++ h.extra ++ h.name ++ h.comment ++ h.crc

def flags (h : GzipHeader) : UInt8 := h.fixed.getD 3 0

/-- A part that the flag announces: a string and its NUL. -/
def IsString (flags flag : UInt8) (part : List UInt8) : Prop :=
  if flags &&& flag ≠ 0 then ∃ s, 0 ∉ s ∧ part = s ++ [0] else part = []

/-- The lengths and ends of the parts are those that the flags announce. -/
structure Valid (h : GzipHeader) : Prop where
  fixed : h.fixed.length = 10
  method : h.fixed.getD 2 0 = Z_DEFLATED
  reserved : h.flags &&& RESERVED = 0
  extra : if h.flags &&& EXTRA_FIELD ≠ 0 then
    ∃ lo hi data, h.extra = lo :: hi :: data ∧ data.length = lo.toNat + hi.toNat * 256
    else h.extra = []
  name : IsString h.flags ORIG_NAME h.name
  comment : IsString h.flags COMMENT h.comment
  crc : h.crc.length = if h.flags &&& HEAD_CRC ≠ 0 then 2 else 0

end GzipHeader

/-- The buffer begins with a header of `i` bytes. -/
def HeaderIn (buf : List UInt8) (i : Nat) : Prop :=
  ∃ h : GzipHeader, h.Valid ∧ h.bytes <+: buf ∧ h.bytes.length = i

/-- What is to be decided: the header if at least one byte follows it. -/
def Decides (buf : List UInt8) : Start → Prop
  | .inflate i => HeaderIn buf i ∧ i < buf.length
  | .abort => ∀ i, HeaderIn buf i → buf.length ≤ i
  | .copy => False

/-- The call decides as it is to, looks at no byte behind the buffer, and behind a magic number the
other function decides the same; `beyond` is what stands behind the buffer. -/
def StartsRight (buf beyond : List UInt8) : Prop :=
  ∃ r reads, doGunzip (buf ++ beyond) buf.length = some (r, reads) ∧ Decides buf r
    ∧ reads ≤ buf.length
    ∧ (buf[0]? = some 0x1f → buf[1]? = some 0x8b →
      ∃ reads', gunzipStart (buf ++ beyond) buf.length = some (r, reads'))

/-- Where the name would start. -/
def nameAt (buf : List UInt8) : Nat :=
  if buf.getD 3 0 &&& EXTRA_FIELD ≠ 0 then
    12 + (buf.getD 10 0).toNat + (buf.getD 11 0).toNat * 256
  else 10

/-- Where the comment would start. -/
def commentAt (buf : List UInt8) : Nat :=
  if buf.getD 3 0 &&& ORIG_NAME ≠ 0 then
    nameAt buf + ((buf.drop (nameAt buf)).takeWhile (· != 0)).length + 1
  else nameAt buf

/-- All bytes that say where the header ends lie in the buffer: flags and method, and if they are
accepted the size of an extra field and the NULs of name and comment. -/
def EndsInside (buf : List UInt8) : Prop :=
  4 ≤ buf.length ∧ (buf.getD 2 0 = Z_DEFLATED → buf.getD 3 0 &&& RESERVED = 0 →
    (buf.getD 3 0 &&& EXTRA_FIELD ≠ 0 → 12 ≤ buf.length)
      ∧ (buf.getD 3 0 &&& ORIG_NAME ≠ 0 → 0 ∈ buf.drop (nameAt buf))
      ∧ (buf.getD 3 0 &&& COMMENT ≠ 0 → 0 ∈ buf.drop (commentAt buf)))

instance (buf : List UInt8) : Decidable (EndsInside buf) :=
  inferInstanceAs (Decidable (_ ∧ (_ → _ → (_ → _) ∧ (_ → _) ∧ (_ → _))))

end LiloBoot.ZImage
