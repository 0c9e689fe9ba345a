/-
LiloBoot.ZImage.Addnote — the tool that adds the note headers.

`main` of `lilo/bootheader/utils/addnote.c` reads the first 512 bytes of a
32-bit ELF file, appends two program headers of type `PT_NOTE` and the notes
they point at in the zero bytes behind the headers, and writes the bytes back.
The bytes read are a list; an access behind them is a fault, whatever the
static buffer or the memory behind it holds there. Reading and writing the file
go through as a whole.
-/
import LiloBoot.Basic
import LiloBoot.Lib.Marker

namespace LiloBoot.ZImage

/-! ## §1 The notes -/

/-- `ROUNDUP(len)`. -/
def roundup (len : Nat) : Nat := (len + 3) / 4 * 4

/-- The bytes of `PUT_16BE`. -/
def be16 (v : Nat) : List UInt8 := [UInt8.ofNat (v / 2 ^ 8), UInt8.ofNat v]

/-- The bytes of `PUT_32BE`. -/
def be32 (v : Nat) : List UInt8 :=
  [UInt8.ofNat (v / 2 ^ 24), UInt8.ofNat (v / 2 ^ 16), UInt8.ofNat (v / 2 ^ 8), UInt8.ofNat v]

/-- What a note tells: its name, its type and the words of its descriptor. -/
structure Note where
  name : List UInt8
  type : Nat
  descr : List Nat

/-- `arch` and `descr`, the CHRP note. -/
def chrpNote : Note where
  name := [80, 111, 119, 101, 114, 80, 67]
  type := 0x1275
  descr := [0xffffffff, 0x02000000, 0xffffffff, 0xffffffff, 0xffffffff, 0x4000]

/-- `rpaname` and `rpanote`, the RPA note. -/
def rpaNote : Note where
  name := [73, 66, 77, 44, 82, 80, 65, 45, 67, 108, 105, 101, 110, 116, 45, 67, 111, 110, 102, 105,
    103]
  type := 0x12759999
  descr := [0, 64, 0, 40, 1, 0xffffffff, 0, 1]

/-- `nnote` and `nnote2`. -/
def Note.size (note : Note) : Nat := 12 + roundup (note.name.length + 1) + 4 * note.descr.length

/-! ## §2 The buffer -/

/-- `GET_16BE(off)`, `none` behind the bytes that were read. -/
def get16 (buf : List UInt8) (off : Nat) : Option Nat :=
  match buf[off]?, buf[off + 1]? with
  | some a, some b => some (a.toNat * 2 ^ 8 + b.toNat)
  | _, _ => none

/-- `GET_32BE(off)`, as the unsigned number. -/
def get32 (buf : List UInt8) (off : Nat) : Option Nat :=
  match get16 buf off, get16 buf (off + 2) with
  | some a, some b => some (a * 2 ^ 16 + b)
  | _, _ => none

/-- Writes to the buffer, `none` if one is not among the bytes that were read. -/
def store (buf : List UInt8) (ws : List (Nat × List UInt8)) : Option (List UInt8) :=
  if ∀ w ∈ ws, w.1 + w.2.length ≤ buf.length then some (patches buf ws) else none

def ptNote : Nat := 4

/-- The loop over the program headers: `some none` at one of type `PT_NOTE`,
    else the place behind the last; `none` for a fault. -/
def findNote (buf : List UInt8) (ps : Nat) : Nat → Nat → Option (Option Nat)
  | 0, ph => some (some ph)
  | np + 1, ph =>
    match get32 buf ph with
    | none => none
    | some type => if type = ptNote then some none else findNote buf ps np (ph + ps)

/-- Whether the bytes from a place on are zero, up to the first that is not. -/
def allZero (buf : List UInt8) : Nat → Nat → Option Bool
  | 0, _ => some true
  | n + 1, i =>
    match buf[i]? with
    | none => none
    | some b => if b ≠ 0 then some false else allZero buf n (i + 1)

/-- The three fields of a program header for a note of a size at `ns`. -/
def headerWrites (ph ns size : Nat) : List (Nat × List UInt8) :=
  [(ph, be32 ptNote), (ph + 4, be32 ns), (ph + 16, be32 size)]

/-- A note at `ns`, the name taking up `skip` bytes; the loop over the words of
    the descriptor writes one behind the other. -/
def noteWrites (note : Note) (ns skip : Nat) : List (Nat × List UInt8) :=
  [(ns, be32 (note.name.length + 1)), (ns + 4, be32 (4 * note.descr.length)),
    (ns + 8, be32 note.type), (ns + 12, note.name ++ [0]),
    (ns + 12 + skip, note.descr.flatMap be32)]

/-- Everything that is written for headers at `ph` with entries of `ps` bytes.
    `ns` is moved on by the name with its NUL in the first note, and by that
    rounded up in the second. -/
def allWrites (ph ps np : Nat) : List (Nat × List UInt8) :=
  let ns := ph + 2 * ps
  let skip := chrpNote.name.length + 1
  let ns2 := ns + (12 + skip) + 4 * chrpNote.descr.length
  headerWrites ph ns chrpNote.size ++ noteWrites chrpNote ns skip ++
    headerWrites (ph + ps) ns2 rpaNote.size ++
    noteWrites rpaNote ns2 (roundup (rpaNote.name.length + 1)) ++ [(44, be16 (np + 2))]

/-! ## §3 The tool -/

/-- How a run ends: without a change for one of four reasons, with the file
    written, or with an access outside. -/
inductive Ended where
  | notElf
  | wrongClass
  | noSpace
  | hasNote
  | written (file : List UInt8)
  | fault
  deriving DecidableEq

def elfMagic : List UInt8 := [0x7f, 0x45, 0x4c, 0x46]

/-- `sizeof(buf)`. -/
def bufSize : Nat := 512

/-- The run behind the tests of `e_ident`, for the fields of the ELF header.
    The sum that is compared with the bytes read is an `int`. -/
def addHeaders (buf : List UInt8) (ph ps np : Nat) : Ended :=
  if s32 ph < 52 ∨ ps < 32 ∨ np < 1 then .notElf
  else if (buf.length : Int) < s32 (ph + (np + 2) * ps + chrpNote.size + rpaNote.size) then .noSpace
  else
    match findNote buf ps np ph with
    | none => .fault
    | some none => .hasNote
    | some (some ph) =>
      match allZero buf (2 * ps + chrpNote.size + rpaNote.size) ph with
      | none => .fault
      | some false => .noSpace
      | some true =>
        match store buf (allWrites ph ps np) with
        | none => .fault
        | some buf => .written buf

/-- `main`, for the bytes that are read. -/
def addToBuf (buf : List UInt8) : Ended :=
  if buf.length < 52 ∨ buf.take 4 ≠ elfMagic then .notElf
  else if buf.getD 4 0 ≠ 1 ∨ buf.getD 5 0 ≠ 2 then .wrongClass
  else
    match get32 buf 28, get16 buf 42, get16 buf 44 with
    | some ph, some ps, some np => addHeaders buf ph ps np
    | _, _, _ => .fault

/-- `main`: what is read is the front of the file, and what is written goes
    there. -/
def addnote (file : List UInt8) : Ended :=
  match addToBuf (file.take bufSize) with
  | .written buf => .written (buf ++ file.drop bufSize)
  | ended => ended

end LiloBoot.ZImage
