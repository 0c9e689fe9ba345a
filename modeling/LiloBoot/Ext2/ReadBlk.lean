/-
LiloBoot.Ext2.ReadBlk — reading blocks of the device (`linux_read_blk` of
`second/fs_ext2.c`, `prom_read` of `second/prom.c`).

The firmware answers every `read` call with a count or with -1; its answers
are a parameter. The device has a position that a seek sets and a read moves.
What has been asked for is kept beside the buffer: the code has no such list.
-/
import LiloBoot.Basic

namespace LiloBoot.Ext2

/-! ## The firmware -/

/-- The answers of the firmware: for the number of the call and the bytes asked for, the bytes
it has read, `none` for -1. It never reads more than it is asked for. -/
structure Firmware where
  read : Nat → Nat → Option Nat
  read_le : ∀ k n r, read k n = some r → r ≤ n

/-- The open device and the caller's buffer. `asked` lists the position and length of every
`read`, the last one first. -/
structure Device where
  pos : Nat
  calls : Nat
  asked : List (Nat × Nat)
  data : Buffer

/-- `prom_seek`. -/
def promSeek (pos : Nat) (d : Device) : Device := { d with pos := pos }

/-- `call_prom("read", 3, 1, file, buf, n)`; `buf` is the place in the caller's buffer. -/
def callRead (fw : Firmware) (disk : Bytes) (buf n : Nat) (d : Device) : Int × Device :=
  let asked := { d with calls := d.calls + 1, asked := (d.pos, n) :: d.asked }
  match fw.read d.calls n with
  | none => (-1, asked)
  | some r =>
    (s32 r, { asked with pos := d.pos + r, data := d.data.store buf r fun i => disk (d.pos + i) })

/-- The loop of `prom_read`. -/
def promReadLoop (fw : Firmware) (disk : Bytes) (buf n : Nat) : Nat → Device → Int × Device
  | 0, d => (0, d)
  | retries + 1, d =>
    let (result, d) := callRead fw disk buf n d
    if result ≠ 0 then (result, d) else promReadLoop fw disk buf n retries d

/-- `prom_read`; `--retries` lets nine of the ten through. -/
def promRead (fw : Firmware) (disk : Bytes) (buf n : Nat) (d : Device) : Int × Device :=
  if n = 0 then (0, d) else promReadLoop fw disk buf n 9 d

/-! ## `linux_read_blk` -/

/-- `EXT2_ET_SHORT_READ` -/
def ext2EtShortRead : Int := 2133571364

/-- `EXT2_ET_LLSEEK_FAILED` -/
def ext2EtLlseekFailed : Int := 2133571397

/-- The bits of an `int` as the 32 bits the firmware gets. -/
def bits32 (n : Int) : Nat := (n % 2 ^ 32).toNat

/-- The bits of an `int` extended to 64 bits. -/
def bits64 (n : Int) : Nat := (n % 2 ^ 64).toNat

/-- The `do` loop, with the same count of answers in a row that are no count of bytes, whether
0 or not. `data` is passed on unchanged: every read starts at the beginning of the buffer. -/
def readLoop (fw : Firmware) (disk : Bytes) (i : Nat) (size : Int) (d : Device) : Int × Device :=
  match promRead fw disk 0 (bits32 size) d with
  | (sizeRead, d) =>
    if 0 < sizeRead ∧ sizeRead ≤ size then
      if 0 < size - sizeRead then readLoop fw disk 0 (size - sizeRead) d else (0, d)
    else if 5 < i then (ext2EtShortRead, d)
    else if 0 < size then readLoop fw disk (i + 1) size d
    else (0, d)
termination_by (size.toNat, 6 - i)
decreasing_by
  · exact Prod.Lex.left _ _ (by omega)
  · exact Prod.Lex.right _ (by omega)

/-- `linux_read_blk`, with the static variables `bs`, `doff` and `dend`. -/
def linuxReadBlk (fw : Firmware) (disk : Bytes) (bs doff dend block : Nat) (count : Int)
    (d : Device) : Int × Device :=
  if count = 0 then (0, d)
  else
    let tempb := u64 (block * bs + doff)
    let size := s32 (bits32 (if count < 0 then -count else count * bs))
    if dend ≠ 0 ∧ u64 (tempb + bits64 size) > dend then (ext2EtLlseekFailed, d)
    else readLoop fw disk 0 size (promSeek tempb d)

end LiloBoot.Ext2
