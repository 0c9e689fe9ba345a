/-
LiloBoot.XFS.RecordTheorems — an extent record, packed and read back.

`packRec` is the record as `xfs.h` documents it for 32-bit kernels, its fields
bit vectors of their widths, so the concatenations of the four words only type
check if every word has 32 bits. `xt_offset`, `xt_start` and `xt_len` are stated
again here on the machine's types, where a shift to the left drops what leaves 64
bits and an operation on a `u32` stays in 32 bits.
-/
import LiloBoot.DevTree.Memory
import LiloBoot.XFS.ExtentTheorems

namespace LiloBoot.XFS

open Memory

/-! ## §1 The accessors on the machine's types -/

/-- `xfs_bmbt_rec_32_t`, its fields `u32`. -/
structure BmbtRecWords where
  l0 : BitVec 32
  l1 : BitVec 32
  l2 : BitVec 32
  l3 : BitVec 32
  deriving DecidableEq, Repr

namespace BmbtRecWords

/-- `mask32lo(n)`, a `u32`. -/
def mask32lo (n : Nat) : BitVec 32 := (1#32 <<< n) - 1#32

/-- `xt_start`: the first operand is masked as a `u32` and widened behind that. -/
def xtStart (r : BmbtRecWords) : BitVec 64 :=
  ((r.l1 &&& mask32lo 9).setWidth 64 <<< 43) ||| (r.l2.setWidth 64 <<< 11)
    ||| (r.l3.setWidth 64 >>> 21)

/-- `xt_offset`: the first operand is widened and the mask with it. -/
def xtOffset (r : BmbtRecWords) : BitVec 64 :=
  ((r.l0.setWidth 64 &&& (mask32lo 31).setWidth 64) <<< 23) ||| (r.l1.setWidth 64 >>> 9)

/-- `xt_len`: masked as a `u32` and widened by the return. -/
def xtLen (r : BmbtRecWords) : BitVec 64 := (r.l3 &&& mask32lo 21).setWidth 64

/-- The words as unbounded numbers. -/
def nat (r : BmbtRecWords) : BmbtRec32 := ⟨r.l0.toNat, r.l1.toNat, r.l2.toNat, r.l3.toNat⟩

theorem and_mask32lo_lt (a : Nat) (n : Nat) : a &&& XFS.mask32lo n < 2 ^ n := by
  rw [XFS.mask32lo, Nat.and_two_pow_sub_one_eq_mod]
  exact Nat.mod_lt _ (Nat.two_pow_pos n)

/-- No shift of `xt_start` pushes a bit out of 64. -/
theorem toNat_xtStart (r : BmbtRecWords) : r.xtStart.toNat = XFS.xtStart r.nat := by
  have hmask : (mask32lo 9).toNat = XFS.mask32lo 9 := by decide
  have hlow := and_mask32lo_lt r.l1.toNat 9
  have h2 := r.l2.isLt
  have h3 := r.l3.isLt
  simp only [xtStart, XFS.xtStart, nat, BitVec.toNat_or, BitVec.toNat_shiftLeft,
    BitVec.toNat_ushiftRight, BitVec.toNat_setWidth, BitVec.toNat_and, hmask]
  rw [Nat.mod_eq_of_lt (a := r.l1.toNat &&& XFS.mask32lo 9) (by omega),
    Nat.mod_eq_of_lt (a := r.l2.toNat) (by omega), Nat.mod_eq_of_lt (a := r.l3.toNat) (by omega),
    Nat.mod_eq_of_lt (by rw [Nat.shiftLeft_eq]; omega),
    Nat.mod_eq_of_lt (a := r.l2.toNat <<< 11) (by rw [Nat.shiftLeft_eq]; omega)]

/-- Nor does the one of `xt_offset`. -/
theorem toNat_xtOffset (r : BmbtRecWords) : r.xtOffset.toNat = XFS.xtOffset r.nat := by
  have hmask : (mask32lo 31).toNat = XFS.mask32lo 31 := by decide
  have hlow := and_mask32lo_lt r.l0.toNat 31
  have hmask_lt : XFS.mask32lo 31 < 2 ^ 64 := by decide
  have h0 := r.l0.isLt
  have h1 := r.l1.isLt
  simp only [xtOffset, XFS.xtOffset, nat, BitVec.toNat_or, BitVec.toNat_shiftLeft,
    BitVec.toNat_ushiftRight, BitVec.toNat_setWidth, BitVec.toNat_and, hmask]
  rw [Nat.mod_eq_of_lt (a := r.l0.toNat) (by omega), Nat.mod_eq_of_lt (a := r.l1.toNat) (by omega),
    Nat.mod_eq_of_lt hmask_lt, Nat.mod_eq_of_lt (by rw [Nat.shiftLeft_eq]; omega)]

theorem toNat_xtLen (r : BmbtRecWords) : r.xtLen.toNat = XFS.xtLen r.nat := by
  have hmask : (mask32lo 21).toNat = XFS.mask32lo 21 := by decide
  have hlow := and_mask32lo_lt r.l3.toNat 21
  simp only [xtLen, XFS.xtLen, nat, BitVec.toNat_setWidth, BitVec.toNat_and, hmask]
  rw [Nat.mod_eq_of_lt (by omega)]

end BmbtRecWords

/-! ## §2 The record on disk -/

/-- The documented record: l0:31 is the extent flag, l0:0-30 and l1:9-31 are startoff, l1:0-8,
l2:0-31 and l3:21-31 startblock, l3:0-20 blockcount. -/
def packRec (flag : BitVec 1) (startoff : BitVec 54) (startblock : BitVec 52)
    (blockcount : BitVec 21) : BmbtRecWords where
  l0 := flag ++ startoff.extractLsb' 23 31
  l1 := startoff.extractLsb' 0 23 ++ startblock.extractLsb' 43 9
  l2 := startblock.extractLsb' 11 32
  l3 := startblock.extractLsb' 0 11 ++ blockcount

/-- The block with the 16 bytes of the record at `pos`, big-endian words. -/
def storeRec (block : Bytes) (pos : Nat) (r : BmbtRecWords) : Bytes :=
  storeWord (storeWord (storeWord (storeWord block pos r.l0.toNat) (pos + 4) r.l1.toNat)
    (pos + 8) r.l2.toNat) (pos + 12) r.l3.toNat

/-- The record that `r` points to, `pos` bytes into the block. -/
def recAt (block : Bytes) (pos : Nat) : BmbtRecWords :=
  ⟨BitVec.ofNat 32 (be block pos 4), BitVec.ofNat 32 (be block (pos + 4) 4),
    BitVec.ofNat 32 (be block (pos + 8) 4), BitVec.ofNat 32 (be block (pos + 12) 4)⟩

/-- What the iterator takes out of a record is what the accessors take out. -/
theorem xad_recAt (block : Bytes) (pos : Nat) :
    xad (bmbtRec32 block pos) = ⟨(recAt block pos).xtOffset.toNat,
      (recAt block pos).xtStart.toNat, (recAt block pos).xtLen.toNat⟩ := by
  have h (p : Nat) : be block p 4 % 2 ^ 32 = be block p 4 := Nat.mod_eq_of_lt (be_lt block p 4)
  have hnat : (recAt block pos).nat = bmbtRec32 block pos := by
    simp only [recAt, BmbtRecWords.nat, bmbtRec32, BitVec.toNat_ofNat, h]
  rw [BmbtRecWords.toNat_xtOffset, BmbtRecWords.toNat_xtStart, BmbtRecWords.toNat_xtLen, hnat, xad]

theorem be_four (block : Bytes) (pos : Nat) : be block pos 4 = word block pos := by
  simp only [be, word, Nat.add_zero]
  omega

/-- A record that was stored is read back word by word. -/
theorem recAt_storeRec (block : Bytes) (pos : Nat) (r : BmbtRecWords) :
    recAt (storeRec block pos r) pos = r := by
  have h0 : word (storeRec block pos r) pos = r.l0.toNat := by
    rw [storeRec, word_storeWord_ne (by omega), word_storeWord_ne (by omega),
      word_storeWord_ne (by omega), word_storeWord, Nat.mod_eq_of_lt r.l0.isLt]
  have h1 : word (storeRec block pos r) (pos + 4) = r.l1.toNat := by
    rw [storeRec, word_storeWord_ne (by omega), word_storeWord_ne (by omega), word_storeWord,
      Nat.mod_eq_of_lt r.l1.isLt]
  have h2 : word (storeRec block pos r) (pos + 8) = r.l2.toNat := by
    rw [storeRec, word_storeWord_ne (by omega), word_storeWord, Nat.mod_eq_of_lt r.l2.isLt]
  have h3 : word (storeRec block pos r) (pos + 12) = r.l3.toNat := by
    rw [storeRec, word_storeWord, Nat.mod_eq_of_lt r.l3.isLt]
  simp only [recAt, be_four, h0, h1, h2, h3, BitVec.ofNat_toNat, BitVec.setWidth_eq]

/-! ## §3 The round trip -/

/-- The accessors take the fields out of the documented record. -/
theorem xad_packRec (flag : BitVec 1) (startoff : BitVec 54) (startblock : BitVec 52)
    (blockcount : BitVec 21) :
    xad (packRec flag startoff startblock blockcount).nat
      = ⟨startoff.toNat, startblock.toNat, blockcount.toNat⟩ := by
  have hoff := startoff.isLt
  have hstart := startblock.isLt
  have hcount := blockcount.isLt
  have hflag := flag.isLt
  have h0 : (packRec flag startoff startblock blockcount).nat.l0
      = flag.toNat * 2 ^ 31 + startoff.toNat / 2 ^ 23 := by
    simp only [packRec, BmbtRecWords.nat, BitVec.toNat_append, BitVec.extractLsb'_toNat,
      Nat.shiftRight_eq_div_pow]
    rw [shiftLeft_or_eq_add (Nat.mod_lt _ (by decide)), Nat.mod_eq_of_lt (by omega)]
  have h1 : (packRec flag startoff startblock blockcount).nat.l1
      = startoff.toNat % 2 ^ 23 * 2 ^ 9 + startblock.toNat / 2 ^ 43 := by
    simp only [packRec, BmbtRecWords.nat, BitVec.toNat_append, BitVec.extractLsb'_toNat,
      Nat.shiftRight_eq_div_pow, Nat.pow_zero, Nat.div_one]
    rw [shiftLeft_or_eq_add (Nat.mod_lt _ (by decide)),
      Nat.mod_eq_of_lt (a := startblock.toNat / 2 ^ 43) (by omega)]
  have h2 : (packRec flag startoff startblock blockcount).nat.l2
      = startblock.toNat / 2 ^ 11 % 2 ^ 32 := by
    simp only [packRec, BmbtRecWords.nat, BitVec.extractLsb'_toNat, Nat.shiftRight_eq_div_pow]
  have h3 : (packRec flag startoff startblock blockcount).nat.l3
      = startblock.toNat % 2 ^ 11 * 2 ^ 21 + blockcount.toNat := by
    simp only [packRec, BmbtRecWords.nat, BitVec.toNat_append, BitVec.extractLsb'_toNat,
      Nat.shiftRight_eq_div_pow, Nat.pow_zero, Nat.div_one]
    rw [shiftLeft_or_eq_add hcount]
  rw [xad_eq (by omega) (by omega) (by omega), h0, h1, h2, h3]
  simp only [Xad.mk.injEq]
  omega

/-- **The codec round-trips**: the three accessors give back what was packed into the record,
whatever the flag and wherever in whatever block the record stands. -/
theorem extentRecord_roundTrip (block : Bytes) (pos : Nat) (flag : BitVec 1)
    (startoff : BitVec 54) (startblock : BitVec 52) (blockcount : BitVec 21) :
    let r := recAt (storeRec block pos (packRec flag startoff startblock blockcount)) pos
    r.xtOffset.toNat = startoff.toNat ∧ r.xtStart.toNat = startblock.toNat
      ∧ r.xtLen.toNat = blockcount.toNat := by
  intro r
  have hr : r = packRec flag startoff startblock blockcount := recAt_storeRec block pos _
  have hxad := xad_packRec flag startoff startblock blockcount
  rw [← hr] at hxad
  simp only [xad, Xad.mk.injEq] at hxad
  rw [r.toNat_xtOffset, r.toNat_xtStart, r.toNat_xtLen]
  exact hxad

/-- So the iterator gets the extent that was stored. -/
theorem xad_storeRec (block : Bytes) (pos : Nat) (flag : BitVec 1)
    (startoff : BitVec 54) (startblock : BitVec 52) (blockcount : BitVec 21) :
    xad (bmbtRec32 (storeRec block pos (packRec flag startoff startblock blockcount)) pos)
      = ⟨startoff.toNat, startblock.toNat, blockcount.toNat⟩ := by
  rw [xad_recAt, recAt_storeRec, BmbtRecWords.toNat_xtOffset, BmbtRecWords.toNat_xtStart,
    BmbtRecWords.toNat_xtLen]
  exact xad_packRec flag startoff startblock blockcount

end LiloBoot.XFS
