/-
LiloBoot.XFS.AddressTheorems — where a byte of an extent is read.

`xfs_read_data` translates the first block of an extent and adds the byte offset
in the extent to its position; `read_disk_block` takes that offset as an `int`.
Block by block the position of a byte is that of its own block. In one
allocation group the two agree below 2 GiB, and nowhere else.
-/
import LiloBoot.XFS.ExtentTheorems

namespace LiloBoot.XFS

/-! ## §1 Positions -/

/-- The position on the device to which `read_disk_block` seeks. -/
def devicePos (partitionOffset block : Nat) (start : Int) : Nat :=
  ((block * 512 + (partitionOffset + start)) % 2 ^ 64).toNat

/-- The arguments `block` and `start` with which `xfs_read_data` reads from file position `pos`,
inside an extent. -/
def readArgs (geo : Geometry) (e : Xad) (pos : Nat) : Nat × Int :=
  (fsb2daddr geo e.start, s32 (sub64 pos (u64 (e.offset * 2 ^ geo.blklog))))

/-- The position of byte `x` of an extent, from the block it lies in. -/
def bytePos (geo : Geometry) (partitionOffset : Nat) (e : Xad) (x : Nat) : Nat :=
  fsb2daddr geo (e.start + x / 2 ^ geo.blklog) * 512 + x % 2 ^ geo.blklog + partitionOffset

/-- The extent lies inside one allocation group, and its length has 21 bits. -/
structure Xad.InGroup (geo : Geometry) (e : Xad) : Prop where
  len : e.len < 2 ^ 21
  group : e.start / 2 ^ geo.agblklog < 2 ^ 32
  block : e.start % 2 ^ geo.agblklog + e.len ≤ geo.agblocks

/-- The allocation group of the extent ends inside the largest device. -/
def Xad.OnDevice (geo : Geometry) (partitionOffset : Nat) (e : Xad) : Prop :=
  (e.start / 2 ^ geo.agblklog + 1) * geo.agblocks * 2 ^ geo.blklog + partitionOffset ≤ 2 ^ 64

variable {geo : Geometry} {e : Xad} {partitionOffset x : Nat}

/-- `diskPos` is the position in the partition. -/
theorem devicePos_eq (partitionOffset block : Nat) (start : Int) :
    devicePos partitionOffset block start = (diskPos block start + partitionOffset) % 2 ^ 64 := by
  rw [devicePos, diskPos]
  omega

/-- What a step of the read stores comes from the position that `readArgs` give. -/
theorem readStep_args {dev : Bytes} {endpos : Nat} {s : ReadState}
    (hin : isinxt (s.pos / 2 ^ geo.blklog) e.offset e.len = true) :
    ∃ n, (readStep geo dev endpos s e).buf = s.buf.store s.stored n fun i =>
      dev (diskPos (readArgs geo e s.pos).1 (readArgs geo e s.pos).2 + i) := by
  rw [readStep, if_pos hin]
  exact ⟨_, rfl⟩

/-! ## §2 Blocks of a group -/

/-- The block `k` behind the start of an extent has its own number in the same group. -/
theorem fsb2daddr_add (hgeo : geo.Valid) (he : e.InGroup geo)
    (hdev : e.OnDevice geo partitionOffset) {k : Nat} (hk : k < e.len) :
    fsb2daddr geo (e.start + k) * 512
      = (e.start / 2 ^ geo.agblklog * geo.agblocks + (e.start % 2 ^ geo.agblklog + k))
        * 2 ^ geo.blklog := by
  obtain ⟨-, hle, -, -, hblklog⟩ := hgeo
  obtain ⟨-, hgroup, hblock⟩ := he
  obtain ⟨ag, hag⟩ : ∃ ag, ag = 2 ^ geo.agblklog := ⟨_, rfl⟩
  obtain ⟨agno, hagno⟩ : ∃ agno, agno = e.start / ag := ⟨_, rfl⟩
  have hpos : 0 < ag := by
    rw [hag]
    exact Nat.two_pow_pos _
  have hparts : (e.start + k) / ag = agno ∧ (e.start + k) % ag = e.start % ag + k := by
    refine (Nat.div_mod_unique hpos).mpr ⟨?_, by rw [hag]; omega⟩
    have hsplit := Nat.mod_add_div e.start ag
    rw [← hagno] at hsplit
    omega
  have hbs : 2 ^ geo.blklog = 2 ^ geo.bdlog * 512 := by rw [hblklog, Nat.pow_add]
  rw [Xad.OnDevice, ← hag, ← hagno, Nat.add_mul, Nat.one_mul] at hdev
  rw [← hag] at hblock ⊢
  -- the number of the block in the file system, below the end of the group
  obtain ⟨n, hn⟩ : ∃ n, n = agno * geo.agblocks + (e.start % ag + k) := ⟨_, rfl⟩
  have hlt : n < agno * geo.agblocks + geo.agblocks := by omega
  have hbytes : n * 2 ^ geo.blklog < 2 ^ 64 := by
    have hmul := Nat.mul_lt_mul_of_pos_right hlt (Nat.two_pow_pos geo.blklog)
    omega
  have hn64 : n < 2 ^ 64 := Nat.lt_of_le_of_lt (Nat.le_mul_of_pos_right _ (Nat.two_pow_pos _)) hbytes
  have hshift : n * 2 ^ geo.bdlog < 2 ^ 64 := by
    rw [hbs, ← Nat.mul_assoc] at hbytes
    omega
  rw [← hagno, fsb2daddr, mask32lo, Nat.and_two_pow_sub_one_eq_mod, ← hag, hparts.1, hparts.2,
    u32_of_lt (by rw [hagno, hag]; exact hgroup), agb2daddr, ← hn, u64_of_lt hn64,
    u64_of_lt hshift, hbs, Nat.mul_assoc]

/-- Block by block a byte has the position of the extent plus its offset. -/
theorem bytePos_eq (hgeo : geo.Valid) (he : e.InGroup geo) (hdev : e.OnDevice geo partitionOffset)
    (hx : x < e.len * 2 ^ geo.blklog) :
    bytePos geo partitionOffset e x = fsb2daddr geo e.start * 512 + x + partitionOffset
      ∧ bytePos geo partitionOffset e x < 2 ^ 64 := by
  have hk : x / 2 ^ geo.blklog < e.len := Nat.div_lt_of_lt_mul (by rwa [Nat.mul_comm])
  have hfirst := fsb2daddr_add hgeo he hdev (Nat.zero_lt_of_lt hk)
  have hblock := fsb2daddr_add hgeo he hdev hk
  have hinside := he.block
  have hsplit := Nat.mod_add_div x (2 ^ geo.blklog)
  rw [Nat.mul_comm] at hsplit
  rw [Nat.add_zero, Nat.add_zero] at hfirst
  rw [Xad.OnDevice, Nat.add_mul, Nat.one_mul] at hdev
  rw [bytePos, hblock, hfirst]
  constructor
  · rw [← Nat.add_assoc, Nat.add_mul _ (x / 2 ^ geo.blklog)]
    omega
  · have hend : (e.start / 2 ^ geo.agblklog * geo.agblocks
        + (e.start % 2 ^ geo.agblklog + x / 2 ^ geo.blklog) + 1) * 2 ^ geo.blklog
        ≤ (e.start / 2 ^ geo.agblklog * geo.agblocks + geo.agblocks) * 2 ^ geo.blklog :=
      Nat.mul_le_mul_right _ (by omega)
    have hmod := Nat.mod_lt x (Nat.two_pow_pos geo.blklog)
    rw [Nat.add_mul, Nat.one_mul] at hend
    omega

/-! ## §3 The offset is an `int` -/

theorem s32_eq_iff {n : Nat} : s32 n = n ↔ n < 2 ^ 31 := by
  rw [s32]
  split <;> omega

/-- **The position of a byte in an extent** is right for the first 2 GiB of the extent, and wrong
behind them. -/
theorem extent_address_iff (geo : Geometry) (hgeo : geo.Valid) (e : Xad) (he : e.InGroup geo)
    (partitionOffset : Nat) (hdev : e.OnDevice geo partitionOffset)
    (x : Nat) (hx : x < e.len * 2 ^ geo.blklog) (hfile : e.offset * 2 ^ geo.blklog + x < 2 ^ 64) :
    devicePos partitionOffset (readArgs geo e (e.offset * 2 ^ geo.blklog + x)).1
        (readArgs geo e (e.offset * 2 ^ geo.blklog + x)).2
      = bytePos geo partitionOffset e x ↔ x < 2 ^ 31 := by
  obtain ⟨hpos, hlt⟩ := bytePos_eq hgeo he hdev hx
  have hoffset : sub64 (e.offset * 2 ^ geo.blklog + x) (u64 (e.offset * 2 ^ geo.blklog)) = x := by
    rw [u64_of_lt (by omega), sub64_of_le (Nat.le_add_right _ _) hfile, Nat.add_sub_cancel_left]
  rw [hpos] at hlt ⊢
  simp only [readArgs, hoffset]
  rw [devicePos]
  constructor
  · intro h
    rw [← s32_eq_iff]
    have hlarge : x < 2 ^ 61 := by
      have hlog : 2 ^ geo.blklog ≤ 2 ^ 40 :=
        Nat.pow_le_pow_right (by decide) (by have := hgeo.bdlog_lt; have := hgeo.blklog_eq; omega)
      have hlen := Nat.mul_le_mul (Nat.le_of_lt he.len) hlog
      omega
    -- what the `int` loses is no multiple of 2^64
    have hlow : s32 x ≤ x ∧ (x : Int) < s32 x + 2 ^ 64 := by
      rw [s32]
      split <;> omega
    omega
  · intro h
    rw [s32_of_lt h]
    omega

/-- A file system with groups of 2^20 blocks of 4096 bytes. -/
def largeGroups : Geometry := { sampleGeometry with agblocks := 2 ^ 20, agblklog := 20 }

theorem largeGroups_valid : largeGroups.Valid :=
  ⟨by decide, by decide, by decide, by decide, by decide⟩

/-- An extent of 600000 blocks. -/
def longExtent : Xad := ⟨0, 5, 600000⟩

theorem longExtent_address :
    devicePos 65536 (readArgs largeGroups longExtent 70000).1
      (readArgs largeGroups longExtent 70000).2 = bytePos largeGroups 65536 longExtent 70000 := by
  have h := extent_address_iff largeGroups largeGroups_valid longExtent
    ⟨by decide, by decide, by decide⟩ 65536 (by unfold Xad.OnDevice; decide) 70000 (by decide) (by decide)
  exact h.mpr (by decide)

/-- Byte 2^31 of the extent is looked for 2 GiB before its start, which wraps below the device. -/
theorem longExtent_lost :
    largeGroups.Valid ∧ longExtent.InGroup largeGroups ∧ longExtent.OnDevice largeGroups 65536
      ∧ 2 ^ 31 < longExtent.len * 2 ^ largeGroups.blklog
      ∧ devicePos 65536 (readArgs largeGroups longExtent (2 ^ 31)).1
          (readArgs largeGroups longExtent (2 ^ 31)).2 = 2 ^ 64 - 2 ^ 31 + 86016
      ∧ bytePos largeGroups 65536 longExtent (2 ^ 31) = 2 ^ 31 + 86016
      ∧ (2 ^ 64 - 2 ^ 31 + 86016 : Nat) ≠ 2 ^ 31 + 86016 :=
  ⟨largeGroups_valid, ⟨by decide, by decide, by decide⟩, by unfold Xad.OnDevice; decide, by decide,
    by decide +kernel, by decide +kernel, by decide⟩

end LiloBoot.XFS
