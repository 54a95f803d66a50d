import UnixOs.Fs.Ext2

/-!
# Mounting an ext2 file system

`ext2_mount` (ext2.c:125) takes every number of the geometry from the superblock of the
device, in 32-bit arithmetic. It refuses a wrong magic, a block that does not fit the
buffer and more groups than the table has; nothing else is looked at. A division by 0
faults.

- `Ext2Mounted.WellDefined`: what every later operation relies on;
- `FieldsFit`: the fields of a superblock that give it;
- `mount_sound_iff`: the superblocks for which a mount fails or gives it.

`1024u << s_log_block_size` shifts by a count that may be 32 or more; the machine takes
it modulo 32.
-/

namespace UnixOs

open BlockDevice Bytes Errno

/-- `EXT2_MAGIC`. -/
def ext2Magic : UInt16 := 0xEF53

/-- `EXT2_MAX_GROUPS`. -/
def ext2MaxGroups : Nat := 64

/-- `sizeof(g_block_buf)`. -/
def blockBufSize : Nat := 4096

/-- The globals of a mounted file system. -/
structure Ext2Mounted where
  sb : Image UInt8
  gdt : Image UInt8
  blockSize : Nat
  inodeSize : Nat
  blocksPerGroup : Nat
  inodesPerGroup : Nat
  groups : Nat
  sectorsPerBlk : Nat

inductive MountResult where
  | error (rc : Int)
  | fault
  | mounted (v : Ext2Mounted)

namespace Ext2Mount

/-- `s_log_block_size`. -/
def logBlockSize (sb : Image UInt8) : Nat := (word sb 24).toNat

/-- `1024u << s_log_block_size`. -/
def blockSize (sb : Image UInt8) : Nat := 1024 * 2 ^ (logBlockSize sb % 32) % 2 ^ 32

/-- `(s_blocks_count + s_blocks_per_group - 1) / s_blocks_per_group`. -/
def groups (sb : Image UInt8) : Nat :=
  (Ext2Super.blocksCount sb + Ext2Super.blocksPerGroup sb + (2 ^ 32 - 1)) % 2 ^ 32
    / Ext2Super.blocksPerGroup sb

/-- The numbers of `recompute_geometry` (ext2.c:115). -/
def geometryOf (sb gdt : Image UInt8) : Ext2Mounted where
  sb := sb
  gdt := gdt
  blockSize := blockSize sb
  inodeSize := Ext2Super.inodeSize sb
  blocksPerGroup := Ext2Super.blocksPerGroup sb
  inodesPerGroup := Ext2Super.inodesPerGroup sb
  groups := groups sb
  sectorsPerBlk := blockSize sb / 512

/-- `recompute_geometry`; its last division may fault. -/
def recomputeGeometry (sb gdt : Image UInt8) : Option Ext2Mounted :=
  if Ext2Super.blocksPerGroup sb = 0 then none else some (geometryOf sb gdt)

/-- `kmemcpy` of `n` bytes to an offset of the table. -/
def copyTo (gdt : Image UInt8) (dst n : Nat) (buf : Nat → UInt8) : Image UInt8 := fun a =>
  if dst ≤ a ∧ a < dst + n then buf (a - dst) else gdt a

/-- The loop over the other blocks of the descriptor table (ext2.c:171). -/
def readRest (m : Image UInt8) : Nat → Ext2Mounted → Nat → Nat → Nat → List Bool → MountResult
  | 0, v, _, _, _, _ => .mounted v
  | n + 1, v, blk, dst, remaining, reads =>
    if reads.headD true = false then .error (-Errno.EIO)
    else
      let copy := if v.blockSize < remaining then v.blockSize else remaining
      let v' := { v with gdt := copyTo v.gdt dst copy (m.block v.blockSize blk) }
      readRest m n v' (blk + 1) (dst + copy) (remaining - copy) reads.tail

/-- The descriptor table (ext2.c:159). -/
def readDescriptors (m : Image UInt8) (v : Ext2Mounted) (reads : List Bool) : MountResult :=
  let gdtBlock := if v.blockSize = 1024 then 2 else 1
  if reads.headD true = false then .error (-Errno.EIO)
  else
    let buf := m.block v.blockSize gdtBlock
    let gdtBytes := v.groups * sizeofGroupDesc
    if v.blockSize < gdtBytes then
      if v.blockSize = 0 then .fault
      else
        let remaining := gdtBytes - v.blockSize
        let nblocks := (remaining + v.blockSize - 1) / v.blockSize
        readRest m nblocks { v with gdt := copyTo v.gdt 0 v.blockSize buf } (gdtBlock + 1)
          v.blockSize remaining reads.tail
    else .mounted { v with gdt := copyTo v.gdt 0 gdtBytes buf }

/-- `ext2_mount` (ext2.c:125). `reads` is which reads of the device succeed, `gdt` what
the table of descriptors had before. -/
def mount (bd : Option (Image UInt8)) (reads : List Bool) (gdt : Image UInt8) : MountResult :=
  match bd with
  | none => .error (-EINVAL)
  | some m =>
    if reads.headD true = false then .error (-Errno.EIO)
    else if Ext2Super.magic (m.block 1024 1) ≠ ext2Magic then .error (-EINVAL)
    else
      match recomputeGeometry (m.block 1024 1) gdt with
      | none => .fault
      | some v =>
        if blockBufSize < v.blockSize then .error (-EINVAL)
        else if ext2MaxGroups < v.groups then .error (-EINVAL)
        else readDescriptors m v reads.tail

end Ext2Mount

/-- What the operations on a mounted file system rely on: the sizes, and with them every
index into the table of descriptors, a bitmap, the buffer and an inode table. -/
structure Ext2Mounted.WellDefined (v : Ext2Mounted) : Prop where
  blockSize : v.blockSize = 1024 ∨ v.blockSize = 2048 ∨ v.blockSize = 4096
  blocks : 0 < v.blocksPerGroup ∧ v.blocksPerGroup ≤ 8 * v.blockSize
  inodes : 0 < v.inodesPerGroup ∧ v.inodesPerGroup ≤ 8 * v.blockSize
  inodeSize : sizeofInode ≤ v.inodeSize ∧ v.inodeSize ∣ v.blockSize
  buffer : v.blockSize ≤ blockBufSize
  group : ∀ g, g < v.groups → g < ext2MaxGroups
  bitmapByte : ∀ bit, bit < v.blocksPerGroup ∨ bit < v.inodesPerGroup → bit / 8 < v.blockSize
  /-- The offset of an inode in its table does not overflow, and the inode lies in the
  buffer. -/
  inode : ∀ ino, let off := (ino - 1) % v.inodesPerGroup * v.inodeSize
    off < 2 ^ 32 ∧ off % v.blockSize + min sizeofInode v.inodeSize ≤ v.blockSize

namespace Ext2Mount

/-- A mount that fails, or whose geometry can be relied on. -/
def Sound : MountResult → Prop
  | .error rc => rc < 0
  | .fault => False
  | .mounted v => v.WellDefined

/-- The fields of a superblock that make up a geometry. -/
structure FieldsFit (sb : Image UInt8) : Prop where
  log : logBlockSize sb % 32 ≤ 2
  blocks : Ext2Super.blocksPerGroup sb ≤ 8 * blockSize sb
  inodes_pos : 0 < Ext2Super.inodesPerGroup sb
  inodes : Ext2Super.inodesPerGroup sb ≤ 8 * blockSize sb
  inodeSize : sizeofInode ≤ Ext2Super.inodeSize sb
  inodeSize_dvd : Ext2Super.inodeSize sb ∣ blockSize sb

/-- How many blocks of the descriptor table are read. -/
def descriptorReads (sb : Image UInt8) : Nat :=
  if blockSize sb = 0 then 1
  else 1 + (groups sb * sizeofGroupDesc - blockSize sb + blockSize sb - 1) / blockSize sb

/-! ## The block size -/

theorem blockSize_cases (sb : Image UInt8) :
    (logBlockSize sb % 32 ≤ 2 ∧
      (blockSize sb = 1024 ∨ blockSize sb = 2048 ∨ blockSize sb = 4096)) ∨
    ¬ logBlockSize sb % 32 ≤ 2 ∧ (blockBufSize < blockSize sb ∨ blockSize sb = 0) := by
  have hlt : logBlockSize sb % 32 < 32 := Nat.mod_lt _ (by decide)
  rw [blockSize]
  generalize logBlockSize sb % 32 = k at hlt
  revert k
  decide

/-! ## Reading the descriptors -/

variable {reads : List Bool}

theorem headD_eq : reads.headD true = reads.getD 0 true := by cases reads <;> rfl

theorem getD_tail {i : Nat} : reads.tail.getD i true = reads.getD (i + 1) true := by
  cases reads <;> rfl

/-- The first of the reads succeeds. -/
theorem exists_fails_succ {n : Nat} (h : ¬ reads.headD true = false) :
    (∃ i < n + 1, reads.getD i true = false) ↔ ∃ i < n, reads.tail.getD i true = false := by
  rw [Nat.exists_lt_succ_left, ← headD_eq]
  refine (or_iff_right h).trans ?_
  simp only [getD_tail]

/-! ## What is accepted -/

variable {sb gdt : Image UInt8}

/-- Fields that fit keep every index in range. -/
theorem FieldsFit.wellDefined (h : FieldsFit sb) (hpos : Ext2Super.blocksPerGroup sb ≠ 0)
    (hgroups : groups sb ≤ ext2MaxGroups) : (geometryOf sb gdt).WellDefined := by
  have hbs : blockSize sb = 1024 ∨ blockSize sb = 2048 ∨ blockSize sb = 4096 := by
    obtain ⟨-, hbs⟩ | ⟨hlog, -⟩ := blockSize_cases sb
    · exact hbs
    · exact absurd h.log hlog
  have hbs_pos : 0 < blockSize sb := by omega
  have hle : blockSize sb ≤ 4096 := by omega
  have hblocks := h.blocks
  have hinodes := h.inodes
  refine ⟨hbs, ⟨Nat.pos_of_ne_zero hpos, hblocks⟩, ⟨h.inodes_pos, hinodes⟩,
    ⟨h.inodeSize, h.inodeSize_dvd⟩, hle, fun g hg => lt_of_lt_of_le hg hgroups,
    fun bit hbit => ?_, fun ino => ⟨?_, ?_⟩⟩
  · show bit / 8 < blockSize sb
    have hlt : bit < 8 * blockSize sb := hbit.elim (fun h => h.trans_le hblocks)
      fun h => h.trans_le hinodes
    omega
  · have hidx : (ino - 1) % Ext2Super.inodesPerGroup sb < 8 * 4096 := by
      have := Nat.mod_lt (ino - 1) h.inodes_pos
      omega
    have hsize : Ext2Super.inodeSize sb ≤ 4096 := (Nat.le_of_dvd hbs_pos h.inodeSize_dvd).trans hle
    calc (ino - 1) % Ext2Super.inodesPerGroup sb * Ext2Super.inodeSize sb
        ≤ 8 * 4096 * 4096 := Nat.mul_le_mul hidx.le hsize
      _ < 2 ^ 32 := by decide
  · have hmod := Image.mul_mod_add_le h.inodeSize_dvd hbs_pos
      ((ino - 1) % Ext2Super.inodesPerGroup sb)
    have hmin : min sizeofInode (Ext2Super.inodeSize sb) ≤ Ext2Super.inodeSize sb :=
      min_le_right _ _
    exact (Nat.add_le_add_left hmin _).trans hmod

theorem FieldsFit.of_wellDefined (h : (geometryOf sb gdt).WellDefined) : FieldsFit sb where
  log := by
    obtain ⟨hlog, -⟩ | ⟨-, hbs⟩ := blockSize_cases sb
    · exact hlog
    · have hsize : blockSize sb = 1024 ∨ blockSize sb = 2048 ∨ blockSize sb = 4096 := h.blockSize
      rw [blockBufSize] at hbs
      omega
  blocks := h.blocks.2
  inodes_pos := h.inodes.1
  inodes := h.inodes.2
  inodeSize := h.inodeSize.1
  inodeSize_dvd := h.inodeSize.2

/-- A mount that goes through. -/
theorem sound_mounted_iff (hpos : Ext2Super.blocksPerGroup sb ≠ 0)
    (hgroups : groups sb ≤ ext2MaxGroups) : Sound (.mounted (geometryOf sb gdt)) ↔ FieldsFit sb :=
  ⟨FieldsFit.of_wellDefined, fun h => h.wellDefined hpos hgroups⟩

theorem sound_eio : Sound (.error (-Errno.EIO)) := show -Errno.EIO < 0 by decide

/-- The rest of the table: a read fails, or the fields have to fit. -/
theorem readRest_sound_iff {m : Image UInt8} {n blk dst remaining : Nat}
    (hpos : Ext2Super.blocksPerGroup sb ≠ 0) (hgroups : groups sb ≤ ext2MaxGroups) :
    Sound (readRest m n (geometryOf sb gdt) blk dst remaining reads) ↔
      (∃ i < n, reads.getD i true = false) ∨ FieldsFit sb := by
  induction n generalizing gdt blk dst remaining reads with
  | zero =>
    refine (sound_mounted_iff hpos hgroups).trans (or_iff_right ?_).symm
    rintro ⟨i, hi, -⟩
    cases hi
  | succ n ih =>
    rw [readRest]
    split
    · next hfail => exact iff_of_true sound_eio (.inl ⟨0, Nat.succ_pos n, headD_eq ▸ hfail⟩)
    · next hok =>
      rw [exists_fails_succ hok]
      exact ih

/-- Reading the table is sound if a read fails or the fields fit. -/
theorem readDescriptors_sound_iff {m : Image UInt8}
    (hpos : Ext2Super.blocksPerGroup sb ≠ 0) (hgroups : groups sb ≤ ext2MaxGroups) :
    Sound (readDescriptors m (geometryOf sb gdt) reads) ↔
      (∃ i < descriptorReads sb, reads.getD i true = false) ∨ FieldsFit sb := by
  have hreads : ∃ n, descriptorReads sb = n + 1 := by
    rw [descriptorReads]
    split
    · exact ⟨0, rfl⟩
    · exact ⟨_, add_comm _ _⟩
  obtain ⟨n, hn⟩ := hreads
  rw [readDescriptors, hn]
  simp only
  split
  · next hfail => exact iff_of_true sound_eio (.inl ⟨0, Nat.succ_pos n, headD_eq ▸ hfail⟩)
  next hok =>
  rw [exists_fails_succ hok]
  split
  · split
    · next hzero =>
      have hzero : blockSize sb = 0 := hzero
      rw [descriptorReads, if_pos hzero] at hn
      refine iff_of_false id ?_
      rintro (⟨i, hi, -⟩ | hfit)
      · omega
      · obtain ⟨-, hsize⟩ | ⟨hlog, -⟩ := blockSize_cases sb
        · omega
        · exact hlog hfit.log
    · next hzero =>
      have hzero : ¬ blockSize sb = 0 := hzero
      rw [descriptorReads, if_neg hzero] at hn
      obtain rfl : n = (groups sb * sizeofGroupDesc - blockSize sb + blockSize sb - 1)
        / blockSize sb := by omega
      exact readRest_sound_iff hpos hgroups
  · next hshort =>
    have hshort : ¬ blockSize sb < groups sb * sizeofGroupDesc := hshort
    -- one block holds the table
    have hn0 : n = 0 := by
      rw [descriptorReads] at hn
      split at hn
      · omega
      · rw [Nat.sub_eq_zero_of_le (not_lt.1 hshort), zero_add, Nat.div_eq_of_lt (by omega)] at hn
        omega
    refine (sound_mounted_iff hpos hgroups).trans (or_iff_right ?_).symm
    rintro ⟨i, hi, -⟩
    omega

/-- A mount fails or gives a geometry that can be relied on, exactly if the device, the
magic, the block size or the number of groups stops it, or the fields of the superblock
fit; the blocks per group have to be positive to get to the second pair. -/
theorem mount_sound_iff (bd : Option (Image UInt8)) (reads : List Bool) (gdt : Image UInt8) :
    Sound (mount bd reads gdt) ↔ ∀ m, bd = some m → reads.headD true = true →
      Ext2Super.magic (m.block 1024 1) = ext2Magic → Ext2Super.blocksPerGroup (m.block 1024 1) ≠ 0 ∧
        (blockBufSize < blockSize (m.block 1024 1) ∨ ext2MaxGroups < groups (m.block 1024 1) ∨
          (∃ i < descriptorReads (m.block 1024 1), reads.tail.getD i true = false) ∨
          FieldsFit (m.block 1024 1)) := by
  have hinval : Sound (.error (-EINVAL)) := show -EINVAL < 0 by decide
  cases bd with
  | none => exact iff_of_true hinval nofun
  | some m =>
    rw [mount]
    simp only [Option.some.injEq, forall_eq']
    split
    · next hfail =>
      refine iff_of_true sound_eio fun hok => ?_
      rw [hfail] at hok
      cases hok
    next hok =>
    split
    · next hmagic => exact iff_of_true hinval fun _ h => absurd h hmagic
    next hmagic =>
    have hread : reads.headD true = true := by simpa using hok
    simp only [hread, not_not.1 hmagic, forall_const]
    generalize m.block 1024 1 = sb
    rw [recomputeGeometry]
    by_cases hpos : Ext2Super.blocksPerGroup sb = 0
    · rw [if_pos hpos]
      exact iff_of_false id fun h => h.1 hpos
    rw [if_neg hpos]
    simp only
    split
    · next hbig => exact iff_of_true hinval ⟨hpos, .inl hbig⟩
    next hfits =>
    split
    · next hmany => exact iff_of_true hinval ⟨hpos, .inr (.inl hmany)⟩
    next hfew =>
    have hfits : ¬ blockBufSize < blockSize sb := hfits
    have hfew : ¬ ext2MaxGroups < groups sb := hfew
    rw [readDescriptors_sound_iff hpos (not_lt.1 hfew), or_iff_right hfits, or_iff_right hfew]
    exact (and_iff_right hpos).symm

/-- A superblock with nothing but the magic: the division by the blocks per group faults. -/
theorem mount_faults :
    ¬ Sound (mount (some fun a => ([(1080, 0x53), (1081, 0xEF)].lookup a).getD 0) []
      fun _ => 0) := by
  have hfault : mount (some fun a => ([(1080, 0x53), (1081, 0xEF)].lookup a).getD 0) []
      (fun _ => 0) = .fault := by
    rfl
  rw [hfault]
  exact id

end Ext2Mount

end UnixOs
