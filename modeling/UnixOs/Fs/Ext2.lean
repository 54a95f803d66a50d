import UnixOs.Core.Kernel
import UnixOs.Lib.Bitmap
import UnixOs.Lib.Blocks
import UnixOs.Lib.ErrState

/-!
# The ext2 driver (ext2.c, ext2_ops.c)

A mounted file system: the device, the superblock and the group descriptors in
memory, and the two flags that say which of them differ from the device. The
structures of ext2_ondisk.h are packed, so they are kept as the bytes they are,
and a field is read at its offset.

A `journaled_write` either replaces one block or fails and changes nothing; what
the coming requests answer is part of the state (`reads`, `writes`, with success
once the list is used up). `trail` has the images the device went through, the
latest first.

Every function reads a block before it looks at the buffer, so the per-CPU buffer
is a value here. The lock, `preempt_disable` and the text of `kprintf` are left
out, and so are the checks that a file system is mounted. Time is an argument.
-/

namespace UnixOs

open BlockDevice Bytes ErrState Errno

/-- `EXT2_NDIR_BLOCKS`. -/
def ext2NdirBlocks : Nat := 12

/-- `EXT2_IND_BLOCK`. -/
def ext2IndBlock : Nat := 12

/-- `EXT2_DIND_BLOCK`. -/
def ext2DindBlock : Nat := 13

/-- `EXT2_S_IFMT`. -/
def ext2SIfmt : UInt16 := 0xF000

/-- `EXT2_S_IFREG`. -/
def ext2SIfreg : UInt16 := 0x8000

/-- `EXT2_S_IFDIR`. -/
def ext2SIfdir : UInt16 := 0x4000

/-- `sizeof(ext2_inode_t)`. -/
def sizeofInode : Nat := 128

/-- `sizeof(ext2_group_desc_t)`. -/
def sizeofGroupDesc : Nat := 32

structure Ext2 where
  image : Image UInt8
  sb : Image UInt8
  gdt : Image UInt8
  dirtySb : Bool
  dirtyGdt : Bool
  reads : List Bool
  writes : List Int
  trail : List (Image UInt8)

/-- `ext2_inode_t`. -/
abbrev Ext2Inode := Image UInt8

namespace Ext2Inode

variable (n : Ext2Inode)

def mode : UInt16 := half n 0
def size : UInt32 := word n 4
def linksCount : UInt16 := half n 26
def blocks : UInt32 := word n 28
def block (i : Nat) : UInt32 := word n (40 + 4 * i)

def setSize (x : UInt32) : Ext2Inode := putWord n 4 x
def setBlocks (x : UInt32) : Ext2Inode := putWord n 28 x
def setBlock (i : Nat) (x : UInt32) : Ext2Inode := putWord n (40 + 4 * i) x
def setLinksCount (x : UInt16) : Ext2Inode := putHalf n 26 x

/-- `i_ctime`. -/
def setCtime (x : UInt32) : Ext2Inode := putWord n 12 x

/-- `i_mtime` and `i_ctime`. -/
def touch (x : UInt32) : Ext2Inode := putWord (putWord n 16 x) 12 x

def isReg : Bool := n.mode &&& ext2SIfmt = ext2SIfreg
def isDir : Bool := n.mode &&& ext2SIfmt = ext2SIfdir

/-- The inode `ext2_alloc_inode` writes (ext2.c:463). -/
def fresh (mode : UInt16) (now : UInt32) : Ext2Inode :=
  let n : Ext2Inode := fun _ => 0
  let n := putHalf (putHalf n 0 mode) 26 1
  putWord (putWord (putWord n 12 now) 16 now) 8 now

end Ext2Inode

/-! ## Geometry and descriptors

The fields of an `ext2_superblock_t`, with what `recompute_geometry` takes from
them, and those of the `g`-th `ext2_group_desc_t`. -/

namespace Ext2Super

variable (sb : Image UInt8)

def inodesCount : Nat := (word sb 0).toNat
def blocksCount : Nat := (word sb 4).toNat
def freeBlocksTotal : UInt32 := word sb 12
def freeInodesTotal : UInt32 := word sb 16
def firstDataBlock : Nat := (word sb 20).toNat
def blockSize : Nat := 1024 * 2 ^ (word sb 24).toNat
def blocksPerGroup : Nat := (word sb 32).toNat
def inodesPerGroup : Nat := (word sb 40).toNat
def magic : UInt16 := half sb 56
def revLevel : Nat := (word sb 76).toNat
def firstIno : Nat := (word sb 84).toNat
def inodeSize : Nat := if 1 ≤ revLevel sb then (half sb 88).toNat else 128
def groups : Nat := (blocksCount sb + blocksPerGroup sb - 1) / blocksPerGroup sb

end Ext2Super

namespace Ext2Desc

variable (gdt : Image UInt8) (g : Nat)

def blockBitmap : Nat := (word gdt (sizeofGroupDesc * g)).toNat
def inodeBitmap : Nat := (word gdt (sizeofGroupDesc * g + 4)).toNat
def inodeTable : Nat := (word gdt (sizeofGroupDesc * g + 8)).toNat
def freeBlocks : UInt16 := half gdt (sizeofGroupDesc * g + 12)
def freeInodes : UInt16 := half gdt (sizeofGroupDesc * g + 14)
def usedDirs : UInt16 := half gdt (sizeofGroupDesc * g + 16)

end Ext2Desc

namespace Ext2

variable (s : Ext2)

def inodesCount : Nat := Ext2Super.inodesCount s.sb
def freeBlocksTotal : UInt32 := Ext2Super.freeBlocksTotal s.sb
def freeInodesTotal : UInt32 := Ext2Super.freeInodesTotal s.sb
def firstDataBlock : Nat := Ext2Super.firstDataBlock s.sb
def blockSize : Nat := Ext2Super.blockSize s.sb
def blocksPerGroup : Nat := Ext2Super.blocksPerGroup s.sb
def inodesPerGroup : Nat := Ext2Super.inodesPerGroup s.sb
def revLevel : Nat := Ext2Super.revLevel s.sb
def firstIno : Nat := Ext2Super.firstIno s.sb
def inodeSize : Nat := Ext2Super.inodeSize s.sb
def groups : Nat := Ext2Super.groups s.sb

def blockBitmap (g : Nat) : Nat := Ext2Desc.blockBitmap s.gdt g
def inodeBitmap (g : Nat) : Nat := Ext2Desc.inodeBitmap s.gdt g
def inodeTable (g : Nat) : Nat := Ext2Desc.inodeTable s.gdt g
def freeBlocks (g : Nat) : UInt16 := Ext2Desc.freeBlocks s.gdt g
def freeInodes (g : Nat) : UInt16 := Ext2Desc.freeInodes s.gdt g
def usedDirs (g : Nat) : UInt16 := Ext2Desc.usedDirs s.gdt g

/-- The first block of the descriptor table. -/
def gdtBlock : Nat := if s.blockSize = 1024 then 2 else 1

def gdtBytes : Nat := s.groups * sizeofGroupDesc

/-- `bg_free_blocks_count` and `s_free_blocks_count` change together. -/
def addFreeBlocks (g : Nat) (d16 : UInt16) (d32 : UInt32) : Ext2 :=
  { s with
    gdt := putHalf s.gdt (sizeofGroupDesc * g + 12) (s.freeBlocks g + d16)
    sb := putWord s.sb 12 (s.freeBlocksTotal + d32)
    dirtyGdt := true
    dirtySb := true }

/-- `bg_free_inodes_count--` and `s_free_inodes_count--`. -/
def takeFreeInode (g : Nat) : Ext2 :=
  { s with
    gdt := putHalf s.gdt (sizeofGroupDesc * g + 14) (s.freeInodes g - 1)
    sb := putWord s.sb 16 (s.freeInodesTotal - 1)
    dirtyGdt := true
    dirtySb := true }

/-- `bg_used_dirs_count++`. -/
def addUsedDir (g : Nat) : Ext2 :=
  { s with
    gdt := putHalf s.gdt (sizeofGroupDesc * g + 16) (s.usedDirs g + 1)
    dirtyGdt := true }

end Ext2

/-! ## The device -/

abbrev Ext2M := EStateM Int Ext2

namespace Ext2

/-- `read_block` (ext2.c:62). -/
def readBlock (blk : Nat) : Ext2M (Nat → UInt8) := fun s =>
  let ok := s.reads.headD true
  let s := { s with reads := s.reads.tail }
  if ok then .ok (s.image.block s.blockSize blk) s else .error (-Errno.EIO) s

/-- A write of the device that succeeds or fails as a whole. -/
def deviceWrite (put : Image UInt8 → Image UInt8) : Ext2M Unit := fun s =>
  let rc := s.writes.headD 0
  let s := { s with writes := s.writes.tail }
  if rc < 0 then .error rc s
  else .ok () { s with image := put s.image, trail := put s.image :: s.trail }

/-- `journaled_write` (ext2.c:101). -/
def journaledWrite (blk : Nat) (buf : Nat → UInt8) : Ext2M Unit := do
  let s ← get
  deviceWrite fun m => m.putBlock s.blockSize blk buf

/-- The part of `ext2_sync_locked` for one block of the descriptor table. -/
def syncGdtBlock (i : Nat) : Ext2M Unit := do
  let s ← get
  let copy := min s.blockSize (s.gdtBytes - i * s.blockSize)
  let buf := fun j => if j < copy then s.gdt (i * s.blockSize + j) else 0
  let _ ← attempt (journaledWrite (s.gdtBlock + i) buf)

/-- The part of `ext2_sync_locked` for the superblock: two sectors from sector 2
on, past the journal. -/
def syncSuperblock : Ext2M Unit := do
  let s ← get
  let _ ← attempt (deviceWrite fun m => m.putBlock 1024 1 s.sb)
  modify fun s => { s with dirtySb := false }

/-- `ext2_sync_locked` (ext2.c:350); the results of the writes are not looked
at. -/
def syncLocked : Ext2M Unit := do
  let s ← get
  if s.dirtySb then syncSuperblock
  let s ← get
  if s.dirtyGdt then
    let nblocks := (s.gdtBytes + s.blockSize - 1) / s.blockSize
    (List.range nblocks).foldlM (fun _ i => syncGdtBlock i) ()
    modify fun s => { s with dirtyGdt := false }

/-! ## Allocation -/

/-- One block of `ext2_reserve_blocks` (ext2.c:67); whether it was reserved. -/
def reserveBlock (blk : Nat) : Ext2M Bool := do
  let s ← get
  let rel := blk - s.firstDataBlock
  let group := rel / s.blocksPerGroup
  let bit := rel % s.blocksPerGroup
  if blk < s.firstDataBlock ∨ s.groups ≤ group then pure false
  else
    match ← attempt (readBlock (s.blockBitmap group)) with
    | none => pure false
    | some buf =>
      if Bitmap.get buf bit then pure false
      else
        match ← attempt (journaledWrite (s.blockBitmap group) (Bitmap.set buf bit)) with
        | none => pure false
        | some _ =>
          modify fun s => s.addFreeBlocks group (-1) (-1)
          pure true

/-- `ext2_reserve_blocks` (ext2.c:67): how many blocks were reserved. -/
def reserveBlocks (start count : Nat) : Ext2M Nat := do
  let reserved ← (List.range count).foldlM (fun n i => do
    let done ← reserveBlock ((start + i) % 2 ^ 32)
    pure (if done then n + 1 else n)) 0
  if 0 < reserved then syncLocked
  pure reserved

/-- `alloc_block_in_group_locked` (ext2.c:398). -/
def allocBlockInGroup (g : Nat) : Ext2M Nat := do
  let s ← get
  if s.freeBlocks g = 0 then throw (-ENOSPC)
  else
    let buf ← readBlock (s.blockBitmap g)
    match Bitmap.findClear (fun _ => true) s.blocksPerGroup buf with
    | none => throw (-ENOSPC)
    | some bit =>
      match ← attempt (journaledWrite (s.blockBitmap g) (Bitmap.set buf bit)) with
      | none => throw (-Errno.EIO)
      | some _ =>
        modify fun s => s.addFreeBlocks g (-1) (-1)
        pure (s.firstDataBlock + g * s.blocksPerGroup + bit)

/-- The search of `ext2_inode_write_data` (ext2.c:506): the first group, and the
others while none had a block. -/
def allocBlockFrom (g : Nat) : List Nat → Ext2M Nat
  | [] => allocBlockInGroup g
  | g' :: gs => fun s =>
    match (allocBlockInGroup g).run s with
    | .ok blk s => .ok blk s
    | .error _ s => (allocBlockFrom g' gs).run s

/-- The block `ext2_inode_write_data` takes for a hole. -/
def allocBlock : Ext2M Nat := do
  let s ← get
  allocBlockFrom 0 (List.range' 1 (s.groups - 1))

/-- Whether the scan of a group may take the inode of a bit: revision 1 keeps the
inodes in front of `s_first_ino` for itself. -/
def allocatableInode (s : Ext2) (g bit : Nat) : Bool :=
  !(decide (1 ≤ s.revLevel) && decide (g * s.inodesPerGroup + bit + 1 < s.firstIno))

/-- `alloc_inode_in_group_locked` (ext2.c:420). -/
def allocInodeInGroup (g : Nat) : Ext2M Nat := do
  let s ← get
  if s.freeInodes g = 0 then throw (-ENOSPC)
  else
    let buf ← readBlock (s.inodeBitmap g)
    match Bitmap.findClear (s.allocatableInode g) s.inodesPerGroup buf with
    | none => throw (-ENOSPC)
    | some bit =>
      match ← attempt (journaledWrite (s.inodeBitmap g) (Bitmap.set buf bit)) with
      | none => throw (-Errno.EIO)
      | some _ =>
        modify fun s => s.takeFreeInode g
        pure (g * s.inodesPerGroup + bit + 1)

/-! ## Inodes -/

/-- Where an inode lies: its group, the block of the table and the offset in
it. -/
def inodeGroup (s : Ext2) (ino : Nat) : Nat := (ino - 1) / s.inodesPerGroup
def inodeOffset (s : Ext2) (ino : Nat) : Nat := (ino - 1) % s.inodesPerGroup * s.inodeSize
def inodeBlk (s : Ext2) (ino : Nat) : Nat :=
  s.inodeTable (s.inodeGroup ino) + s.inodeOffset ino / s.blockSize
def inodeInoff (s : Ext2) (ino : Nat) : Nat := s.inodeOffset ino % s.blockSize

/-- How much of an inode is copied. -/
def inodeCopy (s : Ext2) : Nat := min sizeofInode s.inodeSize

/-- `read_inode` (ext2.c:206). -/
def readInode (ino : Nat) : Ext2M Ext2Inode := do
  let s ← get
  if ino = 0 ∨ s.inodesCount < ino then throw (-ENOENT)
  else if s.groups ≤ s.inodeGroup ino then throw (-Errno.EIO)
  else
    let buf ← readBlock (s.inodeBlk ino)
    pure fun i => if i < s.inodeCopy then buf (s.inodeInoff ino + i) else 0

/-- `write_inode_locked` (ext2.c:379). -/
def writeInode (ino : Nat) (n : Ext2Inode) : Ext2M Unit := do
  let s ← get
  if ino = 0 ∨ s.inodesCount < ino then throw (-EINVAL)
  else if s.groups ≤ s.inodeGroup ino then throw (-Errno.EIO)
  else
    let buf ← readBlock (s.inodeBlk ino)
    let off := s.inodeInoff ino
    journaledWrite (s.inodeBlk ino) fun i =>
      if off ≤ i ∧ i < off + s.inodeCopy then n (i - off) else buf i

/-- The loop of `ext2_alloc_inode` over the groups: a group without a free inode
is passed over, an I/O error is not. -/
def allocInodeFrom : List Nat → Ext2M Nat
  | [] => throw (-ENOSPC)
  | g :: gs => fun s =>
    match (allocInodeInGroup g).run s with
    | .ok ino s => .ok ino s
    | .error rc s => if rc = -Errno.EIO then .error rc s else (allocInodeFrom gs).run s

/-- `ext2_alloc_inode` (ext2.c:445). -/
def allocInode (mode : UInt16) (now : UInt32) : Ext2M Nat := do
  let s ← get
  let ino ← allocInodeFrom (List.range s.groups)
  writeInode ino (.fresh mode now)
  if mode &&& ext2SIfmt = ext2SIfdir then modify fun s => s.addUsedDir (s.inodeGroup ino)
  syncLocked
  pure ino

/-- One pointer of `ext2_inode_truncate` (ext2.c:586); the inode in memory, with
the block given back if its bit could be cleared. -/
def truncateBlock (n : Ext2Inode) (i : Nat) : Ext2M Ext2Inode := do
  let s ← get
  let phys := (n.block i).toNat
  let rel := phys - s.firstDataBlock
  let group := rel / s.blocksPerGroup
  let bit := rel % s.blocksPerGroup
  if phys = 0 then pure n
  else if phys < s.firstDataBlock ∨ s.groups ≤ group then pure (n.setBlock i 0)
  else
    match ← attempt (readBlock (s.blockBitmap group)) with
    | none => pure (n.setBlock i 0)
    | some buf =>
      if Bitmap.get buf bit = false then pure (n.setBlock i 0)
      else
        match ← attempt (journaledWrite (s.blockBitmap group) (Bitmap.clear buf bit)) with
        | none => pure (n.setBlock i 0)
        | some _ =>
          modify fun s => s.addFreeBlocks group 1 1
          let sectors := UInt32.ofNat (s.blockSize / 512)
          let n := if sectors ≤ n.blocks then n.setBlocks (n.blocks - sectors) else n
          pure (n.setBlock i 0)

/-- `ext2_inode_truncate` (ext2.c:586). -/
def inodeTruncate (ino newSize : Nat) (now : UInt32) : Ext2M Unit := do
  let s ← get
  if ext2NdirBlocks * s.blockSize < newSize then throw (-EFBIG)
  else
    match ← attempt (readInode ino) with
    | none => throw (-Errno.EIO)
    | some n =>
      let keep := min ((newSize + s.blockSize - 1) / s.blockSize) ext2NdirBlocks
      let n ← ((List.range ext2NdirBlocks).drop keep).foldlM truncateBlock n
      writeInode ino ((n.setSize (UInt32.ofNat newSize)).touch now)
      syncLocked

end Ext2

end UnixOs
