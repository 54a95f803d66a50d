import UnixOs.Fs.Ext2Crash

/-!
# The blocks of a file by their numbers (ext2.c)

`inode_block_phys` finds the block with a number: the first twelve in the inode, the next
behind one index block, then behind two. `physOf` is that block as the device has it, and
`run_inodeBlockPhys` says that the driver finds it if the device can be read.
-/

namespace UnixOs

open List Option

open BlockDevice Bytes ErrState

/-- The path to the block with a number; `ppb` pointers are in an index block. -/
def BlockPath.ofLogical (ppb logical : Nat) : Option BlockPath :=
  if logical < ext2NdirBlocks then some ⟨logical, []⟩
  else if logical - ext2NdirBlocks < ppb then some ⟨ext2IndBlock, [logical - ext2NdirBlocks]⟩
  else if logical - ext2NdirBlocks - ppb < ppb * ppb then
    some ⟨ext2DindBlock, [(logical - ext2NdirBlocks - ppb) / ppb,
      (logical - ext2NdirBlocks - ppb) % ppb]⟩
  else none

/-- The block of an inode with a number, or 0. -/
def Volume.physOf (V : Volume) (n : Ext2Inode) (logical : Nat) : Nat :=
  ((BlockPath.ofLogical (V.geom.blockSize / 4) logical).map (V.blockAt n)).getD 0

namespace Ext2

variable {s s' : Ext2} {ino logical : Nat}

/-! ## A device that can be read -/

section

variable (hreads : s.reads = [])
include hreads

theorem run_readBlock_ok (blk : Nat) : (readBlock blk).run s = .ok (s.contents blk) s := by
  rw [run_readBlock, hreads]
  show EStateM.Result.ok (s.contents blk) (s.withEnv [] s.writes) = _
  rw [← hreads, withEnv_self]

theorem run_readInode_ok (hino : s.volume.geom.ValidIno ino) :
    (readInode ino).run s = .ok (s.volume.inodeAt ino) s := by
  rw [run_readInode (geom_validIno.1 hino), hreads, volume_inodeAt]
  show EStateM.Result.ok (s.inodeAt ino) (s.withEnv [] s.writes) = _
  rw [← hreads, withEnv_self]

theorem run_readPointer (blk i : Nat) :
    (readPointer blk i).run s = .ok (s.volume.pointer blk i) s := by
  rw [readPointer, Volume.pointer]
  split
  · rfl
  · rw [run_bind_ok (run_attempt_ok (run_readBlock_ok hreads blk))]
    rfl

/-- `inode_block_phys` follows the path. -/
theorem run_inodeBlockPhys (n : Ext2Inode) (logical : Nat) :
    (inodeBlockPhys n logical).run s = .ok (s.volume.physOf n logical) s := by
  have hppb : s.volume.geom.blockSize / 4 = s.ptrsPerBlock := rfl
  rw [inodeBlockPhys, run_get_bind, Volume.physOf, BlockPath.ofLogical, hppb]
  dsimp only
  split
  · rfl
  · split
    · rw [run_readPointer hreads, map_some, getD_some, Volume.blockAt, foldl_cons, foldl_nil]
    · split
      · rw [run_bind_ok (run_readPointer hreads _ _), run_readPointer hreads, map_some,
          getD_some, Volume.blockAt, foldl_cons, foldl_cons, foldl_nil]
      · rfl

end

end Ext2

end UnixOs
