import UnixOs.Fs.Ext2DirBytes
import UnixOs.Fs.Ext2Map

/-!
# The directories of an ext2 volume (ext2.c)

A directory has all the blocks that `i_size` says, and the records of each fill it
(`IsDir`). `entriesOf` are its live entries, in the order of the blocks.
-/

namespace UnixOs

open List Option

open BlockDevice Bytes ErrState Ext2Dir

namespace Ext2Dir

/-- The names and inodes of the live entries. -/
def entries (recs : List DirRec) : List (FileName × Nat) :=
  recs.filterMap fun r => if r.inode = 0 then none else some (r.name, r.inode)

variable {r : DirRec}

theorem entries_cons_dead (h : r.inode = 0) (l : List DirRec) : entries (r :: l) = entries l :=
  filterMap_cons_none (if_pos h)

theorem entries_cons_live (h : r.inode ≠ 0) (l : List DirRec) :
    entries (r :: l) = (r.name, r.inode) :: entries l :=
  filterMap_cons_some (if_neg h)

end Ext2Dir

/-! ## Directories of a volume -/

namespace Volume

section

variable (V : Volume) (ino : Nat)

/-- How many blocks a file has. -/
def dirLen : Nat := (V.inodeAt ino).size.toNat / V.geom.blockSize

/-- The records of a block of a file. -/
def dirBlock (i : Nat) : DirBlock :=
  Ext2.blockRecords V.geom.blockSize (V.contents (V.physOf (V.inodeAt ino) i))

/-- The blocks of a directory. -/
def dirBlocks : List DirBlock := (List.range (V.dirLen ino)).map (V.dirBlock ino)

/-- The live entries of a directory. -/
def entriesOf : List (FileName × Nat) := entries (V.dirBlocks ino).flatten

/-- A well-formed directory. -/
structure IsDir : Prop where
  valid : V.geom.ValidIno ino
  dir : (V.inodeAt ino).isDir = true
  size : (V.inodeAt ino).size.toNat = V.dirLen ino * V.geom.blockSize
  full : ∀ i < V.dirLen ino, V.physOf (V.inodeAt ino) i ≠ 0
  rest : ∀ i, V.dirLen ino ≤ i → i < ext2NdirBlocks → (V.inodeAt ino).block i = 0
  laid : ∀ i < V.dirLen ino, DirBlock.Laid V.geom.blockSize (V.dirBlock ino i)

end

variable {V V' : Volume} {ino i : Nat}

theorem length_dirBlocks : (V.dirBlocks ino).length = V.dirLen ino := by
  rw [dirBlocks, length_map, length_range]

theorem drop_dirBlocks (hi : i < V.dirLen ino) :
    (V.dirBlocks ino).drop i = V.dirBlock ino i :: (V.dirBlocks ino).drop (i + 1) := by
  rw [drop_eq_getElem_cons (by rwa [length_dirBlocks])]
  simp only [dirBlocks, getElem_map, getElem_range]

end Volume

namespace Ext2

/-! ## A small directory

Inode 2 of the file system of `small` is a directory with two blocks, with the entry `a`
for inode 3 in the first and `b` for inode 4 in the second. -/

def dirImage : Image UInt8 := fun a =>
  ([(3 * 1024, 0x7F), (4 * 1024, 0x03), (5 * 1024 + 128, 0xED), (5 * 1024 + 129, 0x41),
    (5 * 1024 + 133, 8), (5 * 1024 + 154, 2), (5 * 1024 + 156, 4), (5 * 1024 + 168, 6),
    (5 * 1024 + 172, 7), (6 * 1024, 3), (6 * 1024 + 5, 4), (6 * 1024 + 6, 1), (6 * 1024 + 7, 1),
    (6 * 1024 + 8, 0x61), (7 * 1024, 4), (7 * 1024 + 5, 4), (7 * 1024 + 6, 1), (7 * 1024 + 7, 1),
    (7 * 1024 + 8, 0x62)].lookup a).getD 0

def dirFs (reads : List Bool) (writes : List Int) : Ext2 :=
  { ((small reads writes).addFreeBlocks 0 (-2) (-2)).takeFreeInode 0 with image := dirImage }

/-- The device of the small directory. -/
def dirVolume : Volume := ⟨(small [] []).geom, dirImage⟩

theorem volume_dirFs {r : List Bool} {w : List Int} : (dirFs r w).volume = dirVolume := by
  have h : (dirFs r w).geom = (((small r w).addFreeBlocks 0 (-2) (-2)).takeFreeInode 0).geom :=
    geom_congr rfl rfl
  refine Volume.ext ?_ rfl
  show (dirFs r w).geom = _
  rw [h, geom_takeFreeInode, geom_addFreeBlocks, geom_small]
  rfl

theorem isDir_dirVolume : dirVolume.IsDir 2 := by
  have hlen : dirVolume.dirLen 2 = 2 := by decide +kernel
  refine ⟨by decide +kernel, by decide +kernel, by decide +kernel, ?_, ?_, ?_⟩
  · rw [hlen]
    decide +kernel
  · rw [hlen]
    intro i hle hi
    exact (by decide +kernel : ∀ i < 12, 2 ≤ i → (dirVolume.inodeAt 2).block i = 0) i hi hle
  · rw [hlen]
    have hblock : ∀ i < 2, dirVolume.dirBlock 2 i
        = [⟨3 + i, 1024, [0x61 + UInt8.ofNat i], 1⟩] := by decide +kernel
    intro i hi
    rw [hblock i hi]
    refine ⟨rfl, fun r hr => ?_⟩
    obtain rfl := mem_singleton.1 hr
    have h0 : 3 + i ≠ 0 := by omega
    refine ⟨(by decide : 8 ≤ 1024), (by decide : 1024 % 4 = 0), ?_⟩
    rw [DirRec.actual, if_neg h0]
    exact (by decide : dirEntrySize 1 ≤ 1024)

theorem isDir_dirFs : (dirFs [] []).volume.IsDir 2 := volume_dirFs ▸ isDir_dirVolume

end Ext2

end UnixOs
