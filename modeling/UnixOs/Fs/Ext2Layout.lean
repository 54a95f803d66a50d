import UnixOs.Fs.Ext2Effects

/-!
# The layout of an ext2 file system

`Geometry` is what stays fixed after the mount: the sizes, and where the bitmaps
and the inode tables lie. `Layout` says that a geometry is that of a file system:
the sizes fit, and no two pieces of metadata share a block.

`SyncClosed` are the properties that survive whatever the device answers and a write
of the superblock or of the descriptors; `ext2_sync_locked` keeps them.
-/

namespace UnixOs

open BlockDevice Bytes ErrState Keeps

/-! ## Geometry -/

@[ext] structure Ext2Geometry where
  inodesCount : Nat
  firstDataBlock : Nat
  blockSize : Nat
  blocksPerGroup : Nat
  inodesPerGroup : Nat
  revLevel : Nat
  firstIno : Nat
  inodeSize : Nat
  groups : Nat
  blockBitmap : Nat → Nat
  inodeBitmap : Nat → Nat
  inodeTable : Nat → Nat

namespace Ext2Geometry

variable (G : Ext2Geometry)

def gdtBlock : Nat := if G.blockSize = 1024 then 2 else 1
def gdtBlocks : Nat := (G.groups * sizeofGroupDesc + G.blockSize - 1) / G.blockSize

/-- The number of blocks of an inode table. -/
def tableBlocks : Nat := (G.inodesPerGroup * G.inodeSize + G.blockSize - 1) / G.blockSize

def inodeGroup (ino : Nat) : Nat := (ino - 1) / G.inodesPerGroup
def inodeOffset (ino : Nat) : Nat := (ino - 1) % G.inodesPerGroup * G.inodeSize
def inodeBlk (ino : Nat) : Nat :=
  G.inodeTable (G.inodeGroup ino) + G.inodeOffset ino / G.blockSize
def inodeInoff (ino : Nat) : Nat := G.inodeOffset ino % G.blockSize
def ValidIno (ino : Nat) : Prop := ino ≠ 0 ∧ ino ≤ G.inodesCount ∧ G.inodeGroup ino < G.groups

instance (ino : Nat) : Decidable (G.ValidIno ino) := inferInstanceAs (Decidable (_ ∧ _ ∧ _))

/-- The number of a block by its bit in the bitmap of a group. -/
def blockOf (g bit : Nat) : Nat := G.firstDataBlock + g * G.blocksPerGroup + bit

end Ext2Geometry

/-- The pieces of metadata. -/
inductive MetaLoc where
  | superblock
  | gdt (i : Nat)
  | blockBitmap (g : Nat)
  | inodeBitmap (g : Nat)
  | inodeTable (g j : Nat)

namespace MetaLoc

def Valid (G : Ext2Geometry) : MetaLoc → Prop
  | superblock => True
  | gdt i => i < G.gdtBlocks
  | blockBitmap g => g < G.groups
  | inodeBitmap g => g < G.groups
  | inodeTable g j => g < G.groups ∧ j < G.tableBlocks

/-- The block a piece lies in; the superblock is at byte 1024. -/
def blk (G : Ext2Geometry) : MetaLoc → Nat
  | superblock => 1024 / G.blockSize
  | gdt i => G.gdtBlock + i
  | blockBitmap g => G.blockBitmap g
  | inodeBitmap g => G.inodeBitmap g
  | inodeTable g j => G.inodeTable g + j

end MetaLoc

/-- The geometry of a file system. -/
structure Layout (G : Ext2Geometry) : Prop where
  blockSize : G.blockSize = 1024 ∨ G.blockSize = 2048 ∨ G.blockSize = 4096
  groups : G.groups ≤ 64
  groups_pos : 0 < G.groups
  blocks_pos : 0 < G.blocksPerGroup
  blocks_le : G.blocksPerGroup ≤ 8 * G.blockSize
  inodes_pos : 0 < G.inodesPerGroup
  inodes_le : G.inodesPerGroup ≤ 8 * G.blockSize
  inodeSize_le : sizeofInode ≤ G.inodeSize
  inodeSize_dvd : G.inodeSize ∣ G.blockSize
  apart : ∀ {a b : MetaLoc}, a.Valid G → b.Valid G → a.blk G = b.blk G → a = b

namespace Layout

variable {G : Ext2Geometry} {ino : Nat}

section

variable (h : Layout G)
include h

theorem blockSize_pos : 0 < G.blockSize := by
  obtain h | h | h := h.blockSize <;> omega

/-- The offset of an inode lies in the table. -/
theorem inodeOffset_lt (ino : Nat) :
    G.inodeOffset ino + G.inodeSize ≤ G.inodesPerGroup * G.inodeSize := by
  have hlt : (ino - 1) % G.inodesPerGroup + 1 ≤ G.inodesPerGroup := Nat.mod_lt _ h.inodes_pos
  calc G.inodeOffset ino + G.inodeSize
      = ((ino - 1) % G.inodesPerGroup + 1) * G.inodeSize := by
        rw [Ext2Geometry.inodeOffset, Nat.succ_mul]
    _ ≤ G.inodesPerGroup * G.inodeSize := Nat.mul_le_mul_right _ hlt

/-- The block of an inode is one of its table. -/
theorem inodeTable_valid (hino : G.ValidIno ino) :
    (MetaLoc.inodeTable (G.inodeGroup ino) (G.inodeOffset ino / G.blockSize)).Valid G := by
  refine ⟨hino.2.2, ?_⟩
  have hoff := h.inodeOffset_lt ino
  have hsize := h.inodeSize_le
  have hpos := h.blockSize_pos
  have h128 : sizeofInode = 128 := rfl
  rw [Ext2Geometry.tableBlocks, Nat.div_lt_iff_lt_mul hpos]
  have hdiv := Nat.div_add_mod (G.inodesPerGroup * G.inodeSize + G.blockSize - 1) G.blockSize
  have hmod := Nat.mod_lt (G.inodesPerGroup * G.inodeSize + G.blockSize - 1) hpos
  rw [mul_comm G.blockSize] at hdiv
  omega

/-- An inode does not cross a block. -/
theorem inodeInoff_le (ino : Nat) : G.inodeInoff ino + sizeofInode ≤ G.blockSize := by
  have hle := Image.mul_mod_add_le h.inodeSize_dvd h.blockSize_pos ((ino - 1) % G.inodesPerGroup)
  have hsize := h.inodeSize_le
  rw [Ext2Geometry.inodeInoff, Ext2Geometry.inodeOffset]
  omega

end

end Layout

namespace Ext2

/-- The part of the state that no operation changes. -/
def geom (s : Ext2) : Ext2Geometry where
  inodesCount := s.inodesCount
  firstDataBlock := s.firstDataBlock
  blockSize := s.blockSize
  blocksPerGroup := s.blocksPerGroup
  inodesPerGroup := s.inodesPerGroup
  revLevel := s.revLevel
  firstIno := s.firstIno
  inodeSize := s.inodeSize
  groups := s.groups
  blockBitmap := s.blockBitmap
  inodeBitmap := s.inodeBitmap
  inodeTable := s.inodeTable

variable {s : Ext2} {blk g bit : Nat} {buf : Nat → UInt8}

theorem geom_inodeSize : s.geom.inodeSize = s.inodeSize := by rw [geom]

theorem geom_inodeBlk {ino : Nat} : s.geom.inodeBlk ino = s.inodeBlk ino := by
  simp only [geom, Ext2Geometry.inodeBlk, Ext2Geometry.inodeOffset, Ext2Geometry.inodeGroup,
    inodeBlk, inodeOffset, inodeGroup]

theorem geom_inodeInoff {ino : Nat} : s.geom.inodeInoff ino = s.inodeInoff ino := by
  simp only [geom, Ext2Geometry.inodeInoff, Ext2Geometry.inodeOffset, inodeInoff, inodeOffset]

theorem geom_validIno {ino : Nat} : s.geom.ValidIno ino ↔ s.ValidIno ino := by
  simp only [geom, Ext2Geometry.ValidIno, Ext2Geometry.inodeGroup, ValidIno, inodeGroup]

theorem geom_congr {s' : Ext2} (hsb : s'.sb = s.sb) (hgdt : s'.gdt = s.gdt) : s'.geom = s.geom := by
  obtain ⟨_, _, _⟩ := s'
  cases hsb
  cases hgdt
  rfl

@[simp] theorem geom_withEnv {r : List Bool} {w : List Int} : (s.withEnv r w).geom = s.geom :=
  geom_congr rfl rfl

@[simp] theorem geom_stored {m : Image UInt8} : (s.stored m).geom = s.geom :=
  geom_congr rfl rfl

@[simp] theorem geom_store : (s.store blk buf).geom = s.geom := geom_stored

/-- A counter of the superblock is not part of the geometry, and neither is one
of a descriptor. -/
theorem geom_of_counters {sb gdt : Image UInt8} {off : Nat} (x : UInt32)
    {goff : Nat} {y : UInt16} (hoff : off = 12 ∨ off = 16)
    (hgoff : goff = 12 ∨ goff = 14 ∨ goff = 16) (hsb : sb = s.sb ∨ sb = putWord s.sb off x)
    (hgdt : gdt = putHalf s.gdt (sizeofGroupDesc * g + goff) y) (s' : Ext2) (hs' : s'.sb = sb)
    (hg' : s'.gdt = gdt) : s'.geom = s.geom := by
  have hword : ∀ o, o ≠ 12 → o ≠ 16 → o % 4 = 0 → word s'.sb o = word s.sb o := by
    intro o h12 h16 hmod
    rw [hs']
    obtain rfl | rfl := hsb
    · rfl
    · exact word_putWord_of_ne (by omega)
  have hhalf : half s'.sb 88 = half s.sb 88 := by
    rw [hs']
    obtain rfl | rfl := hsb
    · rfl
    · exact half_putWord_of_ne (by omega)
  have hptr : ∀ j o, o = 0 ∨ o = 4 ∨ o = 8 →
      word s'.gdt (sizeofGroupDesc * j + o) = word s.gdt (sizeofGroupDesc * j + o) := by
    intro j o ho
    rw [hg', hgdt]
    refine word_putHalf_of_ne ?_
    rw [sizeofGroupDesc]
    omega
  have hrev : s'.revLevel = s.revLevel :=
    congrArg UInt32.toNat (hword 76 (by decide) (by decide) rfl)
  have hbpg : s'.blocksPerGroup = s.blocksPerGroup :=
    congrArg UInt32.toNat (hword 32 (by decide) (by decide) rfl)
  have hcount : Ext2Super.blocksCount s'.sb = Ext2Super.blocksCount s.sb :=
    congrArg UInt32.toNat (hword 4 (by decide) (by decide) rfl)
  apply Ext2Geometry.ext
  case inodesCount => exact congrArg UInt32.toNat (hword 0 (by decide) (by decide) rfl)
  case firstDataBlock => exact congrArg UInt32.toNat (hword 20 (by decide) (by decide) rfl)
  case blockSize =>
    exact congrArg (fun x : UInt32 => 1024 * 2 ^ x.toNat) (hword 24 (by decide) (by decide) rfl)
  case blocksPerGroup => exact hbpg
  case inodesPerGroup => exact congrArg UInt32.toNat (hword 40 (by decide) (by decide) rfl)
  case revLevel => exact hrev
  case firstIno => exact congrArg UInt32.toNat (hword 84 (by decide) (by decide) rfl)
  case inodeSize =>
    show (if 1 ≤ s'.revLevel then (half s'.sb 88).toNat else 128) = _
    rw [hrev, hhalf]
    rfl
  case groups =>
    show (Ext2Super.blocksCount s'.sb + s'.blocksPerGroup - 1) / s'.blocksPerGroup = _
    rw [hcount, hbpg]
    rfl
  case blockBitmap => exact funext fun j => congrArg UInt32.toNat (hptr j 0 (.inl rfl))
  case inodeBitmap => exact funext fun j => congrArg UInt32.toNat (hptr j 4 (.inr (.inl rfl)))
  case inodeTable => exact funext fun j => congrArg UInt32.toNat (hptr j 8 (.inr (.inr rfl)))

@[simp] theorem geom_addFreeBlocks {a : UInt16} {b : UInt32} :
    (s.addFreeBlocks g a b).geom = s.geom :=
  geom_of_counters _ (.inl rfl) (.inl rfl) (.inr rfl) rfl _ rfl rfl

@[simp] theorem geom_takeFreeInode : (s.takeFreeInode g).geom = s.geom :=
  geom_of_counters _ (.inr rfl) (.inr (.inl rfl)) (.inr rfl) rfl _ rfl rfl

@[simp] theorem geom_addUsedDir : (s.addUsedDir g).geom = s.geom :=
  geom_of_counters 0 (.inl (rfl : 12 = 12)) (.inr (.inr rfl)) (.inl rfl) rfl _ rfl rfl

@[simp] theorem geom_takeBlock : (s.takeBlock g bit).geom = s.geom := by
  rw [takeBlock, geom_addFreeBlocks, geom_store]

@[simp] theorem geom_giveBlock : (s.giveBlock g bit).geom = s.geom := by
  rw [giveBlock, geom_addFreeBlocks, geom_store]

@[simp] theorem geom_takeInode : (s.takeInode g bit).geom = s.geom := by
  rw [takeInode, geom_takeFreeInode, geom_store]

/-! ## The sync -/

structure SyncClosed (G : Ext2Geometry) (I : Ext2 → Prop) : Prop where
  geom : ∀ {s}, I s → s.geom = G
  env : ∀ {s} r w, I s → I (s.withEnv r w)
  flags : ∀ {s} a b, I s → I { s with dirtySb := a, dirtyGdt := b }
  superblock : ∀ {s} buf, I s → I (s.stored (s.image.putBlock 1024 1 buf))
  gdt : ∀ {s i} buf, i < G.gdtBlocks → I s → I (s.store (G.gdtBlock + i) buf)

namespace SyncClosed

variable {G : Ext2Geometry} {I : Ext2 → Prop} {ino i : Nat}

section

variable (h : SyncClosed G I)
include h

theorem readBlock : Keeps I (readBlock blk) := by
  intro s hs
  obtain ⟨r, hr⟩ | ⟨r, hr⟩ := readBlock_cases s blk <;> rw [hr] <;> exact h.env _ _ hs

theorem readInode : Keeps I (readInode ino) := by
  intro s hs
  obtain ⟨r, -, hr⟩ | ⟨rc, r, -, hr⟩ := readInode_cases s ino <;> rw [hr] <;> exact h.env _ _ hs

theorem syncSuperblock : Keeps I syncSuperblock := by
  refine readBind fun s hs => bind (attempt fun s' hs' => ?_) fun _ =>
    update fun s' hs' => h.flags _ _ hs'
  obtain ⟨w, hw⟩ | ⟨rc, w, -, hw⟩ := deviceWrite_cases s' fun m => m.putBlock 1024 1 s.sb
  · rw [hw]
    exact h.env _ _ (h.superblock s.sb hs')
  · rw [hw]
    exact h.env _ _ hs'

theorem syncGdtBlock (hi : i < G.gdtBlocks) : Keeps I (syncGdtBlock i) := by
  refine readBind fun s hs => bind (attempt fun s' hs' => ?_) fun _ => ret
  have hblk : s.gdtBlock = G.gdtBlock := by
    rw [← h.geom hs]
    rfl
  rw [hblk]
  obtain ⟨w, hw⟩ | ⟨rc, w, -, hw⟩ := journaledWrite_cases s' (G.gdtBlock + i) fun j =>
    if j < min s.blockSize (s.gdtBytes - i * s.blockSize) then s.gdt (i * s.blockSize + j) else 0
  · rw [hw]
    exact h.env _ _ (h.gdt _ hi hs')
  · rw [hw]
    exact h.env _ _ hs'

theorem syncLocked : Keeps I syncLocked := by
  refine readBind fun s _ => iteThen (fun _ => h.syncSuperblock) fun _ => ?_
  refine readBind fun s hs => ite (fun _ => ?_) fun _ => ret
  refine bind (foldlM (fun _ i hi => h.syncGdtBlock ?_) ()) fun _ =>
    update fun s' hs' => h.flags _ _ hs'
  have hblocks : (s.gdtBytes + s.blockSize - 1) / s.blockSize = G.gdtBlocks := by
    rw [← h.geom hs]
    rfl
  rwa [List.mem_range, hblocks] at hi

end

end SyncClosed

end Ext2

end UnixOs
