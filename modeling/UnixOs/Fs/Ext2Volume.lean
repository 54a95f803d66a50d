import Mathlib.Data.List.Induction
import UnixOs.Fs.Ext2Layout

/-!
# What an ext2 device says

A `Volume` is the content of the device with the geometry it is read by. A file or
directory leads to its blocks by paths: a slot of `i_block`, and the indices into the
index blocks behind it (none for the first twelve slots, up to three behind the last).

- `Refers V ino p blk`: the path `p` of the inode ends at the block `blk`;
- `Consistent`: what is referred to is data and marked, and referred to once;
- `Frame`: a change that touches neither inodes nor index blocks;
- `Consistent.putInode`: an inode is written that refers to marked blocks nothing
  else refers to (`Extends`).
-/

namespace UnixOs

open List

open BlockDevice Bytes

/-! ## Fields of an inode -/

namespace Ext2Inode

variable {n n' : Ext2Inode} {i l : Nat} {x : UInt32} {y : UInt16}

/-- A file or directory; in other inodes `i_block` need not be pointers. -/
def IsFile (n : Ext2Inode) : Prop := n.isReg = true ∨ n.isDir = true

instance : Decidable n.IsFile := inferInstanceAs (Decidable (_ ∨ _))

theorem isFile_congr (h : n'.mode = n.mode) : n'.IsFile ↔ n.IsFile := by
  rw [IsFile, IsFile, isReg, isReg, isDir, isDir, h]

theorem block_setBlock : (n.setBlock l x).block i = if i = l then x else n.block i := by
  split
  · next h =>
    subst h
    exact word_putWord_self x
  · exact word_putWord_of_ne (by omega)

@[simp] theorem block_setBlocks : (n.setBlocks x).block i = n.block i :=
  word_putWord_of_ne (by omega)

@[simp] theorem block_setSize : (n.setSize x).block i = n.block i := word_putWord_of_ne (by omega)

@[simp] theorem block_setCtime : (n.setCtime x).block i = n.block i := word_putWord_of_ne (by omega)

@[simp] theorem block_setLinksCount : (n.setLinksCount y).block i = n.block i :=
  word_putHalf_of_ne (by omega)

@[simp] theorem block_touch : (n.touch x).block i = n.block i :=
  (word_putWord_of_ne (by omega)).trans (word_putWord_of_ne (by omega))

@[simp] theorem mode_setBlock : (n.setBlock l x).mode = n.mode := half_putWord_of_ne (by omega)

@[simp] theorem mode_setBlocks : (n.setBlocks x).mode = n.mode := half_putWord_of_ne (by omega)

@[simp] theorem mode_setSize : (n.setSize x).mode = n.mode := half_putWord_of_ne (by omega)

@[simp] theorem mode_setCtime : (n.setCtime x).mode = n.mode := half_putWord_of_ne (by omega)

@[simp] theorem mode_setLinksCount : (n.setLinksCount y).mode = n.mode :=
  half_putHalf_of_ne (by omega)

@[simp] theorem mode_touch : (n.touch x).mode = n.mode :=
  (half_putWord_of_ne (by omega)).trans (half_putWord_of_ne (by omega))

/-- A new inode has no blocks. -/
theorem block_fresh : (fresh y x).block i = 0 := by
  have hzero : (word (fun _ => 0) (40 + 4 * i)) = 0 := by
    rw [word, show Image.load (fun _ => (0 : UInt8)) (40 + 4 * i) 4 = [0, 0, 0, 0] from rfl]
    decide
  rw [block, fresh, word_putWord_of_ne (by omega), word_putWord_of_ne (by omega),
    word_putWord_of_ne (by omega), word_putHalf_of_ne (by omega), word_putHalf_of_ne (by omega),
    hzero]

end Ext2Inode

@[ext] structure Volume where
  geom : Ext2Geometry
  image : Image UInt8

/-- A slot of `i_block`, and indices into index blocks. -/
structure BlockPath where
  slot : Nat
  idx : List Nat
  deriving DecidableEq

namespace BlockPath

/-- How many index blocks are behind a slot. -/
def depth (slot : Nat) : Nat := slot - 11

def Valid (G : Ext2Geometry) (p : BlockPath) : Prop :=
  p.slot < 15 ∧ p.idx.length ≤ depth p.slot ∧ ∀ j ∈ p.idx, j < G.blockSize / 4

/-- The path ends at an index block. -/
def IsIndex (p : BlockPath) : Prop := p.idx.length < depth p.slot

theorem valid_slot {G : Ext2Geometry} {i : Nat} (hi : i < 15) : (⟨i, []⟩ : BlockPath).Valid G :=
  ⟨hi, Nat.zero_le _, fun _ h => absurd h not_mem_nil⟩

theorem not_isIndex_slot {i : Nat} (hi : i < 12) : ¬ (⟨i, []⟩ : BlockPath).IsIndex := by
  show ¬ 0 < i - 11
  omega

end BlockPath

namespace Ext2Geometry

variable (G : Ext2Geometry)

/-- A block that a bitmap has a bit for. -/
def InRange (blk : Nat) : Prop :=
  G.firstDataBlock ≤ blk ∧ (blk - G.firstDataBlock) / G.blocksPerGroup < G.groups

instance (blk : Nat) : Decidable (G.InRange blk) := inferInstanceAs (Decidable (_ ∧ _))

def IsMeta (blk : Nat) : Prop := ∃ loc : MetaLoc, loc.Valid G ∧ loc.blk G = blk

end Ext2Geometry

namespace Volume

section

variable (V : Volume)

def contents (blk : Nat) : Nat → UInt8 := V.image.block V.geom.blockSize blk

def put (blk : Nat) (buf : Nat → UInt8) : Volume :=
  ⟨V.geom, V.image.putBlock V.geom.blockSize blk buf⟩

/-- The superblock is written. -/
def putSuper (buf : Nat → UInt8) : Volume := ⟨V.geom, V.image.putBlock 1024 1 buf⟩

def inodeAt (ino : Nat) : Ext2Inode := fun i =>
  if i < min sizeofInode V.geom.inodeSize then
    V.contents (V.geom.inodeBlk ino) (V.geom.inodeInoff ino + i)
  else 0

def putInode (ino : Nat) (n : Ext2Inode) : Volume :=
  V.put (V.geom.inodeBlk ino) fun i =>
    if V.geom.inodeInoff ino ≤ i ∧ i < V.geom.inodeInoff ino + min sizeofInode V.geom.inodeSize then
      n (i - V.geom.inodeInoff ino)
    else V.contents (V.geom.inodeBlk ino) i

/-- The bit of a block in the bitmap of its group. -/
def blockBit (blk : Nat) : Bool :=
  Bitmap.get (V.contents
    (V.geom.blockBitmap ((blk - V.geom.firstDataBlock) / V.geom.blocksPerGroup)))
    ((blk - V.geom.firstDataBlock) % V.geom.blocksPerGroup)

/-- A pointer of an index block; there is none where there is no block. -/
def pointer (blk j : Nat) : Nat := if blk = 0 then 0 else (word (V.contents blk) (4 * j)).toNat

/-- The block at the end of a path, or 0. -/
def blockAt (n : Ext2Inode) (p : BlockPath) : Nat := p.idx.foldl V.pointer (n.block p.slot).toNat

def IsFile (ino : Nat) : Prop := V.geom.ValidIno ino ∧ (V.inodeAt ino).IsFile

instance (ino : Nat) : Decidable (V.IsFile ino) := inferInstanceAs (Decidable (_ ∧ _))

structure Refers (ino : Nat) (p : BlockPath) (blk : Nat) : Prop where
  file : V.IsFile ino
  valid : p.Valid V.geom
  blockAt : V.blockAt (V.inodeAt ino) p = blk
  ne : blk ≠ 0

structure Consistent : Prop where
  layout : Layout V.geom
  first : V.geom.firstDataBlock = if V.geom.blockSize = 1024 then 1 else 0
  inRange : ∀ {ino p blk}, V.Refers ino p blk → V.geom.InRange blk
  used : ∀ {ino p blk}, V.Refers ino p blk → V.blockBit blk = true
  data : ∀ {ino p blk}, V.Refers ino p blk → ¬ V.geom.IsMeta blk
  unique : ∀ {ino p ino' p' blk}, V.Refers ino p blk → V.Refers ino' p' blk → ino = ino' ∧ p = p'
  metaUsed : ∀ {blk}, V.geom.IsMeta blk → V.geom.InRange blk → V.blockBit blk = true

/-- A marked block that nothing refers to. -/
structure Spare (blk : Nat) : Prop where
  ne : blk ≠ 0
  inRange : V.geom.InRange blk
  used : V.blockBit blk = true
  data : ¬ V.geom.IsMeta blk
  fresh : ∀ ino p, ¬ V.Refers ino p blk

/-- An inode in memory whose pointers may be written: they are those of the device,
or spare. -/
structure Extends (ino : Nat) (n : Ext2Inode) : Prop where
  ptr : n.IsFile → ∀ i < 15, n.block i = 0 ∨
    (V.IsFile ino ∧ n.block i = (V.inodeAt ino).block i) ∨ (i < 12 ∧ V.Spare (n.block i).toNat)
  inj : n.IsFile → ∀ i < 12, ∀ j < 12, V.Spare (n.block i).toNat → n.block i = n.block j → i = j

end

variable {V V' : Volume} {blk blk' ino ino' i : Nat} {p p' : BlockPath} {buf : Nat → UInt8}
  {n : Ext2Inode}

/-! ## Blocks -/

@[simp] theorem geom_put : (V.put blk buf).geom = V.geom := rfl

@[simp] theorem geom_putInode : (V.putInode ino n).geom = V.geom := rfl

theorem contents_put_self (hi : i < V.geom.blockSize) : (V.put blk buf).contents blk i = buf i :=
  Image.block_putBlock_self hi

theorem contents_put_of_ne (hne : blk' ≠ blk) (hi : i < V.geom.blockSize) :
    (V.put blk buf).contents blk' i = V.contents blk' i :=
  Image.block_putBlock_of_ne hne hi

theorem contents_putSuper (hl : Layout V.geom) (hne : blk ≠ 1024 / V.geom.blockSize)
    (hi : i < V.geom.blockSize) : (V.putSuper buf).contents blk i = V.contents blk i := by
  refine Image.putBlock_of_not ?_
  show ¬ (1 * 1024 ≤ blk * V.geom.blockSize + i ∧ blk * V.geom.blockSize + i < 1 * 1024 + 1024)
  obtain h | h | h := hl.blockSize <;> rw [h] at hne hi ⊢ <;> omega

/-! ## Inodes -/

section

variable (hl : Layout V.geom)
include hl

/-- Two inodes have no byte in common. -/
theorem inode_apart (hino : V.geom.ValidIno ino) (hino' : V.geom.ValidIno ino')
    (hne : ino' ≠ ino) (hblk : V.geom.inodeBlk ino' = V.geom.inodeBlk ino) :
    V.geom.inodeInoff ino + sizeofInode ≤ V.geom.inodeInoff ino' ∨
      V.geom.inodeInoff ino' + sizeofInode ≤ V.geom.inodeInoff ino := by
  have hloc := hl.apart (hl.inodeTable_valid hino') (hl.inodeTable_valid hino) hblk
  obtain ⟨hgroup, hquot⟩ := MetaLoc.inodeTable.inj hloc
  have hsize := hl.inodeSize_le
  -- in one table, different inodes have different indices
  have hidx : (ino' - 1) % V.geom.inodesPerGroup ≠ (ino - 1) % V.geom.inodesPerGroup := by
    intro heq
    have h1 := Nat.div_add_mod (ino - 1) V.geom.inodesPerGroup
    have h2 := Nat.div_add_mod (ino' - 1) V.geom.inodesPerGroup
    have hg : (ino' - 1) / V.geom.inodesPerGroup = (ino - 1) / V.geom.inodesPerGroup := hgroup
    rw [hg] at h2
    have := hino.1
    have := hino'.1
    omega
  have hoff : V.geom.inodeOffset ino + V.geom.inodeSize ≤ V.geom.inodeOffset ino' ∨
      V.geom.inodeOffset ino' + V.geom.inodeSize ≤ V.geom.inodeOffset ino := by
    unfold Ext2Geometry.inodeOffset
    rw [← Nat.succ_mul, ← Nat.succ_mul]
    obtain hlt | hlt := Nat.lt_or_gt_of_ne hidx
    · exact .inr (Nat.mul_le_mul_right _ hlt)
    · exact .inl (Nat.mul_le_mul_right _ hlt)
  have h1 := Nat.div_add_mod (V.geom.inodeOffset ino) V.geom.blockSize
  have h2 := Nat.div_add_mod (V.geom.inodeOffset ino') V.geom.blockSize
  rw [hquot] at h2
  unfold Ext2Geometry.inodeInoff
  omega

theorem inodeAt_putInode_self (hi : i < sizeofInode) : (V.putInode ino n).inodeAt ino i = n i := by
  have hmin : min sizeofInode V.geom.inodeSize = sizeofInode := min_eq_left hl.inodeSize_le
  have hle := hl.inodeInoff_le ino
  rw [inodeAt, geom_putInode, hmin, if_pos hi, putInode, contents_put_self (by omega),
    if_pos ⟨Nat.le_add_right _ _, by omega⟩, Nat.add_sub_cancel_left]

theorem inodeAt_putInode_of_ne (hino : V.geom.ValidIno ino)
    (hino' : V.geom.ValidIno ino') (hne : ino' ≠ ino) :
    (V.putInode ino n).inodeAt ino' = V.inodeAt ino' := by
  funext i
  have hmin : min sizeofInode V.geom.inodeSize = sizeofInode := min_eq_left hl.inodeSize_le
  have hle := hl.inodeInoff_le ino'
  rw [inodeAt, inodeAt, geom_putInode, hmin]
  split
  · by_cases hblk : V.geom.inodeBlk ino' = V.geom.inodeBlk ino
    · have hap := inode_apart hl hino hino' hne hblk
      rw [putInode, hblk, contents_put_self (by omega), if_neg (by omega)]
    · rw [putInode, contents_put_of_ne hblk (by omega)]
  · rfl

end

/-! ## Paths -/

/-- A path of an index block can be made longer. -/
theorem valid_concat {slot j : Nat} {js : List Nat}
    (h : (⟨slot, js ++ [j]⟩ : BlockPath).Valid V.geom) :
    (⟨slot, js⟩ : BlockPath).Valid V.geom ∧ (⟨slot, js⟩ : BlockPath).IsIndex ∧
      j < V.geom.blockSize / 4 := by
  obtain ⟨hslot, hlen, hidx⟩ := h
  have hlt : js.length < BlockPath.depth slot := by
    have : (js ++ [j]).length = js.length + 1 := length_append
    dsimp only at hlen
    omega
  refine ⟨⟨hslot, le_of_lt hlt, fun k hk => ?_⟩, hlt, ?_⟩
  · exact hidx k (mem_append_left _ hk)
  · exact hidx j (mem_append_right _ mem_cons_self)

theorem pointer_congr {j : Nat} (hj : j < V.geom.blockSize / 4)
    (h : blk ≠ 0 → ∀ i < V.geom.blockSize, V'.contents blk i = V.contents blk i) :
    V'.pointer blk j = V.pointer blk j := by
  rw [pointer, pointer]
  split
  · rfl
  · next hne =>
    refine congrArg UInt32.toNat (word_congr fun i hi => h hne _ ?_)
    omega

/-- Where there is no pointer, there is no block. -/
theorem foldl_pointer_zero (js : List Nat) : js.foldl V.pointer 0 = 0 := by
  induction js with
  | nil => rfl
  | cons j js ih => exact ih

/-- The end of a path depends on the index blocks on the way. -/
theorem blockAt_congr (hp : p.Valid V.geom)
    (h : ∀ q : BlockPath, q.Valid V.geom → q.IsIndex → q.slot = p.slot → V.blockAt n q ≠ 0 →
      ∀ i < V.geom.blockSize, V'.contents (V.blockAt n q) i = V.contents (V.blockAt n q) i) :
    V'.blockAt n p = V.blockAt n p := by
  obtain ⟨slot, idx⟩ := p
  induction idx using List.reverseRecOn with
  | nil => rfl
  | append_singleton js j ih =>
    obtain ⟨hvalid, hindex, hj⟩ := valid_concat hp
    have hstep : ∀ W : Volume,
        W.blockAt n ⟨slot, js ++ [j]⟩ = W.pointer (W.blockAt n ⟨slot, js⟩) j :=
      fun W => foldl_append
    rw [hstep, hstep, ih hvalid h]
    exact pointer_congr hj (h _ hvalid hindex rfl)

/-! ## Changes that leave the files -/

/-- Inodes and index blocks stay, and no block loses its mark. -/
structure Frame (V V' : Volume) : Prop where
  geom : V'.geom = V.geom
  inode : ∀ ino, V.geom.ValidIno ino → V'.inodeAt ino = V.inodeAt ino
  index : ∀ {ino p blk}, V.Refers ino p blk → p.IsIndex →
    ∀ i < V.geom.blockSize, V'.contents blk i = V.contents blk i
  bit : ∀ blk, V.geom.InRange blk → V.blockBit blk = true → V'.blockBit blk = true

namespace Frame

section

variable (h : Frame V V')
include h

theorem isFile_iff : V'.IsFile ino ↔ V.IsFile ino := by
  rw [IsFile, h.geom]
  exact and_congr_right fun hino => by rw [h.inode ino hino]

/-- The paths of a file end where they did. -/
theorem blockAt_eq (hino : V.IsFile ino) (hp : p.Valid V.geom) :
    V'.blockAt (V.inodeAt ino) p = V.blockAt (V.inodeAt ino) p :=
  blockAt_congr hp fun _ hq hindex _ hne => h.index ⟨hino, hq, rfl, hne⟩ hindex

theorem refers_iff : V'.Refers ino p blk ↔ V.Refers ino p blk := by
  constructor
  · rintro ⟨hfile, hvalid, hat, hne⟩
    rw [h.isFile_iff] at hfile
    rw [h.geom] at hvalid
    rw [h.inode ino hfile.1, h.blockAt_eq hfile hvalid] at hat
    exact ⟨hfile, hvalid, hat, hne⟩
  · rintro ⟨hfile, hvalid, hat, hne⟩
    refine ⟨h.isFile_iff.2 hfile, h.geom ▸ hvalid, ?_, hne⟩
    rw [h.inode ino hfile.1, h.blockAt_eq hfile hvalid, hat]

theorem consistent (hc : V.Consistent) : V'.Consistent where
  layout := h.geom ▸ hc.layout
  first := h.geom ▸ hc.first
  inRange hr := h.geom ▸ hc.inRange (h.refers_iff.1 hr)
  used hr := h.bit _ (hc.inRange (h.refers_iff.1 hr)) (hc.used (h.refers_iff.1 hr))
  data hr := h.geom ▸ hc.data (h.refers_iff.1 hr)
  unique hr hr' := hc.unique (h.refers_iff.1 hr) (h.refers_iff.1 hr')
  metaUsed hm hin := by
    rw [h.geom] at hm hin
    exact h.bit _ hin (hc.metaUsed hm hin)

theorem spare (hs : V.Spare blk) : V'.Spare blk where
  ne := hs.ne
  inRange := h.geom ▸ hs.inRange
  used := h.bit _ hs.inRange hs.used
  data := h.geom ▸ hs.data
  fresh ino p hr := hs.fresh ino p (h.refers_iff.1 hr)

/-- An inode that could be written still can. -/
theorem extends_mono (he : V.Extends ino n) : V'.Extends ino n := by
  refine ⟨fun hn i hi => ?_, fun hn i hi j hj hs heq => ?_⟩
  · obtain h0 | ⟨hfile, hold⟩ | ⟨hlt, hs⟩ := he.ptr hn i hi
    · exact .inl h0
    · exact .inr (.inl ⟨h.isFile_iff.2 hfile, by rw [h.inode ino hfile.1]; exact hold⟩)
    · exact .inr (.inr ⟨hlt, h.spare hs⟩)
  · -- what is spare now was spare before
    obtain h0 | ⟨hfile, hold⟩ | ⟨-, hs'⟩ := he.ptr hn i (by omega)
    · exact absurd (congrArg UInt32.toNat h0) hs.ne
    · have hr : V.Refers ino ⟨i, []⟩ (n.block i).toNat :=
        ⟨hfile, BlockPath.valid_slot (by omega), by rw [hold]; rfl, hs.ne⟩
      exact absurd (h.refers_iff.2 hr) (hs.fresh _ _)
    · exact he.inj hn i hi j hj hs' heq

end

end Frame

/-! ## Writes that are such changes -/

section

variable (hl : Layout V.geom) (hgeom : V'.geom = V.geom)
include hl hgeom

theorem inodeAt_congr
    (h : ∀ i < V.geom.blockSize,
      V'.contents (V.geom.inodeBlk ino) i = V.contents (V.geom.inodeBlk ino) i) :
    V'.inodeAt ino = V.inodeAt ino := by
  funext i
  have hle := hl.inodeInoff_le ino
  rw [inodeAt, inodeAt, hgeom]
  split
  · exact h _ (by omega)
  · rfl

theorem blockBit_congr
    (h : ∀ i < V.geom.blockSize,
      V'.contents (V.geom.blockBitmap ((blk - V.geom.firstDataBlock) / V.geom.blocksPerGroup)) i
        = V.contents
          (V.geom.blockBitmap ((blk - V.geom.firstDataBlock) / V.geom.blocksPerGroup)) i) :
    V'.blockBit blk = V.blockBit blk := by
  rw [blockBit, hgeom]
  refine Bitmap.get_congr h (lt_of_lt_of_le (Nat.mod_lt _ hl.blocks_pos) hl.blocks_le)

/-- One block changes that is no index block and not in an inode table. -/
theorem Frame.of_contents
    (hother : ∀ b, b ≠ blk → ∀ i < V.geom.blockSize, V'.contents b i = V.contents b i)
    (hindex : ∀ ino p, V.Refers ino p blk → ¬ p.IsIndex)
    (htable : ∀ g j, (MetaLoc.inodeTable g j).Valid V.geom → V.geom.inodeTable g + j ≠ blk)
    (hbit : ∀ b, V.geom.InRange b → V.blockBit b = true → V'.blockBit b = true) : Frame V V' where
  geom := hgeom
  inode ino hino := inodeAt_congr hl hgeom fun i hi =>
    hother _ (htable _ _ (hl.inodeTable_valid hino)) i hi
  index {ino p b} hr hidx i hi := by
    refine hother b (fun heq => ?_) i hi
    exact hindex ino p (heq ▸ hr) hidx
  bit := hbit

end

/-- A block of data is written. -/
theorem Frame.putData (hl : Layout V.geom) (hdata : ¬ V.geom.IsMeta blk)
    (hindex : ∀ ino p, V.Refers ino p blk → ¬ p.IsIndex) : Frame V (V.put blk buf) := by
  refine Frame.of_contents hl rfl (fun b hb i hi => contents_put_of_ne hb hi) hindex ?_ ?_
  · exact fun g j hloc heq => hdata ⟨_, hloc, heq⟩
  · intro b hb hset
    have hsame : (V.put blk buf).blockBit b = V.blockBit b :=
      blockBit_congr hl rfl
        fun i hi => contents_put_of_ne (fun heq => hdata ⟨.blockBitmap _, hb.2, heq⟩) hi
    rw [hsame, hset]

section

variable (hc : V.Consistent)
include hc

/-- A piece of metadata is written that is no block bitmap and not in an inode
table. -/
theorem Frame.of_meta (hgeom : V'.geom = V.geom) (loc : MetaLoc) (hloc : loc.Valid V.geom)
    (hother : ∀ b, b ≠ loc.blk V.geom → ∀ i < V.geom.blockSize, V'.contents b i = V.contents b i)
    (hb : ∀ g, loc ≠ .blockBitmap g) (ht : ∀ g j, loc ≠ .inodeTable g j) : Frame V V' := by
  refine Frame.of_contents hc.layout hgeom hother ?_ ?_ ?_
  · exact fun ino p hr => absurd ⟨loc, hloc, rfl⟩ (hc.data hr)
  · exact fun g j hvalid heq => ht g j (hc.layout.apart hloc hvalid heq.symm)
  · intro b hin hset
    rw [blockBit_congr hc.layout hgeom fun i hi => hother _ (fun heq => ?_) i hi]
    · exact hset
    · exact hb _ (hc.layout.apart hloc hin.2 heq.symm)

theorem Frame.putMeta (loc : MetaLoc) (hloc : loc.Valid V.geom)
    (hblk : loc.blk V.geom = blk) (hb : ∀ g, loc ≠ .blockBitmap g)
    (ht : ∀ g j, loc ≠ .inodeTable g j) : Frame V (V.put blk buf) := by
  subst hblk
  exact Frame.of_meta hc rfl loc hloc (fun b hne i hi => contents_put_of_ne hne hi) hb ht

theorem Frame.putSuper : Frame V (V.putSuper buf) :=
  Frame.of_meta hc rfl .superblock trivial
    (fun _ hne _ hi => contents_putSuper hc.layout hne hi) (fun _ h => by cases h)
    fun _ _ h => by cases h

end

/-- The bit of a block is set. -/
def mark (V : Volume) (g bit : Nat) : Volume :=
  V.put (V.geom.blockBitmap g) (Bitmap.set (V.contents (V.geom.blockBitmap g)) bit)

/-- The block of a bit is in range, and the bit is that of the block. -/
theorem inRange_blockOf {g bit : Nat} (hg : g < V.geom.groups)
    (hbit : bit < V.geom.blocksPerGroup) :
    V.geom.InRange (V.geom.blockOf g bit) ∧
      (V.geom.blockOf g bit - V.geom.firstDataBlock) / V.geom.blocksPerGroup = g ∧
      (V.geom.blockOf g bit - V.geom.firstDataBlock) % V.geom.blocksPerGroup = bit := by
  have hrel : V.geom.blockOf g bit - V.geom.firstDataBlock = bit + V.geom.blocksPerGroup * g := by
    rw [Ext2Geometry.blockOf, mul_comm]
    omega
  have hdiv : (V.geom.blockOf g bit - V.geom.firstDataBlock) / V.geom.blocksPerGroup = g := by
    rw [hrel, Nat.add_mul_div_left _ _ (by omega), Nat.div_eq_of_lt hbit, zero_add]
  refine ⟨⟨?_, hdiv.symm ▸ hg⟩, hdiv, ?_⟩
  · unfold Ext2Geometry.blockOf
    omega
  · rw [hrel, Nat.add_mul_mod_self_left, Nat.mod_eq_of_lt hbit]

/-- A block is told by its group and its bit. -/
theorem eq_blockOf (hin : V.geom.InRange blk) :
    blk = V.geom.blockOf ((blk - V.geom.firstDataBlock) / V.geom.blocksPerGroup)
      ((blk - V.geom.firstDataBlock) % V.geom.blocksPerGroup) := by
  have hdiv := Nat.div_add_mod (blk - V.geom.firstDataBlock) V.geom.blocksPerGroup
  have hle := hin.1
  rw [Ext2Geometry.blockOf, mul_comm ((blk - _) / _)]
  omega

/-- Marking a block sets its own bit. -/
theorem blockBit_mark {g bit : Nat} (hl : Layout V.geom) (hg : g < V.geom.groups)
    (hbit : bit < V.geom.blocksPerGroup) (hin : V.geom.InRange blk) :
    (V.mark g bit).blockBit blk = (decide (blk = V.geom.blockOf g bit) || V.blockBit blk) := by
  obtain ⟨-, hgrp, hmod⟩ := inRange_blockOf hg hbit
  have hlt : (blk - V.geom.firstDataBlock) % V.geom.blocksPerGroup < 8 * V.geom.blockSize :=
    lt_of_lt_of_le (Nat.mod_lt _ hl.blocks_pos) hl.blocks_le
  by_cases heq : (blk - V.geom.firstDataBlock) / V.geom.blocksPerGroup = g
  · have hget : (V.mark g bit).blockBit blk = Bitmap.get
        (Bitmap.set (V.contents (V.geom.blockBitmap g)) bit)
        ((blk - V.geom.firstDataBlock) % V.geom.blocksPerGroup) := by
      rw [blockBit, mark, geom_put, heq]
      exact Bitmap.get_congr (fun i hi => contents_put_self hi) hlt
    have hiff : (blk - V.geom.firstDataBlock) % V.geom.blocksPerGroup = bit ↔
        blk = V.geom.blockOf g bit := by
      constructor
      · intro h
        rw [eq_blockOf hin, heq, h]
      · rintro rfl
        exact hmod
    rw [hget, Bitmap.get_set, blockBit, heq, decide_eq_decide.2 hiff]
  · have hne : blk ≠ V.geom.blockOf g bit := fun h => heq (h ▸ hgrp)
    rw [decide_eq_false hne]
    refine blockBit_congr hl rfl fun i hi => contents_put_of_ne (fun h => heq ?_) hi
    have hloc := hl.apart (a := .blockBitmap _) (b := .blockBitmap g) hin.2 hg h
    exact MetaLoc.blockBitmap.inj hloc

theorem Frame.mark {g bit : Nat} (hc : V.Consistent) (hg : g < V.geom.groups)
    (hbit : bit < V.geom.blocksPerGroup) : Frame V (V.mark g bit) := by
  refine Frame.of_contents hc.layout rfl (fun b hb i hi => contents_put_of_ne hb hi) ?_ ?_ ?_
  · exact fun ino p hr => absurd ⟨.blockBitmap g, hg, rfl⟩ (hc.data hr)
  · intro g' j hvalid heq
    cases hc.layout.apart (b := .blockBitmap g) hvalid hg heq
  · intro b hin hset
    rw [blockBit_mark hc.layout hg hbit hin, hset, Bool.or_true]

/-- Block 0 has no bit, or that of the superblock. -/
theorem Consistent.ne_zero (hc : V.Consistent) (hin : V.geom.InRange blk)
    (hclear : V.blockBit blk = false) : blk ≠ 0 := by
  rintro rfl
  have hfirst := hc.first
  have hle := hin.1
  have hbig : ¬ V.geom.blockSize = 1024 := fun h => by
    rw [if_pos h] at hfirst
    omega
  have hmeta : V.geom.IsMeta 0 := ⟨.superblock, trivial, Nat.div_eq_of_lt (by
    obtain h | h | h := hc.layout.blockSize <;> omega)⟩
  rw [hc.metaUsed hmeta hin] at hclear
  cases hclear

/-- A free block that is marked is spare. -/
theorem spare_mark {g bit : Nat} (hc : V.Consistent) (hg : g < V.geom.groups)
    (hbit : bit < V.geom.blocksPerGroup) (hclear : V.blockBit (V.geom.blockOf g bit) = false) :
    (V.mark g bit).Spare (V.geom.blockOf g bit) := by
  have hin := (inRange_blockOf hg hbit).1
  refine ⟨hc.ne_zero hin hclear, hin, ?_, fun hm => ?_, fun ino p hr => ?_⟩
  · rw [blockBit_mark hc.layout hg hbit hin, decide_eq_true rfl, Bool.true_or]
  · rw [hc.metaUsed hm hin] at hclear
    cases hclear
  · rw [hc.used ((Frame.mark hc hg hbit).refers_iff.1 hr)] at hclear
    cases hclear

/-! ## An inode is written -/

section

variable (hl : Layout V.geom)
include hl

theorem block_putInode_self (hi : i < 15) : ((V.putInode ino n).inodeAt ino).block i = n.block i :=
  word_congr fun _ hk => inodeAt_putInode_self hl (by rw [sizeofInode]; omega)

theorem mode_putInode_self : ((V.putInode ino n).inodeAt ino).mode = n.mode :=
  half_congr fun _ hk => inodeAt_putInode_self hl (by rw [sizeofInode]; omega)

theorem contents_putInode (hino : V.geom.ValidIno ino)
    (hdata : ¬ V.geom.IsMeta blk) (hi : i < V.geom.blockSize) :
    (V.putInode ino n).contents blk i = V.contents blk i := by
  refine contents_put_of_ne (fun h => hdata ?_) hi
  exact ⟨.inodeTable _ _, hl.inodeTable_valid hino, h.symm⟩

theorem blockBit_putInode (hino : V.geom.ValidIno ino)
    (hin : V.geom.InRange blk) : (V.putInode ino n).blockBit blk = V.blockBit blk := by
  refine blockBit_congr hl rfl fun i hi => contents_put_of_ne (fun h => ?_) hi
  cases hl.apart (a := .blockBitmap _) hin.2 (hl.inodeTable_valid hino) h

end

/-- What a volume refers to after an inode was written: what it referred to before,
or a spare block of the inode. -/
theorem refers_putInode (hc : V.Consistent) (hino : V.geom.ValidIno ino) (he : V.Extends ino n)
    (hr : (V.putInode ino n).Refers ino' p blk) :
    V.Refers ino' p blk ∨
      (ino' = ino ∧ n.IsFile ∧ p.slot < 12 ∧ p = ⟨p.slot, []⟩ ∧ (n.block p.slot).toNat = blk ∧
        V.Spare blk) := by
  obtain ⟨⟨hino', htype⟩, hvalid, hat, hne⟩ := hr
  obtain rfl | heq := eq_or_ne ino' ino
  · rw [Ext2Inode.IsFile, Ext2Inode.isReg, Ext2Inode.isDir, mode_putInode_self hc.layout] at htype
    have hstart : ∀ W : Volume, W.blockAt ((V.putInode ino' n).inodeAt ino') p = W.blockAt n p :=
      fun W => by rw [blockAt, blockAt, block_putInode_self hc.layout hvalid.1]
    rw [hstart] at hat
    obtain h0 | ⟨hfile, hold⟩ | ⟨hlt, hs⟩ := he.ptr htype p.slot hvalid.1
    · rw [blockAt, h0] at hat
      exact absurd (hat.symm.trans (foldl_pointer_zero p.idx)) hne
    · refine .inl ⟨hfile, hvalid, ?_, hne⟩
      have hsame : ∀ q : BlockPath, q.slot = p.slot →
          V.blockAt n q = V.blockAt (V.inodeAt ino') q := fun q hq => by
        rw [blockAt, blockAt, hq, hold]
      rw [← hsame p rfl, ← hat]
      refine (blockAt_congr (V := V) hvalid fun q hq _ hslot hqne i hi => ?_).symm
      have hindex : V.Refers ino' q (V.blockAt n q) := ⟨hfile, hq, (hsame q hslot).symm, hqne⟩
      exact contents_putInode hc.layout hino' (hc.data hindex) hi
    · have hidx : p.idx = [] := by
        have hlen : p.idx.length ≤ p.slot - 11 := hvalid.2.1
        exact eq_nil_of_length_eq_zero (by omega)
      rw [blockAt, hidx] at hat
      have hblk : (n.block p.slot).toNat = blk := hat
      exact .inr ⟨rfl, htype, hlt, by rw [← hidx], hblk, hblk ▸ hs⟩
  · have hsame := inodeAt_putInode_of_ne (n := n) hc.layout hino hino' heq
    rw [hsame] at htype hat
    refine .inl ⟨⟨hino', htype⟩, hvalid, ?_, hne⟩
    rw [← hat]
    refine (blockAt_congr (V := V) hvalid fun q hq _ _ hqne i hi => ?_).symm
    have hindex : V.Refers ino' q _ := ⟨⟨hino', htype⟩, hq, rfl, hqne⟩
    exact contents_putInode hc.layout hino (hc.data hindex) hi

/-- A spare block is referred to by one slot. -/
theorem Consistent.putInode (hc : V.Consistent) (hino : V.geom.ValidIno ino)
    (he : V.Extends ino n) : (V.putInode ino n).Consistent where
  layout := hc.layout
  first := hc.first
  inRange hr := by
    obtain h | ⟨-, -, -, -, -, hs⟩ := refers_putInode hc hino he hr
    · exact hc.inRange h
    · exact hs.inRange
  used hr := by
    obtain h | ⟨-, -, -, -, -, hs⟩ := refers_putInode hc hino he hr
    · exact (blockBit_putInode hc.layout hino (hc.inRange h)).trans (hc.used h)
    · exact (blockBit_putInode hc.layout hino hs.inRange).trans hs.used
  data hr := by
    obtain h | ⟨-, -, -, -, -, hs⟩ := refers_putInode hc hino he hr
    · exact hc.data h
    · exact hs.data
  unique {ino1 p1 ino2 p2 blk} hr hr' := by
    obtain h | ⟨rfl, hn, hlt, hp, hblk, hs⟩ := refers_putInode hc hino he hr <;>
      obtain h' | ⟨rfl, -, hlt', hp', hblk', hs'⟩ := refers_putInode hc hino he hr'
    · exact hc.unique h h'
    · exact absurd h (hs'.fresh _ _)
    · exact absurd h' (hs.fresh _ _)
    · refine ⟨rfl, ?_⟩
      have hslot := he.inj hn _ hlt _ hlt' (hblk.symm ▸ hs)
        (UInt32.toNat_inj.1 (hblk.trans hblk'.symm))
      rw [hp, hp', hslot]
  metaUsed hm hin := (blockBit_putInode hc.layout hino hin).trans (hc.metaUsed hm hin)

/-! ## Inodes in memory -/

namespace Extends

/-- The inode as it is on the device. -/
theorem refl (hino : V.geom.ValidIno ino) : V.Extends ino (V.inodeAt ino) where
  ptr hn i _ := .inr (.inl ⟨⟨hino, hn⟩, rfl⟩)
  inj hn i hi _ _ hs _ :=
    absurd ⟨⟨hino, hn⟩, BlockPath.valid_slot (by omega), rfl, hs.ne⟩ (hs.fresh ino ⟨i, []⟩)

theorem none (h : ∀ i < 15, n.block i = 0) : V.Extends ino n where
  ptr _ i hi := .inl (h i hi)
  inj _ i hi _ _ hs _ := absurd (congrArg UInt32.toNat (h i (by omega))) hs.ne

/-- Pointers are dropped, and fields change that are none. -/
theorem sub {n' : Ext2Inode} (he : V.Extends ino n) (hmode : n'.mode = n.mode)
    (h : ∀ i < 15, n'.block i = n.block i ∨ n'.block i = 0) : V.Extends ino n' := by
  have hfile : n'.IsFile → n.IsFile := (Ext2Inode.isFile_congr hmode).1
  refine ⟨fun hn i hi => ?_, fun hn i hi j hj hs heq => ?_⟩
  · obtain hi' | hi' := h i hi
    · rw [hi']
      exact he.ptr (hfile hn) i hi
    · exact .inl hi'
  · obtain hi' | hi' := h i (by omega)
    · obtain hj' | hj' := h j (by omega)
      · rw [hi'] at hs heq
        exact he.inj (hfile hn) i hi j hj hs (heq.trans hj')
      · exact absurd (congrArg UInt32.toNat (heq.trans hj')) hs.ne
    · exact absurd (congrArg UInt32.toNat hi') hs.ne

theorem congr {n' : Ext2Inode} (he : V.Extends ino n) (hmode : n'.mode = n.mode)
    (h : ∀ i, n'.block i = n.block i) : V.Extends ino n' :=
  he.sub hmode fun i _ => .inl (h i)

end Extends

theorem Consistent.lt_of_inRange (hc : V.Consistent) (hin : V.geom.InRange blk) : blk < 2 ^ 32 := by
  have hfirst : V.geom.firstDataBlock ≤ 1 := by
    rw [hc.first]
    split <;> omega
  have hgroups := hc.layout.groups
  have hbpg : V.geom.blocksPerGroup ≤ 32768 := by
    have := hc.layout.blocks_le
    obtain h | h | h := hc.layout.blockSize <;> omega
  have hlt := (Nat.div_lt_iff_lt_mul hc.layout.blocks_pos).1 hin.2
  have hmul : V.geom.groups * V.geom.blocksPerGroup ≤ 64 * 32768 := Nat.mul_le_mul hgroups hbpg
  omega

/-- A free block is marked and goes into an empty slot. -/
theorem Extends.fill {g bit l : Nat} (he : V.Extends ino n) (hc : V.Consistent)
    (hg : g < V.geom.groups) (hbit : bit < V.geom.blocksPerGroup)
    (hclear : V.blockBit (V.geom.blockOf g bit) = false) (hl : l < 12) :
    (V.mark g bit).Extends ino (n.setBlock l (UInt32.ofNat (V.geom.blockOf g bit))) := by
  have hin := (inRange_blockOf hg hbit).1
  have hblk : (UInt32.ofNat (V.geom.blockOf g bit)).toNat = V.geom.blockOf g bit :=
    UInt32.toNat_ofNat_of_lt' (hc.lt_of_inRange hin)
  have hspare := spare_mark hc hg hbit hclear
  have hmono := (Frame.mark hc hg hbit).extends_mono he
  have hmode : ∀ {x}, (n.setBlock l x).IsFile → n.IsFile :=
    (Ext2Inode.isFile_congr Ext2Inode.mode_setBlock).1
  -- no other slot has the block: it was free
  have hother : n.IsFile → ∀ j < 12, (n.block j).toNat ≠ V.geom.blockOf g bit := by
    intro hn j hj heq
    obtain h0 | ⟨hfile, hold⟩ | ⟨-, hs⟩ := he.ptr hn j (by omega)
    · exact hspare.ne (heq.symm.trans (congrArg UInt32.toNat h0))
    · have hr : V.Refers ino ⟨j, []⟩ (V.geom.blockOf g bit) :=
        ⟨hfile, BlockPath.valid_slot (by omega), by rw [← heq, hold]; rfl, hspare.ne⟩
      rw [hc.used hr] at hclear
      cases hclear
    · rw [heq] at hs
      rw [hs.used] at hclear
      cases hclear
  refine ⟨fun hn i hi => ?_, fun hn i hi j hj hs heq => ?_⟩
  · rw [Ext2Inode.block_setBlock]
    split
    · next h =>
      rw [hblk]
      exact .inr (.inr ⟨h ▸ hl, hspare⟩)
    · exact hmono.ptr (hmode hn) i hi
  · rw [Ext2Inode.block_setBlock] at heq hs
    rw [Ext2Inode.block_setBlock] at heq
    by_cases hil : i = l <;> by_cases hjl : j = l
    · rw [hil, hjl]
    · rw [if_pos hil, if_neg hjl] at heq
      exact absurd (hblk ▸ congrArg UInt32.toNat heq.symm) (hother (hmode hn) j hj)
    · rw [if_neg hil, if_pos hjl] at heq
      exact absurd (hblk ▸ congrArg UInt32.toNat heq) (hother (hmode hn) i hi)
    · rw [if_neg hil, if_neg hjl] at heq
      rw [if_neg hil] at hs
      exact hmono.inj (hmode hn) i hi j hj hs heq

/-- A block of data: neither metadata nor an index block. -/
structure Writable (V : Volume) (blk : Nat) : Prop where
  data : ¬ V.geom.IsMeta blk
  leaf : ∀ ino p, V.Refers ino p blk → ¬ p.IsIndex

theorem Spare.writable (h : V.Spare blk) : V.Writable blk :=
  ⟨h.data, fun ino p hr => absurd hr (h.fresh ino p)⟩

/-- The first twelve pointers of a file lead to data. -/
theorem Extends.writable {l : Nat} (he : V.Extends ino n) (hc : V.Consistent) (hn : n.IsFile)
    (hl : l < 12) (h0 : n.block l ≠ 0) : V.Writable (n.block l).toNat := by
  obtain h | ⟨hfile, hold⟩ | ⟨-, hs⟩ := he.ptr hn l (by omega)
  · exact absurd h h0
  · have hr : V.Refers ino ⟨l, []⟩ (n.block l).toNat :=
      ⟨hfile, BlockPath.valid_slot (by omega), by rw [hold]; rfl,
        fun h => h0 (UInt32.toNat_inj.1 h)⟩
    refine ⟨hc.data hr, fun ino' p hr' => ?_⟩
    obtain ⟨-, rfl⟩ := hc.unique hr hr'
    exact BlockPath.not_isIndex_slot hl
  · exact hs.writable

theorem Writable.frame (h : V.Writable blk) (hc : V.Consistent) : Frame V (V.put blk buf) :=
  Frame.putData hc.layout h.data h.leaf

end Volume

end UnixOs
