import Mathlib.Algebra.BigOperators.Intervals
import Mathlib.Algebra.Order.BigOperators.Group.Finset
import UnixOs.Fs.Ext2Layout
import UnixOs.Lib.Run

/-!
# The free counts of ext2

The counters are in memory and the bitmaps on the device, and a bitmap is written
before its counters follow. So the two agree after every function, however the
requests to the device end: where the write of a bitmap fails, neither changes.
-/

namespace UnixOs

open List Machine Bitmap

open BlockDevice Bytes ErrState

/-- A sum over a range of which one term changes. -/
theorem sum_range_change (f f' : Nat → Nat) {n g : Nat} (hg : g < n)
    (hother : ∀ j, j ≠ g → f' j = f j) :
    (∑ j ∈ Finset.range n, f' j) + f g = (∑ j ∈ Finset.range n, f j) + f' g := by
  have hmem : g ∈ Finset.range n := Finset.mem_range.2 hg
  have hrest : ∑ j ∈ (Finset.range n).erase g, f' j = ∑ j ∈ (Finset.range n).erase g, f j :=
    Finset.sum_congr rfl fun j hj => hother j (Finset.ne_of_mem_erase hj)
  rw [← Finset.add_sum_erase _ f' hmem, ← Finset.add_sum_erase _ f hmem]
  omega

namespace Ext2

section

variable (s : Ext2)

/-- The clear bits of the block bitmap of a group on the device. -/
def clearBlocks (g : Nat) : Nat :=
  clearCount (fun _ => true) s.blocksPerGroup (s.contents (s.blockBitmap g))

/-- The clear bits of the inode bitmap of a group that the allocator may take. -/
def clearInodes (g : Nat) : Nat :=
  clearCount (s.allocatableInode g) s.inodesPerGroup (s.contents (s.inodeBitmap g))

/-- The counters in memory agree with the bitmaps, and the totals with the
counters. -/
structure Accounted : Prop where
  blocks : ∀ g < s.groups, (s.freeBlocks g).toNat = s.clearBlocks g
  inodes : ∀ g < s.groups, (s.freeInodes g).toNat = s.clearInodes g
  blocksTotal : s.freeBlocksTotal.toNat = ∑ g ∈ Finset.range s.groups, (s.freeBlocks g).toNat
  inodesTotal : s.freeInodesTotal.toNat = ∑ g ∈ Finset.range s.groups, (s.freeInodes g).toNat

end

variable {s s' : Ext2} {g g' bit blk ino : Nat} {buf : Nat → UInt8}

/-! ## The counters -/

theorem freeBlocks_addFreeBlocks (a : UInt16) (b : UInt32) (g' : Nat) :
    (s.addFreeBlocks g a b).freeBlocks g'
      = if g' = g then s.freeBlocks g + a else s.freeBlocks g' := by
  by_cases h : g' = g
  · subst h
    rw [if_pos rfl]
    exact half_putHalf_self _
  · rw [if_neg h]
    refine half_putHalf_of_ne ?_
    rw [sizeofGroupDesc]
    omega

theorem freeInodes_addFreeBlocks (a : UInt16) (b : UInt32) (g' : Nat) :
    (s.addFreeBlocks g a b).freeInodes g' = s.freeInodes g' := by
  refine half_putHalf_of_ne ?_
  rw [sizeofGroupDesc]
  omega

theorem freeBlocksTotal_addFreeBlocks (a : UInt16) (b : UInt32) :
    (s.addFreeBlocks g a b).freeBlocksTotal = s.freeBlocksTotal + b :=
  word_putWord_self _

theorem freeInodesTotal_addFreeBlocks (a : UInt16) (b : UInt32) :
    (s.addFreeBlocks g a b).freeInodesTotal = s.freeInodesTotal :=
  word_putWord_of_ne (by decide)

theorem freeInodes_takeFreeInode (g' : Nat) :
    (s.takeFreeInode g).freeInodes g' = if g' = g then s.freeInodes g - 1 else s.freeInodes g' := by
  by_cases h : g' = g
  · subst h
    rw [if_pos rfl]
    exact half_putHalf_self _
  · rw [if_neg h]
    refine half_putHalf_of_ne ?_
    rw [sizeofGroupDesc]
    omega

theorem freeBlocks_takeFreeInode (g' : Nat) :
    (s.takeFreeInode g).freeBlocks g' = s.freeBlocks g' := by
  refine half_putHalf_of_ne ?_
  rw [sizeofGroupDesc]
  omega

theorem freeInodesTotal_takeFreeInode :
    (s.takeFreeInode g).freeInodesTotal = s.freeInodesTotal - 1 :=
  word_putWord_self _

theorem freeBlocksTotal_takeFreeInode : (s.takeFreeInode g).freeBlocksTotal = s.freeBlocksTotal :=
  word_putWord_of_ne (by decide)

theorem freeBlocks_addUsedDir (g' : Nat) : (s.addUsedDir g).freeBlocks g' = s.freeBlocks g' := by
  refine half_putHalf_of_ne ?_
  rw [sizeofGroupDesc]
  omega

theorem freeInodes_addUsedDir (g' : Nat) : (s.addUsedDir g).freeInodes g' = s.freeInodes g' := by
  refine half_putHalf_of_ne ?_
  rw [sizeofGroupDesc]
  omega

/-! ## The bitmaps -/

theorem contents_store_self {i : Nat} (hi : i < s.blockSize) :
    (s.store blk buf).contents blk i = buf i :=
  Image.block_putBlock_self hi

theorem contents_store_of_ne {blk' i : Nat} (hne : blk' ≠ blk) (hi : i < s.blockSize) :
    (s.store blk buf).contents blk' i = s.contents blk' i :=
  Image.block_putBlock_of_ne hne hi

/-- The write of the superblock leaves every other block. -/
theorem contents_putSuper {i : Nat} (hl : Layout s.geom) (hne : blk ≠ 1024 / s.blockSize)
    (hi : i < s.blockSize) :
    (s.stored (s.image.putBlock 1024 1 buf)).contents blk i = s.contents blk i := by
  refine Image.putBlock_of_not ?_
  have hbs : s.blockSize = 1024 ∨ s.blockSize = 2048 ∨ s.blockSize = 4096 := hl.blockSize
  show ¬ (1 * 1024 ≤ blk * s.blockSize + i ∧ blk * s.blockSize + i < 1 * 1024 + 1024)
  obtain h | h | h := hbs <;> rw [h] at hne hi ⊢ <;> omega

section

variable (hgeom : s'.geom = s.geom)
include hgeom

theorem clearBlocks_congr (hl : Layout s.geom)
    (h : ∀ i < s.blockSize, s'.contents (s.blockBitmap g) i = s.contents (s.blockBitmap g) i) :
    s'.clearBlocks g = s.clearBlocks g := by
  have hbpg : s'.blocksPerGroup = s.blocksPerGroup := congrArg Ext2Geometry.blocksPerGroup hgeom
  have hmap : s'.blockBitmap g = s.blockBitmap g :=
    congrFun (congrArg Ext2Geometry.blockBitmap hgeom) g
  rw [clearBlocks, hbpg, hmap]
  exact clearCount_congr fun k hk _ =>
    get_congr h (lt_of_lt_of_le hk hl.blocks_le)

theorem allocatableInode_congr : s'.allocatableInode g = s.allocatableInode g := by
  have hipg : s'.inodesPerGroup = s.inodesPerGroup := congrArg Ext2Geometry.inodesPerGroup hgeom
  have hrev : s'.revLevel = s.revLevel := congrArg Ext2Geometry.revLevel hgeom
  have hfirst : s'.firstIno = s.firstIno := congrArg Ext2Geometry.firstIno hgeom
  funext bit
  rw [allocatableInode, allocatableInode, hipg, hrev, hfirst]

theorem clearInodes_congr (hl : Layout s.geom)
    (h : ∀ i < s.blockSize, s'.contents (s.inodeBitmap g) i = s.contents (s.inodeBitmap g) i) :
    s'.clearInodes g = s.clearInodes g := by
  have hipg : s'.inodesPerGroup = s.inodesPerGroup := congrArg Ext2Geometry.inodesPerGroup hgeom
  have hmap : s'.inodeBitmap g = s.inodeBitmap g :=
    congrFun (congrArg Ext2Geometry.inodeBitmap hgeom) g
  rw [clearInodes, hipg, hmap, allocatableInode_congr hgeom]
  exact clearCount_congr fun k hk _ =>
    get_congr h (lt_of_lt_of_le hk hl.inodes_le)

end

theorem clearBlocks_le (hl : Layout s.geom) : s.clearBlocks g ≤ 32768 := by
  have hle : s.clearBlocks g ≤ s.blocksPerGroup := clearCount_le
  have hbpg : s.blocksPerGroup ≤ 8 * s.blockSize := hl.blocks_le
  have hbs : s.blockSize = 1024 ∨ s.blockSize = 2048 ∨ s.blockSize = 4096 := hl.blockSize
  omega

theorem contents_congr (hgeom : s'.geom = s.geom) (himg : s'.image = s.image) :
    s'.contents = s.contents := by
  have hbs : s'.blockSize = s.blockSize := congrArg Ext2Geometry.blockSize hgeom
  funext blk
  rw [contents, contents, hbs, himg]

/-- Where the bitmaps and the counters stay, the accounts do. -/
theorem Accounted.of_same (h : s.Accounted) (hl : Layout s.geom) (hgeom : s'.geom = s.geom)
    (hbl : ∀ g, s'.freeBlocks g = s.freeBlocks g) (hin : ∀ g, s'.freeInodes g = s.freeInodes g)
    (hblt : s'.freeBlocksTotal = s.freeBlocksTotal) (hint : s'.freeInodesTotal = s.freeInodesTotal)
    (hmaps : ∀ g < s.groups, ∀ i < s.blockSize,
      s'.contents (s.blockBitmap g) i = s.contents (s.blockBitmap g) i ∧
      s'.contents (s.inodeBitmap g) i = s.contents (s.inodeBitmap g) i) : s'.Accounted := by
  have hgroups : s'.groups = s.groups := congrArg Ext2Geometry.groups hgeom
  refine ⟨fun g hg => ?_, fun g hg => ?_, ?_, ?_⟩
  · rw [hgroups] at hg
    rw [hbl, h.blocks g hg, clearBlocks_congr hgeom hl fun i hi => (hmaps g hg i hi).1]
  · rw [hgroups] at hg
    rw [hin, h.inodes g hg, clearInodes_congr hgeom hl fun i hi => (hmaps g hg i hi).2]
  · simp only [hblt, hgroups, hbl]
    exact h.blocksTotal
  · simp only [hint, hgroups, hin]
    exact h.inodesTotal

/-! ## The changes -/

/-- The bit `bit` of block bitmap `g` changes to what `buf` has, the counters of the
group and the total follow. -/
theorem Accounted.changeBlocks (h : s.Accounted) (hl : Layout s.geom) (hg : g < s.groups)
    {a : UInt16} {b : UInt32}
    (hcount : (s.freeBlocks g + a).toNat = clearCount (fun _ => true) s.blocksPerGroup buf)
    (htotal : (s.freeBlocksTotal + b).toNat + (s.freeBlocks g).toNat
      = s.freeBlocksTotal.toNat + (s.freeBlocks g + a).toNat) :
    ((s.store (s.blockBitmap g) buf).addFreeBlocks g a b).Accounted := by
  generalize hs' : (s.store (s.blockBitmap g) buf).addFreeBlocks g a b = s'
  have hgeom : s'.geom = s.geom := by rw [← hs', geom_addFreeBlocks, geom_store]
  have hgroups : s'.groups = s.groups := congrArg Ext2Geometry.groups hgeom
  have hcont : s'.contents = (s.store (s.blockBitmap g) buf).contents :=
    hs' ▸ contents_congr geom_addFreeBlocks rfl
  have hfree : ∀ j, s'.freeBlocks j = if j = g then s.freeBlocks g + a else s.freeBlocks j :=
    hs' ▸ freeBlocks_addFreeBlocks a b
  have hin : ∀ j, s'.freeInodes j = s.freeInodes j := hs' ▸ freeInodes_addFreeBlocks a b
  refine ⟨fun j hj => ?_, fun j hj => ?_, ?_, ?_⟩
  · rw [hgroups] at hj
    rw [hfree]
    obtain rfl | hjg := eq_or_ne j g
    -- the bitmap that was stored
    · have hbpg : s'.blocksPerGroup = s.blocksPerGroup :=
        congrArg Ext2Geometry.blocksPerGroup hgeom
      have hmap : s'.blockBitmap j = s.blockBitmap j :=
        congrFun (congrArg Ext2Geometry.blockBitmap hgeom) j
      rw [if_pos rfl, hcount, clearBlocks, hbpg, hmap, hcont]
      exact clearCount_congr fun k hk _ => get_congr
        (fun i hi => (contents_store_self hi).symm) (lt_of_lt_of_le hk hl.blocks_le)
    -- the bitmap of another group is another block
    · have hne : s.blockBitmap j ≠ s.blockBitmap g := fun he => hjg (by
        have hloc := hl.apart (a := .blockBitmap j) (b := .blockBitmap g) hj hg he
        exact MetaLoc.blockBitmap.inj hloc)
      rw [if_neg hjg, h.blocks j hj]
      refine (clearBlocks_congr hgeom hl fun i hi => ?_).symm
      rw [hcont, contents_store_of_ne hne hi]
  · rw [hgroups] at hj
    -- and so are the bitmaps of the inodes
    have hne : s.inodeBitmap j ≠ s.blockBitmap g := fun he => by
      cases hl.apart (a := .inodeBitmap j) (b := .blockBitmap g) hj hg he
    rw [hin, h.inodes j hj]
    refine (clearInodes_congr hgeom hl fun i hi => ?_).symm
    rw [hcont, contents_store_of_ne hne hi]
  · have hsum := sum_range_change (fun j => (s.freeBlocks j).toNat)
      (fun j => (s'.freeBlocks j).toNat) hg fun j hj => by rw [hfree, if_neg hj]
    simp only [hfree g, if_pos] at hsum
    have hnew : s'.freeBlocksTotal = s.freeBlocksTotal + b :=
      hs' ▸ freeBlocksTotal_addFreeBlocks a b
    rw [hnew, hgroups]
    have htot := h.blocksTotal
    omega
  · have hsame : s'.freeInodesTotal = s.freeInodesTotal := hs' ▸ freeInodesTotal_addFreeBlocks a b
    simp only [hsame, hgroups, hin]
    exact h.inodesTotal

theorem toNat_add_neg_one₁₆ {x : UInt16} (h : 0 < x.toNat) : (x + -1).toNat = x.toNat - 1 := by
  have hlt := x.toNat_lt
  rw [UInt16.toNat_add, show (-1 : UInt16).toNat = 65535 from rfl]
  omega

theorem toNat_add_neg_one₃₂ {x : UInt32} (h : 0 < x.toNat) : (x + -1).toNat = x.toNat - 1 := by
  have hlt := x.toNat_lt
  rw [UInt32.toNat_add, show (-1 : UInt32).toNat = 4294967295 from rfl]
  omega

/-- A group's count is not more than the total. -/
theorem Accounted.freeBlocks_le (h : s.Accounted) (hg : g < s.groups) :
    (s.freeBlocks g).toNat ≤ s.freeBlocksTotal.toNat := by
  rw [h.blocksTotal]
  exact Finset.single_le_sum (f := fun g => (s.freeBlocks g).toNat) (fun _ _ => Nat.zero_le _)
    (Finset.mem_range.2 hg)

theorem Accounted.freeInodes_le (h : s.Accounted) (hg : g < s.groups) :
    (s.freeInodes g).toNat ≤ s.freeInodesTotal.toNat := by
  rw [h.inodesTotal]
  exact Finset.single_le_sum (f := fun g => (s.freeInodes g).toNat) (fun _ _ => Nat.zero_le _)
    (Finset.mem_range.2 hg)

section

variable (h : s.Accounted) (hl : Layout s.geom)
include h hl

section

variable (hg : g < s.groups)
include hg

theorem Accounted.takeBlock (hbit : bit < s.blocksPerGroup)
    (hclear : get (s.contents (s.blockBitmap g)) bit = false) : (s.takeBlock g bit).Accounted := by
  have hset := clearCount_set (p := fun _ => true) hbit rfl hclear
  have hcount := h.blocks g hg
  rw [clearBlocks] at hcount
  have hle := h.freeBlocks_le hg
  refine h.changeBlocks hl hg ?_ ?_
  · rw [toNat_add_neg_one₁₆ (by omega)]
    omega
  · rw [toNat_add_neg_one₁₆ (by omega), toNat_add_neg_one₃₂ (by omega)]
    omega

/-- Giving a block back clears its bit and counts it in the group and in the superblock. -/
theorem Accounted.giveBlock
    (hbit : bit < s.blocksPerGroup) (hset : get (s.contents (s.blockBitmap g)) bit = true) :
    (s.giveBlock g bit).Accounted := by
  have hclear := clearCount_clear (p := fun _ => true) hbit rfl hset
  have hcount := h.blocks g hg
  rw [clearBlocks] at hcount
  have hle : clearCount (fun _ => true) s.blocksPerGroup
      (clear (s.contents (s.blockBitmap g)) bit) ≤ s.blocksPerGroup := clearCount_le
  have hbpg : s.blocksPerGroup ≤ 8 * s.blockSize := hl.blocks_le
  have hbs : s.blockSize = 1024 ∨ s.blockSize = 2048 ∨ s.blockSize = 4096 := hl.blockSize
  -- 64 groups of at most 32768 blocks
  have htotal : s.freeBlocksTotal.toNat ≤ 64 * 32768 := by
    rw [h.blocksTotal]
    calc ∑ j ∈ Finset.range s.groups, (s.freeBlocks j).toNat
        ≤ ∑ _j ∈ Finset.range s.groups, 32768 := Finset.sum_le_sum fun j hj => by
          rw [h.blocks j (Finset.mem_range.1 hj)]
          exact clearBlocks_le hl
      _ = s.groups * 32768 := by rw [Finset.sum_const, Finset.card_range, Nat.nsmul_eq_mul]
      _ ≤ 64 * 32768 := Nat.mul_le_mul_right _ hl.groups
  have hone16 : (s.freeBlocks g + 1).toNat = (s.freeBlocks g).toNat + 1 := by
    rw [UInt16.toNat_add, show (1 : UInt16).toNat = 1 from rfl]
    omega
  have hone32 : (s.freeBlocksTotal + 1).toNat = s.freeBlocksTotal.toNat + 1 := by
    rw [UInt32.toNat_add, show (1 : UInt32).toNat = 1 from rfl]
    omega
  refine h.changeBlocks hl hg ?_ ?_
  · rw [hone16, hclear, hcount]
  · rw [hone16]
    omega

/-- Taking an inode sets its bit and counts it off in both places. -/
theorem Accounted.takeInode (hbit : bit < s.inodesPerGroup) (hp : s.allocatableInode g bit = true)
    (hclear : get (s.contents (s.inodeBitmap g)) bit = false) : (s.takeInode g bit).Accounted := by
  have hgroups : (s.takeInode g bit).groups = s.groups :=
    congrArg Ext2Geometry.groups geom_takeInode
  have hcont : (s.takeInode g bit).contents = (s.store (s.inodeBitmap g)
      (set (s.contents (s.inodeBitmap g)) bit)).contents :=
    contents_congr geom_takeFreeInode rfl
  have hset := clearCount_set hbit hp hclear
  have hcount := h.inodes g hg
  rw [clearInodes, hset] at hcount
  have hle := h.freeInodes_le hg
  have hone : (s.freeInodes g - 1).toNat = (s.freeInodes g).toNat - 1 :=
    UInt16.toNat_sub_of_le _ _ (by rw [UInt16.le_iff_toNat_le]; show 1 ≤ _; omega)
  have hone' : (s.freeInodesTotal - 1).toNat = s.freeInodesTotal.toNat - 1 :=
    UInt32.toNat_sub_of_le _ _ (by rw [UInt32.le_iff_toNat_le]; show 1 ≤ _; omega)
  have hfree : ∀ j, (s.takeInode g bit).freeInodes j
      = if j = g then s.freeInodes g - 1 else s.freeInodes j := freeInodes_takeFreeInode
  have hfree' : ∀ j, (s.takeInode g bit).freeBlocks j = s.freeBlocks j := freeBlocks_takeFreeInode
  refine ⟨fun j hj => ?_, fun j hj => ?_, ?_, ?_⟩
  · rw [hgroups] at hj
    have hne : s.blockBitmap j ≠ s.inodeBitmap g := fun he => by
      cases hl.apart (a := .blockBitmap j) (b := .inodeBitmap g) hj hg he
    rw [hfree', h.blocks j hj]
    refine (clearBlocks_congr geom_takeInode hl fun i hi => ?_).symm
    rw [hcont, contents_store_of_ne hne hi]
  · rw [hgroups] at hj
    rw [hfree]
    obtain rfl | hjg := eq_or_ne j g
    · have hipg : (s.takeInode j bit).inodesPerGroup = s.inodesPerGroup :=
        congrArg Ext2Geometry.inodesPerGroup geom_takeInode
      have hmap : (s.takeInode j bit).inodeBitmap j = s.inodeBitmap j :=
        congrFun (congrArg Ext2Geometry.inodeBitmap geom_takeInode) j
      rw [if_pos rfl, hone, hcount, Nat.add_sub_cancel, clearInodes, hipg, hmap, hcont,
        allocatableInode_congr geom_takeInode]
      exact clearCount_congr fun k hk _ => get_congr
        (fun i hi => (contents_store_self hi).symm) (lt_of_lt_of_le hk hl.inodes_le)
    · have hne : s.inodeBitmap j ≠ s.inodeBitmap g := fun he => hjg (by
        have hloc := hl.apart (a := .inodeBitmap j) (b := .inodeBitmap g) hj hg he
        exact MetaLoc.inodeBitmap.inj hloc)
      rw [if_neg hjg, h.inodes j hj]
      refine (clearInodes_congr geom_takeInode hl fun i hi => ?_).symm
      rw [hcont, contents_store_of_ne hne hi]
  · have htot : (s.takeInode g bit).freeBlocksTotal = s.freeBlocksTotal :=
      freeBlocksTotal_takeFreeInode
    simp only [htot, hgroups, hfree']
    exact h.blocksTotal
  · have hsum := sum_range_change (fun j => (s.freeInodes j).toNat)
      (fun j => ((s.takeInode g bit).freeInodes j).toNat) hg fun j hj => by rw [hfree, if_neg hj]
    have htot : (s.takeInode g bit).freeInodesTotal = s.freeInodesTotal - 1 :=
      freeInodesTotal_takeFreeInode
    have hold := h.inodesTotal
    simp only [hfree g, if_pos, hone] at hsum
    rw [htot, hgroups]
    omega

end

/-- A block of metadata that is no bitmap is written. -/
theorem Accounted.storeMeta (loc : MetaLoc) (hloc : loc.Valid s.geom) (hblk : loc.blk s.geom = blk)
    (hb : ∀ g, loc ≠ .blockBitmap g) (hi : ∀ g, loc ≠ .inodeBitmap g) :
    (s.store blk buf).Accounted := by
  refine h.of_same hl geom_store (fun _ => rfl) (fun _ => rfl) rfl rfl fun g hg i hlt => ?_
  constructor
  · refine contents_store_of_ne (fun he => hb g ?_) hlt
    exact (hl.apart (a := .blockBitmap g) hg hloc (he.trans hblk.symm)).symm
  · refine contents_store_of_ne (fun he => hi g ?_) hlt
    exact (hl.apart (a := .inodeBitmap g) hg hloc (he.trans hblk.symm)).symm

theorem Accounted.storeInode (hino : s.ValidIno ino)
    (n : Ext2Inode) : (s.storeInode ino n).Accounted :=
  h.storeMeta hl _ (hl.inodeTable_valid hino) rfl (fun _ he => by cases he) fun _ he => by cases he

theorem Accounted.putSuper (buf : Nat → UInt8) :
    (s.stored (s.image.putBlock 1024 1 buf)).Accounted := by
  refine h.of_same hl geom_stored (fun _ => rfl) (fun _ => rfl) rfl rfl fun g hg i hlt => ?_
  constructor
  · refine contents_putSuper hl (fun he => ?_) hlt
    cases hl.apart (a := .blockBitmap g) (b := .superblock) hg trivial he
  · refine contents_putSuper hl (fun he => ?_) hlt
    cases hl.apart (a := .inodeBitmap g) (b := .superblock) hg trivial he

theorem Accounted.addUsedDir (g : Nat) : (s.addUsedDir g).Accounted :=
  h.of_same hl geom_addUsedDir freeBlocks_addUsedDir freeInodes_addUsedDir rfl rfl
    fun _ _ _ _ => by
      exact ⟨rfl, rfl⟩

end

theorem Accounted.setFlags (h : s.Accounted) (a b : Bool) :
    { s with dirtySb := a, dirtyGdt := b }.Accounted :=
  ⟨h.blocks, h.inodes, h.blocksTotal, h.inodesTotal⟩

/-! ## The functions -/

/-- A file system of the geometry `G` with its accounts in order. -/
def Balanced (G : Ext2Geometry) (s : Ext2) : Prop := s.geom = G ∧ s.Accounted

section Functions

variable {G : Ext2Geometry}

theorem Balanced.withEnv (h : Balanced G s) (r : List Bool) (w : List Int) :
    Balanced G (s.withEnv r w) :=
  ⟨geom_withEnv.trans h.1, h.2.blocks, h.2.inodes, h.2.blocksTotal, h.2.inodesTotal⟩

variable (hl : Layout G)

include hl

theorem keeps_writeInode (n : Ext2Inode) : Keeps (Balanced G) (writeInode ino n) := by
  intro s hs
  obtain ⟨r, w, hino, hok⟩ | ⟨rc, r, w, -, herr⟩ := writeInode_cases s ino n
  · rw [hok]
    refine Balanced.withEnv ⟨geom_store.trans hs.1, ?_⟩ r w
    exact hs.2.storeInode (hs.1 ▸ hl) hino n
  · rw [herr]
    exact hs.withEnv r w

/-- The accounts do not look at what the sync writes. -/
theorem syncClosed_balanced : SyncClosed G (Balanced G) where
  geom hs := hs.1
  env r w hs := hs.withEnv r w
  flags a b hs := ⟨(geom_congr rfl rfl).trans hs.1, hs.2.setFlags a b⟩
  superblock buf hs := ⟨geom_stored.trans hs.1, hs.2.putSuper (hs.1 ▸ hl) buf⟩
  gdt {s i} buf hi hs := by
    refine ⟨geom_store.trans hs.1, hs.2.storeMeta (hs.1 ▸ hl) (.gdt i) ?_ ?_ ?_ ?_⟩
    · rw [hs.1]
      exact hi
    · rw [hs.1]
      rfl
    · exact fun _ he => by cases he
    · exact fun _ he => by cases he

theorem Balanced.takeBlock (hs : Balanced G s) (hg : g < s.groups) (hbit : bit < s.blocksPerGroup)
    (hclear : get (s.contents (s.blockBitmap g)) bit = false) : Balanced G (s.takeBlock g bit) :=
  ⟨geom_takeBlock.trans hs.1, hs.2.takeBlock (hs.1 ▸ hl) hg hbit hclear⟩

theorem keeps_reserveBlock : Keeps (Balanced G) (reserveBlock blk) := by
  intro s hs
  have hpos : 0 < s.blocksPerGroup := Layout.blocks_pos (G := s.geom) (hs.1 ▸ hl)
  obtain ⟨r, w, g, bit, hg, rfl, -, -, hclear, hok⟩ | ⟨r, w, hno⟩ := reserveBlock_cases s blk
  · rw [hok]
    exact (hs.takeBlock hl hg (Nat.mod_lt _ hpos) hclear).withEnv r w
  · rw [hno]
    exact hs.withEnv r w

theorem keeps_reserveBlocks (start count : Nat) :
    Keeps (Balanced G) (reserveBlocks start count) := by
  refine Keeps.bind (Keeps.foldlM (fun n i _ => ?_) 0) fun reserved => ?_
  · exact Keeps.bind (keeps_reserveBlock hl) fun _ => Keeps.ret
  · exact Keeps.iteThen (fun _ => (syncClosed_balanced hl).syncLocked) fun _ => Keeps.ret

theorem keeps_allocBlock : Keeps (Balanced G) allocBlock := by
  intro s hs
  have hgroups : 0 < s.groups := Layout.groups_pos (hs.1 ▸ hl)
  obtain ⟨r, w, bit, g, hg, hbit, -, hclear, hok⟩ | ⟨rc, r, w, -, herr⟩ :=
    allocBlockFrom_cases 0 (range' 1 (s.groups - 1)) s
  · have hlt : g < s.groups := by
      rw [mem_cons, mem_range'_1] at hg
      omega
    rw [allocBlock, run_get_bind, hok]
    exact (hs.takeBlock hl hlt hbit hclear).withEnv r w
  · rw [allocBlock, run_get_bind, herr]
    exact hs.withEnv r w

theorem keeps_allocInodeFrom {gs : List Nat} (hgs : ∀ g ∈ gs, g < G.groups) :
    Keeps (Balanced G) (allocInodeFrom gs) := by
  intro s hs
  obtain ⟨r, w, bit, g, hg, hbit, -, hp, hclear, hok⟩ | ⟨rc, r, w, -, herr⟩ :=
    allocInodeFrom_cases gs s
  · have hlt : g < s.groups := by
      have := hgs g hg
      rwa [← hs.1] at this
    rw [hok]
    refine Balanced.withEnv ⟨geom_takeInode.trans hs.1, ?_⟩ r w
    exact hs.2.takeInode (hs.1 ▸ hl) hlt hbit hp hclear
  · rw [herr]
    exact hs.withEnv r w

theorem keeps_allocInode (mode : UInt16) (now : UInt32) :
    Keeps (Balanced G) (allocInode mode now) := by
  refine Keeps.readBind fun s hs => Keeps.bind (keeps_allocInodeFrom hl fun g hg => ?_)
    fun ino => ?_
  · rw [← hs.1]
    exact mem_range.1 hg
  refine Keeps.bind (keeps_writeInode hl _) fun _ =>
    Keeps.iteThen (fun _ => Keeps.update fun s' hs' => ⟨geom_addUsedDir.trans hs'.1, ?_⟩)
      fun _ => ?_
  · exact hs'.2.addUsedDir (hs'.1 ▸ hl) _
  · exact Keeps.bind (syncClosed_balanced hl).syncLocked fun _ => Keeps.ret

theorem keeps_truncateBlock (n : Ext2Inode) (i : Nat) : Keeps (Balanced G) (truncateBlock n i) := by
  intro s hs
  have hpos : 0 < s.blocksPerGroup := Layout.blocks_pos (G := s.geom) (hs.1 ▸ hl)
  obtain ⟨r, w, g, bit, n', hg, rfl, -, -, hset, -, hok⟩ | ⟨r, w, n', -, hno⟩ :=
    truncateBlock_cases s n i
  · rw [hok]
    refine Balanced.withEnv ⟨geom_giveBlock.trans hs.1, ?_⟩ r w
    exact hs.2.giveBlock (hs.1 ▸ hl) hg (Nat.mod_lt _ hpos) hset
  · rw [hno]
    exact hs.withEnv r w

theorem keeps_inodeTruncate (newSize : Nat) (now : UInt32) :
    Keeps (Balanced G) (inodeTruncate ino newSize now) := by
  refine Keeps.readBind fun s _ => Keeps.ite (fun _ => Keeps.fail) fun _ => ?_
  refine Keeps.bind (Keeps.attempt (syncClosed_balanced hl).readInode) fun found => ?_
  cases found with
  | none => exact Keeps.fail
  | some n =>
    refine Keeps.bind (Keeps.foldlM (fun n i _ => keeps_truncateBlock hl n i) n) fun n' => ?_
    exact Keeps.bind (keeps_writeInode hl _) fun _ => (syncClosed_balanced hl).syncLocked

end Functions

/-! ## A small file system

One group of eight blocks of 1024 bytes and eight inodes; the blocks 1 to 5 are
metadata, and so is the first inode. -/

section Small

/-- `s_inodes_count`, `s_blocks_count`, the free counts, `s_first_data_block`,
`s_blocks_per_group` and `s_inodes_per_group`. -/
def smallSb : Image UInt8 := fun a =>
  ([(0, 8), (4, 8), (12, 3), (16, 7), (20, 1), (32, 8), (40, 8)].lookup a).getD 0

/-- The bitmaps, the inode table and the free counts of the group. -/
def smallGdt : Image UInt8 := fun a => ([(0, 3), (4, 4), (8, 5), (12, 3), (14, 7)].lookup a).getD 0

/-- The bitmaps of the small file system. -/
def smallImage : Image UInt8 := fun a =>
  if a = 3 * 1024 then 0x1F else if a = 4 * 1024 then 0x01 else 0

def small (reads : List Bool) (writes : List Int) : Ext2 where
  image := smallImage
  sb := smallSb
  gdt := smallGdt
  dirtySb := false
  dirtyGdt := false
  reads := reads
  writes := writes
  trail := []

variable {r : List Bool} {w : List Int}

theorem geom_small : (small r w).geom = (small [] []).geom := geom_congr rfl rfl

/-- The pieces of metadata of the small file system. -/
theorem metaLoc_small {a : MetaLoc} (ha : a.Valid (small [] []).geom) :
    a = .superblock ∨ a = .gdt 0 ∨ a = .blockBitmap 0 ∨ a = .inodeBitmap 0 ∨
      a = .inodeTable 0 0 := by
  have hgroups : (small [] []).geom.groups = 1 := by decide
  cases a with
  | superblock => exact .inl rfl
  | gdt i =>
    have hi : i < 1 := ha
    obtain rfl : i = 0 := by omega
    exact .inr (.inl rfl)
  | blockBitmap g =>
    have hg : g < 1 := hgroups ▸ ha
    obtain rfl : g = 0 := by omega
    exact .inr (.inr (.inl rfl))
  | inodeBitmap g =>
    have hg : g < 1 := hgroups ▸ ha
    obtain rfl : g = 0 := by omega
    exact .inr (.inr (.inr (.inl rfl)))
  | inodeTable g j =>
    have hg : g < 1 := hgroups ▸ ha.1
    have hj : j < 1 := ha.2
    obtain rfl : g = 0 := by omega
    obtain rfl : j = 0 := by omega
    exact .inr (.inr (.inr (.inr rfl)))

theorem layout_small : Layout (small r w).geom := by
  rw [geom_small]
  refine ⟨by decide, by decide, by decide, by decide, by decide, by decide, by decide, by decide,
    by decide, fun {a b} ha hb => ?_⟩
  obtain rfl | rfl | rfl | rfl | rfl := metaLoc_small ha <;>
    obtain rfl | rfl | rfl | rfl | rfl := metaLoc_small hb <;>
    first
      | exact fun _ => rfl
      | exact fun he => absurd he (by decide)

/-- The small volume, counted out. -/
theorem accounted_small : (small r w).Accounted := by
  have hgroups : (small r w).groups = 1 :=
    show Ext2Super.groups smallSb = 1 by decide
  refine ⟨fun g hg => ?_, fun g hg => ?_, ?_, ?_⟩
  · obtain rfl : g = 0 := by omega
    show ((small [] []).freeBlocks 0).toNat = (small [] []).clearBlocks 0
    decide +kernel
  · obtain rfl : g = 0 := by omega
    show ((small [] []).freeInodes 0).toNat = (small [] []).clearInodes 0
    decide +kernel
  · rw [hgroups]
    rfl
  · rw [hgroups]
    rfl

end Small

/-! ## Runs -/

section Run

/-- The bit of a block in the bitmap of its group on the device. -/
def blockBit (s : Ext2) (blk : Nat) : Bool :=
  get (s.contents (s.blockBitmap ((blk - s.firstDataBlock) / s.blocksPerGroup)))
    ((blk - s.firstDataBlock) % s.blocksPerGroup)

/-- The bit of an inode in the bitmap of its group on the device. -/
def inodeBit (s : Ext2) (ino : Nat) : Bool :=
  get (s.contents (s.inodeBitmap (s.inodeGroup ino))) ((ino - 1) % s.inodesPerGroup)

/-- The calls that change the accounts. -/
inductive AccountEvent where
  | reserve (start count : Nat)
  | allocBlock
  | allocInode (mode : UInt16) (now : UInt32)
  | truncate (ino newSize : Nat) (now : UInt32)

/-- The state after a call, however it ends; what the device will answer is in the
state. -/
def accountStep (s : Ext2) : AccountEvent → Ext2
  | .reserve start count => finalState ((reserveBlocks start count).run s)
  | .allocBlock => finalState (allocBlock.run s)
  | .allocInode mode now => finalState ((allocInode mode now).run s)
  | .truncate ino newSize now => finalState ((inodeTruncate ino newSize now).run s)

/-- What a call hands out was free on the device. -/
def Fresh (s : Ext2) : AccountEvent → Prop
  | .reserve _ _ => True
  | .allocBlock => ∀ blk s', allocBlock.run s = .ok blk s' → s.blockBit blk = false
  | .allocInode mode now => ∀ ino s', (allocInode mode now).run s = .ok ino s' →
      s.inodeBit ino = false
  | .truncate _ _ _ => True

/-- A block that is handed out was free. -/
theorem fresh_allocBlock {s' : Ext2} (h : allocBlock.run s = .ok blk s') :
    s.blockBit blk = false := by
  rw [allocBlock, run_get_bind] at h
  obtain ⟨r, w, bit, g, -, hbit, -, hclear, hok⟩ | ⟨rc, r, w, -, herr⟩ :=
    allocBlockFrom_cases 0 (range' 1 (s.groups - 1)) s
  · rw [hok] at h
    cases h
    have hrel : s.firstDataBlock + g * s.blocksPerGroup + bit - s.firstDataBlock
        = bit + s.blocksPerGroup * g := by
      rw [mul_comm]
      omega
    rw [blockBit, hrel, Nat.add_mul_div_left _ _ (by omega), Nat.div_eq_of_lt hbit,
      Nat.add_mul_mod_self_left, Nat.mod_eq_of_lt hbit, zero_add]
    exact hclear
  · rw [herr] at h
    cases h

/-- And so was an inode. -/
theorem fresh_allocInode {s' : Ext2} {mode : UInt16} {now : UInt32}
    (h : (allocInode mode now).run s = .ok ino s') : s.inodeBit ino = false := by
  rw [allocInode, run_get_bind] at h
  obtain ⟨ino', s1, hfrom, h⟩ := run_bind_eq_ok h
  -- the inode that was found is the one returned
  have hino : ino' = ino := by
    obtain ⟨_, s2, -, h⟩ := run_bind_eq_ok h
    split at h
    · obtain ⟨_, s3, -, h⟩ := run_bind_eq_ok h
      obtain ⟨_, s4, -, h⟩ := run_bind_eq_ok h
      cases h
      rfl
    · obtain ⟨_, s4, -, h⟩ := run_bind_eq_ok h
      cases h
      rfl
  subst hino
  obtain ⟨r, w, bit, g, -, hbit, -, -, hclear, hok⟩ | ⟨rc, r, w, -, herr⟩ :=
    allocInodeFrom_cases (range s.groups) s
  · rw [hok] at hfrom
    cases hfrom
    have hrel : g * s.inodesPerGroup + bit + 1 - 1 = bit + s.inodesPerGroup * g := by
      rw [mul_comm]
      omega
    rw [inodeBit, inodeGroup, hrel, Nat.add_mul_div_left _ _ (by omega), Nat.div_eq_of_lt hbit,
      Nat.add_mul_mod_self_left, Nat.mod_eq_of_lt hbit, zero_add]
    exact hclear
  · rw [herr] at hfrom
    cases hfrom

theorem fresh_of_event (s : Ext2) (e : AccountEvent) : Fresh s e := by
  cases e with
  | reserve start count => trivial
  | allocBlock => exact fun _ _ h => fresh_allocBlock h
  | allocInode mode now => exact fun _ _ h => fresh_allocInode h
  | truncate ino newSize now => trivial

theorem Balanced.accountStep {G : Ext2Geometry} (hl : Layout G) (h : Balanced G s)
    (e : AccountEvent) : Balanced G (s.accountStep e) := by
  cases e with
  | reserve start count => exact (keeps_reserveBlocks hl start count).finalState h
  | allocBlock => exact (keeps_allocBlock hl).finalState h
  | allocInode mode now => exact (keeps_allocInode hl mode now).finalState h
  | truncate ino newSize now => exact (keeps_inodeTruncate hl newSize now).finalState h

/-- The accounts stay in order over any sequence of calls and whatever the device
answers, and what is handed out was free. -/
theorem run_accounted (hl : Layout s.geom) (h : s.Accounted) (es : List AccountEvent) :
    (run accountStep s es).Accounted ∧ Along accountStep Fresh s es := by
  have hfresh : Along accountStep Fresh s es := along_iff_split.2 fun _ e _ _ => fresh_of_event _ e
  have hstep : ∀ s' e, Balanced s.geom s' → Fresh s' e → Balanced s.geom (s'.accountStep e) :=
    fun s' e hs' _ => hs'.accountStep hl e
  have hstart : Balanced s.geom s := ⟨rfl, h⟩
  exact ⟨(run_invariant hstep hstart hfresh).2, hfresh⟩

/-- The first write fails, and so does the first search; the second one finds
block 6. -/
theorem run_accounted_small : Layout (small [] [-5]).geom ∧ (small [] [-5]).Accounted ∧
    let es := [.allocBlock, .allocBlock, .allocInode ext2SIfreg 7, .truncate 1 0 9]
    let s := run accountStep (small [] [-5]) es
    s.Accounted ∧ Along accountStep Fresh (small [] [-5]) es ∧
      s.freeBlocks 0 = 2 ∧ s.blockBit 6 = true ∧ s.freeInodes 0 = 6 ∧ s.inodeBit 2 = true := by
  refine ⟨layout_small, accounted_small, ?_⟩
  have hrun := run_accounted (s := small [] [-5]) layout_small accounted_small
    [.allocBlock, .allocBlock, .allocInode ext2SIfreg 7, .truncate 1 0 9]
  exact ⟨hrun.1, hrun.2, by decide +kernel, by decide +kernel, by decide +kernel, by decide +kernel⟩

end Run

end Ext2

end UnixOs
