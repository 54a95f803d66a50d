import UnixOs.Fs.Ext2

/-!
# What the ext2 operations do to the file system

Each function is broken down into a few changes of the state: a block is stored,
a bit of a bitmap is taken or given back together with its counters, the
superblock or the descriptors are synced. `*_cases` say which of them a function
makes, and in which state.
-/

namespace UnixOs

open List Errno Bitmap

open BlockDevice Bytes ErrState

namespace Ext2

/-! ## The changes -/

section Changes

variable (s : Ext2)

/-- The content of a block. -/
def contents (blk : Nat) : Nat → UInt8 := s.image.block s.blockSize blk

/-- The device after one of its writes. -/
def stored (m : Image UInt8) : Ext2 := { s with image := m, trail := m :: s.trail }

/-- A block is written. -/
def store (blk : Nat) (buf : Nat → UInt8) : Ext2 := s.stored (s.image.putBlock s.blockSize blk buf)

/-- The superblock is written. -/
def storeSuper : Ext2 := s.stored (s.image.putBlock 1024 1 s.sb)

/-- A block of a group is allocated. -/
def takeBlock (g bit : Nat) : Ext2 :=
  (s.store (s.blockBitmap g) (set (s.contents (s.blockBitmap g)) bit)).addFreeBlocks g
    (-1) (-1)

/-- A block of a group is given back. -/
def giveBlock (g bit : Nat) : Ext2 :=
  (s.store (s.blockBitmap g) (clear (s.contents (s.blockBitmap g)) bit)).addFreeBlocks g 1 1

/-- An inode of a group is allocated. -/
def takeInode (g bit : Nat) : Ext2 :=
  (s.store (s.inodeBitmap g) (set (s.contents (s.inodeBitmap g)) bit)).takeFreeInode g

/-- The inode as `read_inode` finds it. -/
def inodeAt (ino : Nat) : Ext2Inode := fun i =>
  if i < s.inodeCopy then s.contents (s.inodeBlk ino) (s.inodeInoff ino + i) else 0

/-- An inode is written into its block of the table. -/
def storeInode (ino : Nat) (n : Ext2Inode) : Ext2 :=
  s.store (s.inodeBlk ino) fun i =>
    if s.inodeInoff ino ≤ i ∧ i < s.inodeInoff ino + s.inodeCopy then n (i - s.inodeInoff ino)
    else s.contents (s.inodeBlk ino) i

/-- The coming answers of the device. -/
def withEnv (r : List Bool) (w : List Int) : Ext2 := { s with reads := r, writes := w }

/-- The number of an inode that has a place in a table. -/
def ValidIno (ino : Nat) : Prop := ino ≠ 0 ∧ ino ≤ s.inodesCount ∧ s.inodeGroup ino < s.groups

/-- The number of blocks of the descriptor table. -/
def gdtBlocks : Nat := (s.gdtBytes + s.blockSize - 1) / s.blockSize

end Changes

section Env

variable {s : Ext2} {r : List Bool} {w : List Int}

@[simp] theorem withEnv_self : s.withEnv s.reads s.writes = s := rfl

@[simp] theorem withEnv_withEnv {r' : List Bool} {w' : List Int} :
    (s.withEnv r w).withEnv r' w' = s.withEnv r' w' := rfl

@[simp] theorem store_withEnv {blk : Nat} {buf : Nat → UInt8} :
    (s.withEnv r w).store blk buf = (s.store blk buf).withEnv r w := rfl

@[simp] theorem addFreeBlocks_withEnv {g : Nat} {a : UInt16} {b : UInt32} :
    (s.withEnv r w).addFreeBlocks g a b = (s.addFreeBlocks g a b).withEnv r w := rfl

@[simp] theorem takeFreeInode_withEnv {g : Nat} :
    (s.withEnv r w).takeFreeInode g = (s.takeFreeInode g).withEnv r w := rfl

end Env

/-! ## What the functions do -/

variable {s : Ext2} {blk g ino i : Nat} {buf : Nat → UInt8} {n : Ext2Inode}

theorem run_readBlock (s : Ext2) (blk : Nat) : (readBlock blk).run s =
    if s.reads.headD true then .ok (s.contents blk) (s.withEnv s.reads.tail s.writes)
    else .error (-Errno.EIO) (s.withEnv s.reads.tail s.writes) := rfl

theorem readBlock_cases (s : Ext2) (blk : Nat) :
    (∃ r, (readBlock blk).run s = .ok (s.contents blk) (s.withEnv r s.writes)) ∨
      ∃ r, (readBlock blk).run s = .error (-Errno.EIO) (s.withEnv r s.writes) := by
  rw [run_readBlock]
  split
  · exact .inl ⟨_, rfl⟩
  · exact .inr ⟨_, rfl⟩

theorem run_deviceWrite (s : Ext2) (put : Image UInt8 → Image UInt8) : (deviceWrite put).run s =
    if s.writes.headD 0 < 0 then .error (s.writes.headD 0) (s.withEnv s.reads s.writes.tail)
    else .ok () ((s.stored (put s.image)).withEnv s.reads s.writes.tail) := rfl

theorem deviceWrite_cases (s : Ext2) (put : Image UInt8 → Image UInt8) :
    (∃ w, (deviceWrite put).run s = .ok () ((s.stored (put s.image)).withEnv s.reads w)) ∨
      ∃ rc w, rc < 0 ∧ (deviceWrite put).run s = .error rc (s.withEnv s.reads w) := by
  rw [run_deviceWrite]
  split
  · next h => exact .inr ⟨_, _, h, rfl⟩
  · exact .inl ⟨_, rfl⟩

theorem run_journaledWrite (s : Ext2) (blk : Nat) (buf : Nat → UInt8) :
    (journaledWrite blk buf).run s =
      if s.writes.headD 0 < 0 then .error (s.writes.headD 0) (s.withEnv s.reads s.writes.tail)
      else .ok () ((s.store blk buf).withEnv s.reads s.writes.tail) := rfl

theorem journaledWrite_cases (s : Ext2) (blk : Nat) (buf : Nat → UInt8) :
    (∃ w, (journaledWrite blk buf).run s = .ok () ((s.store blk buf).withEnv s.reads w)) ∨
      ∃ rc w, rc < 0 ∧ (journaledWrite blk buf).run s = .error rc (s.withEnv s.reads w) :=
  deviceWrite_cases s fun m => m.putBlock s.blockSize blk buf

/-- A bitmap is read, a bit that may be taken is found clear and set, and the counters
follow. -/
theorem takeClear_cases (s : Ext2) (blk n : Nat) (p : Nat → Bool) (num : Nat → Nat)
    {count : Ext2 → Ext2} (hcount : ∀ s r w, count (withEnv s r w) = (count s).withEnv r w) :
    let take : Ext2M Nat := do
      let buf ← readBlock blk
      match findClear p n buf with
      | none => throw (-ENOSPC)
      | some bit =>
        match ← attempt (journaledWrite blk (set buf bit)) with
        | none => throw (-Errno.EIO)
        | some _ =>
          modify count
          pure (num bit)
    (∃ r w bit, bit < n ∧ p bit = true ∧ get (s.contents blk) bit = false ∧
      take.run s = .ok (num bit)
        ((count (s.store blk (set (s.contents blk) bit))).withEnv r w)) ∨
      ∃ rc r w, rc < 0 ∧ take.run s = .error rc (s.withEnv r w) := by
  dsimp only
  obtain ⟨r, hr⟩ | ⟨r, hr⟩ := readBlock_cases s blk
  · rw [run_bind_ok hr]
    cases hfind : findClear p n (s.contents blk) with
    | none => exact .inr ⟨_, r, s.writes, (by decide), rfl⟩
    | some bit =>
      obtain ⟨hbit, hp, hclear⟩ := findClear_spec hfind
      obtain ⟨w, hw⟩ | ⟨rc, w, -, hw⟩ := journaledWrite_cases (s.withEnv r s.writes) blk
        (set (s.contents blk) bit)
      · refine .inl ⟨r, w, bit, hbit, hp, hclear, ?_⟩
        rw [run_bind_ok (run_attempt_ok hw)]
        rw [run_modify_bind, run_pure, store_withEnv, withEnv_withEnv, hcount]
        rfl
      · refine .inr ⟨_, r, w, (by decide : -Errno.EIO < 0), ?_⟩
        rw [run_bind_ok (run_attempt_error hw)]
        rfl
  · rw [run_bind_error hr]
    exact .inr ⟨_, r, s.writes, (by decide), rfl⟩

/-- A bit of the group is found and taken, or an error is returned. -/
theorem allocBlockInGroup_cases (s : Ext2) (g : Nat) :
    (∃ r w bit, bit < s.blocksPerGroup ∧ s.freeBlocks g ≠ 0 ∧
      get (s.contents (s.blockBitmap g)) bit = false ∧
      (allocBlockInGroup g).run s = .ok (s.firstDataBlock + g * s.blocksPerGroup + bit)
        ((s.takeBlock g bit).withEnv r w)) ∨
      ∃ rc r w, rc < 0 ∧ (allocBlockInGroup g).run s = .error rc (s.withEnv r w) := by
  unfold allocBlockInGroup
  rw [run_get_bind]
  split
  · exact .inr ⟨_, s.reads, s.writes, (by decide : -ENOSPC < 0), rfl⟩
  next hfree =>
  refine (takeClear_cases s (s.blockBitmap g) _ _ _ fun _ _ _ => addFreeBlocks_withEnv).imp_left ?_
  rintro ⟨r, w, bit, hbit, -, hclear, hok⟩
  exact ⟨r, w, bit, hbit, hfree, hclear, hok⟩

/-- The same for an inode. -/
theorem allocInodeInGroup_cases (s : Ext2) (g : Nat) :
    (∃ r w bit, bit < s.inodesPerGroup ∧ s.freeInodes g ≠ 0 ∧ s.allocatableInode g bit = true ∧
      get (s.contents (s.inodeBitmap g)) bit = false ∧
      (allocInodeInGroup g).run s = .ok (g * s.inodesPerGroup + bit + 1)
        ((s.takeInode g bit).withEnv r w)) ∨
      ∃ rc r w, rc < 0 ∧ (allocInodeInGroup g).run s = .error rc (s.withEnv r w) := by
  unfold allocInodeInGroup
  rw [run_get_bind]
  split
  · exact .inr ⟨_, s.reads, s.writes, (by decide), rfl⟩
  next hfree =>
  refine (takeClear_cases s (s.inodeBitmap g) _ _ _ fun _ _ _ => takeFreeInode_withEnv).imp_left ?_
  rintro ⟨r, w, bit, hbit, hp, hclear, hok⟩
  exact ⟨r, w, bit, hbit, hfree, hp, hclear, hok⟩

theorem run_allocBlockFrom_cons (g g' : Nat) (gs : List Nat) (s : Ext2) :
    (allocBlockFrom g (g' :: gs)).run s = match (allocBlockInGroup g).run s with
      | .ok blk s => .ok blk s
      | .error _ s => (allocBlockFrom g' gs).run s := rfl

/-- A search of the groups takes a block of one of them, or changes nothing. -/
theorem allocBlockFrom_cases (g : Nat) (gs : List Nat) (s : Ext2) :
    (∃ r w bit, ∃ g' ∈ g :: gs, bit < s.blocksPerGroup ∧ s.freeBlocks g' ≠ 0 ∧
      get (s.contents (s.blockBitmap g')) bit = false ∧
      (allocBlockFrom g gs).run s = .ok (s.firstDataBlock + g' * s.blocksPerGroup + bit)
        ((s.takeBlock g' bit).withEnv r w)) ∨
      ∃ rc r w, rc < 0 ∧ (allocBlockFrom g gs).run s = .error rc (s.withEnv r w) := by
  induction gs generalizing g s with
  | nil =>
    obtain ⟨r, w, bit, hbit, hfree, hclear, hok⟩ | herr := allocBlockInGroup_cases s g
    · exact .inl ⟨r, w, bit, g, mem_cons_self, hbit, hfree, hclear, hok⟩
    · exact .inr herr
  | cons g' gs ih =>
    obtain ⟨r, w, bit, hbit, hfree, hclear, hok⟩ | ⟨rc, r, w, hrc, herr⟩ :=
      allocBlockInGroup_cases s g
    · refine .inl ⟨r, w, bit, g, mem_cons_self, hbit, hfree, hclear, ?_⟩
      rw [run_allocBlockFrom_cons, hok]
    · rw [run_allocBlockFrom_cons, herr]
      -- the next group finds the same file system
      obtain ⟨r', w', bit, g'', hg, hbit, hfree, hclear, hok⟩ | ⟨rc', r', w', hrc', herr'⟩ :=
        ih g' (s.withEnv r w)
      · exact .inl ⟨r', w', bit, g'', .tail g hg, hbit, hfree, hclear, hok⟩
      · exact .inr ⟨rc', r', w', hrc', herr'⟩

theorem run_allocInodeFrom_cons (g : Nat) (gs : List Nat) (s : Ext2) :
    (allocInodeFrom (g :: gs)).run s = match (allocInodeInGroup g).run s with
      | .ok ino s => .ok ino s
      | .error rc s => if rc = -Errno.EIO then .error rc s else (allocInodeFrom gs).run s := rfl

/-- A search of the groups takes an inode of one of them, or changes nothing. -/
theorem allocInodeFrom_cases (gs : List Nat) (s : Ext2) :
    (∃ r w bit, ∃ g ∈ gs, bit < s.inodesPerGroup ∧ s.freeInodes g ≠ 0 ∧
      s.allocatableInode g bit = true ∧ get (s.contents (s.inodeBitmap g)) bit = false ∧
      (allocInodeFrom gs).run s = .ok (g * s.inodesPerGroup + bit + 1)
        ((s.takeInode g bit).withEnv r w)) ∨
      ∃ rc r w, rc < 0 ∧ (allocInodeFrom gs).run s = .error rc (s.withEnv r w) := by
  induction gs generalizing s with
  | nil => exact .inr ⟨_, s.reads, s.writes, (by decide), rfl⟩
  | cons g gs ih =>
    obtain ⟨r, w, bit, hbit, hfree, hp, hclear, hok⟩ | ⟨rc, r, w, hrc, herr⟩ :=
      allocInodeInGroup_cases s g
    · refine .inl ⟨r, w, bit, g, mem_cons_self, hbit, hfree, hp, hclear, ?_⟩
      rw [run_allocInodeFrom_cons, hok]
    · rw [run_allocInodeFrom_cons, herr]
      dsimp only
      split
      · exact .inr ⟨rc, r, w, hrc, rfl⟩
      · -- the next group finds the same file system
        obtain ⟨r', w', bit, g', hg', hbit, hfree, hp, hclear, hok⟩ | ⟨rc', r', w', hrc', herr'⟩ :=
          ih (s.withEnv r w)
        · exact .inl ⟨r', w', bit, g', .tail g hg', hbit, hfree, hp, hclear, hok⟩
        · exact .inr ⟨rc', r', w', hrc', herr'⟩

/-- The inode is read, or an error is returned. -/
theorem readInode_cases (s : Ext2) (ino : Nat) :
    (∃ r, s.ValidIno ino ∧ (readInode ino).run s = .ok (s.inodeAt ino) (s.withEnv r s.writes)) ∨
      ∃ rc r, rc < 0 ∧ (readInode ino).run s = .error rc (s.withEnv r s.writes) := by
  unfold readInode
  rw [run_get_bind]
  split
  · exact .inr ⟨_, s.reads, (by decide), rfl⟩
  next hino =>
  split
  · exact .inr ⟨_, s.reads, (by decide), rfl⟩
  next hgroup =>
  have hvalid : s.ValidIno ino := ⟨fun h => hino (.inl h), by omega, by omega⟩
  obtain ⟨r, hr⟩ | ⟨r, hr⟩ := readBlock_cases s (s.inodeBlk ino)
  · rw [run_bind_ok hr]
    exact .inl ⟨r, hvalid, rfl⟩
  · rw [run_bind_error hr]
    exact .inr ⟨_, r, (by decide), rfl⟩

/-- The inode is written, or an error is returned and nothing is. -/
theorem writeInode_cases (s : Ext2) (ino : Nat) (n : Ext2Inode) :
    (∃ r w, s.ValidIno ino ∧ (writeInode ino n).run s = .ok () ((s.storeInode ino n).withEnv r w)) ∨
      ∃ rc r w, rc < 0 ∧ (writeInode ino n).run s = .error rc (s.withEnv r w) := by
  unfold writeInode
  rw [run_get_bind]
  split
  · exact .inr ⟨_, s.reads, s.writes, (by decide), rfl⟩
  next hino =>
  split
  · exact .inr ⟨_, s.reads, s.writes, (by decide), rfl⟩
  next hgroup =>
  have hvalid : s.ValidIno ino := ⟨fun h => hino (.inl h), by omega, by omega⟩
  obtain ⟨r, hr⟩ | ⟨r, hr⟩ := readBlock_cases s (s.inodeBlk ino)
  · rw [run_bind_ok hr]
    obtain ⟨w, hw⟩ | ⟨rc, w, hrc, hw⟩ :=
      journaledWrite_cases (s.withEnv r s.writes) (s.inodeBlk ino)
      fun i => if s.inodeInoff ino ≤ i ∧ i < s.inodeInoff ino + s.inodeCopy then
        n (i - s.inodeInoff ino) else s.contents (s.inodeBlk ino) i
    · exact .inl ⟨r, w, hvalid, hw⟩
    · exact .inr ⟨rc, r, w, hrc, hw⟩
  · rw [run_bind_error hr]
    exact .inr ⟨_, r, s.writes, (by decide), rfl⟩

/-- A block is reserved by taking its bit, or nothing changes. -/
theorem reserveBlock_cases (s : Ext2) (blk : Nat) :
    (∃ r w g bit, g < s.groups ∧ bit = (blk - s.firstDataBlock) % s.blocksPerGroup ∧
      g = (blk - s.firstDataBlock) / s.blocksPerGroup ∧ s.firstDataBlock ≤ blk ∧
      get (s.contents (s.blockBitmap g)) bit = false ∧
      (reserveBlock blk).run s = .ok true ((s.takeBlock g bit).withEnv r w)) ∨
      ∃ r w, (reserveBlock blk).run s = .ok false (s.withEnv r w) := by
  unfold reserveBlock
  rw [run_get_bind]
  dsimp only
  generalize hg : (blk - s.firstDataBlock) / s.blocksPerGroup = g
  generalize hbit : (blk - s.firstDataBlock) % s.blocksPerGroup = bit
  split
  · exact .inr ⟨s.reads, s.writes, rfl⟩
  next hin =>
  obtain ⟨r, hr⟩ | ⟨r, hr⟩ := readBlock_cases s (s.blockBitmap g)
  · rw [run_bind_ok (run_attempt_ok hr)]
    dsimp only
    split
    · exact .inr ⟨r, s.writes, rfl⟩
    next hclear =>
    obtain ⟨w, hw⟩ | ⟨rc, w, -, hw⟩ := journaledWrite_cases (s.withEnv r s.writes) (s.blockBitmap g)
      (set (s.contents (s.blockBitmap g)) bit)
    · refine .inl ⟨r, w, g, bit, by omega, rfl, rfl, by omega, by simpa using hclear, ?_⟩
      rw [run_bind_ok (run_attempt_ok hw)]
      rw [run_modify_bind, run_pure, store_withEnv, withEnv_withEnv, addFreeBlocks_withEnv]
      rfl
    · refine .inr ⟨r, w, ?_⟩
      rw [run_bind_ok (run_attempt_error hw)]
      rfl
  · rw [run_bind_ok (run_attempt_error hr)]
    exact .inr ⟨r, s.writes, rfl⟩

/-- A pointer of an inode is dropped; its block is given back, or nothing else
changes. -/
theorem truncateBlock_cases (s : Ext2) (n : Ext2Inode) (i : Nat) :
    (∃ r w g bit n', g < s.groups ∧
      bit = ((n.block i).toNat - s.firstDataBlock) % s.blocksPerGroup ∧
      g = ((n.block i).toNat - s.firstDataBlock) / s.blocksPerGroup ∧
      s.firstDataBlock ≤ (n.block i).toNat ∧ get (s.contents (s.blockBitmap g)) bit = true ∧
      (n' = n ∨ ∃ x, n' = n.setBlocks x) ∧
      (truncateBlock n i).run s = .ok (n'.setBlock i 0) ((s.giveBlock g bit).withEnv r w)) ∨
      ∃ r w n', (n' = n ∧ n.block i = 0 ∨ n' = n.setBlock i 0) ∧
        (truncateBlock n i).run s = .ok n' (s.withEnv r w) := by
  unfold truncateBlock
  rw [run_get_bind]
  dsimp only
  generalize hg : ((n.block i).toNat - s.firstDataBlock) / s.blocksPerGroup = g
  generalize hbit : ((n.block i).toNat - s.firstDataBlock) % s.blocksPerGroup = bit
  split
  · next hzero =>
    refine .inr ⟨s.reads, s.writes, n, .inl ⟨rfl, ?_⟩, rfl⟩
    exact UInt32.toNat_inj.1 hzero
  split
  · exact .inr ⟨s.reads, s.writes, _, .inr rfl, rfl⟩
  next hin =>
  obtain ⟨r, hr⟩ | ⟨r, hr⟩ := readBlock_cases s (s.blockBitmap g)
  · rw [run_bind_ok (run_attempt_ok hr)]
    dsimp only
    split
    · exact .inr ⟨r, s.writes, _, .inr rfl, rfl⟩
    next hset =>
    obtain ⟨w, hw⟩ | ⟨rc, w, -, hw⟩ := journaledWrite_cases (s.withEnv r s.writes) (s.blockBitmap g)
      (clear (s.contents (s.blockBitmap g)) bit)
    · refine .inl ⟨r, w, g, bit, if UInt32.ofNat (s.blockSize / 512) ≤ n.blocks then
        n.setBlocks (n.blocks - UInt32.ofNat (s.blockSize / 512)) else n, by omega, rfl, rfl,
        by omega, by simpa using hset, ?_, ?_⟩
      · split
        · exact .inr ⟨_, rfl⟩
        · exact .inl rfl
      · rw [run_bind_ok (run_attempt_ok hw)]
        rw [run_modify_bind, run_pure, store_withEnv, withEnv_withEnv, addFreeBlocks_withEnv]
        rfl
    · refine .inr ⟨r, w, _, .inr rfl, ?_⟩
      rw [run_bind_ok (run_attempt_error hw)]
      rfl
  · rw [run_bind_ok (run_attempt_error hr)]
    exact .inr ⟨r, s.writes, _, .inr rfl, rfl⟩

end Ext2

end UnixOs
