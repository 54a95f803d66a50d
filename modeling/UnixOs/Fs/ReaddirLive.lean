import UnixOs.Fs.Readdir

/-!
# A directory that changes while it is listed (ramfs_ops.c)

The cursor of `ramfs_op_readdir` is an index, and `ramfs_remove_child` moves the later
children down by one. So when an entry goes away that was already returned, the entry at the
cursor is skipped. Nothing else can spoil a listing (`listed_once`): new children go to the
end (`children_step`).
-/

namespace UnixOs

open List Machine

/-- The name that an operation takes out of the directory `d`. -/
def RamfsOp.takesFrom (d : Nat) : RamfsOp → Option FileName
  | .unlink parent name | .rmdir parent name | .rename parent name _ _ =>
    if parent = d then some name else none
  | .mkdir .. | .create .. => none

namespace Ramfs

variable {k : Ramfs} {d i parent : Nat} {name : FileName}

theorem children_modInode {f : RamfsInode → RamfsInode}
    (hf : (f (k.inode i)).children = k.children i) :
    (k.modInode i f).children d = k.children d := by
  rw [children, inode_modInode]
  split
  · next h => rw [hf, h]
  · rfl

theorem children_freeInode (hempty : k.children i = []) :
    (k.freeInode i).children d = k.children d := by
  rw [freeInode]
  split
  · rfl
  · rw [children]
    show ((k.setInode i .zeroed).inode d).children = _
    rw [inode_setInode]
    split
    · next h => exact (h ▸ hempty).symm
    · rfl

theorem children_dropLink : (k.dropLink i).children d = k.children d := children_modInode rfl

theorem children_setName (k : Ramfs) (d i : Nat) (name : FileName) :
    (k.setName i name).children d = k.children d := by
  rw [setName]
  split
  · rfl
  · exact children_modInode rfl

/-- Only the directory that is asked loses the child. -/
theorem children_removeChild (k : Ramfs) (d parent i : Nat) :
    (k.removeChild parent i).1.children d = k.children d ∨
    parent = d ∧ (k.removeChild parent i).1.children d = (k.children d).erase i := by
  rw [removeChild]
  split
  · exact .inl rfl
  split
  · by_cases hp : d = parent
    · refine .inr ⟨hp.symm, ?_⟩
      rw [children, inode_modInode, if_pos hp, hp]
      rfl
    · refine .inl ?_
      rw [children, inode_modInode, if_neg hp]
      rfl
  · exact .inl rfl

theorem children_removeChild_nil (parent i : Nat) (h : k.children d = []) :
    (k.removeChild parent i).1.children d = [] := by
  obtain hsame | ⟨-, herase⟩ := children_removeChild k d parent i
  · exact hsame.trans h
  · rw [herase, h]
    rfl

/-- A new child goes to the end. -/
theorem children_addChild : k.children d <+: (k.addChild parent i).1.children d := by
  by_cases h : k.type parent = .dir ∧ (k.children parent).length < ramfsMaxChildren
  · rw [show (k.addChild parent i).1.children d = _ from
      congrArg RamfsInode.children ((addChild_ok h.1 h.2).2.2 d)]
    exact prefix_append ..
  · rw [(addChild_of_not h).1]

/-- An entry is added at the end, if at all. -/
theorem children_createNode (h : Shape False False k) (d parent : Nat) (name : FileName)
    (ty : InodeType) (nl : Nat) :
    k.children d <+: (k.createNode parent name ty nl).1.children d := by
  rw [createNode]
  split
  · exact prefix_refl _
  next i hslot =>
  have hempty : k.children i = [] := by
    refine h.children_of_not_dir ?_
    rw [(freeSlot_spec hslot).1]
    decide
  have hset : ∀ e, (k.setInode i { RamfsInode.zeroed with
      type := ty, nlink := nl, name := storedName name }).children e = k.children e := by
    intro e
    rw [children, inode_setInode]
    split
    · next he => exact (he ▸ hempty).symm
    · rfl
  generalize k.setInode i _ = k1 at hset
  dsimp only
  split
  · next hrc =>
    have hno : ¬ (k1.type parent = .dir ∧ (k1.children parent).length < ramfsMaxChildren) := by
      intro hroom
      rw [(addChild_ok hroom.1 hroom.2).1] at hrc
      exact absurd hrc (by decide)
    rw [(addChild_of_not hno).1, children_freeInode ((hset i).trans hempty), hset]
  · rw [← hset]
    exact children_addChild

/-- What an operation does to the children of a directory: it may take out the one that it
names, and put others at the end. -/
theorem children_step (h : Shape False False k) (op : RamfsOp) :
    k.children d <+: (k.step op).children d ∨ ∃ name, op.takesFrom d = some name ∧
      (k.children d).erase (k.lookupChild d name) <+: (k.step op).children d := by
  -- taking a name away drops one child of one directory
  have hremove {parent : Nat} {name : FileName} {k' : Ramfs}
      (hk' : ((k.removeChild parent (k.lookupChild parent name)).1.children d) <+:
        k'.children d) :
      k.children d <+: k'.children d ∨ ∃ name', (if parent = d then some name else none) =
        some name' ∧ (k.children d).erase (k.lookupChild d name') <+: k'.children d := by
    obtain hsame | ⟨rfl, herase⟩ :=
      children_removeChild k d parent (k.lookupChild parent name)
    · exact .inl (hsame ▸ hk')
    · exact .inr ⟨name, if_pos rfl, herase ▸ hk'⟩
  cases op with
  | mkdir parent name =>
    left
    show _ <+: (k.createDir parent name).1.children d
    rw [createDir]
    split
    · exact prefix_refl _
    split
    · exact prefix_refl _
    have hnode := children_createNode h d parent name .dir 2
    split
    · next hk =>
      rw [hk] at hnode
      rw [children_modInode rfl]
      exact hnode
    · next hk =>
      rw [hk] at hnode
      exact hnode
  | create parent name =>
    left
    show _ <+: (k.createFile parent name).1.children d
    rw [createFile]
    split
    · exact prefix_refl _
    · exact children_createNode h d parent name .file 1
  | unlink parent name =>
    simp only [Ramfs.step, RamfsOp.takesFrom, opUnlink]
    split
    · exact .inl (prefix_refl _)
    split
    · exact .inl (prefix_refl _)
    next hdir =>
    have hempty := children_removeChild_nil parent (k.lookupChild parent name)
      (h.children_of_not_dir hdir)
    refine hremove ?_
    rw [← children_dropLink (i := k.lookupChild parent name)] at hempty ⊢
    split
    · rw [children_freeInode hempty]
    · exact prefix_refl _
  | rmdir parent name =>
    simp only [Ramfs.step, RamfsOp.takesFrom, opRmdir]
    split
    · exact .inl (prefix_refl _)
    split
    · exact .inl (prefix_refl _)
    split
    · exact .inl (prefix_refl _)
    next hempty =>
    have hempty := children_removeChild_nil parent (k.lookupChild parent name)
      (not_not.1 hempty)
    refine hremove ?_
    rw [← children_dropLink (i := parent)] at hempty ⊢
    rw [children_freeInode hempty]
  | rename oldParent oldName newParent newName =>
    simp only [Ramfs.step, RamfsOp.takesFrom, opRename]
    split
    · exact .inl (prefix_refl _)
    split
    · exact hremove (prefix_refl _)
    refine hremove ?_
    rw [← children_setName _ d (k.lookupChild oldParent oldName) newName]
    -- the new directory takes the child, or the old one gets it back
    split
    · exact children_addChild.trans children_addChild
    · exact children_addChild

end Ramfs

/-- A call of `readdir`, or a change of the file system between two calls. -/
inductive ReaddirEvent where
  | readdir (size : Nat)
  | change (op : RamfsOp)

/-- A ramfs with a directory that is listed: the cursor, and the inodes returned so far. -/
structure OpenDir where
  fs : Ramfs
  pos : Nat
  returned : List Nat

namespace OpenDir

def step (d : Nat) (s : OpenDir) : ReaddirEvent → OpenDir
  | .readdir size =>
    let out := s.fs.opReaddir d size s.pos
    { s with pos := out.2, returned := s.returned ++ out.1.map (·.ino.toNat) }
  | .change op => { s with fs := s.fs.step op }

/-- A directory of any ramfs as it is opened. -/
def opened (ops : List RamfsOp) : OpenDir := ⟨run Ramfs.step .init ops, 0, []⟩

/-- The child that the operation would take out of `d` does not stand before the cursor. -/
def Stays (d : Nat) (s : OpenDir) : ReaddirEvent → Prop
  | .readdir _ => True
  | .change op => ∀ name, op.takesFrom d = some name →
      s.fs.lookupChild d name ∉ (s.fs.children d).take s.pos

/-- What was returned is what stands before the cursor. -/
structure Inv (d : Nat) (s : OpenDir) : Prop where
  shape : Ramfs.Shape False False s.fs
  pos_le : s.pos ≤ (s.fs.children d).length
  returned : s.returned = (s.fs.children d).take s.pos

variable {d : Nat} {s : OpenDir}

theorem map_ino_direntsFrom {k : Ramfs} {cs : List Nat} (h : ∀ c ∈ cs, c < ramfsMaxInodes)
    (i : Nat) : (k.direntsFrom i cs).map (·.ino.toNat) = cs := by
  induction cs generalizing i with
  | nil => rfl
  | cons c cs ih =>
    rw [Ramfs.direntsFrom, map_cons, ih fun x hx => h x (mem_cons_of_mem c hx)]
    have hc : c < 2 ^ 32 := lt_trans (h c mem_cons_self) (by decide)
    exact congrArg (· :: cs) (UInt32.toNat_ofNat_of_lt' hc)

theorem length_direntsFrom {k : Ramfs} (i : Nat) (cs : List Nat) :
    (k.direntsFrom i cs).length = cs.length := by
  induction cs generalizing i with
  | nil => rfl
  | cons c cs ih => exact congrArg (· + 1) (ih (i + 1))

/-- One call returns the children from the cursor on, up to the new cursor. -/
theorem map_ino_opReaddir {k : Ramfs} (h : Ramfs.Shape False False k) (size pos : Nat) :
    (k.children d).take pos ++ (k.opReaddir d size pos).1.map (·.ino.toNat)
      = (k.children d).take (k.opReaddir d size pos).2 := by
  have hlt (c : Nat) (hc : c ∈ (k.children d).drop pos) : c < ramfsMaxInodes := by
    obtain hdir | ⟨hfile, -⟩ := (h.child (mem_of_mem_drop hc)).2.2.1
    · exact h.bound (by rw [hdir]; decide)
    · exact h.bound (by rw [hfile]; decide)
  obtain ⟨hrecs, hend⟩ := Ramfs.readdirLoop_eq (k := k) size 0 pos ((k.children d).drop pos)
  have hpre := @Chunks.isPrefix_fitting _ Dirent.reclen size 0
    (k.direntsFrom pos ((k.children d).drop pos))
  rw [← hrecs] at hpre
  rw [Ramfs.opReaddir, hend, prefix_iff_eq_take.1 hpre, map_take, map_ino_direntsFrom hlt,
    ← prefix_iff_eq_take.1 hpre, take_add]

/-- The cursor does not leave the children. -/
theorem opReaddir_pos_le {k : Ramfs} {size pos : Nat} (h : pos ≤ (k.children d).length) :
    (k.opReaddir d size pos).2 ≤ (k.children d).length := by
  obtain ⟨hrecs, hend⟩ := Ramfs.readdirLoop_eq (k := k) size 0 pos ((k.children d).drop pos)
  have hpre := @Chunks.isPrefix_fitting _ Dirent.reclen size 0
    (k.direntsFrom pos ((k.children d).drop pos))
  have hle := hpre.length_le
  rw [← hrecs, length_direntsFrom, length_drop] at hle
  rw [Ramfs.opReaddir, hend]
  omega

/-- The children before the cursor stay. -/
theorem Inv.step (h : s.Inv d) {e : ReaddirEvent} (hstay : s.Stays d e) : (s.step d e).Inv d := by
  cases e with
  | readdir size =>
    refine ⟨h.shape, opReaddir_pos_le h.pos_le, ?_⟩
    rw [OpenDir.step, ← map_ino_opReaddir h.shape size s.pos, ← h.returned]
  | change op =>
    have hlen : ((s.fs.children d).take s.pos).length = s.pos := length_take_of_le h.pos_le
    -- The part before the cursor stays at the beginning.
    have hpre : (s.fs.children d).take s.pos <+: (s.fs.step op).children d := by
      obtain hgrow | ⟨name, htakes, hgrow⟩ := Ramfs.children_step (d := d) h.shape op
      · exact IsPrefix.trans ( take_prefix ..) hgrow
      · refine IsPrefix.trans ?_ hgrow
        rw [← take_append_drop s.pos (s.fs.children d), erase_append_right _ (hstay name htakes),
          take_append_drop]
        exact prefix_append ..
    have hle := hpre.length_le
    rw [hlen] at hle
    refine ⟨h.shape.step op, hle, h.returned.trans ?_⟩
    rw [prefix_iff_eq_take.1 hpre, hlen]
    rfl

/-- As long as no entry goes away that was returned before, none is returned twice, and at
the end of the directory every child has been returned. -/
theorem listed_once {d c : Nat} (ops : List RamfsOp) (evs : List ReaddirEvent)
    (hstay : Along (step d) (Stays d) (opened ops) evs) :
    let s := run (step d) (opened ops) evs
    c ∈ s.fs.children d → s.returned.count c ≤ 1 ∧
      ((s.fs.children d).length ≤ s.pos → s.returned.count c = 1) := by
  intro s hc
  have hshape (k : Ramfs) (op : RamfsOp) (h : Ramfs.Shape False False k) :
      Ramfs.Shape False False (k.step op) := h.step op
  have hopen : (opened ops).Inv d := ⟨run_always hshape .init ops, Nat.zero_le _, rfl⟩
  have hstep (s : OpenDir) (e : ReaddirEvent) (h : s.Inv d) :
      s.Stays d e → (s.step d e).Inv d := h.step
  obtain ⟨hshape, -, hret⟩ := run_invariant hstep hopen hstay
  have hnodup := hshape.nodup d
  rw [hret]
  refine ⟨nodup_iff_count_le_one.1 (hnodup.sublist (take_sublist ..)) c, fun hend => ?_⟩
  rw [take_of_length_le hend]
  exact count_eq_one_of_mem hnodup hc

/-- The files `a` (inode 2) and `b` (inode 3) in the root. -/
def twoCreated : List RamfsOp := [.create ramfsRootIno [0x61], .create ramfsRootIno [0x62]]

/-- `b` is there all the time and is not returned. -/
theorem removed_behind_cursor :
    let evs := [.readdir 12, .change (.unlink ramfsRootIno [0x61]), .readdir 12]
    (∀ n < 4, 3 ∈ (run (step ramfsRootIno) (opened twoCreated) (evs.take n)).fs.children
      ramfsRootIno) ∧
      let s := run (step ramfsRootIno) (opened twoCreated) evs
      (s.fs.children ramfsRootIno).length ≤ s.pos ∧ ¬ s.returned.count 3 = 1 := by
  decide

/-- `b` goes away before it is returned, and `c` comes. -/
def aheadRun : List ReaddirEvent :=
  [.readdir 12, .change (.create ramfsRootIno [0x63]), .change (.unlink ramfsRootIno [0x62]),
    .readdir 12, .readdir 12]

theorem removed_ahead_of_cursor :
    (run (step ramfsRootIno) (opened twoCreated) aheadRun).returned.count 2 = 1 := by
  have hstay : Along (step ramfsRootIno) (Stays ramfsRootIno) (opened twoCreated) aheadRun := by
    refine ⟨trivial, fun _ hname => (by cases hname), fun name hname => ?_, trivial, trivial,
      trivial⟩
    obtain rfl : [0x62] = name := Option.some.inj hname
    decide
  exact (listed_once twoCreated aheadRun hstay (by decide)).2 (by decide)

end OpenDir

end UnixOs
