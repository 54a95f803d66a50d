import UnixOs.Fs.RamfsOpen

/-!
# Open inodes are counted and kept

- `DirLinks`: the link count of a directory, which keeps the last close from
  freeing one that is still in the tree;
- `Keeps`: what an operation on names leaves alone;
- `Tree.resolve_linked`: a path leads to an inode that has a name;
- `openRefs_of_stepOk`: along every run that removes no open directory, every
  open inode is counted and denotes what it did when it was opened.
-/

namespace UnixOs

open Function List Option

/-! ## The file system under the operations -/

namespace Ramfs

variable {k k' : Ramfs} {d i : Nat} {nm : FileName} {ty : InodeType} {nl : Nat}

/-- The number of directories in a directory. -/
def subdirs (k : Ramfs) (d : Nat) : Nat := (k.children d).countP fun c => decide (k.type c = .dir)

/-- A directory has a link of its own, one from its parent, and one from each
directory in it. -/
def DirLinks (k : Ramfs) : Prop := ∀ d, k.type d = .dir → k.nlink d = 2 + k.subdirs d

/-- No open inode is touched in what it denotes, and no count changes. -/
structure Keeps (k k' : Ramfs) : Prop where
  count : k'.openCount = k.openCount
  same : ∀ i, k.type i ≠ .free → k.openCount i ≠ 0 →
    k'.type i = k.type i ∧ k'.name i = k.name i ∧ k'.parent i = k.parent i

theorem Keeps.refl : Keeps k k := ⟨rfl, fun _ _ _ => ⟨rfl, rfl, rfl⟩⟩

theorem subdirs_congr (hkids : k'.children d = k.children d)
    (htype : ∀ c ∈ k.children d, k'.type c = k.type c) : k'.subdirs d = k.subdirs d := by
  rw [subdirs, hkids]
  refine countP_congr fun c hc => ?_
  rw [htype c hc]

theorem subdirs_le (h : Tree False k) : k.subdirs d ≤ ramfsMaxChildren :=
  countP_le_length.trans (h.full d)

/-- A new inode was free, so no open file means it. -/
theorem Keeps.createNode (hd : k.type d = .dir)
    (hfree : ∀ i, k.type i = .free → k.openCount i = 0) (nm : FileName) (ty : InodeType)
    (nl : Nat) : Keeps k (k.createNode d nm ty nl).1 := by
  obtain ⟨i, hslot, -, -, hcount, hnode⟩ | ⟨-, -, hsame⟩ | ⟨i, hslot, -, hcount, hnode⟩ :=
    createNode_cases hd nm ty nl
  · refine ⟨hcount, fun j hj _ => ?_⟩
    have hji : j ≠ i := by
      rintro rfl
      exact hj (freeSlot_spec hslot).1
    unfold type name parent
    rw [hnode, if_neg hji]
    exact ⟨rfl, rfl, rfl⟩
  · rw [hsame]
    exact .refl
  · have hi := (freeSlot_spec hslot).1
    refine ⟨?_, fun j hj _ => ?_⟩
    · rw [hcount, ← hfree i hi, update_eq_self]
    · have hji : j ≠ i := by
        rintro rfl
        exact hj hi
      unfold type name parent
      rw [hnode, if_neg hji]
      exact ⟨rfl, rfl, rfl⟩

section

variable (h : DirLinks k) (htree : Tree False k)
include h htree

/-- The links of the directories after `createNode`: those of the parent lag
behind by a new directory. -/
theorem DirLinks.createNode (hd : k.type d = .dir)
    (nm : FileName) (ty : InodeType) (nl : Nat) (hty : ty = .dir → nl = 2) {e : Nat}
    (he : (k.createNode d nm ty nl).1.type e = .dir) :
    (k.createNode d nm ty nl).1.nlink e
      + (if e = d ∧ ty = .dir ∧ (k.createNode d nm ty nl).2.isOk then 1 else 0)
      = 2 + (k.createNode d nm ty nl).1.subdirs e := by
  obtain ⟨i, hslot, -, hok, -, hnode⟩ | ⟨⟨rc, herr⟩, -, hsame⟩ | ⟨i, hslot, ⟨rc, herr⟩, -, hnode⟩ :=
    createNode_cases hd nm ty nl
  -- the inode was made
  · have hfree := (freeSlot_spec hslot).1
    have hnot (e : Nat) : i ∉ k.children e := fun hc =>
      Shape.not_linked_of_free hfree (htree.child hc).2.2.1
    have hid := freeSlot_ne hslot hd
    rw [hok]
    generalize (k.createNode d nm ty nl).1 = k' at hnode he ⊢
    have hx : k'.inode i = ⟨ty, nl, storedName nm, d, []⟩ := (hnode i).trans (if_pos rfl)
    have hold (e : Nat) (hei : e ≠ i) := (hnode e).trans (if_neg hei)
    obtain rfl | hei := eq_or_ne e i
    -- the new directory has no children
    · rw [type, hx] at he
      rw [if_neg fun hc => hid hc.1.symm, subdirs, nlink, children, hx]
      exact hty he
    · have hs : SameAway i k k' := .of_children hold
      have hkids : k'.children e = k.children e ++ if e = d then [i] else [] :=
        congrArg RamfsInode.children (hold e hei)
      have hsub : (k.children e).countP (fun c => decide (k'.type c = .dir)) = k.subdirs e := by
        refine countP_congr fun c hc => ?_
        rw [hs.type fun hci => hnot e (hci ▸ hc)]
      rw [hs.type hei] at he
      rw [subdirs, hkids, countP_append, hsub, hs.nlink hei, h e he]
      by_cases hed : e = d
      · rw [if_pos hed, countP_singleton, show k'.type i = ty from congrArg RamfsInode.type hx]
        simp only [hed, true_and, decide_eq_true_eq, Except.isOk, Except.toBool, and_true,
          add_assoc]
      · rw [if_neg hed, if_neg fun hc => hed hc.1]
        rfl
  -- no inode was free
  · rw [hsame] at he ⊢
    rw [herr, if_neg fun hc => Bool.false_ne_true hc.2.2]
    exact h e he
  -- the parent was full, and the inode is free again
  · have hfree := (freeSlot_spec hslot).1
    rw [herr, if_neg fun hc => Bool.false_ne_true hc.2.2]
    generalize (k.createNode d nm ty nl).1 = k' at hnode he ⊢
    have hei : e ≠ i := by
      rintro rfl
      rw [type, hnode, if_pos rfl] at he
      cases he
    have hsame (j : Nat) (hj : j ≠ i) : k'.inode j = k.inode j := (hnode j).trans (if_neg hj)
    rw [type, hsame e hei] at he
    rw [subdirs_congr (congrArg RamfsInode.children (hsame e hei)) fun c hc =>
      congrArg RamfsInode.type (hsame c ?_)]
    · exact (congrArg RamfsInode.nlink (hsame e hei)).trans (h e he)
    · rintro rfl
      exact Shape.not_linked_of_free hfree (htree.child hc).2.2.1

theorem DirLinks.createFile : DirLinks (k.createFile d nm).1 := by
  rw [Ramfs.createFile]
  split
  · exact h
  · next hd =>
    intro e he
    have := h.createNode htree (not_not.1 hd) nm .file 1 (fun hc => by cases hc) he
    rwa [if_neg fun hc => by cases hc.2.1] at this

/-- The new directory counts in its parent. -/
theorem DirLinks.createDir : DirLinks (k.createDir d nm).1 := by
  rw [Ramfs.createDir]
  split
  · exact h
  next hd =>
  split
  · exact h
  replace hd : k.type d = .dir := not_not.1 hd
  have hlinks := fun e he => h.createNode htree hd nm .dir 2 (fun _ => rfl) (e := e) he
  have hdir := type_createNode hd nm .dir 2
  have htree' : Tree False (k.createNode d nm .dir 2).1 :=
    htree.createNode hd (fun hf => hf.elim) .dir 2 (.inl rfl)
  generalize k.createNode d nm .dir 2 = r at hlinks hdir htree'
  obtain ⟨k1, rc | i⟩ := r
  · intro e he
    have := hlinks e he
    rwa [if_neg fun hc => Bool.false_ne_true hc.2.2] at this
  · -- the parent's link is counted now
    intro e he
    have hnode (j : Nat) :
      (k1.modInode d fun n => { n with nlink := (n.nlink + 1) % 2 ^ 32 }).inode j
        = { k1.inode j with nlink := if j = d then (k1.nlink j + 1) % 2 ^ 32 else k1.nlink j } := by
      rw [inode_modInode]
      split
      · next hj => rw [hj]; rfl
      · rfl
    rw [type, hnode] at he
    have hsub : (k1.modInode d fun n => { n with nlink := (n.nlink + 1) % 2 ^ 32 }).subdirs e
        = k1.subdirs e :=
      subdirs_congr (congrArg RamfsInode.children (hnode e) :)
        fun c _ => (congrArg RamfsInode.type (hnode c) :)
    have hold := hlinks e he
    have hle : k1.subdirs e ≤ ramfsMaxChildren := subdirs_le htree'
    have hmax : ramfsMaxChildren = 64 := rfl
    rw [hsub, nlink, hnode]
    by_cases hed : e = d
    · rw [if_pos ⟨hed, rfl, rfl⟩] at hold
      dsimp only at hold ⊢
      rw [if_pos hed]
      omega
    · rw [if_neg fun hc => hed hc.1] at hold
      rw [if_neg hed]
      omega

/-- A child is taken from its directory, which loses a link if it was a directory. -/
theorem DirLinks.erase (hc : i ∈ k.children d)
    (hgone : k'.type i ≠ .dir) (hnode : ∀ j, j ≠ i → k'.inode j =
      { k.inode j with
        children := (k.children j).erase i
        nlink := if k.type i = .dir ∧ j = d then k.nlink j - 1 else k.nlink j }) :
    DirLinks k' := by
  intro e he
  have htypes (c : Nat) (hci : c ≠ i) : k'.type c = k.type c :=
    (congrArg RamfsInode.type (hnode c hci) :)
  have hei : e ≠ i := by
    rintro rfl
    exact hgone he
  rw [htypes e hei] at he
  have hmem : i ∈ k.children e ↔ e = d := ⟨(htree.owned d i hc).2 e, fun hed => hed ▸ hc⟩
  have hnl : k'.nlink e = if k.type i = .dir ∧ e = d then k.nlink e - 1 else k.nlink e :=
    (congrArg RamfsInode.nlink (hnode e hei) :)
  have hsub : k'.subdirs e = k.subdirs e - if e = d ∧ k.type i = .dir then 1 else 0 := by
    have hkids : k'.children e = (k.children e).erase i :=
      congrArg RamfsInode.children (hnode e hei)
    have hsame : k'.subdirs e
        = ((k.children e).erase i).countP fun c => decide (k.type c = .dir) := by
      rw [subdirs, hkids]
      refine countP_congr fun c hc => ?_
      rw [htypes c ((htree.nodup e).mem_erase_iff.1 hc).1]
    rw [hsame, countP_erase, subdirs]
    simp only [hmem, decide_eq_true_eq]
  rw [hnl, hsub, h e he]
  by_cases hed : e = d ∧ k.type i = .dir
  · have hpos : 0 < k.subdirs e := countP_pos_iff.2 ⟨i, hmem.2 hed.1, decide_eq_true hed.2⟩
    rw [if_pos hed, if_pos hed.symm]
    omega
  · rw [if_neg hed, if_neg fun hc => hed hc.symm, Nat.sub_zero]

theorem DirLinks.opUnlink : DirLinks (k.opUnlink d nm).1 := by
  obtain hsame | ⟨i, h0, hd, hc, hdir, -, hother, hx⟩ := opUnlink_cases nm (htree.owned d)
  · rw [hsame]
    exact h
  refine h.erase htree hc ?_ fun j hj => ?_
  · rw [type]
    obtain ⟨-, -, hx⟩ | ⟨-, hx⟩ := hx
    · rw [hx]
      decide
    · rw [hx]
      exact hdir
  · rw [hother j hj, if_neg fun hc => hdir hc.1]
    rfl

theorem DirLinks.opRmdir : DirLinks (k.opRmdir d nm).1 := by
  obtain hsame | ⟨i, -, h0, hd, hc, hdir, -, -, hnode⟩ := opRmdir_cases nm (htree.owned d)
  · rw [hsame]
    exact h
  refine h.erase htree hc ?_ fun j hj => ?_
  · rw [type, hnode, if_pos rfl]
    decide
  · rw [hnode, if_neg hj]
    simp only [hdir, true_and]

end

theorem Keeps.createFile (hfree : ∀ i, k.type i = .free → k.openCount i = 0) :
    Keeps k (k.createFile d nm).1 := by
  rw [Ramfs.createFile]
  split
  · exact .refl
  · next hd => exact Keeps.createNode (not_not.1 hd) hfree nm .file 1

/-- As for a file. -/
theorem Keeps.createDir (hfree : ∀ i, k.type i = .free → k.openCount i = 0) :
    Keeps k (k.createDir d nm).1 := by
  rw [Ramfs.createDir]
  split
  · exact .refl
  next hd =>
  split
  · exact .refl
  have hkeep := Keeps.createNode (not_not.1 hd) hfree nm .dir 2
  generalize k.createNode d nm .dir 2 = r at hkeep
  obtain ⟨k1, rc | i⟩ := r
  · exact hkeep
  · refine ⟨hkeep.count, fun j hj hopen => ?_⟩
    have hsame := hkeep.same j hj hopen
    unfold type name parent at hsame ⊢
    rw [inode_modInode]
    split
    · next hjd => rw [hjd] at hsame ⊢; exact hsame
    · exact hsame

theorem Keeps.opUnlink (htree : Tree False k) : Keeps k (k.opUnlink d nm).1 := by
  obtain hsame | ⟨i, h0, hd, hc, hdir, hcount, hother, hx⟩ := opUnlink_cases nm (htree.owned d)
  · rw [hsame]
    exact .refl
  refine ⟨hcount, fun j hj hopen => ?_⟩
  unfold type name parent
  obtain rfl | hji := eq_or_ne j i
  · obtain ⟨-, hzero, -⟩ | ⟨-, hx⟩ := hx
    · exact absurd hzero hopen
    · rw [hx]
      exact ⟨rfl, rfl, rfl⟩
  · rw [hother j hji]
    exact ⟨rfl, rfl, rfl⟩

/-- This is where the condition of `StepOk` is needed. -/
theorem Keeps.opRmdir (htree : Tree False k)
    (hclosed : k.type (k.lookupChild d nm) = .dir → k.children (k.lookupChild d nm) = [] →
      k.openCount (k.lookupChild d nm) = 0) : Keeps k (k.opRmdir d nm).1 := by
  obtain hsame | ⟨i, rfl, h0, hd, hc, hdir, hempty, hcount, hnode⟩ :=
    opRmdir_cases nm (htree.owned d)
  · rw [hsame]
    exact .refl
  have hzero := hclosed hdir hempty
  refine ⟨?_, fun j hj hopen => ?_⟩
  · rw [hcount, ← hzero, update_eq_self]
  · have hji : j ≠ k.lookupChild d nm := by
      rintro rfl
      exact hopen hzero
    unfold type name parent
    rw [hnode, if_neg hji]
    exact ⟨rfl, rfl, rfl⟩

/-! ## Paths lead to linked inodes -/

namespace Tree

variable {cur : Nat}

section

variable (h : Tree False k)
include h

theorem resolveOne_linked (hcur : k.Linked cur) (comp : FileName) :
    k.resolveOne cur comp = 0 ∨ k.Linked (k.resolveOne cur comp) := by
  unfold resolveOne
  split
  · exact .inr hcur
  · exact h.opResolve_linked hcur comp

/-- A walk stays among the linked inodes, or ends. -/
theorem walk_linked (rel : FileName) :
    ∀ (cur : Nat) (comp : FileName), k.Linked cur →
      k.walkComponents cur comp rel = 0 ∨ k.Linked (k.walkComponents cur comp rel) := by
  induction rel with
  | nil =>
    intro cur comp hcur
    rw [walkComponents]
    split
    · exact h.resolveOne_linked hcur comp
    · exact .inr hcur
  | cons c rel ih =>
    intro cur comp hcur
    rw [walkComponents]
    split
    · split
      · dsimp only
        split
        · exact .inl rfl
        · next hne => exact ih _ [] ((h.resolveOne_linked hcur comp).resolve_left hne)
      · exact ih cur [] hcur
    · exact ih cur _ hcur

theorem resolve_linked {abs : FileName} (hok : k.vfsResolvePath abs = .ok i) : k.Linked i := by
  cases abs with
  | nil => cases hok
  | cons c rel =>
    rw [vfsResolvePath] at hok
    split at hok
    · cases hok
    dsimp only at hok
    split at hok
    · cases hok
    next hne =>
    cases hok
    exact (h.walk_linked rel ramfsRootIno [] (.inl h.root)).resolve_left hne

end

end Tree

theorem Tree.openCount_congr (h : Tree False k) (hnode : k'.inode = k.inode) : Tree False k' := by
  obtain ⟨inode', openCount'⟩ := k'
  cases hnode
  exact h.congr rfl (fun _ => Iff.rfl) (fun _ => Iff.rfl) (fun _ _ => rfl) (fun _ _ => rfl)
    (fun _ => h.links) fun _ => id

/-- The inode `vfs_open` finds or creates, and what it does to the table. -/
theorem lookupOrCreate_spec (htree : Tree False k) (hlinks : DirLinks k)
    (hfree : ∀ i, k.type i = .free → k.openCount i = 0) (abs : FileName) (flags : Word) :
    Tree False (k.lookupOrCreate abs flags).1 ∧ DirLinks (k.lookupOrCreate abs flags).1 ∧
      Keeps k (k.lookupOrCreate abs flags).1 ∧ ∀ i, (k.lookupOrCreate abs flags).2 = .ok i →
        (k.lookupOrCreate abs flags).1.type i ≠ .free := by
  unfold lookupOrCreate
  cases hres : k.vfsResolvePath abs with
  | ok i =>
    refine ⟨htree, hlinks, .refl, ?_⟩
    rintro _ ⟨⟩ hf
    exact Shape.not_linked_of_free hf (htree.resolve_linked hres)
  | error rc =>
    dsimp only
    split
    · cases k.vfsResolveParentAndLeaf abs with
      | error prc => exact ⟨htree, hlinks, .refl, by rintro _ ⟨⟩⟩
      | ok r =>
        obtain ⟨parent, leaf⟩ := r
        dsimp only
        refine ⟨htree.createFile (fun hf => hf.elim), hlinks.createFile htree,
          .createFile hfree, fun i hi => ?_⟩
        unfold createFile at hi ⊢
        split at hi
        · cases hi
        next hd =>
        rw [if_neg hd]
        obtain ⟨i', -, -, hok, -, hnode⟩ | ⟨⟨rc, herr⟩, -⟩ | ⟨_, -, ⟨rc, herr⟩, -⟩ :=
          createNode_cases (not_not.1 hd) leaf .file 1
        · rw [hok] at hi
          cases hi
          rw [type, hnode, if_pos rfl]
          rintro ⟨⟩
        · rw [herr] at hi
          cases hi
        · rw [herr] at hi
          cases hi
    · exact ⟨htree, hlinks, .refl, by rintro _ ⟨⟩⟩

end Ramfs

/-! ## The descriptors under the operations -/

namespace Files

variable {S : Files} {p : Fin maxProcesses} {q : FdProc} {flags : Word} {fd : Fin maxOpenFiles}

/-- An open that finds an inode: an entry that was not in use is taken, or no
entry that is in use changes. -/
theorem vfsOpen_cases (hsupp : flags &&& ~~~ vfsOpenSupportedFlags = 0)
    (hacc : flags &&& oAccmode ≠ oAccmode) (inode pos : Nat) :
    (∃ e, (S.openFiles e).refcount = 0 ∧ ¬ (S.vfsOpen p q flags (.ok (inode, pos))).2 < 0 ∧
      (S.vfsOpen p q flags (.ok (inode, pos))).1.openFiles
        = update S.openFiles e ⟨inode, pos, flags, 1⟩) ∨
    (S.vfsOpen p q flags (.ok (inode, pos))).2 < 0 ∧
      ((S.vfsOpen p q flags (.ok (inode, pos))).1.openFiles = S.openFiles ∨
        ∃ e f, (S.openFiles e).refcount = 0 ∧ f.refcount = 0 ∧
          (S.vfsOpen p q flags (.ok (inode, pos))).1.openFiles = update S.openFiles e f) := by
  rw [vfsOpen, if_neg (not_not.2 hsupp), if_neg hacc]
  cases hfree : S.freeOpenFile with
  | none => exact .inr ⟨(by decide : -Errno.EMFILE < 0), .inl rfl⟩
  | some e =>
    have hzero := freeOpenFile_spec hfree
    cases findFreeFd q.fds with
    | none =>
      refine .inr
        ⟨(by decide : -Errno.EMFILE < 0), .inr ⟨e, ⟨inode, pos, flags, 0⟩, hzero, rfl, ?_⟩⟩
      simp [setCount, setFile]
    | some fd => exact .inl ⟨e, hzero, by simp, rfl⟩

/-- What a close does to the table of open files. -/
theorem openFiles_vfsClose (S : Files) (p : Fin maxProcesses) (q : FdProc)
    (fd : Fin maxOpenFiles) : (S.vfsClose p q fd).openFiles =
    if h : (q.fds fd).ofIdx ≠ 0 ∧ (q.fds fd).ofIdx - 1 < vfsMaxOpenFiles then
      update S.openFiles ⟨(q.fds fd).ofIdx - 1, h.2⟩
        { S.openFiles ⟨(q.fds fd).ofIdx - 1, h.2⟩ with
          refcount := (S.openFiles ⟨(q.fds fd).ofIdx - 1, h.2⟩).refcount - 1 }
    else S.openFiles := by
  rw [vfsClose]
  dsimp only
  by_cases h0 : (q.fds fd).ofIdx = 0
  · rw [if_pos h0, dif_neg fun h => h.1 h0]
  rw [if_neg h0]
  by_cases hlt : (q.fds fd).ofIdx - 1 < vfsMaxOpenFiles
  · rw [dif_pos hlt, dif_pos ⟨h0, hlt⟩]
    split
    · rfl
    · have hz : (S.openFiles ⟨(q.fds fd).ofIdx - 1, hlt⟩).refcount = 0 := by omega
      have hsame : ∀ f : OpenFile, f.refcount = 0 → { f with refcount := f.refcount - 1 } = f := by
        rintro ⟨inode, pos, flags, n⟩ rfl
        rfl
      rw [hsame _ hz, update_eq_self]
      rfl
  · rw [dif_neg hlt, dif_neg fun h => hlt h.2]
    rfl

theorem openFiles_sysClose_of_ne (h : (q.fds fd).kind ≠ .vfs) :
    (S.sysClose p q fd).1.openFiles = S.openFiles := by
  rw [sysClose]
  cases hk : (q.fds fd).kind with
  | console | pipe => rfl
  | vfs => exact absurd hk h
  | invalid => rfl

theorem openFiles_processCreate {stdio : Bool} :
    (S.processCreate stdio).openFiles = S.openFiles := by
  rw [processCreate]
  cases S.freeSlot with
  | none | some => rfl

end Files

namespace RamfsFiles

variable {s s' : RamfsFiles}

structure OpenInv (s : RamfsFiles) : Prop extends OpenRefs s where
  tree : Ramfs.Tree False s.fs
  links : Ramfs.DirLinks s.fs

theorem ref_congr (h : s'.files.openFiles = s.files.openFiles) : s'.ref = s.ref := by
  funext e
  rw [ref, ref, h]

theorem ref_update (s s' : RamfsFiles) {e : Fin vfsMaxOpenFiles} {f : OpenFile}
    (h : s'.files.openFiles = update s.files.openFiles e f) :
    s'.ref = update s.ref e (if f.refcount = 0 then none else some f.inode) := by
  funext x
  rw [ref, h]
  by_cases hx : x = e
  · rw [hx, update_self, update_self]
  · rw [update_of_ne hx, update_of_ne hx]
    rfl

theorem refCount_le (i : Nat) : refCount s.ref i ≤ vfsMaxOpenFiles := by
  have h : refCount s.ref i ≤ Fintype.card (Fin vfsMaxOpenFiles) := Finset.card_le_univ _
  rwa [Fintype.card_fin] at h

namespace OpenInv

section

variable (h : OpenInv s)
include h

/-- A free inode is not open. -/
theorem count_of_free (i : Nat) (hi : s.fs.type i = .free) : s.fs.openCount i = 0 := by
  rw [h.count]
  exact refCount.eq_zero_iff.2 fun e he => h.live e i he hi

theorem count_ne_zero {e : Fin vfsMaxOpenFiles} {i : Nat}
    (he : s.ref e = some i) : s.fs.openCount i ≠ 0 := by
  rw [h.count]
  exact (refCount.pos_of_mem he).ne'

/-- An operation that leaves the entries and the open inodes alone. -/
theorem keep (hfiles : s'.files.openFiles = s.files.openFiles)
    (hkeep : Ramfs.Keeps s.fs s'.fs) (htree : Ramfs.Tree False s'.fs)
    (hlinks : Ramfs.DirLinks s'.fs) : OpenInv s' ∧ Denotes s s' := by
  have href := ref_congr hfiles
  refine ⟨⟨⟨fun e i he => ?_, fun i => ?_⟩, htree, hlinks⟩, fun e i he _ => ?_⟩
  · rw [href] at he
    rw [(hkeep.same i (h.live e i he) (h.count_ne_zero he)).1]
    exact h.live e i he
  · rw [hkeep.count, href]
    exact h.count i
  · exact ⟨href ▸ he, hkeep.same i (h.live e i he) (h.count_ne_zero he)⟩

/-- The inode is found or made, and its count goes up only if a descriptor was free. -/
theorem vfsOpen {p : Fin maxProcesses} {q : FdProc} {abs : FileName} {flags : Word} {size : Nat} :
    OpenInv (s.vfsOpen p q abs flags size).1 ∧ Denotes s (s.vfsOpen p q abs flags size).1 := by
  have hsame : OpenInv s ∧ Denotes s s := h.keep rfl .refl h.tree h.links
  rw [RamfsFiles.vfsOpen]
  split
  · exact hsame
  next hsupp =>
  split
  · exact hsame
  next hacc =>
  obtain ⟨htree, hlinks, hkeep, hnew⟩ :=
    Ramfs.lookupOrCreate_spec h.tree h.links h.count_of_free abs flags
  generalize s.fs.lookupOrCreate abs flags = r at htree hlinks hkeep hnew
  obtain ⟨fs, rc | inode⟩ := r
  · exact h.keep rfl hkeep htree hlinks
  dsimp only at htree hlinks hkeep hnew ⊢
  generalize (if flags &&& oAppend ≠ 0 then size else 0) = pos
  -- first the inode, then the entry
  obtain ⟨h1, -⟩ : OpenInv ⟨s.files, fs⟩ ∧ Denotes s ⟨s.files, fs⟩ := h.keep rfl hkeep htree hlinks
  obtain ⟨e, hzero, hfd, hfiles⟩ | ⟨hfd, hfiles⟩ :=
    Files.vfsOpen_cases (not_not.1 hsupp) hacc inode pos
  · generalize s.files.vfsOpen p q flags (.ok (inode, pos)) = r at hfd hfiles
    rw [if_neg hfd]
    have href := ref_update ⟨s.files, fs⟩ ⟨r.1, fs.incOpen inode⟩ hfiles
    have hnone : (⟨s.files, fs⟩ : RamfsFiles).ref e = none := if_pos hzero
    rw [if_neg Nat.one_ne_zero] at href
    refine ⟨⟨⟨fun x i hx => ?_, fun i => ?_⟩, ?_, hlinks⟩, fun x i hx _ => ?_⟩
    · rw [href] at hx
      by_cases hxe : x = e
      · rw [hxe, update_self] at hx
        cases hx
        exact hnew _ rfl
      · rw [update_of_ne hxe] at hx
        exact h1.live x i hx
    · rw [href, refCount.update_some e inode hnone, ← h1.count]
      have hle := refCount_le (s := ⟨s.files, fs⟩) i
      rw [← h1.count] at hle
      have hmax : vfsMaxOpenFiles = 64 := rfl
      show update fs.openCount inode _ i = fs.openCount i + _
      by_cases hi : i = inode
      · rw [hi, update_self, if_pos rfl]
        rw [hi] at hle
        exact Nat.mod_eq_of_lt (by dsimp only at hle; omega)
      · rw [update_of_ne hi, if_neg (Ne.symm hi)]
        rfl
    · exact htree.openCount_congr rfl
    · have hxe : x ≠ e := by
        rintro rfl
        exact absurd (hx.symm.trans hnone) (by rintro ⟨⟩)
      refine ⟨?_, hkeep.same i (h.live x i hx) (h.count_ne_zero hx)⟩
      rw [href, update_of_ne hxe]
      exact hx
  · generalize s.files.vfsOpen p q flags (.ok (inode, pos)) = r at hfd hfiles
    rw [if_pos hfd]
    have href : (⟨r.1, fs⟩ : RamfsFiles).ref = s.ref := by
      obtain hfiles | ⟨e, f, hzero, hf, hfiles⟩ := hfiles
      · exact ref_congr hfiles
      · rw [ref_update s ⟨r.1, fs⟩ hfiles, if_pos hf]
        have hnone : s.ref e = none := if_pos hzero
        rw [← hnone, update_eq_self]
    refine ⟨⟨⟨fun x i hx => h1.live x i (href ▸ hx), fun i => ?_⟩, htree, hlinks⟩,
      fun x i hx _ => ⟨href ▸ hx, hkeep.same i (h.live x i hx) (h.count_ne_zero hx)⟩⟩
    rw [href]
    exact h1.count i

/-- The last close of an entry: the table has one open less, and an inode that is
freed was not linked and is not open. -/
theorem lastClose {e : Fin vfsMaxOpenFiles} {f : OpenFile}
    (hone : (s.files.openFiles e).refcount = 1) (hf : f.refcount = 0)
    (hs' : s'.files.openFiles = update s.files.openFiles e f)
    (hfs : s'.fs = s.fs.lastClose (s.files.openFiles e).inode) : OpenInv s' ∧ Denotes s s' := by
  generalize hi : (s.files.openFiles e).inode = i at hfs
  have he : s.ref e = some i := by rw [ref, if_neg (by omega), hi]
  have href : s'.ref = update s.ref e none := by rw [ref_update s s' hs', if_pos hf]
  have hcount (j : Nat) : (s.fs.decOpen i).openCount j = refCount s'.ref j := by
    have hdrop := refCount.update_none (a := j) he
    rw [href]
    rw [← h.count] at hdrop
    have hle := refCount_le (s := s) j
    rw [← h.count] at hle
    have hmax : vfsMaxOpenFiles = 64 := rfl
    show update s.fs.openCount i _ j = _
    obtain rfl | hj := eq_or_ne j i
    · rw [if_pos rfl] at hdrop
      rw [update_self]
      omega
    · rw [if_neg (Ne.symm hj)] at hdrop
      rw [update_of_ne hj]
      exact hdrop.symm
  have htree : Ramfs.Tree False (s.fs.decOpen i) := h.tree.openCount_congr rfl
  have hstays {x : Fin vfsMaxOpenFiles} {j : Nat} (hx : s'.ref x = some j) : s.ref x = some j := by
    rw [href] at hx
    by_cases hxe : x = e
    · rw [hxe, update_self] at hx
      cases hx
    · rwa [update_of_ne hxe] at hx
  rw [Ramfs.lastClose] at hfs
  by_cases hgone : (s.fs.decOpen i).openCount i = 0 ∧ (s.fs.decOpen i).type i ≠ .free ∧
      (s.fs.decOpen i).nlink i = 0
  · rw [if_pos hgone] at hfs
    obtain ⟨hzero, hlive, hnl⟩ := hgone
    -- a directory has links, so this is a file without a name
    have hfile : ¬ s.fs.Linked i := by
      rintro (hd | hl)
      · have := h.links i hd
        have : s.fs.nlink i = 0 := hnl
        omega
      · exact hl.2 hnl
    have hbound : i < ramfsMaxInodes := h.tree.bound hlive
    have hi0 : i ≠ 0 := by
      rintro rfl
      exact hlive h.tree.zero
    have hclosed (x : Fin vfsMaxOpenFiles) : s'.ref x ≠ some i :=
      refCount.eq_zero_iff.1 ((hcount i).symm.trans hzero) x
    have hnode (j : Nat) : s'.fs.inode j = if j = i then .zeroed else s.fs.inode j := by
      rw [hfs, Ramfs.inode_freeInode hi0 hbound]
      rfl
    have hsame {j : Nat} (hj : j ≠ i) : s'.fs.inode j = s.fs.inode j := (hnode j).trans (if_neg hj)
    have hother {x : Fin vfsMaxOpenFiles} {j : Nat} (hx : s'.ref x = some j) : j ≠ i := by
      rintro rfl
      exact hclosed x hx
    have hkid {d : Nat} : ∀ c ∈ s.fs.children d, c ≠ i := by
      rintro c hc rfl
      exact hfile (h.tree.child hc).2.2.1
    refine ⟨⟨⟨fun x j hx => ?_, fun j => ?_⟩, ?_, fun d hd => ?_⟩, fun x j hx hx' => ?_⟩
    · rw [Ramfs.type, hsame (hother hx)]
      exact h.live x j (hstays hx)
    · rw [hfs, Ramfs.openCount_freeInode hi0 hbound]
      by_cases hj : j = i
      · rw [hj, update_self, ← hcount i]
        exact hzero.symm
      · rw [update_of_ne hj]
        exact hcount j
    · exact h.tree.drop_unlinked hfile hnode
    · have hdi : d ≠ i := by
        rintro rfl
        rw [Ramfs.type, hnode, if_pos rfl] at hd
        cases hd
      rw [Ramfs.type, hsame hdi] at hd
      rw [Ramfs.subdirs_congr (congrArg RamfsInode.children (hsame hdi)) fun c hc =>
        congrArg RamfsInode.type (hsame (hkid c hc))]
      exact (congrArg RamfsInode.nlink (hsame hdi)).trans (h.links d hd)
    · obtain ⟨j', hj'⟩ := ne_none_iff_exists'.1 hx'
      have hjj : j' = j := Option.some.inj ((hstays hj').symm.trans hx)
      subst hjj
      unfold Ramfs.type Ramfs.name Ramfs.parent
      rw [hsame (hother hj')]
      exact ⟨hj', rfl, rfl, rfl⟩
  · rw [if_neg hgone] at hfs
    refine ⟨⟨⟨fun x j hx => ?_, fun j => ?_⟩, hfs ▸ htree, ?_⟩, fun x j hx hx' => ?_⟩
    · rw [hfs]
      exact h.live x j (hstays hx)
    · rw [hfs]
      exact hcount j
    · rw [hfs]
      exact h.links
    · obtain ⟨j', hj'⟩ := ne_none_iff_exists'.1 hx'
      have hjj : j' = j := Option.some.inj ((hstays hj').symm.trans hx)
      subst hjj
      rw [hfs]
      exact ⟨hj', rfl, rfl, rfl⟩

/-- The last close of an inode without a name frees it. -/
theorem vfsClose {p : Fin maxProcesses} {q : FdProc} {fd : Fin maxOpenFiles} :
    OpenInv (s.vfsClose p q fd) ∧ Denotes s (s.vfsClose p q fd) := by
  have hfiles := Files.openFiles_vfsClose s.files p q fd
  unfold RamfsFiles.vfsClose
  dsimp only
  split at hfiles
  · next hidx =>
    rw [dif_pos hidx]
    generalize (⟨(q.fds fd).ofIdx - 1, hidx.2⟩ : Fin vfsMaxOpenFiles) = e at hfiles
    split
    · next hone => exact h.lastClose hone (by rw [hone]) hfiles rfl
    · -- the entry stays in use, or was not
      have href : (⟨s.files.vfsClose p q fd, s.fs⟩ : RamfsFiles).ref = s.ref := by
        rw [ref_update s ⟨s.files.vfsClose p q fd, s.fs⟩ hfiles]
        refine update_eq_self_iff.2 ?_
        rw [ref]
        dsimp only
        by_cases hz : (s.files.openFiles e).refcount = 0
        · rw [if_pos (by omega), if_pos hz]
        · rw [if_neg (by omega), if_neg hz]
      refine ⟨⟨⟨fun x i hx => h.live x i (href ▸ hx), fun i => ?_⟩, h.tree, h.links⟩,
        fun x i hx _ => ⟨href ▸ hx, rfl, rfl, rfl⟩⟩
      rw [href]
      exact h.count i
  · next hidx =>
    rw [dif_neg hidx]
    exact h.keep hfiles .refl h.tree h.links

/-- One case for each event. -/
theorem step {e : OpenEvent} (he : s.StepOk e) : OpenInv (s.step e) ∧ Denotes s (s.step e) := by
  have hsame : OpenInv s ∧ Denotes s s := h.keep rfl .refl h.tree h.links
  cases e with
  | spawn stdio => exact h.keep Files.openFiles_processCreate .refl h.tree h.links
  | openFile p abs flags size =>
    show OpenInv (s.doBy p _) ∧ Denotes s (s.doBy p _)
    rw [doBy]
    cases s.files.live p with
    | none => exact hsame
    | some q => exact h.vfsOpen
  | close p fd =>
    show OpenInv (s.doBy p _) ∧ Denotes s (s.doBy p _)
    rw [doBy]
    cases s.files.live p with
    | none => exact hsame
    | some q =>
      show OpenInv (s.sysClose p q fd) ∧ Denotes s (s.sysClose p q fd)
      rw [sysClose]
      split
      · exact h.vfsClose
      · next hk => exact h.keep (Files.openFiles_sysClose_of_ne hk) .refl h.tree h.links
  | create parent name =>
    exact h.keep rfl (.createFile h.count_of_free) (h.tree.createFile fun hf => hf.elim)
      (h.links.createFile h.tree)
  | mkdir path =>
    show OpenInv ⟨s.files, (s.fs.vfsMkdir path).1⟩ ∧ Denotes s ⟨s.files, (s.fs.vfsMkdir path).1⟩
    rw [Ramfs.vfsMkdir]
    split
    · exact hsame
    cases s.fs.vfsResolveParentAndLeaf path with
    | error rc => exact hsame
    | ok r =>
      obtain ⟨parent, leaf⟩ := r
      have hnew : OpenInv ⟨s.files, (s.fs.createDir parent leaf).1⟩ ∧
          Denotes s ⟨s.files, (s.fs.createDir parent leaf).1⟩ := h.keep rfl
        (.createDir h.count_of_free) (h.tree.createDir fun hf => hf.elim)
        (h.links.createDir h.tree)
      dsimp only
      generalize s.fs.createDir parent leaf = r at hnew ⊢
      obtain ⟨fs, rc | i⟩ := r
      · exact hnew
      · exact hnew
  | unlink abs =>
    show OpenInv ⟨s.files, (s.fs.vfsUnlink abs).1⟩ ∧ Denotes s ⟨s.files, (s.fs.vfsUnlink abs).1⟩
    rw [Ramfs.vfsUnlink]
    cases s.fs.vfsResolveParentAndLeaf abs with
    | error rc => exact hsame
    | ok r => exact h.keep rfl (.opUnlink h.tree) h.tree.opUnlink (h.links.opUnlink h.tree)
  | rmdir abs =>
    show OpenInv ⟨s.files, (s.fs.vfsRmdir abs).1⟩ ∧ Denotes s ⟨s.files, (s.fs.vfsRmdir abs).1⟩
    rw [Ramfs.vfsRmdir]
    cases hres : s.fs.vfsResolveParentAndLeaf abs with
    | error rc => exact hsame
    | ok r =>
      obtain ⟨parent, leaf⟩ := r
      dsimp only
      -- the condition excludes a directory that is open
      split
      · exact hsame
      split
      · exact hsame
      · exact h.keep rfl (.opRmdir h.tree (he parent leaf hres)) h.tree.opRmdir
          (h.links.opRmdir h.tree)

end

/-- At first nothing is open. -/
theorem boot : OpenInv boot where
  live e i he := by cases he
  count i := (refCount.eq_zero_iff.2 fun e he => by cases he).symm
  tree := Ramfs.Shape.init
  links d hd := by
    have hroot : d = ramfsRootIno := by
      by_contra hne
      have hf : Ramfs.init.type d = .free := by
        simp only [Ramfs.type, Ramfs.init, if_neg hne]
        rfl
      exact absurd (hd.symm.trans hf) (by decide)
    show Ramfs.init.nlink d = 2 + Ramfs.init.subdirs d
    rw [Ramfs.subdirs, hroot]
    rfl

end OpenInv

open Machine

/-- Along every run that removes no open directory, the open inodes are counted
and not free, and what is open goes on denoting the same file or directory. -/
theorem openRefs_of_stepOk {es : List OpenEvent} (hes : Along step StepOk .boot es) :
    OpenRefs (run step .boot es) ∧ Along step (fun s e => Denotes s (s.step e)) .boot es := by
  refine ⟨(run_invariant (fun _ _ h he => (h.step he).1) OpenInv.boot hes).toOpenRefs, ?_⟩
  -- each step by itself, from a state that the invariant holds in
  have hall : ∀ (es : List OpenEvent) {s : RamfsFiles}, OpenInv s → Along step StepOk s es →
      Along step (fun s e => Denotes s (s.step e)) s es := by
    intro es
    induction es with
    | nil => exact fun _ _ => trivial
    | cons e es ih => exact fun h hes => ⟨(h.step hes.1).2, ih (h.step hes.1).1 hes.2⟩
  exact hall es OpenInv.boot hes

/-- Along such a run the link counts of the directories are exact. -/
theorem dirLinks_of_stepOk {es : List OpenEvent} (hes : Along step StepOk .boot es) :
    (run step .boot es).fs.DirLinks :=
  (run_invariant (fun _ _ h he => (h.step he).1) OpenInv.boot hes).links

/-- A file is created and unlinked while it is open, and a directory comes and
goes. -/
def unlinkOpenRun : List OpenEvent :=
  [.spawn true, .openFile Files.firstSlot [slash, 0x61] oCreat 0, .unlink [slash, 0x61],
    .mkdir [slash, 0x64], .rmdir [slash, 0x64], .close Files.firstSlot Files.fd3]

theorem stepOk_unlinkOpenRun : Along step StepOk .boot unlinkOpenRun := by
  have hrmdir : StepOk (run step .boot (unlinkOpenRun.take 4)) (.rmdir [slash, 0x64]) := by
    intro parent leaf hok
    have : (run step .boot (unlinkOpenRun.take 4)).fs.vfsResolveParentAndLeaf [slash, 0x64]
        = .ok (1, [0x64]) := by
      rfl
    cases hok
    decide +kernel
  exact ⟨trivial, trivial, trivial, trivial, hrmdir, trivial, trivial⟩

theorem openRefs_unlinkOpenRun : OpenRefs (run step .boot unlinkOpenRun) ∧
    (run step .boot (unlinkOpenRun.take 5)).fs.type 2 = .file ∧
    (run step .boot unlinkOpenRun).fs.type 2 = .free :=
  ⟨(openRefs_of_stepOk stepOk_unlinkOpenRun).1, by decide +kernel, by decide +kernel⟩

/-- The directory counts for the root while it is there. -/
theorem dirLinks_unlinkOpenRun : (run step .boot unlinkOpenRun).fs.DirLinks ∧
    (run step .boot (unlinkOpenRun.take 4)).fs.nlink ramfsRootIno = 3 ∧
    (run step .boot unlinkOpenRun).fs.nlink ramfsRootIno = 2 :=
  ⟨dirLinks_of_stepOk stepOk_unlinkOpenRun, by decide +kernel, by decide +kernel⟩

/-- A directory is removed while it is open. -/
def rmdirOpenRun : List OpenEvent :=
  [.spawn true, .mkdir [slash, 0x64], .openFile Files.firstSlot [slash, 0x64] oRdonly 0,
    .rmdir [slash, 0x64]]

theorem rmdirOpenRun_frees_open : ¬ OpenRefs (run step .boot rmdirOpenRun) := by
  intro h
  have href : (run step .boot rmdirOpenRun).ref ⟨0, by decide⟩ = some 2 := by decide +kernel
  exact h.live _ 2 href (by decide +kernel)

end RamfsFiles

end UnixOs
