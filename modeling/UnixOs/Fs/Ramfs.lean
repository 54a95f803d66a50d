import Mathlib.Algebra.Order.Group.Nat
import UnixOs.Core.Kernel

/-!
# The in-memory file system (ramfs.c, ramfs_ops.c)

A table of 128 inodes. Inode 0 means "not found", inode 1 is the root, the others
are handed out from 2 on. A directory lists its children, at most 64; a child
knows its name and its parent.

The table is a function; beyond its end every inode is free. Of an inode the
type, link count, name, parent and children are kept: owner, mode, times and the
data are not looked at by the operations on names.
-/

namespace UnixOs

open Function List Errno

/-- `RAMFS_MAX_INODES`. -/
def ramfsMaxInodes : Nat := 128

/-- `RAMFS_MAX_CHILDREN`. -/
def ramfsMaxChildren : Nat := 64

/-- `RAMFS_MAX_NAME`, with the terminating zero. -/
def ramfsMaxName : Nat := 64

/-- `RAMFS_ROOT_INO`. -/
def ramfsRootIno : Nat := 1

/-- A C string, without its terminating zero. -/
abbrev FileName := List UInt8

/-- `kstrncpy(dst, name, RAMFS_MAX_NAME)`. -/
def storedName (name : FileName) : FileName := name.take (ramfsMaxName - 1)

inductive InodeType where
  | free
  | file
  | dir
  deriving DecidableEq

/-- `ramfs_inode_t`; `children` are the first `child_count` entries of the
array. -/
structure RamfsInode where
  type : InodeType
  nlink : Nat
  name : FileName
  parent : Nat
  children : List Nat
  deriving DecidableEq

/-- `kmemset(node, 0, sizeof(ramfs_inode_t))`. -/
def RamfsInode.zeroed : RamfsInode := ⟨.free, 0, [], 0, []⟩

/-- `inode_table` and `inode_open_count`. -/
structure Ramfs where
  inode : Nat → RamfsInode
  openCount : Nat → Nat

namespace Ramfs

variable (k : Ramfs)

def type (i : Nat) : InodeType := (k.inode i).type
def nlink (i : Nat) : Nat := (k.inode i).nlink
def name (i : Nat) : FileName := (k.inode i).name
def parent (i : Nat) : Nat := (k.inode i).parent
def children (i : Nat) : List Nat := (k.inode i).children

def setInode (i : Nat) (n : RamfsInode) : Ramfs :=
  { k with inode := update k.inode i n }

def modInode (i : Nat) (f : RamfsInode → RamfsInode) : Ramfs := k.setInode i (f (k.inode i))

/-- The first free slot from 2 on (ramfs.c:41). -/
def freeSlot : Option Nat :=
  (range' 2 (ramfsMaxInodes - 2)).find? fun i => k.type i = .free

/-- `ramfs_free_inode` (ramfs.c:52). -/
def freeInode (i : Nat) : Ramfs :=
  if i = 0 ∨ ramfsMaxInodes ≤ i then k
  else
    { k.setInode i .zeroed with openCount := update k.openCount i 0 }

/-- `ramfs_lookup_child` (ramfs.c:67). -/
def lookupChild (parent : Nat) (name : FileName) : Nat :=
  if k.type parent ≠ .dir then 0
  else ((k.children parent).find? fun c => k.name c == name).getD 0

/-- `ramfs_add_child` (ramfs.c:82). -/
def addChild (parent child : Nat) : Ramfs × Int :=
  if k.type parent ≠ .dir then (k, -ENOTDIR)
  else if ramfsMaxChildren ≤ (k.children parent).length then (k, -ENOSPC)
  else
    let k := k.modInode parent fun n => { n with children := n.children ++ [child] }
    (k.modInode child fun n => { n with parent := parent }, 0)

/-- `ramfs_remove_child` (ramfs.c:94). -/
def removeChild (parent child : Nat) : Ramfs × Int :=
  if k.type parent ≠ .dir then (k, -ENOTDIR)
  else if child ∈ k.children parent then
    (k.modInode parent fun n => { n with children := n.children.erase child }, 0)
  else (k, -ENOENT)

/-- The part `ramfs_create_dir` and `ramfs_create_file` share: a new inode,
filled in, added to `parent`, and freed again when that fails. Returns the inode
or the error. -/
def createNode (parent : Nat) (name : FileName) (type : InodeType) (nlink : Nat) :
    Ramfs × Except Int Nat :=
  match k.freeSlot with
  | none => (k, .error (-ENOSPC))
  | some i =>
    let k := k.setInode i
      { RamfsInode.zeroed with type := type, nlink := nlink, name := storedName name }
    let (k, rc) := k.addChild parent i
    if rc < 0 then (k.freeInode i, .error rc) else (k, .ok i)

/-- `ramfs_create_dir` (ramfs.c:211). -/
def createDir (parent : Nat) (name : FileName) : Ramfs × Except Int Nat :=
  if k.type parent ≠ .dir then (k, .error (-ENOTDIR))
  else if k.lookupChild parent name ≠ 0 then (k, .error (-EEXIST))
  else
    match k.createNode parent name .dir 2 with
    | (k, .ok i) => (k.modInode parent fun n => { n with nlink := (n.nlink + 1) % 2 ^ 32 }, .ok i)
    | (k, .error rc) => (k, .error rc)

/-- `ramfs_create_file` (ramfs.c:241): it does not look the name up. -/
def createFile (parent : Nat) (name : FileName) : Ramfs × Except Int Nat :=
  if k.type parent ≠ .dir then (k, .error (-ENOTDIR))
  else k.createNode parent name .file 1

/-- `if (node->nlink > 0) node->nlink--`. -/
def dropLink (i : Nat) : Ramfs := k.modInode i fun n => { n with nlink := n.nlink - 1 }

/-- `ramfs_op_unlink` (ramfs_ops.c:108). -/
def opUnlink (parent : Nat) (name : FileName) : Ramfs × Int :=
  let i := k.lookupChild parent name
  if i = 0 then (k, -ENOENT)
  else if k.type i = .dir then (k, -EISDIR)
  else
    let k := (k.removeChild parent i).1
    let k := k.dropLink i
    if k.nlink i = 0 ∧ k.openCount i = 0 then (k.freeInode i, 0) else (k, 0)

/-- `ramfs_op_rmdir` (ramfs_ops.c:128): the open count is not looked at. -/
def opRmdir (parent : Nat) (name : FileName) : Ramfs × Int :=
  let i := k.lookupChild parent name
  if i = 0 then (k, -ENOENT)
  else if k.type i ≠ .dir then (k, -ENOTDIR)
  else if k.children i ≠ [] then (k, -ENOTEMPTY)
  else
    let k := (k.removeChild parent i).1
    let k := k.dropLink parent
    (k.freeInode i, 0)

/-- `ramfs_set_name` (ramfs.c:318). -/
def setName (i : Nat) (name : FileName) : Ramfs :=
  if i = 0 ∨ ramfsMaxInodes ≤ i ∨ k.type i = .free then k
  else k.modInode i fun n => { n with name := storedName name }

/-- `ramfs_op_rename` (ramfs_ops.c:166): neither the new name nor the place of
the new parent is looked at. -/
def opRename (oldParent : Nat) (oldName : FileName) (newParent : Nat) (newName : FileName) :
    Ramfs × Int :=
  let i := k.lookupChild oldParent oldName
  if i = 0 then (k, -ENOENT)
  else
    let (k, rc) := k.removeChild oldParent i
    if rc < 0 then (k, rc)
    else
      let k := k.setName i newName
      let (k, rc) := k.addChild newParent i
      if rc < 0 then ((k.addChild oldParent i).1, rc) else (k, 0)

/-- `ramfs_init` (ramfs.c:199). -/
def init : Ramfs where
  inode i := if i = ramfsRootIno then ⟨.dir, 2, [0x2F], 0, []⟩ else .zeroed
  openCount _ := 0

/-! ## How the stores are seen -/

variable {k} {i j : Nat} {n : RamfsInode}

theorem inode_setInode : (k.setInode i n).inode j = if j = i then n else k.inode j := by
  show update k.inode i n j = _
  by_cases h : j = i
  · rw [if_pos h, h, update_self]
  · rw [if_neg h, update_of_ne h]

theorem openCount_setInode : (k.setInode i n).openCount = k.openCount := rfl

theorem inode_modInode {f : RamfsInode → RamfsInode} :
    (k.modInode i f).inode j = if j = i then f (k.inode i) else k.inode j :=
  inode_setInode

/-- Freeing an inode of the table. -/
theorem inode_freeInode (h0 : i ≠ 0) (hi : i < ramfsMaxInodes) :
    (k.freeInode i).inode j = if j = i then .zeroed else k.inode j := by
  rw [freeInode, if_neg (by omega)]
  exact inode_setInode

theorem openCount_freeInode (h0 : i ≠ 0) (hi : i < ramfsMaxInodes) :
    (k.freeInode i).openCount = update k.openCount i 0 := by
  rw [freeInode, if_neg (by omega)]

theorem freeSlot_spec (h : k.freeSlot = some i) :
    k.type i = .free ∧ 2 ≤ i ∧ i < ramfsMaxInodes := by
  have htype := find?_some h
  have hmem := mem_range'_1.1 (mem_of_find?_eq_some h)
  exact ⟨of_decide_eq_true htype, hmem.1, by omega⟩

theorem freeSlot_ne {d : Nat} (h : k.freeSlot = some i) (hd : k.type d = .dir) : d ≠ i := by
  rintro rfl
  rw [(freeSlot_spec h).1] at hd
  cases hd

/-- What a successful lookup has found. -/
theorem lookupChild_spec {d : Nat} {name : FileName} (h : k.lookupChild d name ≠ 0) :
    k.type d = .dir ∧ k.lookupChild d name ∈ k.children d ∧
      k.name (k.lookupChild d name) = name := by
  unfold lookupChild at h ⊢
  split at h
  · exact absurd rfl h
  next hdir =>
  rw [if_neg hdir]
  refine ⟨not_not.1 hdir, ?_⟩
  cases hfind : (k.children d).find? fun c => k.name c == name with
  | none =>
    rw [hfind] at h
    exact absurd rfl h
  | some c =>
    have hname := find?_some hfind
    exact ⟨mem_of_find?_eq_some hfind, eq_of_beq hname⟩

/-- A lookup that finds nothing, among children none of which is inode 0. -/
theorem lookupChild_eq_zero {d : Nat} {name : FileName} (hdir : k.type d = .dir)
    (hzero : 0 ∉ k.children d) (h : k.lookupChild d name = 0) :
    ∀ c ∈ k.children d, k.name c ≠ name := by
  intro c hc hname
  rw [lookupChild, if_neg (not_not.2 hdir)] at h
  cases hfind : (k.children d).find? fun c => k.name c == name with
  | none =>
    have := find?_eq_none.1 hfind c hc
    rw [hname] at this
    exact this (beq_self_eq_true name)
  | some c' =>
    rw [hfind] at h
    have hz : c' = 0 := h
    exact hzero (hz ▸ mem_of_find?_eq_some hfind)

/-! ## What the operations do -/

variable {d : Nat} {nm : FileName} {ty : InodeType} {nl : Nat}

/-- A successful `ramfs_add_child`. -/
theorem addChild_ok (hd : k.type d = .dir) (hroom : (k.children d).length < ramfsMaxChildren) :
    (k.addChild d i).2 = 0 ∧ (k.addChild d i).1.openCount = k.openCount ∧
      ∀ j, (k.addChild d i).1.inode j =
      { k.inode j with
        parent := if j = i then d else k.parent j
        children := k.children j ++ if j = d then [i] else [] } := by
  rw [addChild, if_neg (not_not.2 hd), if_neg (not_le.2 hroom)]
  refine ⟨rfl, rfl, fun j => ?_⟩
  rw [inode_modInode, inode_modInode, inode_modInode]
  obtain rfl | hj := eq_or_ne j i
  · rw [if_pos rfl, if_pos rfl]
    split
    · next hjd => rw [hjd]; rfl
    · rw [append_nil]; rfl
  · rw [if_neg hj, if_neg hj]
    split
    · next hjd => rw [hjd]; rfl
    · rw [append_nil]; rfl

/-- A failed one changes nothing. -/
theorem addChild_of_not (h : ¬ (k.type d = .dir ∧ (k.children d).length < ramfsMaxChildren)) :
    (k.addChild d i).1 = k ∧ (k.addChild d i).2 < 0 := by
  rw [addChild]
  split
  · exact ⟨rfl, (by decide : -ENOTDIR < 0)⟩
  next hd =>
  split
  · exact ⟨rfl, (by decide : -ENOSPC < 0)⟩
  · next hroom => exact absurd ⟨not_not.1 hd, not_le.1 hroom⟩ h

section

variable (hd : k.type d = .dir)
include hd

/-- `ramfs_remove_child` of a child that no other directory lists. -/
theorem removeChild_eq (hi : i ∈ k.children d) (hown : ∀ e, i ∈ k.children e → e = d) :
    (k.removeChild d i).2 = 0 ∧ (k.removeChild d i).1.openCount = k.openCount ∧
      ∀ j, (k.removeChild d i).1.inode j =
      { k.inode j with children := (k.children j).erase i } := by
  rw [removeChild, if_neg (not_not.2 hd), if_pos hi]
  refine ⟨rfl, rfl, fun j => ?_⟩
  rw [inode_modInode]
  split
  · next hj => rw [hj]; rfl
  · next hj => rw [erase_of_not_mem fun hc => hj (hown j hc)]; rfl

/-- What `createNode` can do: a new node is added; there is no free inode; or the
directory is full, and the inode is free again. -/
theorem createNode_cases (nm : FileName) (ty : InodeType) (nl : Nat) :
    (∃ i, k.freeSlot = some i ∧ (k.children d).length < ramfsMaxChildren ∧
      (k.createNode d nm ty nl).2 = .ok i ∧
      (k.createNode d nm ty nl).1.openCount = k.openCount ∧
      ∀ j, (k.createNode d nm ty nl).1.inode j =
        if j = i then ⟨ty, nl, storedName nm, d, []⟩
        else { k.inode j with children := k.children j ++ if j = d then [i] else [] }) ∨
    ((∃ rc, (k.createNode d nm ty nl).2 = .error rc) ∧ k.freeSlot = none ∧
      (k.createNode d nm ty nl).1 = k) ∨
    ∃ i, k.freeSlot = some i ∧ (∃ rc, (k.createNode d nm ty nl).2 = .error rc) ∧
      (k.createNode d nm ty nl).1.openCount = update k.openCount i 0 ∧
      ∀ j, (k.createNode d nm ty nl).1.inode j = if j = i then .zeroed else k.inode j := by
  unfold createNode
  cases hslot : k.freeSlot with
  | none => exact .inr (.inl ⟨⟨_, rfl⟩, rfl, rfl⟩)
  | some i =>
    obtain ⟨-, hi2, hi⟩ := freeSlot_spec hslot
    have hid := freeSlot_ne hslot hd
    dsimp only
    -- the table with the new inode, before it has a parent
    generalize hk1 : k.setInode i _ = k1
    have hopen : k1.openCount = k.openCount := by rw [← hk1, openCount_setInode]
    have hnode (j : Nat) : k1.inode j = if j = i then ⟨ty, nl, storedName nm, 0, []⟩
        else k.inode j := by
      rw [← hk1]
      exact inode_setInode
    have hd1 : k1.inode d = k.inode d := (hnode d).trans (if_neg hid)
    by_cases hroom : k1.type d = .dir ∧ (k1.children d).length < ramfsMaxChildren
    · obtain ⟨hrc, hsame, hadd⟩ := addChild_ok hroom.1 hroom.2
      rw [hrc, if_neg (by decide)]
      refine .inl ⟨i, rfl, ?_, rfl, hsame.trans hopen, fun j => ?_⟩
      · rw [children, ← hd1]
        exact hroom.2
      · rw [hadd, children, parent, hnode j]
        by_cases hj : j = i
        · rw [if_pos hj, if_pos hj, if_pos hj, hj, if_neg hid.symm]
          rfl
        · rw [if_neg hj, if_neg hj, if_neg hj]
          rfl
    · obtain ⟨hsame, hrc⟩ := addChild_of_not hroom
      rw [if_pos hrc, hsame]
      refine .inr (.inr ⟨i, rfl, ⟨_, rfl⟩, ?_, fun j => ?_⟩)
      · rw [openCount_freeInode (by omega) hi, hopen]
      · rw [inode_freeInode (by omega) hi]
        split
        · rfl
        · next hj => exact (hnode j).trans (if_neg hj)

/-- The directory stays one. -/
theorem type_createNode (nm : FileName) (ty : InodeType) (nl : Nat) :
    (k.createNode d nm ty nl).1.type d = .dir := by
  obtain ⟨i, hslot, -, -, -, hnode⟩ | ⟨-, -, hsame⟩ | ⟨i, hslot, -, -, hnode⟩ :=
    createNode_cases hd nm ty nl
  · rw [type, hnode, if_neg (freeSlot_ne hslot hd)]
    exact hd
  · rw [hsame]
    exact hd
  · rw [type, hnode, if_neg (freeSlot_ne hslot hd)]
    exact hd

end

/-- What `ramfs_op_unlink` can do, if the children are inodes of the table that no other
directory lists. -/
theorem opUnlink_cases (nm : FileName)
    (hown : ∀ c ∈ k.children d, c < ramfsMaxInodes ∧ ∀ e, c ∈ k.children e → e = d) :
    (k.opUnlink d nm).1 = k ∨ ∃ i, i ≠ 0 ∧ k.type d = .dir ∧ i ∈ k.children d ∧ k.type i ≠ .dir ∧
      (k.opUnlink d nm).1.openCount = k.openCount ∧ (∀ j, j ≠ i → (k.opUnlink d nm).1.inode j =
        { k.inode j with children := (k.children j).erase i }) ∧
      (k.nlink i ≤ 1 ∧ k.openCount i = 0 ∧ (k.opUnlink d nm).1.inode i = .zeroed ∨
        ¬ (k.nlink i ≤ 1 ∧ k.openCount i = 0) ∧
          (k.opUnlink d nm).1.inode i = { k.inode i with nlink := k.nlink i - 1 }) := by
  unfold opUnlink
  dsimp only
  split
  · exact .inl rfl
  next h0 =>
  split
  · exact .inl rfl
  next hdir =>
  obtain ⟨hd, hc, -⟩ := lookupChild_spec h0
  generalize k.lookupChild d nm = i at h0 hdir hc ⊢
  refine .inr ⟨i, h0, hd, hc, hdir, ?_⟩
  have hid : i ≠ d := by
    rintro rfl
    exact hdir hd
  obtain ⟨hi, honly⟩ := hown i hc
  obtain ⟨-, hopen, hrem⟩ := removeChild_eq hd hc honly
  generalize (k.removeChild d i).1 = k1 at hopen hrem
  have hopen2 : (k1.dropLink i).openCount = k.openCount := hopen
  have hx : (k1.dropLink i).inode i = { k.inode i with nlink := k.nlink i - 1 } := by
    rw [dropLink, inode_modInode, if_pos rfl, hrem, erase_of_not_mem fun hc => hid (honly i hc)]
    rfl
  have hother (j : Nat) (hj : j ≠ i) : (k1.dropLink i).inode j =
      { k.inode j with children := (k.children j).erase i } := by
    rw [dropLink, inode_modInode, if_neg hj, hrem]
  have hnl : (k1.dropLink i).nlink i = k.nlink i - 1 := congrArg RamfsInode.nlink hx
  generalize k1.dropLink i = k2 at hopen2 hx hother hnl
  rw [hopen2, hnl]
  by_cases hgone : k.nlink i - 1 = 0 ∧ k.openCount i = 0
  · rw [if_pos hgone]
    refine ⟨?_, fun j hj => ?_, .inl ⟨by omega, hgone.2, ?_⟩⟩
    · rw [openCount_freeInode h0 hi, hopen2, ← hgone.2, update_eq_self]
    · rw [inode_freeInode h0 hi, if_neg hj]
      exact hother j hj
    · rw [inode_freeInode h0 hi, if_pos rfl]
  · rw [if_neg hgone]
    exact ⟨hopen2, hother, .inr ⟨fun hn => hgone ⟨by omega, hn.2⟩, hx⟩⟩

/-- What `ramfs_op_rmdir` can do. -/
theorem opRmdir_cases (nm : FileName)
    (hown : ∀ c ∈ k.children d, c < ramfsMaxInodes ∧ ∀ e, c ∈ k.children e → e = d) :
    (k.opRmdir d nm).1 = k ∨
    ∃ i, i = k.lookupChild d nm ∧ i ≠ 0 ∧ k.type d = .dir ∧ i ∈ k.children d ∧
      k.type i = .dir ∧ k.children i = [] ∧
      (k.opRmdir d nm).1.openCount = update k.openCount i 0 ∧
      ∀ j, (k.opRmdir d nm).1.inode j = if j = i then .zeroed else
        { k.inode j with
          children := (k.children j).erase i
          nlink := if j = d then k.nlink j - 1 else k.nlink j } := by
  unfold opRmdir
  dsimp only
  split
  · exact .inl rfl
  next h0 =>
  split
  · exact .inl rfl
  next hdir =>
  split
  · exact .inl rfl
  next hempty =>
  obtain ⟨hd, hc, -⟩ := lookupChild_spec h0
  obtain ⟨hi, honly⟩ := hown _ hc
  refine .inr ⟨_, rfl, h0, hd, hc, not_not.1 hdir, not_not.1 hempty, ?_⟩
  generalize k.lookupChild d nm = i at h0 hc hi honly ⊢
  obtain ⟨-, hopen, hrem⟩ := removeChild_eq hd hc honly
  generalize (k.removeChild d i).1 = k1 at hopen hrem
  refine ⟨?_, fun j => ?_⟩
  · rw [openCount_freeInode h0 hi]
    exact congrArg (fun f => update f i 0) hopen
  · rw [inode_freeInode h0 hi, dropLink, inode_modInode, hrem, hrem]
    split
    · rfl
    · split
      · next hj => rw [hj]; rfl
      · rfl

end Ramfs

end UnixOs
