import UnixOs.Fs.DescriptorCounts
import UnixOs.Fs.RamfsTree

/-!
# Open files of ramfs (vfs_fd.c, vfs_path.c, vfs_mount.c)

The system calls that take a path, over ramfs mounted at the root, and the open
count of an inode: `vfs_open` counts it up, the last close of an entry of
`open_files` counts it down and frees an inode that has no name left.

- `OpenRefs`: an open inode is not free, and its count is the number of entries
  that refer to it;
- `Denotes`: an entry that stays open refers to the same inode, with the same
  type, name and parent.
-/

namespace UnixOs

open Function Errno

/-- `O_CREAT`. -/
def oCreat : Word := 0x0040

/-- `O_APPEND`. -/
def oAppend : Word := 0x0400

/-- `'/'`. -/
def slash : UInt8 := 0x2F

/-- `'.'`. -/
def dot : UInt8 := 0x2E

namespace Ramfs

variable (k : Ramfs)

/-! ## Paths -/

/-- `ramfs_op_resolve` (ramfs_ops.c:31). -/
def opResolve (parent : Nat) (name : FileName) : Nat :=
  if name = [dot, dot] then k.parent parent else k.lookupChild parent name

/-- `resolve_one` (vfs_mount.c:111). -/
def resolveOne (cur : Nat) (comp : FileName) : Nat :=
  if comp = [dot] then cur else k.opResolve cur comp

/-- `walk_components` (vfs_mount.c:118): `comp` is what was read of the current
component, of which 63 bytes are kept. -/
def walkComponents (cur : Nat) (comp : FileName) : FileName → Nat
  | [] => if comp ≠ [] then k.resolveOne cur comp else cur
  | c :: rel =>
    if c = slash then
      if comp ≠ [] then
        let cur := k.resolveOne cur comp
        if cur = 0 then 0 else walkComponents cur [] rel
      else walkComponents cur [] rel
    else walkComponents cur (if comp.length < 63 then comp ++ [c] else comp) rel

/-- `vfs_resolve_path` (vfs_mount.c:152). -/
def vfsResolvePath : FileName → Except Int Nat
  | [] => .error (-EINVAL)
  | c :: rel =>
    if c ≠ slash then .error (-EINVAL)
    else
      let ino := k.walkComponents ramfsRootIno [] rel
      if ino = 0 then .error (-ENOENT) else .ok ino

/-- `vfs_resolve_parent_and_leaf` (vfs_mount.c:174). -/
def vfsResolveParentAndLeaf (abs : FileName) : Except Int (Nat × FileName) :=
  if abs.head? ≠ some slash then .error (-EINVAL)
  else if abs.length < 2 ∨ abs.getLast? = some slash then .error (-EINVAL)
  else
    let leaf := (abs.reverse.takeWhile (· ≠ slash)).reverse
    let lastSlash := abs.length - leaf.length - 1
    if 512 ≤ lastSlash then .error (-ENAMETOOLONG)
    else
      let parentBuf := if lastSlash = 0 then [slash] else abs.take lastSlash
      (k.vfsResolvePath parentBuf).map fun parent => (parent, leaf)

/-- `vfs_mkdir` (vfs_path.c:82). -/
def vfsMkdir (path : FileName) : Ramfs × Int :=
  if path.head? ≠ some slash then (k, -EINVAL)
  else
    match k.vfsResolveParentAndLeaf path with
    | .error rc => (k, rc)
    | .ok (parent, leaf) =>
      match k.createDir parent leaf with
      | (k, .ok _) => (k, 0)
      | (k, .error rc) => (k, rc)

/-- `vfs_unlink` (vfs_path.c:104). -/
def vfsUnlink (abs : FileName) : Ramfs × Int :=
  match k.vfsResolveParentAndLeaf abs with
  | .error rc => (k, rc)
  | .ok (parent, leaf) => k.opUnlink parent leaf

/-- The length of a directory entry, `reclen` (ramfs_ops.c:75). -/
def reclen (name : FileName) : Nat := (10 + name.length + 1 + 3) / 4 * 4

/-- Whether `ramfs_op_readdir` finds an entry that fits into 64 bytes. -/
def readdirFinds (i : Nat) : Bool :=
  k.type i = .dir && ((k.children i).head?.any fun c => decide (reclen (k.name c) ≤ 64))

/-- `vfs_rmdir` (vfs_path.c:179). -/
def vfsRmdir (abs : FileName) : Ramfs × Int :=
  match k.vfsResolveParentAndLeaf abs with
  | .error rc => (k, rc)
  | .ok (parent, leaf) =>
    let child := k.opResolve parent leaf
    if child = 0 then (k, -ENOENT)
    else if k.readdirFinds child then (k, -ENOTEMPTY)
    else k.opRmdir parent leaf

/-! ## Open counts -/

/-- `ramfs_inc_open_count`. -/
def incOpen (i : Nat) : Ramfs :=
  { k with openCount := update k.openCount i ((k.openCount i + 1) % 2 ^ 32) }

/-- `ramfs_dec_open_count`. -/
def decOpen (i : Nat) : Ramfs :=
  { k with openCount := update k.openCount i ((k.openCount i + (2 ^ 32 - 1)) % 2 ^ 32) }

/-- The part of `vfs_open` that finds the inode, and creates it if it may. -/
def lookupOrCreate (abs : FileName) (flags : Word) : Ramfs × Except Int Nat :=
  match k.vfsResolvePath abs with
  | .ok i => (k, .ok i)
  | .error rc =>
    if rc = -ENOENT ∧ flags &&& oCreat ≠ 0 then
      match k.vfsResolveParentAndLeaf abs with
      | .error prc => (k, .error prc)
      | .ok (parent, leaf) => k.createFile parent leaf
    else (k, .error rc)

/-- The part of `__vfs_close_locked` after the last reference to an entry is
gone. -/
def lastClose (i : Nat) : Ramfs :=
  let k := k.decOpen i
  if k.openCount i = 0 ∧ k.type i ≠ .free ∧ k.nlink i = 0 then k.freeInode i else k

/-! ## Lookups lead to linked inodes -/

namespace Shape

variable {distinct connected : Prop} {k : Ramfs} {cur : Nat}

theorem lookupChild_linked (h : Shape distinct connected k) (cur : Nat) (name : FileName) :
    k.lookupChild cur name = 0 ∨ k.Linked (k.lookupChild cur name) := by
  by_cases h0 : k.lookupChild cur name = 0
  · exact .inl h0
  · exact .inr (h.child (lookupChild_spec h0).2.1).2.2.1

theorem opResolve_linked (h : Shape distinct connected k) (hcur : k.Linked cur) (name : FileName) :
    k.opResolve cur name = 0 ∨ k.Linked (k.opResolve cur name) := by
  unfold opResolve
  split
  · by_cases hroot : cur = ramfsRootIno
    · rw [hroot]
      exact .inl h.top
    · exact .inr (.inl (h.child (h.linked hcur hroot)).1)
  · exact h.lookupChild_linked cur name

end Shape

end Ramfs

/-! ## Descriptors and inodes together -/

structure RamfsFiles where
  files : Files
  fs : Ramfs

namespace RamfsFiles

variable (s : RamfsFiles)

/-- `vfs_open` (vfs_fd.c:127) of an absolute path. `size` is what `stat` says; the
data, which `O_TRUNC` empties, is not kept. -/
def vfsOpen (p : Fin maxProcesses) (q : FdProc) (abs : FileName) (flags : Word) (size : Nat) :
    RamfsFiles × Int :=
  if flags &&& ~~~ vfsOpenSupportedFlags ≠ 0 then (s, -EINVAL)
  else if flags &&& oAccmode = oAccmode then (s, -EINVAL)
  else
    match s.fs.lookupOrCreate abs flags with
    | (fs, .error rc) => (⟨s.files, fs⟩, rc)
    | (fs, .ok inode) =>
      let pos := if flags &&& oAppend ≠ 0 then size else 0
      match s.files.vfsOpen p q flags (.ok (inode, pos)) with
      | (files, fd) => if fd < 0 then (⟨files, fs⟩, fd) else (⟨files, fs.incOpen inode⟩, fd)

/-- `__vfs_close_locked` (vfs_fd.c:214). -/
def vfsClose (p : Fin maxProcesses) (q : FdProc) (fd : Fin maxOpenFiles) : RamfsFiles :=
  let idx := (q.fds fd).ofIdx
  let fs :=
    if h : idx ≠ 0 ∧ idx - 1 < vfsMaxOpenFiles then
      let f := s.files.openFiles ⟨idx - 1, h.2⟩
      if f.refcount = 1 then s.fs.lastClose f.inode else s.fs
    else s.fs
  ⟨s.files.vfsClose p q fd, fs⟩

/-- `sys_close` (sys_fs.c:68). -/
def sysClose (p : Fin maxProcesses) (q : FdProc) (fd : Fin maxOpenFiles) : RamfsFiles :=
  if (q.fds fd).kind = .vfs then s.vfsClose p q fd
  else { s with files := (s.files.sysClose p q fd).1 }

end RamfsFiles

/-- What processes do to files; `create` is `ramfs_op_create` by itself, and a
process must exist before it can open. -/
inductive OpenEvent where
  | spawn (stdio : Bool)
  | openFile (p : Fin maxProcesses) (abs : FileName) (flags : Word) (size : Nat)
  | close (p : Fin maxProcesses) (fd : Fin maxOpenFiles)
  | create (parent : Nat) (name : FileName)
  | mkdir (path : FileName)
  | unlink (abs : FileName)
  | rmdir (abs : FileName)

namespace RamfsFiles

/-- A live process does something. -/
def doBy (s : RamfsFiles) (p : Fin maxProcesses) (act : FdProc → RamfsFiles) : RamfsFiles :=
  match s.files.live p with
  | none => s
  | some q => act q

def step (s : RamfsFiles) : OpenEvent → RamfsFiles
  | .spawn stdio => { s with files := s.files.processCreate stdio }
  | .openFile p abs flags size => s.doBy p fun q => (s.vfsOpen p q abs flags size).1
  | .close p fd => s.doBy p fun q => s.sysClose p q fd
  | .create parent name => { s with fs := (s.fs.createFile parent name).1 }
  | .mkdir path => { s with fs := (s.fs.vfsMkdir path).1 }
  | .unlink abs => { s with fs := (s.fs.vfsUnlink abs).1 }
  | .rmdir abs => { s with fs := (s.fs.vfsRmdir abs).1 }

/-- After `process_init` and `vfs_init`. -/
def boot : RamfsFiles := ⟨.boot, .init⟩

/-- What an entry of `open_files` refers to while it is in use. -/
def ref (s : RamfsFiles) (e : Fin vfsMaxOpenFiles) : Option Nat :=
  if (s.files.openFiles e).refcount = 0 then none else some (s.files.openFiles e).inode

/-- An open inode is not free, and its count is the number of entries that refer
to it. -/
structure OpenRefs (s : RamfsFiles) : Prop where
  live : ∀ e i, s.ref e = some i → s.fs.type i ≠ .free
  count : ∀ i, s.fs.openCount i = refCount s.ref i

/-- An entry that is in use before and after a step refers to the same inode, and
the inode is the same file or directory. -/
def Denotes (s s' : RamfsFiles) : Prop :=
  ∀ e i, s.ref e = some i → s'.ref e ≠ none →
    s'.ref e = some i ∧ s'.fs.type i = s.fs.type i ∧ s'.fs.name i = s.fs.name i ∧
      s'.fs.parent i = s.fs.parent i

/-- `rmdir` of an empty directory that is not open. -/
def StepOk (s : RamfsFiles) : OpenEvent → Prop
  | .rmdir abs => ∀ parent leaf, s.fs.vfsResolveParentAndLeaf abs = .ok (parent, leaf) →
      let i := s.fs.lookupChild parent leaf
      s.fs.type i = .dir → s.fs.children i = [] → s.fs.openCount i = 0
  | _ => True

end RamfsFiles

end UnixOs
