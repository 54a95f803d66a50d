import UnixOs.Ipc.Pipe
import UnixOs.Mm.Frames

/-!
# File descriptors (vfs_fd.c, vfs_core.c, sys_fs.c, fork.c, exec.c, process.c)

Every process has a table of 64 descriptors. What a descriptor refers to is
encoded in one number, `of_idx`: nothing, the console, an entry of the system-wide
table `open_files`, or an end of a pipe. Of a process only its descriptors matter
here, and whether it has exited; `offset` and `refcount` of `proc_fd_t` are
written and never read.

`open_files` has 64 entries. An increment of a count outside of it goes to other
memory of the kernel; the indices it went to are collected in `stray`.
-/

namespace UnixOs

open Function Errno

/-- `MAX_OPEN_FILES_CONST`. -/
def maxOpenFiles : Nat := 64

/-- `VFS_MAX_OPEN_FILES`. -/
def vfsMaxOpenFiles : Nat := 64

/-- `PIPE_FD_BASE`. -/
def pipeFdBase : Nat := 1000

/-- `CONSOLE_INODE_MAGIC`. -/
def consoleInodeMagic : Nat := 0xC0C0

def oRdonly : Word := 0x0000
def oWronly : Word := 0x0001
def oCloexec : Word := 0x80000

/-- `VFS_OPEN_SUPPORTED_FLAGS`. -/
def vfsOpenSupportedFlags : Word := 0xB1FC3

/-- `O_ACCMODE`. -/
def oAccmode : Word := 0x3

/-- `proc_fd_t`. -/
structure ProcFd where
  ofIdx : Nat
  flags : Word
  deriving DecidableEq

/-- `vfs_open_file_t` (vfs_internal.h:11) without `fs` and `fs_priv`: which mount a file is of
makes no difference to the counts. -/
structure OpenFile where
  inode : Nat
  pos : Nat
  flags : Word
  refcount : Nat

/-- `vfs_fd_kind_t`, with the identifier of a pipe. -/
inductive FdKind where
  | invalid
  | console
  | pipe (id : Nat)
  | vfs
  deriving DecidableEq

abbrev FdTable := Fin maxOpenFiles → ProcFd

/-- The descriptors of a `process_t`. -/
structure FdProc where
  fds : FdTable
  exited : Bool

/-- `process_table`, `open_files`, and the registry of pipes. -/
structure Files where
  procs : Fin maxProcesses → Option FdProc
  openFiles : Fin vfsMaxOpenFiles → OpenFile
  stray : List Nat
  pipes : PipeRegistry

namespace ProcFd

/-- An empty slot. -/
def empty : ProcFd := ⟨0, 0⟩

/-- `vfs_fd_kind` (vfs_fd.c:536). -/
def kind (s : ProcFd) : FdKind :=
  if s.ofIdx = consoleInodeMagic then .console
  else if pipeFdBase ≤ s.ofIdx then .pipe (s.ofIdx - pipeFdBase)
  else if s.ofIdx = 0 then .invalid
  else .vfs

/-- `of_idx_decode` (vfs.h:31). -/
def decode (s : ProcFd) : Option Nat :=
  if s.ofIdx = 0 then none else if 64 < s.ofIdx then none else some (s.ofIdx - 1)

/-- The write end of a pipe. -/
def isWriteEnd (s : ProcFd) : Bool := decide (s.flags &&& oWronly ≠ 0)

end ProcFd

namespace Files

variable (S : Files)

/-- A process that exists and has not exited. -/
def live (p : Fin maxProcesses) : Option FdProc :=
  (S.procs p).filter fun q => !q.exited

def setProc (p : Fin maxProcesses) (q : Option FdProc) : Files :=
  { S with procs := update S.procs p q }

/-- A slot of a process is stored. -/
def setFd (p : Fin maxProcesses) (fd : Fin maxOpenFiles) (s : ProcFd) : Files :=
  S.setProc p ((S.procs p).map fun q => { q with fds := update q.fds fd s })

def setFile (i : Fin vfsMaxOpenFiles) (f : OpenFile) : Files :=
  { S with openFiles := update S.openFiles i f }

/-- The count of an entry is set. -/
def setCount (i : Fin vfsMaxOpenFiles) (n : Nat) : Files :=
  S.setFile i { S.openFiles i with refcount := n }

/-- `open_files[raw].refcount++`, wherever `raw` points. -/
def bumpRaw (raw : Nat) : Files :=
  if h : raw < vfsMaxOpenFiles then
    S.setCount ⟨raw, h⟩ (((S.openFiles ⟨raw, h⟩).refcount + 1) % 2 ^ 32)
  else { S with stray := raw :: S.stray }

/-! ## Opening and closing -/

/-- The first slot of a table from `start` on that meets a test. -/
def firstFd (t : FdTable) (start : Nat) (test : ProcFd → Bool) : Option (Fin maxOpenFiles) :=
  (List.finRange maxOpenFiles).find? fun i => decide (start ≤ i.val) && test (t i)

/-- `find_free_fd` (vfs_fd.c:59). -/
def findFreeFd (t : FdTable) : Option (Fin maxOpenFiles) :=
  firstFd t 3 fun s => decide (s.ofIdx = 0)

/-- The first entry without a count. -/
def freeOpenFile : Option (Fin vfsMaxOpenFiles) :=
  (List.finRange vfsMaxOpenFiles).find? fun i => decide ((S.openFiles i).refcount = 0)

/-- `vfs_open` (vfs_fd.c:127). `resolved` is the error of the path, or the inode
it leads to and the position to start from. -/
def vfsOpen (p : Fin maxProcesses) (q : FdProc) (flags : Word)
    (resolved : Except Int (Nat × Nat)) : Files × Int :=
  if flags &&& ~~~ vfsOpenSupportedFlags ≠ 0 then (S, -EINVAL)
  else if flags &&& oAccmode = oAccmode then (S, -EINVAL)
  else
    match resolved with
    | .error e => (S, e)
    | .ok (inode, pos) =>
      match S.freeOpenFile with
      | none => (S, -EMFILE)
      | some i =>
        let S := S.setFile i ⟨inode, pos, flags, 1⟩
        match findFreeFd q.fds with
        | none => (S.setCount i 0, -EMFILE)
        | some fd => (S.setFd p fd ⟨i.val + 1, flags⟩, fd.val)

/-- `__vfs_close_locked` (vfs_fd.c:214). -/
def vfsClose (p : Fin maxProcesses) (q : FdProc) (fd : Fin maxOpenFiles) : Files :=
  let s := q.fds fd
  if s.ofIdx = 0 then S
  else
    let S :=
      if h : s.ofIdx - 1 < vfsMaxOpenFiles then
        let n := (S.openFiles ⟨s.ofIdx - 1, h⟩).refcount
        if 0 < n then S.setCount ⟨s.ofIdx - 1, h⟩ (n - 1) else S
      else S
    S.setFd p fd .empty

/-- `sys_close` (sys_fs.c:68). -/
def sysClose (p : Fin maxProcesses) (q : FdProc) (fd : Fin maxOpenFiles) : Files × Int :=
  match (q.fds fd).kind with
  | .console => (S.setFd p fd .empty, 0)
  | .pipe id =>
    let isWriteEnd := (q.fds fd).isWriteEnd
    let S := S.setFd p fd .empty
    match S.pipes.closeById id isWriteEnd with
    | (pipes, rc) => ({ S with pipes }, rc)
  | .vfs => (S.vfsClose p q fd, 0)
  | .invalid => (S, -EBADF)

/-! ## Duplicating -/

/-- `vfs_dup` (vfs_fd.c:412). -/
def vfsDup (p : Fin maxProcesses) (q : FdProc) (fd : Fin maxOpenFiles) : Files × Int :=
  if (q.fds fd).ofIdx = 0 then (S, -EBADF)
  else
    match findFreeFd q.fds with
    | none => (S, -EMFILE)
    | some new => ((S.setFd p new (q.fds fd)).bumpRaw ((q.fds fd).ofIdx - 1), new.val)

/-- `sys_dup` (sys_fs.c:260). -/
def sysDup (p : Fin maxProcesses) (q : FdProc) (fd : Fin maxOpenFiles) : Files × Int :=
  if (q.fds fd).kind = .console then
    match firstFd q.fds 0 fun s => decide (s.ofIdx = 0 ∧ s.flags = 0) with
    | some new => (S.setFd p new (q.fds fd), new.val)
    | none => (S, -EMFILE)
  else S.vfsDup p q fd

/-- `vfs_dup2` (vfs_fd.c:441). -/
def vfsDup2 (p : Fin maxProcesses) (q : FdProc) (old new : Fin maxOpenFiles) : Files × Int :=
  if old = new then (S, new.val)
  else if (q.fds old).ofIdx = 0 then (S, -EBADF)
  else
    let S := if (q.fds new).ofIdx ≠ 0 then S.vfsClose p q new else S
    ((S.setFd p new (q.fds old)).bumpRaw ((q.fds old).ofIdx - 1), new.val)

/-- `sys_dup2` (sys_fs.c:281). The slot of the console is read again after
`newfd` was closed. -/
def sysDup2 (p : Fin maxProcesses) (q : FdProc) (old new : Fin maxOpenFiles) : Files × Int :=
  if (q.fds old).kind = .console then
    let S := if (q.fds new).ofIdx ≠ 0 then (S.sysClose p q new).1 else S
    (S.setFd p new (if old = new then .empty else q.fds old), new.val)
  else S.vfsDup2 p q old new

/-! ## Pipes -/

/-- `sys_pipe` (pipe.c:239). `bufOk` is the allocation of the buffer, `copied`
what `copy_to_user` returns. Slots that were taken when it fails are empty
again. -/
def sysPipe (p : Fin maxProcesses) (q : FdProc) (bufOk : Bool) (copied : Int) : Files × Int :=
  if bufOk = false then (S, -ENOMEM)
  else
    let buf := Pipe.createBuffer pipeBuf
    match S.pipes.allocateId buf with
    | (pipes, id) =>
      if id < 0 then
        -- The buffer goes, also if it was registered under a number that is not an `int`.
        let pipes := if (S.pipes.pipes S.pipes.nextPipeId).isSome then pipes
          else pipes.set S.pipes.nextPipeId { buf with freed := true }
        ({ S with pipes }, -EMFILE)
      else
        let fail : Files := { S with pipes := pipes.remove id.toNat }
        match (List.finRange maxOpenFiles).filter fun i =>
            decide (3 ≤ i.val ∧ (q.fds i).ofIdx = 0 ∧ (q.fds i).flags = 0) with
        | rd :: wr :: _ =>
          if copied < 0 then (fail, copied)
          else
            let S : Files := { S with
              pipes := pipes.set id.toNat { buf with readers := 1, writers := 1 } }
            ((S.setFd p rd ⟨(pipeFdBase + id.toNat) % 2 ^ 32, oRdonly⟩).setFd p wr
              ⟨(pipeFdBase + id.toNat) % 2 ^ 32, oWronly⟩, 0)
        | _ => (fail, -EMFILE)

/-- A read or a write of a descriptor that is a pipe; `op` is `pipe_read_by_id` or
`pipe_write_by_id` with the other arguments. -/
def pipeIo (q : FdProc) (fd : Fin maxOpenFiles)
    (op : PipeRegistry → Nat → PipeRegistry × PipeResult) : Files :=
  match (q.fds fd).kind with
  | .pipe id => { S with pipes := (op S.pipes id).1 }
  | _ => S

/-! ## Processes -/

/-- The first free slot of `process_table`, which is not the kernel's. -/
def freeSlot : Option (Fin maxProcesses) :=
  (List.finRange maxProcesses).find? fun i => decide (1 ≤ i.val) && (S.procs i).isNone

/-- The descriptors of a new process: none, or those of `console_open_stdio`
(console.c:32). -/
def newFds (stdio : Bool) : FdTable := fun i =>
  if stdio then
    if i.val = 0 then ⟨consoleInodeMagic, oRdonly⟩
    else if i.val ≤ 2 then ⟨consoleInodeMagic, oWronly⟩
    else .empty
  else .empty

/-- `process_create` (process.c:78). -/
def processCreate (stdio : Bool) : Files :=
  match S.freeSlot with
  | none => S
  | some i => S.setProc i (some ⟨newFds stdio, false⟩)

/-- `vfs_open_file_incref` (vfs_core.c:62). -/
def incref (raw : Nat) : Files :=
  if h : raw < vfsMaxOpenFiles then
    let n := (S.openFiles ⟨raw, h⟩).refcount
    if 0 < n then S.setCount ⟨raw, h⟩ ((n + 1) % 2 ^ 32) else S
  else S

/-- One descriptor of the loop of `sys_fork` (fork.c:54). -/
def inheritFd (s : ProcFd) : Files :=
  if s.ofIdx ≠ 0 ∨ s.flags ≠ 0 then
    match s.decode with
    | some raw => S.incref raw
    | none => S
  else S

/-- `sys_fork` (fork.c:54). `early` is a failure before the descriptors are
inherited: of `kmalloc`, of the kernel stack or of `clone_process_memory`. -/
def sysFork (p : Fin maxProcesses) (q : FdProc) (early : Bool) : Files :=
  if p.val = 0 then S
  else if early then S
  else
    let S := (List.finRange maxOpenFiles).foldl (fun S i => S.inheritFd (q.fds i)) S
    match S.freeSlot with
    | none => S
    | some child => S.setProc child (some ⟨q.fds, false⟩)

/-- One descriptor of the loop of `sys_execve` (exec.c:220). -/
def execFd (p : Fin maxProcesses) (fd : Fin maxOpenFiles) : Files :=
  match S.live p with
  | none => S
  | some q =>
    if (q.fds fd).ofIdx ≠ 0 ∧ (q.fds fd).flags &&& oCloexec ≠ 0 then S.vfsClose p q fd else S

/-- What a successful `sys_execve` does to the descriptors. The file of the
program is opened and closed before. -/
def sysExecve (p : Fin maxProcesses) : Files :=
  (List.finRange maxOpenFiles).foldl (fun S i => S.execFd p i) S

/-- `process_exit` (process.c:188). -/
def processExit (p : Fin maxProcesses) (q : FdProc) : Files :=
  if p.val = 0 then S else S.setProc p (some { q with exited := true })

/-- `process_terminate` (process.c:162) of a process that has exited. -/
def processTerminate (p : Fin maxProcesses) : Files :=
  match S.procs p with
  | some q => if q.exited ∧ p.val ≠ 0 then S.setProc p none else S
  | none => S

end Files

/-! ## Runs -/

/-- What processes do to their descriptors. -/
inductive FdEvent where
  | create (stdio : Bool)
  | openFile (p : Fin maxProcesses) (flags : Word) (resolved : Except Int (Nat × Nat))
  | close (p : Fin maxProcesses) (fd : Fin maxOpenFiles)
  | dup (p : Fin maxProcesses) (fd : Fin maxOpenFiles)
  | dup2 (p : Fin maxProcesses) (old new : Fin maxOpenFiles)
  | pipe (p : Fin maxProcesses) (bufOk : Bool) (copied : Int)
  | read (p : Fin maxProcesses) (fd : Fin maxOpenFiles) (count : Nat) (bufOk signal : Bool)
  | write (p : Fin maxProcesses) (fd : Fin maxOpenFiles) (bytes : List (BitVec 8))
      (bufOk : Bool) (copied : Int) (signal : Bool)
  | fork (p : Fin maxProcesses) (early : Bool)
  | exec (p : Fin maxProcesses)
  | exit (p : Fin maxProcesses)
  | reap (p : Fin maxProcesses)

namespace Files

/-- A live process does something. -/
def doBy (S : Files) (p : Fin maxProcesses) (act : FdProc → Files) : Files :=
  match S.live p with
  | none => S
  | some q => act q

def fdStep (S : Files) : FdEvent → Files
  | .create stdio => S.processCreate stdio
  | .openFile p flags resolved => S.doBy p fun q => (S.vfsOpen p q flags resolved).1
  | .close p fd => S.doBy p fun q => (S.sysClose p q fd).1
  | .dup p fd => S.doBy p fun q => (S.sysDup p q fd).1
  | .dup2 p old new => S.doBy p fun q => (S.sysDup2 p q old new).1
  | .pipe p bufOk copied => S.doBy p fun q => (S.sysPipe p q bufOk copied).1
  | .read p fd count bufOk signal =>
    S.doBy p fun q => S.pipeIo q fd fun r id => r.readById id count bufOk signal
  | .write p fd bytes bufOk copied signal =>
    S.doBy p fun q => S.pipeIo q fd fun r id => r.writeById id bytes bufOk copied signal
  | .fork p early => S.doBy p fun q => S.sysFork p q early
  | .exec p => S.sysExecve p
  | .exit p => S.doBy p fun q => S.processExit p q
  | .reap p => S.processTerminate p

/-- After `process_init`: only the kernel's own process. -/
def boot : Files where
  procs := fun p => if p.val = 0 then some ⟨newFds false, false⟩ else none
  openFiles := fun _ => ⟨0, 0, 0, 0⟩
  stray := []
  pipes := ⟨fun _ => none, 1⟩

end Files

end UnixOs
