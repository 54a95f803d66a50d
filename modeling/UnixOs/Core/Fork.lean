import UnixOs.Core.SchedFrame

/-!
# `sys_fork` and the process table (fork.c, process.c, exec.c)

`sys_fork` fills a zeroed `process_t` from the caller's, claims a slot of the
process table and queues the child. What it asks of the rest of the kernel
(memory, the caller's kernel stack, the address-space clone) is a record of
outcomes, `ForkEnv`; the descriptor table, the memory map, names and register
frames are not part of the model.

- `sysFork`: every error path, in the order of the source;
- `sysFork_cases`: either an error and no process, or the child at the next
  address;
- `execResetSignals`: what a successful `execve` stores in the fields kept here.
-/

namespace UnixOs

open Function Errno

/-- `NSIG_HANDLED`. -/
def nsigHandled : Nat := 32

/-- `SIG_DFL`. -/
def sigDfl : UInt32 := 0

/-- `SIG_IGN`. -/
def sigIgn : UInt32 := 1

/-- What `sys_fork` finds out on the way. -/
structure ForkEnv where
  /-- `kmalloc(sizeof(process_t))` succeeds. -/
  childAlloc : Bool := true
  /-- `parent->kernel_stack` is set. -/
  parentStack : Bool := true
  /-- `kmalloc(KERNEL_STACK_SIZE)` succeeds. -/
  stackAlloc : Bool := true
  /-- `regs` is null or lies in the parent's kernel stack. -/
  regsInStack : Bool := true
  /-- The parent has no memory map, or `clone_process_memory` succeeds. -/
  cloneMemory : Bool := true

namespace Kernel

variable (k : Kernel)

/-- `allocate_next_pid` (process.c:46), the state after it. -/
def bumpNextPid : Kernel := { k with nextPid := k.nextPid + 1 }

/-- The scan for a free slot, which leaves out slot 0 (fork.c:171). -/
def freeSlot : Option Nat :=
  (List.range' 1 (maxProcesses - 1)).find? fun i => (k.processTable i).isNone

/-- `table[slot] = p`. -/
def setSlot (slot : Nat) (v : Option Ptr) : Kernel :=
  { k with processTable := update k.processTable slot v }

/-- `hash_table_insert(&process_table_ht, pid, p, ...)`: a key that is present
keeps its value (hashtable.c:41). -/
def htInsert (pid : UInt32) (p : Ptr) : Kernel :=
  match k.processTableHt pid with
  | some _ => k
  | none =>
    { k with processTableHt := update k.processTableHt pid (some p) }

/-- `wait_queue_init(&p->children_wq)`. -/
def initChildrenWq (p : Ptr) : Kernel :=
  { k with wqHead := update k.wqHead (.children p) none }

/-- The fields `sys_fork` stores in the zeroed child (fork.c:76). Of the
identity it copies `uid` and `gid` only. -/
def forkedProcess (par : Process) (pid : UInt32) : Process :=
  { Process.zeroed with
    pid := pid
    ppid := par.pid
    uid := par.uid
    gid := par.gid
    state := .ready
    timeSlice := par.timeSlice
    signalMask := par.signalMask
    signalHandlers := fun i => if i < nsigHandled then par.signalHandlers i else 0
    next := none }

/-- The end of `sys_fork` (fork.c:54): publish the child and queue it. -/
def publishChild (c : Nat) (x : Process) (slot : Nat) : Kernel :=
  let p := k.nproc
  let k := k.allocProc x
  let k := k.initChildrenWq p
  let k := k.setSlot slot (some p)
  let k := k.htInsert x.pid p
  k.schedulerAddProcess c p

/-- `sys_fork` (fork.c:54) called by `parent` on CPU `c`: the state after it and
its return value. -/
def sysFork (c : Nat) (parent : Ptr) (env : ForkEnv) : Kernel × Int :=
  if (k.proc parent).pid = 0 then (k, -EPERM)
  else if env.childAlloc = false then (k, -ENOMEM)
  else
    let x := forkedProcess (k.proc parent) k.nextPid
    let k := k.bumpNextPid
    if env.parentStack = false then (k, -EINVAL)
    else if env.stackAlloc = false then (k, -ENOMEM)
    else if env.regsInStack = false then (k, -EINVAL)
    else if env.cloneMemory = false then (k, -ENOMEM)
    else
      match k.freeSlot with
      | none => (k, -EAGAIN)
      | some slot => (k.publishChild c x slot, x.pid.toBitVec.toInt)

/-- The checks of `sys_fork` all pass. -/
def forkSucceeds (parent : Ptr) (env : ForkEnv) : Bool :=
  (k.proc parent).pid != 0 && env.childAlloc && env.parentStack &&
    env.stackAlloc && env.regsInStack && env.cloneMemory && k.freeSlot.isSome

/-- The stores of a successful `execve` to the fields kept here
(exec.c:319). -/
def execResetSignals (p : Ptr) : Kernel :=
  k.modProc p fun x =>
    { x with
      signalHandlers := fun i =>
        if 1 ≤ i ∧ i < nsigHandled ∧ x.signalHandlers i ≠ sigIgn then sigDfl
        else x.signalHandlers i
      signalMask := 0
      signalPending := 0 }

variable {k} {c : Nat} {p : Ptr}

/-- A fork either fails and leaves no process behind, or publishes the child in
a free slot. -/
theorem sysFork_cases (k : Kernel) (c : Nat) (parent : Ptr) (env : ForkEnv) :
    (k.forkSucceeds parent env = false ∧ ((k.sysFork c parent env).1 = k ∨
        (k.sysFork c parent env).1 = k.bumpNextPid)) ∨
    (k.forkSucceeds parent env = true ∧ ∃ slot, k.freeSlot = some slot ∧
      (k.sysFork c parent env).1 = k.bumpNextPid.publishChild c
        (forkedProcess (k.proc parent) k.nextPid) slot) := by
  have hslot : k.bumpNextPid.freeSlot = k.freeSlot := rfl
  unfold sysFork forkSucceeds
  by_cases hpid : (k.proc parent).pid = 0
  · left
    simp [hpid]
  obtain ⟨e1, e2, e3, e4, e5⟩ := env
  cases e1 <;> cases e2 <;> cases e3 <;> cases e4 <;> cases e5 <;>
    simp [hpid, hslot]
  cases k.freeSlot with
  | none | some => simp

/-! ## Credentials, states and the number of objects -/

theorem state_sendResched {t : Nat} : (k.sendResched t).state = k.state := by
  unfold sendResched
  split <;> rfl

/-- `scheduler_add_process` writes one state word. -/
theorem state_schedulerAddProcess {q : Ptr} (hq : q ≠ p) :
    (k.schedulerAddProcess c p).state q = k.state q := by
  dsimp only [schedulerAddProcess]
  split
  · rfl
  · split
    · rw [state_sendResched, state_addToQueue, state_assignTo, update_of_ne hq]
    · rw [state_addToQueue, state_assignTo, update_of_ne hq]

theorem creds_htInsert {pid : UInt32} : (k.htInsert pid p).creds = k.creds := by
  unfold htInsert
  split <;> rfl

theorem nproc_htInsert {pid : UInt32} : (k.htInsert pid p).nproc = k.nproc := by
  unfold htInsert
  split <;> rfl

@[simp] theorem creds_publishChild {x : Process} {slot : Nat} :
    (k.publishChild c x slot).creds = update k.creds k.nproc x.creds := by
  dsimp only [publishChild]
  rw [SchedFrame.schedulerAddProcess.creds, creds_htInsert]
  exact creds_allocProc

theorem state_htInsert {pid : UInt32} : (k.htInsert pid p).state = k.state := by
  unfold htInsert
  split <;> rfl

theorem state_publishChild {x : Process} {slot : Nat} (hp : p ≠ k.nproc) :
    (k.publishChild c x slot).state p = k.state p := by
  dsimp only [publishChild]
  rw [state_schedulerAddProcess hp, state_htInsert]
  show (k.allocProc x).state p = k.state p
  rw [state_allocProc, update_of_ne hp]

@[simp] theorem nproc_publishChild {x : Process} {slot : Nat} :
    (k.publishChild c x slot).nproc = k.nproc + 1 := by
  dsimp only [publishChild]
  rw [SchedFrame.schedulerAddProcess.nproc, nproc_htInsert]
  rfl

end Kernel

end UnixOs
