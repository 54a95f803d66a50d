import Mathlib.Logic.Function.Basic

/-!
# The process table, the CPUs and the wait queues

The data the core of the kernel works on: `process_t` (process.h), `cpu_t`
(percpu.h), `wait_queue_t` (waitq.h) and the global tables of process.c and
sched.c, as one state `Kernel`.

A `process_t *` is a `Ptr`, the index of the object in allocation order, so
`nproc` objects exist and a fresh one is `nproc` itself. Only the fields some
modelled function reads or writes are kept.
-/

namespace UnixOs

open Function

/-- `MAX_PROCESSES_CONST`. -/
def maxProcesses : Nat := 128

/-! ## Error numbers (errno.h) -/

namespace Errno

def EPERM : Int := 1
def ENOENT : Int := 2
def ESRCH : Int := 3
def EINTR : Int := 4
def EIO : Int := 5
def EBADF : Int := 9
def ECHILD : Int := 10
def EAGAIN : Int := 11
def ENOMEM : Int := 12
def EFAULT : Int := 14
def EEXIST : Int := 17
def ENOTDIR : Int := 20
def EISDIR : Int := 21
def EINVAL : Int := 22
def EMFILE : Int := 24
def EFBIG : Int := 27
def ENOSPC : Int := 28
def EPIPE : Int := 32
def ENAMETOOLONG : Int := 36
def ENOTEMPTY : Int := 39
def EOVERFLOW : Int := 75

end Errno

/-! ## Objects -/

/-- The address of a `process_t`, numbered in allocation order. A number is never used
again: the `kfree` of `process_terminate`, and that `kmalloc` may give the address to a new
process, are left out. -/
abbrev Ptr := Nat

/-- The values of `process_t.state`. -/
inductive ProcState where
  | ready
  | running
  | blocked
  | terminated
  | zombie
  deriving DecidableEq, Repr

/-- `process_t` (process.h). -/
structure Process where
  pid : UInt32 := 0
  ppid : UInt32 := 0
  uid : UInt32 := 0
  gid : UInt32 := 0
  euid : UInt32 := 0
  egid : UInt32 := 0
  suid : UInt32 := 0
  sgid : UInt32 := 0
  state : ProcState := .ready
  mlfqQueue : Int := 0
  exitCode : Int := 0
  signalMask : BitVec 32 := 0
  signalPending : BitVec 32 := 0
  signalHandlers : Nat → UInt32 := fun _ => 0
  next : Option Ptr := none
  timeSlice : UInt32 := 0
  ownerCpu : Nat := 0

/-- A `process_t` after `kmemset(p, 0, sizeof(process_t))`. -/
def Process.zeroed : Process := {}

/-- The six identity fields of a process. -/
@[ext]
structure Creds where
  uid : UInt32
  gid : UInt32
  euid : UInt32
  egid : UInt32
  suid : UInt32
  sgid : UInt32
  deriving DecidableEq

def Process.creds (x : Process) : Creds :=
  ⟨x.uid, x.gid, x.euid, x.egid, x.suid, x.sgid⟩

/-- `cpu_t` (percpu.h). `reschedPending` is the interrupt line: an
`IPI_VEC_RESCHED` sent to this CPU and not yet taken. -/
structure Cpu where
  currentProc : Option Ptr := none
  runQueues : Nat → Option Ptr := fun _ => none
  schedTicks : UInt32 := 0
  lastStealTick : UInt32 := 0
  quantumLeft : UInt32 := 0
  currentQueue : Nat := 0
  idleProc : Option Ptr := none
  reschedPending : Bool := false

/-- The wait queues: `p->children_wq`, and those that belong to no process. -/
inductive WaitQueue where
  | children (p : Ptr)
  | other (n : Nat)
  deriving DecidableEq

/-- `wait_queue_entry_t` (waitq.h). -/
structure WaitEntry where
  proc : Option Ptr := none
  next : Option Nat := none

/-- The state of the core: processes, process table and hash, CPUs, and the
wait queues with the entries linked on them. `waking c` is the cursor of the
`wake_all` that CPU `c` is executing. -/
structure Kernel where
  proc : Ptr → Process
  nproc : Nat
  processTable : Nat → Option Ptr
  processTableHt : UInt32 → Option Ptr
  nextPid : UInt32
  cpu : Nat → Cpu
  cpuCount : Nat
  rrCounter : UInt32
  wqHead : WaitQueue → Option Nat
  entry : Nat → WaitEntry
  nentry : Nat
  waking : Nat → Option Nat

namespace Kernel

variable (k : Kernel)

/-! ## Field access -/

/-- The link `p->next`. -/
def next (p : Ptr) : Option Ptr := (k.proc p).next

/-- The state word `p->state`. -/
def state (p : Ptr) : ProcState := (k.proc p).state

/-- The field `p->owner_cpu`. -/
def owner (p : Ptr) : Nat := (k.proc p).ownerCpu

/-- The field `p->mlfq_queue`. -/
def mlfq (p : Ptr) : Int := (k.proc p).mlfqQueue

/-- The identity fields of `p`. -/
def creds (p : Ptr) : Creds := (k.proc p).creds

/-- `*rq_head(&cpus[c], q)` (sched.c:41). -/
def rqHead (c q : Nat) : Option Ptr := (k.cpu c).runQueues q

/-- `cpus[c].current_proc`. -/
def current (c : Nat) : Option Ptr := (k.cpu c).currentProc

/-- `cpus[c].idle_proc`. -/
def idle (c : Nat) : Option Ptr := (k.cpu c).idleProc

/-! ## Field update -/

/-- Update the object at `p`. -/
def modProc (p : Ptr) (f : Process → Process) : Kernel :=
  { k with proc := update k.proc p (f (k.proc p)) }

/-- Update `cpus[c]`. -/
def modCpu (c : Nat) (f : Cpu → Cpu) : Kernel :=
  { k with cpu := update k.cpu c (f (k.cpu c)) }

/-- `p->next = v`. -/
def setNext (p : Ptr) (v : Option Ptr) : Kernel :=
  k.modProc p fun x => { x with next := v }

/-- `p->owner_cpu = v`. -/
def setOwner (p : Ptr) (v : Nat) : Kernel :=
  k.modProc p fun x => { x with ownerCpu := v }

/-- `p->time_slice = v`. -/
def setTimeSlice (p : Ptr) (v : UInt32) : Kernel :=
  k.modProc p fun x => { x with timeSlice := v }

/-- `p->state = v`. -/
def setState (p : Ptr) (v : ProcState) : Kernel :=
  k.modProc p fun x => { x with state := v }

/-- `__atomic_compare_exchange_n(&p->state, &from, to, ...)`. -/
def casState (p : Ptr) (old new : ProcState) : Kernel :=
  if k.state p = old then k.setState p new else k

/-- `*rq_head(&cpus[c], q) = v`. -/
def setHead (c q : Nat) (v : Option Ptr) : Kernel :=
  k.modCpu c fun x => { x with runQueues := update x.runQueues q v }

/-- `cpus[c].current_proc = v`. -/
def setCurrent (c : Nat) (v : Option Ptr) : Kernel :=
  k.modCpu c fun x => { x with currentProc := v }

/-- `smp_ipi_send(target, IPI_VEC_RESCHED)` (ipi.c:31): a target at or above
`cpu_count` is dropped. -/
def sendResched (target : Nat) : Kernel :=
  if k.cpuCount ≤ target then k
  else k.modCpu target fun x => { x with reschedPending := true }

/-- `kmalloc(sizeof(process_t))` with the fields its caller then fills in: the
object is `nproc` of the state before. -/
def allocProc (x : Process) : Kernel :=
  { k with proc := update k.proc k.nproc x, nproc := k.nproc + 1 }

/-! ## How the updates are seen -/

variable {k} {p : Ptr} {c q : Nat} {f : Process → Process} {g : Cpu → Cpu}

@[simp] theorem proc_next : (k.proc p).next = k.next p := rfl
@[simp] theorem proc_state : (k.proc p).state = k.state p := rfl
@[simp] theorem proc_ownerCpu : (k.proc p).ownerCpu = k.owner p := rfl
@[simp] theorem proc_creds : (k.proc p).creds = k.creds p := rfl
@[simp] theorem proc_mlfqQueue : (k.proc p).mlfqQueue = k.mlfq p := rfl
@[simp] theorem cpu_currentProc : (k.cpu c).currentProc = k.current c := rfl
@[simp] theorem cpu_idleProc : (k.cpu c).idleProc = k.idle c := rfl
@[simp] theorem cpu_runQueues : (k.cpu c).runQueues = k.rqHead c := rfl

@[simp] theorem next_modProc : (k.modProc p f).next = update k.next p (f (k.proc p)).next :=
  comp_update Process.next k.proc p _

@[simp] theorem state_modProc : (k.modProc p f).state = update k.state p (f (k.proc p)).state :=
  comp_update Process.state k.proc p _

@[simp] theorem owner_modProc : (k.modProc p f).owner = update k.owner p (f (k.proc p)).ownerCpu :=
  comp_update Process.ownerCpu k.proc p _

@[simp] theorem mlfq_modProc : (k.modProc p f).mlfq = update k.mlfq p (f (k.proc p)).mlfqQueue :=
  comp_update Process.mlfqQueue k.proc p _

@[simp] theorem creds_modProc : (k.modProc p f).creds = update k.creds p (f (k.proc p)).creds :=
  comp_update Process.creds k.proc p _

/-- What an update does not change of the process, it does not change of any. -/
theorem proc_modProc_congr {α : Type} {π : Process → α} (hf : ∀ x, π (f x) = π x) (r : Ptr) :
    π ((k.modProc p f).proc r) = π (k.proc r) := by
  show π (update k.proc p (f (k.proc p)) r) = _
  by_cases hr : r = p
  · rw [hr, update_self, hf]
  · rw [update_of_ne hr]

theorem creds_modProc_eq (hf : ∀ x, (f x).creds = x.creds) :
    (k.modProc p f).creds = k.creds := funext (proc_modProc_congr hf)

@[simp] theorem rqHead_modProc : (k.modProc p f).rqHead = k.rqHead := rfl
@[simp] theorem current_modProc : (k.modProc p f).current = k.current := rfl
@[simp] theorem idle_modProc : (k.modProc p f).idle = k.idle := rfl
@[simp] theorem nproc_modProc : (k.modProc p f).nproc = k.nproc := rfl
@[simp] theorem cpuCount_modProc : (k.modProc p f).cpuCount = k.cpuCount := rfl

@[simp] theorem next_modCpu : (k.modCpu c g).next = k.next := rfl
@[simp] theorem state_modCpu : (k.modCpu c g).state = k.state := rfl
@[simp] theorem owner_modCpu : (k.modCpu c g).owner = k.owner := rfl
@[simp] theorem creds_modCpu : (k.modCpu c g).creds = k.creds := rfl
@[simp] theorem mlfq_modCpu : (k.modCpu c g).mlfq = k.mlfq := rfl
@[simp] theorem nproc_modCpu : (k.modCpu c g).nproc = k.nproc := rfl
@[simp] theorem cpuCount_modCpu : (k.modCpu c g).cpuCount = k.cpuCount := rfl

@[simp] theorem current_modCpu :
    (k.modCpu c g).current = update k.current c (g (k.cpu c)).currentProc :=
  comp_update Cpu.currentProc k.cpu c _

@[simp] theorem idle_modCpu : (k.modCpu c g).idle = update k.idle c (g (k.cpu c)).idleProc :=
  comp_update Cpu.idleProc k.cpu c _

@[simp] theorem rqHead_modCpu : (k.modCpu c g).rqHead = update k.rqHead c (g (k.cpu c)).runQueues :=
  comp_update Cpu.runQueues k.cpu c _

variable {x : Process}

@[simp] theorem next_allocProc : (k.allocProc x).next = update k.next k.nproc x.next :=
  comp_update Process.next k.proc k.nproc x

@[simp] theorem mlfq_allocProc : (k.allocProc x).mlfq = update k.mlfq k.nproc x.mlfqQueue :=
  comp_update Process.mlfqQueue k.proc k.nproc x

@[simp] theorem owner_allocProc : (k.allocProc x).owner = update k.owner k.nproc x.ownerCpu :=
  comp_update Process.ownerCpu k.proc k.nproc x

@[simp] theorem creds_allocProc : (k.allocProc x).creds = update k.creds k.nproc x.creds :=
  comp_update Process.creds k.proc k.nproc x

@[simp] theorem state_allocProc : (k.allocProc x).state = update k.state k.nproc x.state :=
  comp_update Process.state k.proc k.nproc x

end Kernel

end UnixOs
