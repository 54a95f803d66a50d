import UnixOs.Core.Kernel
import UnixOs.Lib.CircularList

/-!
# The per-CPU scheduler (sched.c)

The run queues are intrusive rings threaded through `process_t.next`, four per
CPU. A process stays linked while it runs; dispatching it rotates the head of
its queue past it, and `try_steal_work` takes the node behind the head of a
victim's queue.

`schedule` is modelled as one atomic step on the CPU that calls it. The
machine part of `context_switch` (CR3, kernel stack, registers) has no state
here; its store to the two state words does.
-/

namespace UnixOs

open CircularList

/-- `NUM_QUEUES` (sched.c:36). -/
def numQueues : Nat := 4

/-- `queue_quantum[]` (sched.c:37). -/
def queueQuantum (q : Nat) : UInt32 := [5, 10, 20, 40].getD q 0

/-- `STEAL_MIN_INTERVAL` (sched.c:39). -/
def stealMinInterval : UInt32 := 4

/-- The clamp at the start of `add_to_queue`. -/
def clampQueue (queue : Int) : Nat :=
  if queue < 0 then 0
  else if (numQueues : Int) ≤ queue then numQueues - 1
  else queue.toNat

/-- `sched_pick_t` (sched.c:138). -/
@[ext]
structure SchedPick where
  proc : Option Ptr
  queue : Nat
  deriving DecidableEq

namespace Kernel

variable (k : Kernel)

/-- `add_to_queue` (sched.c:63): behind the head, or a ring of its own. -/
def addToQueue (c : Nat) (p : Ptr) (queue : Int) : Kernel :=
  let q := clampQueue queue
  let k := k.modProc p fun x => { x with mlfqQueue := q }
  match k.rqHead c q with
  | none => (k.setHead c q (some p)).setNext p (some p)
  | some h => (k.setNext p (k.next h)).setNext h (some p)

/-- `remove_from_queue` (sched.c:80). The walk visits each linked process at
most once, so the number of processes bounds it. -/
def removeFromQueue (c : Nat) (p : Ptr) : Kernel :=
  let queue := k.mlfq p
  if queue < 0 ∨ (numQueues : Int) ≤ queue then k
  else
    let q := queue.toNat
    match k.rqHead c q with
    | none => k
    | some h =>
      if h = p ∧ k.next p = some p then (k.setHead c q none).setNext p none
      else
        match (findPrev k.next h p k.nproc h).join with
        | none => k
        | some prev =>
          let k := k.setNext prev (k.next p)
          let k := if h = p then k.setHead c q (k.next p) else k
          k.setNext p none

/-- `__atomic_fetch_add(&rr_counter, 1, ...)`, the state after it. -/
def bumpRrCounter : Kernel := { k with rrCounter := k.rrCounter + 1 }

/-- The CPU the round-robin counter points at (sched.c:114). -/
def rrTarget : Nat :=
  if 0 < k.cpuCount then k.rrCounter.toNat % k.cpuCount else 0

/-- The stores of `scheduler_add_process` to the process before it is linked. -/
def assignTo (p : Ptr) (target : Nat) : Kernel :=
  (((k.setState p .ready).setTimeSlice p (queueQuantum 0)).bumpRrCounter).setOwner
    p target

/-- `scheduler_add_process` (sched.c:105), called on CPU `c`. -/
def schedulerAddProcess (c : Nat) (p : Ptr) : Kernel :=
  if (k.proc p).pid = 0 then k
  else
    let target := k.rrTarget
    let k := (k.assignTo p target).addToQueue target p 0
    if target ≠ c then k.sendResched target else k

/-- `scheduler_remove_process` (sched.c:127). -/
def schedulerRemoveProcess (p : Ptr) : Kernel :=
  k.removeFromQueue (k.owner p) p

/-- `find_next_process` (sched.c:143): the head of the first nonempty queue,
whatever its state. -/
def findNextProcess (c : Nat) : SchedPick :=
  match (List.range numQueues).find? fun q => (k.rqHead c q).isSome with
  | some q => ⟨k.rqHead c q, q⟩
  | none => ⟨none, 0⟩

/-- The node `try_steal_work` would take from queue `q` of CPU `v`, together
with the head in front of it (sched.c:175). A ring of one node is skipped. -/
def secondInQueue (v q : Nat) : Option (Ptr × Ptr) :=
  match k.rqHead v q with
  | none => none
  | some h =>
    match k.next h with
    | none => none
    | some x => if x = h then none else some (h, x)

/-- The node the two nested loops of `try_steal_work` stop at: victims in CPU
order, queues from the most urgent. -/
def stealCandidate (c : Nat) : Option (Ptr × Ptr) :=
  (List.range k.cpuCount).findSome? fun v =>
    if v = c then none
    else (List.range numQueues).findSome? fun q => k.secondInQueue v q

/-- Unlink `x` behind `h` and queue it on CPU `c` (sched.c:178). -/
def stealNode (c : Nat) (h x : Ptr) : Kernel :=
  let k := k.setNext h (k.next x)
  let k := k.setNext x none
  let k := k.setOwner x c
  k.addToQueue c x (k.mlfq x)

/-- `try_steal_work` (sched.c:156). -/
def tryStealWork (c : Nat) : Kernel × Option Ptr :=
  let now := (k.cpu c).schedTicks
  if stealMinInterval ≤ now ∧ now - (k.cpu c).lastStealTick < stealMinInterval
  then (k, none)
  else
    let k := k.modCpu c fun x => { x with lastStealTick := now }
    match k.stealCandidate c with
    | none => (k, none)
    | some (h, x) => (k.stealNode c h x, some x)

/-- The part of `pick_next_or_idle` that looks at the own queues
(sched.c:194): a head that is the current process and no longer running is
rotated away once. -/
def pickOwn (c : Nat) : Kernel × SchedPick :=
  let pick := k.findNextProcess c
  match pick.proc with
  | none => (k, pick)
  | some p =>
    if k.current c = some p ∧ k.state p ≠ .running then
      let k := k.setHead c pick.queue (k.next p)
      let pick := k.findNextProcess c
      if pick.proc = k.current c then (k, ⟨none, pick.queue⟩) else (k, pick)
    else (k, pick)

/-- `pick_next_or_idle` (sched.c:193). -/
def pickNextOrIdle (c : Nat) : Kernel × SchedPick :=
  let (k, pick) := k.pickOwn c
  match pick.proc with
  | some _ => (k, pick)
  | none =>
    match k.tryStealWork c with
    | (k, some x) => (k, ⟨some x, (k.mlfq x).toNat⟩)
    | (k, none) => (k, ⟨k.idle c, pick.queue⟩)

/-- `demote_quantum_exhausted` (sched.c:217) on the current process. -/
def demoteQuantumExhausted (c : Nat) : Kernel :=
  match k.current c with
  | none => k
  | some cur =>
    if k.idle c = some cur ∨ k.state cur ≠ .running ∨
        (k.cpu c).quantumLeft ≠ 0 then k
    else
      let k := k.removeFromQueue c cur
      let newQueue := k.mlfq cur + 1
      let newQueue :=
        if (numQueues : Int) ≤ newQueue then (numQueues : Int) - 1 else newQueue
      let k := k.setState cur .ready
      k.addToQueue c cur newQueue

/-- `context_switch` (sched.c:294), the part that survives the switch. -/
def contextSwitch (c : Nat) (old new : Ptr) : Kernel :=
  if old = new then k
  else
    let k := k.casState old .running .ready
    let k := k.setState new .running
    k.setCurrent c (some new)

/-- The stores that make `next` the process of CPU `c` (sched.c:266): the head
of its queue moves past it. -/
def installNext (c : Nat) (next : Ptr) (nextQueue : Nat) : Kernel :=
  let k := k.setCurrent c (some next)
  let k := k.modCpu c fun x => { x with currentQueue := nextQueue }
  let k := k.setState next .running
  let k := k.modCpu c fun x =>
    { x with quantumLeft := queueQuantum nextQueue }
  match k.rqHead c nextQueue with
  | none => k
  | some h => k.setHead c nextQueue (k.next h)

/-- The dispatch of `next` in `schedule` (sched.c:235). -/
def dispatch (c : Nat) (next : Ptr) (nextQueue : Nat) : Kernel :=
  let old := k.current c
  let k := k.installNext c next nextQueue
  match old with
  | none => k
  | some old => k.contextSwitch c old next

/-- The switch to the idle process (sched.c:246). -/
def switchToIdle (c : Nat) : Kernel :=
  match k.idle c, k.current c with
  | some i, some cur =>
    if cur ≠ i ∧ k.state cur ≠ .running then
      let k := k.setCurrent c (some i)
      let k := k.setState i .running
      k.contextSwitch c cur i
    else k
  | _, _ => k

/-- The process keeps the CPU and gets the quantum of its queue
(sched.c:276). -/
def refillQuantum (c : Nat) : Kernel :=
  match k.current c with
  | none => k
  | some cur => k.modCpu c fun x =>
      { x with quantumLeft := queueQuantum (k.mlfq cur).toNat }

/-- The second half of `schedule` (sched.c:235): demote, pick again, and
dispatch what was picked. -/
def reschedule (c : Nat) : Kernel :=
  let k := k.demoteQuantumExhausted c
  let (k, pick) := k.pickNextOrIdle c
  match pick.proc with
  | none => k.refillQuantum c
  | some next =>
    if k.current c ≠ some next ∧ k.idle c ≠ some next then
      k.dispatch c next pick.queue
    else k.refillQuantum c

/-- The test at sched.c:259: nothing keeps the current process running. -/
def mustSwitch (c : Nat) : Bool :=
  k.current c == k.idle c || (k.cpu c).quantumLeft == 0 ||
    match k.current c with
    | none => true
    | some cur => k.state cur != .running

/-- `schedule` (sched.c:235) on CPU `c`. -/
def schedule (c : Nat) : Kernel :=
  let (k, pick) := k.pickNextOrIdle c
  if pick.proc = k.idle c then k.switchToIdle c
  else if k.mustSwitch c then k.reschedule c
  else k

/-- `timer_tick` (sched.c:284) with the scheduler enabled. -/
def timerTick (c : Nat) : Kernel :=
  k.modCpu c fun x =>
    { x with
      schedTicks := x.schedTicks + 1
      quantumLeft := if 0 < x.quantumLeft then x.quantumLeft - 1
        else x.quantumLeft }

end Kernel

/-- The state `start_init_process` leaves for `n` CPUs (smp_bringup.c:62,
main.c:146, init_launch.c:45): process `c` idles on CPU `c`, CPU 0 runs the init
process `n`, which is on no queue, and `n + 1` is `kernel_proc`. The idle
processes of CPUs 1 to `n - 1` are created first, then that of CPU 0, then
init, each in the slot of its pid. -/
def bootKernel (n : Nat) : Kernel :=
  let pidOf (p : Ptr) : Nat :=
    if p = n + 1 then 0 else if p = n then n + 1 else if p = 0 then n else p
  let bySlot (i : Nat) : Option Ptr :=
    (List.range (n + 2)).find? fun p => pidOf p == i
  { proc := fun p =>
      { pid := UInt32.ofNat (pidOf p)
        state := if p = 0 then .ready else .running }
    nproc := n + 2
    processTable := bySlot
    processTableHt := fun pid => bySlot pid.toNat
    nextPid := UInt32.ofNat (n + 2)
    cpu := fun c =>
      { currentProc := if c < n then some (if c = 0 then n else c) else none
        idleProc := if c < n then some c else none }
    cpuCount := n
    rrCounter := 0
    wqHead := fun _ => none
    entry := fun _ => {}
    nentry := 0
    waking := fun _ => none }

end UnixOs
