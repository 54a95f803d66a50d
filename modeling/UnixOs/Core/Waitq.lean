import UnixOs.Core.Kernel

/-!
# Wait queues (waitq.c)

A wait queue is a null-terminated list of entries, each on the kernel stack of
the process that waits. `wake_all` detaches the whole list under the lock and
then walks it without the lock, so it is split here where the source drops the
lock: `wakeDetach`, then one `wakeVisit` per entry, with the cursor of each CPU
in `waking`. `wakeAll` is their composition.
-/

namespace UnixOs

open Function

/-- `MAX_CPUS` (preempt.h). -/
def maxCpus : Nat := 8

namespace Kernel

variable (k : Kernel)

/-- Update the entry `e`. -/
def modEntry (e : Nat) (f : WaitEntry → WaitEntry) : Kernel :=
  { k with entry := update k.entry e (f (k.entry e)) }

/-- `wq->head = v`. -/
def setWqHead (wq : WaitQueue) (v : Option Nat) : Kernel :=
  { k with wqHead := update k.wqHead wq v }

/-- Move the cursor of the `wake_all` on CPU `c`. -/
def setWaking (c : Nat) (v : Option Nat) : Kernel :=
  { k with waking := update k.waking c v }

/-- Push the entry `e` for process `p`. -/
def pushEntry (wq : WaitQueue) (e : Nat) (p : Ptr) : Kernel :=
  let k := { k with nentry := max k.nentry (e + 1) }
  let k := k.modEntry e fun _ => { proc := some p, next := k.wqHead wq }
  k.setWqHead wq (some e)

/-- `wait_queue_prepare` (waitq.c:32) on CPU `c`. The state store is plain. -/
def waitQueuePrepare (c : Nat) (wq : WaitQueue) (e : Nat) : Kernel :=
  match k.current c with
  | none => k
  | some p =>
    let k := if (k.entry e).proc ≠ some p then k.pushEntry wq e p else k
    k.setState p .blocked

/-- The walk to the entry in front of `e` (waitq.c:54), with `some none` at the end of the
queue. The entries in use bound it. -/
def findEntryPrev (e : Nat) : Nat → Nat → Option (Option Nat)
  | 0, _ => none
  | fuel + 1, x =>
    match (k.entry x).next with
    | none => some none
    | some y => if y = e then some (some x) else findEntryPrev e fuel y

/-- Take `e` off the list, if it is on it. -/
def unlinkEntry (wq : WaitQueue) (e : Nat) : Kernel :=
  match k.wqHead wq with
  | none => k
  | some h =>
    if h = e then
      (k.setWqHead wq (k.entry e).next).modEntry e fun x => { x with next := none }
    else
      match (k.findEntryPrev e k.nentry h).join with
      | none => k
      | some prev =>
        let after := (k.entry e).next
        let k := k.modEntry prev fun x => { x with next := after }
        k.modEntry e fun x => { x with next := none }

/-- `wait_queue_finish` (waitq.c:51). -/
def waitQueueFinish (wq : WaitQueue) (e : Nat) : Kernel :=
  let k := k.unlinkEntry wq e
  match (k.entry e).proc with
  | none => k
  | some p => (k.casState p .blocked .running).modEntry e fun x => { x with proc := none }

/-- The locked section of `wake_all` (waitq.c:73). -/
def wakeDetach (c : Nat) (wq : WaitQueue) : Kernel :=
  (k.setWaking c (k.wqHead wq)).setWqHead wq none

/-- The stores of `wake_all` to the process of a visited entry (waitq.c:85). -/
def wakeProcess (c : Nat) (p : Ptr) : Kernel :=
  let k := k.setState p .ready
  if k.owner p < maxCpus ∧ k.owner p ≠ c then k.sendResched (k.owner p) else k

/-- One turn of the loop of `wake_all` (waitq.c:73). -/
def wakeVisit (c : Nat) : Kernel :=
  match k.waking c with
  | none => k
  | some e =>
    let after := (k.entry e).next
    let k := k.modEntry e fun x => { x with next := none }
    let k := match (k.entry e).proc with
      | none => k
      | some p => k.wakeProcess c p
    k.setWaking c after

/-- The loop, bounded by the entries in use. -/
def wakeLoop (c : Nat) : Nat → Kernel → Kernel
  | 0, k => k
  | fuel + 1, k => wakeLoop c fuel (k.wakeVisit c)

/-- `wake_all` (waitq.c:73) without interruption. -/
def wakeAll (c : Nat) (wq : WaitQueue) : Kernel :=
  let k := k.wakeDetach c wq
  wakeLoop c k.nentry k

end Kernel

end UnixOs
