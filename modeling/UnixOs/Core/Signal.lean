import UnixOs.Core.Fork
import UnixOs.Core.Waitq

/-!
# Signals, exit and reaping (signal.c, process.c, sys_proc.c)

`process_send_signal` looks the target up, checks the sender's permission and
then stores to the target's state word. The store (`signalStore`) is kept
apart from the lookup because nothing holds the table lock between them.
-/

namespace UnixOs

open Function Errno

/-! ## Signal numbers (uapi/signal.h) -/

def sigKill : Nat := 9
def sigUsr1 : Nat := 10
def sigUsr2 : Nat := 12
def sigChld : Nat := 17
def sigCont : Nat := 18
def sigStop : Nat := 19

/-- `default_action(sig) == ACT_TERM` (signal.c:38). -/
def defaultTerminates (sig : Nat) : Bool :=
  sig != sigChld && sig != sigUsr1 && sig != sigUsr2

namespace Kernel

variable (k : Kernel)

/-- `p->exit_code = v`. -/
def setExitCode (p : Ptr) (v : Int) : Kernel :=
  k.modProc p fun x => { x with exitCode := v }

/-- `signal_pending |= 1U << sig`. -/
def setPending (p : Ptr) (sig : Nat) : Kernel :=
  k.modProc p fun x =>
    { x with signalPending := x.signalPending ||| (1#32 <<< sig) }

/-- `process_deliver_signal` (signal.c:117). -/
def processDeliverSignal (p : Ptr) (sig : Nat) : Kernel :=
  let handler := (k.proc p).signalHandlers sig
  if handler = sigIgn then k
  else if handler = sigDfl then
    if defaultTerminates sig then
      (k.setState p .terminated).setExitCode p ((sig &&& 0x7F : Nat) : Int)
    else k
  else k.setPending p sig

/-- The switch of `process_send_signal` (signal.c:61). -/
def signalAction (target : Ptr) (sig : Nat) : Kernel :=
  if sig = sigKill then
    (k.setState target .terminated).setExitCode target
      ((sigKill &&& 0x7F : Nat) : Int)
  else if sig = sigStop then k.setState target .blocked
  else if sig = sigCont then k.casState target .blocked .ready
  else if (k.proc target).signalMask.getLsbD sig then k.setPending target sig
  else k.processDeliverSignal target sig

/-- `sig` makes `p` TERMINATED. -/
def signalFatal (p : Ptr) (sig : Nat) : Bool :=
  sig == sigKill ||
    (sig != sigStop && sig != sigCont && !(k.proc p).signalMask.getLsbD sig &&
      (k.proc p).signalHandlers sig == sigDfl && defaultTerminates sig)

/-- `process_send_signal` from its switch on (signal.c:75). -/
def signalStore (c : Nat) (target : Ptr) (sig : Nat) : Kernel :=
  let k := k.signalAction target sig
  if k.owner target < k.cpuCount ∧ k.owner target ≠ c then
    k.sendResched (k.owner target)
  else k

/-- `process_find_by_pid` (process.c:219). -/
def processFindByPid (pid : UInt32) : Option Ptr :=
  match k.processTableHt pid with
  | none => none
  | some p => if k.state p = .terminated then none else some p

/-- The permission check (signal.c:68). A CPU without a current process acts as
`kernel_proc`, which has `euid` 0. -/
def maySignal (c : Nat) (target : Ptr) : Bool :=
  match k.current c with
  | none => true
  | some s =>
    let e := (k.creds s).euid
    e == 0 || e == (k.creds target).uid || e == (k.creds target).suid

/-- `process_send_signal` (signal.c:61) called on CPU `c`. -/
def processSendSignal (c : Nat) (pid : UInt32) (signal : Int) : Kernel × Int :=
  if signal < 1 ∨ (nsigHandled : Int) ≤ signal then (k, -EINVAL)
  else
    match k.processFindByPid pid with
    | none => (k, -ESRCH)
    | some target =>
      if k.maySignal c target then (k.signalStore c target signal.toNat, 0)
      else (k, -EPERM)

/-- `process_set_signal_handler` (signal.c:138): the state after it. -/
def processSetSignalHandler (p : Ptr) (signal : Int) (handler : UInt32) : Kernel :=
  if signal < 1 ∨ (nsigHandled : Int) ≤ signal then k
  else if signal = sigKill ∨ signal = sigStop then k
  else k.modProc p fun x =>
    { x with
      signalHandlers := update x.signalHandlers signal.toNat handler }

/-! ## Exit and reaping -/

/-- The state store of `process_exit` (process.c:188). -/
def exitStore (c : Nat) : Kernel :=
  match k.current c with
  | none => k
  | some me => if (k.proc me).pid = 0 then k else k.setState me .zombie

/-- The part of `process_exit` that tells the parent (process.c:198). -/
def notifyParent (c : Nat) (ppid : UInt32) : Kernel :=
  if ppid = 0 then k
  else
    let k := match k.processFindByPid ppid with
      | none => k
      | some parent => k.wakeAll c (.children parent)
    (k.processSendSignal c ppid sigChld).1

/-- `process_exit` (process.c:188) on CPU `c`, without interruption. -/
def processExit (c : Nat) (exitCode : Int) : Kernel :=
  match k.current c with
  | none => k
  | some me =>
    if (k.proc me).pid = 0 then k
    else
      let ppid := (k.proc me).ppid
      let k := k.setExitCode me exitCode
      let k := k.notifyParent c ppid
      let k := k.setState me .zombie
      k.schedulerRemoveProcess me

/-- The first slot that holds `p` (process.c:179). -/
def slotOf (p : Ptr) : Option Nat :=
  (List.range' 1 (maxProcesses - 1)).find? fun i => k.processTable i == some p

/-- `process_terminate` (process.c:162). The object is not used again: a later
`kmalloc` is a new one. -/
def processTerminate (p : Ptr) : Kernel :=
  if (k.proc p).pid = 0 then k
  else
    let k := k.setState p .terminated
    let k := { k with
      processTableHt := update k.processTableHt (k.proc p).pid none }
    match k.slotOf p with
    | none => k
    | some i => k.setSlot i none

/-- The end of `waitpid_reap` (sys_proc.c:144). -/
def waitpidReap (p : Ptr) : Kernel :=
  if k.state p = .zombie then k.processTerminate p else k

end Kernel

end UnixOs
