import UnixOs.Core.StateSteps

/-!
# Signals of the kernel (alarm.c, process.c)

`alarm_tick` and `process_exit` post their signals with `process_send_signal`, the call
behind `kill`, which asks whether the process that is current may signal the target. At a
tick that is whoever the timer interrupted. So the signal arrives exactly if this process
has `euid` 0 or one of the target's user ids, or the target had it before
(`kernelSignals_iff`).

- `Process.HasSignal`: the signal is pending, has ended the process, or is ignored by it;
- `hasSignal_alarmTick`, `hasSignal_processExit`: when the target has its signal in the end.
-/

namespace UnixOs

open Function Errno

def sigAlrm : Nat := 14

namespace Process

/-- A signal that comes is dropped. -/
def Ignores (x : Process) (sig : Nat) : Prop :=
  x.signalMask.getLsbD sig = false ∧ (x.signalHandlers sig = sigIgn ∨
    x.signalHandlers sig = sigDfl ∧ defaultTerminates sig = false)

/-- The signal is pending, or a signal that comes is dropped. -/
def Holds (x : Process) (sig : Nat) : Prop :=
  x.signalPending.getLsbD sig = true ∨ x.Ignores sig

/-- The signal has arrived: it is pending, or the process ignores it, or has ended. -/
def HasSignal (x : Process) (sig : Nat) : Prop := x.Holds sig ∨ x.state = .terminated

/-- What a process says of its signals. -/
def signals (x : Process) : BitVec 32 × BitVec 32 × (Nat → UInt32) :=
  (x.signalMask, x.signalPending, x.signalHandlers)

theorem holds_congr {x y : Process} {sig : Nat} (h : x.signals = y.signals) :
    x.Holds sig ↔ y.Holds sig := by
  obtain ⟨hmask, hpending, hhandlers⟩ : _ ∧ _ ∧ _ := by simpa only [signals, Prod.mk.injEq] using h
  rw [Holds, Holds, Ignores, Ignores, hmask, hpending, hhandlers]

end Process

/-- The kernel with `alarm_ticks` of every process. -/
structure Alarms where
  k : Kernel
  ticks : Ptr → UInt32

namespace Alarms

/-- The call of `process_send_signal` for a process whose alarm ran out (alarm.c:41). -/
def sendAlarm (s : Alarms) (c : Nat) (p : Ptr) : Kernel × Int :=
  s.k.processSendSignal c (s.k.proc p).pid sigAlrm

/-- One slot of the process table in `alarm_tick` (alarm.c:28). -/
def alarmSlot (c : Nat) (s : Alarms) (i : Nat) : Alarms :=
  match s.k.processTable i with
  | none => s
  | some p =>
    if s.k.state p = .terminated ∨ s.k.state p = .zombie then s
    else if s.ticks p = 0 then s
    else
      let ticks := update s.ticks p (s.ticks p - 1)
      if s.ticks p = 1 then ⟨(s.sendAlarm c p).1, ticks⟩ else { s with ticks }

/-- The first `n` slots. -/
def scan (c : Nat) (s : Alarms) (n : Nat) : Alarms := (List.range n).foldl (alarmSlot c) s

/-- `alarm_tick` (alarm.c:28) on CPU `c`. -/
def alarmTick (c : Nat) (s : Alarms) : Alarms := scan c s maxProcesses

/-- The scan comes to slot `i`, and the alarm of its process `p` reaches zero. -/
structure Expires (s : Alarms) (i : Nat) (p : Ptr) : Prop where
  slot : s.k.processTable i = some p
  alive : ¬ (s.k.state p = .terminated ∨ s.k.state p = .zombie)
  last : s.ticks p = 1

end Alarms

namespace Kernel

section

variable (k : Kernel) (c : Nat)

/-- The children's queue of the parent is woken first (process.c:200). -/
def wokenParent (ppid : UInt32) : Kernel :=
  match k.processFindByPid ppid with
  | none => k
  | some parent => k.wakeAll c (.children parent)

/-- `parent` is the parent of the process that is current on `c`. -/
def HasParent (parent : Ptr) : Prop :=
  ∃ me, k.current c = some me ∧ (k.proc me).pid ≠ 0 ∧ (k.proc me).ppid ≠ 0 ∧
    k.processFindByPid (k.proc me).ppid = some parent

/-- Every process of the table is found by its pid. -/
def Listed : Prop := ∀ i p, k.processTable i = some p → k.processTableHt (k.proc p).pid = some p

/-- Who the processes are, where they are found, and which are current. -/
def ids : (Ptr → Creds) × (Ptr → UInt32) × (Nat → Option Ptr) × (UInt32 → Option Ptr) ×
    (Nat → Option Ptr) :=
  (k.creds, fun p => (k.proc p).pid, k.processTable, k.processTableHt, k.current)

end

variable {k k' : Kernel} {c : Nat} {p : Ptr}

/-! ## What a signal leaves -/

theorem maySignal_congr (h : k'.ids = k.ids) : k'.maySignal c p = k.maySignal c p := by
  obtain ⟨hcreds, -, -, -, hcurrent⟩ : _ ∧ _ ∧ _ ∧ _ ∧ _ := by
    simpa only [ids, Prod.mk.injEq] using h
  rw [maySignal, maySignal, hcurrent, hcreds]

theorem ids_modProc {f : Process → Process} (hc : ∀ x, (f x).creds = x.creds)
    (hp : ∀ x, (f x).pid = x.pid) : (k.modProc p f).ids = k.ids := by
  have hpid : (fun q => ((k.modProc p f).proc q).pid) = fun q => (k.proc q).pid :=
    funext (proc_modProc_congr hp)
  rw [ids, creds_modProc_eq hc, hpid]
  rfl

theorem ids_setState {v : ProcState} : (k.setState p v).ids = k.ids :=
  ids_modProc (fun _ => rfl) fun _ => rfl

theorem ids_setExitCode {v : Int} : (k.setExitCode p v).ids = k.ids :=
  ids_modProc (fun _ => rfl) fun _ => rfl

theorem ids_sendResched {n : Nat} : (k.sendResched n).ids = k.ids := by
  rw [ids, Leaves.sendResched.current]
  unfold sendResched
  split <;> rfl

theorem ids_signalStore {sig : Nat} : (k.signalStore c p sig).ids = k.ids := by
  have haction : (k.signalAction p sig).ids = k.ids := by
    obtain he | he | ⟨-, he⟩ | ⟨-, he⟩ | ⟨-, v, he⟩ := signalAction_cases k p sig <;> rw [he]
    · exact ids_modProc (fun _ => rfl) fun _ => rfl
    · exact ids_setState
    · exact ids_setState
    · exact ids_setExitCode.trans ids_setState
  unfold signalStore
  dsimp only
  split
  · exact ids_sendResched.trans haction
  · exact haction

theorem processSendSignal_eq {pid : UInt32} {sig : Nat} (hsig : 1 ≤ sig ∧ sig < nsigHandled)
    (h : k.processFindByPid pid = some p) :
    k.processSendSignal c pid sig
      = if k.maySignal c p then (k.signalStore c p sig, 0) else (k, -EPERM) := by
  rw [processSendSignal, if_neg (by omega), h]
  rfl

theorem proc_sendResched {n : Nat} : (k.sendResched n).proc = k.proc := by
  unfold sendResched
  split <;> rfl

theorem proc_signalStore {sig : Nat} :
    (k.signalStore c p sig).proc = (k.signalAction p sig).proc := by
  unfold signalStore
  dsimp only
  split
  · exact proc_sendResched
  · rfl

/-- A signal is the target's business. -/
theorem proc_signalStore_of_ne {q : Ptr} {sig : Nat} (hq : q ≠ p) :
    (k.signalStore c p sig).proc q = k.proc q := by
  have hmod (k : Kernel) (f : Process → Process) : (k.modProc p f).proc q = k.proc q :=
    update_of_ne hq _ _
  rw [proc_signalStore]
  obtain he | he | ⟨-, he⟩ | ⟨-, he⟩ | ⟨-, v, he⟩ := signalAction_cases k p sig
  · rw [he]
  · rw [he, setPending, hmod]
  · rw [he, setState, hmod]
  · rw [he, setState, hmod]
  · rw [he, setExitCode, hmod, setState, hmod]

theorem holds_setPending {sig : Nat} (hsig : sig < 32) :
    ((k.setPending p sig).proc p).Holds sig := by
  left
  rw [setPending, modProc]
  simp [hsig]

/-- A signal that is posted arrives. -/
theorem signalStore_arrives {sig : Nat} (hsig : sig < 32)
    (hplain : sig ≠ sigKill ∧ sig ≠ sigStop ∧ sig ≠ sigCont) :
    ((k.signalStore c p sig).proc p).Holds sig ∨
      defaultTerminates sig = true ∧ (k.signalStore c p sig).state p = .terminated := by
  unfold state
  rw [proc_signalStore, signalAction, if_neg hplain.1, if_neg hplain.2.1, if_neg hplain.2.2]
  split
  · exact .inl (holds_setPending hsig)
  next hmask =>
  rw [Bool.not_eq_true] at hmask
  rw [processDeliverSignal]
  split
  · next hign => exact .inl (.inr ⟨hmask, .inl hign⟩)
  split
  · next hdfl =>
    split
    · next hterm =>
      refine .inr ⟨hterm, ?_⟩
      simp [setExitCode, setState, modProc]
    · next hterm => exact .inl (.inr ⟨hmask, .inr ⟨hdfl, Bool.not_eq_true _ ▸ hterm⟩⟩)
  · exact .inl (holds_setPending hsig)

/-! ## The exit -/

/-- `wake_all` leaves the tables, and a process that it stores to is READY. -/
def Woken (k k' : Kernel) : Prop :=
  k'.ids = k.ids ∧ ∀ p, k'.state p = k.state p ∨ k'.state p = .ready

theorem Woken.trans {k'' : Kernel} (h : Woken k k') (h' : Woken k' k'') : Woken k k'' := by
  refine ⟨h'.1.trans h.1, fun p => ?_⟩
  rcases h'.2 p with he | he
  · rw [he]
    exact h.2 p
  · exact .inr he

/-- A visit stores READY, or nothing. -/
theorem woken_wakeVisit (k : Kernel) (c : Nat) : Woken k (k.wakeVisit c) := by
  have hsame {k1 k2 : Kernel} (hids : k2.ids = k1.ids) (hstate : k2.state = k1.state) :
      Woken k1 k2 := ⟨hids, fun p => .inl (by rw [hstate])⟩
  unfold wakeVisit
  split
  · exact hsame rfl rfl
  dsimp only
  split
  · exact hsame rfl rfl
  next e _ _ q _ =>
  have hentry : Woken k (k.modEntry e fun x => { x with next := none }) := hsame rfl rfl
  have hready {k : Kernel} : Woken k (k.setState q .ready) := by
    refine ⟨ids_setState, fun p => ?_⟩
    rw [state_setState]
    by_cases hp : p = q
    · exact .inr (by rw [hp, update_self])
    · exact .inl (update_of_ne hp _ _)
  refine (hentry.trans ?_).trans (hsame rfl rfl)
  unfold wakeProcess
  dsimp only
  split
  · exact hready.trans (hsame ids_sendResched state_sendResched)
  · exact hready

theorem woken_wokenParent (k : Kernel) (c : Nat) (ppid : UInt32) :
    Woken k (k.wokenParent c ppid) := by
  have hloop : ∀ (fuel : Nat) (k : Kernel), Woken k (wakeLoop c fuel k) := by
    intro fuel
    induction fuel with
    | zero => exact fun k => ⟨rfl, fun p => .inl rfl⟩
    | succ fuel ih => exact fun k => (woken_wakeVisit k c).trans (ih _)
  unfold wokenParent
  split
  · exact ⟨rfl, fun p => .inl rfl⟩
  next parent _ =>
  have hdetach : Woken k (k.wakeDetach c (.children parent)) := ⟨rfl, fun _ => .inl rfl⟩
  exact hdetach.trans (hloop _ _)

/-- A chain of stores that leaves what the processes say of their signals. -/
def SameSignals (k k' : Kernel) : Prop := ∀ p, (k'.proc p).signals = (k.proc p).signals

theorem sameSignals_modProc {f : Process → Process} (hf : ∀ x, (f x).signals = x.signals) :
    SameSignals k (k.modProc p f) := fun _ => proc_modProc_congr hf _

theorem sameSignals_setState (k : Kernel) (p : Ptr) (v : ProcState) :
    SameSignals k (k.setState p v) := sameSignals_modProc fun _ => rfl

theorem SameSignals.trans {k'' : Kernel} (h : SameSignals k k') (h' : SameSignals k' k'') :
    SameSignals k k'' := fun p => (h' p).trans (h p)

/-- A visit of `wake_all` sends no signal. -/
theorem sameSignals_wakeVisit (k : Kernel) (c : Nat) : SameSignals k (k.wakeVisit c) := by
  intro p
  unfold wakeVisit
  split
  · rfl
  dsimp only
  split
  · rfl
  · unfold wakeProcess
    dsimp only
    split
    · show ((sendResched _ _).proc p).signals = _
      rw [proc_sendResched]
      exact sameSignals_setState _ _ _ p
    · exact sameSignals_setState _ _ _ p

theorem sameSignals_wokenParent (k : Kernel) (c : Nat) (ppid : UInt32) :
    SameSignals k (k.wokenParent c ppid) := by
  have hloop : ∀ (fuel : Nat) (k : Kernel), SameSignals k (wakeLoop c fuel k) := by
    intro fuel
    induction fuel with
    | zero => exact fun k p => rfl
    | succ fuel ih => exact fun k => (sameSignals_wakeVisit k c).trans (ih _)
  unfold wokenParent
  split
  · exact fun p => rfl
  · exact hloop _ _

/-- Nor does taking a process off its run queue. -/
theorem sameSignals_removeFromQueue (k : Kernel) (c : Nat) (p : Ptr) :
    SameSignals k (k.removeFromQueue c p) := by
  have hnext (k : Kernel) (x : Ptr) (v : Option Ptr) : SameSignals k (k.setNext x v) :=
    sameSignals_modProc fun _ => rfl
  have hhead (k : Kernel) (c q : Nat) (v : Option Ptr) : SameSignals k (k.setHead c q v) :=
    fun _ => rfl
  dsimp only [removeFromQueue]
  split
  · exact fun _ => rfl
  split
  · exact fun _ => rfl
  split
  · exact (hhead _ _ _ _).trans (hnext _ _ _)
  split
  · exact fun _ => rfl
  split
  · exact ((hnext _ _ _).trans (hhead _ _ _ _)).trans (hnext _ _ _)
  · exact (hnext _ _ _).trans (hnext _ _ _)

/-- The parent has SIGCHLD after the exit exactly if the process may signal it, or it had the
signal before. -/
theorem hasSignal_processExit (h : k.HasParent c p) (code : Int) :
    ((k.processExit c code).proc p).HasSignal sigChld ↔
      k.maySignal c p = true ∨ (k.proc p).HasSignal sigChld := by
  obtain ⟨me, hme, hpid, hppid, hfind⟩ := h
  obtain ⟨hids, hstate⟩ := woken_wokenParent (k.setExitCode me code) c (k.proc me).ppid
  have hsame := sameSignals_wokenParent (k.setExitCode me code) c (k.proc me).ppid
  obtain ⟨hht, halive⟩ := processFindByPid_eq hfind
  rw [state_setExitCode] at hstate
  -- the parent may be one of those woken, but it is not TERMINATED
  have hlive : ((k.setExitCode me code).wokenParent c (k.proc me).ppid).state p ≠ .terminated := by
    rcases hstate p with he | he <;> rw [he]
    · exact halive
    · exact fun hr => by cases hr
  have hfound : ((k.setExitCode me code).wokenParent c (k.proc me).ppid).processFindByPid
      (k.proc me).ppid = some p := by
    have htable := congrArg (·.2.2.2.1 (k.proc me).ppid) hids
    rw [processFindByPid, show processTableHt _ (k.proc me).ppid = some p from htable.trans hht]
    exact if_neg hlive
  have hnotify : (k.setExitCode me code).notifyParent c (k.proc me).ppid =
      (((k.setExitCode me code).wokenParent c (k.proc me).ppid).processSendSignal c
        (k.proc me).ppid sigChld).1 := if_neg hppid
  have hmay := (maySignal_congr (c := c) (p := p) hids).trans (maySignal_congr ids_setExitCode)
  have hexit : k.processExit c code = (((k.setExitCode me code).notifyParent c
      (k.proc me).ppid).setState me .zombie).schedulerRemoveProcess me := by
    rw [processExit, hme]
    exact if_neg hpid
  have hlast (k1 : Kernel) : SameSignals k1
      ((k1.setState me .zombie).schedulerRemoveProcess me) :=
    (sameSignals_setState k1 me .zombie).trans (sameSignals_removeFromQueue _ _ _)
  have hfirst : SameSignals k ((k.setExitCode me code).wokenParent c (k.proc me).ppid) :=
    have hcode : SameSignals k (k.setExitCode me code) := sameSignals_modProc fun _ => rfl
    hcode.trans hsame
  rw [hexit, hnotify, processSendSignal_eq (by decide) hfound, hmay]
  generalize (k.setExitCode me code).wokenParent c (k.proc me).ppid = k1 at hlive hfirst
  cases k.maySignal c p with
  | true =>
    refine iff_of_true (.inl ((Process.holds_congr (hlast _ p)).2 ?_)) (.inl rfl)
    exact (signalStore_arrives (by decide) (by decide)).resolve_right fun hterm => by
      cases hterm.1
  | false =>
    have hdead : ((k1.setState me .zombie).schedulerRemoveProcess me).state p ≠ .terminated := by
      rw [schedulerRemoveProcess, state_removeFromQueue, state_setState]
      by_cases hp : p = me
      · rw [hp, update_self]
        exact fun hz => by cases hz
      · rw [update_of_ne hp]
        exact hlive
    have hholds := @Process.holds_congr _ _ sigChld ((hlast k1 p).trans (hfirst p))
    constructor
    · rintro (hh | hh)
      · exact .inr (.inl (hholds.1 hh))
      · exact absurd hh hdead
    · rintro (hf | hh | hh)
      · cases hf
      · exact .inl (hholds.2 hh)
      · exact absurd hh halive

end Kernel

namespace Alarms

open Kernel

variable {s : Alarms} {c : Nat} {p : Ptr}

/-! ## The scan -/

/-- A slot whose alarm rings does not change who is who. -/
theorem ids_alarmSlot (hl : s.k.Listed) (c i : Nat) : (alarmSlot c s i).k.ids = s.k.ids := by
  unfold alarmSlot
  cases hp : s.k.processTable i with
  | none => rfl
  | some p =>
    dsimp only
    split
    · rfl
    next halive =>
    split
    · rfl
    split
    · have hfind : s.k.processFindByPid (s.k.proc p).pid = some p := by
        rw [processFindByPid, hl i p hp]
        exact if_neg fun he => halive (.inl he)
      rw [sendAlarm, processSendSignal_eq (by decide) hfind]
      split
      · exact ids_signalStore
      · rfl
    · rfl

theorem Listed.congr {k k' : Kernel} (h : k'.ids = k.ids) (hl : k.Listed) : k'.Listed := by
  obtain ⟨-, hpid, htable, hht, -⟩ : _ ∧ _ ∧ _ ∧ _ ∧ _ := by simpa only [ids, Prod.mk.injEq] using h
  intro i p hp
  rw [hht, congrFun hpid p]
  exact hl i p (htable ▸ hp)

theorem ids_scan (hl : s.k.Listed) (c n : Nat) : (scan c s n).k.ids = s.k.ids := by
  induction n with
  | zero => rfl
  | succ n ih =>
    rw [scan, List.range_succ, List.foldl_append]
    exact (ids_alarmSlot (Listed.congr ih hl) c n).trans ih

/-- What slot `i` does, if its alarm runs out. -/
theorem alarmSlot_of_expires (hl : s.k.Listed) {i : Nat} (he : s.Expires i p) :
    alarmSlot c s i = ⟨if s.k.maySignal c p then s.k.signalStore c p sigAlrm else s.k,
      update s.ticks p 0⟩ := by
  have hfind : s.k.processFindByPid (s.k.proc p).pid = some p := by
    rw [processFindByPid, hl i p he.slot]
    exact if_neg fun hdead => he.alive (.inl hdead)
  have hne : s.ticks p ≠ 0 := by
    rw [he.last]
    decide
  rw [alarmSlot, he.slot]
  dsimp only
  rw [if_neg he.alive, if_neg hne, if_pos he.last, sendAlarm,
    processSendSignal_eq (by decide) hfind,
    he.last]
  cases s.k.maySignal c p <;> rfl

/-- A slot leaves a process alone, unless its alarm runs out there. -/
theorem alarmSlot_cases (hl : s.k.Listed) (c i : Nat) (p : Ptr) : s.Expires i p ∨
    (alarmSlot c s i).k.proc p = s.k.proc p ∧ (s.ticks p = 0 → (alarmSlot c s i).ticks p = 0) := by
  by_cases he : ∃ q, s.Expires i q
  · obtain ⟨q, he⟩ := he
    by_cases hq : p = q
    · exact .inl (hq ▸ he)
    · rw [alarmSlot_of_expires hl he]
      refine .inr ⟨?_, fun h0 => (update_of_ne hq _ _).trans h0⟩
      dsimp only
      split
      · exact proc_signalStore_of_ne hq
      · rfl
  · -- at most the counter of the slot's process goes down
    right
    rw [alarmSlot]
    split
    · exact ⟨rfl, id⟩
    next q hq =>
    split
    · exact ⟨rfl, id⟩
    next halive =>
    split
    · exact ⟨rfl, id⟩
    next hne =>
    dsimp only
    split
    · next hlast => exact absurd ⟨q, hq, halive, hlast⟩ he
    · refine ⟨rfl, fun h0 => (update_of_ne ?_ _ _).trans h0⟩
      rintro rfl
      exact hne h0

theorem scan_succ (n : Nat) : scan c s (n + 1) = alarmSlot c (scan c s n) n := by
  rw [scan, List.range_succ, List.foldl_append]
  rfl

theorem listed_scan (hl : s.k.Listed) (c n : Nat) : (scan c s n).k.Listed :=
  Listed.congr (ids_scan hl c n) hl

/-- A process is as it was until its alarm has run out. -/
theorem scan_before (hl : s.k.Listed) (n : Nat) :
    (scan c s n).ticks p = 0 ∨ (scan c s n).k.proc p = s.k.proc p := by
  induction n with
  | zero => exact .inr rfl
  | succ n ih =>
    rw [scan_succ]
    obtain he | ⟨hproc, hticks⟩ := alarmSlot_cases (listed_scan hl c n) c n p
    · rw [alarmSlot_of_expires (listed_scan hl c n) he]
      exact .inl (update_self ..)
    · exact ih.imp hticks hproc.trans

/-- And nothing happens to it afterwards. -/
theorem scan_after (hl : s.k.Listed) {i n : Nat} (hin : i ≤ n) (h0 : (scan c s i).ticks p = 0) :
    (scan c s n).ticks p = 0 ∧ (scan c s n).k.proc p = (scan c s i).k.proc p := by
  induction n, hin using Nat.le_induction with
  | base => exact ⟨h0, rfl⟩
  | succ n _ ih =>
    rw [scan_succ]
    obtain he | ⟨hproc, hticks⟩ := alarmSlot_cases (listed_scan hl c n) c n p
    · rw [he.last] at ih
      exact absurd ih.1 (by decide)
    · exact ⟨hticks ih.1, hproc.trans ih.2⟩

/-- A process whose alarm runs out has SIGALRM after the tick exactly if the process that was
interrupted may signal it, or it had the signal before. -/
theorem hasSignal_alarmTick (hl : s.k.Listed) {i : Nat} (hi : i < maxProcesses)
    (he : (scan c s i).Expires i p) : ((alarmTick c s).k.proc p).HasSignal sigAlrm ↔
      s.k.maySignal c p = true ∨ (s.k.proc p).HasSignal sigAlrm := by
  have hslot := alarmSlot_of_expires (c := c) (listed_scan hl c i) he
  rw [← scan_succ, maySignal_congr (ids_scan hl c i)] at hslot
  have hzero : (scan c s (i + 1)).ticks p = 0 := by
    rw [hslot]
    exact update_self ..
  have hbefore : (scan c s i).k.proc p = s.k.proc p := by
    refine (scan_before hl i).resolve_left fun h0 => ?_
    rw [he.last] at h0
    exact absurd h0 (by decide)
  rw [alarmTick, (scan_after hl hi hzero).2, hslot]
  cases s.k.maySignal c p with
  | true =>
    refine iff_of_true ?_ (.inl rfl)
    exact (signalStore_arrives (by decide) (by decide)).imp_right And.right
  | false =>
    rw [or_iff_right Bool.false_ne_true, ← hbefore]
    rfl

/-- **The signals of the kernel arrive**: every alarm that runs out at a tick and every exit
leaves its target with the signal, exactly if the process that is current on this CPU may
signal the targets that had not got it before. -/
theorem kernelSignals_iff (hl : s.k.Listed) (c : Nat) (code : Int) :
    ((∀ i < maxProcesses, ∀ p, (scan c s i).Expires i p →
          ((alarmTick c s).k.proc p).HasSignal sigAlrm) ∧
        ∀ parent, s.k.HasParent c parent →
          ((s.k.processExit c code).proc parent).HasSignal sigChld) ↔
      (∀ i < maxProcesses, ∀ p, (scan c s i).Expires i p →
          s.k.maySignal c p = true ∨ (s.k.proc p).HasSignal sigAlrm) ∧
        ∀ parent, s.k.HasParent c parent →
          s.k.maySignal c parent = true ∨ (s.k.proc parent).HasSignal sigChld :=
  and_congr (forall₄_congr fun _ hi _ he => hasSignal_alarmTick hl hi he)
    (forall₂_congr fun _ h => hasSignal_processExit h code)

/-! ## A process of another user -/

/-- Process 0 (pid 1, of root, with an alarm that runs out and handlers for both signals) is the
parent of process 1 (pid 2), which is current. -/
def lastTick (euid : UInt32) : Alarms where
  k := ((bootKernel 1).modProc 0 fun x => { x with signalHandlers := fun _ => 0x1000 }).modProc 1
    fun x => { x with ppid := 1, uid := euid, euid, suid := euid }
  ticks := fun p => if p = 0 then 1 else 0

theorem listed_lastTick (euid : UInt32) : (lastTick euid).k.Listed := by
  intro i p h
  have hp := List.mem_range.1 (List.mem_of_find?_eq_some h)
  obtain rfl | rfl | rfl : @Eq Nat p 0 ∨ @Eq Nat p 1 ∨ @Eq Nat p 2 := by omega
  all_goals rfl

/-- A process of user 5 is current at the tick, and may not signal the process of root. -/
theorem lastTick_refused : (lastTick 5).k.Listed ∧
    (scan 0 (lastTick 5) 1).Expires 1 0 ∧
      ¬ ((alarmTick 0 (lastTick 5)).k.proc 0).HasSignal sigAlrm ∧
    (lastTick 5).k.HasParent 0 0 ∧
      ¬ (((lastTick 5).k.processExit 0 0).proc 0).HasSignal sigChld := by
  have hexpires : (scan 0 (lastTick 5) 1).Expires 1 0 := ⟨rfl, by decide, rfl⟩
  have hparent : (lastTick 5).k.HasParent 0 0 := ⟨1, rfl, by decide, by decide, rfl⟩
  refine ⟨listed_lastTick 5, hexpires, ?_, hparent, ?_⟩
  · rw [hasSignal_alarmTick (listed_lastTick 5) (by decide) hexpires]
    unfold Process.HasSignal Process.Holds Process.Ignores
    decide
  · rw [hasSignal_processExit hparent]
    unfold Process.HasSignal Process.Holds Process.Ignores
    decide

theorem lastTick_posted : ((alarmTick 0 (lastTick 0)).k.proc 0).HasSignal sigAlrm ∧
    (((lastTick 0).k.processExit 0 0).proc 0).HasSignal sigChld := by
  have h := (kernelSignals_iff (listed_lastTick 0) 0 0).2
    ⟨fun _ _ _ _ => .inl rfl, fun _ _ => .inl rfl⟩
  exact ⟨h.1 1 (by decide) 0 ⟨rfl, by decide, rfl⟩, h.2 0 ⟨1, rfl, by decide, by decide, rfl⟩⟩

end Alarms

end UnixOs
