import UnixOs.Core.RunQueues

/-!
# What the scheduler does not write

Whatever `schedule` and the operations on the run queues do, the process table
and the identity of the processes stay as they are.
-/

namespace UnixOs

open Function

/-- What a process is known by, and what it leaves behind. -/
def Process.ident (x : Process) : UInt32 × UInt32 × Int := (x.pid, x.ppid, x.exitCode)

/-- The idle processes, the objects, who they are and what they may do, the
wait-queue entries and the process table. -/
structure SchedFrame (k k' : Kernel) : Prop where
  creds : k'.creds = k.creds
  idle : k'.idle = k.idle
  nproc : k'.nproc = k.nproc
  entry : k'.entry = k.entry
  processTable : k'.processTable = k.processTable
  processTableHt : k'.processTableHt = k.processTableHt
  nextPid : k'.nextPid = k.nextPid
  ident : ∀ p, (k'.proc p).ident = (k.proc p).ident

namespace SchedFrame

variable {k k' k'' : Kernel} {c : Nat} {p : Ptr}

theorem refl (k : Kernel) : SchedFrame k k := ⟨rfl, rfl, rfl, rfl, rfl, rfl, rfl, fun _ => rfl⟩

theorem trans (h : SchedFrame k k') (h' : SchedFrame k' k'') : SchedFrame k k'' :=
  ⟨h'.creds.trans h.creds, h'.idle.trans h.idle, h'.nproc.trans h.nproc, h'.entry.trans h.entry,
    h'.processTable.trans h.processTable, h'.processTableHt.trans h.processTableHt,
    h'.nextPid.trans h.nextPid, fun p => (h'.ident p).trans (h.ident p)⟩

theorem modProc {f : Process → Process}
    (hf : ∀ x, ((f x).creds, (f x).ident) = (x.creds, x.ident)) : SchedFrame k (k.modProc p f) :=
  ⟨Kernel.creds_modProc_eq fun x => congrArg Prod.fst (hf x), rfl, rfl, rfl, rfl, rfl, rfl,
    Kernel.proc_modProc_congr fun x => congrArg Prod.snd (hf x)⟩

theorem modCpu {g : Cpu → Cpu} (hg : ∀ x, (g x).idleProc = x.idleProc) :
    SchedFrame k (k.modCpu c g) :=
  ⟨rfl, by simp [hg], rfl, rfl, rfl, rfl, rfl, fun _ => rfl⟩

theorem setNext {v : Option Ptr} : SchedFrame k (k.setNext p v) :=
  modProc (by intro; rfl)

theorem setState {s : ProcState} : SchedFrame k (k.setState p s) :=
  modProc (by intro; rfl)

theorem setOwner {v : Nat} : SchedFrame k (k.setOwner p v) :=
  modProc (by intro; rfl)

theorem setMlfq {v : Int} : SchedFrame k (k.modProc p fun x => { x with mlfqQueue := v }) :=
  modProc (by intro; rfl)

theorem setHead {q : Nat} {v : Option Ptr} : SchedFrame k (k.setHead c q v) :=
  modCpu (by intro; rfl)

theorem setCurrent {v : Option Ptr} : SchedFrame k (k.setCurrent c v) :=
  modCpu (by intro; rfl)

theorem casState {s s' : ProcState} : SchedFrame k (k.casState p s s') := by
  unfold Kernel.casState
  split
  · exact setState
  · exact .refl k

theorem addToQueue {queue : Int} : SchedFrame k (k.addToQueue c p queue) := by
  dsimp only [Kernel.addToQueue]
  split
  · exact setMlfq.trans (setHead.trans setNext)
  · exact setMlfq.trans (setNext.trans setNext)

theorem removeFromQueue : SchedFrame k (k.removeFromQueue c p) := by
  dsimp only [Kernel.removeFromQueue]
  split
  · exact .refl k
  split
  · exact .refl k
  split
  · exact setHead.trans setNext
  split
  · exact .refl k
  split
  · exact setNext.trans (setHead.trans setNext)
  · exact setNext.trans setNext

theorem pickNextOrIdle : SchedFrame k (k.pickNextOrIdle c).1 := by
  have hown : SchedFrame k (k.pickOwn c).1 := by
    obtain he | ⟨q, a, -, he⟩ := (k.pickOwn_cases c).1
    · rw [he]
      exact .refl k
    · rw [he]
      exact setHead
  unfold Kernel.pickNextOrIdle
  generalize k.pickOwn c = r at hown
  obtain ⟨k1, ⟨proc, queue⟩⟩ := r
  cases proc with
  | some a => exact hown
  | none =>
    have hsteal : SchedFrame k1 (k1.tryStealWork c).1 := by
      dsimp only [Kernel.tryStealWork]
      split
      · exact .refl k1
      have htick : SchedFrame k1 (k1.modCpu c fun x =>
          { x with lastStealTick := (k1.cpu c).schedTicks }) :=
        modCpu (by intro; rfl)
      split
      · exact htick
      · exact htick.trans (setNext.trans (setNext.trans (setOwner.trans addToQueue)))
    dsimp only at hown ⊢
    generalize k1.tryStealWork c = r at hsteal
    obtain ⟨k2, taken⟩ := r
    cases taken <;> exact hown.trans hsteal

theorem demoteQuantumExhausted : SchedFrame k (k.demoteQuantumExhausted c) := by
  dsimp only [Kernel.demoteQuantumExhausted]
  split
  · exact .refl k
  split
  · exact .refl k
  · exact removeFromQueue.trans (setState.trans addToQueue)

theorem contextSwitch {old new : Ptr} : SchedFrame k (k.contextSwitch c old new) := by
  unfold Kernel.contextSwitch
  split
  · exact .refl k
  · exact casState.trans (setState.trans setCurrent)

theorem dispatch {next : Ptr} {q : Nat} : SchedFrame k (k.dispatch c next q) := by
  have hinstall : SchedFrame k (k.installNext c next q) := by
    dsimp only [Kernel.installNext]
    split
    · exact setCurrent.trans ((modCpu (by intro; rfl)).trans
        (setState.trans (modCpu (by intro; rfl))))
    · exact setCurrent.trans ((modCpu (by intro; rfl)).trans
        (setState.trans ((modCpu (by intro; rfl)).trans setHead)))
  dsimp only [Kernel.dispatch]
  split
  · exact hinstall
  · exact hinstall.trans contextSwitch

theorem refillQuantum : SchedFrame k (k.refillQuantum c) := by
  unfold Kernel.refillQuantum
  split
  · exact .refl k
  · exact modCpu (by intro; rfl)

theorem switchToIdle : SchedFrame k (k.switchToIdle c) := by
  unfold Kernel.switchToIdle
  split
  · split
    · exact setCurrent.trans (setState.trans contextSwitch)
    · exact .refl k
  · exact .refl k

theorem reschedule : SchedFrame k (k.reschedule c) := by
  have hpick : SchedFrame k ((k.demoteQuantumExhausted c).pickNextOrIdle c).1 :=
    demoteQuantumExhausted.trans pickNextOrIdle
  unfold Kernel.reschedule
  dsimp only
  split
  · exact hpick.trans refillQuantum
  split
  · exact hpick.trans dispatch
  · exact hpick.trans refillQuantum

theorem schedule : SchedFrame k (k.schedule c) := by
  have hpick : SchedFrame k (k.pickNextOrIdle c).1 := pickNextOrIdle
  unfold Kernel.schedule
  generalize k.pickNextOrIdle c = r at hpick
  dsimp only at hpick ⊢
  split
  · exact hpick.trans switchToIdle
  split
  · exact hpick.trans reschedule
  · exact hpick

theorem sendResched {t : Nat} : SchedFrame k (k.sendResched t) := by
  unfold Kernel.sendResched
  split
  · exact .refl k
  · exact modCpu (by intro; rfl)

theorem assignTo {t : Nat} : SchedFrame k (k.assignTo p t) := by
  have htime : SchedFrame k ((k.setState p .ready).setTimeSlice p (queueQuantum 0)) :=
    setState.trans (modProc (by intro; rfl))
  have hbump : SchedFrame ((k.setState p .ready).setTimeSlice p (queueQuantum 0))
      ((k.setState p .ready).setTimeSlice p (queueQuantum 0)).bumpRrCounter :=
    ⟨rfl, rfl, rfl, rfl, rfl, rfl, rfl, fun _ => rfl⟩
  exact htime.trans (hbump.trans setOwner)

theorem schedulerAddProcess : SchedFrame k (k.schedulerAddProcess c p) := by
  dsimp only [Kernel.schedulerAddProcess]
  split
  · exact .refl k
  split
  · exact assignTo.trans (addToQueue.trans sendResched)
  · exact assignTo.trans addToQueue

end SchedFrame

end UnixOs
