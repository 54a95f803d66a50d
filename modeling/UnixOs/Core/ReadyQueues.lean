import UnixOs.Core.QueueLinks

/-!
# READY processes are queued

A process that becomes READY runs again only if a scheduler can find it. A
process is linked when it is created and stays linked until it exits, so a
wake-up need not link it; `start_init_process` makes an exception of init, which
starts RUNNING and is linked when its first quantum runs out.

- `ReadyQueued`: a READY process is on queue `mlfq_queue` of CPU `owner_cpu` and
  on no other;
- `HomeInv`, `homeInv_stateStep`: READY and BLOCKED processes are linked, and so
  is everyone on a wait queue who has not exited;
- `readyQueued_of_homeSafe`: `ReadyQueued` along every run in which init does not
  block before it is linked and no process that has exited is woken.
-/

namespace UnixOs

open Function Machine Kernel

/-- Every READY process but the idle ones is on its own queue, and on no
other. -/
def ReadyQueued (k : Kernel) : Prop :=
  ∀ p < k.nproc, k.state p = .ready → ¬ k.IsIdle p →
    ∀ c q, k.OnQueue c q p ↔ c = k.owner p ∧ (q : Int) = k.mlfq p

/-! ## The invariant -/

/-- READY and BLOCKED processes are linked, and everyone on a wait queue is, or
has exited. -/
structure HomeInv (k : Kernel) : Prop where
  ok : SchedOk k
  home : ∀ p < k.nproc, ¬ k.IsIdle p → k.state p = .ready ∨ k.state p = .blocked → k.Linked p
  waiter : ∀ e p, (k.entry e).proc = some p →
    p < k.nproc ∧ (k.IsIdle p ∨ k.Linked p ∨ k.Terminal p)

theorem HomeInv.readyQueued {k : Kernel} (h : HomeInv k) : ReadyQueued k := by
  intro p hp hready hidle c q
  obtain ⟨L, hL⟩ := h.ok
  obtain ⟨c0, q0, hm⟩ := hL.queued.linked_iff.1 (h.home p hp hidle (.inl hready))
  rw [hL.queued.onQueue_iff, (hL.linked hm).owner, hL.queued.mlfq hm]
  constructor
  · intro hp
    obtain ⟨rfl, rfl⟩ := hL.queued.queue_eq hp hm
    exact ⟨rfl, rfl⟩
  · rintro ⟨rfl, hq⟩
    cases hq
    exact hm

/-- What a step has to account for: the links of the processes it unlinks, and
the state words it writes. -/
theorem HomeInv.step {k k' : Kernel} (h : HomeInv k) (hok : SchedOk k')
    (hidle : k'.idle = k.idle) (hn : k.nproc ≤ k'.nproc)
    (hgrow : ∀ p, k.Linked p → k'.Linked p ∨ k'.Terminal p)
    (hstate : ∀ p < k'.nproc, (p < k.nproc ∧ k'.state p = k.state p) ∨ k.IsIdle p ∨
      k'.Linked p ∨ k'.Terminal p)
    (hentry : ∀ e p, (k'.entry e).proc = some p → (k.entry e).proc = some p ∨
      (p < k.nproc ∧ (k.IsIdle p ∨ k.Linked p))) : HomeInv k' := by
  have hidle' : ∀ {p}, k'.IsIdle p ↔ k.IsIdle p := by
    intro p
    rw [Kernel.IsIdle, hidle]
    rfl
  refine ⟨hok, fun p hp hi hs => ?_, fun e p he => ?_⟩
  · have hlive : ¬ k'.Terminal p := by
      unfold Kernel.Terminal
      obtain hs | hs := hs <;> rw [hs] <;> decide
    obtain ⟨hp', hsame⟩ | hp' | hp' | hp' := hstate p hp
    · rw [hsame] at hs
      exact (hgrow p (h.home p hp' (fun e => hi (hidle'.2 e)) hs)).resolve_right hlive
    · exact absurd (hidle'.2 hp') hi
    · exact hp'
    · exact absurd hp' hlive
  · have hold : p < k.nproc ∧ (k.IsIdle p ∨ k.Linked p ∨ k.Terminal p) := by
      obtain he | ⟨hp, hl⟩ := hentry e p he
      · exact h.waiter e p he
      · exact ⟨hp, hl.imp_right .inl⟩
    refine ⟨lt_of_lt_of_le hold.1 hn, ?_⟩
    obtain hp | hp | hp := hold.2
    · exact .inl (hidle'.2 hp)
    · exact .inr (hgrow p hp)
    · obtain ⟨-, hs⟩ | hs | hs := hstate p (lt_of_lt_of_le hold.1 hn)
      · refine .inr (.inr ?_)
        unfold Kernel.Terminal
        rw [hs]
        exact hp
      · exact .inl (hidle'.2 hs)
      · exact .inr hs

theorem Aside.schedOk {k k' : Kernel} (h : Aside k k') (hok : SchedOk k) : SchedOk k' :=
  hok.imp fun _ hL => hL.of_same h.next h.rqHead h.mlfq h.owner h.idle h.current h.nproc h.cpuCount

theorem Aside.linked {k k' : Kernel} {p : Ptr} (h : Aside k k') (hp : k.Linked p) : k'.Linked p :=
  linked_of_same h.rqHead h.next hp

/-! ## A new process -/

/-- `scheduler_add_process` of a process `p` that no queue holds links it, and
loses nobody. -/
theorem linked_schedulerAddProcess {k : Kernel} {L : Nat → Nat → List Ptr} {c : Nat} {p q : Ptr}
    (hL : SchedInv (k.assignTo p k.rrTarget) L) (hout : ∀ c q, p ∉ L c q)
    (hp : (k.assignTo p k.rrTarget).Owns k.rrTarget p) (hpid : (k.proc p).pid ≠ 0) :
    SchedOk (k.schedulerAddProcess c p) ∧ (k.schedulerAddProcess c p).Linked p ∧
      (k.Linked q → (k.schedulerAddProcess c p).Linked q) := by
  have hok : SchedOk ((k.assignTo p k.rrTarget).addToQueue k.rrTarget p 0) := hL.addToQueue hp hout
  have hlink := hL.queued.linked_addToQueue (p := q) hout hp.alloc k.rrTarget 0
  have hold : k.Linked q → (k.assignTo p k.rrTarget).Linked q :=
    linked_of_same (by rfl) next_assignTo
  dsimp only [schedulerAddProcess]
  rw [if_neg hpid]
  split
  · have hsame : Aside ((k.assignTo p k.rrTarget).addToQueue k.rrTarget p 0)
        (((k.assignTo p k.rrTarget).addToQueue k.rrTarget p 0).sendResched k.rrTarget) :=
      Leaves.sendResched.toAside
    exact ⟨hsame.schedOk hok, hsame.linked hlink.2, fun hq => hsame.linked (hlink.1 (hold hq))⟩
  · exact ⟨hok, hlink.2, fun hq => hlink.1 (hold hq)⟩

/-! ## Runs -/

/-- What a run has to keep to: `schedule` steals no running process; a child
gets a pid; a process that blocks or is stopped is linked; a process that is
woken has not exited; and only a process that has exited is removed. -/
def HomeSafe (k : Kernel) : StateEvent → Prop
  | .schedule c => c < k.cpuCount ∧ k.scheduleTakesRunning c = false
  | .fork _ _ _ => k.nextPid ≠ 0
  | .sendSignal _ pid signal => signal = sigStop → ∀ p, k.processTableHt pid = some p →
      k.IsIdle p ∨ k.Linked p
  | .signalStore _ target sig => sig = sigStop → k.IsIdle target ∨ k.Linked target
  | .waitPrepare c _ _ => ∀ p, k.current c = some p → k.IsIdle p ∨ k.Linked p
  | .wakeVisit c => ∀ e p, k.waking c = some e → (k.entry e).proc = some p → ¬ k.Terminal p
  | .removeProcess p => k.Terminal p
  | _ => True

namespace HomeInv

variable {k k' : Kernel} {c : Nat} {p : Ptr}

theorem home_of_blocked (h : HomeInv k) (hp : p < k.nproc) (hb : k.state p = .blocked) :
    k.IsIdle p ∨ k.Linked p := by
  by_cases hi : k.IsIdle p
  · exact .inl hi
  · exact .inr (h.home p hp hi (.inr hb))

/-- A signal ends its target, stops it, or continues it if it was BLOCKED. -/
theorem home_of_signal {sig : Nat} {q : Ptr} {s : ProcState} (h : HomeInv k)
    (hs : Stores k (.signalStore c p sig) q s) (hstop : sig = sigStop → k.IsIdle p ∨ k.Linked p) :
    s.isTerminal = true ∨ (q < k.nproc → k.IsIdle q ∨ k.Linked q) := by
  cases hs with
  | kill _ => exact .inl rfl
  | stop => exact .inr fun _ => hstop rfl
  | cont hb => exact .inr fun hq => h.home_of_blocked hq hb

/-- Whom a safe step stores to ends or is linked. -/
theorem home_of_stores {e : StateEvent} {q : Ptr} {s : ProcState} (h : HomeInv k)
    (hsafe : HomeSafe k e) (hs : Stores k e q s) :
    s.isTerminal = true ∨ (q < k.nproc → k.IsIdle q ∨ k.Linked q) := by
  cases hs with
  | kill hfatal => exact h.home_of_signal (.kill (c := 0) hfatal) hsafe
  | stop => exact .inr fun _ => hsafe rfl
  | cont hb => exact .inr fun hq => h.home_of_blocked hq hb
  | send hnonneg hht _ hs =>
    refine h.home_of_signal hs fun hsig => hsafe ?_ q hht
    omega
  | block hc => exact .inr fun _ => hsafe q hc
  | resume hb => exact .inr fun hq => h.home_of_blocked hq hb
  | wake ha hq =>
    exact .inr fun _ => (h.waiter _ q hq).2.imp_right fun hl => hl.resolve_right (hsafe _ q ha hq)
  | exit | reap => exact .inl rfl

/-- The events outside of the scheduler. -/
theorem outside {e : StateEvent} (h : HomeInv k) (ho : e.Outside) (hsafe : HomeSafe k e) :
    HomeInv (stateStep k e) := by
  obtain ⟨haside, hstate, hwaiter, -, -⟩ := effect_stateStep k ho
  refine h.step (haside.schedOk h.ok) haside.idle haside.nproc.ge
    (fun q hq => .inl (haside.linked hq)) (fun q hq => ?_) fun a q ha => ?_
  · rw [haside.nproc] at hq
    obtain hs | ⟨p, s, hst, hs⟩ := hstate
    · exact .inl ⟨hq, congrFun hs q⟩
    obtain rfl | hqp := eq_or_ne q p
    · obtain hterm | hhome := h.home_of_stores hsafe hst
      · refine .inr (.inr (.inr ?_))
        unfold Kernel.Terminal
        rw [hs, update_self]
        exact hterm
      · exact .inr ((hhome hq).imp_right fun hl => .inl (haside.linked hl))
    · exact .inl ⟨hq, by rw [hs, update_of_ne hqp]⟩
  · refine (hwaiter ha).imp_right ?_
    rintro ⟨c, wq, b, rfl, hc⟩
    refine ⟨?_, hsafe q hc⟩
    obtain ⟨L, hL⟩ := h.ok
    obtain hi | ho := hL.cur hc
    · exact hL.idleAlloc hi
    · exact ho.alloc

/-- A `schedule()` that takes no running process. -/
theorem schedule (h : HomeInv k) (hc : c < k.cpuCount)
    (hsafe : k.scheduleTakesRunning c = false) : HomeInv (k.schedule c) := by
  have hsame : SchedFrame k (k.schedule c) := .schedule
  refine h.step (h.ok.schedule hc hsafe) hsame.idle hsame.nproc.ge
    (fun p hp => .inl ((linked_schedule h.ok hsafe).1 hp)) (fun p hp => ?_)
    fun e p he => .inl (hsame.entry ▸ he)
  rw [hsame.nproc] at hp
  obtain hs | hs | ⟨-, hs, -⟩ | ⟨hready, hcur, hrun⟩ := (schedEffect_schedule k c).state p
  · exact .inl ⟨hp, hs⟩
  · exact .inr (.inl ⟨c, hs.2⟩)
  · exact .inr (.inr (.inl ((linked_schedule h.ok hsafe).1 hs)))
  · by_cases hidle : k.idle c = some p
    · exact .inr (.inl ⟨c, hidle⟩)
    · exact .inr (.inr (.inl ((linked_schedule h.ok hsafe).2 hcur hidle hrun hready)))

/-- The child is linked before anyone can see it READY. -/
theorem publishChild {x : Process} {slot : Nat} (h : HomeInv k) (hpid : x.pid ≠ 0) :
    HomeInv (k.publishChild c x slot) := by
  obtain ⟨L, hL⟩ := h.ok
  have hfresh : ∀ c q, k.nproc ∉ L c q := fun _ _ hp => lt_irrefl _ (hL.queued.alloc hp)
  have hpublish : k.publishChild c x slot = schedulerAddProcess
      ((((k.allocProc x).initChildrenWq k.nproc).setSlot slot (some k.nproc)).htInsert x.pid
        k.nproc) c k.nproc := rfl
  -- the state in which the child is handed to the scheduler
  generalize hk1 : (((k.allocProc x).initChildrenWq k.nproc).setSlot slot
    (some k.nproc)).htInsert x.pid k.nproc = k1 at hpublish
  obtain ⟨hproc, hcpu, hn, hcount, hentry⟩ : k1.proc = (k.allocProc x).proc ∧ k1.cpu = k.cpu ∧
      k1.nproc = k.nproc + 1 ∧ k1.cpuCount = k.cpuCount ∧ k1.entry = k.entry := by
    rw [← hk1]
    unfold htInsert
    split <;> exact ⟨rfl, rfl, rfl, rfl, rfl⟩
  have hold : ∀ p < k.nproc, k1.proc p = k.proc p := fun p hp => by
    rw [hproc]
    exact update_of_ne (Nat.ne_of_lt hp) _ _
  have hL1 : SchedInv (k1.assignTo k.nproc k1.rrTarget) L := by
    refine SchedOk.alloc hL (fun p hp => ?_) ?_ ?_ ?_ ?_ hcount
    · have hne := Nat.ne_of_lt hp
      rw [next_assignTo, mlfq_assignTo, owner_assignTo, update_of_ne hne]
      exact ⟨congrArg Process.next (hold p hp), congrArg Process.mlfqQueue (hold p hp),
        congrArg Process.ownerCpu (hold p hp)⟩
    · exact congrArg (fun cpu c => (cpu c).runQueues) hcpu
    · exact congrArg (fun cpu c => (cpu c).idleProc) hcpu
    · exact congrArg (fun cpu c => (cpu c).currentProc) hcpu
    · exact hn ▸ Nat.le_succ _
  have hidle : k1.idle = k.idle := congrArg (fun cpu c => (cpu c).idleProc) hcpu
  have hown : (k1.assignTo k.nproc k1.rrTarget).Owns k1.rrTarget k.nproc := by
    refine ⟨by simp, hn ▸ Nat.lt_succ_self _, ?_⟩
    rintro ⟨d, hd⟩
    replace hd : k1.idle d = some k.nproc := hd
    rw [hidle] at hd
    exact lt_irrefl _ (hL.idleAlloc hd)
  have hpid1 : (k1.proc k.nproc).pid ≠ 0 := by
    rw [hproc]
    show (update k.proc k.nproc x k.nproc).pid ≠ 0
    rwa [update_self]
  have hsame : SchedFrame k1 (k.publishChild c x slot) := hpublish ▸ .schedulerAddProcess
  have hlinked (q : Ptr) (hq : k.Linked q) : k1.Linked q := by
    -- a link of an old process is as before; the child's is overwritten later
    obtain ⟨c', q', hm⟩ := hL.queued.linked_iff.1 hq
    have hk : k.Linked q → (k1.assignTo k.nproc k1.rrTarget).Linked q :=
      fun _ => hL1.queued.linked_iff.2 ⟨c', q', hm⟩
    exact linked_of_same (by rfl) next_assignTo.symm (hk hq)
  have hadd (q : Ptr) := linked_schedulerAddProcess (c := c) (q := q) hL1 hfresh hown hpid1
  rw [← hpublish] at hadd
  refine h.step (hadd 0).1 (hsame.idle.trans hidle) ?_
    (fun q hq => .inl ((hadd q).2.2 (hlinked q hq)))
    (fun q hq => ?_) fun e q he => .inl ?_
  · rw [nproc_publishChild]
    exact Nat.le_succ _
  · rw [nproc_publishChild] at hq
    obtain hq | rfl := Nat.lt_succ_iff_lt_or_eq.1 hq
    · exact .inl ⟨hq, state_publishChild (Nat.ne_of_lt hq)⟩
    · exact .inr (.inr (.inl (hadd 0).2.1))
  · rwa [hsame.entry, hentry] at he

theorem fork {env : ForkEnv} (h : HomeInv k) (hpid : k.nextPid ≠ 0) :
    HomeInv (k.sysFork c p env).1 := by
  have hbump : HomeInv k.bumpNextPid :=
    h.step (h.ok.imp fun _ hL => hL.of_same rfl rfl rfl rfl rfl rfl rfl rfl) rfl le_rfl
      (fun q hq => .inl (linked_of_same (by rfl) (by rfl) hq)) (fun q hq => .inl ⟨hq, rfl⟩)
      fun _ _ he => .inl he
  obtain ⟨-, he | he⟩ | ⟨-, slot, -, he⟩ := k.sysFork_cases c p env
  · rw [he]
    exact h
  · rw [he]
    exact hbump
  · rw [he]
    exact hbump.publishChild hpid

theorem removeProcess (h : HomeInv k) (hp : k.Terminal p) :
    HomeInv (k.schedulerRemoveProcess p) := by
  have hsame : SchedFrame k (k.schedulerRemoveProcess p) := .removeFromQueue
  have hstate : (k.schedulerRemoveProcess p).state = k.state := state_removeFromQueue
  refine h.step h.ok.schedulerRemoveProcess hsame.idle hsame.nproc.ge (fun q hq => ?_)
    (fun q hq => .inl ⟨hsame.nproc ▸ hq, congrFun hstate q⟩) fun e q he => .inl (hsame.entry ▸ he)
  obtain rfl | hqp := eq_or_ne q p
  · right
    unfold Kernel.Terminal
    rw [hstate]
    exact hp
  · obtain ⟨L, hL⟩ := h.ok
    exact .inl (hL.queued.linked_removeFromQueue hqp hq)

end HomeInv

theorem homeInv_stateStep (k : Kernel) (e : StateEvent) (h : HomeInv k) (hsafe : HomeSafe k e) :
    HomeInv (stateStep k e) := by
  by_cases ho : e.Outside
  · exact h.outside ho hsafe
  cases e with
  | schedule c => exact h.schedule hsafe.1 hsafe.2
  | fork c p env => exact h.fork hsafe
  | removeProcess p => exact h.removeProcess hsafe
  | _ => exact absurd trivial ho

/-- After `start_init_process` nothing is READY but an idle process. -/
theorem homeInv_bootKernel {n : Nat} (hn : 0 < n) : HomeInv (bootKernel n) := by
  refine ⟨schedOk_bootKernel n, fun p hp hidle hs => ?_, fun e p he => ?_⟩
  · have hstate : (bootKernel n).state p = if p = 0 then .ready else .running := rfl
    obtain rfl | hp0 := eq_or_ne p 0
    · exact absurd ⟨0, if_pos hn⟩ hidle
    · rw [hstate, if_neg hp0] at hs
      obtain hs | hs := hs <;> cases hs
  · replace he : (none : Option Ptr) = some p := he
    cases he

/-- Init forks process 3 and is linked when its quantum runs out; the child waits
and is woken. -/
def childWaitRun : List StateEvent :=
  [.fork 0 1 {}, .schedule 0, .waitPrepare 0 (.other 0) 0, .schedule 0, .wakeDetach 0 (.other 0),
    .wakeVisit 0]

/-- `idle_proc` is written at boot only. -/
theorem idle_stateStep (k : Kernel) (e : StateEvent) : (stateStep k e).idle = k.idle := by
  by_cases ho : e.Outside
  · exact (effect_stateStep k ho).aside.idle
  cases e with
  | schedule c => exact SchedFrame.schedule.idle
  | fork c p env =>
    show (k.sysFork c p env).1.idle = k.idle
    obtain ⟨-, he | he⟩ | ⟨-, slot, -, he⟩ := k.sysFork_cases c p env
    · rw [he]
    · rw [he]
      rfl
    · rw [he]
      refine SchedFrame.schedulerAddProcess.idle.trans ?_
      unfold htInsert
      split <;> rfl
  | removeProcess p => exact SchedFrame.removeFromQueue.idle
  | _ => exact absurd trivial ho

theorem idle_run (k : Kernel) (es : List StateEvent) : (run stateStep k es).idle = k.idle := by
  have hstep : ∀ k' e, k'.idle = k.idle → (stateStep k' e).idle = k.idle :=
    fun k' e h => (idle_stateStep k' e).trans h
  exact run_always hstep rfl es

/-- Init forks process 3 and waits for it at once; the child exits and wakes
init, which no queue holds. -/
def initWaitRun : List StateEvent :=
  [.fork 0 1 {}, .waitPrepare 0 (.children 1) 0, .schedule 0, .exitCode 0 0,
    .wakeDetach 0 (.children 1), .wakeVisit 0]

end UnixOs
