import UnixOs.Core.ReadyQueues

/-!
# Reaping a child that has not left its CPU (process.c, sys_proc.c)

A child stores ZOMBIE while it still runs on its kernel stack. From then on
`process_find_child` finds it, and `process_terminate` frees the stack, the memory and the
slot. Here the steps of `sys_waitpid` run between those of the kernel machine: the search,
`waitpid_reap`, and each release on its own.

- `Unused`: what was released belongs to no process that is current;
- `Gone`: a process that no run queue and no CPU has any more, and `Gone.stateStep`: it
  does not come back;
- `unused_of_hasLeft`: nothing goes wrong if a child is found only when it is gone.
-/

namespace UnixOs

open Function Machine

/-- What `process_terminate` releases, in this order. -/
inductive ProcResource where
  | kernelStack
  | memory
  | slot
  deriving DecidableEq

/-- Where a parent is: in front of a search, with a child it has found, or in
`process_terminate` in front of a release. -/
inductive ReapPc where
  | out
  | found (i : Ptr)
  | terminate (i : Ptr) (r : ProcResource)

/-- The child the parent has in hand. -/
def ReapPc.target : ReapPc → Option Ptr
  | .out => none
  | .found i | .terminate i _ => some i

namespace Kernel

/-- The locked section of `process_terminate` (process.c:162). -/
def dropTables (k : Kernel) (p : Ptr) : Kernel :=
  let k := { k with processTableHt := update k.processTableHt (k.proc p).pid none }
  match k.slotOf p with
  | none => k
  | some i => k.setSlot i none

/-- `process_terminate` as a whole stores the state and leaves the tables. -/
theorem processTerminate_eq {k : Kernel} {p : Ptr} (h : (k.proc p).pid ≠ 0) :
    k.processTerminate p = (k.setState p .terminated).dropTables p := if_neg h

end Kernel

/-- The kernel, where each process is in `sys_waitpid`, and what was released. -/
structure Reap where
  k : Kernel
  parent : Ptr → ReapPc
  released : Ptr → ProcResource → Bool

inductive ReapEvent where
  /-- A step of the kernel machine. -/
  | kernel (e : StateEvent)
  /-- `process_find_child(cur->pid, pid, 1)` on CPU `c`, with its result. -/
  | find (c : Nat) (i : Ptr)
  /-- `waitpid_reap` (sys_proc.c:144); `copied` is false when `copy_to_user` fails. -/
  | reap (c : Nat) (copied : Bool)
  | release (c : Nat)

namespace Reap

def setParent (s : Reap) (p : Ptr) (pc : ReapPc) : Reap :=
  { s with parent := update s.parent p pc }

/-- `i` is a ZOMBIE in the table, and a child of `p`. -/
def IsZombieOf (s : Reap) (i p : Ptr) : Prop :=
  s.k.processTableHt (s.k.proc i).pid = some i ∧ i < s.k.nproc ∧
    (s.k.proc i).ppid = (s.k.proc p).pid ∧ s.k.state i = .zombie

instance (s : Reap) (i p : Ptr) : Decidable (s.IsZombieOf i p) :=
  inferInstanceAs (Decidable (_ ∧ _ ∧ _ ∧ _))

/-- One release of `process_terminate` by `p`, and what is next. -/
def releaseStep (s : Reap) (p i : Ptr) (r : ProcResource) : Reap :=
  let s := { s with released := update s.released i (update (s.released i) r true) }
  match r with
  | .kernelStack => s.setParent p (.terminate i .memory)
  | .memory => s.setParent p (.terminate i .slot)
  | .slot => { s.setParent p .out with k := s.k.dropTables i }

def step (s : Reap) : ReapEvent → Reap
  | .kernel (.reap _) => s -- taken apart below
  | .kernel e => { s with k := stateStep s.k e }
  | .find c i =>
    match s.k.current c with
    | none => s
    | some me =>
      match s.parent me with
      | .out => if s.IsZombieOf i me then s.setParent me (.found i) else s
      | .found _ | .terminate _ _ => s
  | .reap c copied =>
    match s.k.current c with
    | none => s
    | some me =>
      match s.parent me with
      | .found i =>
        if copied ∧ s.k.state i = .zombie ∧ (s.k.proc i).pid ≠ 0 then
          { s.setParent me (.terminate i .kernelStack) with k := s.k.setState i .terminated }
        else s.setParent me .out
      | .out | .terminate _ _ => s
  | .release c =>
    match s.k.current c with
    | none => s
    | some me =>
      match s.parent me with
      | .terminate i r => s.releaseStep me i r
      | .out | .found _ => s

/-- Nothing that was released belongs to a process that is current somewhere. -/
def Unused (s : Reap) : Prop := ∀ i r, s.released i r = true → ∀ d, s.k.current d ≠ some i

/-- After boot with `n` CPUs nothing was released. -/
def init (n : Nat) : Reap where
  k := bootKernel n
  parent := fun _ => .out
  released := fun _ _ => false

end Reap

/-! ## A process that is gone -/

/-- No CPU has the process, and the scheduler cannot get hold of it. -/
structure Gone (k : Kernel) (p : Ptr) : Prop where
  alloc : p < k.nproc
  unlinked : ¬ k.Linked p
  notIdle : ∀ d, k.idle d ≠ some p
  notCurrent : ∀ d, k.current d ≠ some p

namespace Gone

open Kernel

variable {k k' : Kernel} {c : Nat} {p : Ptr}

/-- A step keeps a process away if it links and dispatches nothing but what is linked, idle or
current already. -/
theorem of_closed {S : Ptr → Prop} (h : Gone k p) (hclosed : Closed k' S) (hS : ¬ S p)
    (hidle : k'.idle = k.idle) (hnproc : k.nproc ≤ k'.nproc)
    (hcurrent : ∀ d, k'.current d = some p → k.current d = some p ∨ k.Linked p ∨
      ∃ c, k.idle c = some p) : Gone k' p where
  alloc := lt_of_lt_of_le h.alloc hnproc
  unlinked hp := hS (hclosed.linked hp)
  notIdle d := hidle ▸ h.notIdle d
  notCurrent d hd := by
    obtain hc | hl | ⟨c, hi⟩ := hcurrent d hd
    · exact h.notCurrent d hc
    · exact h.unlinked hl
    · exact h.notIdle c hi

theorem of_aside (h : Gone k p) (ha : Aside k k') : Gone k' p :=
  h.of_closed ((closed_linked k).of_same ha.rqHead ha.next) h.unlinked ha.idle ha.nproc.ge
    fun _ hd => .inl (ha.current ▸ hd)

section Closed

variable {S : Ptr → Prop}

theorem closed_contextSwitch {old new : Ptr} (h : Closed k S) :
    Closed (k.contextSwitch c old new) S := by
  unfold contextSwitch casState
  split
  · exact h
  dsimp only
  split
  · exact h.of_same (by simp [setCurrent, setState]) (by simp [setCurrent, setState])
  · exact h.of_same (by simp [setCurrent, setState]) (by simp [setCurrent, setState])

/-- A closed set stays closed under a dispatch. -/
theorem closed_dispatch {next : Ptr} {q : Nat} (h : Closed k S) :
    Closed (k.dispatch c next q) S := by
  have hinstall : Closed (k.installNext c next q) S := by
    -- the stores in front of the rotation touch no queue
    have hstores : Closed ((((k.setCurrent c (some next)).modCpu c fun x =>
        { x with currentQueue := q }).setState next .running).modCpu c fun x =>
        { x with quantumLeft := queueQuantum q }) S :=
      h.of_same (by simp [setCurrent, setState]) (by simp [setCurrent, setState])
    dsimp only [installNext]
    split
    · exact hstores
    · next hh => exact hstores.setHead fun _ hp => hstores.next (hstores.head hh) hp
  dsimp only [dispatch]
  split
  · exact hinstall
  · exact closed_contextSwitch hinstall

theorem closed_refillQuantum (h : Closed k S) : Closed (k.refillQuantum c) S := by
  unfold refillQuantum
  split
  · exact h
  · exact h.of_same (by simp) (by simp)

theorem closed_switchToIdle (h : Closed k S) : Closed (k.switchToIdle c) S := by
  unfold switchToIdle
  split
  · split
    · exact closed_contextSwitch
        (h.of_same (by simp [setCurrent, setState]) (by simp [setCurrent, setState]))
    · exact h
  · exact h

end Closed

/-- `schedule` links nothing but the process it demotes. -/
theorem closed_schedule (k : Kernel) (c : Nat) :
    ∃ S, Closed (k.schedule c) S ∧
      ∀ p, S p → k.Linked p ∨ k.current c = some p ∧ k.state p = .running := by
  have hclosed := ((closed_linked k).pickNextOrIdle (c := c)).1
  have hstep := k.queueStep_pickNextOrIdle c
  unfold Kernel.schedule
  generalize k.pickNextOrIdle c = r at hclosed hstep
  obtain ⟨k1, pick⟩ := r
  dsimp only at hclosed hstep ⊢
  rw [← hstep.current, ← hstep.state]
  split
  · exact ⟨_, closed_switchToIdle hclosed, fun _ => .inl⟩
  split
  · obtain ⟨S, hS, hmem⟩ := closed_demoteQuantumExhausted (c := c) hclosed
    refine ⟨S, ?_, hmem⟩
    have hpick := (hS.pickNextOrIdle (c := c)).1
    unfold reschedule
    dsimp only
    generalize (k1.demoteQuantumExhausted c).pickNextOrIdle c = r at hpick
    obtain ⟨k2, ⟨proc, queue⟩⟩ := r
    cases proc with
    | none => exact closed_refillQuantum hpick
    | some next =>
      dsimp only
      split
      · exact closed_dispatch hpick
      · exact closed_refillQuantum hpick
  · exact ⟨_, hclosed, fun _ => .inl⟩

theorem schedule (h : Gone k p) : Gone (k.schedule c) p := by
  obtain ⟨S, hclosed, hS⟩ := closed_schedule k c
  refine h.of_closed hclosed (fun hp => ?_) SchedFrame.schedule.idle SchedFrame.schedule.nproc.ge
    fun d hd => ?_
  · exact (hS p hp).elim h.unlinked fun hc => h.notCurrent c hc.1
  · obtain hc | ⟨-, hi | hl⟩ := (schedEffect_schedule k c).current d p hd
    · exact .inl hc
    · exact .inr (.inr ⟨c, hi⟩)
    · exact .inr (.inl hl)

theorem removeProcess {q : Ptr} (h : Gone k p) : Gone (k.schedulerRemoveProcess q) p :=
  h.of_closed (closed_linked k).removeFromQueue h.unlinked idle_removeFromQueue
    nproc_removeFromQueue.ge fun _ hd => .inl (current_removeFromQueue ▸ hd)

/-- A child is a new process. -/
theorem publishChild {x : Process} {slot : Nat} (h : Gone k p) (hx : x.next = none) :
    Gone (k.publishChild c x slot) p := by
  -- the child in the tables, before the scheduler has it
  have hpublish : k.publishChild c x slot = schedulerAddProcess
      ((((k.allocProc x).initChildrenWq k.nproc).setSlot slot (some k.nproc)).htInsert x.pid
        k.nproc) c k.nproc := rfl
  generalize hk1 : (((k.allocProc x).initChildrenWq k.nproc).setSlot slot
    (some k.nproc)).htInsert x.pid k.nproc = k1 at hpublish
  obtain ⟨hproc, hcpu⟩ : k1.proc = update k.proc k.nproc x ∧ k1.cpu = k.cpu := by
    rw [← hk1]
    unfold htInsert
    split <;> exact ⟨rfl, rfl⟩
  have hclosed : Closed k1 fun y => k.Linked y ∨ y = k.nproc := by
    refine ⟨fun {c q y} hy => .inl (.head (c := c) (q := q) ?_), fun {y y'} hy hn => ?_⟩
    · rwa [rqHead, hcpu] at hy
    · rw [next, hproc] at hn
      by_cases hyn : y = k.nproc
      · rw [hyn, update_self, hx] at hn
        cases hn
      · rw [update_of_ne hyn] at hn
        exact .inl (.next (hy.resolve_right hyn) hn)
  have hadd : Closed (k1.schedulerAddProcess c k.nproc) fun y => k.Linked y ∨ y = k.nproc := by
    dsimp only [schedulerAddProcess]
    split
    · exact hclosed
    have hassign : Closed (k1.assignTo k.nproc k1.rrTarget) fun y => k.Linked y ∨ y = k.nproc :=
      hclosed.of_same rfl next_assignTo
    have hqueue : Closed ((k1.assignTo k.nproc k1.rrTarget).addToQueue k1.rrTarget k.nproc 0)
        fun y => k.Linked y ∨ y = k.nproc :=
      hassign.addToQueue.congr fun y => ⟨fun hy => hy.elim id .inr, .inl⟩
    split
    · exact hqueue.of_same Leaves.sendResched.rqHead Leaves.sendResched.next
    · exact hqueue
  have hcurrent : (k1.schedulerAddProcess c k.nproc).current = k1.current := by
    dsimp only [schedulerAddProcess]
    split
    · rfl
    split
    · exact Leaves.sendResched.current.trans current_addToQueue
    · exact current_addToQueue
  rw [hpublish]
  refine h.of_closed hadd (fun hp => hp.elim h.unlinked (Nat.ne_of_lt h.alloc)) ?_ ?_ fun d hd => ?_
  · exact SchedFrame.schedulerAddProcess.idle.trans
      (congrArg (fun cpu c => (cpu c).idleProc) hcpu)
  · rw [← hpublish, nproc_publishChild]
    exact Nat.le_succ _
  · rw [hcurrent, current, hcpu] at hd
    exact .inl hd

theorem fork {q : Ptr} {env : ForkEnv} (h : Gone k p) : Gone (k.sysFork c q env).1 p := by
  have hbump : Gone k.bumpNextPid p := h.of_closed (closed_linked k |>.of_same rfl rfl) h.unlinked
    rfl le_rfl fun _ hd => .inl hd
  rcases k.sysFork_cases c q env with ⟨-, he | he⟩ | ⟨-, slot, -, he⟩
  · rwa [he]
  · rwa [he]
  · rw [he]
    exact hbump.publishChild rfl

/-- **A process that is gone does not come back.** -/
theorem stateStep (h : Gone k p) (e : StateEvent) : Gone (stateStep k e) p := by
  by_cases ho : e.Outside
  · exact h.of_aside (effect_stateStep k ho).aside
  cases e with
  | schedule c => exact h.schedule
  | fork c q env => exact h.fork
  | removeProcess q => exact h.removeProcess
  | _ => exact absurd trivial ho

theorem dropTables {q : Ptr} (h : Gone k p) : Gone (k.dropTables q) p := by
  unfold Kernel.dropTables
  dsimp only
  split
  · exact h.of_closed (closed_linked k |>.of_same rfl rfl) h.unlinked rfl le_rfl fun _ => .inl
  · exact h.of_closed (closed_linked k |>.of_same rfl rfl) h.unlinked rfl le_rfl fun _ => .inl

end Gone

/-! ## The invariant -/

namespace Reap

variable {s : Reap} {me : Ptr}

/-- The search finds a child only after it is gone from the run queues and the CPUs. -/
def HasLeft (s : Reap) : ReapEvent → Prop
  | .find c i => ∀ me, s.k.current c = some me → s.IsZombieOf i me → Gone s.k i
  | _ => True

/-- What is in hand, and what was released, is gone. -/
structure Inv (s : Reap) : Prop where
  hand : ∀ {me i}, (s.parent me).target = some i → Gone s.k i
  released : ∀ {i r}, s.released i r = true → Gone s.k i

theorem Inv.setParent (h : s.Inv) {pc : ReapPc} (hpc : ∀ i, pc.target = some i → Gone s.k i) :
    (s.setParent me pc).Inv := by
  refine ⟨fun {p i} hi => ?_, h.released⟩
  replace hi : (update s.parent me pc p).target = some i := hi
  by_cases hp : p = me
  · rw [hp, update_self] at hi
    exact hpc i hi
  · rw [update_of_ne hp] at hi
    exact h.hand hi

theorem Inv.setKernel (h : s.Inv) {k : Kernel} (hk : ∀ p, Gone s.k p → Gone k p) :
    Inv { s with k } :=
  ⟨fun hi => hk _ (h.hand hi), fun hr => hk _ (h.released hr)⟩

/-- What is released is in hand, so it is gone. -/
theorem Inv.releaseStep (h : s.Inv) {i : Ptr} {r : ProcResource}
    (hp : s.parent me = .terminate i r) : (s.releaseStep me i r).Inv := by
  have hi : Gone s.k i := h.hand (by rw [hp]; rfl)
  have hs : Inv { s with released := update s.released i (update (s.released i) r true) } := by
    refine ⟨h.hand, fun {j r'} hr => ?_⟩
    replace hr : update s.released i (update (s.released i) r true) j r' = true := hr
    by_cases hj : j = i
    · exact hj ▸ hi
    · rw [update_of_ne hj] at hr
      exact h.released hr
  cases r with
  | kernelStack => exact hs.setParent fun j hj => Option.some.inj hj ▸ hi
  | memory => exact hs.setParent fun j hj => Option.some.inj hj ▸ hi
  | slot => exact (hs.setParent fun j hj => by cases hj).setKernel fun p hp => hp.dropTables

/-- What is gone stays gone, and a parent takes in hand only what has left. -/
theorem Inv.step (h : s.Inv) {e : ReapEvent} (he : s.HasLeft e) : (s.step e).Inv := by
  cases e with
  | kernel e =>
    cases e with
    | reap p => exact h
    | _ => exact h.setKernel fun p hp => hp.stateStep _
  | find c i =>
    unfold Reap.step
    dsimp only
    split
    · exact h
    next me hme =>
    split
    · split
      · next hz => exact h.setParent fun j hj => Option.some.inj hj ▸ he me hme hz
      · exact h
    · exact h
    · exact h
  | reap c copied =>
    unfold Reap.step
    dsimp only
    split
    · exact h
    next me hme =>
    split
    · next i hi =>
      have hgone : Gone s.k i := h.hand (by rw [hi]; rfl)
      split
      · have hmid : (s.setParent me (.terminate i .kernelStack)).Inv :=
          h.setParent fun j hj => Option.some.inj hj ▸ hgone
        exact hmid.setKernel fun p hp => hp.of_aside (.modProc fun _ => rfl)
      · exact h.setParent fun j hj => by cases hj
    · exact h
    · exact h
  | release c =>
    unfold Reap.step
    dsimp only
    split
    · exact h
    next me hme =>
    split
    · next hi => exact h.releaseStep hi
    · exact h
    · exact h

/-- **A process that is current keeps its stack, memory and slot**, on any number of CPUs and in
every interleaving in which a child is found only when it is gone. -/
theorem unused_of_hasLeft (n : Nat) (es : List ReapEvent)
    (hes : Along step HasLeft (init n) es) : (run step (init n) es).Unused := by
  have hinit : (init n).Inv := ⟨fun hi => (by cases hi), fun hr => (by cases hr)⟩
  have hinv : (run step (init n) es).Inv := run_invariant (fun _ _ h he => h.step he) hinit hes
  exact fun i r hr d => (hinv.released hr).notCurrent d

/-- `scheduler_remove_process` takes a process off the queues, as long as they are in order. -/
theorem unlinked_removeProcess {k : Kernel} {p : Ptr} (h : SchedOk k) :
    ¬ (k.schedulerRemoveProcess p).Linked p := by
  obtain ⟨L, hL⟩ := h
  intro hp
  by_cases hq : ∃ q, p ∈ L (k.owner p) q
  · obtain ⟨q, hq⟩ := hq
    obtain ⟨c', q', hmem⟩ := (Kernel.queued_removeFromQueue hL.queued hq).linked_iff.1 hp
    exact (hL.queued.mem_erase hq hmem).2 rfl
  · have hout : ∀ q, p ∉ L (k.owner p) q := fun q hmem => hq ⟨q, hmem⟩
    rw [Kernel.schedulerRemoveProcess, Kernel.removeFromQueue_of_notMem hL.queued hout] at hp
    obtain ⟨c', q', hmem⟩ := hL.queued.linked_iff.1 hp
    have hown : k.owner p = c' := (hL.linked hmem).1
    exact hout q' (hown ▸ hmem)

/-- Init forks processes 4 and 5. Process 5 runs on CPU 1 and exits. -/
def exitRun : List StateEvent :=
  [.fork 0 2 {}, .fork 0 2 {}, .schedule 1, .exitCode 1 0, .exitStore 1]

/-- Process 5 leaves its CPU, and then init reaps it. -/
def leftRun : List ReapEvent :=
  exitRun.map .kernel ++ [.kernel (.removeProcess 5), .kernel (.schedule 1), .find 0 5,
    .reap 0 true, .release 0, .release 0, .release 0]

/-- Process 5 is off its queue, and CPU 1 has gone on without it. -/
theorem gone_leftRun :
    Gone (run stateStep (bootKernel 2) (exitRun ++ [.removeProcess 5, .schedule 1])) 5 := by
  have hsafe : Along stateStep HomeSafe (bootKernel 2)
      (exitRun ++ [.removeProcess 5, .schedule 1]) := by
    refine ⟨?_, ?_, ⟨by decide, by decide⟩, trivial, trivial, ?_, ⟨by decide, by decide⟩, trivial⟩
    · show (bootKernel 2).nextPid ≠ 0
      decide
    · show (stateStep (bootKernel 2) (.fork 0 2 {})).nextPid ≠ 0
      decide
    · show (run stateStep (bootKernel 2) exitRun).Terminal 5
      decide
  have hexit : HomeInv (run stateStep (bootKernel 2) exitRun) :=
    run_invariant homeInv_stateStep (homeInv_bootKernel (by decide)) (along_append.1 hsafe).1
  obtain ⟨L, hL⟩ := (run_invariant homeInv_stateStep (homeInv_bootKernel (by decide)) hsafe).ok
  obtain ⟨S, hclosed, hS⟩ := Gone.closed_schedule
    ((run stateStep (bootKernel 2) exitRun).schedulerRemoveProcess 5) 1
  refine ⟨by decide, fun hp => ?_, fun d hd => ?_, fun d hd => ?_⟩
  · -- as a ZOMBIE it is not demoted, so `schedule` does not link it again
    obtain hl | ⟨-, hrun⟩ := hS 5 (hclosed.linked hp)
    · exact unlinked_removeProcess hexit.ok hl
    · exact absurd hrun (by decide)
  · rw [idle_run] at hd
    replace hd : (if d < 2 then some d else none) = some 5 := hd
    split at hd
    · cases hd
      omega
    · cases hd
  · have hlt : d < 2 := hL.online hd
    obtain rfl | rfl : d = 0 ∨ d = 1 := by omega
    · exact absurd hd (by decide)
    · exact absurd hd (by decide)

theorem unused_leftRun : (run step (init 2) leftRun).Unused ∧
    (run step (init 2) leftRun).released 5 .slot = true := by
  refine ⟨unused_of_hasLeft 2 leftRun ?_, by decide⟩
  exact ⟨trivial, trivial, trivial, trivial, trivial, trivial, trivial, fun _ _ _ => gone_leftRun,
    trivial, trivial, trivial, trivial, trivial⟩

/-- Init finds process 5 and frees its stack while it is current on CPU 1. -/
theorem stack_freed_while_current :
    ¬ (run step (init 2) (exitRun.map .kernel ++ [.find 0 5, .reap 0 true, .release 0])).Unused :=
  fun h => h 5 .kernelStack (by decide) 1 (by decide)

end Reap

end UnixOs
