import UnixOs.Core.Signal
import UnixOs.Lib.Run

/-!
# The steps of the process states

The state word of a process is written by the scheduler, by signals, by wait
queues, by exit and by the reaper. `StateEvent` has one event per atomic
section of these, so a run is any interleaving of them. What a step can write is
said here once, for every invariant.

- `Effect`, `effect_stateStep`: a step outside the scheduler stores to at most
  one state word (`Stores`) and leaves links, CPUs and pids as they are
  (`Aside`);
- `Linked` and `Closed`: the processes a scheduler can get hold of by following
  queue heads and links, whatever shape the queues are in;
- `SchedEffect`: every state word and every `current_proc` that `schedule` may
  change, and how.
-/

namespace UnixOs

open Function List Machine Kernel

open CircularList

/-- ZOMBIE or TERMINATED. -/
def ProcState.isTerminal : ProcState → Bool
  | .zombie | .terminated => true
  | _ => false

namespace Kernel

/-- `p` is ZOMBIE or TERMINATED. -/
def Terminal (k : Kernel) (p : Ptr) : Prop := (k.state p).isTerminal = true

instance (k : Kernel) (p : Ptr) : Decidable (k.Terminal p) :=
  inferInstanceAs (Decidable (_ = true))

/-- `p` can be reached from a run-queue head along `next`. -/
inductive Linked (k : Kernel) : Ptr → Prop
  | head {c q : Nat} {p : Ptr} : k.rqHead c q = some p → Linked k p
  | next {p p' : Ptr} : Linked k p → k.next p = some p' → Linked k p'

end Kernel

/-! ## The machine -/

/-- The atomic sections that write state words, and what they depend on. -/
inductive StateEvent where
  /-- `schedule()` on CPU `c`. -/
  | schedule (c : Nat)
  | timerTick (c : Nat)
  /-- `sys_fork` by `p` on CPU `c`. -/
  | fork (c : Nat) (p : Ptr) (env : ForkEnv)
  | setHandler (p : Ptr) (signal : Int) (handler : UInt32)
  /-- A whole `process_send_signal`. -/
  | sendSignal (c : Nat) (pid : UInt32) (signal : Int)
  /-- The rest of a `process_send_signal` whose lookup lies further back. -/
  | signalStore (c : Nat) (target : Ptr) (sig : Nat)
  | waitPrepare (c : Nat) (wq : WaitQueue) (e : Nat)
  | waitFinish (wq : WaitQueue) (e : Nat)
  | wakeDetach (c : Nat) (wq : WaitQueue)
  | wakeVisit (c : Nat)
  /-- The sections of `process_exit`; in between it wakes and signals. -/
  | exitCode (c : Nat) (code : Int)
  | exitStore (c : Nat)
  | removeProcess (p : Ptr)
  /-- `waitpid_reap` of `p`. -/
  | reap (p : Ptr)

def stateStep (k : Kernel) : StateEvent → Kernel
  | .schedule c => k.schedule c
  | .timerTick c => k.timerTick c
  | .fork c p env => (k.sysFork c p env).1
  | .setHandler p signal handler => k.processSetSignalHandler p signal handler
  | .sendSignal c pid signal => (k.processSendSignal c pid signal).1
  | .signalStore c target sig => k.signalStore c target sig
  | .waitPrepare c wq e => k.waitQueuePrepare c wq e
  | .waitFinish wq e => k.waitQueueFinish wq e
  | .wakeDetach c wq => k.wakeDetach c wq
  | .wakeVisit c => k.wakeVisit c
  | .exitCode c code =>
    match k.current c with
    | none => k
    | some me => k.setExitCode me code
  | .exitStore c => k.exitStore c
  | .removeProcess p => k.schedulerRemoveProcess p
  | .reap p => k.waitpidReap p

/-- The store of the exit code, by a CPU that runs a process. -/
theorem stateStep_exitCode (k : Kernel) (c : Nat) (code : Int) :
    stateStep k (.exitCode c code) = k ∨
      ∃ me, k.current c = some me ∧ stateStep k (.exitCode c code) = k.setExitCode me code := by
  simp only [stateStep]
  cases k.current c with
  | none => exact .inl rfl
  | some me => exact .inr ⟨me, rfl, rfl⟩
/-! ## The steps outside the scheduler -/

/-- What the run queues and the process tree depend on. -/
def Process.place (x : Process) : Option Ptr × Int × Nat × UInt32 × UInt32 :=
  (x.next, x.mlfqQueue, x.ownerCpu, x.pid, x.ppid)

/-- What the scheduler depends on. -/
def Cpu.place (x : Cpu) : (Nat → Option Ptr) × Option Ptr × Option Ptr :=
  (x.runQueues, x.idleProc, x.currentProc)

/-- Links, CPUs and pids are as before. -/
structure Aside (k k' : Kernel) : Prop where
  place : ∀ p, (k'.proc p).place = (k.proc p).place
  cpu : ∀ c, (k'.cpu c).place = (k.cpu c).place
  nproc : k'.nproc = k.nproc
  cpuCount : k'.cpuCount = k.cpuCount
  nextPid : k'.nextPid = k.nextPid

namespace Aside

variable {k k' k'' : Kernel} {p : Ptr}

theorem refl (k : Kernel) : Aside k k := ⟨fun _ => rfl, fun _ => rfl, rfl, rfl, rfl⟩

section

variable (h : Aside k k')
include h

theorem trans (h' : Aside k' k'') : Aside k k'' :=
  ⟨fun p => (h'.place p).trans (h.place p), fun c => (h'.cpu c).trans (h.cpu c),
    h'.nproc.trans h.nproc, h'.cpuCount.trans h.cpuCount, h'.nextPid.trans h.nextPid⟩

theorem next : k'.next = k.next :=
  funext fun p => congrArg Prod.fst (h.place p)

theorem mlfq : k'.mlfq = k.mlfq :=
  funext fun p => congrArg (·.2.1) (h.place p)

theorem owner : k'.owner = k.owner :=
  funext fun p => congrArg (·.2.2.1) (h.place p)

theorem pid (p : Ptr) : (k'.proc p).pid = (k.proc p).pid :=
  congrArg (·.2.2.2.1) (h.place p)

theorem ppid (p : Ptr) : (k'.proc p).ppid = (k.proc p).ppid :=
  congrArg (·.2.2.2.2) (h.place p)

theorem rqHead : k'.rqHead = k.rqHead :=
  funext fun c => congrArg Prod.fst (h.cpu c)

theorem idle : k'.idle = k.idle :=
  funext fun c => congrArg (·.2.1) (h.cpu c)

theorem current : k'.current = k.current :=
  funext fun c => congrArg (·.2.2) (h.cpu c)

end

end Aside

/-- Of what is followed here, nothing but state words is written; an entry of a
wait queue may lose its process. -/
structure Leaves (k k' : Kernel) : Prop extends Aside k k' where
  code : ∀ p, (k'.proc p).exitCode = (k.proc p).exitCode
  waiter : ∀ {a q}, (k'.entry a).proc = some q → (k.entry a).proc = some q
  processTable : k'.processTable = k.processTable
  processTableHt : k'.processTableHt = k.processTableHt

open Leaves

section Leaves

variable {k k' k'' : Kernel} {c : Nat} {p : Ptr}

/-- Whatever the step leaves to the process and to the CPU. -/
theorem Aside.modProc {f : Process → Process} (hf : ∀ x, (f x).place = x.place) :
    Aside k (k.modProc p f) :=
  ⟨proc_modProc_congr hf, fun _ => rfl, rfl, rfl, rfl⟩

namespace Leaves

theorem refl (k : Kernel) : Leaves k k := ⟨.refl k, fun _ => rfl, id, rfl, rfl⟩

theorem trans (h : Leaves k k') (h' : Leaves k' k'') : Leaves k k'' :=
  ⟨h.toAside.trans h'.toAside, fun p => (h'.code p).trans (h.code p),
    fun hq => h.waiter (h'.waiter hq),
    h'.processTable.trans h.processTable, h'.processTableHt.trans h.processTableHt⟩

theorem modProc {f : Process → Process} (hf : ∀ x, (f x).place = x.place)
    (hcode : ∀ x, (f x).exitCode = x.exitCode) : Leaves k (k.modProc p f) :=
  ⟨.modProc hf, proc_modProc_congr hcode, id, rfl, rfl⟩

theorem setState {s : ProcState} : Leaves k (k.setState p s) :=
  modProc (by intro; rfl) (by intro; rfl)

theorem modCpu {g : Cpu → Cpu} (hg : ∀ x, (g x).place = x.place) : Leaves k (k.modCpu c g) := by
  refine ⟨⟨fun _ => rfl, fun d => ?_, rfl, rfl, rfl⟩, fun _ => rfl, id, rfl, rfl⟩
  show (update k.cpu c (g (k.cpu c)) d).place = _
  obtain rfl | hd := eq_or_ne d c
  · rw [update_self, hg]
  · rw [update_of_ne hd]

theorem sendResched {t : Nat} : Leaves k (k.sendResched t) := by
  unfold Kernel.sendResched
  split
  · exact .refl k
  · exact modCpu (by intro; rfl)

theorem modEntry {e : Nat} {f : WaitEntry → WaitEntry}
    (hf : ∀ x q, (f x).proc = some q → x.proc = some q) : Leaves k (k.modEntry e f) := by
  refine ⟨⟨fun _ => rfl, fun _ => rfl, rfl, rfl, rfl⟩, fun _ => rfl, fun {a q} ha => ?_, rfl, rfl⟩
  replace ha : (update k.entry e (f (k.entry e)) a).proc = some q := ha
  obtain rfl | hae := eq_or_ne a e
  · rw [update_self] at ha
    exact hf _ q ha
  · rwa [update_of_ne hae] at ha

theorem setWqHead {wq : WaitQueue} {v : Option Nat} : Leaves k (k.setWqHead wq v) :=
  ⟨⟨fun _ => rfl, fun _ => rfl, rfl, rfl, rfl⟩, fun _ => rfl, id, rfl, rfl⟩

theorem setWaking {v : Option Nat} : Leaves k (k.setWaking c v) :=
  ⟨⟨fun _ => rfl, fun _ => rfl, rfl, rfl, rfl⟩, fun _ => rfl, id, rfl, rfl⟩

theorem unlinkEntry {wq : WaitQueue} {e : Nat} : Leaves k (k.unlinkEntry wq e) := by
  unfold Kernel.unlinkEntry
  split
  · exact .refl k
  split
  · exact setWqHead.trans (modEntry fun _ _ => id)
  split
  · exact .refl k
  · refine (modEntry ?_).trans (modEntry ?_)
    · exact fun _ _ => id
    · exact fun _ _ => id

theorem wakeProcess : Leaves k (k.wakeProcess c p) := by
  dsimp only [Kernel.wakeProcess]
  split
  · exact setState.trans sendResched
  · exact setState

end Leaves

theorem state_setState {s : ProcState} : (k.setState p s).state = update k.state p s := by
  simp [Kernel.setState]

theorem state_setExitCode {v : Int} : (k.setExitCode p v).state = k.state := by
  simp [setExitCode]

theorem state_setPending {sig : Nat} : (k.setPending p sig).state = k.state := by
  simp [setPending]

theorem state_unlinkEntry {wq : WaitQueue} {e : Nat} : (k.unlinkEntry wq e).state = k.state := by
  unfold Kernel.unlinkEntry
  split
  · rfl
  split
  · rfl
  split <;> rfl

theorem state_wakeProcess (k : Kernel) (c : Nat) (p : Ptr) :
    (k.wakeProcess c p).state = update k.state p .ready := by
  dsimp only [Kernel.wakeProcess]
  split
  · rw [state_sendResched, state_setState]
  · exact state_setState

end Leaves

/-- The event stores `s` to the state word of `p`. -/
inductive Stores (k : Kernel) : StateEvent → Ptr → ProcState → Prop
  | kill {c p sig} : k.signalFatal p sig = true → Stores k (.signalStore c p sig) p .terminated
  | stop {c p} : Stores k (.signalStore c p sigStop) p .blocked
  | cont {c p sig} : k.state p = .blocked → Stores k (.signalStore c p sig) p .ready
  | send {c pid signal p s} : 0 ≤ signal → k.processTableHt pid = some p →
      k.state p ≠ .terminated → Stores k (.signalStore c p signal.toNat) p s →
      Stores k (.sendSignal c pid signal) p s
  | block {c wq e p} : k.current c = some p → Stores k (.waitPrepare c wq e) p .blocked
  | resume {wq e p} : k.state p = .blocked → Stores k (.waitFinish wq e) p .running
  | wake {c e p} : k.waking c = some e → (k.entry e).proc = some p →
      Stores k (.wakeVisit c) p .ready
  | exit {c p} : k.current c = some p → (k.proc p).pid ≠ 0 → Stores k (.exitStore c) p .zombie
  | reap {p} : k.state p = .zombie → Stores k (.reap p) p .terminated

/-- What a step outside the scheduler does. -/
structure Effect (k : Kernel) (e : StateEvent) (k' : Kernel) : Prop where
  aside : Aside k k'
  state : k'.state = k.state ∨
    ∃ p s, Stores k e p s ∧ k'.state = update k.state p s
  waiter : ∀ {a q}, (k'.entry a).proc = some q → (k.entry a).proc = some q ∨
    ∃ c wq b, e = .waitPrepare c wq b ∧ k.current c = some q
  code : ∀ p, (k'.proc p).exitCode = (k.proc p).exitCode ∨
    (∃ c v, e = .exitCode c v ∧ k.current c = some p) ∨
    Stores k e p .terminated ∧ ∀ q, e ≠ .reap q
  table : (∀ p, e ≠ .reap p) →
    k'.processTable = k.processTable ∧ k'.processTableHt = k.processTableHt

section Effect

variable {k k' k'' : Kernel} {c : Nat} {p : Ptr} {e : StateEvent}

theorem Leaves.effect (h : Leaves k k') (hs : k'.state = k.state ∨
    ∃ p s, Stores k e p s ∧ k'.state = update k.state p s) : Effect k e k' :=
  ⟨h.toAside, hs, fun hq => .inl (h.waiter hq), fun p => .inl (h.code p),
    fun _ => ⟨h.processTable, h.processTableHt⟩⟩

theorem Effect.leaves (h : Effect k e k') (hl : Leaves k' k'') (hs : k''.state = k'.state) :
    Effect k e k'' := by
  refine ⟨h.aside.trans hl.toAside, ?_, fun hq => h.waiter (hl.waiter hq), fun p => ?_,
    fun he => ?_⟩
  · rw [hs]
    exact h.state
  · rw [hl.code p]
    exact h.code p
  · rw [hl.processTable, hl.processTableHt]
    exact h.table he

/-- The ways `signalAction` goes. -/
theorem signalAction_cases (k : Kernel) (p : Ptr) (sig : Nat) :
    k.signalAction p sig = k ∨ k.signalAction p sig = k.setPending p sig ∨
      (sig = sigStop ∧ k.signalAction p sig = k.setState p .blocked) ∨
      (k.state p = .blocked ∧ k.signalAction p sig = k.setState p .ready) ∨
      (k.signalFatal p sig = true ∧
        ∃ v, k.signalAction p sig = (k.setState p .terminated).setExitCode p v) := by
  unfold signalAction processDeliverSignal casState signalFatal
  split
  · next hkill => exact .inr (.inr (.inr (.inr ⟨by simp [hkill], _, rfl⟩)))
  split
  · next hstop => exact .inr (.inr (.inl ⟨hstop, rfl⟩))
  split
  · split
    · next hblocked => exact .inr (.inr (.inr (.inl ⟨hblocked, rfl⟩)))
    · exact .inl rfl
  split
  · exact .inr (.inl rfl)
  dsimp only
  split
  · exact .inl rfl
  split
  · split
    · exact .inr (.inr (.inr (.inr ⟨by simp_all, _, rfl⟩)))
    · exact .inl rfl
  · exact .inr (.inl rfl)

theorem Stores.target {sig : Nat} {q : Ptr} {s : ProcState}
    (h : Stores k (.signalStore c p sig) q s) : q = p := by
  cases h <;> rfl

theorem effect_signalStore {sig : Nat} :
    Effect k (.signalStore c p sig) (k.signalStore c p sig) := by
  have haction : Effect k (.signalStore c p sig) (k.signalAction p sig) := by
    obtain he | he | ⟨rfl, he⟩ | ⟨hs, he⟩ | ⟨hfatal, v, he⟩ := signalAction_cases k p sig <;>
      rw [he]
    · exact (refl k).effect (.inl rfl)
    · exact (modProc (by intro; rfl) (by intro; rfl)).effect (.inl state_setPending)
    · exact setState.effect (.inr ⟨p, _, .stop, state_setState⟩)
    · exact setState.effect (.inr ⟨p, _, .cont hs, state_setState⟩)
    · -- the exit code is that of the target only
      refine ⟨setState.toAside.trans (.modProc (by intro; rfl)),
        .inr ⟨p, _, .kill hfatal, by rw [state_setExitCode, state_setState]⟩, .inl,
        fun q => ?_, fun _ => ⟨rfl, rfl⟩⟩
      obtain rfl | hq := eq_or_ne q p
      · exact .inr (.inr ⟨.kill hfatal, fun _ => nofun⟩)
      · exact .inl (by simp [setExitCode, Kernel.setState, Kernel.modProc, hq])
  dsimp only [signalStore]
  split
  · exact haction.leaves .sendResched state_sendResched
  · exact haction

/-- `process_find_by_pid` passes over TERMINATED processes. -/
theorem processFindByPid_eq {pid : UInt32} (h : k.processFindByPid pid = some p) :
    k.processTableHt pid = some p ∧ k.state p ≠ .terminated := by
  unfold processFindByPid at h
  split at h
  · cases h
  next q hq =>
  split at h
  · cases h
  next hterm =>
  cases h
  exact ⟨hq, hterm⟩

/-- Either nothing happens or the signal is stored. -/
theorem effect_sendSignal {pid : UInt32} {signal : Int} :
    Effect k (.sendSignal c pid signal) (k.processSendSignal c pid signal).1 := by
  have hnone : Effect k (.sendSignal c pid signal) k := (refl k).effect (.inl rfl)
  unfold processSendSignal
  split
  · exact hnone
  next hrange =>
  split
  · exact hnone
  next target hfind =>
  split
  swap
  · exact hnone
  obtain ⟨hht, hterm⟩ := processFindByPid_eq hfind
  obtain ⟨haside, hstate, hwaiter, hcode, htable⟩ :=
    (effect_signalStore : Effect k (.signalStore c target signal.toNat) _)
  have hsend {q s} (hq : Stores k (.signalStore c target signal.toNat) q s) :
      Stores k (.sendSignal c pid signal) q s := by
    obtain rfl := hq.target
    exact .send (by omega) hht hterm hq
  refine ⟨haside, hstate.imp_right fun ⟨q, s, hq, hs⟩ => ⟨q, s, hsend hq, hs⟩, fun hq => .inl ?_,
    fun q => ?_, fun _ => htable fun _ => nofun⟩
  · obtain hq | ⟨_, _, _, he, -⟩ := hwaiter hq
    · exact hq
    · cases he
  · obtain hq | ⟨_, _, he, -⟩ | ⟨hq, -⟩ := hcode q
    · exact .inl hq
    · cases he
    · exact .inr (.inr ⟨hsend hq, fun _ => nofun⟩)

/-- The waiter becomes BLOCKED. -/
theorem effect_waitPrepare {wq : WaitQueue} {b : Nat} :
    Effect k (.waitPrepare c wq b) (k.waitQueuePrepare c wq b) := by
  unfold waitQueuePrepare
  split
  · exact (refl k).effect (.inl rfl)
  next p hp =>
  have hpush : Effect k (.waitPrepare c wq b)
      (if (k.entry b).proc ≠ some p then k.pushEntry wq b p else k) := by
    split
    · refine ⟨⟨fun _ => rfl, fun _ => rfl, rfl, rfl, rfl⟩, .inl rfl, fun {a q} ha => ?_,
        fun _ => .inl rfl, fun _ => ⟨rfl, rfl⟩⟩
      replace ha : (update k.entry b { proc := some p, next := k.wqHead wq } a).proc = some q := ha
      obtain rfl | hab := eq_or_ne a b
      · rw [update_self] at ha
        exact .inr ⟨c, wq, a, rfl, hp.trans ha⟩
      · rw [update_of_ne hab] at ha
        exact .inl ha
    · exact (refl k).effect (.inl rfl)
  have hstate : (if (k.entry b).proc ≠ some p then k.pushEntry wq b p else k).state = k.state := by
    split <;> rfl
  generalize (if (k.entry b).proc ≠ some p then k.pushEntry wq b p else k) = k1 at hpush hstate ⊢
  obtain ⟨haside, -, hwaiter, hcode, htable⟩ := hpush
  have hset : Leaves k1 (k1.setState p .blocked) := .setState
  refine ⟨haside.trans hset.toAside, .inr ⟨p, .blocked, .block hp, ?_⟩,
    fun hq => hwaiter (hset.waiter hq), fun q => ?_, fun he => ?_⟩
  · rw [state_setState, hstate]
  · rw [hset.code q]
    exact hcode q
  · exact htable he

theorem effect_waitFinish {wq : WaitQueue} {b : Nat} :
    Effect k (.waitFinish wq b) (k.waitQueueFinish wq b) := by
  have hunlink : Leaves k (k.unlinkEntry wq b) := .unlinkEntry
  have hstate : (k.unlinkEntry wq b).state = k.state := state_unlinkEntry
  dsimp only [waitQueueFinish]
  generalize k.unlinkEntry wq b = k1 at hunlink hstate
  split
  · exact hunlink.effect (.inl hstate)
  next q _ =>
  have hcas : Effect k (.waitFinish wq b) (k1.casState q .blocked .running) := by
    unfold casState
    split
    · next hblocked =>
      refine (hunlink.trans .setState).effect (.inr ⟨q, .running, .resume (hstate ▸ hblocked), ?_⟩)
      rw [state_setState, hstate]
    · exact hunlink.effect (.inl hstate)
  exact hcas.leaves (.modEntry fun _ _ => nofun) rfl

/-- A visit makes at most one process READY. -/
theorem effect_wakeVisit : Effect k (.wakeVisit c) (k.wakeVisit c) := by
  unfold wakeVisit
  split
  · exact (refl k).effect (.inl rfl)
  next a ha =>
  have hnext : Leaves k (k.modEntry a fun x => { x with next := none }) := .modEntry fun _ _ => id
  have hproc : ((k.modEntry a fun x => { x with next := none }).entry a).proc
      = (k.entry a).proc := by
    simp [Kernel.modEntry]
  dsimp only
  rw [hproc]
  cases hq : (k.entry a).proc with
  | none => exact (hnext.trans .setWaking).effect (.inl rfl)
  | some q =>
    exact (hnext.trans (wakeProcess.trans .setWaking)).effect
      (.inr ⟨q, .ready, .wake ha hq, state_wakeProcess _ c q⟩)

theorem effect_exitStore : Effect k (.exitStore c) (k.exitStore c) := by
  unfold exitStore
  split
  · exact (refl k).effect (.inl rfl)
  next me hme =>
  split
  · exact (refl k).effect (.inl rfl)
  next hpid =>
  exact setState.effect (.inr ⟨me, .zombie, .exit hme hpid, state_setState⟩)

/-- The process is TERMINATED and out of the tables. -/
theorem effect_reap : Effect k (.reap p) (k.waitpidReap p) := by
  have hnone : Effect k (.reap p) k := (refl k).effect (.inl rfl)
  unfold waitpidReap processTerminate
  split
  swap
  · exact hnone
  next hz =>
  split
  · exact hnone
  have hset : Leaves k (k.setState p .terminated) := .setState
  have hdrop {k' : Kernel} (hproc : k'.proc = (k.setState p .terminated).proc)
      (hcpu : k'.cpu = k.cpu) (hn : k'.nproc = k.nproc) (hc : k'.cpuCount = k.cpuCount)
      (hnext : k'.nextPid = k.nextPid) (hentry : k'.entry = k.entry) : Effect k (.reap p) k' := by
    refine ⟨⟨fun q => ?_, fun _ => by rw [hcpu], hn, hc, hnext⟩,
      .inr ⟨p, .terminated, .reap hz, ?_⟩, fun hq => .inl (hentry ▸ hq), fun q => .inl ?_,
      fun he => absurd rfl (he p)⟩
    · rw [hproc]
      exact hset.place q
    · rw [← state_setState]
      exact funext fun q => congrArg Process.state (congrFun hproc q)
    · rw [hproc]
      exact hset.code q
  dsimp only
  split <;> exact hdrop rfl rfl rfl rfl rfl rfl

/-- The steps that are not the scheduler's, nor bring processes to it or take
them away. -/
def StateEvent.Outside : StateEvent → Prop
  | .schedule _ | .fork _ _ _ | .removeProcess _ => False
  | _ => True

/-- The effects of the events, one case for each. -/
theorem effect_stateStep (k : Kernel) {e : StateEvent} (he : e.Outside) :
    Effect k e (stateStep k e) := by
  cases e with
  | schedule | fork | removeProcess => exact he.elim
  | timerTick c =>
    have htick : Leaves k (k.timerTick c) := .modCpu fun _ => rfl
    exact htick.effect (.inl rfl)
  | setHandler p signal handler =>
    show Effect k _ (k.processSetSignalHandler p signal handler)
    unfold processSetSignalHandler
    split
    · exact (refl k).effect (.inl rfl)
    split
    · exact (refl k).effect (.inl rfl)
    · exact (modProc (by intro; rfl) (by intro; rfl)).effect (.inl (by simp))
  | sendSignal c pid signal => exact effect_sendSignal
  | signalStore c target sig => exact effect_signalStore
  | waitPrepare c wq b => exact effect_waitPrepare
  | waitFinish wq b => exact effect_waitFinish
  | wakeDetach c wq => exact (setWaking.trans .setWqHead).effect (.inl rfl)
  | wakeVisit c => exact effect_wakeVisit
  | exitCode c v =>
    obtain he | ⟨me, hme, he⟩ := stateStep_exitCode k c v
    · rw [he]
      exact (refl k).effect (.inl rfl)
    · rw [he]
      refine ⟨.modProc (by intro; rfl), .inl state_setExitCode, .inl, fun q => ?_,
        fun _ => ⟨rfl, rfl⟩⟩
      by_cases hq : q = me
      · exact .inr (.inl ⟨c, v, rfl, hq ▸ hme⟩)
      · exact .inl (by simp [setExitCode, Kernel.modProc, hq])
  | exitStore c => exact effect_exitStore
  | reap p => exact effect_reap

end Effect

/-! ## What the scheduler can get hold of -/

/-- `S` holds the head of every queue and, with a process, its successor. -/
structure Closed (k : Kernel) (S : Ptr → Prop) : Prop where
  head : ∀ {c q p}, k.rqHead c q = some p → S p
  next : ∀ {p p'}, S p → k.next p = some p' → S p'

theorem closed_linked (k : Kernel) : Closed k k.Linked :=
  ⟨.head, .next⟩

namespace Closed

variable {k k' : Kernel} {S : Ptr → Prop} {c q : Nat} {p x : Ptr}

section

variable (h : Closed k S)
include h

/-- `Linked` is the least closed set. -/
theorem linked (hp : k.Linked p) : S p := by
  induction hp with
  | head hh => exact h.head hh
  | next _ hn ih => exact h.next ih hn

theorem of_same (hhead : k'.rqHead = k.rqHead) (hnext : k'.next = k.next) : Closed k' S :=
  ⟨fun hp => h.head (hhead ▸ hp), fun hp hn => h.next hp (hnext ▸ hn)⟩

theorem setHead {v : Option Ptr} (hv : ∀ p, v = some p → S p) : Closed (k.setHead c q v) S := by
  refine ⟨fun {c' q' p} hp => ?_, h.next⟩
  by_cases hcq : c' = c ∧ q' = q
  · obtain ⟨rfl, rfl⟩ := hcq
    rw [rqHead_setHead_self] at hp
    exact hv p hp
  · rw [rqHead_setHead_of_ne hcq] at hp
    exact h.head hp

theorem setNext {v : Option Ptr} (hv : S x → ∀ p, v = some p → S p) : Closed (k.setNext x v) S := by
  refine ⟨h.head, fun {p p'} hp hn => ?_⟩
  rw [next_setNext] at hn
  obtain rfl | hpx := eq_or_ne p x
  · rw [update_self] at hn
    exact hv hp p' hn
  · rw [update_of_ne hpx] at hn
    exact h.next hp hn

/-- Taking a process off its queue links its neighbours with each other. -/
theorem removeFromQueue : Closed (k.removeFromQueue c p) S := by
  dsimp only [Kernel.removeFromQueue]
  split
  · exact h
  split
  · exact h
  rename_i a ha
  split
  · refine setNext (setHead h ?_) ?_
    · exact fun _ e => nomatch e
    · exact fun _ _ e => nomatch e
  split
  · exact h
  rename_i b hb
  have hpb : S b → S p := fun hSb => h.next hSb (findPrev_next (Option.join_eq_some_iff.1 hb))
  have h1 : Closed (k.setNext b (k.next p)) S := h.setNext fun hSb p' hp' => h.next (hpb hSb) hp'
  refine setNext ?_ fun _ _ e => nomatch e
  split
  · rename_i hap
    exact h1.setHead fun p' hp' => h1.next (hap ▸ h.head ha) hp'
  · exact h1

end

theorem congr {S' : Ptr → Prop} (h : Closed k S) (hS : ∀ p, S p ↔ S' p) : Closed k S' :=
  ⟨fun hp => (hS _).mp (h.head hp), fun hp hn => (hS _).mp (h.next ((hS _).mpr hp) hn)⟩

/-- Queueing a process makes it, and nothing else, reachable. Its old link does
not matter: it is overwritten. -/
theorem addToQueue {queue : Int} (h : Closed k S) :
    Closed (k.addToQueue c p queue) fun x => S x ∨ x = p := by
  have hnext : ∀ q : Int, (k.modProc p fun x => { x with mlfqQueue := q }).next
      = k.next := fun q => by simp
  dsimp only [Kernel.addToQueue]
  split
  · refine ⟨fun {c' q' y} hy => ?_, fun {y y'} hy hn => ?_⟩
    · by_cases hcq : c' = c ∧ q' = clampQueue queue
      · obtain ⟨rfl, rfl⟩ := hcq
        rw [rqHead_setNext, rqHead_setHead_self] at hy
        exact .inr (Option.some.inj hy).symm
      · rw [rqHead_setNext, rqHead_setHead_of_ne hcq] at hy
        exact .inl (h.head hy)
    · rw [next_setNext, next_setHead, hnext] at hn
      obtain rfl | hyp := eq_or_ne y p
      · rw [update_self] at hn
        exact .inr (Option.some.inj hn).symm
      · rw [update_of_ne hyp] at hn
        exact .inl (h.next (hy.resolve_right hyp) hn)
  · rename_i a ha
    refine ⟨fun hy => .inl (h.head hy), fun {y y'} hy hn => ?_⟩
    rw [next_setNext, next_setNext, hnext] at hn
    obtain rfl | hya := eq_or_ne y a
    · rw [update_self] at hn
      exact .inr (Option.some.inj hn).symm
    · rw [update_of_ne hya] at hn
      obtain rfl | hyp := eq_or_ne y p
      · rw [update_self] at hn
        exact .inl (h.next (h.head ha) hn)
      · rw [update_of_ne hyp] at hn
        exact .inl (h.next (hy.resolve_right hyp) hn)

theorem pickOwn (h : Closed k S) :
    Closed (k.pickOwn c).1 S ∧ ∀ p, (k.pickOwn c).2.proc = some p → S p := by
  obtain ⟨hcases, hhead⟩ := k.pickOwn_cases c
  have h1 : Closed (k.pickOwn c).1 S := by
    rcases hcases with he | ⟨q, p, hh, he⟩
    · rw [he]
      exact h
    · rw [he]
      exact h.setHead fun p' hp' => h.next (h.head hh) hp'
  exact ⟨h1, fun p hp => h1.head (hhead p hp)⟩

/-- The candidate and its predecessor are on one list. -/
theorem stealCandidate {a : Ptr} (h : Closed k S)
    (hs : k.stealCandidate c = some (a, x)) : S a ∧ S x := by
  obtain ⟨v, -, hv⟩ := exists_of_findSome?_eq_some hs
  split at hv
  · exact nomatch hv
  obtain ⟨q, -, hq⟩ := exists_of_findSome?_eq_some hv
  unfold secondInQueue at hq
  split at hq
  · exact nomatch hq
  rename_i b hb
  split at hq
  · exact nomatch hq
  rename_i y hy
  split at hq
  · exact nomatch hq
  obtain ⟨rfl, rfl⟩ := Prod.mk.inj (Option.some.inj hq)
  exact ⟨h.head hb, h.next (h.head hb) hy⟩

theorem stealNode {a : Ptr} (h : Closed k S) (hx : S x) : Closed (k.stealNode c a x) S := by
  have h1 : Closed ((k.setNext a (k.next x)).setNext x none) S :=
    (h.setNext fun _ _ e => h.next hx e).setNext fun _ _ e => nomatch e
  have h2 : Closed (((k.setNext a (k.next x)).setNext x none).setOwner x c) S :=
    h1.of_same rfl next_setOwner
  exact h2.addToQueue.congr fun y => ⟨fun e => e.elim id (· ▸ hx), .inl⟩

theorem tryStealWork (h : Closed k S) :
    Closed (k.tryStealWork c).1 S ∧ ∀ p, (k.tryStealWork c).2 = some p → S p := by
  dsimp only [Kernel.tryStealWork]
  split
  · exact ⟨h, fun _ e => nomatch e⟩
  have h1 : Closed (k.modCpu c fun x =>
      { x with lastStealTick := (k.cpu c).schedTicks }) S :=
    h.of_same (by simp) rfl
  split
  · exact ⟨h1, fun _ e => nomatch e⟩
  · rename_i a x hs
    have hx := (h1.stealCandidate hs).2
    exact ⟨h1.stealNode hx, fun p hp => Option.some.inj hp ▸ hx⟩

/-- The process that is picked comes from a queue, or is the idle process. -/
theorem pickNextOrIdle (h : Closed k S) :
    Closed (k.pickNextOrIdle c).1 S ∧
      ∀ p, (k.pickNextOrIdle c).2.proc = some p → S p ∨ k.idle c = some p := by
  have hown := h.pickOwn (c := c)
  have hidle := (k.queueStep_pickNextOrIdle c).idle
  unfold Kernel.pickNextOrIdle at hidle ⊢
  generalize k.pickOwn c = r at hown hidle
  obtain ⟨k1, ⟨proc, queue⟩⟩ := r
  cases proc with
  | some p => exact ⟨hown.1, fun p hp => .inl (hown.2 p hp)⟩
  | none =>
    have hsteal := hown.1.tryStealWork (c := c)
    dsimp only at hsteal hidle ⊢
    generalize k1.tryStealWork c = r at hsteal hidle
    obtain ⟨k2, taken⟩ := r
    cases taken with
    | some x => exact ⟨hsteal.1, fun p hp => .inl (hsteal.2 p hp)⟩
    | none => exact ⟨hsteal.1, fun p hp => .inr (hidle ▸ hp)⟩

end Closed
/-! ## `schedule` -/

/-- What `schedule()` on CPU `c` may do: it dispatches its idle process or one
that is linked, and takes the RUNNING process it leaves to READY. -/
structure SchedEffect (k k' : Kernel) (c : Nat) : Prop where
  state : ∀ p, k'.state p = k.state p ∨ (k'.state p = .running ∧ k.idle c = some p) ∨
    (k'.state p = .running ∧ k.Linked p ∧ k.current c ≠ some p) ∨
    (k'.state p = .ready ∧ k.current c = some p ∧ k.state p = .running)
  current : ∀ d p, k'.current d = some p →
    k.current d = some p ∨ d = c ∧ (k.idle c = some p ∨ k.Linked p)

section SchedEffect

variable {k : Kernel} {c : Nat} {p : Ptr}

/-- `context_switch` makes `new` RUNNING, and `old` READY if it was RUNNING. -/
theorem state_contextSwitch (k : Kernel) (c : Nat) (old new p : Ptr) :
    (k.contextSwitch c old new).state p = k.state p ∨
      (p = new ∧ (k.contextSwitch c old new).state p = .running) ∨
      (p = old ∧ k.state p = .running ∧ (k.contextSwitch c old new).state p = .ready) := by
  unfold contextSwitch
  split
  · exact .inl rfl
  have hstate : (((k.casState old .running .ready).setState new .running).setCurrent c
      (some new)).state = update (k.casState old .running .ready).state new .running :=
    state_setState
  rw [hstate]
  obtain rfl | hnew := eq_or_ne p new
  · exact .inr (.inl ⟨rfl, update_self ..⟩)
  rw [update_of_ne hnew]
  unfold casState
  split
  · next hrun =>
    rw [state_setState]
    obtain rfl | hold := eq_or_ne p old
    · exact .inr (.inr ⟨rfl, hrun, update_self ..⟩)
    · exact .inl (update_of_ne hold _ _)
  · exact .inl rfl

theorem current_contextSwitch {old new : Ptr} {d : Nat}
    (h : (k.contextSwitch c old new).current d = some p) :
    k.current d = some p ∨ d = c ∧ p = new := by
  unfold contextSwitch at h
  split at h
  · exact .inl h
  obtain rfl | hd := eq_or_ne d c
  · simp only [setCurrent, current_modCpu, update_self, Option.some.injEq] at h
    exact .inr ⟨rfl, h.symm⟩
  · left
    unfold casState at h
    split at h <;>
      simpa [setCurrent, Kernel.setState, hd] using h

theorem current_installNext {next : Ptr} {q d : Nat}
    (h : (k.installNext c next q).current d = some p) :
    k.current d = some p ∨ d = c ∧ p = next := by
  have hcur : (k.installNext c next q).current = update k.current c (some next) := by
    dsimp only [installNext]
    split <;> simp [Kernel.setState, setCurrent, Kernel.setHead]
  rw [hcur] at h
  obtain rfl | hd := eq_or_ne d c
  · rw [update_self] at h
    exact .inr ⟨rfl, (Option.some.inj h).symm⟩
  · rw [update_of_ne hd] at h
    exact .inl h

/-- A dispatch changes the states of the two processes it exchanges. -/
theorem state_dispatch (k : Kernel) (c : Nat) (next : Ptr) (q : Nat) (p : Ptr) :
    (k.dispatch c next q).state p = k.state p ∨
      (p = next ∧ (k.dispatch c next q).state p = .running) ∨
      (k.current c = some p ∧ k.state p = .running ∧ (k.dispatch c next q).state p = .ready) := by
  have hinstall : (k.installNext c next q).state = update k.state next .running :=
    (k.state_installNext c next q).trans state_setState
  dsimp only [dispatch]
  cases hold : k.current c with
  | none =>
    rw [hinstall]
    by_cases hp : p = next
    · exact .inr (.inl ⟨hp, hp ▸ update_self ..⟩)
    · exact .inl (update_of_ne hp _ _)
  | some old =>
    dsimp only
    obtain rfl | hp := eq_or_ne p next
    · -- the switch back to itself is no switch
      by_cases hne : old = p
      · refine .inr (.inl ⟨rfl, ?_⟩)
        rw [contextSwitch, if_pos hne, hinstall, update_self]
      · have hrun : (k.installNext c p q).state p = .running := by rw [hinstall, update_self]
        obtain h | h | h := state_contextSwitch (k.installNext c p q) c old p p
        · exact .inr (.inl ⟨rfl, h.trans hrun⟩)
        · exact .inr (.inl h)
        · exact absurd h.1.symm hne
    · have hkeep : (k.installNext c next q).state p = k.state p := by rw [hinstall, update_of_ne hp]
      obtain h | h | h := state_contextSwitch (k.installNext c next q) c old next p
      · exact .inl (h.trans hkeep)
      · exact absurd h.1 hp
      · exact .inr (.inr ⟨congrArg some h.1.symm, hkeep ▸ h.2.1, h.2.2⟩)

theorem current_dispatch {next : Ptr} {q d : Nat} (h : (k.dispatch c next q).current d = some p) :
    k.current d = some p ∨ d = c ∧ p = next := by
  dsimp only [dispatch] at h
  split at h
  · exact current_installNext h
  · obtain h | h := current_contextSwitch h
    · exact current_installNext h
    · exact .inr h

/-- The process the CPU leaves for its idle process is not RUNNING, so only the
idle process changes its state. -/
theorem state_switchToIdle (k : Kernel) (c : Nat) (p : Ptr) :
    (k.switchToIdle c).state p = k.state p ∨
      (k.switchToIdle c).state p = .running ∧ k.idle c = some p := by
  unfold switchToIdle
  split
  · next i cur hidle _ =>
    split
    · next hcond =>
      obtain rfl | hp := eq_or_ne p i
      · refine .inr ⟨?_, hidle⟩
        have hrun : ((k.setCurrent c (some p)).setState p .running).state p = .running := by
          rw [state_setState, update_self]
        obtain h | h | h := state_contextSwitch
          ((k.setCurrent c (some p)).setState p .running) c cur p p
        · exact h.trans hrun
        · exact h.2
        · exact absurd h.1.symm hcond.1
      left
      have hkeep : ((k.setCurrent c (some i)).setState i .running).state p = k.state p := by
        rw [state_setState, update_of_ne hp]
        rfl
      obtain h | h | h := state_contextSwitch
        ((k.setCurrent c (some i)).setState i .running) c cur i p
      · exact h.trans hkeep
      · exact absurd h.1 hp
      · obtain ⟨rfl, hrun, -⟩ := h
        exact absurd (hkeep ▸ hrun) hcond.2
    · exact .inl rfl
  · exact .inl rfl

/-- Only CPU `c` goes to its idle process. -/
theorem current_switchToIdle {d : Nat} (h : (k.switchToIdle c).current d = some p) :
    k.current d = some p ∨ d = c ∧ k.idle c = some p := by
  unfold switchToIdle at h
  split at h
  · next i cur hidle _ =>
    split at h
    · obtain rfl | hd := eq_or_ne d c
      · obtain h | h := current_contextSwitch h
        · simp only [Kernel.setState, current_modProc, setCurrent,
            current_modCpu, update_self, Option.some.injEq] at h
          exact .inr ⟨rfl, h ▸ hidle⟩
        · exact .inr ⟨rfl, h.2 ▸ hidle⟩
      · obtain h | h := current_contextSwitch h
        · left
          simpa [Kernel.setState, setCurrent, hd] using h
        · exact absurd h.1 hd
    · exact .inl h
  · exact .inl h

/-- Demotion at most adds the current process, which it found RUNNING, to what
can be reached. -/
theorem closed_demoteQuantumExhausted {S : Ptr → Prop} (h : Closed k S) :
    ∃ S', Closed (k.demoteQuantumExhausted c) S' ∧
      ∀ p, S' p → S p ∨ k.current c = some p ∧ k.state p = .running := by
  dsimp only [demoteQuantumExhausted]
  split
  · exact ⟨S, h, fun _ => .inl⟩
  rename_i cur hc
  split
  · exact ⟨S, h, fun _ => .inl⟩
  rename_i hcond
  have hrun : k.state cur = .running := not_not.1 fun hne => hcond (.inr (.inl hne))
  have h1 : Closed ((k.removeFromQueue c cur).setState cur .ready) S :=
    h.removeFromQueue.of_same rfl (by simp [Kernel.setState])
  exact ⟨_, h1.addToQueue, fun p hp => hp.imp_right fun e : p = cur => e ▸ ⟨hc, hrun⟩⟩

/-- Only the process on the CPU can be demoted. -/
theorem state_demoteQuantumExhausted (k : Kernel) (c : Nat) (p : Ptr) :
    (k.demoteQuantumExhausted c).state p = k.state p ∨
      (k.current c = some p ∧ k.state p = .running ∧
        (k.demoteQuantumExhausted c).state p = .ready) := by
  dsimp only [demoteQuantumExhausted]
  split
  · exact .inl rfl
  next cur hcur =>
  split
  · exact .inl rfl
  next hcond =>
  have hrun : k.state cur = .running := by
    by_contra hne
    exact hcond (.inr (.inl hne))
  rw [state_addToQueue, state_setState, state_removeFromQueue]
  obtain rfl | hp := eq_or_ne p cur
  · exact .inr ⟨hcur, hrun, update_self ..⟩
  · exact .inl (update_of_ne hp _ _)

theorem state_refillQuantum : (k.refillQuantum c).state = k.state := by
  unfold refillQuantum
  split <;> rfl

theorem current_refillQuantum : (k.refillQuantum c).current = k.current := by
  unfold refillQuantum
  split
  · rfl
  · simp

/-- The second half of `schedule` dispatches what it picks, unless this is the current process or
the idle one. -/
theorem effect_reschedule_picked {S : Ptr → Prop}
    (hS : ∀ next, ((k.demoteQuantumExhausted c).pickNextOrIdle c).2.proc = some next →
      k.current c ≠ some next → (k.demoteQuantumExhausted c).idle c ≠ some next → S next) :
    (∀ p, (k.reschedule c).state p = k.state p ∨
      ((k.reschedule c).state p = .running ∧ S p ∧ k.current c ≠ some p) ∨
      ((k.reschedule c).state p = .ready ∧ k.current c = some p ∧ k.state p = .running)) ∧
    ∀ d p, (k.reschedule c).current d = some p → k.current d = some p ∨ d = c ∧ S p := by
  have hdem := state_demoteQuantumExhausted k c
  have hstep := (k.demoteQuantumExhausted c).queueStep_pickNextOrIdle c
  have hcur := hstep.current.trans (k.current_demoteQuantumExhausted c)
  have hstate := hstep.state
  rw [← hstep.idle] at hS
  -- nothing is dispatched: the demotion is all that happened
  have hnone {k' : Kernel} (hs : k'.state = (k.demoteQuantumExhausted c).state)
      (hc : k'.current = k.current) :
      (∀ p, k'.state p = k.state p ∨ (k'.state p = .running ∧ S p ∧ k.current c ≠ some p) ∨
        (k'.state p = .ready ∧ k.current c = some p ∧ k.state p = .running)) ∧
      ∀ d p, k'.current d = some p → k.current d = some p ∨ d = c ∧ S p := by
    refine ⟨fun p => ?_, fun d p hp => .inl (hc ▸ hp)⟩
    rw [hs]
    exact (hdem p).imp_right fun hd => .inr ⟨hd.2.2, hd.1, hd.2.1⟩
  unfold reschedule
  dsimp only
  generalize (k.demoteQuantumExhausted c).pickNextOrIdle c = r at hS hcur hstate
  obtain ⟨k1, ⟨proc, queue⟩⟩ := r
  cases proc with
  | none => exact hnone (state_refillQuantum.trans hstate) (current_refillQuantum.trans hcur)
  | some next =>
    dsimp only
    split
    · next hne =>
      rw [hcur] at hne
      have hSnext : S next := hS next rfl hne.1 hne.2
      refine ⟨fun p => ?_, fun d p hp => ?_⟩
      · obtain hp | hp | hp := state_dispatch k1 c next queue p
        · rw [hp, hstate]
          exact (hdem p).imp_right fun hd => .inr ⟨hd.2.2, hd.1, hd.2.1⟩
        · obtain ⟨rfl, hrun⟩ := hp
          exact .inr (.inl ⟨hrun, hSnext, hne.1⟩)
        · rw [hcur, hstate] at hp
          obtain ⟨hpc, hrun, hready⟩ := hp
          refine .inr (.inr ⟨hready, hpc, ?_⟩)
          obtain hd | hd := hdem p
          · exact hd ▸ hrun
          · exact hd.2.1
      · obtain hp | ⟨hd, rfl⟩ := current_dispatch hp
        · exact .inl (hcur ▸ hp)
        · exact .inr ⟨hd, hSnext⟩
    · exact hnone (state_refillQuantum.trans hstate) (current_refillQuantum.trans hcur)

/-- It dispatches nothing from outside a closed set that holds every queue. -/
theorem effect_reschedule {S : Ptr → Prop} (h : Closed k S) :
    (∀ p, (k.reschedule c).state p = k.state p ∨
      ((k.reschedule c).state p = .running ∧ S p ∧ k.current c ≠ some p) ∨
      ((k.reschedule c).state p = .ready ∧ k.current c = some p ∧ k.state p = .running)) ∧
    ∀ d p, (k.reschedule c).current d = some p → k.current d = some p ∨ d = c ∧ S p := by
  obtain ⟨S', h', hS'⟩ := closed_demoteQuantumExhausted h
  refine effect_reschedule_picked fun next hnext hcur hidle => ?_
  exact (hS' next ((h'.pickNextOrIdle.2 next hnext).resolve_right hidle)).resolve_right
    fun hc => hcur hc.1

/-- The branches of `schedule()`: idle, the same process again, or another one. -/
theorem schedEffect_schedule (k : Kernel) (c : Nat) : SchedEffect k (k.schedule c) c := by
  have hclosed := ((closed_linked k).pickNextOrIdle (c := c)).1
  have hstep := k.queueStep_pickNextOrIdle c
  unfold schedule
  generalize k.pickNextOrIdle c = r at hclosed hstep
  obtain ⟨k1, pick⟩ := r
  dsimp only at hclosed hstep ⊢
  split
  · constructor
    · intro p
      obtain hp | ⟨hrun, hp⟩ := state_switchToIdle k1 c p
      · exact .inl (hp.trans (congrFun hstep.state p))
      · exact .inr (.inl ⟨hrun, hstep.idle ▸ hp⟩)
    · intro d p hp
      obtain hp | ⟨hd, hp⟩ := current_switchToIdle hp
      · exact .inl (hstep.current ▸ hp)
      · exact .inr ⟨hd, .inl (hstep.idle ▸ hp)⟩
  split
  · obtain ⟨hs, hc⟩ := effect_reschedule hclosed
    rw [hstep.state, hstep.current] at hs
    rw [hstep.current] at hc
    exact ⟨fun p => (hs p).imp_right .inr,
      fun d p hp => (hc d p hp).imp_right fun h => ⟨h.1, .inr h.2⟩⟩
  · exact ⟨fun p => .inl (congrFun hstep.state p), fun d p hp => .inl (hstep.current ▸ hp)⟩

end SchedEffect

end UnixOs
