import UnixOs.Core.RunQueues
import UnixOs.Lib.Run

/-!
# At most one CPU runs a process

The scheduler as a machine whose steps are the calls of `schedule`,
`scheduler_add_process`, `scheduler_remove_process` and `timer_tick` on any CPU,
interleaved with stores to the state word from the rest of the kernel.

- `SchedInv`: the queues are rings (`Queued`), a linked process is owned by the
  CPU that has it linked, and what a CPU runs is its idle process or a process
  it owns. Two CPUs then never run the same process.
- Every step keeps it except one: `try_steal_work` takes the node behind the
  head of a victim's queue, and since `schedule` rotates the head past what it
  dispatches, that node can be the very process the victim runs.
- `scheduleTakesRunning` is the test for that branch, and
  `current_unique_of_idle_steals` says that nothing else goes wrong.
-/

namespace UnixOs

open Function List Machine Kernel

namespace Kernel

variable (k : Kernel)

/-- Some CPU has `x` as its current process. -/
def runsSomewhere (x : Ptr) : Bool :=
  (List.range k.cpuCount).any fun v => k.current v == some x

/-- The interval test at the start of `try_steal_work` (sched.c:156). -/
def stealThrottled (c : Nat) : Bool :=
  let now := (k.cpu c).schedTicks
  stealMinInterval ≤ now && now - (k.cpu c).lastStealTick < stealMinInterval

/-- `pick_next_or_idle` gets to `try_steal_work`, and the node behind the head
that it finds is running. -/
def pickTakesRunning (c : Nat) : Bool :=
  let (k, pick) := k.pickOwn c
  pick.proc.isNone && !k.stealThrottled c &&
    match k.stealCandidate c with
    | none => false
    | some (_, x) => k.runsSomewhere x

/-- One of the (up to two) picks of `schedule` takes a running process. -/
def scheduleTakesRunning (c : Nat) : Bool :=
  k.pickTakesRunning c ||
    let (k, pick) := k.pickNextOrIdle c
    pick.proc != k.idle c && k.mustSwitch c &&
      (k.demoteQuantumExhausted c).pickTakesRunning c

end Kernel

/-- The atomic steps that touch the scheduler's state. -/
inductive SchedEvent where
  /-- `schedule()` on CPU `c`. -/
  | schedule (c : Nat)
  /-- `scheduler_add_process` on CPU `c`, for a process just allocated and
  filled in as `x` (its one caller that queues anything is `sys_fork`). -/
  | addProcess (c : Nat) (x : Process)
  /-- `scheduler_remove_process(p)`. -/
  | removeProcess (p : Ptr)
  /-- `timer_tick()` on CPU `c`. -/
  | timerTick (c : Nat)
  /-- Any store to `p->state` outside the scheduler. -/
  | storeState (p : Ptr) (s : ProcState)

/-- One step; a CPU that does not exist executes nothing. -/
def schedStep (k : Kernel) : SchedEvent → Kernel
  | .schedule c => if c < k.cpuCount then k.schedule c else k
  | .addProcess c x => (k.allocProc x).schedulerAddProcess c k.nproc
  | .removeProcess p => k.schedulerRemoveProcess p
  | .timerTick c => k.timerTick c
  | .storeState p s => k.setState p s

/-- No process is current on two CPUs. -/
def CurrentUnique (k : Kernel) : Prop :=
  ∀ c c' p, k.current c = some p → k.current c' = some p → c = c'

/-! ## The invariant -/

namespace Kernel

/-- `p` is the idle process of some CPU. -/
def IsIdle (k : Kernel) (p : Ptr) : Prop := ∃ c, k.idle c = some p

/-- `p` is an ordinary process that belongs to CPU `c`. -/
structure Owns (k : Kernel) (c : Nat) (p : Ptr) : Prop where
  owner : k.owner p = c
  alloc : p < k.nproc
  notIdle : ¬ k.IsIdle p

/-- CPU `c` may run `p`: its idle process, or a process it owns. -/
def MayRun (k : Kernel) (c : Nat) (p : Ptr) : Prop :=
  k.idle c = some p ∨ k.Owns c p

section

variable {k k' : Kernel} {c : Nat} {p : Ptr}

theorem Owns.congr (h : k.Owns c p) (howner : k'.owner p = k.owner p)
    (hidle : k'.idle = k.idle) (hn : k'.nproc = k.nproc) : k'.Owns c p :=
  ⟨howner.trans h.owner, hn ▸ h.alloc, fun hd => h.notIdle (hd.imp fun _ hd => hidle ▸ hd)⟩

theorem MayRun.congr (h : k.MayRun c p) (howner : k'.owner p = k.owner p)
    (hidle : k'.idle = k.idle) (hn : k'.nproc = k.nproc) : k'.MayRun c p :=
  h.imp (fun hi => hidle ▸ hi) fun ho => ho.congr howner hidle hn

end

end Kernel

/-- The invariant of the scheduler, for the node lists `L`. -/
structure SchedInv (k : Kernel) (L : Nat → Nat → List Ptr) : Prop where
  queued : Queued k L
  linked : ∀ {c q p}, p ∈ L c q → k.Owns c p
  cur : ∀ {c p}, k.current c = some p → k.MayRun c p
  idleInj : ∀ {c c' p}, k.idle c = some p → k.idle c' = some p → c = c'
  idleAlloc : ∀ {c p}, k.idle c = some p → p < k.nproc
  online : ∀ {c p}, k.current c = some p → c < k.cpuCount

namespace SchedInv

variable {k k' : Kernel} {L : Nat → Nat → List Ptr} {c q : Nat} {p x : Ptr}

theorem currentUnique (h : SchedInv k L) : CurrentUnique k := by
  intro c c' p hc hc'
  rcases h.cur hc with hi | ho <;> rcases h.cur hc' with hi' | ho'
  · exact h.idleInj hi hi'
  · exact absurd ⟨c, hi⟩ ho'.notIdle
  · exact absurd ⟨c', hi'⟩ ho.notIdle
  · exact ho.owner.symm.trans ho'.owner

/-- Steps that keep ownership, the idle processes and the current processes
only have to account for the queues. -/
theorem requeue {L' : Nat → Nat → List Ptr} (h : SchedInv k L)
    (hQ : Queued k' L') (howner : k'.owner = k.owner) (hidle : k'.idle = k.idle)
    (hcur : k'.current = k.current) (hn : k'.nproc = k.nproc) (hcount : k'.cpuCount = k.cpuCount)
    (hmem : ∀ {c q p}, p ∈ L' c q → k.Owns c p) : SchedInv k' L' := by
  exact
    { queued := hQ
      linked := fun hp => (hmem hp).congr (congrFun howner _) hidle hn
      cur := fun hc => (h.cur (hcur ▸ hc)).congr (congrFun howner _) hidle hn
      idleInj := hidle ▸ h.idleInj
      idleAlloc := fun hi => hn ▸ h.idleAlloc (hidle ▸ hi)
      online := fun hc => hcount ▸ h.online (hcur ▸ hc) }

section

variable (h : SchedInv k L)
include h

/-- Steps that also keep the links. -/
theorem of_same (hnext : k'.next = k.next) (hhead : k'.rqHead = k.rqHead) (hmlfq : k'.mlfq = k.mlfq)
    (howner : k'.owner = k.owner) (hidle : k'.idle = k.idle)
    (hcur : k'.current = k.current) (hn : k'.nproc = k.nproc)
    (hcount : k'.cpuCount = k.cpuCount) : SchedInv k' L :=
  h.requeue (h.queued.of_same hnext hhead hmlfq hn.ge) howner hidle hcur hn hcount h.linked

theorem setState (p : Ptr) (s : ProcState) : SchedInv (k.setState p s) L := by
  refine h.of_same ?_ rfl ?_ ?_ rfl rfl rfl rfl <;> simp [Kernel.setState]

/-- A CPU may switch to its idle process or to a process it owns. -/
theorem setCurrent (hc : c < k.cpuCount) (hp : k.MayRun c p) :
    SchedInv (k.setCurrent c (some p)) L := by
  have hcur : ∀ {c' p'}, (k.setCurrent c (some p)).current c' = some p' →
      (c' = c ∧ p' = p) ∨ k.current c' = some p' := by
    intro c' p' h'
    obtain rfl | e := eq_or_ne c' c
    · simp only [Kernel.setCurrent, current_modCpu, update_self, Option.some.injEq] at h'
      exact .inl ⟨rfl, h'.symm⟩
    · right
      simpa [Kernel.setCurrent, e] using h'
  have hidle : (k.setCurrent c (some p)).idle = k.idle := by simp [Kernel.setCurrent]
  exact
    { queued := h.queued.of_same rfl (by simp [Kernel.setCurrent]) rfl le_rfl
      linked := fun hp => (h.linked hp).congr rfl hidle rfl
      cur := fun h' => by
        rcases hcur h' with ⟨rfl, rfl⟩ | h'
        · exact hp.congr rfl hidle rfl
        · exact (h.cur h').congr rfl hidle rfl
      idleInj := hidle ▸ h.idleInj
      idleAlloc := fun hi => h.idleAlloc (hidle ▸ hi)
      online := fun h' => by
        rcases hcur h' with ⟨rfl, -⟩ | h'
        · exact hc
        · exact h.online h' }

theorem rotate (hh : k.rqHead c q = some p) :
    SchedInv (k.setHead c q (k.next p)) (setQueue L c q ((L c q).rotate 1)) := by
  refine h.requeue (k.queued_rotate h.queued hh) rfl (by simp [setHead])
    (by simp [setHead]) rfl rfl fun {c' q' y} hy => ?_
  obtain ⟨⟨rfl, rfl⟩, hl⟩ | ⟨-, hy⟩ := mem_setQueue hy
  · exact h.linked (mem_rotate.mp hl)
  · exact h.linked hy

/-- `remove_from_queue` by the owner. -/
theorem removeFromQueue (hp : k.owner p = c) :
    ∃ L', SchedInv (k.removeFromQueue c p) L' ∧ ∀ c' q', p ∉ L' c' q' := by
  by_cases hm : ∃ q, p ∈ L c q
  · obtain ⟨q, hm⟩ := hm
    refine ⟨_, h.requeue (queued_removeFromQueue h.queued hm) (by simp)
      (by simp) (by simp) (by simp) (by simp)
      fun hy => h.linked (h.queued.mem_erase hm hy).1,
      fun c' q' hy => (h.queued.mem_erase hm hy).2 rfl⟩
  · have hm' : ∀ q, p ∉ L c q := fun q hq => hm ⟨q, hq⟩
    rw [removeFromQueue_of_notMem h.queued hm']
    refine ⟨L, h, fun c' q' hy => ?_⟩
    obtain rfl : c' = c := (h.linked hy).owner.symm.trans hp
    exact hm' q' hy

end

/-- `add_to_queue` of an unlinked process by its owner. -/
theorem addToQueue {queue : Int} (h : SchedInv k L) (hp : k.Owns c p)
    (hout : ∀ c' q', p ∉ L c' q') : ∃ L', SchedInv (k.addToQueue c p queue) L' := by
  refine ⟨_, h.requeue (queued_addToQueue h.queued hout hp.alloc) (by simp)
    (by simp) (by simp) (by simp) (by simp) fun {c' q' y} hy => ?_⟩
  obtain ⟨⟨rfl, rfl⟩, hl⟩ | ⟨-, hy⟩ := mem_setQueue hy
  · rcases mem_insertBehind.mp hl with rfl | hy
    · exact hp
    · exact h.linked hy
  · exact h.linked hy

/-- Stealing a process that runs nowhere. -/
theorem stealNode {a : Ptr} (h : SchedInv k L)
    (hs : k.stealCandidate c = some (a, x)) (hrun : k.runsSomewhere x = false) :
    ∃ L', SchedInv (k.stealNode c a x) L' ∧ (k.stealNode c a x).Owns c x := by
  obtain ⟨v, q, t, hv, hl⟩ := stealCandidate_eq h.queued hs
  have hx : x ∈ L v q := by rw [hl]; simp
  have howner : (k.stealNode c a x).owner = update k.owner x c := by
    simp [Kernel.stealNode, setNext, setOwner]
  obtain ⟨-, hcur, hidle, hn, hcount⟩ : QueueStep k (k.stealNode c a x) := by
    constructor <;> simp [Kernel.stealNode, setNext, setOwner]
  have hkeep : ∀ {y}, y ≠ x → (k.stealNode c a x).owner y = k.owner y :=
    fun hy => by rw [howner, update_of_ne hy]
  have hxo : (k.stealNode c a x).Owns c x := by
    have hold := h.linked hx
    refine ⟨by rw [howner, update_self], hn ▸ hold.alloc, ?_⟩
    rintro ⟨d, hd⟩
    exact hold.notIdle ⟨d, hidle ▸ hd⟩
  have hnot : ∀ {c'}, k.current c' ≠ some x := by
    intro c' hc'
    have := any_eq_false.mp hrun c' (mem_range.mpr (h.online hc'))
    exact this (by simp [hc'])
  refine ⟨stolenQueues L c v q x, ?_, hxo⟩
  exact
    { queued := queued_stealNode h.queued hv hl
      linked := by
        intro c' q' y hy
        rcases h.queued.mem_stolenQueues hx hy with ⟨rfl, rfl⟩ | ⟨hy, hyx⟩
        · exact hxo
        · exact (h.linked hy).congr (hkeep hyx) hidle hn
      cur := by
        intro c' p' h'
        rw [hcur] at h'
        have hne : p' ≠ x := fun e => hnot (e ▸ h')
        exact (h.cur h').congr (hkeep hne) hidle hn
      idleInj := hidle ▸ h.idleInj
      idleAlloc := fun hi => hn ▸ h.idleAlloc (hidle ▸ hi)
      online := fun h' => hcount ▸ h.online (hcur ▸ h') }

end SchedInv

/-! ## The functions of sched.c keep it -/

/-- The invariant, for some node lists. -/
def SchedOk (k : Kernel) : Prop := ∃ L, SchedInv k L

namespace SchedOk

variable {k : Kernel} {c : Nat} {p : Ptr}

theorem pickOwn (h : SchedOk k) : SchedOk (k.pickOwn c).1 := by
  obtain ⟨L, h⟩ := h
  rcases (k.pickOwn_cases c).1 with he | ⟨q, p, hh, he⟩
  · rw [he]
    exact ⟨L, h⟩
  · rw [he]
    exact ⟨_, h.rotate hh⟩

/-- A head of a queue of CPU `c` belongs to it. -/
theorem owns_head {q : Nat} (h : SchedOk k) (hh : k.rqHead c q = some p) : k.Owns c p := by
  obtain ⟨L, h⟩ := h
  exact h.linked (h.queued.head_mem hh)

theorem stealCandidate_modCpu {d : Nat} {g : Cpu → Cpu} (hg : ∀ x, (g x).runQueues = x.runQueues) :
    (k.modCpu d g).stealCandidate c = k.stealCandidate c := by
  simp [stealCandidate, secondInQueue, hg]

section

variable (h : SchedOk k)
include h

/-- `try_steal_work`, unless it takes a running process. -/
theorem tryStealWork
    (hsafe : k.stealThrottled c = false → ∀ a x,
      k.stealCandidate c = some (a, x) → k.runsSomewhere x = false) :
    SchedOk (k.tryStealWork c).1 ∧
      ∀ x, (k.tryStealWork c).2 = some x → (k.tryStealWork c).1.Owns c x := by
  obtain ⟨L, h⟩ := h
  dsimp only [Kernel.tryStealWork]
  split
  · exact ⟨⟨L, h⟩, fun x hx => nomatch hx⟩
  · rename_i hthr
    have hthr' : k.stealThrottled c = false := by simpa [Kernel.stealThrottled] using hthr
    have h1 : SchedInv (k.modCpu c fun x =>
        { x with lastStealTick := (k.cpu c).schedTicks }) L := by
      refine h.of_same rfl ?_ rfl rfl ?_ ?_ rfl rfl <;> simp
    split
    · exact ⟨⟨L, h1⟩, fun x hx => nomatch hx⟩
    · rename_i a x hs
      have hs' := hs
      rw [stealCandidate_modCpu (by simp)] at hs'
      have hrun := hsafe hthr' a x hs'
      obtain ⟨L', hL', ho⟩ := h1.stealNode hs (by
        simpa [Kernel.runsSomewhere] using hrun)
      exact ⟨⟨L', hL'⟩, fun y hy => Option.some.inj hy ▸ ho⟩

/-- What `pick_next_or_idle` returns, its CPU may run. -/
theorem pickNextOrIdle (hsafe : k.pickTakesRunning c = false) :
    SchedOk (k.pickNextOrIdle c).1 ∧ ∀ p, (k.pickNextOrIdle c).2.proc = some p →
        (k.pickNextOrIdle c).1.MayRun c p := by
  have hown := h.pickOwn (c := c)
  have hhead := (k.pickOwn_cases c).2
  unfold Kernel.pickTakesRunning at hsafe
  unfold Kernel.pickNextOrIdle
  generalize k.pickOwn c = r at hown hhead hsafe
  obtain ⟨k1, ⟨proc, queue⟩⟩ := r
  cases proc with
  | some p => exact ⟨hown, fun p' hp' => .inr (hown.owns_head (hhead p' hp'))⟩
  | none =>
    have hsteal := hown.tryStealWork (c := c) fun hthr a x hs => by simpa [hthr, hs] using hsafe
    dsimp only at hsteal ⊢
    generalize k1.tryStealWork c = r at hsteal
    obtain ⟨k2, taken⟩ := r
    cases taken with
    | some x => exact ⟨hsteal.1, fun p hp => .inr (hsteal.2 p hp)⟩
    | none => exact ⟨hsteal.1, fun p hp => .inl hp⟩

/-- The current process of a CPU, unless it idles, is one it owns; so it may be
taken off its queue and linked again. -/
theorem demoteQuantumExhausted : SchedOk (k.demoteQuantumExhausted c) := by
  dsimp only [Kernel.demoteQuantumExhausted]
  cases hc : k.current c with
  | none => exact h
  | some cur =>
    dsimp only
    split
    · exact h
    · rename_i hcond
      obtain ⟨L, h⟩ := h
      have ho : k.Owns c cur := (h.cur hc).resolve_left fun e => hcond (.inl e)
      obtain ⟨L', h', hout⟩ := h.removeFromQueue ho.owner
      have ho' : ((k.removeFromQueue c cur).setState cur .ready).Owns c cur :=
        ho.congr (by simp [Kernel.setState]) (by simp [Kernel.setState]) (by simp [Kernel.setState])
      exact (h'.setState cur .ready).addToQueue ho' hout

theorem setState (p : Ptr) (s : ProcState) : SchedOk (k.setState p s) :=
  h.imp fun _ h => h.setState p s

theorem casState (p : Ptr) (s s' : ProcState) : SchedOk (k.casState p s s') := by
  unfold Kernel.casState
  split
  · exact h.setState p s'
  · exact h

/-- Updates of the counters of a CPU. -/
theorem modCpu {g : Cpu → Cpu} (hq : ∀ x, (g x).runQueues = x.runQueues)
    (hc : ∀ x, (g x).currentProc = x.currentProc)
    (hi : ∀ x, (g x).idleProc = x.idleProc) : SchedOk (k.modCpu c g) :=
  h.imp fun _ h => h.of_same rfl (by simp [hq]) rfl rfl (by simp [hi]) (by simp [hc]) rfl rfl

section

variable (hc : c < k.cpuCount)
include hc

theorem setCurrent (hp : k.MayRun c p) : SchedOk (k.setCurrent c (some p)) :=
  h.imp fun _ h => h.setCurrent hc hp

theorem contextSwitch {old : Ptr} (hp : k.MayRun c p) : SchedOk (k.contextSwitch c old p) := by
  unfold Kernel.contextSwitch
  split
  · exact h
  · refine ((h.casState old .running .ready).setState p .running).setCurrent ?_ ?_
    · unfold Kernel.casState
      split <;> exact hc
    · unfold Kernel.casState
      split <;> exact hp.congr (by simp [Kernel.setState]) rfl rfl

theorem switchToIdle : SchedOk (k.switchToIdle c) := by
  unfold Kernel.switchToIdle
  split
  · rename_i i cur hi _
    split
    · refine ((h.setCurrent hc (.inl hi)).setState i .running).contextSwitch hc (.inl ?_)
      simpa [Kernel.setState, Kernel.setCurrent] using hi
    · exact h
  · exact h

end

theorem refillQuantum : SchedOk (k.refillQuantum c) := by
  unfold Kernel.refillQuantum
  split
  · exact h
  · exact h.modCpu (fun _ => rfl) (fun _ => rfl) fun _ => rfl

end

/-- Installing a process that may run on `c`. -/
theorem installNext {q : Nat} (h : SchedOk k) (hc : c < k.cpuCount) (hp : k.MayRun c p) :
    SchedOk (k.installNext c p q) ∧ (k.installNext c p q).MayRun c p ∧
      c < (k.installNext c p q).cpuCount := by
  -- the stores up to the rotation of the queue head
  let k1 := (((k.setCurrent c (some p)).modCpu c fun x =>
    { x with currentQueue := q }).setState p .running).modCpu c fun x =>
    { x with quantumLeft := queueQuantum q }
  have h1 : SchedOk k1 := by
    refine modCpu (setState (modCpu (h.setCurrent hc hp) ?_ ?_ ?_) p _) ?_ ?_ ?_
    all_goals exact fun _ => rfl
  have hp1 : k1.MayRun c p :=
    hp.congr (by simp [k1, Kernel.setState, Kernel.setCurrent])
      (by simp [k1, Kernel.setState, Kernel.setCurrent]) rfl
  dsimp only [Kernel.installNext]
  split
  · exact ⟨h1, hp1, hc⟩
  · rename_i a hh
    exact ⟨h1.imp' _ fun _ h => h.rotate hh, hp1.congr rfl idle_setHead rfl, hc⟩

theorem dispatch {q : Nat} (h : SchedOk k) (hc : c < k.cpuCount)
    (hp : k.MayRun c p) : SchedOk (k.dispatch c p q) := by
  obtain ⟨h', hp', hc'⟩ := h.installNext hc hp
  dsimp only [Kernel.dispatch]
  split
  · exact h'
  · exact h'.contextSwitch hc' hp'

/-- The parts of `schedule()` in turn. -/
theorem reschedule (h : SchedOk k) (hc : c < k.cpuCount)
    (hsafe : (k.demoteQuantumExhausted c).pickTakesRunning c = false) :
    SchedOk (k.reschedule c) := by
  obtain ⟨h', hmay⟩ := h.demoteQuantumExhausted.pickNextOrIdle hsafe
  have hc' : c < ((k.demoteQuantumExhausted c).pickNextOrIdle c).1.cpuCount := by
    rwa [((k.demoteQuantumExhausted c).queueStep_pickNextOrIdle c).cpuCount,
      k.cpuCount_demoteQuantumExhausted c]
  unfold Kernel.reschedule
  dsimp only
  generalize (k.demoteQuantumExhausted c).pickNextOrIdle c = r at h' hmay hc'
  obtain ⟨k1, ⟨proc, queue⟩⟩ := r
  cases proc with
  | none => exact h'.refillQuantum
  | some next =>
    dsimp only
    split
    · exact h'.dispatch hc' (hmay next rfl)
    · exact h'.refillQuantum

/-- **`schedule`** keeps the invariant unless it steals a running process. -/
theorem schedule (h : SchedOk k) (hc : c < k.cpuCount)
    (hsafe : k.scheduleTakesRunning c = false) : SchedOk (k.schedule c) := by
  obtain ⟨hfirst, hsecond⟩ := Bool.or_eq_false_iff.mp hsafe
  have h' := (h.pickNextOrIdle hfirst).1
  have hc' := hc
  rw [← (k.queueStep_pickNextOrIdle c).cpuCount] at hc'
  unfold Kernel.schedule
  generalize k.pickNextOrIdle c = r at h' hc' hsecond
  dsimp only at hsecond ⊢
  split
  · exact h'.switchToIdle hc'
  · rename_i hne
    split
    · rename_i hmust
      refine h'.reschedule hc' ?_
      simpa [hne, hmust] using hsecond
    · exact h'

theorem schedulerRemoveProcess (h : SchedOk k) : SchedOk (k.schedulerRemoveProcess p) := by
  obtain ⟨L, h⟩ := h
  obtain ⟨L', h', -⟩ := h.removeFromQueue rfl
  exact ⟨L', h'⟩

/-- Allocating an object changes nothing for those that exist. -/
theorem alloc {k' : Kernel} {L : Nat → Nat → List Ptr} (h : SchedInv k L)
    (hsame : ∀ p < k.nproc, k'.next p = k.next p ∧ k'.mlfq p = k.mlfq p ∧ k'.owner p = k.owner p)
    (hhead : k'.rqHead = k.rqHead) (hidle : k'.idle = k.idle)
    (hcur : k'.current = k.current) (hn : k.nproc ≤ k'.nproc)
    (hcount : k'.cpuCount = k.cpuCount) : SchedInv k' L := by
  have hlt : ∀ {c q p}, p ∈ L c q → p < k.nproc := h.queued.alloc
  have howns : ∀ {c p}, k.Owns c p → k'.Owns c p := fun ho =>
    ⟨(hsame _ ho.alloc).2.2.trans ho.owner, lt_of_lt_of_le ho.alloc hn,
      fun hd => ho.notIdle (hd.imp fun _ hd => hidle ▸ hd)⟩
  exact
    { queued :=
        { ring := fun c q => by
            rw [hhead]
            exact (h.queued.ring c q).congr fun p hp => (hsame p (hlt hp)).1
          disj := h.queued.disj
          mlfq := fun hp => (hsame _ (hlt hp)).2.1.trans (h.queued.mlfq hp)
          small := h.queued.small
          alloc := fun hp => lt_of_lt_of_le (hlt hp) hn }
      linked := fun hp => howns (h.linked hp)
      cur := fun hc => (h.cur (hcur ▸ hc)).imp (fun hi => hidle ▸ hi) howns
      idleInj := hidle ▸ h.idleInj
      idleAlloc := fun hi => lt_of_lt_of_le (h.idleAlloc (hidle ▸ hi)) hn
      online := fun hc => hcount ▸ h.online (hcur ▸ hc) }

/-- `scheduler_add_process` of a process just allocated. -/
theorem schedulerAddProcess (h : SchedOk k) (x : Process) :
    SchedOk ((k.allocProc x).schedulerAddProcess c k.nproc) := by
  obtain ⟨L, h⟩ := h
  have hfresh : ∀ p < k.nproc, p ≠ k.nproc := fun p hp => Nat.ne_of_lt hp
  have hnotIdle : ¬ k.IsIdle k.nproc := by
    rintro ⟨d, hd⟩
    exact lt_irrefl _ (h.idleAlloc hd)
  have hout : ∀ c q, k.nproc ∉ L c q := fun _ _ hp => lt_irrefl _ (h.queued.alloc hp)
  dsimp only [Kernel.schedulerAddProcess]
  split
  · refine ⟨L, alloc h (fun p hp => ?_) rfl rfl rfl (Nat.le_succ _) rfl⟩
    simp [hfresh p hp]
  · -- the process with its fields filled in, not yet linked
    generalize (k.allocProc x).rrTarget = target
    let k1 := (k.allocProc x).assignTo k.nproc target
    have h1 : SchedInv k1 L := by
      refine alloc h (fun p hp => ?_) rfl rfl rfl (Nat.le_succ _) rfl
      simp [k1, hfresh p hp]
    have ho : k1.Owns target k.nproc := ⟨by simp [k1], Nat.lt_succ_self _, hnotIdle⟩
    have h2 : SchedOk (k1.addToQueue target k.nproc 0) := h1.addToQueue ho hout
    split
    · unfold sendResched
      split
      · exact h2
      · exact modCpu h2 (by simp) (by simp) (by simp)
    · exact h2

end SchedOk

/-- At boot every queue is empty. -/
theorem schedOk_bootKernel (n : Nat) : SchedOk (bootKernel n) := by
  have hidle : ∀ {c p}, (bootKernel n).idle c = some p → c < n ∧ p = c := by
    intro c p h
    have h' : (if c < n then some c else none) = some p := h
    split at h'
    · exact ⟨‹_›, (Option.some.inj h').symm⟩
    · exact nomatch h'
  have hcur : ∀ {c p}, (bootKernel n).current c = some p →
      c < n ∧ p = if c = 0 then n else c := by
    intro c p h
    have h' : (if c < n then some (if c = 0 then n else c) else none) = some p := h
    split at h'
    · exact ⟨‹_›, (Option.some.inj h').symm⟩
    · exact nomatch h'
  refine ⟨fun _ _ => [], ?_⟩
  exact
    { queued := ⟨fun _ _ => rfl, nofun, nofun, nofun, nofun⟩
      linked := nofun
      cur := by
        intro c p h
        obtain ⟨hc, rfl⟩ := hcur h
        obtain rfl | h0 := eq_or_ne c 0
        · refine .inr ⟨rfl, Nat.lt_succ_of_lt (Nat.lt_succ_self n), ?_⟩
          rintro ⟨d, hd⟩
          obtain ⟨hd1, hd2⟩ := hidle hd
          exact Nat.ne_of_gt hd1 hd2
        · rw [if_neg h0]
          exact .inl (if_pos hc)
      idleInj := fun h h' => (hidle h).2.symm.trans (hidle h').2
      idleAlloc := fun h => by
        obtain ⟨hc, rfl⟩ := hidle h
        exact Nat.lt_succ_of_lt (Nat.lt_succ_of_lt hc)
      online := fun h => (hcur h).1 }

/-- The steps that are safe: everything but a steal of a running process. -/
def StealsNoRunning (k : Kernel) : SchedEvent → Prop
  | .schedule c => c < k.cpuCount → k.scheduleTakesRunning c = false
  | _ => True

instance (k : Kernel) : (e : SchedEvent) → Decidable (StealsNoRunning k e)
  | .schedule c => inferInstanceAs
      (Decidable (c < k.cpuCount → k.scheduleTakesRunning c = false))
  | .addProcess .. => .isTrue trivial
  | .removeProcess _ => .isTrue trivial
  | .timerTick _ => .isTrue trivial
  | .storeState .. => .isTrue trivial

/-- One case for each event. -/
theorem schedOk_schedStep (k : Kernel) (e : SchedEvent) (h : SchedOk k)
    (hsafe : StealsNoRunning k e) : SchedOk (schedStep k e) := by
  cases e with
  | schedule c =>
    show SchedOk (if c < k.cpuCount then k.schedule c else k)
    split
    · rename_i hc
      exact h.schedule hc (hsafe hc)
    · exact h
  | addProcess c x => exact h.schedulerAddProcess x
  | removeProcess p => exact h.schedulerRemoveProcess
  | timerTick c =>
    refine SchedOk.modCpu (g := fun x => { x with
      schedTicks := x.schedTicks + 1
      quantumLeft := if 0 < x.quantumLeft then x.quantumLeft - 1
        else x.quantumLeft }) h ?_ ?_ ?_
    all_goals exact fun _ => rfl
  | storeState p s => exact h.setState p s

/-- **No process runs on two CPUs** in any state of a run in which no
`try_steal_work` takes a node that is some CPU's current process. -/
theorem current_unique_of_idle_steals (n : Nat) (es : List SchedEvent)
    (hrun : Along schedStep StealsNoRunning (bootKernel n) es) :
    CurrentUnique (run schedStep (bootKernel n) es) := by
  obtain ⟨L, h⟩ := run_invariant schedOk_schedStep (schedOk_bootKernel n) hrun
  exact h.currentUnique

/-- Two CPUs. CPU 0 gets the processes 4, 6 and 8 and runs 4, so that its queue
is `[8, 6, 4]`; CPU 1 loses its own two processes and steals 6. -/
def idleStealRun : List SchedEvent :=
  [.addProcess 0 { pid := 4 }, .addProcess 0 { pid := 5 },
    .addProcess 0 { pid := 6 }, .addProcess 0 { pid := 7 },
    .addProcess 0 { pid := 8 }, .storeState 2 .blocked, .schedule 0, .schedule 1,
    .storeState 5 .zombie, .removeProcess 5, .removeProcess 7, .schedule 1]

theorem current_unique_idleStealRun :
    CurrentUnique (run schedStep (bootKernel 2) idleStealRun) ∧
      (run schedStep (bootKernel 2) idleStealRun).current 0 = some 4 ∧
      (run schedStep (bootKernel 2) idleStealRun).current 1 = some 6 :=
  ⟨current_unique_of_idle_steals 2 idleStealRun (by decide +kernel),
    by decide +kernel, by decide +kernel⟩

/-- As above without 7 and 8: once CPU 0 runs 4 its queue is `[6, 4]`, and the
node behind the head, which CPU 1 steals, is 4. -/
def stealRun : List SchedEvent :=
  [.addProcess 0 { pid := 4 }, .addProcess 0 { pid := 5 },
    .addProcess 0 { pid := 6 }, .storeState 2 .blocked, .schedule 0, .schedule 1,
    .storeState 5 .zombie, .removeProcess 5, .schedule 1]

theorem stealRun_current_shared : ¬ CurrentUnique (run schedStep (bootKernel 2) stealRun) := by
  intro h
  have h₀ : (run schedStep (bootKernel 2) stealRun).current 0 = some 4 := by decide
  have h1 : (run schedStep (bootKernel 2) stealRun).current 1 = some 4 := by decide
  exact absurd (h 0 1 4 h₀ h1) (by decide)

end UnixOs
