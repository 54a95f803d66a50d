import UnixOs.Ipc.PipeRing

/-!
# Sleeping on a pipe

Any number of parties read from, write to and close one pipe. A party that cannot
go on links itself on the wait queue of its end and blocks while it still has the
lock of the pipe; whoever changes what it waits for calls `wake_all` after the lock
is given up. The steps are the sections under a lock and the calls of `wake_all`,
and a party that sleeps may be scheduled again at any time.

- `PipeQueue.Ready`: what the parties on a queue wait for;
- `section_spec`: what one section does to it;
- `PipeSystem.Awake`: a blocked party is on its queue, and has either nothing to go
  on with or a `wake_all` of the queue to come;
- `no_lost_wakeup`: this holds in every reachable state.
-/

namespace UnixOs

open Function List Machine

open BlockDevice

/-- `rd_wq` and `wr_wq`. -/
inductive PipeQueue where
  | rd
  | wr
  deriving DecidableEq

/-- A call of `pipe_read_buffer` or `pipe_write_buffer`. -/
inductive PipeCall where
  | read (n : Nat)
  | write (bytes : List (BitVec 8))

namespace PipeCall

/-- The queue a call sleeps on. -/
def queue : PipeCall → PipeQueue
  | .read _ => .rd
  | .write _ => .wr

/-- The queue a call wakes. -/
def wakes : PipeCall → PipeQueue
  | .read _ => .wr
  | .write _ => .rd

/-- A section of the call with the lock held. -/
def runSection (c : PipeCall) (b : PipeBuffer) (woken signal : Bool) : PipeBuffer × PipeResult :=
  match c with
  | .read n => ((b.readSection woken n signal).1, (b.readSection woken n signal).2.1)
  | .write bytes => ((b.writeSection woken bytes signal).1, (b.writeSection woken bytes signal).2.1)

end PipeCall

/-- What the parties on a queue wait for (pipe.c:134, pipe.c:183). -/
def PipeQueue.Ready (b : PipeBuffer) : PipeQueue → Prop
  | .rd => b.ring.count > 0 ∨ b.writers = 0
  | .wr => b.ring.count < b.ring.size ∨ b.readers = 0

/-- Where a party is. After the lock was given up it has calls of `wake_all` to
make (`waking`), or it is on its way through `schedule()` (`asleep`) and, after
`wait_queue_finish`, back to the lock (`woken`). -/
inductive PipePc where
  | idle
  | asleep (c : PipeCall)
  | woken (c : PipeCall)
  | waking (todo : List PipeQueue)

/-- A pipe with the parties `ι`. An entry of a queue is named by its party. -/
structure PipeSystem (ι : Type) where
  buffer : PipeBuffer
  queue : PipeQueue → List ι
  pc : ι → PipePc
  state : ι → ProcState

/-- The steps of the party `i`. -/
inductive PipeStep (ι : Type) where
  | call (i : ι) (c : PipeCall) (signal : Bool)
  | close (i : ι) (isWriteEnd : Bool)
  | dispatch (i : ι)
  | finish (i : ι)
  | retry (i : ι) (signal : Bool)
  | wake (i : ι)

namespace PipeSystem

variable {ι : Type} [DecidableEq ι] (s : PipeSystem ι)

def setPc (i : ι) (pc : PipePc) : PipeSystem ι := { s with pc := update s.pc i pc }

def setState (i : ι) (st : ProcState) : PipeSystem ι :=
  { s with state := update s.state i st }

/-- `wait_queue_prepare` (waitq.c:32). -/
def prepare (i : ι) (q : PipeQueue) : PipeSystem ι :=
  { s with queue := update s.queue q (i :: s.queue q) }.setState i .blocked

/-- `wait_queue_finish` (waitq.c:51). -/
def finishWait (i : ι) (q : PipeQueue) : PipeSystem ι :=
  let s := { s with queue := update s.queue q ((s.queue q).erase i) }
  if s.state i = .blocked then s.setState i .running else s

/-- `wake_all` (waitq.c:73) as one step. -/
def wakeAll (q : PipeQueue) : PipeSystem ι :=
  { s with
    queue := update s.queue q []
    state := fun j => if j ∈ s.queue q then .ready else s.state j }

/-- A section of a call of the party `i`, up to where the lock is given up. -/
def runSection (i : ι) (c : PipeCall) (woken signal : Bool) : PipeSystem ι :=
  match c.runSection s.buffer woken signal with
  | (b, .sleep) => (({ s with buffer := b }.prepare i c.queue)).setPc i (.asleep c)
  | (b, .ret v) =>
    { s with buffer := b }.setPc i (if 0 < v then .waking [c.wakes] else .idle)

def step : PipeStep ι → PipeSystem ι
  | .call i c signal =>
    match s.pc i with
    | .idle => s.runSection i c false signal
    | _ => s
  | .close i isWriteEnd =>
    match s.pc i with
    | .idle => { s with buffer := s.buffer.dropEnd isWriteEnd }.setPc i (.waking [.rd, .wr])
    | _ => s
  | .dispatch i => s.setState i .running
  | .finish i =>
    match s.pc i with
    | .asleep c => (s.finishWait i c.queue).setPc i (.woken c)
    | _ => s
  | .retry i signal =>
    match s.pc i with
    | .woken c => s.runSection i c true signal
    | _ => s
  | .wake i =>
    match s.pc i with
    | .waking [] => s.setPc i .idle
    | .waking (q :: todo) => (s.wakeAll q).setPc i (.waking todo)
    | _ => s

/-- Nobody has called yet. -/
def init (b : PipeBuffer) (state : ι → ProcState) : PipeSystem ι where
  buffer := b
  queue := fun _ => []
  pc := fun _ => .idle
  state := state

/-- Some party still has to call `wake_all` for `q`. -/
def Pending (q : PipeQueue) : Prop := ∃ j todo, s.pc j = .waking todo ∧ q ∈ todo

/-- A party that is blocked is on its queue, and it is blocked for a reason or
about to be woken. -/
def Awake : Prop :=
  ∀ i c, s.pc i = .asleep c → s.state i = .blocked →
    i ∈ s.queue c.queue ∧ (c.queue.Ready s.buffer → s.Pending c.queue)

end PipeSystem

/-! ## One section -/

namespace PipeCall

variable {c : PipeCall} {b : PipeBuffer} {signal : Bool}

/-- What a section does: it sleeps only if its queue is not ready, it makes its own
queue ready only if it was, and without a positive result nothing changes for
either queue. -/
structure SectionSpec (c : PipeCall) (b : PipeBuffer) (out : PipeBuffer × PipeResult) : Prop where
  sleep : out.2 = .sleep → ¬ c.queue.Ready out.1
  own : c.queue.Ready out.1 → c.queue.Ready b
  other : (∀ v, out.2 = .ret v → ¬ 0 < v) → ∀ q : PipeQueue, q.Ready out.1 → q.Ready b

/-- A section that leaves the buffer as it is. -/
theorem SectionSpec.same {r : PipeResult} (h : r = .sleep → ¬ c.queue.Ready b) :
    SectionSpec c b (b, r) :=
  ⟨h, fun hr => hr, fun _ _ hr => hr⟩

theorem SectionSpec.ret (v : Int) : SectionSpec c b (b, .ret v) := by
  refine .same ?_
  rintro ⟨⟩

/-- Reading from a pipe that is not empty. -/
theorem readCopy_spec {n : Nat} (hne : b.ring.count ≠ 0) : SectionSpec (.read n) b
    ((b.readCopy n).1, (b.readCopy n).2.1) := by
  constructor
  · rintro ⟨⟩
  · exact fun _ => .inl (Nat.pos_of_ne_zero hne)
  · -- Nothing was read, so the number of bytes is the same.
    intro hno q hready
    have hzero : (if n < b.ring.count then n else b.ring.count) = 0 := by
      have := hno _ rfl
      omega
    cases q with
    | rd => exact .inl (Nat.pos_of_ne_zero hne)
    | wr =>
      refine hready.imp (fun hlt => ?_) fun hr => hr
      replace hlt : b.ring.count - (if n < b.ring.count then n else b.ring.count) < b.ring.size :=
        hlt
      omega

/-- What the loop of a write has done when it stops. -/
theorem writeLoop_spec {bytes : List (BitVec 8)} : SectionSpec (.write bytes) b
    ((b.writeLoop bytes signal).1, (b.writeLoop bytes signal).2.1) := by
  rw [PipeBuffer.writeLoop]
  split
  · split
    · exact .ret _
    next hr =>
    split
    · exact .ret _
    split
    · exact .ret _
    · refine .same fun _ hready => ?_
      obtain hlt | hzero := hready
      · omega
      · exact hr hzero
  · have hcount : (b.writeCopy bytes).1.ring.count = b.ring.count
        + (bytes.take (if bytes.length < b.ring.size - b.ring.count then bytes.length
          else b.ring.size - b.ring.count)).length := rfl
    rw [length_take] at hcount
    constructor
    · rintro ⟨⟩
    · intro hready
      refine hready.imp (fun hlt => ?_) fun hr => hr
      replace hlt : (b.writeCopy bytes).1.ring.count < b.ring.size := hlt
      omega
    · -- Nothing was accepted, so the number of bytes is the same.
      intro hno q hready
      have hzero : (if bytes.length < b.ring.size - b.ring.count then bytes.length
          else b.ring.size - b.ring.count) = 0 := by
        have := hno _ rfl
        omega
      rw [hzero] at hcount
      cases q with
      | rd =>
        refine hready.imp (fun hpos => ?_) fun hw => hw
        replace hpos : (b.writeCopy bytes).1.ring.count > 0 := hpos
        omega
      | wr =>
        refine hready.imp (fun hlt => ?_) fun hr => hr
        replace hlt : (b.writeCopy bytes).1.ring.count < b.ring.size := hlt
        omega

/-- What a call has found when it goes to sleep or returns. -/
theorem section_spec (c : PipeCall) (b : PipeBuffer) (woken signal : Bool) :
    SectionSpec c b (c.runSection b woken signal) := by
  cases c with
  | read n =>
    rw [PipeCall.runSection]
    obtain ⟨r, hidle, -, hsleep⟩ | ⟨hne, hcopy⟩ := b.readSection_cases woken n signal
    · rw [hidle]
      exact .same hsleep
    · rw [hcopy]
      exact readCopy_spec hne
  | write bytes =>
    rw [PipeCall.runSection, PipeBuffer.writeSection]
    split
    · split
      · exact writeLoop_spec
      · next hno => exact .same fun _ => hno
    split
    · exact .ret _
    · exact writeLoop_spec

end PipeCall

/-! ## One step -/

namespace PipeSystem

variable {ι : Type} [DecidableEq ι] {s s' : PipeSystem ι} {i : ι} {q : PipeQueue}

/-- A party that is not `i` is where it was. -/
theorem pc_setPc_of_ne {j : ι} {pc : PipePc} (h : j ≠ i) : (s.setPc i pc).pc j = s.pc j :=
  update_of_ne h ..

theorem pc_setPc_self {pc : PipePc} : (s.setPc i pc).pc i = pc := update_self ..

theorem ne_of_pc_setPc {pc pc' : PipePc} (hj : (s.setPc i pc).pc j = pc') (hne : pc ≠ pc') :
    j ≠ i := by
  rintro rfl
  exact hne (pc_setPc_self.symm.trans hj)

/-- A call of `wake_all` that is still to come is not lost by the step of a party
that has none. -/
theorem Pending.setPc (h : s.Pending q) (hi : ∀ todo, s.pc i = .waking todo → q ∉ todo)
    (pc : PipePc) (hpc : s'.pc = s.pc) : (s'.setPc i pc).Pending q := by
  obtain ⟨j, todo, hj, hq⟩ := h
  have hne : j ≠ i := by
    rintro rfl
    exact hi todo hj hq
  exact ⟨j, todo, by rw [pc_setPc_of_ne hne, hpc, hj], hq⟩

section

variable (h : s.Awake)
include h

/-- A section keeps the invariant. -/
theorem Awake.runSection {c : PipeCall} {woken signal : Bool}
    (hi : ∀ todo, s.pc i ≠ .waking todo) : (s.runSection i c woken signal).Awake := by
  have hspec := c.section_spec s.buffer woken signal
  rw [PipeSystem.runSection]
  generalize c.runSection s.buffer woken signal = out at hspec
  obtain ⟨b, r⟩ := out
  have hpend : ∀ {q : PipeQueue} (s' : PipeSystem ι) (pc : PipePc), s.Pending q →
      s'.pc = s.pc → (s'.setPc i pc).Pending q :=
    fun s' pc hq hpc => hq.setPc (fun todo ht => absurd ht (hi todo)) pc hpc
  cases r with
  | sleep =>
    intro j d hj hblocked
    by_cases hji : j = i
    · -- The party itself: it is on the queue, and there is nothing to go on with.
      subst hji
      obtain rfl := PipePc.asleep.inj (pc_setPc_self.symm.trans hj)
      refine ⟨?_, fun hready => absurd hready (hspec.sleep rfl)⟩
      show j ∈ update s.queue c.queue _ c.queue
      rw [update_self]
      exact mem_cons_self
    · rw [pc_setPc_of_ne hji] at hj
      have hblocked' : s.state j = .blocked := by
        rw [← hblocked]
        exact (update_of_ne hji ..).symm
      obtain ⟨hmem, hready⟩ := h j d hj hblocked'
      refine ⟨?_, fun hr => hpend _ _ (hready ?_) rfl⟩
      · show j ∈ update s.queue c.queue _ d.queue
        by_cases hq : d.queue = c.queue
        · rw [hq, update_self]
          exact .tail _ (hq ▸ hmem)
        · rw [update_of_ne hq]
          exact hmem
      · refine hspec.other ?_ d.queue hr
        rintro v ⟨⟩
  | ret v =>
    intro j d hj hblocked
    have hji := ne_of_pc_setPc hj (by split <;> nofun)
    rw [pc_setPc_of_ne hji] at hj
    obtain ⟨hmem, hready⟩ := h j d hj hblocked
    refine ⟨hmem, fun hr => ?_⟩
    replace hr : d.queue.Ready b := hr
    by_cases hv : 0 < v
    · by_cases hq : d.queue = c.queue
      · -- Its own queue was ready before.
        rw [hq] at hr hready ⊢
        exact hpend _ _ (hready (hspec.own hr)) rfl
      · -- The other queue is about to be woken.
        refine ⟨i, [c.wakes], ?_, ?_⟩
        · rw [pc_setPc_self, if_pos hv]
        · cases c <;> cases d <;> first | exact absurd rfl hq | exact mem_cons_self
    · exact hpend _ _ (hready (hspec.other (fun w hw => by
        cases hw
        exact hv) d.queue hr)) rfl

/-- What the scheduler and `wait_queue_finish` do to the state of a party keeps the
invariant if it does not block it. -/
theorem Awake.setState {st : ProcState} (hst : st ≠ .blocked) : (s.setState i st).Awake := by
  intro j d hj hblocked
  have hji : j ≠ i := by
    rintro rfl
    exact hst ((update_self ..).symm.trans hblocked)
  have hblocked' : s.state j = .blocked := by
    rw [← hblocked]
    exact (update_of_ne hji ..).symm
  exact h j d hj hblocked'

/-- A waiter that wakes is off its queue and looks at the ring again. -/
theorem Awake.finish {c : PipeCall} (hi : s.pc i = .asleep c) :
    ((s.finishWait i c.queue).setPc i (.woken c)).Awake := by
  have hpc : (s.finishWait i c.queue).pc = s.pc := by
    rw [finishWait]
    split <;> rfl
  have hstate : ∀ j, j ≠ i → (s.finishWait i c.queue).state j = s.state j := by
    intro j hji
    rw [finishWait]
    split
    · exact update_of_ne hji ..
    · rfl
  have hqueue : (s.finishWait i c.queue).queue
      = update s.queue c.queue ((s.queue c.queue).erase i) := by
    rw [finishWait]
    split <;> rfl
  have hbuffer : (s.finishWait i c.queue).buffer = s.buffer := by
    rw [finishWait]
    split <;> rfl
  intro j d hj hblocked
  have hji := ne_of_pc_setPc hj nofun
  rw [pc_setPc_of_ne hji, hpc] at hj
  obtain ⟨hmem, hready⟩ := h j d hj ((hstate j hji).symm.trans hblocked)
  refine ⟨?_, fun hr => ?_⟩
  · show j ∈ (s.finishWait i c.queue).queue d.queue
    rw [hqueue]
    by_cases hq : d.queue = c.queue
    · rw [hq, update_self]
      exact (mem_erase_of_ne hji).2 (hq ▸ hmem)
    · rw [update_of_ne hq]
      exact hmem
  · refine (hready ?_).setPc (fun todo ht => ?_) _ hpc
    · rw [← hbuffer]
      exact hr
    · rw [hi] at ht
      cases ht

/-- After a whole `wake_all` nobody on the queue is blocked. -/
theorem Awake.wake {todo : List PipeQueue} (hi : s.pc i = .waking (q :: todo)) :
    ((s.wakeAll q).setPc i (.waking todo)).Awake := by
  intro j d hj hblocked
  have hji := ne_of_pc_setPc hj nofun
  rw [pc_setPc_of_ne hji] at hj
  replace hblocked : (if j ∈ s.queue q then ProcState.ready else s.state j) = .blocked := hblocked
  split at hblocked
  · cases hblocked
  next hnot =>
  obtain ⟨hmem, hready⟩ := h j d hj hblocked
  have hq : d.queue ≠ q := fun hq => hnot (hq ▸ hmem)
  refine ⟨?_, fun hr => ?_⟩
  · show j ∈ update s.queue q [] d.queue
    rw [update_of_ne hq]
    exact hmem
  · obtain ⟨k, todo', hk, hin⟩ := hready hr
    by_cases hki : k = i
    · -- The waker itself has this queue still to do.
      subst hki
      obtain rfl := PipePc.waking.inj (hi.symm.trans hk)
      exact ⟨k, todo, pc_setPc_self, (mem_cons.1 hin).resolve_left hq⟩
    · exact ⟨k, todo', (pc_setPc_of_ne hki).trans hk, hin⟩

/-- One case for each step. -/
theorem Awake.step (e : PipeStep ι) : (s.step e).Awake := by
  cases e with
  | call i c signal =>
    rw [PipeSystem.step]
    split
    · next hi => exact h.runSection fun todo ht => by rw [hi] at ht; cases ht
    · exact h
  | close i isWriteEnd =>
    rw [PipeSystem.step]
    split
    · -- Both queues are about to be woken.
      intro j d hj hblocked
      have hji := ne_of_pc_setPc hj nofun
      rw [pc_setPc_of_ne hji] at hj
      refine ⟨(h j d hj hblocked).1, fun _ => ⟨i, [.rd, .wr], pc_setPc_self, ?_⟩⟩
      cases d.queue <;> decide
    · exact h
  | dispatch i => exact h.setState (by decide)
  | finish i =>
    rw [PipeSystem.step]
    split
    · next c hi => exact h.finish hi
    · exact h
  | retry i signal =>
    rw [PipeSystem.step]
    split
    · next c hi => exact h.runSection fun todo ht => by rw [hi] at ht; cases ht
    · exact h
  | wake i =>
    rw [PipeSystem.step]
    split
    · next hi =>
      intro j d hj hblocked
      have hji := ne_of_pc_setPc hj nofun
      rw [pc_setPc_of_ne hji] at hj
      obtain ⟨hmem, hready⟩ := h j d hj hblocked
      refine ⟨hmem, fun hr => (hready hr).setPc (fun todo ht => ?_) _ rfl⟩
      rw [hi] at ht
      cases ht
      exact not_mem_nil
    · next q todo hi => exact h.wake hi
    · exact h

end

/-! ## Every interleaving -/

/-- No wake-up is lost: in every state that the parties can reach, a party that is
blocked in a read has no data and a writer, or a `wake_all` of the readers is still
to come; and dually for a party blocked in a write. -/
theorem no_lost_wakeup (b : PipeBuffer) (state : ι → ProcState) (es : List (PipeStep ι)) :
    let s := run step (init b state) es
    (∀ i n, s.pc i = .asleep (.read n) → s.state i = .blocked →
      (s.buffer.ring.count = 0 ∧ s.buffer.writers ≠ 0) ∨ s.Pending .rd) ∧
    ∀ i bytes, s.pc i = .asleep (.write bytes) → s.state i = .blocked →
      (s.buffer.ring.size ≤ s.buffer.ring.count ∧ s.buffer.readers ≠ 0) ∨ s.Pending .wr := by
  have hrun : (run step (init b state) es).Awake := by
    have hstep : ∀ (s : PipeSystem ι) e, s.Awake → (s.step e).Awake := fun _ e h => h.step e
    refine run_always hstep (fun i c hi => ?_) es
    cases hi
  have hcases : ∀ {i c}, (run step (init b state) es).pc i = .asleep c →
      (run step (init b state) es).state i = .blocked →
      ¬ c.queue.Ready (run step (init b state) es).buffer ∨
        (run step (init b state) es).Pending c.queue := by
    intro i c hi hblocked
    exact or_iff_not_imp_left.2 fun hready => (hrun i c hi hblocked).2 (not_not.1 hready)
  refine ⟨fun i n hi hblocked => (hcases hi hblocked).imp_left fun hno => ?_,
    fun i bytes hi hblocked => (hcases hi hblocked).imp_left fun hno => ?_⟩
  · exact ⟨Nat.eq_zero_of_not_pos fun hpos => hno (.inl hpos), fun hw => hno (.inr hw)⟩
  · exact ⟨not_lt.1 fun hlt => hno (.inl hlt), fun hr => hno (.inr hr)⟩

end PipeSystem

end UnixOs
