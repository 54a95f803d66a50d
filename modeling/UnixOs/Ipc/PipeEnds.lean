import UnixOs.Fs.DescriptorCounts

/-!
# The ends of pipes that are open

The counters `readers` and `writers` decide what a read of an empty pipe and a
write come to, and when the pipe is freed. They are the numbers of open ends only
in runs in which no end is copied or dropped without being counted.
-/

namespace UnixOs.Files

open Machine

variable {S : Files}

/-- Some live process has a descriptor of this end. -/
def EndOpen (S : Files) (id : Nat) (w : Bool) : Prop :=
  ∃ p q fd, S.live p = some q ∧ (q.fds fd).object = some (.pipeEnd id w)

/-- The counters are the numbers of open ends, and with them what reads and writes
return and how long a pipe exists. -/
structure PipesCounted (S : Files) : Prop where
  count : ∀ id w, S.pipes.endCount id w = refCount S.ref (.pipeEnd id w)
  eof : ∀ {id P}, S.pipes.pipes id = some P → ∀ {count signal}, 0 < count →
    ((P.readBuffer count signal).2 = .ret 0 ↔ P.data = [] ∧ ¬ S.EndOpen id true)
  epipe : ∀ {id P}, S.pipes.pipes id = some P → ∀ {bytes signal},
    ((P.writeBuffer bytes signal).2 = .ret (-Errno.EPIPE) ↔ ¬ S.EndOpen id false)
  exists_iff : ∀ id, (∃ P, S.pipes.pipes id = some P ∧ P.freed = false) ↔ ∃ w, S.EndOpen id w

theorem endOpen_iff {id : Nat} {w : Bool} :
    S.EndOpen id w ↔ 0 < refCount S.ref (.pipeEnd id w) := by
  constructor
  · rintro ⟨p, q, fd, hq, hobj⟩
    exact refCount.pos_of_mem (s := (p, fd)) ((ref_of_live hq fd).trans hobj)
  · intro h
    obtain ⟨⟨p, fd⟩, href⟩ := refCount.exists_of_pos h
    obtain ⟨q, hq, hobj⟩ := Option.bind_eq_some_iff.1 href
    exact ⟨p, q, fd, hq, hobj⟩

/-- The counts of the descriptors, read as those of the pipe. -/
theorem FdInv.pipesCounted (h : FdInv (fun a => a.isFile = false) S) : PipesCounted S := by
  have hcount : ∀ id w, S.pipes.endCount id w = refCount S.ref (.pipeEnd id w) :=
    fun id w => h.balanced (.pipeEnd id w) rfl
  have hids := h.ids (.pipeEnd 0 true) rfl rfl
  -- For a pipe that is registered its own counters tell which ends are open.
  have hopen : ∀ {id P w}, S.pipes.pipes id = some P → (P.ends w = 0 ↔ ¬ S.EndOpen id w) := by
    intro id P w hP
    rw [endOpen_iff, ← hcount, PipeRegistry.endCount_of_some hP]
    exact Nat.pos_iff_ne_zero.not.trans Decidable.not_not |>.symm
  constructor
  · exact hcount
  · intro id P hP count signal hpos
    rw [Pipe.readBuffer_eof_iff hpos, ← hopen hP]
    rfl
  · intro id P hP bytes signal
    rw [Pipe.writeBuffer_epipe_iff, ← hopen hP]
    rfl
  · intro id
    constructor
    · rintro ⟨P, hP, -⟩
      obtain ⟨-, w, hw⟩ := hids.kept hP
      refine ⟨w, endOpen_iff.2 ?_⟩
      rwa [← hcount, PipeRegistry.endCount_of_some hP]
    · rintro ⟨w, hw⟩
      rw [endOpen_iff, ← hcount, PipeRegistry.endCount] at hw
      cases hP : S.pipes.pipes id with
      | none =>
        rw [hP] at hw
        cases hw
      | some P => exact ⟨P, rfl, (hids.kept hP).1⟩

/-- In every run whose steps are allowed, the counters of every pipe are the
numbers of its open ends. -/
theorem pipesCounted_of_stepOk {es : List FdEvent}
    (hrun : Along fdStep (StepOk fun a => a.isFile = false) boot es) :
    PipesCounted (run fdStep boot es) :=
  (fdInv_run hrun).pipesCounted

/-- A process makes a pipe, writes to it, closes the write end, reads, closes the
read end and exits. -/
def pipeRun : List FdEvent :=
  [.create true, .pipe firstSlot true 0, .write firstSlot fd4 [7, 8] true 0 false,
    .close firstSlot fd4, .read firstSlot fd3 2 true false, .close firstSlot fd3, .exit firstSlot]

/-- A run with a pipe. -/
theorem pipesCounted_pipeRun :
    Along fdStep (StepOk fun a => a.isFile = false) boot pipeRun ∧
      PipesCounted (run fdStep boot pipeRun) := by
  have hpipe : StepOk (fun a => a.isFile = false) (run fdStep boot [.create true])
      (.pipe firstSlot true 0) :=
    fun _ _ _ _ _ _ => by decide +kernel
  have hexit : StepOk (fun a => a.isFile = false) (run fdStep boot (pipeRun.take 6))
      (.exit firstSlot) := by
    intro q hq _ fd a ha
    have hnone := test_of_live (f := fun q => ∀ fd, (q.fds fd).object = none) (by decide +kernel) hq
    rw [of_decide_eq_true hnone fd] at ha
    cases ha
  have hrun : Along fdStep (StepOk fun a => a.isFile = false) boot pipeRun :=
    ⟨trivial, hpipe, trivial, trivial, trivial, trivial, hexit, trivial⟩
  exact ⟨hrun, pipesCounted_of_stepOk hrun⟩

/-- A process makes a pipe and forks. -/
def forkRun : List FdEvent :=
  [.create true, .pipe firstSlot true 0, .fork firstSlot false]

/-- Parent and child have both ends, and each is counted once. -/
theorem fork_not_counted : ¬ PipesCounted (run fdStep boot forkRun) := by
  intro h
  have hone : (run fdStep boot forkRun).pipes.endCount 1 false = 1 := by decide +kernel
  have hparent : (run fdStep boot forkRun).ref (firstSlot, fd3)
      = some (.pipeEnd 1 false) := by decide +kernel
  have hchild : (run fdStep boot forkRun).ref (⟨2, by decide⟩, fd3)
      = some (.pipeEnd 1 false) := by decide +kernel
  have hle := h.count 1 false
  rw [hone] at hle
  cases refCount.unique hle.ge hparent hchild

end UnixOs.Files
