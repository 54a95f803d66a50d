import UnixOs.Core.Kernel
import UnixOs.Lib.Run

/-!
# Waiting for a child that exits

A parent in `sys_waitpid` (sys_proc.c:157) and its children in `process_exit`
(process.c:188), step by step. The parent sleeps in `wait_event` on its own queue
`children_wq`, on which nobody else waits. A child first wakes the queue and
signals its parent, and only then stores ZOMBIE. The machine is finer than the events of
`stateStep`, where an exit is one event, and keeps of the kernel what these two functions
look at.

- `WaitExit`: where the parent and each of its children are;
- `NoLostExit`: a parent that sleeps with a ZOMBIE to collect will be woken;
- `noLostExit_of_stepOk`: so it is, unless the parent goes to sleep while a child
  is between its `wake_all` and its store.
-/

namespace UnixOs

open Function Machine Option

/-- Where a child is in `process_exit`. -/
inductive ExitPc where
  | alive
  /-- It has looked its parent up and is about to call `wake_all`. -/
  | exiting
  /-- It has woken and signalled its parent. -/
  | notified
  | zombie
  deriving DecidableEq

/-- Where the parent is in `sys_waitpid`. -/
inductive WaitPc where
  /-- In front of a condition check. -/
  | out
  /-- The check has failed. -/
  | checked
  /-- `wait_queue_prepare` is done. -/
  | prepared
  /-- The re-check has failed, and it has called `schedule()`. -/
  | asleep
  deriving DecidableEq

/-- A parent with the children `ι`. `table` are those in the process table, in
order; `queued` tells whether the parent's entry is on `children_wq`. -/
structure WaitExit (ι : Type) where
  pc : WaitPc
  state : ProcState
  queued : Bool
  table : List ι
  child : ι → ExitPc

inductive WaitExitEvent (ι : Type) where
  /-- `copied` is false when `copy_to_user` of the status fails: `waitpid_reap`
  then leaves the child as it is. -/
  | check (copied : Bool)
  | prepare
  | recheck
  | dispatch
  | resume
  | exit (i : ι)
  | notify (i : ι)
  | store (i : ι)

namespace WaitExit

variable {ι : Type} [DecidableEq ι] (wanted : ι → Bool) (s : WaitExit ι)

/-- `process_find_child(cur->pid, pid, 1)`, where `wanted` are the children that
`pid` stands for. -/
def findZombie : Option ι :=
  s.table.find? fun i => wanted i && decide (s.child i = .zombie)

/-- What `wait_event` waits for: a ZOMBIE, or no child at all. -/
def condition : Bool := (s.findZombie wanted).isSome || !s.table.any wanted

/-- `wait_queue_finish` (waitq.c:51) by the parent. -/
def finish : WaitExit ι :=
  { s with
    queued := false
    state := if s.state = .blocked then .running else s.state }

/-- `wake_all(&parent->children_wq)`. -/
def wakeAll : WaitExit ι :=
  { s with
    queued := false
    state := if s.queued then .ready else s.state }

def setChild (i : ι) (pc : ExitPc) : WaitExit ι :=
  { s with child := update s.child i pc }

def step (s : WaitExit ι) : WaitExitEvent ι → WaitExit ι
  | .check copied =>
    if s.pc = .out then
      match s.findZombie wanted with
      | some i => { s with table := if copied then s.table.erase i else s.table }
      | none => if s.table.any wanted then { s with pc := .checked } else s
    else s
  | .prepare =>
    if s.pc = .checked then { s with pc := .prepared, queued := true, state := .blocked } else s
  | .recheck =>
    if s.pc = .prepared then
      if s.condition wanted then { s.finish with pc := .out } else { s with pc := .asleep }
    else s
  | .dispatch => { s with state := .running }
  | .resume => if s.pc = .asleep then { s.finish with pc := .out } else s
  | .exit i => if s.child i = .alive then s.setChild i .exiting else s
  | .notify i => if s.child i = .exiting then s.wakeAll.setChild i .notified else s
  | .store i => if s.child i = .notified then s.setChild i .zombie else s

/-- A parent that sleeps and has a ZOMBIE to collect is going to be woken. -/
def NoLostExit : Prop :=
  s.pc = .asleep → s.state = .blocked →
    (∃ i ∈ s.table, wanted i = true ∧ s.child i = .zombie) →
    ∃ j ∈ s.table, s.child j = .exiting

/-- When the parent goes to sleep, no child it waits for has already called
`wake_all` without having stored ZOMBIE. -/
def StepOk (s : WaitExit ι) : WaitExitEvent ι → Prop
  | .recheck => s.pc = .prepared → s.condition wanted = false →
      ∀ i ∈ s.table, wanted i = true → s.child i ≠ .notified
  | _ => True

/-- The parent is running and no child has exited. -/
def init (table : List ι) : WaitExit ι where
  pc := .out
  state := .running
  queued := false
  table := table
  child := fun _ => .alive

/-! ## The invariant -/

/-- A parent that sleeps is on its queue, and no child it waits for has called
`wake_all`. -/
def Early : Prop :=
  s.pc = .asleep → s.state = .blocked → s.queued = true ∧
    ∀ i ∈ s.table, wanted i = true → s.child i = .alive ∨ s.child i = .exiting

/-- The parent is on its queue from `prepare` to the re-check. -/
def Queued : Prop := s.pc = .prepared → s.state = .blocked → s.queued = true

variable {wanted s}

omit [DecidableEq ι] in
theorem Early.noLostExit (h : s.Early wanted) : s.NoLostExit wanted := by
  rintro hpc hblocked ⟨i, hi, hw, hz⟩
  have := (h hpc hblocked).2 i hi hw
  rw [hz] at this
  obtain hc | hc := this <;> cases hc

omit [DecidableEq ι] in
/-- A failed check has seen no ZOMBIE. -/
theorem child_of_not_condition (h : s.condition wanted = false) {i : ι} (hi : i ∈ s.table)
    (hw : wanted i = true) : s.child i ≠ .zombie := by
  rw [condition, Bool.or_eq_false_iff] at h
  intro hz
  have hnone := isSome_eq_false_iff.1 h.1
  rw [isNone_iff_eq_none, findZombie, List.find?_eq_none] at hnone
  refine hnone i hi ?_
  rw [hw, hz]
  rfl

omit [DecidableEq ι] in
/-- A parent that is neither about to re-check nor asleep. -/
theorem inv_of_pc (hpc : s.pc = .out ∨ s.pc = .checked) : s.Early wanted ∧ s.Queued := by
  constructor
  · intro h
    rw [h] at hpc
    obtain hc | hc := hpc <;> cases hc
  · intro h
    rw [h] at hpc
    obtain hc | hc := hpc <;> cases hc

/-- The store of one child, when the parent may sleep only if that child is not
one it waits for, or has not called `wake_all`. -/
theorem setChild_inv (h : s.Early wanted ∧ s.Queued) {i : ι} {pc : ExitPc}
    (hpc : s.child i = .notified ∨ pc = .exiting) :
    (s.setChild i pc).Early wanted ∧ (s.setChild i pc).Queued := by
  refine ⟨fun hasleep hblocked => ⟨(h.1 hasleep hblocked).1, fun j hj hw => ?_⟩, h.2⟩
  have hchild := (h.1 hasleep hblocked).2 j hj hw
  show update s.child i pc j = _ ∨ update s.child i pc j = _
  obtain rfl | hji := eq_or_ne j i
  · rw [update_self]
    obtain hn | rfl := hpc
    · rw [hn] at hchild
      obtain hc | hc := hchild <;> cases hc
    · exact .inr rfl
  · rw [update_of_ne hji]
    exact hchild

/-- `wake_all` leaves nobody BLOCKED on the queue. -/
theorem wakeAll_inv (h : s.Early wanted ∧ s.Queued) (i : ι) :
    (s.wakeAll.setChild i .notified).Early wanted ∧ (s.wakeAll.setChild i .notified).Queued := by
  have hstate (hq : s.state = .blocked → s.queued = true) :
      (s.wakeAll.setChild i .notified).state ≠ .blocked := by
    show (if s.queued then ProcState.ready else s.state) ≠ .blocked
    intro hblocked
    split at hblocked
    · cases hblocked
    · next hno => exact hno (hq hblocked)
  constructor
  · intro hpc hb
    exact absurd hb (hstate fun hs => (h.1 hpc hs).1)
  · intro hpc hb
    exact absurd hb (hstate (h.2 hpc))

omit [DecidableEq ι] in
/-- The step at which `StepOk` is needed: the parent goes to sleep. -/
theorem sleep_inv (h : s.Early wanted ∧ s.Queued) (hok : s.StepOk wanted .recheck)
    (hprep : s.pc = .prepared) (hcond : s.condition wanted = false) :
    ({ s with pc := .asleep } : WaitExit ι).Early wanted ∧
      ({ s with pc := .asleep } : WaitExit ι).Queued := by
  refine ⟨fun _ hblocked => ⟨h.2 hprep hblocked, fun i hi hw => ?_⟩, ?_⟩
  · cases hc : s.child i with
    | alive => exact .inl rfl
    | exiting => exact .inr rfl
    | notified => exact absurd hc (hok hprep hcond i hi hw)
    | zombie => exact absurd hc (child_of_not_condition hcond hi hw)
  · rintro ⟨⟩

/-- One case for each event; the condition is needed where the parent goes to sleep. -/
theorem step_inv (h : s.Early wanted ∧ s.Queued) {e : WaitExitEvent ι} (hok : s.StepOk wanted e) :
    (s.step wanted e).Early wanted ∧ (s.step wanted e).Queued := by
  cases e with
  | check copied =>
    simp only [step]
    split
    · next hout =>
      split
      · exact inv_of_pc (.inl hout)
      · split
        · exact inv_of_pc (.inr rfl)
        · exact h
    · exact h
  | prepare =>
    simp only [step]
    split
    · refine ⟨?_, fun _ _ => rfl⟩
      rintro ⟨⟩
    · exact h
  | recheck =>
    simp only [step]
    split
    · next hprep =>
      split
      · exact inv_of_pc (.inl rfl)
      -- here a child may be between its `wake_all` and its store
      · next hcond => exact sleep_inv h hok hprep (Bool.eq_false_iff.2 hcond)
    · exact h
  | dispatch =>
    constructor
    · rintro - ⟨⟩
    · rintro - ⟨⟩
  | resume =>
    simp only [step]
    split
    · exact inv_of_pc (.inl rfl)
    · exact h
  | exit i =>
    simp only [step]
    split
    · exact setChild_inv h (.inr rfl)
    · exact h
  | notify i =>
    simp only [step]
    split
    · exact wakeAll_inv h i
    · exact h
  | store i =>
    simp only [step]
    split
    · next hnot => exact setChild_inv h (.inl hnot)
    · exact h

/-- In every run in which the parent does not go to sleep between a child's
`wake_all` and its store of ZOMBIE, no wake-up is lost. -/
theorem noLostExit_of_stepOk (wanted : ι → Bool) (table : List ι) {es : List (WaitExitEvent ι)}
    (hrun : Along (step wanted) (StepOk wanted) (init table) es) :
    (run (step wanted) (init table) es).NoLostExit wanted := by
  have hinit : (init table).Early wanted ∧ (init table).Queued := inv_of_pc (.inl rfl)
  have hstep : ∀ (s : WaitExit ι) e, s.Early wanted ∧ s.Queued → s.StepOk wanted e →
      (s.step wanted e).Early wanted ∧ (s.step wanted e).Queued :=
    fun s e h hok => step_inv h hok
  exact (run_invariant hstep hinit hrun).1.noLostExit

/-- A parent goes to sleep before its child exits. -/
def sleepFirst : List (WaitExitEvent Unit) :=
  [.check true, .prepare, .recheck, .exit (), .notify (), .store (), .dispatch, .resume,
    .check true]

theorem noLostExit_sleepFirst :
    Along (step fun _ => true) (StepOk fun _ => true) (init [()]) sleepFirst ∧
      (run (step fun _ => true) (init [()]) sleepFirst).NoLostExit fun _ => true := by
  have hrun : Along (step fun _ => true) (StepOk fun _ => true) (init [()]) sleepFirst := by
    refine ⟨trivial, trivial, fun _ _ i _ _ => ?_, trivial, trivial, trivial, trivial, trivial,
      trivial, trivial⟩
    exact (by decide : ExitPc.alive ≠ .notified)
  exact ⟨hrun, noLostExit_of_stepOk (fun _ => true) [()] hrun⟩

/-- A child has woken its parent, which does not wait yet; the parent finds no
ZOMBIE and goes to sleep; then the child stores ZOMBIE. -/
def wakeFirst : List (WaitExitEvent Unit) :=
  [.exit (), .notify (), .check true, .prepare, .recheck, .store ()]

theorem wakeFirst_loses_exit :
    ¬ (run (step fun _ => true) (init [()]) wakeFirst).NoLostExit fun _ => true := by
  intro h
  obtain ⟨j, -, hj⟩ := h (by decide) (by decide) ⟨(), by decide⟩
  cases j
  exact absurd hj (by decide)

end WaitExit

end UnixOs
