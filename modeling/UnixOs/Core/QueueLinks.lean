import UnixOs.Core.StateSteps
import UnixOs.Core.SchedCurrent

/-!
# Which processes are linked

The set of processes on some run queue, read off the node lists: rotating a
queue, stealing and demoting lose nobody.

- `Queued.onQueue_iff`, `Queued.linked_iff`: being reached from a head is being
  on a node list;
- `linked_schedule`: `schedule` loses no process, and links the one whose
  quantum ran out.
-/

namespace UnixOs

open List Kernel

open CircularList

/-- `p` is on queue `q` of CPU `c`. -/
inductive Kernel.OnQueue (k : Kernel) (c q : Nat) : Ptr → Prop
  | head {p : Ptr} : k.rqHead c q = some p → OnQueue k c q p
  | next {p p' : Ptr} : OnQueue k c q p → k.next p = some p' → OnQueue k c q p'

/-! ## Links and node lists -/

namespace Queued

variable {k k' : Kernel} {L L' : Nat → Nat → List Ptr} {c q : Nat} {p : Ptr}

theorem onQueue_iff (h : Queued k L) : k.OnQueue c q p ↔ p ∈ L c q := by
  constructor
  · intro hp
    induction hp with
    | head hh => exact h.head_mem hh
    | next _ hn ih => exact (h.ring c q).next_mem ih hn
  · exact (h.ring c q).forall_mem (fun _ => .head) (fun _ _ => .next) p

theorem linked_iff (h : Queued k L) : k.Linked p ↔ ∃ c q, p ∈ L c q := by
  constructor
  · intro hp
    induction hp with
    | @head c q p hh => exact ⟨c, q, h.head_mem hh⟩
    | next _ hn ih =>
      obtain ⟨c, q, hp⟩ := ih
      exact ⟨c, q, (h.ring c q).next_mem hp hn⟩
  · rintro ⟨c, q, hp⟩
    exact (h.ring c q).forall_mem (fun _ => .head) (fun _ _ => .next) p hp

/-- A step that loses no node of any list loses no linked process. -/
theorem linked_mono (h : Queued k L) (h' : Queued k' L')
    (hmem : ∀ {c q}, p ∈ L c q → ∃ c' q', p ∈ L' c' q') (hp : k.Linked p) : k'.Linked p := by
  obtain ⟨c, q, hp⟩ := h.linked_iff.1 hp
  exact h'.linked_iff.2 (hmem hp)

/-- Replacing one list by one with at least its nodes. -/
theorem linked_setQueue {l : List Ptr} (h : Queued k L) (h' : Queued k' (setQueue L c q l))
    (hl : p ∈ L c q → p ∈ l) (hp : k.Linked p) : k'.Linked p := by
  refine h.linked_mono h' (fun {c' q'} hp => ⟨c', q', ?_⟩) hp
  by_cases hcq : c' = c ∧ q' = q
  · obtain ⟨rfl, rfl⟩ := hcq
    rw [setQueue_self]
    exact hl hp
  · rwa [setQueue_of_ne hcq]

theorem linked_rotate {a : Ptr} (h : Queued k L) (hh : k.rqHead c q = some a) (hp : k.Linked p) :
    (k.setHead c q (k.next a)).Linked p :=
  h.linked_setQueue (queued_rotate h hh) mem_rotate.mpr hp

theorem linked_addToQueue {x : Ptr} (h : Queued k L) (hout : ∀ c q, x ∉ L c q)
    (halloc : x < k.nproc) (c : Nat) (queue : Int) :
    (k.Linked p → (k.addToQueue c x queue).Linked p) ∧ (k.addToQueue c x queue).Linked x := by
  have h' : Queued (k.addToQueue c x queue) _ := queued_addToQueue h hout halloc
  refine ⟨h.linked_setQueue h' fun hp => mem_insertBehind.2 (.inr hp), ?_⟩
  refine h'.linked_iff.2 ⟨c, clampQueue queue, ?_⟩
  rw [setQueue_self]
  exact mem_insertBehind.2 (.inl rfl)

theorem linked_removeFromQueue {x : Ptr} (h : Queued k L) (hpx : p ≠ x) (hp : k.Linked p) :
    (k.removeFromQueue c x).Linked p := by
  by_cases hx : ∃ q, x ∈ L c q
  · obtain ⟨q, hx⟩ := hx
    exact h.linked_setQueue (queued_removeFromQueue h hx) (fun hp => (mem_erase_of_ne hpx).2 hp) hp
  · rw [removeFromQueue_of_notMem h fun q hq => hx ⟨q, hq⟩]
    exact hp

/-- Every process stays linked when one is stolen. -/
theorem linked_stealNode {a x : Ptr} (h : Queued k L)
    (hs : k.stealCandidate c = some (a, x)) (hp : k.Linked p) : (k.stealNode c a x).Linked p := by
  obtain ⟨v, q, t, hv, hl⟩ := stealCandidate_eq h hs
  refine h.linked_mono (queued_stealNode h hv hl) (fun {c' q'} hp => ?_) hp
  have hxq : x ∈ stolenQueues L c v q x c q := by
    rw [stolenQueues, setQueue_self]
    exact mem_insertBehind.2 (.inl rfl)
  by_cases hpx : p = x
  · exact ⟨c, q, hpx ▸ hxq⟩
  refine ⟨c', q', ?_⟩
  unfold stolenQueues
  by_cases hcq : c' = c ∧ q' = q
  · obtain ⟨rfl, rfl⟩ := hcq
    rw [setQueue_self]
    exact mem_insertBehind.2 (.inr hp)
  rw [setQueue_of_ne hcq]
  by_cases hvq : c' = v ∧ q' = q
  · obtain ⟨rfl, rfl⟩ := hvq
    rw [setQueue_self]
    exact (mem_erase_of_ne hpx).2 hp
  · rwa [setQueue_of_ne hvq]

end Queued

theorem linked_of_same {k k' : Kernel} {p : Ptr} (hhead : k'.rqHead = k.rqHead)
    (hnext : k'.next = k.next) (hp : k.Linked p) : k'.Linked p := by
  have hclosed : Closed k k'.Linked := (closed_linked k').of_same hhead.symm hnext.symm
  exact hclosed.linked hp

/-! ## `schedule` loses nobody -/

section Schedule

variable {k : Kernel} {c : Nat} {p : Ptr}

section

variable (h : SchedOk k) (hp : k.Linked p)
include h hp

theorem linked_pickOwn : (k.pickOwn c).1.Linked p := by
  obtain ⟨L, h⟩ := h
  obtain he | ⟨q, a, hh, he⟩ := (k.pickOwn_cases c).1
  · rw [he]
    exact hp
  · rw [he]
    exact h.queued.linked_rotate hh hp

theorem linked_tryStealWork : (k.tryStealWork c).1.Linked p := by
  obtain ⟨L, h⟩ := h
  dsimp only [tryStealWork]
  split
  · exact hp
  have h1 : Queued (k.modCpu c fun x => { x with lastStealTick := (k.cpu c).schedTicks }) L :=
    h.queued.of_same rfl (by simp) rfl le_rfl
  have hp1 : (k.modCpu c fun x => { x with lastStealTick := (k.cpu c).schedTicks }).Linked p :=
    linked_of_same (by simp) (by rfl) hp
  split
  · exact hp1
  · next a x hs => exact h1.linked_stealNode hs hp1

/-- And when the next one is picked. -/
theorem linked_pickNextOrIdle : (k.pickNextOrIdle c).1.Linked p := by
  have hown := h.pickOwn (c := c)
  have hp1 := linked_pickOwn (c := c) h hp
  unfold pickNextOrIdle
  generalize k.pickOwn c = r at hown hp1
  obtain ⟨k1, ⟨proc, queue⟩⟩ := r
  cases proc with
  | some a => exact hp1
  | none =>
    have hp2 := linked_tryStealWork (c := c) hown hp1
    dsimp only at hp2 ⊢
    generalize k1.tryStealWork c = r at hp2
    obtain ⟨k2, taken⟩ := r
    cases taken <;> exact hp2

end

/-- Demotion takes the current process off its queue, if it is on one, and links
it. -/
theorem linked_demoteQuantumExhausted (h : SchedOk k) :
    (k.Linked p → (k.demoteQuantumExhausted c).Linked p) ∧
      (k.current c = some p → k.idle c ≠ some p → k.state p = .running →
        (k.cpu c).quantumLeft = 0 → (k.demoteQuantumExhausted c).Linked p) := by
  dsimp only [demoteQuantumExhausted]
  cases hc : k.current c with
  | none =>
    refine ⟨id, ?_⟩
    rintro ⟨⟩
  | some cur =>
    dsimp only
    split
    · next hcond =>
      refine ⟨id, ?_⟩
      rintro ⟨⟩ hidle hrun hq
      obtain hcond | hcond | hcond := hcond
      · exact absurd hcond hidle
      · exact absurd hrun hcond
      · exact absurd hq hcond
    · next hcond =>
      obtain ⟨L, h⟩ := h
      have ho : k.Owns c cur := (h.cur hc).resolve_left fun e => hcond (.inl e)
      obtain ⟨L', h', hout⟩ := h.removeFromQueue ho.owner
      have h'' := h'.setState cur .ready
      have halloc : cur < ((k.removeFromQueue c cur).setState cur .ready).nproc := by
        rw [setState, nproc_modProc, nproc_removeFromQueue]
        exact ho.alloc
      have hnew := h''.queued.linked_addToQueue (p := p) hout halloc c
        (if (numQueues : Int) ≤ (k.removeFromQueue c cur).mlfq cur + 1
          then (numQueues : Int) - 1 else (k.removeFromQueue c cur).mlfq cur + 1)
      constructor
      · intro hp
        by_cases hpc : p = cur
        · exact hpc ▸ hnew.2
        · exact hnew.1 (linked_of_same (by rfl) (by simp [setState])
            (h.queued.linked_removeFromQueue (c := c) hpc hp))
      · rintro ⟨⟩ - - -
        exact hnew.2

/-- A dispatch keeps every process linked. -/
theorem linked_dispatch {next : Ptr} {q : Nat} (h : SchedOk k) (hp : k.Linked p) :
    (k.dispatch c next q).Linked p := by
  have hinstall : (k.installNext c next q).Linked p := by
    obtain ⟨L, h⟩ := h
    dsimp only [installNext]
    split
    · refine linked_of_same ?_ ?_ hp <;> simp [setCurrent, setState]
    · next a hh =>
      refine Queued.linked_rotate (L := L) (h.queued.of_same ?_ ?_ ?_ le_rfl) hh
        (linked_of_same ?_ ?_ hp) <;> simp [setCurrent, setState]
  dsimp only [dispatch]
  split
  · exact hinstall
  · unfold contextSwitch casState
    split
    · exact hinstall
    split <;>
      exact linked_of_same (by simp [setCurrent, setState])
        (by simp [setCurrent, setState]) hinstall

theorem linked_refillQuantum (hp : k.Linked p) : (k.refillQuantum c).Linked p := by
  unfold refillQuantum
  split
  · exact hp
  · exact linked_of_same (by simp) (by rfl) hp

theorem linked_switchToIdle (hp : k.Linked p) : (k.switchToIdle c).Linked p := by
  unfold switchToIdle contextSwitch casState
  split
  · split
    · dsimp only
      split
      · exact linked_of_same (by simp [setCurrent, setState]) (by simp [setCurrent, setState]) hp
      split <;>
        exact linked_of_same (by simp [setCurrent, setState]) (by simp [setCurrent, setState]) hp
    · exact hp
  · exact hp

/-- What is linked after the demotion is linked after the rest. -/
theorem linked_reschedule (h : SchedOk k)
    (hsafe : (k.demoteQuantumExhausted c).pickTakesRunning c = false)
    (hp : (k.demoteQuantumExhausted c).Linked p) : (k.reschedule c).Linked p := by
  have hdem := h.demoteQuantumExhausted (c := c)
  have hok := (hdem.pickNextOrIdle hsafe).1
  have hp1 := linked_pickNextOrIdle (c := c) hdem hp
  unfold reschedule
  dsimp only
  generalize (k.demoteQuantumExhausted c).pickNextOrIdle c = r at hok hp1
  obtain ⟨k1, ⟨proc, queue⟩⟩ := r
  cases proc with
  | none => exact linked_refillQuantum hp1
  | some next =>
    dsimp only
    split
    · exact linked_dispatch hok hp1
    · exact linked_refillQuantum hp1

/-- `schedule` keeps every process linked, and a process it takes from RUNNING
to READY is linked: its quantum ran out. -/
theorem linked_schedule (h : SchedOk k) (hsafe : k.scheduleTakesRunning c = false) :
    (k.Linked p → (k.schedule c).Linked p) ∧
      (k.current c = some p → k.idle c ≠ some p → k.state p = .running →
        (k.schedule c).state p = .ready → (k.schedule c).Linked p) := by
  obtain ⟨hfirst, hsecond⟩ := Bool.or_eq_false_iff.mp hsafe
  have hok := (h.pickNextOrIdle hfirst).1
  have hstep := k.queueStep_pickNextOrIdle c
  have hkeep := linked_pickNextOrIdle (c := c) (p := p) h
  unfold schedule
  generalize k.pickNextOrIdle c = r at hok hstep hkeep hsecond
  obtain ⟨k1, pick⟩ := r
  dsimp only at hok hstep hkeep hsecond ⊢
  rw [← hstep.state, ← hstep.current, ← hstep.idle]
  split
  · refine ⟨fun hp => linked_switchToIdle (hkeep hp), fun hc hidle hrun hready => ?_⟩
    obtain hs | ⟨-, hs⟩ := state_switchToIdle k1 c p
    · rw [hs, hrun] at hready
      cases hready
    · exact absurd hs hidle
  next hne =>
  split
  · next hmust =>
    have hsafe' : (k1.demoteQuantumExhausted c).pickTakesRunning c = false := by
      simpa [hne, hmust] using hsecond
    have hdem := linked_demoteQuantumExhausted (c := c) (p := p) hok
    refine ⟨fun hp => linked_reschedule hok hsafe' (hdem.1 (hkeep hp)),
      fun hc hidle hrun _ => linked_reschedule hok hsafe' (hdem.2 hc hidle hrun ?_)⟩
    -- it must switch, and the process is RUNNING and does not idle
    have hidle' : some p ≠ k1.idle c := fun e => hidle e.symm
    simpa [mustSwitch, hc, hrun, hidle'] using hmust
  · refine ⟨hkeep, fun _ _ hrun hready => ?_⟩
    rw [hrun] at hready
    cases hready

end Schedule

end UnixOs
