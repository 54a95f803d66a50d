import UnixOs.Core.StateSteps

/-!
# What `schedule` dispatches

`find_next_process` returns the head of a queue and `try_steal_work` the node
behind one, neither looks at the state word. So what becomes RUNNING is READY
exactly as far as the process that was picked is (`dispatchesReady_iff`). As a
rule this is the head of the first queue that is not empty (`picked_head`).
-/

namespace UnixOs

open Machine

/-- What `schedule()` on CPU `c` makes current, or RUNNING, was READY, unless it
is the idle process of the CPU. -/
def DispatchesReady (k : Kernel) (c : Nat) : Prop :=
  ∀ p, ((k.schedule c).current c = some p ∧ k.current c ≠ some p) ∨
      ((k.schedule c).state p = .running ∧ k.state p ≠ .running) →
    k.state p = .ready ∨ k.idle c = some p

namespace Kernel

/-- What the last `pick_next_or_idle` of `schedule()` returns, if it comes to this: a head of the
queues of the CPU, or the node behind the head of another CPU's queue. -/
def picked (k : Kernel) (c : Nat) : Option Ptr :=
  let (k, pick) := k.pickNextOrIdle c
  if pick.proc = k.idle c then none
  else if k.mustSwitch c then ((k.demoteQuantumExhausted c).pickNextOrIdle c).2.proc
  else none

end Kernel

/-- When `schedule` runs, the head or the stolen node that it picks is READY, unless this is the
process it switches away from or the idle one. -/
def PickedReady (k : Kernel) : StateEvent → Prop
  | .schedule c => ∀ p, k.picked c = some p → k.current c ≠ some p → k.idle c ≠ some p →
      k.state p = .ready
  | _ => True

section

variable {k : Kernel} {c : Nat} {p : Ptr}

open Kernel

theorem idle_demoteQuantumExhausted (k : Kernel) (c : Nat) :
    (k.demoteQuantumExhausted c).idle = k.idle := by
  dsimp only [demoteQuantumExhausted]
  split
  · rfl
  split
  · rfl
  · simp [Kernel.setState]

theorem current_dispatch_self {next : Ptr} {q : Nat} :
    (k.dispatch c next q).current c = some next := by
  have hinstall : (k.installNext c next q).current c = some next := by
    dsimp only [installNext]
    split <;> simp [Kernel.setState, setCurrent, Kernel.setHead]
  dsimp only [dispatch]
  split
  · exact hinstall
  · unfold contextSwitch
    split
    · exact hinstall
    · simp [setCurrent]

/-- The process that is picked gets the CPU. -/
theorem current_schedule_of_picked (h : k.picked c = some p) (hcur : k.current c ≠ some p)
    (hidle : k.idle c ≠ some p) : (k.schedule c).current c = some p := by
  have hstep := k.queueStep_pickNextOrIdle c
  unfold picked at h
  unfold schedule
  generalize k.pickNextOrIdle c = r at h hstep
  obtain ⟨k1, first⟩ := r
  dsimp only at h hstep ⊢
  split at h
  · cases h
  next hfirst =>
  split at h
  · next hmust =>
    rw [if_neg hfirst, if_pos hmust]
    have hstep2 := (k1.demoteQuantumExhausted c).queueStep_pickNextOrIdle c
    unfold reschedule
    dsimp only
    generalize (k1.demoteQuantumExhausted c).pickNextOrIdle c = r at h hstep2
    obtain ⟨k2, ⟨proc, queue⟩⟩ := r
    obtain rfl : proc = some p := h
    have hne : k2.current c ≠ some p ∧ k2.idle c ≠ some p := by
      rw [hstep2.current, hstep2.idle, current_demoteQuantumExhausted,
        idle_demoteQuantumExhausted, hstep.current, hstep.idle]
      exact ⟨hcur, hidle⟩
    dsimp only
    rw [if_pos hne]
    exact current_dispatch_self
  · cases h

/-- `schedule` makes nothing current or RUNNING but what it picked and the idle process. -/
theorem schedEffect_picked (k : Kernel) (c : Nat) :
    (∀ p, (k.schedule c).state p = .running → k.state p = .running ∨ k.idle c = some p ∨
      k.picked c = some p ∧ k.current c ≠ some p) ∧
    ∀ p, (k.schedule c).current c = some p → k.current c = some p ∨ k.idle c = some p ∨
      k.picked c = some p := by
  have hstep := k.queueStep_pickNextOrIdle c
  unfold schedule picked
  generalize k.pickNextOrIdle c = r at hstep
  obtain ⟨k1, first⟩ := r
  dsimp only at hstep ⊢
  rw [← hstep.state, ← hstep.current, ← hstep.idle]
  split
  · refine ⟨fun p hp => ?_, fun p hp => ?_⟩
    · obtain hs | ⟨-, hi⟩ := state_switchToIdle k1 c p
      · exact .inl (hs ▸ hp)
      · exact .inr (.inl hi)
    · obtain hc | ⟨-, hi⟩ := current_switchToIdle hp
      · exact .inl hc
      · exact .inr (.inl hi)
  split
  · obtain ⟨hs, hc⟩ := effect_reschedule_picked (k := k1) (c := c)
      (S := fun p => ((k1.demoteQuantumExhausted c).pickNextOrIdle c).2.proc = some p)
      fun _ hnext _ _ => hnext
    refine ⟨fun p hp => ?_, fun p hp => (hc c p hp).imp_right fun h => .inr h.2⟩
    obtain hsame | ⟨-, hpick, hold⟩ | ⟨hready, -⟩ := hs p
    · exact .inl (hsame ▸ hp)
    · exact .inr (.inr ⟨hpick, hold⟩)
    · rw [hp] at hready
      cases hready
  · exact ⟨fun p hp => .inl hp, fun p hp => .inl hp⟩

/-- What `schedule` dispatches is READY exactly if what it picks is. -/
theorem dispatchesReady_iff_picked : DispatchesReady k c ↔ PickedReady k (.schedule c) := by
  refine ⟨fun h p hp hcur hidle => ?_, fun h p hp => ?_⟩
  · have hnew := current_schedule_of_picked hp hcur hidle
    exact (h p (.inl ⟨hnew, hcur⟩)).resolve_right hidle
  · obtain ⟨hstate, hcurrent⟩ := schedEffect_picked k c
    by_cases hidle : k.idle c = some p
    · exact .inr hidle
    left
    obtain ⟨hnew, hold⟩ | ⟨hrun, hnot⟩ := hp
    · exact h p (((hcurrent p hnew).resolve_left hold).resolve_left hidle) hold hidle
    · obtain ⟨hpick, hold⟩ := ((hstate p hrun).resolve_left hnot).resolve_left hidle
      exact h p hpick hold hidle

/-- As a rule, the head of the first queue that is not empty is picked: if the current process is
not this head and keeps its quantum. -/
theorem picked_head {h : Ptr} (hhead : (k.findNextProcess c).proc = some h)
    (hcur : k.current c ≠ some h) (hidle : k.idle c ≠ some h) (hmust : k.mustSwitch c = true)
    (hquantum : ∀ cur, k.current c = some cur → k.idle c = some cur ∨ k.state cur ≠ .running ∨
      (k.cpu c).quantumLeft ≠ 0) : k.picked c = some h := by
  have hown : k.pickOwn c = (k, k.findNextProcess c) := by
    rw [pickOwn, hhead]
    exact if_neg fun hc => hcur hc.1
  have hpick : k.pickNextOrIdle c = (k, k.findNextProcess c) := by
    rw [pickNextOrIdle, hown]
    dsimp only
    rw [hhead]
  have hkeep : k.demoteQuantumExhausted c = k := by
    unfold demoteQuantumExhausted
    split
    · rfl
    · next cur hc => exact if_pos (hquantum cur hc)
  rw [picked, hpick]
  dsimp only
  rw [hhead, if_neg fun he => hidle he.symm, if_pos hmust, hkeep, hpick]
  exact hhead

end

/-- Init forks process 3, whose turn it is at the next `schedule`. -/
def forkRun : List StateEvent := [.fork 0 1 {}, .waitPrepare 0 (.children 1) 0, .schedule 0]

/-- The child is stopped, stays queued, and is dispatched when init waits. -/
def stopRun : List StateEvent :=
  [.fork 0 1 {}, .sendSignal 0 3 sigStop, .waitPrepare 0 (.children 1) 0]

end UnixOs
