import UnixOs.Ipc.PipeBlocking

/-!
# Freeing a pipe

A call on a pipe takes a bare pointer from the registry and uses the buffer, its lock and
its wait queues until it returns. `pipe_close_by_id` reads the two counters with the lock
held, gives the lock up, wakes both queues and only then, if both counters were 0, takes
the pipe out of the registry and frees it. The steps are the single uses of the buffer by
the parties, in any interleaving.

- `UsedWell`: the buffer is never used after it was freed, and freed exactly once when all
  ends are closed;
- `FreedAlone`: a close frees the buffer only while no other call has the pointer.
-/

namespace UnixOs

open Function Machine

/-- A call that was given the identifier of a pipe. -/
inductive PipeOp where
  | io (c : PipeCall)
  | close (isWriteEnd : Bool)

/-- Where a call is. `leaving` is in front of `spin_unlock` and `waking` in front of
`wake_all`, each with what comes after it. -/
inductive PipeUse where
  | out
  | entering (o : PipeOp) (woken : Bool)
  | inside (o : PipeOp) (woken : Bool)
  | leaving (next : PipeUse)
  | waking (q : PipeQueue) (next : PipeUse)
  | asleep (c : PipeCall)
  | removing
  | destroying

namespace PipeUse

/-- The call frees the buffer before it returns. -/
def frees : PipeUse → Bool
  | .leaving next | .waking _ next => next.frees
  | .removing | .destroying => true
  | .out | .entering _ _ | .inside _ _ | .asleep _ => false

/-- The call has taken the pipe out of the registry. -/
def unlinked : PipeUse → Bool
  | .leaving next | .waking _ next => next.unlinked
  | .destroying => true
  | .out | .entering _ _ | .inside _ _ | .asleep _ | .removing => false

end PipeUse

/-- A pipe with the calls of the parties `ι`. `destroyed` counts the calls of
`pipe_destroy_buffer`, `late` the uses of the buffer after the first one. -/
structure PipeLife (ι : Type) where
  buffer : PipeBuffer
  registered : Bool
  lock : Option ι
  use : ι → PipeUse
  destroyed : Nat
  late : Nat

inductive PipeLifeEvent (ι : Type) where
  /-- `pipe_registry_lookup` of a new call. -/
  | lookup (i : ι) (o : PipeOp)
  /-- A read or write returns before it has used the buffer: `kmalloc` or
  `copy_from_user` has failed. -/
  | giveUp (i : ι)
  | advance (i : ι) (signal : Bool)

namespace PipeLife

variable {ι : Type} [DecidableEq ι] (s : PipeLife ι)

/-- A use of the buffer. -/
def touch : PipeLife ι := { s with late := if s.destroyed = 0 then s.late else s.late + 1 }

def goto (i : ι) (u : PipeUse) : PipeLife ι := { s with use := update s.use i u }

/-- No end is open. -/
def Drained (b : PipeBuffer) : Prop := b.readers = 0 ∧ b.writers = 0

instance (b : PipeBuffer) : Decidable (Drained b) := inferInstanceAs (Decidable (_ ∧ _))

/-- Where a read or write goes from its section. -/
def afterSection (c : PipeCall) : PipeResult → PipeUse
  | .sleep => .leaving (.asleep c)
  | .ret v => .leaving (if 0 < v then .waking c.wakes .out else .out)

/-- Where `pipe_close_by_id` goes from its section (pipe.c:368). -/
def afterClose (b : PipeBuffer) : PipeUse :=
  .leaving (.waking .rd (.waking .wr (if Drained b then .removing else .out)))

/-- The next use of the buffer by the call of a party. -/
def advance (i : ι) (signal : Bool) : PipeLife ι :=
  match s.use i with
  | .out => s
  | .entering o woken =>
    match s.lock with
    | none => { s.touch with lock := some i }.goto i (.inside o woken)
    | some _ => s.touch
  | .inside (.io c) woken =>
    let r := c.runSection s.buffer woken signal
    { s.touch with buffer := r.1 }.goto i (afterSection c r.2)
  | .inside (.close w) _ =>
    let b := s.buffer.dropEnd w
    { s.touch with buffer := b }.goto i (afterClose b)
  | .leaving next => { s.touch with lock := none }.goto i next
  | .waking _ next => s.touch.goto i next
  | .asleep c => s.touch.goto i (.entering (.io c) true)
  | .removing =>
    -- the entry of the table is a part of the buffer
    { (if s.registered then s.touch else s) with registered := false }.goto i .destroying
  | .destroying => { s.touch with destroyed := s.destroyed + 1 }.goto i .out

def step (s : PipeLife ι) : PipeLifeEvent ι → PipeLife ι
  | .lookup i o =>
    match s.use i, s.registered with
    | .out, true => s.touch.goto i (.entering o false)
    | _, _ => s
  | .giveUp i =>
    match s.use i with
    | .entering (.io _) false => s.goto i .out
    | _ => s
  | .advance i signal => s.advance i signal

/-- A new pipe, nobody has called yet. -/
def init (b : PipeBuffer) : PipeLife ι where
  buffer := b
  registered := true
  lock := none
  use := fun _ => .out
  destroyed := 0
  late := 0

/-- The buffer was not used after it was freed, not freed twice, and has been freed once
all ends are closed and all calls are over. -/
structure UsedWell (s : PipeLife ι) : Prop where
  late : s.late = 0
  once : s.destroyed ≤ 1
  freed : Drained s.buffer → (∀ i, s.use i = .out) → s.destroyed = 1

/-- `pipe_destroy_buffer` is called only while no other call is between its look-up and
its return. -/
def FreedAlone (s : PipeLife ι) : PipeLifeEvent ι → Prop
  | .advance i _ => s.use i = .destroying → ∀ j, j ≠ i → s.use j = .out
  | _ => True

/-! ## One step -/

variable {s} {s' : PipeLife ι} {i j : ι} {u : PipeUse}

omit [DecidableEq ι] in
theorem touch_of_zero (h : s.destroyed = 0) : s.touch = s := by rw [touch, if_pos h]

omit [DecidableEq ι] in
theorem late_le_touch : s.late ≤ s.touch.late := by
  rw [touch]
  dsimp only
  split <;> omega

omit [DecidableEq ι] in
theorem late_touch (h : s.destroyed ≠ 0) : 0 < s.touch.late := by
  rw [touch, if_neg h]
  exact Nat.succ_pos _

theorem use_goto_self : (s.goto i u).use i = u := update_self ..

theorem use_goto_of_ne (h : j ≠ i) : (s.goto i u).use j = s.use j := update_of_ne h ..

variable {b : PipeBuffer} {signal : Bool}

/-- Neither a read nor a write changes the counters. -/
theorem drained_runSection {c : PipeCall} {woken signal : Bool} :
    Drained (c.runSection b woken signal).1 ↔ Drained b := by
  have hends : (c.runSection b woken signal).1.readers = b.readers ∧
      (c.runSection b woken signal).1.writers = b.writers := by
    cases c with
    | read n =>
      simp only [PipeCall.runSection, PipeBuffer.readSection, PipeBuffer.readLoop,
        PipeBuffer.readCopy]
      split_ifs <;> exact ⟨rfl, rfl⟩
    | write bytes =>
      simp only [PipeCall.runSection, PipeBuffer.writeSection, PipeBuffer.writeLoop,
        PipeBuffer.writeCopy]
      split_ifs <;> exact ⟨rfl, rfl⟩
  rw [Drained, hends.1, hends.2, Drained]

/-- What holds as long as every close frees alone. -/
structure Inv (s : PipeLife ι) : Prop where
  late : s.late = 0
  /-- After the buffer was freed no call has the pointer, and none gets it. -/
  gone : s.destroyed = 0 ∨ s.destroyed = 1 ∧ s.registered = false ∧ ∀ i, s.use i = .out
  unlinked : ∀ i, (s.use i).unlinked = true → s.registered = false
  pending : Drained s.buffer → s.destroyed = 0 → ∃ i, (s.use i).frees = true

omit [DecidableEq ι] in
theorem Inv.usedWell (h : s.Inv) : s.UsedWell := by
  refine ⟨h.late, ?_, fun hd hout => ?_⟩
  · obtain h0 | ⟨h1, -⟩ := h.gone <;> omega
  · obtain h0 | ⟨h1, -⟩ := h.gone
    · obtain ⟨i, hi⟩ := h.pending hd h0
      rw [hout i] at hi
      cases hi
    · exact h1

omit [DecidableEq ι] in
/-- A call that is not over has a buffer that exists. -/
theorem Inv.zero_of_use (h : s.Inv) (hi : s.use i ≠ .out) : s.destroyed = 0 := by
  obtain h0 | ⟨-, -, hout⟩ := h.gone
  · exact h0
  · exact absurd (hout i) hi

/-- A call goes on, with whatever it does to the buffer. -/
theorem Inv.move (h : s.Inv) (h0 : s.destroyed = 0) (hlate : s'.late = s.late)
    (hdes : s'.destroyed = s.destroyed) (huse : s'.use = update s.use i u)
    (hreg : s.registered = false → s'.registered = false)
    (hunl : u.unlinked = true → s'.registered = false)
    (hpend : Drained s'.buffer → u.frees = true ∨ Drained s.buffer ∧ (s.use i).frees = false) :
    s'.Inv := by
  have hself : s'.use i = u := by rw [huse, update_self]
  have hother : ∀ {j}, j ≠ i → s'.use j = s.use j := fun hj => by rw [huse, update_of_ne hj]
  refine ⟨hlate.trans h.late, .inl (hdes.trans h0), fun j hj => ?_, fun hd _ => ?_⟩
  · by_cases hji : j = i
    · rw [hji, hself] at hj
      exact hunl hj
    · rw [hother hji] at hj
      exact hreg (h.unlinked j hj)
  · obtain hu | ⟨hdr, hi⟩ := hpend hd
    · exact ⟨i, by rw [hself, hu]⟩
    · -- whoever frees the buffer is another call, which has not moved
      obtain ⟨j, hj⟩ := h.pending hdr h0
      have hji : j ≠ i := by
        rintro rfl
        rw [hi] at hj
        cases hj
      exact ⟨j, by rw [hother hji, hj]⟩

omit [DecidableEq ι] in
theorem unlinked_afterSection {c : PipeCall} {r : PipeResult} :
    (afterSection c r).unlinked = false := by
  cases r with
  | sleep => rfl
  | ret v =>
    rw [afterSection, PipeUse.unlinked]
    split <;> rfl

omit [DecidableEq ι] in
theorem unlinked_afterClose : (afterClose b).unlinked = false := by
  simp only [afterClose, PipeUse.unlinked]
  split <;> rfl

omit [DecidableEq ι] in
theorem frees_afterClose (h : Drained b) : (afterClose b).frees = true := by
  simp only [afterClose, PipeUse.frees]
  rw [if_pos h]
  rfl

/-- A step of a call that does not free the buffer. -/
theorem Inv.advance_of_ne (h : s.Inv) (hne : s.use i ≠ .destroying) : (s.advance i signal).Inv := by
  by_cases hout : s.use i = .out
  · rw [PipeLife.advance, hout]
    exact h
  have h0 : s.destroyed = 0 := h.zero_of_use hout
  have hsame : ∀ {u : PipeUse}, (s.use i).frees = u.frees →
      Drained s.buffer → u.frees = true ∨ Drained s.buffer ∧ (s.use i).frees = false := by
    intro u hu hd
    cases hfrees : (s.use i).frees with
    | false => exact .inr ⟨hd, rfl⟩
    | true => exact .inl (hu ▸ hfrees)
  rw [PipeLife.advance, touch_of_zero h0]
  cases huse : s.use i with
  | out => exact absurd huse hout
  | destroying => exact absurd huse hne
  | entering o woken =>
    cases s.lock with
    | some k => exact h
    | none => exact h.move h0 rfl rfl rfl id (fun hu => by cases hu) (hsame (by rw [huse]; rfl))
  | inside o woken =>
    cases o with
    | io c =>
      refine h.move h0 rfl rfl rfl id (fun hu => ?_) fun hd => .inr ⟨drained_runSection.1 hd, ?_⟩
      · rw [unlinked_afterSection] at hu
        cases hu
      · rw [huse]
        rfl
    | close w =>
      refine h.move h0 rfl rfl rfl id (fun hu => ?_) fun hd => .inl (frees_afterClose hd)
      rw [unlinked_afterClose] at hu
      cases hu
  | leaving | waking =>
    refine h.move h0 rfl rfl rfl id (fun hu => h.unlinked i ?_) (hsame (by rw [huse]; rfl))
    rw [huse]
    exact hu
  | asleep c => exact h.move h0 rfl rfl rfl id (fun hu => by cases hu) (hsame (by rw [huse]; rfl))
  | removing =>
    rw [ite_self]
    exact h.move h0 rfl rfl rfl (fun _ => rfl) (fun _ => rfl) fun _ => .inl rfl

/-- The buffer is freed by the only call that has the pointer. -/
theorem Inv.destroy (h : s.Inv) (hi : s.use i = .destroying)
    (halone : ∀ j, j ≠ i → s.use j = .out) : (s.advance i signal).Inv := by
  have h0 : s.destroyed = 0 := h.zero_of_use (by rw [hi]; nofun)
  have hreg : s.registered = false := h.unlinked i (by rw [hi]; rfl)
  rw [PipeLife.advance, hi, touch_of_zero h0]
  have hout : ∀ j, (update s.use i .out) j = .out := by
    intro j
    by_cases hj : j = i
    · rw [hj, update_self]
    · rw [update_of_ne hj, halone j hj]
  refine ⟨h.late, .inr ⟨congrArg (· + 1) h0, hreg, hout⟩, fun _ _ => hreg, fun _ hzero => ?_⟩
  cases hzero

/-- The end that frees the buffer is alone. -/
theorem Inv.step (h : s.Inv) {e : PipeLifeEvent ι} (he : s.FreedAlone e) : (s.step e).Inv := by
  cases e with
  | lookup i o =>
    rw [PipeLife.step]
    split
    · next hout hreg =>
      have h0 : s.destroyed = 0 := by
        obtain h0 | ⟨-, hgone, -⟩ := h.gone
        · exact h0
        · rw [hreg] at hgone
          cases hgone
      rw [touch_of_zero h0]
      refine h.move h0 rfl rfl rfl id (fun hu => by cases hu) fun hd => .inr ⟨hd, ?_⟩
      rw [hout]
      rfl
    · exact h
  | giveUp i =>
    rw [PipeLife.step]
    split
    · next c huse =>
      have h0 : s.destroyed = 0 := h.zero_of_use (by rw [huse]; nofun)
      refine h.move h0 rfl rfl rfl id (fun hu => by cases hu) fun hd => .inr ⟨hd, ?_⟩
      rw [huse]
      rfl
    · exact h
  | advance i signal =>
    by_cases hi : s.use i = .destroying
    · exact h.destroy hi (he hi)
    · exact h.advance_of_ne hi

omit [DecidableEq ι] in
theorem inv_init (hopen : ¬ Drained b) : (init b : PipeLife ι).Inv :=
  ⟨rfl, .inl rfl, fun _ h => by (cases h), fun h => absurd h hopen⟩

/-- If every close that frees the buffer is alone with it, then in every state reached the
buffer is used and freed as it should be. -/
theorem usedWell_of_freedAlone (hopen : ¬ Drained b)
    {es : List (PipeLifeEvent ι)} (h : Along step FreedAlone (init b) es) :
    (run step (init b) es).UsedWell := by
  have hstep : ∀ (s : PipeLife ι) e, s.Inv → s.FreedAlone e → (s.step e).Inv :=
    fun _ _ hs he => hs.step he
  exact (run_invariant hstep (inv_init hopen) h).usedWell

/-- A pipe as `sys_pipe` leaves it. -/
def opened : PipeBuffer :=
  { PipeBuffer.create (fun _ => 0) pipeBuf with readers := 1, writers := 1 }

/-- A call of `pipe_close_by_id` up to its `wake_all`s. -/
def closing (i : ι) (w : Bool) : List (PipeLifeEvent ι) :=
  [.lookup i (.close w), .advance i false, .advance i false, .advance i false]

/-- Two closes one after the other. -/
theorem usedWell_inTurn :
    let es : List (PipeLifeEvent Bool) :=
      closing false false ++ [.advance false false, .advance false false] ++ closing true true ++
        [.advance true false, .advance true false, .advance true false, .advance true false]
    Along step FreedAlone (init opened) es ∧
      (run step (init opened) es).destroyed = 1 ∧
      (run step (init opened) es).UsedWell := by
  have hrun : Along step FreedAlone (init opened)
      (closing false false ++ [.advance false false, .advance false false] ++ closing true true ++
        [.advance true false, .advance true false, .advance true false, .advance true false]) := by
    refine ⟨trivial, nofun, nofun, nofun, nofun, nofun, trivial, nofun, nofun, nofun, nofun, nofun,
      nofun, fun _ j hj => ?_, trivial⟩
    cases j with
    | false => rfl
    | true => exact absurd rfl hj
  exact ⟨hrun, rfl, usedWell_of_freedAlone (by decide) hrun⟩

/-- The close that is first with the lock is last with its `wake_all`: the other one has
freed the buffer by then. -/
theorem wake_after_destroy :
    ¬ (run step (init opened) (closing false false ++ closing true true ++
        [.advance true false, .advance true false, .advance true false, .advance true false,
          .advance false false])).UsedWell := by
  intro h
  cases h.late

/-! ## The condition is needed -/

theorem late_advance (hd : s.destroyed ≠ 0) (hout : s.use i ≠ .out) (hrem : s.use i ≠ .removing)
    : 0 < (s.advance i signal).late := by
  rw [PipeLife.advance]
  cases huse : s.use i with
  | out => exact absurd huse hout
  | removing => exact absurd huse hrem
  | destroying => exact late_touch hd
  | entering o woken => cases s.lock <;> exact late_touch hd
  | inside o woken => cases o <;> exact late_touch hd
  | leaving | waking | asleep => exact late_touch hd

theorem late_le_advance : s.late ≤ (s.advance i signal).late := by
  rw [PipeLife.advance]
  cases s.use i with
  | out => exact le_rfl
  | removing =>
    cases s.registered with
    | false => exact le_rfl
    | true => exact late_le_touch
  | destroying => exact late_le_touch
  | entering o woken => cases s.lock <;> exact late_le_touch
  | inside o woken => cases o <;> exact late_le_touch
  | leaving | waking | asleep => exact late_le_touch

/-- Whenever a close frees the buffer under another call, that call only has to go on. -/
theorem late_of_not_alone (hi : s.use i = .destroying) (hj : j ≠ i) (hout : s.use j ≠ .out) :
    0 < (run step s [.advance i false, .advance j false, .advance j false]).late := by
  show 0 < (((s.advance i false).advance j false).advance j false).late
  have huse : (s.advance i false).use j = s.use j := by
    rw [PipeLife.advance, hi]
    exact use_goto_of_ne hj
  have hdes : (s.advance i false).destroyed ≠ 0 := by
    rw [PipeLife.advance, hi]
    exact Nat.succ_ne_zero _
  by_cases hrem : s.use j = .removing
  · -- the removal finds no entry; the second `kfree` follows
    generalize s.advance i false = t at huse hdes
    have hnext : (t.advance j false).use j = .destroying := by
      rw [PipeLife.advance, huse, hrem]
      exact use_goto_self
    have hkept : (t.advance j false).destroyed = t.destroyed := by
      rw [PipeLife.advance, huse, hrem]
      cases t.registered <;> rfl
    exact late_advance (by rwa [hkept]) (by rw [hnext]; nofun) (by rw [hnext]; nofun)
  · exact (late_advance hdes (by rwa [huse]) (by rwa [huse])).trans_le late_le_advance

end PipeLife

end UnixOs
