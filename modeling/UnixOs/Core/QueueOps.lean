import UnixOs.Core.RunQueues

/-!
# What the run-queue operations do to the other processes (sched.c)

Each operation moves at most one process. On queues whose nodes know their queue
(`Queued`: `mlfq_queue` is the queue a process is linked on) it comes out where the
operation puts it, and the others keep their cyclic order in every queue (`Moves`).
`remove_from_queue` looks into the queue that `mlfq_queue` names and no other, so without
this a process stays linked (`strayProc_stays`). Its walk ends on every ring
(`walkEnds_of_queued`), also for a process that is not there.
-/

namespace UnixOs

open List

/-- The operations on run queues. -/
inductive QueueOp where
  /-- `add_to_queue`. -/
  | add (c : Nat) (p : Ptr) (queue : Int)
  /-- `remove_from_queue`. -/
  | remove (c : Nat) (p : Ptr)
  /-- `try_steal_work`. -/
  | steal (c : Nat)
  /-- `demote_quantum_exhausted`. -/
  | demote (c : Nat)
  /-- `*head = (*head)->next`. -/
  | rotate (c q : Nat)

namespace QueueOp

variable (k : Kernel)

def step : QueueOp → Kernel
  | add c p queue => k.addToQueue c p queue
  | remove c p => k.removeFromQueue c p
  | steal c => (k.tryStealWork c).1
  | demote c => k.demoteQuantumExhausted c
  | rotate c q =>
    match k.rqHead c q with
    | none => k
    | some h => k.setHead c q (k.next h)

/-- The current process of `c` has used up its quantum. -/
def Exhausted (c : Nat) (cur : Ptr) : Prop :=
  k.current c = some cur ∧
    ¬ (k.idle c = some cur ∨ k.state cur ≠ .running ∨ (k.cpu c).quantumLeft ≠ 0)

/-- An unlinked process is added, a process is removed by its own CPU, and one that is
queued on its own CPU is demoted. -/
def Allowed (L : Nat → Nat → List Ptr) : QueueOp → Prop
  | add _ p _ => (∀ c q, p ∉ L c q) ∧ p < k.nproc
  | remove c p => ∀ c' q, p ∈ L c' q → c' = c
  | demote c => ∀ cur, Exhausted k c cur → ∃ q, cur ∈ L c q
  | _ => True

/-- The walk of `remove_from_queue` ends, in front of `p` or back at the head. -/
def WalkEnds (c : Nat) (p : Ptr) : Prop := ∀ h, k.rqHead c (k.mlfq p).toNat = some h →
  CircularList.findPrev k.next h p k.nproc h ≠ none

/-- The operation returns: the walks that it makes end. The other loops are over the CPUs and
their queues. -/
def Ends : QueueOp → Prop
  | remove c p => WalkEnds k c p
  | demote c => ∀ cur, Exhausted k c cur → WalkEnds k c cur
  | _ => True

/-- Where the process that an operation names is afterwards. -/
def Places (L : Nat → Nat → List Ptr) : QueueOp → Ptr → Option (Nat × Nat) → Prop
  | add c p queue, x, dest => x = p ∧ dest = some (c, clampQueue queue)
  | remove _ p, x, dest => x = p ∧ dest = none
  | steal c, x, dest => (k.tryStealWork c).2 = some x ∧
      ∃ v q, v ≠ c ∧ x ∈ L v q ∧ dest = some (c, q)
  | demote c, x, dest => Exhausted k c x ∧
      ∃ q, x ∈ L c q ∧ dest = some (c, min (q + 1) (numQueues - 1))
  | rotate _ _, _, _ => False

end QueueOp

/-- From the node lists `L` to `L'`: `x` is now at `dest`, and the others are as they
were. -/
structure Moves (L L' : Nat → Nat → List Ptr) (x : Ptr) (dest : Option (Nat × Nat)) : Prop where
  others : ∀ c q, (L' c q).erase x = (L c q).erase x
  place : ∀ c q, x ∈ L' c q ↔ dest = some (c, q)

namespace Moves

variable {L L' L'' : Nat → Nat → List Ptr} {x : Ptr} {c q : Nat} {dest : Option (Nat × Nat)}

/-- A process that was on no queue is inserted into one. -/
theorem insert (hout : ∀ c q, x ∉ L c q) :
    Moves L (setQueue L c q (insertBehind x (L c q))) x (some (c, q)) := by
  have herase : (insertBehind x (L c q)).erase x = L c q := by
    have hx := hout c q
    cases hl : L c q with
    | nil => simp [insertBehind]
    | cons a t =>
      have hax : a ≠ x := fun he => hx (by rw [hl, he]; exact mem_cons_self)
      rw [insertBehind, erase_cons_tail (by simpa using hax), erase_cons_head]
  constructor <;> intro c' q' <;> by_cases hcq : c' = c ∧ q' = q
  · obtain ⟨rfl, rfl⟩ := hcq
    rw [setQueue_self, herase, erase_of_not_mem (hout c' q')]
  · rw [setQueue_of_ne hcq]
  · obtain ⟨rfl, rfl⟩ := hcq
    rw [setQueue_self]
    exact iff_of_true (mem_insertBehind.2 (.inl rfl)) rfl
  · rw [setQueue_of_ne hcq]
    refine iff_of_false (hout c' q') fun he => hcq ?_
    obtain ⟨rfl, rfl⟩ := Prod.mk.inj (Option.some.inj he)
    exact ⟨rfl, rfl⟩

theorem erase {k : Kernel} (h : Queued k L) (hx : x ∈ L c q) :
    Moves L (setQueue L c q ((L c q).erase x)) x none := by
  have hout {c' q'} : x ∉ setQueue L c q ((L c q).erase x) c' q' :=
    fun he => (h.mem_erase hx he).2 rfl
  refine ⟨fun c' q' => ?_, fun c' q' => iff_of_false hout nofun⟩
  rw [erase_of_not_mem hout]
  by_cases hcq : c' = c ∧ q' = q
  · obtain ⟨rfl, rfl⟩ := hcq
    rw [setQueue_self]
  · rw [setQueue_of_ne hcq]
    exact (erase_of_not_mem fun he => hcq (h.queue_eq he hx)).symm

theorem trans {mid : Option (Nat × Nat)} (h : Moves L L' x mid) (h' : Moves L' L'' x dest) :
    Moves L L'' x dest :=
  ⟨fun c q => (h'.others c q).trans (h.others c q), h'.place⟩

end Moves

variable {k : Kernel} {L : Nat → Nat → List Ptr} {c : Nat}

open QueueOp Kernel

/-- A steal moves one process of another CPU to the queue with the same number, or none. -/
theorem moves_steal (h : Queued k L) :
    (∃ L', Queued (k.tryStealWork c).1 L' ∧ (k.tryStealWork c).2 = none ∧ L' = L) ∨
    ∃ L' x v q, Queued (k.tryStealWork c).1 L' ∧ (k.tryStealWork c).2 = some x ∧ v ≠ c ∧
      x ∈ L v q ∧ Moves L L' x (some (c, q)) := by
  unfold tryStealWork
  dsimp only
  split
  · exact .inl ⟨L, h, rfl, rfl⟩
  have h' : Queued (k.modCpu c fun x => { x with lastStealTick := (k.cpu c).schedTicks }) L :=
    h.of_same rfl (by simp) rfl le_rfl
  cases hs : (k.modCpu c fun x => { x with lastStealTick := (k.cpu c).schedTicks }).stealCandidate c
    with
  | none => exact .inl ⟨L, h', rfl, rfl⟩
  | some hx =>
    obtain ⟨a, x⟩ := hx
    obtain ⟨v, q, t, hv, hl⟩ := stealCandidate_eq h' hs
    have hx : x ∈ L v q := by
      rw [hl]
      simp
    have herase := Moves.erase h hx
    refine .inr ⟨_, x, v, q, queued_stealNode h' hv hl, rfl, hv, hx, herase.trans ?_⟩
    -- the queue that takes it is none that it left
    have hsame : setQueue L v q ((L v q).erase x) c q = L c q :=
      setQueue_of_ne fun he => hv he.1.symm
    have hinsert := Moves.insert (c := c) (q := q) fun c' q' => mt (herase.place c' q').1 nofun
    rwa [hsame] at hinsert

/-- A process whose quantum is used up goes down one queue. -/
theorem moves_demote (h : Queued k L) {cur : Ptr} (hcur : Exhausted k c cur) {q : Nat}
    (hq : cur ∈ L c q) : ∃ L', Queued (k.demoteQuantumExhausted c) L' ∧
      Moves L L' cur (some (c, min (q + 1) (numQueues - 1))) := by
  have herase := Moves.erase h hq
  have hout : ∀ c' q', cur ∉ setQueue L c q ((L c q).erase cur) c' q' :=
    fun c' q' => mt (herase.place c' q').1 nofun
  have hremoved : Queued ((k.removeFromQueue c cur).setState cur .ready)
      (setQueue L c q ((L c q).erase cur)) :=
    (queued_removeFromQueue h hq).of_same (by simp [setState]) rfl (by simp [setState]) le_rfl
  have hnew : ∀ q < numQueues, clampQueue (if (numQueues : Int) ≤ (q : Int) + 1 then
      (numQueues : Int) - 1 else (q : Int) + 1) = min (q + 1) (numQueues - 1) := by decide
  have halloc : cur < ((k.removeFromQueue c cur).setState cur .ready).nproc := by
    rw [setState, nproc_modProc, nproc_removeFromQueue]
    exact h.alloc hq
  refine ⟨_, ?_, herase.trans (Moves.insert hout)⟩
  rw [demoteQuantumExhausted, hcur.1]
  dsimp only
  rw [if_neg hcur.2, mlfq_removeFromQueue, h.mlfq hq, ← hnew q (h.small hq)]
  exact queued_addToQueue hremoved hout halloc

theorem walkEnds_of_queued (h : Queued k L) (c : Nat) (p : Ptr) : WalkEnds k c p := by
  intro a hhead
  obtain ⟨t, hl, hpath, hnodup⟩ := h.eq_cons hhead
  have hlen := h.length_le c (k.mlfq p).toNat
  rw [hl] at hlen
  exact CircularList.IsRing.findPrev_ne_none ⟨rfl, hpath, hnodup⟩ hlen p

/-- Each operation returns and keeps the queues well formed. It rotates them, or moves the one
process it names to its place and leaves the others in their order. -/
theorem queueOp_moves (h : Queued k L) {op : QueueOp} (hop : op.Allowed k L) :
    op.Ends k ∧ ∃ L', Queued (op.step k) L' ∧
      ((∀ x dest, ¬ op.Places k L x dest) ∧ (∀ c q, L' c q ~r L c q) ∨
        ∃ x dest, op.Places k L x dest ∧ Moves L L' x dest) := by
  have hends : op.Ends k := by
    cases op with
    | remove c p => exact walkEnds_of_queued h c p
    | demote c => exact fun cur _ => walkEnds_of_queued h c cur
    | _ => trivial
  refine ⟨hends, ?_⟩
  cases op with
  | add c p queue =>
    exact ⟨_, queued_addToQueue h hop.1 hop.2, .inr ⟨p, _, ⟨rfl, rfl⟩, .insert hop.1⟩⟩
  | remove c p =>
    by_cases hp : ∃ q, p ∈ L c q
    · obtain ⟨q, hq⟩ := hp
      exact ⟨_, queued_removeFromQueue h hq, .inr ⟨p, none, ⟨rfl, rfl⟩, .erase h hq⟩⟩
    -- `p` is on no queue, and the walk comes back to the head
    · have hout : ∀ c' q, p ∉ L c' q := fun c' q hq => hp ⟨q, hop c' q hq ▸ hq⟩
      refine ⟨L, ?_, .inr ⟨p, none, ⟨rfl, rfl⟩, fun _ _ => rfl, fun c' q => ?_⟩⟩
      · show Queued (k.removeFromQueue c p) L
        rwa [removeFromQueue_of_notMem h (hout c)]
      · exact iff_of_false (hout c' q) nofun
  | steal c =>
    obtain ⟨L', hL', hnone, rfl⟩ | ⟨L', x, v, q, hL', hsome, hv, hx, hm⟩ := moves_steal (c := c) h
    · refine ⟨L', hL', .inl ⟨fun x dest hp => ?_, fun _ _ => .refl _⟩⟩
      exact nomatch hnone.symm.trans hp.1
    · exact ⟨L', hL', .inr ⟨x, _, ⟨hsome, v, q, hv, hx, rfl⟩, hm⟩⟩
  | demote c =>
    by_cases hcur : ∃ cur, Exhausted k c cur
    · obtain ⟨cur, hcur⟩ := hcur
      obtain ⟨q, hq⟩ := hop cur hcur
      obtain ⟨L', hL', hm⟩ := moves_demote h hcur hq
      exact ⟨L', hL', .inr ⟨cur, _, ⟨hcur, q, hq, rfl⟩, hm⟩⟩
    -- the quantum is not used up
    · have hsame : k.demoteQuantumExhausted c = k := by
        unfold demoteQuantumExhausted
        split
        · rfl
        next cur hc => exact if_pos (by_contra fun hn => hcur ⟨cur, hc, hn⟩)
      refine ⟨L, ?_, .inl ⟨fun x _ hp => hcur ⟨x, hp.1⟩, fun _ _ => .refl _⟩⟩
      show Queued (k.demoteQuantumExhausted c) L
      rwa [hsame]
  | rotate c q =>
    cases hh : k.rqHead c q with
    | none =>
      refine ⟨L, ?_, .inl ⟨fun _ _ => id, fun _ _ => .refl _⟩⟩
      simpa only [step, hh] using h
    | some a =>
      refine ⟨setQueue L c q ((L c q).rotate 1), ?_, .inl ⟨fun _ _ => id, fun c' q' => ?_⟩⟩
      · simpa only [step, hh] using queued_rotate h hh
      · by_cases hcq : c' = c ∧ q' = q
        · obtain ⟨rfl, rfl⟩ := hcq
          rw [setQueue_self]
          exact IsRotated.forall _ 1
        · rw [setQueue_of_ne hcq]

/-- Three processes of CPU 0 on queue 0 and one of CPU 1. -/
def fourQueued : Kernel :=
  ((((bootKernel 2).addToQueue 0 0 0).addToQueue 0 1 0).addToQueue 0 2 0).addToQueue 1 3 0

/-- The node lists of `fourQueued`. -/
def fourLists (c q : Nat) : List Ptr :=
  if c = 0 ∧ q = 0 then [0, 2, 1] else if c = 1 ∧ q = 0 then [3] else []

/-- The links of the four processes are those of the lists. -/
theorem queued_fourQueued : Queued fourQueued fourLists := by
  have hboot : Queued (bootKernel 2) fun _ _ => [] := ⟨fun _ _ => rfl, nofun, nofun, nofun, nofun⟩
  have hset (L : Nat → Nat → List Ptr) (c q : Nat) (l : List Ptr) (p : Ptr) (hp : p ∉ l)
      (hL : ∀ c q, p ∉ L c q) (c' q' : Nat) : p ∉ setQueue L c q l c' q' := by
    by_cases hcq : c' = c ∧ q' = q
    · obtain ⟨rfl, rfl⟩ := hcq
      rwa [setQueue_self]
    · rw [setQueue_of_ne hcq]
      exact hL c' q'
  have hnone (p : Ptr) (c q : Nat) : p ∉ (fun _ _ => [] : Nat → Nat → List Ptr) c q :=
    List.not_mem_nil
  have hadd {k : Kernel} {L : Nat → Nat → List Ptr} (h : Queued k L) (c p : Nat)
      (hp : ∀ c q, p ∉ L c q) (halloc : p < k.nproc) : Queued (k.addToQueue c p 0)
        (setQueue L c (clampQueue 0) (insertBehind p (L c (clampQueue 0)))) :=
    queued_addToQueue h hp halloc
  have h1 := hadd hboot 0 0 (hnone 0) (by decide)
  have h2 := hadd h1 0 1 (hset _ _ _ _ _ (by decide) (hnone 1)) (by decide)
  have h3 := hadd h2 0 2
    (hset _ _ _ _ _ (by decide) (hset _ _ _ _ _ (by decide) (hnone 2))) (by decide)
  have h4 := hadd h3 1 3 (hset _ _ _ _ _ (by decide)
    (hset _ _ _ _ _ (by decide) (hset _ _ _ _ _ (by decide) (hnone 3)))) (by decide)
  refine (?_ : _ = fourLists) ▸ h4
  funext c q
  by_cases h0 : c = 0 ∧ q = 0
  · obtain ⟨rfl, rfl⟩ := h0
    rfl
  by_cases h1 : c = 1 ∧ q = 0
  · obtain ⟨rfl, rfl⟩ := h1
    rfl
  · have hclamp : clampQueue 0 = 0 := rfl
    rw [fourLists, if_neg h0, if_neg h1, hclamp, setQueue_of_ne h1, setQueue_of_ne h0,
      setQueue_of_ne h0, setQueue_of_ne h0]

/-- Removing the process in the middle leaves the two others in their order. -/
theorem queueOp_moves_fourQueued : ∃ L', Queued (fourQueued.removeFromQueue 0 2) L' ∧
    L' 0 0 = [0, 1] ∧ L' 1 0 = [3] := by
  have hown : QueueOp.Allowed fourQueued fourLists (.remove 0 2) := by
    intro c q hmem
    rw [fourLists] at hmem
    split at hmem
    · next h => exact h.1
    · split at hmem
      · cases List.mem_singleton.1 hmem
      · cases hmem
  obtain ⟨-, L', hL', ⟨hno, -⟩ | ⟨x, dest, ⟨rfl, rfl⟩, hm⟩⟩ :=
    queueOp_moves queued_fourQueued hown
  · exact absurd ⟨rfl, rfl⟩ (hno 2 none)
  · have hlist (c q : Nat) : L' c q = (fourLists c q).erase 2 := by
      rw [← hm.others, erase_of_not_mem fun h => by cases (hm.place c q).1 h]
    exact ⟨L', hL', (hlist 0 0).trans (by decide), (hlist 1 0).trans (by decide)⟩

/-- Process 1 is alone on queue 1, and its `mlfq_queue` is 0. -/
def strayProc : Kernel := ((bootKernel 1).setHead 0 1 (some 1)).setNext 1 (some 1)

theorem strayProc_stays :
    (∀ c q, CircularList.IsRing strayProc.next (strayProc.rqHead c q)
      (if c = 0 ∧ q = 1 then [1] else [])) ∧ strayProc.removeFromQueue 0 1 = strayProc := by
  refine ⟨fun c q => ?_, rfl⟩
  split
  · next h =>
    obtain ⟨rfl, rfl⟩ := h
    exact ⟨rfl, rfl, by decide⟩
  · next h =>
    rw [strayProc, setNext, rqHead_modProc, rqHead_setHead_of_ne h]
    rfl

end UnixOs
