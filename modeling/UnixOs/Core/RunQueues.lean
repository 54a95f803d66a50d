import Mathlib.Data.List.Perm.Subperm
import Mathlib.Data.List.Rotate
import UnixOs.Core.Sched

/-!
# The run queues as lists

`Queued k L` says that queue `q` of CPU `c` is a ring with node list `L c q`,
head first, that no process is on two queues, and that every linked process
knows its queue. Each queue operation of sched.c is then an operation on the
node lists; the other queues keep theirs.
-/

namespace UnixOs

open Function List

open CircularList

/-- Replace the node list of queue `q` of CPU `c`. -/
def setQueue (L : Nat → Nat → List Ptr) (c q : Nat) (l : List Ptr) :
    Nat → Nat → List Ptr :=
  fun c' q' => if c' = c ∧ q' = q then l else L c' q'

/-- Insertion behind the head of a ring. -/
def insertBehind (p : Ptr) : List Ptr → List Ptr
  | [] => [p]
  | a :: t => a :: p :: t

theorem mem_insertBehind {p x : Ptr} {l : List Ptr} : x ∈ insertBehind p l ↔ x = p ∨ x ∈ l := by
  cases l with
  | nil => simp [insertBehind]
  | cons a t =>
    simp only [insertBehind, mem_cons]
    tauto

@[simp] theorem setQueue_self (L : Nat → Nat → List Ptr) (c q : Nat)
    (l : List Ptr) : setQueue L c q l c q = l := by
  simp [setQueue]

theorem setQueue_of_ne {L : Nat → Nat → List Ptr} {c q c' q' : Nat}
    {l : List Ptr} (h : ¬ (c' = c ∧ q' = q)) : setQueue L c q l c' q' = L c' q' := by
  simp [setQueue, h]

theorem mem_setQueue {L : Nat → Nat → List Ptr} {c q c' q' : Nat} {l : List Ptr} {y : Ptr}
    (hy : y ∈ setQueue L c q l c' q') :
    (c' = c ∧ q' = q) ∧ y ∈ l ∨ ¬ (c' = c ∧ q' = q) ∧ y ∈ L c' q' := by
  by_cases hcq : c' = c ∧ q' = q
  · rw [hcq.1, hcq.2, setQueue_self] at hy
    exact .inl ⟨hcq, hy⟩
  · rw [setQueue_of_ne hcq] at hy
    exact .inr ⟨hcq, hy⟩

/-- The node lists after `x` moved from queue `q` of CPU `v` to the same queue
of CPU `c`. -/
def stolenQueues (L : Nat → Nat → List Ptr) (c v q : Nat) (x : Ptr) :
    Nat → Nat → List Ptr :=
  setQueue (setQueue L v q ((L v q).erase x)) c q (insertBehind x (L c q))

/-- The run queues of `k` are rings with the node lists `L`. -/
structure Queued (k : Kernel) (L : Nat → Nat → List Ptr) : Prop where
  ring : ∀ c q, IsRing k.next (k.rqHead c q) (L c q)
  disj : ∀ {c q c' q' p}, p ∈ L c q → p ∈ L c' q' → c = c'
  mlfq : ∀ {c q p}, p ∈ L c q → k.mlfq p = q
  small : ∀ {c q p}, p ∈ L c q → q < numQueues
  alloc : ∀ {c q p}, p ∈ L c q → p < k.nproc

namespace Queued

variable {k k' : Kernel} {L : Nat → Nat → List Ptr} {c q : Nat} {p x : Ptr}
  {l t : List Ptr}

section

variable (h : Queued k L)
include h

theorem queue_eq {c q c' q' : Nat} (hp : p ∈ L c q) (hp' : p ∈ L c' q') : c = c' ∧ q = q' :=
  ⟨h.disj hp hp', by exact_mod_cast (h.mlfq hp).symm.trans (h.mlfq hp')⟩

/-- A ring has at most as many nodes as there are processes. -/
theorem length_le (c q : Nat) : (L c q).length ≤ k.nproc := by
  have hsub : L c q ⊆ List.range k.nproc := fun _ hp => mem_range.mpr (h.alloc hp)
  simpa using (subperm_of_subset (h.ring c q).nodup hsub).length_le

theorem eq_cons {a : Ptr} (hh : k.rqHead c q = some a) :
    ∃ t, L c q = a :: t ∧ Path k.next a t a ∧ (a :: t).Nodup :=
  (hh ▸ h.ring c q : IsRing k.next (some a) (L c q)).eq_cons

theorem eq_nil (hh : k.rqHead c q = none) : L c q = [] :=
  (hh ▸ h.ring c q : IsRing k.next none (L c q)).eq_nil

theorem head_eq {a : Ptr} (hl : L c q = a :: t) : k.rqHead c q = some a := by
  have := h.ring c q
  rw [hl] at this
  exact this.1

theorem head_mem {a : Ptr} (hh : k.rqHead c q = some a) : a ∈ L c q := by
  obtain ⟨t, ht, -⟩ := h.eq_cons hh
  exact ht ▸ mem_cons_self

/-- The shape of every queue operation: one queue is rebuilt with nodes of its
own, the others keep head and links. -/
theorem rebuild (hring : IsRing k'.next (k'.rqHead c q) l)
    (hhead : ∀ c' q', ¬ (c' = c ∧ q' = q) → k'.rqHead c' q' = k.rqHead c' q')
    (hkeep : ∀ c' q', ¬ (c' = c ∧ q' = q) → ∀ y ∈ L c' q',
      k'.next y = k.next y ∧ k'.mlfq y = k.mlfq y)
    (hown : ∀ y ∈ l, k'.mlfq y = q ∧ q < numQueues ∧ y < k'.nproc ∧
      ∀ c' q', ¬ (c' = c ∧ q' = q) → y ∉ L c' q')
    (hn : k'.nproc = k.nproc) : Queued k' (setQueue L c q l) where
  ring c' q' := by
    by_cases hcq : c' = c ∧ q' = q
    · obtain ⟨rfl, rfl⟩ := hcq
      rwa [setQueue_self]
    · rw [setQueue_of_ne hcq, hhead c' q' hcq]
      exact (h.ring c' q').congr fun y hy => (hkeep c' q' hcq y hy).1
  disj {c1 q1 c2 q2 p} h1 h2 := by
    obtain ⟨hcq1, h1⟩ | ⟨hcq1, h1⟩ := mem_setQueue h1 <;>
      obtain ⟨hcq2, h2⟩ | ⟨hcq2, h2⟩ := mem_setQueue h2
    · exact hcq1.1.trans hcq2.1.symm
    · exact absurd h2 ((hown p h1).2.2.2 c2 q2 hcq2)
    · exact absurd h1 ((hown p h2).2.2.2 c1 q1 hcq1)
    · exact h.disj h1 h2
  mlfq {c' q' p} hp := by
    obtain ⟨⟨rfl, rfl⟩, hl⟩ | ⟨hcq, hp⟩ := mem_setQueue hp
    · exact (hown p hl).1
    · exact (hkeep c' q' hcq p hp).2.trans (h.mlfq hp)
  small {c' q' p} hp := by
    obtain ⟨⟨rfl, rfl⟩, hl⟩ | ⟨-, hp⟩ := mem_setQueue hp
    · exact (hown p hl).2.1
    · exact h.small hp
  alloc {c' q' p} hp := by
    obtain ⟨⟨rfl, rfl⟩, hl⟩ | ⟨-, hp⟩ := mem_setQueue hp
    · exact (hown p hl).2.2.1
    · exact hn ▸ h.alloc hp

/-- Taking a node off its queue leaves the other nodes where they were. -/
theorem mem_erase (hx : x ∈ L c q) {c' q' : Nat} {y : Ptr}
    (hy : y ∈ setQueue L c q ((L c q).erase x) c' q') : y ∈ L c' q' ∧ y ≠ x := by
  obtain ⟨⟨rfl, rfl⟩, hl⟩ | ⟨hcq, hy⟩ := mem_setQueue hy
  · exact ((h.ring c' q').nodup.mem_erase_iff.mp hl).symm
  · exact ⟨hy, fun e => hcq (h.queue_eq (e ▸ hy) hx)⟩

theorem mem_stolenQueues {v : Nat} (hx : x ∈ L v q)
    {c' q' : Nat} {y : Ptr} (hy : y ∈ stolenQueues L c v q x c' q') :
    (y = x ∧ c' = c) ∨ (y ∈ L c' q' ∧ y ≠ x) := by
  unfold stolenQueues at hy
  by_cases hyx : y = x
  · left
    refine ⟨hyx, by_contra fun hc => ?_⟩
    rw [setQueue_of_ne fun e => hc e.1] at hy
    exact (h.mem_erase hx hy).2 hyx
  · right
    obtain ⟨⟨rfl, rfl⟩, hl⟩ | ⟨-, hy⟩ := mem_setQueue hy
    · exact ⟨(mem_insertBehind.mp hl).resolve_left hyx, hyx⟩
    · exact h.mem_erase hx hy

/-- Stores that touch neither links, heads nor queue numbers keep the
queues. -/
theorem of_same (hnext : k'.next = k.next) (hhead : k'.rqHead = k.rqHead) (hmlfq : k'.mlfq = k.mlfq)
    (hn : k.nproc ≤ k'.nproc) : Queued k' L where
  ring c q := by rw [hnext, hhead]; exact h.ring c q
  disj := h.disj
  mlfq hp := by rw [hmlfq]; exact h.mlfq hp
  small := h.small
  alloc hp := lt_of_lt_of_le (h.alloc hp) hn

end

end Queued

theorem clampQueue_lt (queue : Int) : clampQueue queue < numQueues := by
  unfold clampQueue numQueues
  split
  · decide
  · split <;> omega

theorem clampQueue_natCast {q : Nat} (hq : q < numQueues) : clampQueue q = q := by
  unfold clampQueue
  have h1 : ¬ (q : Int) < 0 := by omega
  have h2 : ¬ (numQueues : Int) ≤ q := by omega
  rw [if_neg h1, if_neg h2, Int.toNat_natCast]

namespace Kernel

variable {k : Kernel} {L : Nat → Nat → List Ptr} {c q : Nat} {p x : Ptr}
  {queue : Int}

/-! ## Links and heads under single stores -/

@[simp] theorem next_setNext {v : Option Ptr} : (k.setNext p v).next = update k.next p v := by
  simp [setNext]

@[simp] theorem rqHead_setNext {v : Option Ptr} :
    (k.setNext p v).rqHead = k.rqHead := rfl

@[simp] theorem next_setHead {v : Option Ptr} :
    (k.setHead c q v).next = k.next := rfl

@[simp] theorem idle_setHead {v : Option Ptr} : (k.setHead c q v).idle = k.idle := by simp [setHead]

@[simp] theorem rqHead_setHead_self {v : Option Ptr} : (k.setHead c q v).rqHead c q = v := by
  simp [setHead]

theorem rqHead_setHead_of_ne {v : Option Ptr} {c' q' : Nat} (h : ¬ (c' = c ∧ q' = q)) :
    (k.setHead c q v).rqHead c' q' = k.rqHead c' q' := by
  obtain rfl | hc := eq_or_ne c' c
  · have hq : q' ≠ q := fun e => h ⟨rfl, e⟩
    simp [setHead, hq]
  · simp [setHead, hc]

@[simp] theorem next_setOwner {v : Nat} : (k.setOwner p v).next = k.next := by simp [setOwner]

@[simp] theorem mlfq_setOwner {v : Nat} : (k.setOwner p v).mlfq = k.mlfq := by simp [setOwner]

@[simp] theorem owner_setOwner {v : Nat} : (k.setOwner p v).owner = update k.owner p v := by
  simp [setOwner]

@[simp] theorem mlfq_setNext {v : Option Ptr} : (k.setNext p v).mlfq = k.mlfq := by simp [setNext]

@[simp] theorem next_bumpRrCounter : k.bumpRrCounter.next = k.next := rfl
@[simp] theorem mlfq_bumpRrCounter : k.bumpRrCounter.mlfq = k.mlfq := rfl
@[simp] theorem owner_bumpRrCounter : k.bumpRrCounter.owner = k.owner := rfl

@[simp] theorem state_bumpRrCounter : k.bumpRrCounter.state = k.state := rfl

@[simp] theorem state_assignTo {t : Nat} : (k.assignTo p t).state = update k.state p .ready := by
  simp [assignTo, setState, setTimeSlice, setOwner]

@[simp] theorem next_assignTo {t : Nat} : (k.assignTo p t).next = k.next := by
  simp [assignTo, setState, setTimeSlice]

@[simp] theorem mlfq_assignTo {t : Nat} : (k.assignTo p t).mlfq = k.mlfq := by
  simp [assignTo, setState, setTimeSlice]

@[simp] theorem owner_assignTo {t : Nat} : (k.assignTo p t).owner = update k.owner p t := by
  simp [assignTo, setState, setTimeSlice]

/-! ## `add_to_queue` -/

@[simp] theorem state_addToQueue : (k.addToQueue c p queue).state = k.state := by
  dsimp only [addToQueue]
  split <;> simp [setHead, setNext]

@[simp] theorem owner_addToQueue : (k.addToQueue c p queue).owner = k.owner := by
  dsimp only [addToQueue]
  split <;> simp [setHead, setNext]

@[simp] theorem current_addToQueue : (k.addToQueue c p queue).current = k.current := by
  dsimp only [addToQueue]
  split <;> simp [setHead, setNext]

@[simp] theorem idle_addToQueue : (k.addToQueue c p queue).idle = k.idle := by
  dsimp only [addToQueue]
  split <;> simp [setHead, setNext]

@[simp] theorem nproc_addToQueue : (k.addToQueue c p queue).nproc = k.nproc := by
  dsimp only [addToQueue]
  split <;> simp [setHead, setNext]

@[simp] theorem cpuCount_addToQueue : (k.addToQueue c p queue).cpuCount = k.cpuCount := by
  dsimp only [addToQueue]
  split <;> simp [setHead, setNext]

@[simp] theorem mlfq_addToQueue :
    (k.addToQueue c p queue).mlfq = update k.mlfq p (clampQueue queue) := by
  dsimp only [addToQueue]
  split <;> simp [setHead, setNext]

/-- `add_to_queue` of an unlinked process inserts it behind the head of its
queue. -/
theorem queued_addToQueue (h : Queued k L) (hp : ∀ c q, p ∉ L c q) (halloc : p < k.nproc) :
    Queued (k.addToQueue c p queue) (setQueue L c (clampQueue queue)
        (insertBehind p (L c (clampQueue queue)))) := by
  refine h.rebuild ?_ ?_ ?_ ?_ nproc_addToQueue
  -- the ring with `p` in it
  · dsimp only [addToQueue]
    cases hh : k.rqHead c (clampQueue queue) with
    | none =>
      rw [h.eq_nil hh]
      simpa [hh, setHead, setNext, insertBehind] using isRing_singleton k.next p
    | some a =>
      obtain ⟨t, hl, hpath, hn⟩ := h.eq_cons hh
      have hpl : p ∉ a :: t := hl ▸ hp c (clampQueue queue)
      have hpa : a ≠ p := fun e => hpl (e ▸ mem_cons_self)
      rw [hl]
      simpa [hh, setNext, insertBehind, hpa] using IsRing.insert ⟨rfl, hpath, hn⟩ hpl
  -- the other heads
  · intro c' q' hcq
    dsimp only [addToQueue]
    cases hh : k.rqHead c (clampQueue queue) with
    | none =>
      obtain rfl | hc := eq_or_ne c' c
      · have hq : q' ≠ clampQueue queue := fun e => hcq ⟨rfl, e⟩
        simp [hh, setHead, setNext, hq]
      · simp [hh, setHead, setNext, hc]
    | some a => simp [hh, setNext]
  -- the links of the other rings
  · intro c' q' hcq y hy
    have hyp : y ≠ p := fun e => hp c' q' (e ▸ hy)
    refine ⟨?_, by simp [hyp]⟩
    dsimp only [addToQueue]
    cases hh : k.rqHead c (clampQueue queue) with
    | none => simp [hh, setHead, setNext, hyp]
    | some a =>
      have hya : y ≠ a := by
        rintro rfl
        exact hcq (h.queue_eq hy (h.head_mem hh))
      simp [hh, setNext, hyp, hya]
  -- the members of the ring
  · intro y hy
    refine ⟨?_, clampQueue_lt queue, ?_, ?_⟩
    · by_cases hyp : y = p
      · simp [hyp]
      · have hyl := (mem_insertBehind.mp hy).resolve_left hyp
        simp [hyp, h.mlfq hyl]
    · rw [nproc_addToQueue]
      rcases mem_insertBehind.mp hy with rfl | hyl
      · exact halloc
      · exact h.alloc hyl
    · intro c' q' hcq hy'
      rcases mem_insertBehind.mp hy with rfl | hyl
      · exact hp c' q' hy'
      · exact hcq (h.queue_eq hy' hyl)

/-! ## `remove_from_queue` -/

@[simp] theorem state_removeFromQueue : (k.removeFromQueue c p).state = k.state := by
  dsimp only [removeFromQueue]
  repeat' split
  all_goals simp [setHead, setNext]

@[simp] theorem owner_removeFromQueue : (k.removeFromQueue c p).owner = k.owner := by
  dsimp only [removeFromQueue]
  repeat' split
  all_goals simp [setHead, setNext]

@[simp] theorem mlfq_removeFromQueue : (k.removeFromQueue c p).mlfq = k.mlfq := by
  dsimp only [removeFromQueue]
  repeat' split
  all_goals simp [setHead, setNext]

@[simp] theorem current_removeFromQueue : (k.removeFromQueue c p).current = k.current := by
  dsimp only [removeFromQueue]
  repeat' split
  all_goals simp [setHead, setNext]

@[simp] theorem idle_removeFromQueue : (k.removeFromQueue c p).idle = k.idle := by
  dsimp only [removeFromQueue]
  repeat' split
  all_goals simp [setHead, setNext]

@[simp] theorem nproc_removeFromQueue : (k.removeFromQueue c p).nproc = k.nproc := by
  dsimp only [removeFromQueue]
  repeat' split
  all_goals simp [setHead, setNext]

@[simp] theorem cpuCount_removeFromQueue : (k.removeFromQueue c p).cpuCount = k.cpuCount := by
  dsimp only [removeFromQueue]
  repeat' split
  all_goals simp [setHead, setNext]

/-- `remove_from_queue` on a CPU that does not have the process changes
nothing. -/
theorem removeFromQueue_of_notMem (h : Queued k L) (hp : ∀ q, p ∉ L c q) :
    k.removeFromQueue c p = k := by
  dsimp only [removeFromQueue]
  split
  · rfl
  cases hh : k.rqHead c (k.mlfq p).toNat with
  | none => rfl
  | some a =>
    obtain ⟨t, hl, hpath, -⟩ := h.eq_cons hh
    have hpl : p ∉ a :: t := hl ▸ hp (k.mlfq p).toNat
    have hpa : p ≠ a := fun e => hpl (e ▸ mem_cons_self)
    have hlen : t.length < k.nproc := by
      have := h.length_le c (k.mlfq p).toNat
      rwa [hl] at this
    have hnone : findPrev k.next a p k.nproc a = some none :=
      findPrev_eq_some_none hpath (fun e => hpl (.tail _ e)) hpa hlen
    simp [hpa.symm, hnone]

/-- What `remove_from_queue` does with the queue it finds: the three positions
of `p` are alone on the ring, at its head, and behind the head. -/
theorem removeFromQueue_cases (h : Queued k L) (hp : p ∈ L c q) :
    (L c q = [p] ∧ k.removeFromQueue c p = (k.setHead c q none).setNext p none) ∨
    (∃ x xs b, L c q = p :: x :: xs ∧
      (x :: xs).getLast (cons_ne_nil _ _) = b ∧ k.removeFromQueue c p =
        ((k.setNext b (k.next p)).setHead c q (k.next p)).setNext p none) ∨
    (∃ a xs ys b, L c q = a :: (xs ++ p :: ys) ∧
      (a :: xs).getLast (cons_ne_nil _ _) = b ∧
      k.removeFromQueue c p = (k.setNext b (k.next p)).setNext p none) := by
  have hr : ¬ (k.mlfq p < 0 ∨ (numQueues : Int) ≤ k.mlfq p) := by
    have := h.small hp
    rw [h.mlfq hp]
    omega
  have hq : (k.mlfq p).toNat = q := by rw [h.mlfq hp, Int.toNat_natCast]
  obtain ⟨a, t, hl⟩ := exists_cons_of_ne_nil (ne_nil_of_mem hp)
  obtain ⟨t', hl', hpath, hn⟩ := h.eq_cons (h.head_eq hl)
  obtain rfl : t = t' := (List.cons.inj (hl.symm.trans hl')).2
  have hat : a ∉ t := (nodup_cons.mp hn).1
  have hlen : t.length < k.nproc := by
    have := h.length_le c q
    rwa [hl] at this
  obtain rfl | hap := eq_or_ne a p
  · cases t with
    | nil =>
      have hself : k.next a = some a := hpath
      refine .inl ⟨hl, ?_⟩
      simp [removeFromQueue, hr, hq, h.head_eq hl, hself]
    | cons x xs =>
      have hself : ¬ k.next a = some a := fun e => cons_ne_nil _ _ ((path_self_iff hpath hn).mp e)
      have hprev := findPrev_eq_some hpath hat hat hlen
      have hne : a ≠ (x :: xs).getLast (cons_ne_nil _ _) := fun e => hat (e ▸ getLast_mem _)
      refine .inr (.inl ⟨x, xs, _, hl, rfl, ?_⟩)
      simp [removeFromQueue, hr, hq, h.head_eq hl, hself, hprev, hne]
  · rw [hl] at hp
    have hpt : p ∈ t := (mem_cons.mp hp).resolve_left (Ne.symm hap)
    obtain ⟨xs, ys, rfl⟩ := append_of_mem hpt
    have hpxs : p ∉ xs := fun e =>
      (nodup_append.mp (nodup_cons.mp hn).2).2.2 p e p mem_cons_self rfl
    have haxs : a ∉ xs := fun e => hat (mem_append_left _ e)
    have hprev := findPrev_eq_some (path_append.mp hpath).1 hpxs haxs
      (lt_of_le_of_lt (by simp) hlen)
    refine .inr (.inr ⟨a, xs, ys, _, hl, rfl, ?_⟩)
    simp [removeFromQueue, hr, hq, h.head_eq hl, hap, hprev]

/-- `remove_from_queue` by the CPU that has the process takes exactly this
process off its ring. -/
theorem queued_removeFromQueue (h : Queued k L) (hp : p ∈ L c q) :
    Queued (k.removeFromQueue c p) (setQueue L c q ((L c q).erase p)) := by
  have hring := h.ring c q
  have hnodup := hring.nodup
  have hmem : ∀ y ∈ (L c q).erase p, y ∈ L c q ∧ y ≠ p := fun y hy =>
    ⟨mem_of_mem_erase hy, ((hnodup.mem_erase_iff).mp hy).1⟩
  have hpout : p ∉ (L c q).erase p := fun e => (hmem p e).2 rfl
  have key : IsRing (k.removeFromQueue c p).next
        ((k.removeFromQueue c p).rqHead c q) ((L c q).erase p) ∧
      (∀ c' q', ¬ (c' = c ∧ q' = q) → (k.removeFromQueue c p).rqHead c' q' = k.rqHead c' q') ∧
      ∀ y, y ∉ L c q → (k.removeFromQueue c p).next y = k.next y := by
    obtain ⟨hl, he⟩ | ⟨x, xs, b, hl, hb, he⟩ | ⟨a, xs, ys, b, hl, hb, he⟩ :=
      removeFromQueue_cases h hp
    -- `p` was alone
    · rw [hl] at hpout ⊢
      simp only [he, rqHead_setNext, next_setNext, next_setHead]
      refine ⟨?_, fun c' q' hcq => rqHead_setHead_of_ne hcq, fun y hy => ?_⟩
      · simp [IsRing]
      · exact update_of_ne (fun e : y = p => hy (e ▸ mem_cons_self)) _ _
    -- `p` was the head, and the next one takes its place
    · have hbmem : b ∈ x :: xs := hb ▸ getLast_mem _
      rw [hl] at hring hnodup hpout ⊢
      rw [erase_cons_head] at hpout ⊢
      simp only [he, rqHead_setNext, next_setNext, next_setHead, rqHead_setHead_self]
      refine ⟨?_, fun c' q' hcq => ?_, fun y hy => ?_⟩
      · have := IsRing.unlink_head (h.head_eq hl ▸ hring) hb
        exact this.congr fun y hy => update_of_ne (fun e : y = p => hpout (e ▸ hy)) _ _
      · rw [rqHead_setHead_of_ne hcq, rqHead_setNext]
      · have hyp : y ≠ p := fun e => hy (e ▸ mem_cons_self)
        have hyb : y ≠ b := fun e => hy (e ▸ .tail _ hbmem)
        rw [update_of_ne hyp, update_of_ne hyb]
    -- `p` was behind the head
    · have hbmem : b ∈ a :: xs := hb ▸ getLast_mem _
      rw [hl] at hring hnodup hpout ⊢
      have her : (a :: (xs ++ p :: ys)).erase p = a :: (xs ++ ys) := by
        have hpa : p ∉ a :: xs := fun e =>
          (nodup_append.mp (show (a :: xs ++ p :: ys).Nodup from hnodup)).2.2 p e p
            mem_cons_self rfl
        rw [← cons_append, erase_append_right _ hpa, erase_cons_head, cons_append]
      rw [her] at hpout ⊢
      simp only [he, rqHead_setNext, next_setNext, h.head_eq hl]
      refine ⟨?_, fun c' q' hcq => trivial, fun y hy => ?_⟩
      · have := IsRing.unlink (h.head_eq hl ▸ hring) hb
        exact this.congr fun y hy => update_of_ne (fun e : y = p => hpout (e ▸ hy)) _ _
      · have hyp : y ≠ p := fun e => hy (by rw [e]; simp)
        have hyb : y ≠ b := fun e => hy (by
          rw [e]
          exact mem_append_left _ hbmem)
        rw [update_of_ne hyp, update_of_ne hyb]
  refine h.rebuild key.1 key.2.1 (fun c' q' hcq y hy => ?_) (fun y hy => ?_) nproc_removeFromQueue
  · have hyl : y ∉ L c q := fun e => hcq (h.queue_eq hy e)
    exact ⟨key.2.2 y hyl, by rw [mlfq_removeFromQueue]⟩
  · have hyl := (hmem y hy).1
    rw [mlfq_removeFromQueue, nproc_removeFromQueue]
    exact ⟨h.mlfq hyl, h.small hyl, h.alloc hyl, fun c' q' hcq hy' => hcq (h.queue_eq hy' hyl)⟩

/-! ## Rotation and stealing -/

/-- Moving the head of a queue to its successor rotates the node list. -/
theorem queued_rotate (h : Queued k L) (hh : k.rqHead c q = some p) :
    Queued (k.setHead c q (k.next p)) (setQueue L c q ((L c q).rotate 1)) := by
  obtain ⟨t, hl, hpath, hn⟩ := h.eq_cons hh
  have hrot : (L c q).rotate 1 = t ++ [p] := by rw [hl, rotate_cons_succ, rotate_zero]
  refine h.rebuild ?_ (fun c' q' hcq => rqHead_setHead_of_ne hcq)
    (fun c' q' _ y _ => ⟨rfl, rfl⟩) (fun y hy => ?_) rfl
  · rw [next_setHead, rqHead_setHead_self, hrot]
    exact IsRing.rotate ⟨rfl, hpath, hn⟩
  · have hyl : y ∈ L c q := mem_rotate.mp hy
    exact ⟨h.mlfq hyl, h.small hyl, h.alloc hyl, fun c' q' hcq hy' => hcq (h.queue_eq hy' hyl)⟩

/-- `secondInQueue` finds the second node of the ring. -/
theorem secondInQueue_eq {v : Nat} {a : Ptr} (h : Queued k L)
    (hs : k.secondInQueue v q = some (a, x)) : ∃ t, L v q = a :: x :: t := by
  unfold secondInQueue at hs
  cases hh : k.rqHead v q with
  | none => simp [hh] at hs
  | some b =>
    obtain ⟨t, hl, hpath, hn⟩ := h.eq_cons hh
    cases t with
    | nil =>
      have hself : k.next b = some b := hpath
      simp [hh, hself] at hs
    | cons y ys =>
      have hby : y ≠ b := fun e => (nodup_cons.mp hn).1 (e ▸ mem_cons_self)
      simp only [hh, hpath.1, hby, if_false, Option.some.injEq, Prod.mk.injEq] at hs
      obtain ⟨rfl, rfl⟩ := hs
      exact ⟨ys, hl⟩

/-- The candidate is the second node of a ring of another CPU. -/
theorem stealCandidate_eq {a : Ptr} (h : Queued k L) (hs : k.stealCandidate c = some (a, x)) :
    ∃ v q t, v ≠ c ∧ L v q = a :: x :: t := by
  obtain ⟨v, -, hv⟩ := exists_of_findSome?_eq_some hs
  split at hv
  · exact nomatch hv
  · rename_i hvc
    obtain ⟨q, -, hq⟩ := exists_of_findSome?_eq_some hv
    obtain ⟨t, ht⟩ := secondInQueue_eq h hq
    exact ⟨v, q, t, hvc, ht⟩

/-- Stealing the node behind the head of queue `q` of CPU `v` moves it to queue
`q` of CPU `c`. -/
theorem queued_stealNode {v : Nat} {a : Ptr} {t : List Ptr} (h : Queued k L)
    (hv : v ≠ c) (hl : L v q = a :: x :: t) :
    Queued (k.stealNode c a x) (stolenQueues L c v q x) := by
  have hxm : x ∈ L v q := by rw [hl]; simp
  have ham : a ∈ L v q := by rw [hl]; simp
  have hring := h.ring v q
  have hn := hring.nodup
  rw [hl] at hn
  have hax : x ≠ a := fun e => (nodup_cons.mp hn).1 (e ▸ mem_cons_self)
  have hxt : x ∉ t := (nodup_cons.mp (nodup_cons.mp hn).2).1
  have her : (L v q).erase x = a :: t := by
    rw [hl, erase_cons_tail (by simpa using hax.symm), erase_cons_head]
  -- unlink, then queue an unlinked process
  let k1 := ((k.setNext a (k.next x)).setNext x none).setOwner x c
  have hnext : k1.next =
      update (update k.next a (k.next x)) x none := by
    simp [k1]
  have hmlfq : k1.mlfq = k.mlfq := by simp [k1]
  have hQ : Queued k1 (setQueue L v q ((L v q).erase x)) := by
    refine h.rebuild ?_ (fun _ _ _ => rfl) (fun c' q' hcq y hy => ⟨?_, ?_⟩) (fun y hy => ?_) rfl
    · rw [her, hnext]
      show IsRing _ (k.rqHead v q) _
      rw [h.head_eq hl]
      rw [hl, h.head_eq hl] at hring
      refine hring.unlink_second.congr fun y hy => update_of_ne ?_ _ _
      rintro rfl
      exact (mem_cons.mp hy).elim hax hxt
    · have hya : y ≠ a := fun e => hcq (h.queue_eq (e ▸ hy) ham)
      have hyx : y ≠ x := fun e => hcq (h.queue_eq (e ▸ hy) hxm)
      rw [hnext, update_of_ne hyx, update_of_ne hya]
    · rw [hmlfq]
    · have hyl := mem_of_mem_erase hy
      rw [hmlfq]
      exact ⟨h.mlfq hyl, h.small hyl, h.alloc hyl, fun c' q' hcq hy' => hcq (h.queue_eq hy' hyl)⟩
  have hout : ∀ c' q', x ∉ setQueue L v q ((L v q).erase x) c' q' :=
    fun c' q' hx => (h.mem_erase hxm hx).2 rfl
  have hadd : Queued (k1.addToQueue c x (k1.mlfq x)) _ := queued_addToQueue hQ hout (h.alloc hxm)
  have hm : k1.mlfq x = q := by rw [hmlfq, h.mlfq hxm]
  have hcv : ¬ (c = v ∧ q = q) := fun e => hv e.1.symm
  rw [hm, clampQueue_natCast (h.small hxm), setQueue_of_ne hcv] at hadd
  show Queued (k1.addToQueue c x (k1.mlfq x)) (stolenQueues L c v q x)
  rw [hm]
  exact hadd

/-! ## Picking the next process -/

/-- A step that only moves processes between and along queues. -/
structure QueueStep (k k' : Kernel) : Prop where
  state : k'.state = k.state
  current : k'.current = k.current
  idle : k'.idle = k.idle
  nproc : k'.nproc = k.nproc
  cpuCount : k'.cpuCount = k.cpuCount

theorem QueueStep.refl (k : Kernel) : QueueStep k k := ⟨rfl, rfl, rfl, rfl, rfl⟩

theorem QueueStep.trans {k k' k'' : Kernel} (h : QueueStep k k')
    (h' : QueueStep k' k'') : QueueStep k k'' :=
  ⟨h'.state.trans h.state, h'.current.trans h.current, h'.idle.trans h.idle,
    h'.nproc.trans h.nproc, h'.cpuCount.trans h.cpuCount⟩

theorem findNextProcess_eq {q : Nat} (h : k.findNextProcess c = ⟨some p, q⟩) :
    k.rqHead c q = some p := by
  unfold findNextProcess at h
  split at h
  · obtain ⟨hp, rfl⟩ := SchedPick.mk.inj h
    exact hp
  · exact nomatch h

/-- The two outcomes of `pickOwn`: the queues are as before, or one of them is
rotated; and a process it returns is the head of the queue it names. -/
theorem pickOwn_cases (k : Kernel) (c : Nat) :
    ((k.pickOwn c).1 = k ∨ ∃ q p, k.rqHead c q = some p ∧
      (k.pickOwn c).1 = k.setHead c q (k.next p)) ∧ ∀ p, (k.pickOwn c).2.proc = some p →
      (k.pickOwn c).1.rqHead c (k.pickOwn c).2.queue = some p := by
  dsimp only [pickOwn]
  cases hf : k.findNextProcess c with
  | mk proc queue =>
    cases proc with
    | none => exact ⟨.inl rfl, fun p hp => nomatch hp⟩
    | some a =>
      have ha := findNextProcess_eq hf
      dsimp only
      split
      · have hrot : ∃ q p, k.rqHead c q = some p ∧
            k.setHead c queue (k.next a) = k.setHead c q (k.next p) :=
          ⟨queue, a, ha, rfl⟩
        split
        · exact ⟨.inr hrot, fun p hp => nomatch hp⟩
        · exact ⟨.inr hrot, fun p hp => findNextProcess_eq (SchedPick.ext hp rfl)⟩
      · exact ⟨.inl rfl, fun p hp => Option.some.inj hp ▸ ha⟩

theorem queueStep_pickOwn (k : Kernel) (c : Nat) : QueueStep k (k.pickOwn c).1 := by
  rcases (k.pickOwn_cases c).1 with he | ⟨q, p, -, he⟩
  · rw [he]
    exact .refl k
  · rw [he]
    constructor <;> simp [setHead]

theorem queueStep_tryStealWork (k : Kernel) (c : Nat) : QueueStep k (k.tryStealWork c).1 := by
  dsimp only [tryStealWork]
  split
  · exact .refl k
  · split
    · constructor <;> simp
    · constructor <;> simp [stealNode, setNext, setOwner]

theorem queueStep_pickNextOrIdle (k : Kernel) (c : Nat) : QueueStep k (k.pickNextOrIdle c).1 := by
  have hown := k.queueStep_pickOwn c
  unfold pickNextOrIdle
  generalize k.pickOwn c = r at hown
  obtain ⟨k1, ⟨proc, queue⟩⟩ := r
  cases proc with
  | some p => exact hown
  | none =>
    have hsteal := k1.queueStep_tryStealWork c
    dsimp only at hown hsteal ⊢
    generalize k1.tryStealWork c = r at hsteal
    obtain ⟨k2, taken⟩ := r
    cases taken <;> exact hown.trans hsteal

theorem cpuCount_demoteQuantumExhausted (k : Kernel) (c : Nat) :
    (k.demoteQuantumExhausted c).cpuCount = k.cpuCount := by
  dsimp only [demoteQuantumExhausted]
  split
  · rfl
  · split
    · rfl
    · simp [setState]

theorem current_demoteQuantumExhausted (k : Kernel) (c : Nat) :
    (k.demoteQuantumExhausted c).current = k.current := by
  dsimp only [demoteQuantumExhausted]
  split
  · rfl
  · split
    · rfl
    · simp [setState]

theorem state_installNext (k : Kernel) (c : Nat) (p : Ptr) (q : Nat) :
    (k.installNext c p q).state = (k.setState p .running).state := by
  dsimp only [installNext]
  split <;> simp [setState, setCurrent, setHead]

end Kernel

end UnixOs
