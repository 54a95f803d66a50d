import Mathlib.Data.List.Perm.Subperm
import UnixOs.Core.Waitq
import UnixOs.Lib.Chain
import UnixOs.Lib.Run

/-!
# `wake_all` and the waiters it walks over

`wake_all` takes the whole list off the queue under its lock and then follows the
links without it, while the owners of the entries may be scheduled, leave the queue
(`wait_queue_finish`) and wait again (`wait_queue_prepare`) with the same entry. The
steps are the locked sections and the visits of single entries, for any number of
waiters and of CPUs that wake. A waiter is named by its process, and so is its entry.

- `WakeSystem`: the kernel, who is between `prepare` and `finish`, and the entries
  each `wake_all` took off and has not yet dealt with;
- `WakeInv`: the queue and the lists being walked are separate lists;
- `Woken`: what `wake_all` owes, in a state.
-/

namespace UnixOs

open Function List Machine Option Kernel

open Chain

namespace Kernel

/-- The links of the entries. -/
def link (k : Kernel) (e : Nat) : Option Nat := (k.entry e).next

/-- The entries from `h` on. -/
def chain (k : Kernel) (h : Option Nat) : List Nat := walk k.link k.nentry h

variable {k : Kernel} {e : Nat} {p : Ptr} {wq : WaitQueue}

theorem link_modEntry (f : WaitEntry → WaitEntry) :
    (k.modEntry e f).link = update k.link e (f (k.entry e)).next :=
  comp_update WaitEntry.next k.entry e _

theorem link_pushEntry (wq : WaitQueue) (e : Nat) (p : Ptr) :
    (k.pushEntry wq e p).link = update k.link e (k.wqHead wq) :=
  comp_update WaitEntry.next k.entry e _

theorem entry_casState (old new : ProcState) : (k.casState p old new).entry = k.entry := by
  rw [casState]
  split <;> rfl

theorem wqHead_casState (old new : ProcState) : (k.casState p old new).wqHead = k.wqHead := by
  rw [casState]
  split <;> rfl

theorem waking_casState (old new : ProcState) : (k.casState p old new).waking = k.waking := by
  rw [casState]
  split <;> rfl

theorem nentry_casState (old new : ProcState) : (k.casState p old new).nentry = k.nentry := by
  rw [casState]
  split <;> rfl

/-- Waking a process changes its state and an interrupt line. -/
theorem wakeProcess_frame (c : Nat) (p : Ptr) :
    (k.wakeProcess c p).entry = k.entry ∧ (k.wakeProcess c p).wqHead = k.wqHead ∧
      (k.wakeProcess c p).waking = k.waking ∧ (k.wakeProcess c p).nentry = k.nentry ∧
      (k.wakeProcess c p).state = update k.state p .ready := by
  have hstate : (k.setState p .ready).state = update k.state p .ready := state_modProc
  rw [wakeProcess]
  split
  · rw [sendResched]
    split
    · exact ⟨rfl, rfl, rfl, rfl, hstate⟩
    · exact ⟨rfl, rfl, rfl, rfl, hstate⟩
  · exact ⟨rfl, rfl, rfl, rfl, hstate⟩

theorem findEntryPrev_eq (e fuel x : Nat) :
    k.findEntryPrev e fuel x = findPrev k.link e fuel x := by
  induction fuel generalizing x with
  | zero => rfl
  | succ fuel ih =>
    rw [findEntryPrev, findPrev, link]
    cases (k.entry x).next with
    | none => rfl
    | some y => simp only [ih]

/-- What unlinking does, for a queue that is a list without repetition. -/
theorem unlinkEntry_spec {l : List Nat} (hl : Chain.Linked k.link (k.wqHead wq) l) (hn : l.Nodup)
    (hlen : l.length ≤ k.nentry) :
    Chain.Linked (k.unlinkEntry wq e).link ((k.unlinkEntry wq e).wqHead wq) (l.erase e) ∧
      (∀ a, a ∉ l → (k.unlinkEntry wq e).link a = k.link a) ∧
      (k.unlinkEntry wq e).waking = k.waking ∧ (k.unlinkEntry wq e).nentry = k.nentry ∧
      (k.unlinkEntry wq e).state = k.state ∧
      ∀ a, ((k.unlinkEntry wq e).entry a).proc = (k.entry a).proc := by
  -- Cutting a link leaves the owner of the entry alone.
  have hproc : ∀ (k : Kernel) x v a,
      ((k.modEntry x fun y => { y with next := v }).entry a).proc = (k.entry a).proc := by
    intro k x v a
    show (update k.entry x _ a).proc = _
    obtain rfl | ha := eq_or_ne a x
    · rw [update_self]
    · rw [update_of_ne ha]
  rw [unlinkEntry]
  cases hhead : k.wqHead wq with
  | none =>
    rw [hhead] at hl
    obtain rfl := hl.eq_nil
    exact ⟨by rw [hhead]; rfl, fun a _ => rfl, rfl, rfl, rfl, fun a => rfl⟩
  | some h =>
    rw [hhead] at hl
    obtain ⟨t, rfl, ht⟩ := hl.eq_cons
    obtain ⟨hht, hnt⟩ := nodup_cons.1 hn
    obtain rfl | hhe := eq_or_ne h e
    · simp only [if_true]
      refine ⟨?_, fun a ha => ?_, rfl, rfl, rfl, hproc _ h none⟩
      · rw [erase_cons_head]
        show Chain.Linked _ (update k.wqHead wq (k.link h) wq) t
        rw [update_self, link_modEntry]
        exact ht.update hht none
      · rw [link_modEntry, update_of_ne]
        · rfl
        · rintro rfl
          exact ha mem_cons_self
    simp only [if_neg hhe, findEntryPrev_eq]
    rw [erase_cons_tail (by simpa using hhe)]
    by_cases het : e ∈ t
    · obtain ⟨l1, y, l2, hfind, hsplit⟩ := findPrev_of_mem ht het
        (Nat.le_trans (Nat.le_succ _) hlen)
      rw [hfind, Option.join_some]
      have hmem : y ∈ h :: t ∧ e ∈ h :: t := by
        rw [hsplit]
        simp
      rw [hsplit] at hn hl
      have herase : h :: t.erase e = l1 ++ y :: l2 := by
        rw [← erase_cons_tail (by simpa using hhe), hsplit]
        obtain ⟨-, hne, hdisj⟩ := nodup_append.1 hn
        rw [erase_append_right _ fun he => hdisj e he e (by simp) rfl,
          erase_cons_tail, erase_cons_head]
        have := (nodup_cons.1 hne).1
        simp only [beq_iff_eq]
        rintro rfl
        exact this mem_cons_self
      rw [herase]
      refine ⟨?_, fun a ha => ?_, rfl, rfl, rfl, fun a => ?_⟩
      · show Chain.Linked _ (k.wqHead wq) _
        rw [hhead, link_modEntry, link_modEntry]
        refine (hl.unlink hn).update ?_ none
        have hsub := nodup_append.1 hn
        simp only [mem_append, mem_cons, not_or]
        refine ⟨fun he => hsub.2.2 e he e (by simp) rfl, ?_, ?_⟩
        · rintro rfl
          exact (nodup_cons.1 hsub.2.1).1 mem_cons_self
        · exact (nodup_cons.1 (nodup_cons.1 hsub.2.1).2).1
      · rw [link_modEntry, link_modEntry, update_of_ne, update_of_ne]
        · rintro rfl
          exact ha hmem.1
        · rintro rfl
          exact ha hmem.2
      · rw [hproc, hproc]
    · rw [findPrev_of_not_mem ht het hlen, Option.join_some, erase_of_not_mem het]
      exact ⟨by rw [hhead]; exact hl, fun a _ => rfl, rfl, rfl, rfl, fun a => rfl⟩

/-- What the visit of an entry does. -/
theorem wakeVisit_spec {c : Nat} (hc : k.waking c = some e) :
    (k.wakeVisit c).link = update k.link e none ∧ (k.wakeVisit c).wqHead = k.wqHead ∧
      (k.wakeVisit c).waking = update k.waking c (k.link e) ∧ (k.wakeVisit c).nentry = k.nentry ∧
      (∀ a, ((k.wakeVisit c).entry a).proc = (k.entry a).proc) ∧
      (k.wakeVisit c).state = match (k.entry e).proc with
        | none => k.state
        | some p => update k.state p .ready := by
  have hproc : ∀ a, ((k.modEntry e fun x => { x with next := none }).entry a).proc
      = (k.entry a).proc := by
    intro a
    show (update k.entry e _ a).proc = _
    obtain rfl | ha := eq_or_ne a e
    · rw [update_self]
    · rw [update_of_ne ha]
  have hlink : (k.modEntry e fun x => { x with next := none }).link
      = update k.link e none := link_modEntry _
  simp only [wakeVisit, hc, hproc e]
  generalize (k.entry e).proc = owner
  cases owner with
  | none => exact ⟨hlink, rfl, rfl, rfl, hproc, rfl⟩
  | some p =>
    obtain ⟨hentry, hhead, hwaking, hnentry, hstate⟩ :=
      wakeProcess_frame c p
    refine ⟨?_, hhead, ?_, hnentry, ?_, hstate⟩
    · rw [← hlink]
      funext a
      show (((k.modEntry e _).wakeProcess c p).entry a).next = _
      rw [hentry]
      rfl
    · show update ((k.modEntry e _).wakeProcess c p).waking c _ = _
      rw [hwaking]
      rfl
    · intro a
      show (((k.modEntry e _).wakeProcess c p).entry a).proc = _
      rw [hentry]
      exact hproc a

end Kernel

structure WakeSystem where
  kernel : Kernel
  waiting : Ptr → Bool
  owed : Nat → List Nat

inductive WakeEvent where
  | dispatch (c : Nat) (p : Ptr)
  | prepare (c : Nat)
  | finish (p : Ptr)
  | detach (c : Nat)
  | visit (c : Nat)

namespace WakeSystem

/-- One step at the queue `wq`. A process calls `prepare` and `finish` in turns, as
`wait_event` does. The entry of the source is on the stack of `wait_event` and is gone when
that returns; here it stays, and a `wake_all` with a link to it finds it as `finish` left it. -/
def step (wq : WaitQueue) (s : WakeSystem) : WakeEvent → WakeSystem
  | .dispatch c p =>
    { s with kernel := (s.kernel.setCurrent c (some p)).setState p .running }
  | .prepare c =>
    match s.kernel.current c with
    | none => s
    | some p =>
      if s.waiting p then s
      else
        { s with
          kernel := s.kernel.waitQueuePrepare c wq p
          waiting := update s.waiting p true }
  | .finish p =>
    if s.waiting p then
      { kernel := s.kernel.waitQueueFinish wq p
        waiting := update s.waiting p false
        owed := fun c => (s.owed c).filter (· ≠ p) }
    else s
  | .detach c =>
    if (s.kernel.waking c).isSome then s
    else
      { s with
        kernel := s.kernel.wakeDetach c wq
        owed := update s.owed c (s.kernel.chain (s.kernel.wqHead wq)) }
  | .visit c =>
    match s.kernel.waking c with
    | none => s
    | some e =>
      { s with
        kernel := s.kernel.wakeVisit c
        owed := if (s.kernel.entry e).proc.isSome then
          update s.owed c ((s.owed c).filter (· ≠ e)) else s.owed }

/-- No one waits, and nothing is being woken. -/
def init (k : Kernel) : WakeSystem where
  kernel := { k with
    wqHead := fun _ => none
    entry := fun _ => {}
    nentry := 0
    waking := fun _ => none }
  waiting := fun _ => false
  owed := fun _ => []

/-- Every `wake_all` that has ended has made each waiter it took off the queue
READY or seen it leave, and a waiter that is BLOCKED is on the queue or on a list
that is still being walked. -/
structure Woken (wq : WaitQueue) (s : WakeSystem) : Prop where
  paid : ∀ c, s.kernel.waking c = none → s.owed c = []
  found : ∀ p, s.waiting p = true → s.kernel.state p = .blocked →
    p ∈ s.kernel.chain (s.kernel.wqHead wq) ∨ ∃ c, p ∈ s.kernel.chain (s.kernel.waking c)

/-- A process waits again only after every `wake_all` has passed its entry. -/
def StepOk (s : WakeSystem) : WakeEvent → Prop
  | .prepare c => ∀ p, s.kernel.current c = some p → s.waiting p = false →
      ∀ c', p ∉ s.kernel.chain (s.kernel.waking c')
  | _ => True

/-! ## The lists -/

/-- The queue is the list `l`, and the `wake_all` on each CPU has the list `r c`
left to walk; no entry is on two of them. -/
structure WakeInv (wq : WaitQueue) (s : WakeSystem) (l : List Nat) (r : Nat → List Nat) :
    Prop where
  queue : Linked s.kernel.link (s.kernel.wqHead wq) l
  walks : ∀ c, Linked s.kernel.link (s.kernel.waking c) (r c)
  nodup : l.Nodup
  nodups : ∀ c, (r c).Nodup
  apart : ∀ c, ∀ e ∈ l, e ∉ r c
  aparts : ∀ c c', c ≠ c' → ∀ e ∈ r c, e ∉ r c'
  bound : ∀ e ∈ l, e < s.kernel.nentry
  bounds : ∀ c, ∀ e ∈ r c, e < s.kernel.nentry
  proc : ∀ e, (s.kernel.entry e).proc = if s.waiting e then some e else none
  waits : ∀ e ∈ l, s.waiting e = true
  found : ∀ p, s.waiting p = true → s.kernel.state p = .blocked → p ∈ l ∨ ∃ c, p ∈ r c
  owes : ∀ c, ∀ e ∈ s.owed c, e ∈ r c ∧ s.waiting e = true

theorem length_le_of_nodup {l : List Nat} {n : Nat} (hn : l.Nodup) (hl : ∀ e ∈ l, e < n) :
    l.length ≤ n := by
  have hsub : l ⊆ List.range n := fun e he => mem_range.2 (hl e he)
  have := (subperm_of_subset hn hsub).length_le
  rwa [length_range] at this

variable {wq : WaitQueue} {s : WakeSystem} {l : List Nat} {r : Nat → List Nat}

namespace WakeInv

section

variable (h : WakeInv wq s l r)
include h

theorem chain_queue : s.kernel.chain (s.kernel.wqHead wq) = l :=
  h.queue.walk_eq (length_le_of_nodup h.nodup h.bound)

theorem chain_walk (c : Nat) : s.kernel.chain (s.kernel.waking c) = r c :=
  (h.walks c).walk_eq (length_le_of_nodup (h.nodups c) (h.bounds c))

/-- The invariant gives what `wake_all` owes. -/
theorem woken : Woken wq s where
  paid := by
    intro c hc
    have hnil : r c = [] := by
      have hw := h.walks c
      rw [hc] at hw
      exact hw.eq_nil
    rw [eq_nil_iff_forall_not_mem]
    intro e he
    have := (h.owes c e he).1
    rw [hnil] at this
    cases this
  found := by
    intro p hp hblocked
    obtain hl | ⟨c, hc⟩ := h.found p hp hblocked
    · exact .inl (h.chain_queue.symm ▸ hl)
    · exact .inr ⟨c, (h.chain_walk c).symm ▸ hc⟩

end

/-! ## Steps -/

section

variable (h : WakeInv wq s l r)
include h

/-- Nothing but states and what is running changes, and no state becomes BLOCKED. -/
theorem frame {k : Kernel} (hentry : k.entry = s.kernel.entry)
    (hhead : k.wqHead = s.kernel.wqHead) (hwaking : k.waking = s.kernel.waking)
    (hnentry : k.nentry = s.kernel.nentry)
    (hstate : ∀ p, k.state p = .blocked → s.kernel.state p = .blocked) :
    WakeInv wq { s with kernel := k } l r := by
  have hlink : k.link = s.kernel.link := by
    funext e
    rw [link, link, hentry]
  constructor
  · rw [hlink, hhead]
    exact h.queue
  · intro c
    rw [hlink, hwaking]
    exact h.walks c
  · exact h.nodup
  · exact h.nodups
  · exact h.apart
  · exact h.aparts
  · rw [hnentry]
    exact h.bound
  · rw [hnentry]
    exact h.bounds
  · rw [hentry]
    exact h.proc
  · exact h.waits
  · exact fun p hp hblocked => h.found p hp (hstate p hblocked)
  · exact h.owes

theorem dispatch (c : Nat) (p : Ptr) : WakeInv wq (s.step wq (.dispatch c p)) l r := by
  refine h.frame rfl rfl rfl rfl fun p' hp' => ?_
  have hst : ((s.kernel.setCurrent c (some p)).setState p .running).state
      = update s.kernel.state p .running := state_modProc
  rw [hst] at hp'
  obtain rfl | hpp := eq_or_ne p' p
  · rw [update_self] at hp'
    cases hp'
  · rwa [update_of_ne hpp] at hp'

/-- A process links its entry, which is on no list. -/
theorem prepare {c : Nat} {p : Ptr} (hcur : s.kernel.current c = some p)
    (hp : s.waiting p = false) (hr : ∀ c', p ∉ r c') :
    WakeInv wq (s.step wq (.prepare c)) (p :: l) r := by
  -- a process that is not waiting has no entry on the queue
  have hl : p ∉ l := fun hpl => by
    rw [h.waits p hpl] at hp
    cases hp
  have hproc := h.proc p
  rw [hp] at hproc
  have hk : s.kernel.waitQueuePrepare c wq p
      = (s.kernel.pushEntry wq p p).setState p .blocked := by
    simp only [waitQueuePrepare, hcur, hproc]
    rw [if_pos (by simp)]
  have hstep : s.step wq (.prepare c)
      = { s with
          kernel := (s.kernel.pushEntry wq p p).setState p .blocked
          waiting := update s.waiting p true } := by
    simp only [step, hcur, hp, hk]
    rfl
  have hlink : ((s.kernel.pushEntry wq p p).setState p .blocked).link
      = update s.kernel.link p (s.kernel.wqHead wq) := link_pushEntry wq p p
  have hstate : ((s.kernel.pushEntry wq p p).setState p .blocked).state
      = update s.kernel.state p .blocked := state_modProc
  have hle : s.kernel.nentry ≤ max s.kernel.nentry (p + 1) := Nat.le_max_left ..
  have hwaits : ∀ e, s.waiting e = true → update s.waiting p true e = true := by
    intro e he
    by_cases hep : e = p
    · rw [hep, update_self]
    · rwa [update_of_ne hep]
  rw [hstep]
  -- the entry goes to the front of the queue, and is on no list that is being walked
  constructor
  · show Linked _ (update s.kernel.wqHead wq (some p) wq) _
    rw [update_self, hlink]
    exact h.queue.push hl
  · intro c'
    rw [hlink]
    exact (h.walks c').update (hr c') _
  · exact nodup_cons.2 ⟨hl, h.nodup⟩
  · exact h.nodups
  · intro c' e he
    obtain rfl | he := mem_cons.1 he
    · exact hr c'
    · exact h.apart c' e he
  · exact h.aparts
  · intro e he
    show e < max s.kernel.nentry (p + 1)
    obtain rfl | he := mem_cons.1 he
    · omega
    · have := h.bound e he
      omega
  · exact fun c' e he => Nat.lt_of_lt_of_le (h.bounds c' e he) hle
  · intro e
    show (update s.kernel.entry p _ e).proc = if update s.waiting p true e = true
      then _ else _
    obtain rfl | hep := eq_or_ne e p
    · rw [update_self, update_self, if_pos rfl]
    · rw [update_of_ne hep, update_of_ne hep]
      exact h.proc e
  · intro e he
    obtain rfl | he := mem_cons.1 he
    · exact update_self ..
    · exact hwaits e (h.waits e he)
  · intro e he hblocked
    by_cases hep : e = p
    · exact .inl (hep ▸ mem_cons_self)
    · rw [hstate, update_of_ne hep] at hblocked
      replace he : update s.waiting p true e = true := he
      rw [update_of_ne hep] at he
      exact (h.found e he hblocked).imp_left (.tail p)
  · intro c' e he
    exact ⟨(h.owes c' e he).1, hwaits e (h.owes c' e he).2⟩

/-- A process takes its entry off the queue, if it is there. -/
theorem finish {p : Ptr} (hp : s.waiting p = true) :
    WakeInv wq (s.step wq (.finish p)) (l.erase p) r := by
  obtain ⟨hqueue, hlink, hwaking, hnentry, hstate, hproc⟩ :=
    unlinkEntry_spec h.queue h.nodup (length_le_of_nodup h.nodup h.bound)
  rw [step, if_pos hp]
  have hown : ((s.kernel.unlinkEntry wq p).entry p).proc = some p := by
    rw [hproc, h.proc, if_pos hp]
  have hk : s.kernel.waitQueueFinish wq p = ((s.kernel.unlinkEntry wq p).casState p
      .blocked .running).modEntry p fun x => { x with proc := none } := by
    simp only [waitQueueFinish, hown]
  rw [hk]
  generalize s.kernel.unlinkEntry wq p = k at *
  have hentry := entry_casState (k := k) (p := p) .blocked .running
  set k1 := k.casState p .blocked .running with hk1
  have hlink' : (k1.modEntry p
      fun x => { x with proc := none }).link = k.link := by
    rw [link_modEntry]
    have : k1.link = k.link := by
      funext e
      rw [link, link, hentry]
    rw [this]
    rw [hentry]
    exact update_eq_self p k.link
  have hstate' : ∀ e, e ≠ p → k1.state e = s.kernel.state e := by
    intro e hep
    rw [← hstate, hk1, casState]
    split
    · rw [show (k.setState p .running).state = update k.state p .running from
        state_modProc, update_of_ne hep]
    · rfl
  have hwaits : ∀ e, e ≠ p → update s.waiting p false e = s.waiting e :=
    fun e hep => update_of_ne hep ..
  -- only links of the queue have changed, so the lists being walked stay
  constructor
  · show Linked _ (k1.wqHead wq) _
    rw [hlink', hk1, wqHead_casState]
    exact hqueue
  · intro c
    show Linked _ (k1.waking c) _
    rw [hlink', hk1, waking_casState, hwaking]
    exact (h.walks c).congr fun e he => hlink e fun hel => h.apart c e hel he
  · exact h.nodup.erase p
  · exact h.nodups
  · exact fun c e he => h.apart c e (mem_of_mem_erase he)
  · exact h.aparts
  · intro e he
    show e < k1.nentry
    rw [hk1, nentry_casState, hnentry]
    exact h.bound e (mem_of_mem_erase he)
  · intro c e he
    show e < k1.nentry
    rw [hk1, nentry_casState, hnentry]
    exact h.bounds c e he
  · intro e
    show (update k1.entry p _ e).proc = _
    obtain rfl | hep := eq_or_ne e p
    · simp only [update_self, Bool.false_eq_true, if_false]
    · simp only [update_of_ne hep]
      rw [hentry, hproc]
      exact h.proc e
  · intro e he
    have hep : e ≠ p := by
      rintro rfl
      exact h.nodup.not_mem_erase he
    show update s.waiting p false e = true
    rw [hwaits e hep]
    exact h.waits e (mem_of_mem_erase he)
  · intro e he hblocked
    have hep : e ≠ p := by
      rintro rfl
      replace he : update s.waiting e false e = true := he
      rw [update_self] at he
      cases he
    replace he : update s.waiting p false e = true := he
    rw [hwaits e hep] at he
    replace hblocked : k1.state e = .blocked := hblocked
    rw [hstate' e hep] at hblocked
    exact (h.found e he hblocked).imp_left fun hel => (mem_erase_of_ne hep).2 hel
  · intro c e he
    obtain ⟨heo, hep⟩ := mem_filter.1 he
    replace hep : e ≠ p := of_decide_eq_true hep
    refine ⟨(h.owes c e heo).1, ?_⟩
    show update s.waiting p false e = true
    rw [hwaits e hep]
    exact (h.owes c e heo).2

/-- A `wake_all` takes the whole list. -/
theorem detach {c : Nat} (hc : s.kernel.waking c = none) :
    WakeInv wq (s.step wq (.detach c)) [] (update r c l) := by
  have hrc : r c = [] := by
    have hw := h.walks c
    rw [hc] at hw
    exact hw.eq_nil
  have hstep : s.step wq (.detach c) = { s with
      kernel := s.kernel.wakeDetach c wq
      owed := update s.owed c l } := by
    simp only [step, hc, isSome_none, Bool.false_eq_true, if_false, h.chain_queue]
  rw [hstep]
  -- the queue becomes the list of CPU `c`, which had none
  constructor
  · exact update_self ..
  · intro c'
    show Linked s.kernel.link (update s.kernel.waking c (s.kernel.wqHead wq) c') _
    obtain rfl | hcc := eq_or_ne c' c
    · rw [update_self, update_self]
      exact h.queue
    · rw [update_of_ne hcc, update_of_ne hcc]
      exact h.walks c'
  · exact nodup_nil
  · intro c'
    obtain rfl | hcc := eq_or_ne c' c
    · rw [update_self]
      exact h.nodup
    · rw [update_of_ne hcc]
      exact h.nodups c'
  · intro c' e he
    cases he
  · intro c1 c2 hne e he
    obtain rfl | h1 := eq_or_ne c1 c
    · rw [update_self] at he
      rw [update_of_ne hne.symm]
      exact h.apart c2 e he
    · rw [update_of_ne h1] at he
      obtain rfl | h2 := eq_or_ne c2 c
      · rw [update_self]
        exact fun hel => h.apart c1 e hel he
      · rw [update_of_ne h2]
        exact h.aparts c1 c2 hne e he
  · intro e he
    cases he
  · intro c' e he
    obtain rfl | hcc := eq_or_ne c' c
    · rw [update_self] at he
      exact h.bound e he
    · rw [update_of_ne hcc] at he
      exact h.bounds c' e he
  · exact h.proc
  · intro e he
    cases he
  · intro e he hblocked
    refine .inr ?_
    obtain hel | ⟨c', hec⟩ := h.found e he hblocked
    · exact ⟨c, by rwa [update_self]⟩
    -- the list of CPU `c` was empty, so this is one of another CPU
    · have hcc : c' ≠ c := by
        rintro rfl
        rw [hrc] at hec
        cases hec
      exact ⟨c', by rwa [update_of_ne hcc]⟩
  · intro c' e he
    replace he : e ∈ update s.owed c l c' := he
    obtain rfl | hcc := eq_or_ne c' c
    · rw [update_self] at he ⊢
      exact ⟨he, h.waits e he⟩
    · rw [update_of_ne hcc] at he ⊢
      exact h.owes c' e he

/-- A `wake_all` deals with the next entry of its list. -/
theorem visit {c e : Nat} {t : List Nat} (hc : s.kernel.waking c = some e) (hrc : r c = e :: t) :
    WakeInv wq (s.step wq (.visit c)) l (update r c t) := by
  obtain ⟨hlink, hhead, hwaking, hnentry, hproc, hstate⟩ := wakeVisit_spec hc
  have hown := h.proc e
  have hwalk := h.walks c
  rw [hc, hrc] at hwalk
  obtain ⟨-, htail⟩ := hwalk
  have hnodup := h.nodups c
  rw [hrc, nodup_cons] at hnodup
  have her : e ∈ r c := by
    rw [hrc]
    exact mem_cons_self
  have hsub (c' : Nat) : (update r c t c').Sublist (r c') := by
    by_cases hcc : c' = c
    · rw [hcc, update_self, hrc]
      exact sublist_cons_self e t
    · rw [update_of_ne hcc]
  have hkeep {c' a : Nat} (ha : a ∈ r c') (hae : a ≠ e) : a ∈ update r c t c' := by
    by_cases hcc : c' = c
    · rw [hcc, hrc] at ha
      rw [hcc, update_self]
      exact mem_of_ne_of_mem hae ha
    · rwa [update_of_ne hcc]
  simp only [step, hc]
  constructor
  · rw [hlink, hhead]
    exact h.queue.update (fun hel => h.apart c e hel her) none
  · intro c'
    rw [hlink, hwaking]
    obtain rfl | hcc := eq_or_ne c' c
    · rw [update_self, update_self]
      exact htail.update hnodup.1 none
    · rw [update_of_ne hcc, update_of_ne hcc]
      exact (h.walks c').update (h.aparts c c' (Ne.symm hcc) e her) none
  · exact h.nodup
  · exact fun c' => (h.nodups c').sublist (hsub c')
  · exact fun c' a hal ha => h.apart c' a hal ((hsub c').subset ha)
  · exact fun c1 c2 hne a h1 h2 => h.aparts c1 c2 hne a ((hsub c1).subset h1) ((hsub c2).subset h2)
  · rw [hnentry]
    exact h.bound
  · intro c' a ha
    rw [hnentry]
    exact h.bounds c' a ((hsub c').subset ha)
  · intro a
    exact (hproc a).trans (h.proc a)
  · exact h.waits
  · -- The process of the entry is READY now, and the others are where they were.
    intro a ha hblocked
    replace hblocked : (s.kernel.wakeVisit c).state a = .blocked := hblocked
    have hae : a ≠ e ∧ s.kernel.state a = .blocked := by
      rw [hstate, hown] at hblocked
      by_cases he : s.waiting e = true
      · simp only [he, if_true] at hblocked
        have hae : a ≠ e := by
          rintro rfl
          rw [update_self] at hblocked
          cases hblocked
        exact ⟨hae, by rwa [update_of_ne hae] at hblocked⟩
      · simp only [he] at hblocked
        exact ⟨by rintro rfl; exact he ha, hblocked⟩
    refine (h.found a ha hae.2).imp_right ?_
    rintro ⟨c', hac⟩
    exact ⟨c', hkeep hac hae.1⟩
  · intro c' a ha
    have howed : a ∈ s.owed c' ∧ a ≠ e := by
      by_cases he : s.waiting e = true
      · simp only [hown, he, if_true, isSome_some] at ha
        by_cases hcc : c' = c
        · rw [hcc, update_self] at ha
          obtain ⟨hao, hae⟩ := mem_filter.1 ha
          exact ⟨hcc ▸ hao, of_decide_eq_true hae⟩
        · rw [update_of_ne hcc] at ha
          exact ⟨ha, fun hae => h.aparts c c' (Ne.symm hcc) e her (hae ▸ (h.owes c' a ha).1)⟩
      · -- Nobody owes anything to a process that has left.
        simp only [hown, he] at ha
        replace ha : a ∈ s.owed c' := ha
        exact ⟨ha, fun hae => he (hae ▸ (h.owes c' a ha).2)⟩
    exact (h.owes c' a howed.1).imp_left fun hold => hkeep hold howed.2

/-- One case for each event, with the lists that it leaves. -/
theorem step {ev : WakeEvent} (hok : s.StepOk ev) : ∃ l r, WakeInv wq (s.step wq ev) l r := by
  cases ev with
  | dispatch c p => exact ⟨l, r, h.dispatch c p⟩
  | prepare c =>
    cases hcur : s.kernel.current c with
    | none =>
      simp only [WakeSystem.step, hcur]
      exact ⟨l, r, h⟩
    | some p =>
      cases hp : s.waiting p with
      | true =>
        simp only [WakeSystem.step, hcur, hp]
        exact ⟨l, r, h⟩
      | false =>
        refine ⟨_, _, h.prepare hcur hp fun c' hr => ?_⟩
        refine hok p hcur hp c' ?_
        rwa [h.chain_walk]
  | finish p =>
    cases hp : s.waiting p with
    | true => exact ⟨_, _, h.finish hp⟩
    | false =>
      simp only [WakeSystem.step, hp]
      exact ⟨l, r, h⟩
  | detach c =>
    cases hc : s.kernel.waking c with
    | none => exact ⟨_, _, h.detach hc⟩
    | some e =>
      simp only [WakeSystem.step, hc]
      exact ⟨l, r, h⟩
  | visit c =>
    cases hc : s.kernel.waking c with
    | none =>
      simp only [WakeSystem.step, hc]
      exact ⟨l, r, h⟩
    | some e =>
      have hwalk := h.walks c
      rw [hc] at hwalk
      obtain ⟨t, hrc, -⟩ := hwalk.eq_cons
      exact ⟨_, _, h.visit hc hrc⟩

end

end WakeInv

/-- At first all lists are empty. -/
theorem wakeInv_init (k : Kernel) : WakeInv wq (init k) [] fun _ => [] := by
  constructor
  · exact rfl
  · exact fun c => rfl
  · exact nodup_nil
  · exact fun c => nodup_nil
  · intro c e he
    cases he
  · intro c c' _ e he
    cases he
  · intro e he
    cases he
  · intro c e he
    cases he
  · exact fun e => rfl
  · intro e he
    cases he
  · intro p hp
    cases hp
  · intro c e he
    cases he

/-- Two CPUs and four processes that have not been set up. -/
def blank : Kernel where
  proc := fun _ => Process.zeroed
  nproc := 4
  processTable := fun _ => none
  processTableHt := fun _ => none
  nextPid := 1
  cpu := fun _ => {}
  cpuCount := 2
  rrCounter := 0
  wqHead := fun _ => none
  entry := fun _ => {}
  nentry := 0
  waking := fun _ => none

/-- Two processes wait, CPU 1 wakes them, and one of them leaves on the way. -/
def wakeRun : List WakeEvent :=
  [.dispatch 0 1, .prepare 0, .dispatch 0 2, .prepare 0, .detach 1, .visit 1, .dispatch 0 1,
    .finish 1, .visit 1]

theorem not_mem_chain_none (k : Kernel) (e : Nat) : e ∉ k.chain none := by
  rw [chain]
  cases k.nentry <;> exact not_mem_nil

/-- Three processes wait, and CPU 1 takes their list off the queue and wakes the
first one. The second one is scheduled, leaves and waits again, so that its link is
now that of the new list; CPU 1 follows it and never comes to the third. -/
def relinkRun : List WakeEvent :=
  [.dispatch 0 1, .prepare 0, .dispatch 0 2, .prepare 0, .dispatch 0 3, .prepare 0, .detach 1,
    .visit 1, .dispatch 0 2, .finish 2, .prepare 0, .visit 1]

/-- The process that is left out is BLOCKED on no list. -/
example : let s := run (step (.other 0)) (init blank) relinkRun
    s.kernel.state 1 = .blocked ∧ 1 ∉ s.kernel.chain (s.kernel.wqHead (.other 0)) := by
  decide +kernel

end WakeSystem

end UnixOs
