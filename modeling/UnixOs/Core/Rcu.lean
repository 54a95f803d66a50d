import UnixOs.Lib.Run

/-!
# Grace periods (rcu.c, rcu.h, ipi.c, sched.c)

Readers bracket their accesses with `rcu_read_lock` and `rcu_read_unlock`, which
count `preempt_count` of the CPU up and down. `synchronize_rcu` waits until every
CPU has gone through `schedule()`, which counts `rcu_qs_count`.

A task is what runs on a CPU, and `schedule()` may put any task there: which one
is part of the event, and so is every interleaving of the steps of the tasks. Read
sections are numbered in the order in which they begin, so that those that had
begun when `synchronize_rcu` was called are the ones below a number; the numbers
are not in the code. Of the scheduler only the two counts are kept, and that it may dispatch
any task is more than the one of `Kernel` does.

- `GracePeriods`: when `synchronize_rcu` has returned, the sections that had begun
  before the call have ended;
- `Outside`: `schedule()` is entered outside of read sections.
-/

namespace UnixOs

open Function List Machine

/-- The part of `cpu_t` that is used here; `ipi` is a pending
`IPI_VEC_RESCHED`. -/
structure RcuCpu where
  current : Nat
  preemptCount : Int
  qsCount : UInt32
  ipi : Bool

/-- Where a call of `synchronize_rcu` stands: at `schedule()` of the case of one
CPU, in the loop that samples the counters, at the head of the second loop, in its
inner loop, or at the end. -/
inductive SyncPhase where
  | uni
  | sample (i : Nat)
  | visit (i : Nat)
  | spin (i : Nat)
  | returned
  deriving DecidableEq

/-- A call of `synchronize_rcu`; `before` is the number of the next section when
it was called. -/
structure RcuSync (n : Nat) where
  before : Nat
  me : Fin n
  snapshot : Fin n → UInt32
  phase : SyncPhase

/-- A task: its open read sections, innermost first, and its last call of
`synchronize_rcu`. -/
structure RcuTask (n : Nat) where
  sections : List Nat
  sync : Option (RcuSync n)

structure Rcu (n : Nat) where
  cpu : Fin n → RcuCpu
  task : Nat → RcuTask n
  nextSection : Nat

namespace Rcu

variable {n : Nat} (s : Rcu n)

def current (c : Fin n) : Nat := (s.cpu c).current
def sections (t : Nat) : List Nat := (s.task t).sections

def modCpu (c : Fin n) (f : RcuCpu → RcuCpu) : Rcu n :=
  { s with cpu := update s.cpu c (f (s.cpu c)) }

def setSections (t : Nat) (l : List Nat) : Rcu n :=
  { s with task := update s.task t { s.task t with sections := l } }

def setSync (t : Nat) (y : RcuSync n) : Rcu n :=
  { s with task := update s.task t { s.task t with sync := some y } }

/-- `rcu_read_lock` (rcu.h:7). -/
def readLock (c : Fin n) : Rcu n :=
  let s := s.modCpu c fun p => { p with preemptCount := p.preemptCount + 1 }
  { s.setSections (s.current c) (s.nextSection :: s.sections (s.current c)) with
    nextSection := s.nextSection + 1 }

/-- `rcu_read_unlock` (rcu.h:9), by a task that is in a read section. -/
def readUnlock (c : Fin n) : Rcu n :=
  if s.sections (s.current c) = [] then s
  else
    let s := s.modCpu c fun p => { p with preemptCount := p.preemptCount - 1 }
    s.setSections (s.current c) (s.sections (s.current c)).tail

/-- `schedule` (sched.c:235): the counter goes up, whatever `preempt_count` is, and
`next` runs. -/
def schedule (c : Fin n) (next : Nat) : Rcu n :=
  s.modCpu c fun p => { p with qsCount := p.qsCount + 1, current := next }

/-- `smp_ipi_send` (ipi.c:31) of `IPI_VEC_RESCHED`. -/
def ipiSend (c : Fin n) : Rcu n := s.modCpu c fun p => { p with ipi := true }

/-- `ipi_dispatch` (ipi.c:57) of `IPI_VEC_RESCHED`. -/
def ipiDispatch (c : Fin n) (next : Nat) : Rcu n :=
  if (s.cpu c).ipi then (s.modCpu c fun p => { p with ipi := false }).schedule c next else s

/-- A task that is not in `synchronize_rcu` calls it. -/
def syncCall (c : Fin n) : Rcu n :=
  let y : RcuSync n := ⟨s.nextSection, c, fun _ => 0, if n ≤ 1 then .uni else .sample 0⟩
  match (s.task (s.current c)).sync with
  | none => s.setSync (s.current c) y
  | some x => if x.phase = .returned then s.setSync (s.current c) y else s

/-- The next step of `synchronize_rcu` (rcu.c:28) in the task that runs on `c`;
`next` is for `schedule()`. -/
def syncStep (c : Fin n) (next : Nat) : Rcu n :=
  let t := s.current c
  match (s.task t).sync with
  | none => s
  | some y =>
    match y.phase with
    | .uni => (s.setSync t { y with phase := .returned }).schedule c next
    | .sample i =>
      if h : i < n then
        s.setSync t
          { y with
            snapshot := update y.snapshot ⟨i, h⟩ (s.cpu ⟨i, h⟩).qsCount
            phase := .sample (i + 1) }
      else s.setSync t { y with phase := .visit 0 }
    | .visit i =>
      if h : i < n then
        if i = y.me then (s.setSync t { y with phase := .visit (i + 1) }).schedule c next
        else (s.setSync t { y with phase := .spin i }).ipiSend ⟨i, h⟩
      else s.setSync t { y with phase := .returned }
    | .spin i =>
      if h : i < n then
        if (s.cpu ⟨i, h⟩).qsCount = y.snapshot ⟨i, h⟩ then s
        else s.setSync t { y with phase := .visit (i + 1) }
      else s
    | .returned => s

/-- Whether the next step of `synchronize_rcu` calls `schedule()`. -/
def syncSchedules (c : Fin n) : Bool :=
  match (s.task (s.current c)).sync with
  | none => false
  | some y =>
    match y.phase with
    | .uni => true
    | .visit i => decide (i = y.me)
    | _ => false

end Rcu

/-- What the CPUs do. `yield` is a call of `schedule()` by the task, `resched` an
IPI from another part of the kernel. -/
inductive RcuEvent (n : Nat) where
  | lock (c : Fin n)
  | unlock (c : Fin n)
  | yield (c : Fin n) (next : Nat)
  | resched (c : Fin n)
  | ipi (c : Fin n) (next : Nat)
  | call (c : Fin n)
  | sync (c : Fin n) (next : Nat)

namespace Rcu

variable {n : Nat}

def step (s : Rcu n) : RcuEvent n → Rcu n
  | .lock c => s.readLock c
  | .unlock c => s.readUnlock c
  | .yield c next => s.schedule c next
  | .resched c => s.ipiSend c
  | .ipi c next => s.ipiDispatch c next
  | .call c => s.syncCall c
  | .sync c next => s.syncStep c next

/-- The CPUs run `cur`, and nothing has happened yet. -/
def boot (cur : Fin n → Nat) : Rcu n :=
  ⟨fun c => ⟨cur c, 0, 0, false⟩, fun _ => ⟨[], none⟩, 0⟩

/-- When `synchronize_rcu` has returned, no section that had begun before it was
called is open. -/
def GracePeriods (s : Rcu n) : Prop :=
  ∀ t y, (s.task t).sync = some y → y.phase = .returned →
    ∀ t', ∀ id ∈ s.sections t', y.before ≤ id

/-- The CPU on which a step enters `schedule()`. -/
def enters (s : Rcu n) : RcuEvent n → Option (Fin n)
  | .yield c _ => some c
  | .ipi c _ => if (s.cpu c).ipi then some c else none
  | .sync c _ => if s.syncSchedules c then some c else none
  | _ => none

/-- `schedule()` is not entered in a read section. -/
def Outside (s : Rcu n) (e : RcuEvent n) : Prop :=
  ∀ c, s.enters e = some c → s.sections (s.current c) = []

instance (s : Rcu n) (e : RcuEvent n) : Decidable (Outside s e) :=
  inferInstanceAs (Decidable (∀ c, s.enters e = some c → s.sections (s.current c) = []))

end Rcu

/-! ## The invariant

A section that had begun before the call keeps its CPU: the task stays on it, and
the counter stays as it was sampled. -/

namespace RcuSync

variable {n : Nat}

/-- The second loop has not passed the CPU. -/
def Unvisited (y : RcuSync n) (c : Fin n) : Prop :=
  match y.phase with
  | .uni => True
  | .sample _ => True
  | .visit i => i ≤ c
  | .spin i => i ≤ c
  | .returned => False

/-- The counter of the CPU has been sampled. -/
def Sampled (y : RcuSync n) (c : Fin n) : Prop :=
  match y.phase with
  | .uni => False
  | .sample i => c < i
  | _ => True

end RcuSync

namespace Rcu

variable {n : Nat} {s : Rcu n} {c d : Fin n} {t t' : Nat}

/-- A CPU that a call by `t` still waits for, because `t'` is in a section. -/
structure Holds (s : Rcu n) (t : Nat) (y : RcuSync n) (t' : Nat) (c : Fin n) : Prop where
  current : s.current c = t'
  unvisited : y.Unvisited c
  sampled : y.Sampled c → (s.cpu c).qsCount = y.snapshot c
  own : c = y.me → t' = t

structure Inv (s : Rcu n) : Prop where
  home : ∀ t, s.sections t ≠ [] → ∃ c, s.current c = t
  before : ∀ t y, (s.task t).sync = some y → y.before ≤ s.nextSection
  uni : ∀ t y, (s.task t).sync = some y → y.phase = .uni → n ≤ 1
  old : ∀ t y, (s.task t).sync = some y → ∀ t', ∀ id ∈ s.sections t', id < y.before →
    ∃ c, Holds s t y t' c

theorem Inv.gracePeriods (h : Inv s) : GracePeriods s := by
  intro t y hy hret t' id hid
  by_contra hlt
  obtain ⟨c, hc⟩ := h.old t y hy t' id hid (by omega)
  have := hc.unvisited
  rw [RcuSync.Unvisited, hret] at this
  exact this

theorem inv_boot (cur : Fin n → Nat) : Inv (boot cur) := by
  refine ⟨fun t h => absurd rfl h, ?_, ?_, ?_⟩
  · rintro t y ⟨⟩
  · rintro t y ⟨⟩
  · rintro t y ⟨⟩

/-! ## Steps -/

theorem cpu_modCpu (f : RcuCpu → RcuCpu) :
    (s.modCpu c f).cpu d = if d = c then f (s.cpu c) else s.cpu d :=
  update_apply ..

theorem task_setSections (l : List Nat) : (s.setSections t l).task t' =
    if t' = t then { s.task t with sections := l } else s.task t' :=
  update_apply ..

theorem task_setSync (y : RcuSync n) : (s.setSync t y).task t' =
    if t' = t then { s.task t with sync := some y } else s.task t' :=
  update_apply ..

theorem sections_setSections (l : List Nat) :
    (s.setSections t l).sections t' = if t' = t then l else s.sections t' := by
  rw [sections, task_setSections]
  split <;> rfl

theorem sync_setSections (l : List Nat) :
    ((s.setSections t l).task t').sync = (s.task t').sync := by
  rw [task_setSections]
  split
  · next h => rw [h]
  · rfl

theorem sections_setSync (y : RcuSync n) : (s.setSync t y).sections t' = s.sections t' := by
  rw [sections, task_setSync]
  split
  · next h => rw [h, sections]
  · rfl

theorem sync_setSync (y : RcuSync n) :
    ((s.setSync t y).task t').sync = if t' = t then some y else (s.task t').sync := by
  rw [task_setSync]
  split <;> rfl

section

variable (h : Inv s)
include h

/-- A CPU changes in what the invariant does not look at. -/
theorem Inv.modCpu {f : RcuCpu → RcuCpu} (hcur : (f (s.cpu c)).current = s.current c)
    (hqs : (f (s.cpu c)).qsCount = (s.cpu c).qsCount) : Inv (s.modCpu c f) := by
  have hcurrent (d : Fin n) : (s.modCpu c f).current d = s.current d := by
    rw [Rcu.current, cpu_modCpu]
    split
    · next hd => rw [hd, hcur]
    · rfl
  refine ⟨fun t ht => ?_, h.before, h.uni, fun t y hy t' id hid hlt => ?_⟩
  · obtain ⟨d, hd⟩ := h.home t ht
    exact ⟨d, (hcurrent d).trans hd⟩
  · obtain ⟨d, hd⟩ := h.old t y hy t' id hid hlt
    refine ⟨d, (hcurrent d).trans hd.current, hd.unvisited, fun hs => ?_, hd.own⟩
    rw [cpu_modCpu, ← hd.sampled hs]
    split
    · next hdc => rw [hdc, hqs]
    · rfl

/-- A task begins a section, with the next number, or ends one. -/
theorem Inv.setSections {l : List Nat} {m : Nat} (hm : s.nextSection ≤ m)
    (hl : ∀ id ∈ l, id ∈ s.sections (s.current c) ∨ id = s.nextSection) :
    Inv { s.setSections (s.current c) l with nextSection := m } := by
  have hsync {t : Nat} {y : RcuSync n}
      (hy : ((s.setSections (s.current c) l).task t).sync = some y) :
      (s.task t).sync = some y := by rwa [sync_setSections] at hy
  refine ⟨fun t ht => ?_, fun t y hy => ?_, fun t y hy => ?_, fun t y hy t' id hid hlt => ?_⟩
  · by_cases htc : t = s.current c
    · exact ⟨c, htc.symm⟩
    · refine h.home t ?_
      have : (s.setSections (s.current c) l).sections t ≠ [] := ht
      rwa [sections_setSections, if_neg htc] at this
  · replace hy := hsync hy
    exact Nat.le_trans (h.before t y hy) hm
  · replace hy := hsync hy
    exact h.uni t y hy
  · replace hy := hsync hy
    replace hid : id ∈ (s.setSections (s.current c) l).sections t' := hid
    rw [sections_setSections] at hid
    -- a new number is not below that of a call
    have hmem : id ∈ s.sections t' := by
      split at hid
      · next ht' =>
        obtain hold | rfl := hl id hid
        · rwa [ht']
        · have := h.before t y hy
          omega
      · exact hid
    obtain ⟨d, hd⟩ := h.old t y hy t' id hmem hlt
    exact ⟨d, hd.current, hd.unvisited, hd.sampled, hd.own⟩

/-- A task goes on in `synchronize_rcu`. -/
theorem Inv.setSync {y : RcuSync n} (hb : y.before ≤ s.nextSection) (huni : y.phase = .uni → n ≤ 1)
    (hold : ∀ t', ∀ id ∈ s.sections t', id < y.before → ∃ c, Holds s t y t' c) :
    Inv (s.setSync t y) := by
  have hcases {t1 : Nat} {y1 : RcuSync n} (hy : ((s.setSync t y).task t1).sync = some y1) :
      t1 = t ∧ y1 = y ∨ (s.task t1).sync = some y1 := by
    rw [sync_setSync] at hy
    split at hy
    · next ht => exact .inl ⟨ht, (Option.some.inj hy).symm⟩
    · exact .inr hy
  refine ⟨fun t1 ht => ?_, fun t1 y1 hy => ?_, fun t1 y1 hy => ?_, fun t1 y1 hy t' id hid hlt => ?_⟩
  · rw [sections_setSync] at ht
    exact h.home t1 ht
  · obtain ⟨-, rfl⟩ | hy := hcases hy
    · exact hb
    · exact h.before t1 y1 hy
  · obtain ⟨-, rfl⟩ | hy := hcases hy
    · exact huni
    · exact h.uni t1 y1 hy
  · rw [sections_setSync] at hid
    obtain ⟨rfl, rfl⟩ | hy := hcases hy
    · obtain ⟨d, hd⟩ := hold t' id hid hlt
      exact ⟨d, hd.current, hd.unvisited, hd.sampled, hd.own⟩
    · obtain ⟨d, hd⟩ := h.old t1 y1 hy t' id hid hlt
      exact ⟨d, hd.current, hd.unvisited, hd.sampled, hd.own⟩

/-- `schedule()` outside of a section: the CPUs that hold a call are others. -/
theorem Inv.schedule (hout : s.sections (s.current c) = []) (next : Nat) :
    Inv (s.schedule c next) := by
  have hne {t : Nat} {d : Fin n} (ht : s.sections t ≠ []) (hd : s.current d = t) : d ≠ c := by
    rintro rfl
    exact ht (hd ▸ hout)
  have hcpu {d : Fin n} (hd : d ≠ c) : (s.schedule c next).cpu d = s.cpu d := by
    rw [Rcu.schedule, cpu_modCpu, if_neg hd]
  refine ⟨fun t ht => ?_, h.before, h.uni, fun t y hy t' id hid hlt => ?_⟩
  · obtain ⟨d, hd⟩ := h.home t ht
    exact ⟨d, (congrArg RcuCpu.current (hcpu (hne ht hd))).trans hd⟩
  · obtain ⟨d, hd⟩ := h.old t y hy t' id hid hlt
    have hdc := hcpu (hne (ne_nil_of_mem hid) hd.current)
    refine ⟨d, (congrArg RcuCpu.current hdc).trans hd.current, hd.unvisited, fun hs => ?_, hd.own⟩
    rw [hdc]
    exact hd.sampled hs

/-- A call begins with every open section still on its CPU. -/
theorem Inv.syncCall : Inv (s.syncCall c) := by
  -- the CPU of a section that is open now is its own witness
  have hcall : Inv (s.setSync (s.current c)
      ⟨s.nextSection, c, fun _ => 0, if n ≤ 1 then .uni else .sample 0⟩) := by
    refine h.setSync (Nat.le_refl _) (fun hp => ?_) fun t' id hid _ => ?_
    · split at hp
      · assumption
      · cases hp
    · obtain ⟨d, hd⟩ := h.home t' (ne_nil_of_mem hid)
      refine ⟨d, hd, ?_, fun hs => ?_, fun hdc => by rw [← hd, hdc]⟩
      · by_cases hn : n ≤ 1
        · rw [if_pos hn]
          trivial
        · rw [if_neg hn]
          trivial
      · by_cases hn : n ≤ 1
        · rw [if_pos hn] at hs
          exact hs.elim
        · rw [if_neg hn] at hs
          exact absurd hs (Nat.not_lt_zero _)
  unfold Rcu.syncCall
  dsimp only
  split
  · exact hcall
  · split
    · exact hcall
    · exact h

/-- The steps of the waiting task, one case for each phase. -/
theorem Inv.syncStep (hout : s.syncSchedules c = true → s.sections (s.current c) = [])
    (next : Nat) : Inv (s.syncStep c next) := by
  unfold Rcu.syncSchedules at hout
  unfold Rcu.syncStep
  dsimp only
  cases hsync : (s.task (s.current c)).sync with
  | none => exact h
  | some y =>
    rw [hsync] at hout
    have hb := h.before _ y hsync
    have hold := h.old _ y hsync
    obtain ⟨before, me, snapshot, phase⟩ := y
    dsimp only at hb hold hout ⊢
    cases phase with
    | uni =>
      -- there is no other CPU that a section could be on
      have hn := h.uni _ _ hsync rfl
      refine (h.setSync hb (fun hp => by cases hp) fun t' id hid hlt => ?_).schedule ?_ next
      · obtain ⟨d, hd⟩ := hold t' id hid hlt
        have hdc : d = c := Fin.ext (by omega)
        rw [← hd.current, hdc, hout rfl] at hid
        cases hid
      · rw [sections_setSync]
        exact hout rfl
    | sample i =>
      dsimp only
      split
      · next hi =>
        refine h.setSync hb (fun hp => by cases hp) fun t' id hid hlt => ?_
        obtain ⟨d, hd⟩ := hold t' id hid hlt
        refine ⟨d, hd.current, trivial, fun hs => ?_, hd.own⟩
        replace hs : d.val < i + 1 := hs
        by_cases hdi : d = ⟨i, hi⟩
        · rw [hdi]
          exact (update_self (⟨i, hi⟩ : Fin n) _ snapshot).symm
        · have hne : d.val ≠ i := fun he => hdi (Fin.ext he)
          refine (hd.sampled (by show d.val < i; omega)).trans ?_
          exact (update_of_ne hdi _ snapshot).symm
      · next hi =>
        refine h.setSync hb (fun hp => by cases hp) fun t' id hid hlt => ?_
        obtain ⟨d, hd⟩ := hold t' id hid hlt
        refine ⟨d, hd.current, Nat.zero_le _, fun _ => hd.sampled ?_, hd.own⟩
        show d.val < i
        omega
    | visit i =>
      dsimp only
      split
      · next hi =>
        split
        · next hme =>
          -- the CPU of the caller: its task is in no section
          have hnil := hout (decide_eq_true hme)
          refine (h.setSync hb (fun hp => by cases hp) fun t' id hid hlt => ?_).schedule ?_ next
          · obtain ⟨d, hd⟩ := hold t' id hid hlt
            have hdme : d ≠ me := by
              intro he
              rw [hd.own he, hnil] at hid
              cases hid
            have hne : d.val ≠ me.val := fun he => hdme (Fin.ext he)
            have hle : i ≤ d.val := hd.unvisited
            exact ⟨d, hd.current, (by omega : i + 1 ≤ d.val), fun _ => hd.sampled trivial, hd.own⟩
          · rw [sections_setSync]
            exact hnil
        · refine (h.setSync hb (fun hp => by cases hp) fun t' id hid hlt => ?_).modCpu rfl rfl
          obtain ⟨d, hd⟩ := hold t' id hid hlt
          exact ⟨d, hd.current, hd.unvisited, fun _ => hd.sampled trivial, hd.own⟩
      · next hi =>
        -- every CPU is passed
        refine h.setSync hb (fun hp => by cases hp) fun t' id hid hlt => ?_
        obtain ⟨d, hd⟩ := hold t' id hid hlt
        have hle : i ≤ d.val := hd.unvisited
        omega
    | spin i =>
      dsimp only
      split
      · next hi =>
        split
        · exact h
        · next hqs =>
          -- the counter has moved, so no section has held this CPU
          refine h.setSync hb (fun hp => by cases hp) fun t' id hid hlt => ?_
          obtain ⟨d, hd⟩ := hold t' id hid hlt
          have hne : d.val ≠ i := by
            intro he
            have hdi : d = ⟨i, hi⟩ := Fin.ext he
            exact hqs (hdi ▸ hd.sampled trivial)
          have hle : i ≤ d.val := hd.unvisited
          exact ⟨d, hd.current, (by omega : i + 1 ≤ d.val), fun _ => hd.sampled trivial, hd.own⟩
      · exact h
    | returned => exact h

/-- One case for each event; only `schedule()` counts. -/
theorem Inv.step {e : RcuEvent n} (he : Outside s e) : Inv (s.step e) := by
  cases e with
  | lock c =>
    refine (h.modCpu rfl
      rfl).setSections (Nat.le_succ _) fun id hid => ?_
    exact (mem_cons.1 hid).symm
  | unlock c =>
    show Inv (s.readUnlock c)
    rw [readUnlock]
    split
    · exact h
    · refine (h.modCpu (f := fun p => { p with preemptCount := p.preemptCount - 1 }) rfl
        rfl).setSections (Nat.le_refl _) fun id hid => ?_
      exact .inl (mem_of_mem_tail hid)
  | yield c next => exact h.schedule (he c rfl) next
  | resched c => exact h.modCpu (f := fun p => { p with ipi := true }) rfl rfl
  | ipi c next =>
    show Inv (s.ipiDispatch c next)
    rw [ipiDispatch]
    split
    · next hipi =>
      refine (h.modCpu rfl rfl).schedule ?_ next
      have hout := he c (if_pos hipi)
      have hcur : (s.modCpu c fun p => { p with ipi := false }).current c = s.current c := by
        rw [Rcu.current, cpu_modCpu, if_pos rfl]
        rfl
      rw [hcur]
      exact hout
    · exact h
  | call c => exact h.syncCall
  | sync c next => exact h.syncStep (fun hs => he c (if_pos hs)) next

end

/-- **Grace periods**: if `schedule()` is only entered outside of read sections,
then whenever `synchronize_rcu` has returned, the sections that had begun before it
was called have ended. -/
theorem gracePeriods_of_outside (cur : Fin n → Nat) (es : List (RcuEvent n))
    (h : Along Rcu.step Outside (boot cur) es) : GracePeriods (run Rcu.step (boot cur) es) := by
  have hinv : Inv (run Rcu.step (boot cur) es) :=
    run_invariant (fun _ _ hs he => hs.step he) (inv_boot cur) h
  exact hinv.gracePeriods

/-- A writer on CPU 0 waits for CPU 1. -/
def graceRun : List (RcuEvent 2) :=
  [.call 0, .sync 0 0, .sync 0 0, .sync 0 0, .sync 0 0, .sync 0 0, .ipi 1 1, .sync 0 0, .sync 0 0]

/-- The number and the phase of the last call of a task. -/
def lastSync (s : Rcu n) (t : Nat) : Option (Nat × SyncPhase) :=
  (s.task t).sync.map fun y => (y.before, y.phase)

theorem gracePeriods_graceRun :
    Along Rcu.step Outside (boot fun c : Fin 2 => c) (.lock 1 :: .unlock 1 :: graceRun) ∧
    (run Rcu.step (boot fun c : Fin 2 => c) (.lock 1 :: .unlock 1 :: graceRun)).lastSync 0
      = some (1, .returned) ∧ GracePeriods (run Rcu.step (boot fun c : Fin 2 => c)
      (.lock 1 :: .unlock 1 :: graceRun)) :=
  ⟨by decide +kernel, by decide +kernel, gracePeriods_of_outside _ _ (by decide +kernel)⟩

/-- The IPI finds a reader on CPU 1, and `schedule()` counts all the same. -/
theorem graceRun_reader :
    ¬ GracePeriods (run Rcu.step (boot fun c : Fin 2 => c) (.lock 1 :: graceRun)) := by
  intro h
  have hret : (run Rcu.step (boot fun c : Fin 2 => c) (.lock 1 :: graceRun)).lastSync 0
      = some (1, .returned) := by decide +kernel
  have hopen : 0 ∈ (run Rcu.step (boot fun c : Fin 2 => c)
      (.lock 1 :: graceRun)).sections 1 := by decide +kernel
  obtain ⟨y, hy, heq⟩ := Option.map_eq_some_iff.1 hret
  have hle := h 0 y hy (congrArg Prod.snd heq) 1 0 hopen
  have hone : y.before = 1 := congrArg Prod.fst heq
  omega

end Rcu

end UnixOs
