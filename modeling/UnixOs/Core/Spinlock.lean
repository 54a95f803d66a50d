import UnixOs.Lib.Run

/-!
# Spinlocks and the interrupt flag (spinlock.h)

`spin_lock` turns interrupts off and `spin_unlock` turns them on; neither looks at what
the flag was. So the flag says how the last call ended, not how many locks are held:
releasing an inner lock, or failing to get one, lets interrupts in while an outer lock is
held.

- `SpinCpu.step`: the calls of one CPU, among what the others do with the lock words;
- `Masked`: no interrupts while a lock is held, and after the outermost release the flag
  is what it was before the outermost acquisition;
- `masked_iff_unnested`: a sequence is masked exactly if no lock is released, and no
  attempt fails, inside another lock, and interrupts were on before each outermost one.
-/

namespace UnixOs

open Function Machine

/-- One CPU and the lock words. `held` are the locks it has taken, the latest first, and
`outside` is the interrupt flag as it was before the first of them. -/
structure SpinCpu where
  enabled : Bool
  preemptCount : Int := 0
  locked : Nat → Bool := fun _ => false
  held : List Nat := []
  outside : Bool := true

inductive SpinOp where
  | lock (l : Nat)
  | trylock (l : Nat)
  | unlock (l : Nat)
  /-- The other CPUs take and release locks that this one does not hold. -/
  | others (locked : Nat → Bool)

namespace SpinCpu

variable (s : SpinCpu)

def cli : SpinCpu := { s with enabled := false }

def sti : SpinCpu := { s with enabled := true }

def preemptDisable : SpinCpu := { s with preemptCount := s.preemptCount + 1 }

def preemptEnable : SpinCpu := { s with preemptCount := s.preemptCount - 1 }

/-- `__atomic_test_and_set` found the lock free; `enabled` was the flag before the call. -/
def take (l : Nat) (enabled : Bool) : SpinCpu :=
  { s with
    locked := update s.locked l true
    held := l :: s.held
    outside := if s.held = [] then enabled else s.outside }

/-- `spin_lock` (spinlock.h:24). It waits for a lock of another CPU, and for ever
for one of its own. -/
def spinLock (l : Nat) : SpinCpu :=
  let t := s.cli.preemptDisable
  if l ∈ t.held then t else t.take l s.enabled

/-- `spin_unlock` (spinlock.h:36). -/
def spinUnlock (l : Nat) : SpinCpu :=
  { s with locked := update s.locked l false, held := s.held.erase l }.preemptEnable.sti

/-- `spin_trylock` (spinlock.h:46). -/
def spinTrylock (l : Nat) : SpinCpu × Bool :=
  let t := s.cli.preemptDisable
  if t.locked l then (t.preemptEnable.sti, false) else (t.take l s.enabled, true)

def step : SpinOp → SpinCpu
  | .lock l => s.spinLock l
  | .trylock l => (s.spinTrylock l).1
  | .unlock l => s.spinUnlock l
  | .others locked => { s with locked := fun l => if l ∈ s.held then true else locked l }

/-- A call that keeps interrupts off while a lock is held, and puts the flag back. -/
def Masked (op : SpinOp) : Prop :=
  ((s.step op).held ≠ [] → (s.step op).enabled = false) ∧
    (s.held ≠ [] → (s.step op).held = [] → (s.step op).enabled = s.outside)

/-- A release is outermost and interrupts were on before; an attempt that fails is made
with no lock held. -/
def Unnested : SpinOp → Prop
  | .unlock l => s.held.erase l = [] ∧ (s.held ≠ [] → s.outside = true)
  | .trylock l => (s.spinTrylock l).2 = false → s.held = []
  | _ => True

variable {s}

/-! ## The flag after each call -/

theorem spinLock_cases (s : SpinCpu) (l : Nat) : (s.spinLock l).enabled = false ∧
    ((s.spinLock l).held = s.held ∨ (s.spinLock l).held = l :: s.held) := by
  unfold spinLock
  dsimp only
  split
  · exact ⟨rfl, .inl rfl⟩
  · exact ⟨rfl, .inr rfl⟩

theorem spinTrylock_cases (s : SpinCpu) (l : Nat) :
    ((s.spinTrylock l).2 = false ∧ (s.spinTrylock l).1.enabled = true ∧
      (s.spinTrylock l).1.held = s.held) ∨
    ((s.spinTrylock l).2 = true ∧ (s.spinTrylock l).1.enabled = false ∧
      (s.spinTrylock l).1.held = l :: s.held) := by
  unfold spinTrylock
  dsimp only
  split
  · exact .inl ⟨rfl, rfl, rfl⟩
  · exact .inr ⟨rfl, rfl, rfl⟩

/-- Interrupts are off whenever a lock is held. -/
def Off (s : SpinCpu) : Prop := s.held ≠ [] → s.enabled = false

/-- From a state with interrupts off under a lock, these are exactly the calls that are masked. -/
theorem masked_iff (h : s.Off) (op : SpinOp) : s.Masked op ↔ s.Unnested op := by
  cases op with
  | lock l =>
    obtain ⟨hoff, hheld⟩ := spinLock_cases s l
    refine iff_of_true ⟨fun _ => hoff, fun hne hnil => ?_⟩ trivial
    rcases hheld with he | he
    · exact absurd (he.symm.trans hnil) hne
    · exact absurd (he.symm.trans hnil) (List.cons_ne_nil _ _)
  | trylock l =>
    show ((s.spinTrylock l).1.held ≠ [] → _) ∧ (_ → (s.spinTrylock l).1.held = [] → _) ↔
      (_ → s.held = [])
    obtain ⟨hfail, hon, hheld⟩ | ⟨hgot, hoff, hheld⟩ := spinTrylock_cases s l
    · rw [hheld]
      constructor
      · intro hm _
        by_contra hne
        exact Bool.false_ne_true ((hm.1 hne).symm.trans hon)
      · intro hu
        exact ⟨fun hne => absurd (hu hfail) hne, fun hne => absurd (hu hfail) hne⟩
    · rw [hheld]
      refine iff_of_true ⟨fun _ => hoff, fun _ hnil => absurd hnil (List.cons_ne_nil _ _)⟩ ?_
      intro hfail
      exact absurd (hfail.symm.trans hgot) Bool.false_ne_true
  | unlock l =>
    constructor
    · rintro ⟨hinner, houter⟩
      have hnil : s.held.erase l = [] := by
        by_contra hne
        exact Bool.false_ne_true (hinner hne).symm
      exact ⟨hnil, fun hne => (houter hne hnil).symm⟩
    · rintro ⟨hnil, hon⟩
      exact ⟨absurd hnil, fun hne _ => (hon hne).symm⟩
  | others locked => exact iff_of_true ⟨h, fun hne hnil => absurd hnil hne⟩ trivial

theorem off_step {op : SpinOp} (h : s.Off) (hok : s.Unnested op) : (s.step op).Off :=
  ((masked_iff h op).2 hok).1

/-- The calls of a CPU that holds no lock keep interrupts off under every lock and put the
flag back, exactly if none is nested and interrupts were on before. -/
theorem masked_iff_unnested (hs : s.held = []) (ops : List SpinOp) :
    Along step Masked s ops ↔ Along step Unnested s ops :=
  along_congr (fun t op (h : t.Off) => masked_iff h op) (fun _ _ h hok => off_step h hok)
    fun hne => absurd hs hne

/-- `ext2_lock` (0) is held when `journal_lock` (1) is released. -/
theorem journal_in_ext2_unmasked :
    ¬ Along step Masked { enabled := true } [.lock 0, .lock 1, .unlock 1] := by
  rintro ⟨-, -, ⟨hinner, -⟩, -⟩
  exact absurd (hinner (List.cons_ne_nil 0 [])) (by decide)

/-- One lock after the other. -/
theorem ext2_then_journal_masked :
    Along step Masked { enabled := true } [.lock 0, .unlock 0, .trylock 1, .unlock 1] :=
  (masked_iff_unnested rfl _).2
    ⟨trivial, ⟨rfl, fun _ => rfl⟩, fun _ => rfl, ⟨rfl, fun _ => rfl⟩, trivial⟩

end SpinCpu

end UnixOs
