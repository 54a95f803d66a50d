import Mathlib.Data.Fintype.Card
import Mathlib.Data.Finset.Card
import UnixOs.Lib.Run

/-!
# The TLB shootdown (ipi.c)

`smp_tlb_flush_all` sets `g_tlb_flush_ack` to zero, sends an IPI to every other CPU
and waits until the counter has reached their number; a CPU that takes the IPI
reloads CR3 and then counts the counter up. Each of these is a step of its own, and
an event says which CPU makes the next one. A CPU whose local APIC has the vector
pending takes it once, however often it was sent; while the handler runs, the call it
interrupted stands still.

The clock is not in the code: every event has a time of its own, so that a reload can
be told to be later than the begin of a call.

- `Flushed`: when a call has returned, every other CPU has reloaded CR3 since it began;
- `Alone`: a call begins while no other is under way;
- `Round`: what holds in the middle of a call that is alone.
-/

namespace UnixOs

open Function Machine Finset

/-- Where the last `smp_tlb_flush_all` of a CPU stands: there was none, in front of the
store, in the loop over the CPUs (with `i` and `expected`), in the loop that waits, or at
the end. -/
inductive FlushPhase where
  | idle
  | reset
  | send (i expected : Nat)
  | wait (expected : Nat)
  | returned
  deriving DecidableEq

def FlushPhase.underWay : FlushPhase → Bool
  | .idle | .returned => false
  | .reset | .send _ _ | .wait _ => true

structure Shootdown (n : Nat) where
  ack : Nat
  pending : Fin n → Bool
  /-- In the handler, between the reload and the increment. -/
  handling : Fin n → Bool
  phase : Fin n → FlushPhase
  began : Fin n → Nat
  reloaded : Fin n → Nat
  clock : Nat

inductive ShootdownEvent (n : Nat) where
  | call (c : Fin n)
  | step (c : Fin n)
  | irq (c : Fin n)
  | ack (c : Fin n)

namespace Shootdown

variable {n : Nat}

/-- No CPU has called yet. -/
def init (n : Nat) : Shootdown n where
  ack := 0
  pending := fun _ => false
  handling := fun _ => false
  phase := fun _ => .idle
  began := fun _ => 0
  reloaded := fun _ => 0
  clock := 0

def setPhase (s : Shootdown n) (c : Fin n) (p : FlushPhase) : Shootdown n :=
  { s with phase := update s.phase c p }

/-- `smp_tlb_flush_all` is called (ipi.c:37). -/
def call (s : Shootdown n) (c : Fin n) : Shootdown n :=
  if n ≤ 1 then { s.setPhase c .returned with began := update s.began c s.clock }
  else { s.setPhase c .reset with began := update s.began c s.clock }

/-- One step of `smp_tlb_flush_all` on a CPU. -/
def flushStep (s : Shootdown n) (c : Fin n) : Shootdown n :=
  match s.phase c with
  | .reset => { s.setPhase c (.send 0 0) with ack := 0 }
  | .send i expected =>
    if h : i < n then
      if (⟨i, h⟩ : Fin n) = c then s.setPhase c (.send (i + 1) expected)
      else { s.setPhase c (.send (i + 1) (expected + 1)) with
        pending := update s.pending ⟨i, h⟩ true }
    else s.setPhase c (.wait expected)
  | .wait expected => if s.ack < expected then s else s.setPhase c .returned
  | .idle | .returned => s

/-- `ipi_dispatch` of `IPI_VEC_TLB_FLUSH` up to the reload (ipi.c:57). -/
def irq (s : Shootdown n) (c : Fin n) : Shootdown n :=
  { s with
    pending := update s.pending c false
    handling := update s.handling c true
    reloaded := update s.reloaded c s.clock }

/-- The rest of `ipi_dispatch`. -/
def ackStep (s : Shootdown n) (c : Fin n) : Shootdown n :=
  { s with ack := s.ack + 1, handling := update s.handling c false }

def tick (s : Shootdown n) : Shootdown n := { s with clock := s.clock + 1 }

/-- What an event does; one that the machine cannot make only passes time. -/
def act (s : Shootdown n) : ShootdownEvent n → Shootdown n
  | .call c => if s.handling c = false ∧ (s.phase c).underWay = false then s.call c else s
  | .step c => if s.handling c = false then s.flushStep c else s
  | .irq c => if s.handling c = false ∧ s.pending c = true then s.irq c else s
  | .ack c => if s.handling c = true then s.ackStep c else s

def step (s : Shootdown n) (e : ShootdownEvent n) : Shootdown n := (s.act e).tick

/-- The last call of each CPU, once it has returned, has flushed every other CPU. -/
def Flushed (s : Shootdown n) : Prop :=
  ∀ c j, s.phase c = .returned → j ≠ c → s.began c < s.reloaded j

/-- A call begins while none is under way. -/
def Alone (s : Shootdown n) : ShootdownEvent n → Prop
  | .call _ => ∀ c, (s.phase c).underWay = false
  | .step _ | .irq _ | .ack _ => True

instance (s : Shootdown n) : ∀ e, Decidable (s.Alone e)
  | .call _ => inferInstanceAs (Decidable (∀ c, (s.phase c).underWay = false))
  | .step _ | .irq _ | .ack _ => .isTrue trivial

/-! ## A call that is alone -/

/-- The CPUs an IPI was sent to. -/
def targets (c : Fin n) (i : Nat) : Finset (Fin n) := Finset.univ.filter fun j => j.val < i ∧ j ≠ c

/-- Those that have counted up. -/
def done (s : Shootdown n) (c : Fin n) (i : Nat) : Finset (Fin n) :=
  (targets c i).filter fun j => s.pending j = false ∧ s.handling j = false

/-- The call of `c` has sent `i` rounds of its loop. -/
structure Round (s : Shootdown n) (c : Fin n) (i expected : Nat) : Prop where
  expected : expected = (targets c i).card
  ack : s.ack = (s.done c i).card
  quiet : ∀ j, j ∉ targets c i → s.pending j = false ∧ s.handling j = false
  once : ∀ j, s.handling j = true → s.pending j = false
  fresh : ∀ j ∈ targets c i, s.pending j = false → s.began c < s.reloaded j

/-- No IPI is on its way. -/
def Quiet (s : Shootdown n) : Prop := ∀ j, s.pending j = false ∧ s.handling j = false

/-- What is known of the call of `c`. -/
def InPhase (s : Shootdown n) (c : Fin n) : FlushPhase → Prop
  | .idle => True
  | .reset => s.Quiet
  | .send i expected => s.Round c i expected
  | .wait expected => s.Round c n expected
  | .returned => ∀ j, j ≠ c → s.began c < s.reloaded j

structure Inv (s : Shootdown n) : Prop where
  began : ∀ c, s.began c < s.clock ∨ s.phase c = .idle
  phase : ∀ c, s.InPhase c (s.phase c)
  one : ∀ c c', (s.phase c).underWay = true → (s.phase c').underWay = true → c = c'
  quiet : (∀ c, (s.phase c).underWay = false) → s.Quiet

theorem Inv.flushed {s : Shootdown n} (h : s.Inv) : s.Flushed := fun c j hc hj => by
  have hp := h.phase c
  rw [hc] at hp
  exact hp j hj

variable {s : Shootdown n} {c j : Fin n} {i expected : Nat}

theorem mem_targets : j ∈ targets c i ↔ j.val < i ∧ j ≠ c := by
  rw [targets, mem_filter]
  exact and_iff_right (mem_univ j)

theorem mem_done : j ∈ s.done c i ↔ j ∈ targets c i ∧ s.pending j = false ∧ s.handling j = false :=
  mem_filter

theorem targets_zero : targets c 0 = ∅ :=
  eq_empty_of_forall_notMem fun _ hj => absurd (mem_targets.1 hj).1 (Nat.not_lt_zero _)

/-- The CPU itself gets no IPI. -/
theorem targets_succ_self (hi : c.val = i) : targets c (i + 1) = targets c i := by
  ext j
  rw [mem_targets, mem_targets]
  refine and_congr_left fun hj => ?_
  omega

theorem targets_succ (hj : j.val = i) (hne : j ≠ c) :
    targets c (i + 1) = insert j (targets c i) := by
  ext k
  rw [mem_insert, mem_targets, mem_targets]
  constructor
  · rintro ⟨hk, hkc⟩
    by_cases h : k.val = i
    · exact .inl (Fin.ext (h.trans hj.symm))
    · exact .inr ⟨by omega, hkc⟩
  · rintro (rfl | ⟨hk, hkc⟩)
    · exact ⟨by omega, hne⟩
    · exact ⟨by omega, hkc⟩

theorem targets_all (hi : n ≤ i) : targets c i = targets c n := by
  ext j
  rw [mem_targets, mem_targets]
  exact and_congr_left fun _ => by omega

namespace Round

section

variable (h : s.Round c i expected)
include h

/-- The loop passes over the CPU itself. -/
theorem skip (hi : c.val = i) : s.Round c (i + 1) expected := by
  obtain ⟨hexp, hack, hquiet, honce, hfresh⟩ := h
  refine ⟨?_, ?_, ?_, honce, ?_⟩
  · rw [targets_succ_self hi, hexp]
  · rw [done, targets_succ_self hi, hack, done]
  · rwa [targets_succ_self hi]
  · rwa [targets_succ_self hi]

/-- An IPI is sent: one more is expected, and none has counted up. -/
theorem send (hj : j.val = i) (hne : j ≠ c) :
    Round { s with pending := update s.pending j true } c (i + 1) (expected + 1) := by
  have hnot : j ∉ targets c i := fun hm => by
    have := (mem_targets.1 hm).1
    omega
  have htargets := targets_succ hj hne
  refine ⟨?_, ?_, fun k hk => ?_, fun k hk => ?_, fun k hk hpend => ?_⟩
  · rw [htargets, card_insert_of_notMem hnot, h.expected]
  · rw [h.ack]
    congr 1
    ext k
    rw [mem_done, mem_done, htargets]
    obtain rfl | hkj := eq_or_ne k j
    · simp [hnot]
    · simp [hkj]
  · rw [htargets, mem_insert, not_or] at hk
    have hq := h.quiet k hk.2
    exact ⟨(update_of_ne hk.1 _ _).trans hq.1, hq.2⟩
  · have hkj : k ≠ j := by
      rintro rfl
      rw [(h.quiet k hnot).2] at hk
      cases hk
    exact (update_of_ne hkj _ _).trans (h.once k hk)
  · have hp : update s.pending j true k = false := hpend
    obtain rfl | hkj := eq_or_ne k j
    · rw [update_self] at hp
      cases hp
    · rw [update_of_ne hkj] at hp
      rw [htargets, mem_insert] at hk
      exact h.fresh k (hk.resolve_left hkj) hp

/-- A CPU takes its IPI. -/
theorem irq (hpend : s.pending j = true) (hbegan : s.began c < s.clock) :
    (s.irq j).Round c i expected := by
  have hj : j ∈ targets c i := by
    by_contra hj
    rw [(h.quiet j hj).1] at hpend
    cases hpend
  refine ⟨h.expected, ?_, fun k hk => ?_, fun k hk => ?_, fun k hk hpend' => ?_⟩
  · show s.ack = _
    rw [h.ack]
    congr 1
    ext k
    rw [mem_done, mem_done]
    obtain rfl | hkj := eq_or_ne k j
    · simp [Shootdown.irq, hpend]
    · simp [Shootdown.irq, hkj]
  · have hkj : k ≠ j := fun he => hk (he ▸ hj)
    have hq := h.quiet k hk
    exact ⟨(update_of_ne hkj _ _).trans hq.1, (update_of_ne hkj _ _).trans hq.2⟩
  · obtain rfl | hkj := eq_or_ne k j
    · exact update_self _ _ _
    · have hk' : s.handling k = true := (update_of_ne hkj _ _).symm.trans hk
      exact (update_of_ne hkj _ _).trans (h.once k hk')
  · obtain rfl | hkj := eq_or_ne k j
    · show s.began c < update s.reloaded k s.clock k
      rwa [update_self]
    · have hp : s.pending k = false := (update_of_ne hkj _ _).symm.trans hpend'
      show s.began c < update s.reloaded j s.clock k
      rw [update_of_ne hkj]
      exact h.fresh k hk hp

/-- A CPU counts up. -/
theorem ackStep (hhand : s.handling j = true) : (s.ackStep j).Round c i expected := by
  have hj : j ∈ targets c i := by
    by_contra hj
    rw [(h.quiet j hj).2] at hhand
    cases hhand
  have hdone : (s.ackStep j).done c i = insert j (s.done c i) := by
    ext k
    rw [mem_insert, mem_done, mem_done]
    obtain rfl | hkj := eq_or_ne k j
    · simp [Shootdown.ackStep, hj, h.once k hhand]
    · simp [Shootdown.ackStep, hkj]
  refine ⟨h.expected, ?_, fun k hk => ?_, fun k hk => ?_, h.fresh⟩
  · have hnot : j ∉ s.done c i := fun hm => by
      rw [(mem_done.1 hm).2.2] at hhand
      cases hhand
    show s.ack + 1 = _
    rw [hdone, card_insert_of_notMem hnot, h.ack]
  · have hkj : k ≠ j := fun he => hk (he ▸ hj)
    have hq := h.quiet k hk
    exact ⟨hq.1, (update_of_ne hkj _ _).trans hq.2⟩
  · obtain rfl | hkj := eq_or_ne k j
    · exact h.once k hhand
    · exact h.once k ((update_of_ne hkj _ _).symm.trans hk)

end

/-- When the counter is there, all have counted up. -/
theorem all_done (h : s.Round c n expected) (hack : ¬ s.ack < expected) :
    s.Quiet ∧ ∀ j, j ≠ c → s.began c < s.reloaded j := by
  have hsub : s.done c n ⊆ targets c n := filter_subset _ _
  have heq : s.done c n = targets c n := by
    refine eq_of_subset_of_card_le hsub ?_
    rw [← h.ack, ← h.expected]
    omega
  have hquiet : s.Quiet := fun j => by
    by_cases hj : j ∈ targets c n
    · rw [← heq] at hj
      exact (mem_done.1 hj).2
    · exact h.quiet j hj
  exact ⟨hquiet, fun j hj => h.fresh j (mem_targets.2 ⟨j.isLt, hj⟩) (hquiet j).1⟩

end Round

/-! ## Steps -/

section Steps

variable {s s' : Shootdown n} {c : Fin n}

theorem Round.tick {i expected : Nat} (h : s.Round c i expected) : s.tick.Round c i expected :=
  ⟨h.expected, h.ack, h.quiet, h.once, h.fresh⟩

variable {p : FlushPhase}

theorem InPhase.tick (h : s.InPhase c p) : s.tick.InPhase c p := by
  cases p with
  | idle => trivial
  | reset => exact h
  | send | wait => exact Round.tick h
  | returned => exact h

/-- Of a call that is not under way only the times of reloads matter. -/
theorem InPhase.later (h : s.InPhase c p) (hp : p.underWay = false)
    (hbegan : s'.began c = s.began c)
    (hreload : ∀ j, s.began c < s.reloaded j → s.began c < s'.reloaded j) : s'.InPhase c p := by
  cases p with
  | idle => trivial
  | returned =>
    intro j hj
    rw [hbegan]
    exact hreload j (h j hj)
  | reset | send | wait => cases hp

section

variable (h : s.Inv)
include h

/-- The call under way is that of `c`, and it moves. -/
theorem Inv.advance (hc : (s.phase c).underWay = true)
    (hphase : s'.phase = update s.phase c p) (hbegan : s'.began = s.began)
    (hreload : s'.reloaded = s.reloaded) (hclock : s'.clock = s.clock + 1)
    (hp : s'.InPhase c p) (hquiet : p.underWay = false → s'.Quiet) : s'.Inv := by
  have hother : ∀ c', c' ≠ c → (s.phase c').underWay = false := fun c' hne => by
    by_contra hw
    exact hne (h.one c' c (by simpa using hw) hc)
  refine ⟨fun c' => ?_, fun c' => ?_, fun c1 c2 h1 h2 => ?_, fun hall => hquiet ?_⟩
  · rw [hbegan, hclock, hphase]
    obtain rfl | hne := eq_or_ne c' c
    · refine .inl ?_
      obtain hlt | hidle := h.began c'
      · omega
      · rw [hidle] at hc
        cases hc
    · rw [update_of_ne hne]
      exact (h.began c').imp_left fun hlt => by omega
  · rw [hphase]
    obtain rfl | hne := eq_or_ne c' c
    · rwa [update_self]
    · rw [update_of_ne hne]
      exact (h.phase c').later (hother c' hne) (by rw [hbegan]) fun j hj => by rwa [hreload]
  · -- no other call is under way
    have hmine : ∀ c', (s'.phase c').underWay = true → c' = c := fun c' hw => by
      by_contra hne
      rw [hphase, update_of_ne hne, hother c' hne] at hw
      cases hw
    rw [hmine c1 h1, hmine c2 h2]
  · have := hall c
    rwa [hphase, update_self] at this

/-- The handlers run: whatever call is under way stays so. -/
theorem Inv.handled (hphase : s'.phase = s.phase) (hbegan : s'.began = s.began)
    (hclock : s'.clock = s.clock + 1)
    (hreload : ∀ c j, s.began c < s.clock → s.began c < s.reloaded j → s.began c < s'.reloaded j)
    (hround : ∀ c i expected, s.began c < s.clock → s.Round c i expected → s'.Round c i expected)
    (hbusy : ¬ s.Quiet) : s'.Inv := by
  refine ⟨fun c => ?_, fun c => ?_, fun c1 c2 => ?_, fun hall => ?_⟩
  · rw [hbegan, hclock, hphase]
    exact (h.began c).imp_left fun hlt => by omega
  · rw [hphase]
    have hp := h.phase c
    obtain hlt | hidle := h.began c
    · cases hc : s.phase c with
      | idle => trivial
      | reset =>
        rw [hc] at hp
        exact absurd hp hbusy
      | send i expected =>
        rw [hc] at hp
        exact hround c i expected hlt hp
      | wait expected =>
        rw [hc] at hp
        exact hround c n expected hlt hp
      | returned =>
        rw [hc] at hp
        exact hp.later rfl (by rw [hbegan]) fun j hj => hreload c j hlt hj
    · rw [hidle]
      trivial
  · rw [hphase]
    exact h.one c1 c2
  · rw [hphase] at hall
    exact absurd (h.quiet hall) hbusy

/-- No other flush is under way when one begins. -/
theorem Inv.call (hall : ∀ c, (s.phase c).underWay = false) : (s.call c).tick.Inv := by
  have hquiet := h.quiet hall
  -- the two phases a call can begin in
  have hgen : ∀ p : FlushPhase, p ≠ .idle →
      InPhase { s.setPhase c p with began := update s.began c s.clock } c p →
      Inv (tick { s.setPhase c p with began := update s.began c s.clock }) := by
    intro p hne hp
    refine ⟨fun c' => ?_, fun c' => ?_, fun c1 c2 h1 h2 => ?_, fun _ => hquiet⟩
    · show update s.began c s.clock c' < s.clock + 1 ∨ update s.phase c p c' = _
      obtain rfl | hc := eq_or_ne c' c
      · rw [update_self]
        exact .inl (Nat.lt_succ_self _)
      · rw [update_of_ne hc, update_of_ne hc]
        exact (h.began c').imp_left fun hlt => by omega
    · show InPhase _ c' (update s.phase c p c')
      obtain rfl | hc := eq_or_ne c' c
      · rw [update_self]
        exact hp.tick
      · rw [update_of_ne hc]
        exact (h.phase c').later (hall c') (update_of_ne hc _ _) fun _ hj => hj
    · have hmine : ∀ c', (update s.phase c p c').underWay = true → c' = c := fun c' hw => by
        by_contra hne
        rw [update_of_ne hne, hall c'] at hw
        cases hw
      rw [hmine c1 h1, hmine c2 h2]
  rw [Shootdown.call]
  split
  · refine hgen .returned (by decide) fun j hj => absurd (Fin.ext ?_) hj
    omega
  · exact hgen .reset (by decide) hquiet

theorem Inv.tick : s.tick.Inv :=
  ⟨fun c' => (h.began c').imp_left fun hlt => Nat.lt_succ_of_lt hlt, fun c' => (h.phase c').tick,
    h.one, h.quiet⟩

end

theorem Round.setPhase {i expected : Nat} {c' : Fin n}
    (h : s.Round c i expected) : (s.setPhase c' p).Round c i expected :=
  ⟨h.expected, h.ack, h.quiet, h.once, h.fresh⟩

section

variable (h : s.Inv)
include h

/-- The steps of a flush, one case for each phase. -/
theorem Inv.flushStep : (s.flushStep c).tick.Inv := by
  have hp := h.phase c
  rw [Shootdown.flushStep]
  cases hc : s.phase c with
  | idle | returned => exact h.tick
  | reset =>
    rw [hc] at hp
    refine h.advance (by rw [hc]; rfl) rfl rfl rfl rfl ?_ (fun hw => by cases hw)
    refine ⟨?_, ?_, fun j _ => hp j, fun j _ => (hp j).1, fun j hj => ?_⟩
    · rw [targets_zero, card_empty]
    · rw [done, targets_zero, filter_empty]
      rfl
    · rw [targets_zero] at hj
      exact absurd hj (notMem_empty j)
  | send i expected =>
    rw [hc] at hp
    have hway : (s.phase c).underWay = true := by rw [hc]; rfl
    dsimp only
    split
    · next hi =>
      split
      · next hself =>
        refine h.advance hway rfl rfl rfl rfl ?_ (fun hw => by cases hw)
        exact (Round.skip hp (by rw [← hself])).setPhase.tick
      · next hother =>
        refine h.advance hway rfl rfl rfl rfl ?_ (fun hw => by cases hw)
        exact (Round.send hp rfl hother).setPhase.tick
    · refine h.advance hway rfl rfl rfl rfl ?_ (fun hw => by cases hw)
      have hall : s.Round c n expected := by
        obtain ⟨hexp, hack, hquiet, honce, hfresh⟩ := hp
        rw [done] at hack
        rw [targets_all (by omega)] at hexp hack hquiet hfresh
        exact ⟨hexp, hack, hquiet, honce, hfresh⟩
      exact hall.setPhase.tick
  | wait expected =>
    rw [hc] at hp
    dsimp only
    split
    · exact h.tick
    · next hack =>
      obtain ⟨hquiet, hflushed⟩ := Round.all_done hp hack
      exact h.advance (by rw [hc]; rfl) rfl rfl rfl rfl hflushed fun _ => hquiet

theorem Inv.irq (hpend : s.pending c = true) : (s.irq c).tick.Inv := by
  refine h.handled rfl rfl rfl (fun c' j hlt hj => ?_) (fun c' i expected hlt hr => ?_)
    fun hq => by rw [(hq c).1] at hpend; cases hpend
  · show s.began c' < update s.reloaded c s.clock j
    by_cases hjc : j = c
    · rw [hjc, update_self]
      exact hlt
    · rwa [update_of_ne hjc]
  · exact (hr.irq hpend hlt).tick

theorem Inv.ackStep (hhand : s.handling c = true) : (s.ackStep c).tick.Inv :=
  h.handled rfl rfl rfl (fun _ _ _ hj => hj) (fun _ _ _ _ hr => (hr.ackStep hhand).tick)
    fun hq => by rw [(hq c).2] at hhand; cases hhand

/-- One case for each event. -/
theorem Inv.step {e : ShootdownEvent n} (he : s.Alone e) : (s.step e).Inv := by
  rw [Shootdown.step]
  cases e with
  | call c =>
    rw [act]
    split
    · exact h.call he
    · exact h.tick
  | step c =>
    rw [act]
    split
    · exact h.flushStep
    · exact h.tick
  | irq c =>
    rw [act]
    split
    · next hc => exact h.irq hc.2
    · exact h.tick
  | ack c =>
    rw [act]
    split
    · next hc => exact h.ackStep hc
    · exact h.tick

end

theorem inv_init : (init n).Inv where
  began _ := .inr rfl
  phase _ := trivial
  one _ _ hw := by cases hw
  quiet _ _ := ⟨rfl, rfl⟩

end Steps

/-- Calls that do not overlap flush every other CPU. -/
theorem flushed_of_alone {es : List (ShootdownEvent n)}
    (h : Along step Alone (init n) es) : (run step (init n) es).Flushed := by
  have hstep : ∀ (s : Shootdown n) e, Inv s → Alone s e → Inv (step s e) :=
    fun _ _ hs he => Inv.step hs he
  exact (run_invariant hstep inv_init h).flushed

/-- One call after another on two CPUs. -/
theorem flushed_inTurn :
    let es : List (ShootdownEvent 2) :=
      [.call 0, .step 0, .step 0, .step 0, .step 0, .irq 1, .ack 1, .step 0,
       .call 1, .step 1, .step 1, .irq 0, .step 1, .ack 0, .step 1, .step 1]
    Along step Alone (init 2) es ∧ (run step (init 2) es).phase 0 = .returned ∧
      (run step (init 2) es).phase 1 = .returned ∧ (run step (init 2) es).Flushed :=
  ⟨by decide, by decide, by decide, flushed_of_alone (by decide)⟩

/-- Two calls overlap: the first one returns with the acknowledgement of its own CPU
for the second, while CPU 1 has not reloaded CR3. -/
theorem overlap_not_flushed :
    ¬ (run step (init 2)
      [.call 0, .step 0, .step 0, .step 0, .step 0, .call 1, .step 1, .step 1, .irq 0, .ack 0,
       .step 0]).Flushed :=
  fun h => absurd (h 0 1 (by decide) (by decide)) (by decide)

end Shootdown

end UnixOs
