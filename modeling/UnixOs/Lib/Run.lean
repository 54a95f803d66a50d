import Mathlib.Data.List.Basic

/-!
# Runs of event-driven machines

Every subsystem of the kernel is modelled as a machine: a state type, an event
type and a total step function. The nondeterminism of the real system (which
CPU acts, whether `kmalloc` fails, what an interrupt interleaves) sits in the
events, so quantifying over all event lists is quantifying over all runs.

- `Machine.run`: the state after a list of events;
- `Machine.Along`: a side condition holds at every step of the run, evaluated
  in the state before that step;
- `Machine.along_iff_split`: the same condition, read off each step;
- `Machine.along_congr`: two conditions that an invariant makes the same;
- `Machine.run_invariant`, `Machine.run_always`: the induction every safety theorem is
  built on;
- `Machine.run_simulation`: the same for two machines run by the same events.
-/

namespace UnixOs

universe u v w

namespace Machine

variable {σ : Type u} {ε : Type v}

/-- The state reached from `s` by the events `es`, in order. -/
def run (step : σ → ε → σ) (s : σ) (es : List ε) : σ :=
  es.foldl step s

/-- `Along step ok s es`: every event of the run meets `ok` in the state in
which it happens. -/
def Along (step : σ → ε → σ) (ok : σ → ε → Prop) : σ → List ε → Prop
  | _, [] => True
  | s, e :: es => ok s e ∧ Along step ok (step s e) es

variable {step : σ → ε → σ} {ok : σ → ε → Prop}

instance Along.decidable [∀ s e, Decidable (ok s e)] :
    ∀ (s : σ) (es : List ε), Decidable (Along step ok s es)
  | _, [] => .isTrue trivial
  | s, e :: es =>
    have := Along.decidable (step s e) es
    inferInstanceAs (Decidable (ok s e ∧ Along step ok (step s e) es))

@[simp] theorem run_nil (s : σ) : run step s [] = s := rfl

@[simp] theorem run_cons (s : σ) (e : ε) (es : List ε) :
    run step s (e :: es) = run step (step s e) es := rfl

theorem run_append (s : σ) (es fs : List ε) : run step s (es ++ fs) = run step (run step s es) fs :=
  List.foldl_append ..

theorem along_append {s : σ} {es fs : List ε} :
    Along step ok s (es ++ fs) ↔ Along step ok s es ∧ Along step ok (run step s es) fs := by
  induction es generalizing s with
  | nil => simp [Along]
  | cons e es ih => simp [Along, ih, and_assoc]

theorem Along.mono {ok' : σ → ε → Prop} (himp : ∀ s e, ok s e → ok' s e) :
    ∀ {s : σ} {es : List ε}, Along step ok s es → Along step ok' s es
  | _, [], _ => trivial
  | _, _ :: _, h => ⟨himp _ _ h.1, Along.mono himp h.2⟩

/-- The condition read off each step of the run. -/
theorem along_iff_split {s : σ} {es : List ε} :
    Along step ok s es ↔ ∀ es1 e es2, es1 ++ e :: es2 = es → ok (run step s es1) e := by
  constructor
  · rintro h es1 e es2 rfl
    exact (along_append.mp h).2.1
  · intro h
    induction es generalizing s with
    | nil => trivial
    | cons e es ih =>
      refine ⟨h [] e es rfl, ih fun es1 f es2 hes => ?_⟩
      exact h (e :: es1) f es2 (by rw [List.cons_append, hes])

/-- **Invariant rule**: what holds at the start and survives every admissible
step holds after every admissible run. -/
theorem run_invariant {Inv : σ → Prop}
    (hstep : ∀ s e, Inv s → ok s e → Inv (step s e)) {s : σ} {es : List ε}
    (hs : Inv s) (hrun : Along step ok s es) : Inv (run step s es) := by
  induction es generalizing s with
  | nil => exact hs
  | cons e es ih => exact ih (hstep s e hs hrun.1) hrun.2

/-- The same for an invariant of every step. -/
theorem run_always {Inv : σ → Prop} (hstep : ∀ s e, Inv s → Inv (step s e)) {s : σ}
    (hs : Inv s) (es : List ε) : Inv (run step s es) := by
  induction es generalizing s with
  | nil => exact hs
  | cons e es ih => exact ih (hstep s e hs)

/-- Two side conditions that an invariant makes the same hold along the same
runs. -/
theorem along_congr {ok' : σ → ε → Prop} {Inv : σ → Prop} (hiff : ∀ s e, Inv s → (ok s e ↔ ok' s e))
    (hstep : ∀ s e, Inv s → ok' s e → Inv (step s e)) {s : σ} {es : List ε} (hs : Inv s) :
    Along step ok s es ↔ Along step ok' s es := by
  induction es generalizing s with
  | nil => exact Iff.rfl
  | cons e es ih =>
    show ok s e ∧ _ ↔ ok' s e ∧ _
    rw [hiff s e hs]
    exact and_congr_right fun h => ih (hstep s e hs h)

/-- **Simulation rule**: two machines whose states are related at the start and
after every admissible step are related after every admissible run. -/
theorem run_simulation {τ : Type w} {astep : τ → ε → τ} {Rel : σ → τ → Prop}
    (hstep : ∀ s t e, Rel s t → ok s e → Rel (step s e) (astep t e)) {s : σ} {t : τ}
    {es : List ε} (hs : Rel s t) (hrun : Along step ok s es) :
    Rel (run step s es) (run astep t es) := by
  induction es generalizing s t with
  | nil => exact hs
  | cons e es ih => exact ih (hstep s t e hs hrun.1) hrun.2

end Machine

end UnixOs
