/-!
# Programs with state and error codes

C code that returns a negative error code from the middle of an operation leaves
the state as it is at that point. `EStateM` does the same: an error carries the
state. This file has the rules that proofs about such programs use.

- `Spec P x Q E`: from a state in `P`, `x` returns with `Q` or fails with `E`;
- `Keeps I x`: `I` holds after `x` if it held before, however `x` ends;
- `run_bind_eq_ok`: a sequence that returns has returned in both parts;
- `attempt`: a call whose error is looked at and not passed on.
-/

namespace UnixOs.ErrState

variable {ε σ α β : Type} {P P' I : σ → Prop} {x : EStateM ε σ α} {f : α → EStateM ε σ β}
  {Q Q' : α → σ → Prop} {E E' : ε → σ → Prop} {R : β → σ → Prop}

/-- What is said of a result. -/
def Sat (Q : α → σ → Prop) (E : ε → σ → Prop) : EStateM.Result ε σ α → Prop
  | .ok a s => Q a s
  | .error e s => E e s

def Spec (P : σ → Prop) (x : EStateM ε σ α) (Q : α → σ → Prop) (E : ε → σ → Prop) : Prop :=
  ∀ s, P s → Sat Q E (x.run s)

/-- The call, and its result if there is one. -/
def attempt (x : EStateM ε σ α) : EStateM ε σ (Option α) := fun s =>
  match x s with
  | .ok a s' => .ok (some a) s'
  | .error _ s' => .ok none s'

/-- The state, whatever the result. -/
def finalState : EStateM.Result ε σ α → σ
  | .ok _ s => s
  | .error _ s => s

/-! ## Running a sequence -/

theorem run_bind_ok {s s' : σ} {a : α} (h : x.run s = .ok a s') :
    (x >>= f).run s = (f a).run s' := by
  show (match x.run s with | .ok a s' => f a s' | .error e s' => .error e s') = _
  rw [h]
  rfl

theorem run_bind_error {s s' : σ} {e : ε} (h : x.run s = .error e s') :
    (x >>= f).run s = .error e s' := by
  show (match x.run s with | .ok a s' => f a s' | .error e s' => .error e s') = _
  rw [h]

theorem run_bind_eq_ok {s s' : σ} {b : β} (h : (x >>= f).run s = .ok b s') :
    ∃ a s1, x.run s = .ok a s1 ∧ (f a).run s1 = .ok b s' := by
  cases hx : x.run s with
  | ok a s1 => exact ⟨a, s1, rfl, (run_bind_ok hx).symm.trans h⟩
  | error e s1 =>
    rw [run_bind_error hx] at h
    cases h

@[simp] theorem run_pure (a : α) (s : σ) : (pure a : EStateM ε σ α).run s = .ok a s := rfl

@[simp] theorem run_get_bind (f : σ → EStateM ε σ β) (s : σ) :
    (get >>= f).run s = (f s).run s := rfl

@[simp] theorem run_modify_bind (g : σ → σ) (f : PUnit → EStateM ε σ β) (s : σ) :
    (modify g >>= f).run s = (f ⟨⟩).run (g s) := rfl

theorem run_attempt_ok {s s' : σ} {a : α} (h : x.run s = .ok a s') :
    (attempt x).run s = .ok (some a) s' := by
  have hx : x s = .ok a s' := h
  rw [EStateM.run, attempt, hx]

theorem run_attempt_error {s s' : σ} {e : ε} (h : x.run s = .error e s') :
    (attempt x).run s = .ok none s' := by
  have hx : x s = .error e s' := h
  rw [EStateM.run, attempt, hx]

/-! ## The rules -/

namespace Spec

theorem bind (hx : Spec P x Q E) (hf : ∀ a, Spec (Q a) (f a) R E) : Spec P (x >>= f) R E := by
  intro s hs
  have h := hx s hs
  cases hxs : x.run s with
  | ok a s' =>
    rw [hxs] at h
    rw [run_bind_ok hxs]
    exact hf a s' h
  | error e s' =>
    rw [hxs] at h
    rw [run_bind_error hxs]
    exact h

theorem ret {a : α} (h : ∀ s, P s → Q a s) : Spec P (pure a : EStateM ε σ α) Q E :=
  fun s hs => h s hs

theorem fail {e : ε} (h : ∀ s, P s → E e s) : Spec P (throw e : EStateM ε σ α) Q E :=
  fun s hs => h s hs

theorem update {g : σ → σ} {Q : PUnit → σ → Prop} (h : ∀ s, P s → Q ⟨⟩ (g s)) :
    Spec P (modify g : EStateM ε σ PUnit) Q E :=
  fun s hs => h s hs

theorem pre (h : Spec P x Q E) (hP : ∀ s, P' s → P s) : Spec P' x Q E :=
  fun s hs => h s (hP s hs)

theorem post (h : Spec P x Q E) (hQ : ∀ a s, Q a s → Q' a s) (hE : ∀ e s, E e s → E' e s) :
    Spec P x Q' E' := by
  intro s hs
  have := h s hs
  cases hx : x.run s with
  | ok a s' =>
    rw [hx] at this
    exact hQ a s' this
  | error e s' =>
    rw [hx] at this
    exact hE e s' this

theorem ite {c : Prop} [Decidable c] {y : EStateM ε σ α} (hx : c → Spec P x Q E)
    (hy : ¬ c → Spec P y Q E) : Spec P (if c then x else y) Q E := by
  by_cases h : c
  · rw [if_pos h]
    exact hx h
  · rw [if_neg h]
    exact hy h

theorem attempt {Q : Option α → σ → Prop} (h : Spec P x (fun a => Q (some a)) fun _ => Q none) :
    Spec P (attempt x) Q E := by
  intro s hs
  have := h s hs
  cases hx : x.run s with
  | ok a s' =>
    rw [hx] at this
    rw [run_attempt_ok hx]
    exact this
  | error e s' =>
    rw [hx] at this
    rw [run_attempt_error hx]
    exact this

/-- A loop over a list whose body passes an assertion on. -/
theorem foldlM {τ : Type} {g : α → τ → EStateM ε σ α} {ts : List τ} {R : α → σ → Prop}
    (h : ∀ a, ∀ t ∈ ts, Spec (R a) (g a t) R E) (a : α) : Spec (R a) (ts.foldlM g a) R E := by
  induction ts generalizing a with
  | nil => exact ret fun _ hs => hs
  | cons t ts ih =>
    rw [List.foldlM_cons]
    refine bind (h a t List.mem_cons_self) fun a' => ?_
    exact ih (fun a'' t' ht' => h a'' t' (List.mem_cons_of_mem t ht')) a'

/-- What is read is a state of the precondition. -/
theorem readBind {f : σ → EStateM ε σ β} (h : ∀ s, P s → Spec P (f s) R E) :
    Spec P (get >>= f) R E :=
  fun s hs => h s hs s hs

theorem finalState (h : Spec P x (fun _ => I) fun _ => I) {s : σ} (hs : P s) :
    I (finalState (x.run s)) := by
  have := h s hs
  cases hx : x.run s with
  | ok | error =>
    rw [hx] at this
    exact this

end Spec

/-! ## Invariants -/

/-- `x` keeps `I`, also when it fails. -/
def Keeps (I : σ → Prop) (x : EStateM ε σ α) : Prop := Spec I x (fun _ => I) fun _ => I

namespace Keeps

theorem bind (hx : Keeps I x) (hf : ∀ a, Keeps I (f a)) : Keeps I (x >>= f) := Spec.bind hx hf

theorem ret {a : α} : Keeps I (pure a : EStateM ε σ α) := Spec.ret fun _ hs => hs

theorem fail {e : ε} : Keeps I (throw e : EStateM ε σ α) := Spec.fail fun _ hs => hs

/-- What is read is a state of the invariant. -/
theorem readBind {f : σ → EStateM ε σ β} (h : ∀ s, I s → Keeps I (f s)) : Keeps I (get >>= f) :=
  fun s hs => h s hs s hs

theorem update {g : σ → σ} (h : ∀ s, I s → I (g s)) : Keeps I (modify g : EStateM ε σ PUnit) :=
  Spec.update h

theorem ite {c : Prop} [Decidable c] {y : EStateM ε σ α} (hx : c → Keeps I x)
    (hy : ¬ c → Keeps I y) : Keeps I (if c then x else y) := Spec.ite hx hy

/-- A step that is made under a condition, and the rest of the program. -/
theorem iteThen {c : Prop} [Decidable c] {x : EStateM ε σ Unit} {k : Unit → EStateM ε σ β}
    (hx : c → Keeps I x) (hk : ∀ a, Keeps I (k a)) : Keeps I (if c then x >>= k else k ()) :=
  ite (fun hc => bind (hx hc) hk) fun _ => hk ()

theorem attempt (h : Keeps I x) : Keeps I (attempt x) := Spec.attempt h

theorem finalState (h : Keeps I x) {s : σ} (hs : I s) : I (ErrState.finalState (x.run s)) :=
  Spec.finalState h hs

/-- A loop over a list keeps what its body keeps. -/
theorem foldlM {τ : Type} {g : α → τ → EStateM ε σ α} {ts : List τ}
    (h : ∀ a, ∀ t ∈ ts, Keeps I (g a t)) (a : α) : Keeps I (ts.foldlM g a) := by
  induction ts generalizing a with
  | nil => exact ret
  | cons t ts ih =>
    rw [List.foldlM_cons]
    refine bind (h a t List.mem_cons_self) fun a' => ?_
    exact ih (fun a'' t' ht' => h a'' t' (List.mem_cons_of_mem t ht')) a'

end Keeps

end UnixOs.ErrState
