import UnixOs.Core.Fork
import UnixOs.Core.SchedCurrent

/-!
# Credentials (cred.c) and what forking does to them

The four setters work on one of two triples of a process, user or group:
real, effective and saved id. `setId` and `setEffId` are the two policies; the
functions of cred.c apply them to a triple.

- `Dropped`: the three user ids are nonzero. Every step keeps it for every
  process, so a process never regains `euid` 0 by itself.
- `sys_fork` copies `uid` and `gid` and leaves the other four ids of the child
  at zero, so a child of a dropped process is born with `euid` 0.
- `privilege_iff_zeroForks`: the ids are inherited and dropped privilege stays
  dropped along a run exactly when every process that forks in it has those
  four ids at zero.
-/

namespace UnixOs

open Function Machine Errno

/-! ## The setters -/

/-- Real, effective and saved id. -/
structure Ids where
  real : UInt32
  eff : UInt32
  saved : UInt32

/-- The policy of `cred_set_uid` and `cred_set_gid` (cred.c:38): root sets all
three, others may only switch the effective id among the three. -/
def setId (root : Bool) (t : Ids) (v : UInt32) : Ids × Int :=
  if root then (⟨v, v, v⟩, 0)
  else if v = t.real ∨ v = t.eff ∨ v = t.saved then ({ t with eff := v }, 0)
  else (t, -EPERM)

/-- The policy of `cred_set_euid` and `cred_set_egid` (cred.c:62). -/
def setEffId (root : Bool) (t : Ids) (v : UInt32) : Ids × Int :=
  if root ∨ v = t.real ∨ v = t.saved then ({ t with eff := v }, 0)
  else (t, -EPERM)

namespace Process

variable (x : Process)

def uids : Ids := ⟨x.uid, x.euid, x.suid⟩

def gids : Ids := ⟨x.gid, x.egid, x.sgid⟩

def setUids (t : Ids) : Process :=
  { x with uid := t.real, euid := t.eff, suid := t.saved }

def setGids (t : Ids) : Process :=
  { x with gid := t.real, egid := t.eff, sgid := t.saved }

end Process

/-- One of the four mutators of cred.c, as a function of the process and the
requested id. -/
abbrev CredSetter := Process → UInt32 → Process × Int

/-- `cred_set_uid` (cred.c:24). -/
def credSetUid : CredSetter := fun x uid =>
  let (t, rc) := setId (x.euid == 0) x.uids uid
  (x.setUids t, rc)

/-- `cred_set_gid` (cred.c:38). -/
def credSetGid : CredSetter := fun x gid =>
  let (t, rc) := setId (x.euid == 0) x.gids gid
  (x.setGids t, rc)

/-- `cred_set_euid` (cred.c:52). -/
def credSetEuid : CredSetter := fun x euid =>
  let (t, rc) := setEffId (x.euid == 0) x.uids euid
  (x.setUids t, rc)

/-- `cred_set_egid` (cred.c:62). -/
def credSetEgid : CredSetter := fun x egid =>
  let (t, rc) := setEffId (x.euid == 0) x.gids egid
  (x.setGids t, rc)

/-- A setter on the object `proc`, which fails with `-ESRCH` on null. -/
def Kernel.applyCred (k : Kernel) (f : CredSetter) (proc : Option Ptr)
    (v : UInt32) : Kernel × Int :=
  match proc with
  | none => (k, -ESRCH)
  | some p => (k.modProc p fun x => (f x v).1, (f (k.proc p) v).2)

/-! ## The process tree -/

/-- What can happen to credentials. The acting process is whichever is current
on the CPU that makes the call. -/
inductive CredEvent where
  | setUid (p : Ptr) (uid : UInt32)
  | setGid (p : Ptr) (gid : UInt32)
  | setEuid (p : Ptr) (euid : UInt32)
  | setEgid (p : Ptr) (egid : UInt32)
  /-- `sys_fork` by `p` on CPU `c`. -/
  | fork (c : Nat) (p : Ptr) (env : ForkEnv)
  /-- `sys_execve` by `p`, which fails or replaces the image. -/
  | exec (p : Ptr) (ok : Bool)

/-- The process that acts. -/
def CredEvent.actor : CredEvent → Ptr
  | .setUid p _ | .setGid p _ | .setEuid p _ | .setEgid p _ => p
  | .fork _ p _ => p
  | .exec p _ => p

/-- The effect of an event whose actor exists. -/
def credEffect (k : Kernel) : CredEvent → Kernel
  | .setUid p v => (k.applyCred credSetUid (some p) v).1
  | .setGid p v => (k.applyCred credSetGid (some p) v).1
  | .setEuid p v => (k.applyCred credSetEuid (some p) v).1
  | .setEgid p v => (k.applyCred credSetEgid (some p) v).1
  | .fork c p env => (k.sysFork c p env).1
  | .exec p ok => if ok then k.execResetSignals p else k

/-- One step; an object that was never allocated makes no calls. -/
def credStep (k : Kernel) (e : CredEvent) : Kernel :=
  if e.actor < k.nproc then credEffect k e else k

/-- Parent and child of a successful fork. -/
def forkChild (k : Kernel) : CredEvent → Option (Ptr × Ptr)
  | .fork _ p env =>
    if p < k.nproc ∧ k.forkSucceeds p env then some (p, k.nproc) else none
  | _ => none

/-- The processes of `D` and those forked from them in the events `es`. -/
def family (k : Kernel) (D : List Ptr) : List CredEvent → List Ptr
  | [] => D
  | e :: es =>
    let D := match forkChild k e with
      | some (par, child) => if par ∈ D then child :: D else D
      | none => D
    family (credStep k e) D es

/-- The three user ids of a process are nonzero. -/
def Dropped (k : Kernel) (p : Ptr) : Prop :=
  p < k.nproc ∧ (k.creds p).uid ≠ 0 ∧ (k.creds p).euid ≠ 0 ∧ (k.creds p).suid ≠ 0

instance (k : Kernel) (p : Ptr) : Decidable (Dropped k p) :=
  inferInstanceAs (Decidable (_ ∧ _ ∧ _ ∧ _))

/-- Once a process has dropped its privilege, neither it nor a process forked
from it from then on has `euid` 0 at any later point of the run. -/
def PrivilegeStaysDropped (k0 : Kernel) (es : List CredEvent) : Prop :=
  ∀ es1 es2, es1 ++ es2 <+: es → ∀ p, Dropped (run credStep k0 es1) p →
    ∀ q ∈ family (run credStep k0 es1) [p] es2,
      ((run credStep k0 (es1 ++ es2)).creds q).euid ≠ 0

/-- Every fork child of the run starts with the ids of its parent. -/
def ForksInherit (k0 : Kernel) (es : List CredEvent) : Prop :=
  ∀ es1 e es2, es1 ++ e :: es2 = es → ∀ par child,
    forkChild (run credStep k0 es1) e = some (par, child) →
    (credStep (run credStep k0 es1) e).creds child
      = (run credStep k0 es1).creds par

/-- A process that forks has the four ids that fork does not copy at zero. -/
def ZeroForks (k : Kernel) (e : CredEvent) : Prop :=
  ∀ par child, forkChild k e = some (par, child) →
    (k.creds par).euid = 0 ∧ (k.creds par).egid = 0 ∧
      (k.creds par).suid = 0 ∧ (k.creds par).sgid = 0

/-! ## One step -/

variable {k : Kernel} {e : CredEvent} {p q par child : Ptr}

theorem forkChild_eq_some (h : forkChild k e = some (par, child)) :
    ∃ c env, e = .fork c par env ∧ par < k.nproc ∧
      k.forkSucceeds par env = true ∧ child = k.nproc := by
  cases e with
  | fork c p env =>
    simp only [forkChild, Option.ite_none_right_eq_some, Option.some.injEq, Prod.mk.injEq] at h
    obtain ⟨⟨hp, hs⟩, rfl, rfl⟩ := h
    exact ⟨c, env, rfl, hp, hs, rfl⟩
  | _ => exact nomatch h

/-- The ids of a child: two copied, four zero. -/
theorem creds_forkChild (h : forkChild k e = some (par, child)) :
    (credStep k e).creds child = ⟨(k.creds par).uid, (k.creds par).gid, 0, 0, 0, 0⟩ := by
  obtain ⟨c, env, rfl, hp, hs, rfl⟩ := forkChild_eq_some h
  have hstep : credStep k (.fork c par env) = (k.sysFork c par env).1 := if_pos hp
  rw [hstep]
  rcases k.sysFork_cases c par env with ⟨hf, -⟩ | ⟨-, slot, -, he⟩
  · exact absurd hs (by simp [hf])
  · rw [he, Kernel.creds_publishChild]
    exact update_self ..

/-- The three user ids, all nonzero. -/
def Ids.Nonzero (t : Ids) : Prop := t.real ≠ 0 ∧ t.eff ≠ 0 ∧ t.saved ≠ 0

theorem Ids.Nonzero.setId {t : Ids} (h : t.Nonzero) (v : UInt32) : (setId false t v).1.Nonzero := by
  unfold UnixOs.setId
  simp only [Bool.false_eq_true, if_false]
  split
  · rename_i hv
    refine ⟨h.1, ?_, h.2.2⟩
    rcases hv with rfl | rfl | rfl
    exacts [h.1, h.2.1, h.2.2]
  · exact h

theorem Ids.Nonzero.setEffId {t : Ids} (h : t.Nonzero) (v : UInt32) :
    (setEffId false t v).1.Nonzero := by
  unfold UnixOs.setEffId
  simp only [Bool.false_eq_true, false_or]
  split
  · rename_i hv
    refine ⟨h.1, ?_, h.2.2⟩
    rcases hv with rfl | rfl
    exacts [h.1, h.2.2]
  · exact h

/-- No setter gives a dropped process a zero user id. -/
theorem CredEvent.setter_nonzero {x : Process} (h : x.uids.Nonzero) (v : UInt32) :
    (credSetUid x v).1.uids.Nonzero ∧ (credSetGid x v).1.uids.Nonzero ∧
      (credSetEuid x v).1.uids.Nonzero ∧ (credSetEgid x v).1.uids.Nonzero := by
  have hroot : (x.euid == 0) = false := beq_eq_false_iff_ne.mpr h.2.1
  refine ⟨?_, h, ?_, h⟩
  · unfold credSetUid
    rw [hroot]
    exact h.setId v
  · unfold credSetEuid
    rw [hroot]
    exact h.setEffId v

theorem dropped_modProc {f : Process → Process} (h : Dropped k p)
    (hf : ∀ x : Process, x.uids.Nonzero → (f x).uids.Nonzero) (q : Ptr) :
    Dropped (k.modProc q f) p := by
  refine ⟨h.1, ?_⟩
  obtain rfl | hpq := eq_or_ne p q
  · rw [Kernel.creds_modProc, update_self]
    exact hf _ h.2
  · rw [Kernel.creds_modProc, update_of_ne hpq]
    exact h.2

/-- **Every step keeps dropped privilege dropped**, in every process. -/
theorem dropped_credStep (h : Dropped k p) (e : CredEvent) : Dropped (credStep k e) p := by
  unfold credStep
  split
  swap
  · exact h
  cases e with
  | setUid q v => exact dropped_modProc h (fun _ hx => (CredEvent.setter_nonzero hx v).1) q
  | setGid q v => exact dropped_modProc h (fun _ hx => (CredEvent.setter_nonzero hx v).2.1) q
  | setEuid q v => exact dropped_modProc h (fun _ hx => (CredEvent.setter_nonzero hx v).2.2.1) q
  | setEgid q v => exact dropped_modProc h (fun _ hx => (CredEvent.setter_nonzero hx v).2.2.2) q
  | fork c q env =>
    show Dropped (k.sysFork c q env).1 p
    rcases k.sysFork_cases c q env with ⟨-, he | he⟩ | ⟨-, slot, -, he⟩
    · rw [he]
      exact h
    · rw [he]
      exact h
    · have hne : p ≠ k.nproc := Nat.ne_of_lt h.1
      constructor
      · rw [he, Kernel.nproc_publishChild]
        exact Nat.lt_succ_of_lt h.1
      · have hp : (k.sysFork c q env).1.creds p = k.creds p := by
          rw [he, Kernel.creds_publishChild]
          exact update_of_ne hne _ _
        rw [hp]
        exact h.2
  | exec q ok =>
    show Dropped (if ok then k.execResetSignals q else k) p
    split
    · exact dropped_modProc h (by intro _ hx; exact hx) q
    · exact h

/-! ## Whole runs -/

/-- If only processes with zero ids fork, the family of a dropped process stays
dropped: nobody in it can fork. -/
theorem dropped_family {es : List CredEvent} {D : List Ptr}
    (hD : ∀ q ∈ D, Dropped k q) (hrun : Along credStep ZeroForks k es) :
    ∀ q ∈ family k D es, Dropped (run credStep k es) q := by
  induction es generalizing k D with
  | nil => exact hD
  | cons e es ih =>
    have hkeep : ∀ q ∈ D, Dropped (credStep k e) q := fun q hq => dropped_credStep (hD q hq) e
    unfold family
    cases hf : forkChild k e with
    | none => exact ih hkeep hrun.2
    | some pc =>
      obtain ⟨par, child⟩ := pc
      have hpar : par ∉ D := fun hm => (hD par hm).2.2.1 (hrun.1 par child hf).1
      dsimp only
      rw [if_neg hpar]
      exact ih hkeep hrun.2

/-- **Privilege and inheritance**: along a run of setters, forks and execs from
any state, ids are inherited and dropped privilege stays dropped exactly when
every process that forks has `euid`, `egid`, `suid` and `sgid` zero. -/
theorem privilege_iff_zeroForks (k0 : Kernel) (es : List CredEvent) :
    PrivilegeStaysDropped k0 es ∧ ForksInherit k0 es ↔ Along credStep ZeroForks k0 es := by
  constructor
  · rintro ⟨-, hinh⟩
    refine along_iff_split.mpr fun es1 e es2 hes par child hf => ?_
    have heq := (hinh es1 e es2 hes par child hf).symm.trans (creds_forkChild hf)
    rw [heq]
    exact ⟨rfl, rfl, rfl, rfl⟩
  · intro hrun
    refine ⟨fun es1 es2 hpre p hp q hq => ?_, fun es1 e es2 hes par child hf => ?_⟩
    · obtain ⟨rest, rfl⟩ := hpre
      have hrun' := (along_append.mp (along_append.mp hrun).1).2
      rw [run_append]
      have hp' : ∀ q ∈ [p], Dropped (run credStep k0 es1) q :=
        fun q hq => List.mem_singleton.mp hq ▸ hp
      exact (dropped_family hp' hrun' q hq).2.2.1
    · obtain ⟨h1, h2, h3, h4⟩ := along_iff_split.mp hrun es1 e es2 hes par child hf
      rw [creds_forkChild hf]
      exact Creds.ext rfl rfl h1.symm h2.symm h3.symm h4.symm

/-- Process 1 of a machine with one CPU gives up root for good and forks; the
child, process 3, has `euid` 0 again. -/
def dropThenFork : List CredEvent := [.setUid 1 1000, .fork 0 1 {}]

theorem dropThenFork_regains_root :
    ¬ (PrivilegeStaysDropped (bootKernel 1) dropThenFork ∧
      ForksInherit (bootKernel 1) dropThenFork) := by
  rintro ⟨hpriv, -⟩
  have hdrop : Dropped (run credStep (bootKernel 1) [.setUid 1 1000]) 1 := by decide
  exact hpriv [.setUid 1 1000] [.fork 0 1 {}] (List.prefix_refl _) 1 hdrop 3 (by decide) (by decide)

end UnixOs
