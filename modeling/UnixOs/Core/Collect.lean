import Mathlib.Algebra.Order.Group.Nat
import UnixOs.Core.Dispatch
import UnixOs.Core.Terminal

/-!
# Collecting children (process.c, sys_proc.c)

A process ends in one of two states: `process_exit`, on an exit or a fault,
stores ZOMBIE; a fatal signal stores TERMINATED. `process_find_child` passes over
TERMINATED processes, so only the first kind is found by `waitpid`.

- `Collected`: what the parent's `waitpid` makes of a child that has ended;
- `TableInv`: table and hash agree, nobody in the table is TERMINATED, and the
  parent of a process in the table is in it and alive;
- `collectable_of_stepOk`: in every run without fatal signals in which no parent
  exits before its children are collected, every child that ends stays
  collectable until it is collected.
-/

namespace UnixOs

open Function List Machine Option Kernel Errno

namespace Kernel

variable (k : Kernel)

/-- `p` is in a slot of `process_table` that is scanned; slot 0 is
`kernel_proc`'s. -/
def InTable (p : Ptr) : Prop := ∃ i, 1 ≤ i ∧ i < maxProcesses ∧ k.processTable i = some p

/-- The test of `process_find_child` on one process. -/
def isChild (ppid : UInt32) (zombieOnly : Bool) (q : Ptr) : Bool :=
  (k.proc q).ppid == ppid && k.state q != .terminated && (!zombieOnly || k.state q == .zombie)

/-- `process_find_child` (process.c:237). A `pid` that is not positive as an
`int32_t` stands for any child. -/
def processFindChild (ppid pid : UInt32) (zombieOnly : Bool) : Option Ptr :=
  if 0 < pid.toBitVec.toInt then (k.processTableHt pid).filter (k.isChild ppid zombieOnly)
  else ((range' 1 (maxProcesses - 1)).filterMap k.processTable).find?
    (k.isChild ppid zombieOnly)

end Kernel

/-- What `sys_waitpid` returns, stores through `status_ptr` and leaves behind. -/
structure WaitResult where
  kernel : Kernel
  ret : Int
  status : Option Int

namespace Kernel

variable (k : Kernel)

/-- `waitpid_reap` (sys_proc.c:144). `copied` is false when `copy_to_user`
fails. -/
def reapChild (child : Ptr) (copied : Bool) : WaitResult :=
  if copied then
    ⟨k.waitpidReap child, (k.proc child).pid.toBitVec.toInt, some (k.proc child).exitCode⟩
  else ⟨k, -EFAULT, none⟩

/-- `sys_waitpid` (sys_proc.c:157) by `cur`, up to the point where it sleeps
(`none`). -/
def sysWaitpid (cur : Ptr) (pid : UInt32) (nohang copied : Bool) : Option WaitResult :=
  let ppid := (k.proc cur).pid
  if (k.processFindChild ppid pid false).isNone then some ⟨k, -ECHILD, none⟩
  else
    match k.processFindChild ppid pid true with
    | some child => some (k.reapChild child copied)
    | none => if nohang then some ⟨k, 0, none⟩ else none

end Kernel

/-- The argument -1 of `waitpid`. -/
def anyChild : UInt32 := 0xFFFFFFFF

/-- The parent of `p` is there to collect it; its `waitpid` for the pid of `p`
returns `p`'s pid and `status`, for -1 some child that has ended; once collected,
`p` is out of the table and `waitpid` for it fails. -/
structure Collected (k : Kernel) (p : Ptr) (status : Int) : Prop where
  parent : ∃ q, k.InTable q ∧ (k.proc q).pid = (k.proc p).ppid ∧ ¬ k.Terminal q
  byPid : ∀ q nohang, (k.proc q).pid = (k.proc p).ppid →
    k.sysWaitpid q (k.proc p).pid nohang true
      = some ⟨k.waitpidReap p, (k.proc p).pid.toBitVec.toInt, some status⟩
  byAny : ∀ q nohang, (k.proc q).pid = (k.proc p).ppid →
    ∃ r, k.state r = .zombie ∧ (k.proc r).ppid = (k.proc p).ppid ∧
      k.sysWaitpid q anyChild nohang true
        = some ⟨k.waitpidReap r, (k.proc r).pid.toBitVec.toInt, some (k.proc r).exitCode⟩
  once : ∀ q nohang copied, (k.proc q).pid = (k.proc p).ppid →
    (k.waitpidReap p).sysWaitpid q (k.proc p).pid nohang copied
      = some ⟨k.waitpidReap p, -ECHILD, none⟩
  freed : ¬ (k.waitpidReap p).InTable p

/-- From the moment it ends until it is collected, every child can be
collected, with the status it ended with. -/
def CollectedAlong (k0 : Kernel) (es : List StateEvent) : Prop :=
  ∀ es1 es2, es1 ++ es2 <+: es → ∀ p, p < (run stateStep k0 es1).nproc →
    (run stateStep k0 es1).Terminal p →
    (run stateStep k0 (es1 ++ es2)).InTable p →
    ((run stateStep k0 es1).proc p).ppid ≠ 0 →
    Collected (run stateStep k0 (es1 ++ es2)) p
      ((run stateStep k0 es1).proc p).exitCode

/-- What a run has to keep to besides `PlainStoresSafe`: no signal is fatal; who
exits has no children in the table and has not ended before; who forks is in the
table and has not ended, and pids are left; and what is collected is in the
table. -/
def CollectSafe (k : Kernel) : StateEvent → Prop
  | .fork _ p _ => k.nextPid.toNat < 2 ^ 31 ∧ k.InTable p ∧ ¬ k.Terminal p
  | .sendSignal _ pid signal => ∀ p, k.processTableHt pid = some p →
      k.signalFatal p signal.toNat = false
  | .signalStore _ target sig => k.signalFatal target sig = false
  | .exitCode c _ => ∀ me, k.current c = some me → ¬ k.Terminal me
  | .exitStore c => ∀ me, k.current c = some me → (k.proc me).pid ≠ 0 →
      ∀ p, k.InTable p → (k.proc p).ppid ≠ (k.proc me).pid
  | .reap p => k.InTable p
  | _ => True

/-- The condition of `collectable_of_stepOk` on a step. -/
def CollectStepOk (k : Kernel) (e : StateEvent) : Prop := PlainStoresSafe k e ∧ CollectSafe k e

/-! ## The table -/

/-- Table and hash agree, nobody in the table is TERMINATED, and whoever is in
the table has a living parent in it. -/
structure TableInv (k : Kernel) : Prop where
  hash : ∀ {p}, k.InTable p → k.processTableHt (k.proc p).pid = some p
  slot : ∀ {i j p}, k.processTable i = some p → k.processTable j = some p → i = j
  alloc : ∀ {p}, k.InTable p → p < k.nproc
  state : ∀ {p}, k.InTable p → k.state p ≠ .terminated
  pid : ∀ {p}, k.InTable p → 0 < (k.proc p).pid.toNat
  fresh : ∀ {pid p}, k.processTableHt pid = some p → pid.toNat < k.nextPid.toNat
  slots : ∀ {i p}, k.processTable i = some p → p < k.nproc
  bound : k.nextPid.toNat ≤ 2 ^ 31
  parent : ∀ {p}, k.InTable p → (k.proc p).ppid ≠ 0 →
    ∃ q, k.InTable q ∧ (k.proc q).pid = (k.proc p).ppid ∧ ¬ k.Terminal q

namespace TableInv

variable {k : Kernel} {p : Ptr}

section

variable (h : TableInv k) (hp : k.InTable p)
include h hp

/-- The pid of a process in the table is a positive `int32_t`. -/
theorem pid_pos : 0 < (k.proc p).pid.toBitVec.toInt := by
  have hlt := h.fresh (h.hash hp)
  have hpos := h.pid hp
  have hb := h.bound
  have hbv : (k.proc p).pid.toBitVec.toNat = (k.proc p).pid.toNat := rfl
  rw [BitVec.toInt_eq_toNat_of_lt (by omega)]
  omega

/-- Looking a process in the table up by its pid. -/
theorem findChild_pid (ppid : UInt32) (zombieOnly : Bool) :
    k.processFindChild ppid (k.proc p).pid zombieOnly
      = if k.isChild ppid zombieOnly p then some p else none := by
  rw [processFindChild, if_pos (h.pid_pos hp), h.hash hp]
  rfl

/-- What reaping a ZOMBIE leaves. -/
theorem waitpidReap_eq (hz : k.state p = .zombie) :
    ∃ i, k.processTable i = some p ∧
      k.waitpidReap p = { k.setState p .terminated with
        processTableHt := update k.processTableHt (k.proc p).pid none
        processTable := update k.processTable i none } := by
  have hpid : (k.proc p).pid ≠ 0 := by
    intro h0
    have := h.pid hp
    rw [h0] at this
    exact absurd this (by decide)
  have hset : ((k.setState p .terminated).proc p).pid = (k.proc p).pid := Leaves.setState.pid p
  obtain ⟨j, hj1, hj2, hj⟩ := hp
  -- the scan stops at the one slot that holds the process
  have hsome : ∃ i, k.slotOf p = some i := by
    rw [← isSome_iff_exists, slotOf, find?_isSome]
    refine ⟨j, mem_range'_1.2 ⟨hj1, ?_⟩, ?_⟩
    · omega
    · rw [hj]
      exact beq_self_eq_true _
  obtain ⟨i, hi⟩ := hsome
  refine ⟨i, ?_, ?_⟩
  · have := find?_some hi
    exact eq_of_beq this
  · rw [waitpidReap, if_pos hz, processTerminate, if_neg hpid]
    have hslot : ({ k.setState p .terminated with
        processTableHt := update (k.setState p .terminated).processTableHt
          ((k.setState p .terminated).proc p).pid none } : Kernel).slotOf p = some i := hi
    dsimp only
    rw [hslot, hset]
    rfl

/-- A child in the table that has ended is collected by its parent. -/
theorem collected (ht : k.Terminal p)
    (hppid : (k.proc p).ppid ≠ 0) : Collected k p (k.proc p).exitCode := by
  -- a process in the table is not TERMINATED
  have hz : k.state p = .zombie := by
    have hne := h.state hp
    unfold Kernel.Terminal at ht
    cases hs : k.state p <;> simp_all [ProcState.isTerminal]
  have hchild (b : Bool) : k.isChild (k.proc p).ppid b p = true := by simp [isChild, hz]
  obtain ⟨i, hi, hreap⟩ := h.waitpidReap_eq hp hz
  have hident (q : Ptr) : ((k.waitpidReap p).proc q).pid = (k.proc q).pid := by
    rw [hreap]
    exact Leaves.setState.pid q
  refine ⟨h.parent hp hppid, ?_, ?_, ?_, ?_⟩
  -- by its pid
  · intro q nohang hq
    simp only [sysWaitpid, hq, h.findChild_pid hp, hchild, if_true, isNone_some,
      Bool.false_eq_true, if_false, reapChild]
  -- by `-1`, which finds the first ZOMBIE of the table
  · intro q nohang hq
    have hneg : ¬ 0 < anyChild.toBitVec.toInt := by decide
    obtain ⟨j, hj1, hj2, hj⟩ := hp
    have hmem : p ∈ (range' 1 (maxProcesses - 1)).filterMap k.processTable := by
      refine mem_filterMap.2 ⟨j, mem_range'_1.2 ⟨hj1, ?_⟩, hj⟩
      omega
    have hfind (b : Bool) : (k.processFindChild (k.proc p).ppid anyChild b).isSome = true := by
      rw [processFindChild, if_neg hneg, find?_isSome]
      exact ⟨p, hmem, hchild b⟩
    obtain ⟨r, hr⟩ := isSome_iff_exists.1 (hfind true)
    have hrchild : k.isChild (k.proc p).ppid true r = true := by
      rw [processFindChild] at hr
      exact find?_some hr
    simp only [isChild, Bool.not_true, Bool.false_or, Bool.and_eq_true, beq_iff_eq] at hrchild
    refine ⟨r, hrchild.2, hrchild.1.1, ?_⟩
    have hsome := isNone_eq_false_iff.2 (hfind false)
    simp only [sysWaitpid, hq, hsome, hr, Bool.false_eq_true, if_false, reapChild, if_true]
  -- a second time there is no such child
  · intro q nohang copied hq
    have hnone : (k.waitpidReap p).processTableHt (k.proc p).pid = none := by
      rw [hreap]
      exact update_self ..
    have hfind : (k.waitpidReap p).processFindChild (k.proc p).ppid (k.proc p).pid false =
        none := by
      rw [processFindChild, if_pos (h.pid_pos hp), hnone]
      rfl
    simp only [sysWaitpid, hident, hq, hfind, isNone_none, if_true]
  -- and the slot is free
  · rintro ⟨j, -, -, hj⟩
    rw [hreap] at hj
    replace hj : update k.processTable i none j = some p := hj
    by_cases hji : j = i
    · rw [hji, update_self] at hj
      cases hj
    · rw [update_of_ne hji] at hj
      exact hji (h.slot hj hi)

end

end TableInv

/-! ## Who ends -/

section Ends

variable {k : Kernel} {c : Nat} {p q : Ptr} {s : ProcState} {e : StateEvent}

theorem Stores.live_of_signal {sig : Nat} (hs : Stores k (.signalStore c p sig) q s)
    (hsig : k.signalFatal p sig = false) : s.isTerminal = false := by
  cases hs with
  | kill hfatal =>
    rw [hsig] at hfatal
    cases hfatal
  | stop | cont => rfl

/-- Of the steps that keep to `CollectSafe` only exit and the reaper end a
process, and who exits has no children left. -/
theorem Stores.ends (hs : Stores k e p s) (h : CollectSafe k e) (hreap : ∀ q, e ≠ .reap q) :
    s.isTerminal = false ∨ s = .zombie ∧ ∀ q, k.InTable q → (k.proc q).ppid ≠ (k.proc p).pid := by
  cases hs with
  | kill hfatal => exact .inl ((Stores.kill (c := 0) hfatal).live_of_signal h)
  | stop | cont => exact .inl rfl
  | send _ hht _ hs => exact .inl (hs.live_of_signal (h p hht))
  | block | resume | wake => exact .inl rfl
  | exit hc hpid => exact .inr ⟨rfl, h p hc hpid⟩
  | reap _ => exact absurd rfl (hreap p)

/-- `schedule` ends nobody. -/
theorem state_schedule_of_terminal (h : (k.schedule c).Terminal p) :
    (k.schedule c).state p = k.state p := by
  unfold Kernel.Terminal at h
  obtain hs | ⟨hs, -⟩ | ⟨hs, -⟩ | ⟨hs, -⟩ := (schedEffect_schedule k c).state p
  · exact hs
  · rw [hs] at h
    cases h
  · rw [hs] at h
    cases h
  · rw [hs] at h
    cases h

end Ends

/-! ## The invariant along a run -/

namespace TableInv

variable {k k' : Kernel} {c : Nat} {p : Ptr}

/-- A step that keeps the table and every pid. Whom it ends is alone in the
table with its children collected. -/
theorem frame (h : TableInv k) (htable : k'.processTable = k.processTable)
    (hht : k'.processTableHt = k.processTableHt) (hnext : k'.nextPid = k.nextPid)
    (hn : k'.nproc = k.nproc) (hpid : ∀ p, (k'.proc p).pid = (k.proc p).pid)
    (hppid : ∀ p, (k'.proc p).ppid = (k.proc p).ppid)
    (hends : ∀ p, k.InTable p → k'.Terminal p → k'.state p = k.state p ∨
      k'.state p = .zombie ∧ ∀ q, k.InTable q → (k.proc q).ppid ≠ (k.proc p).pid) :
    TableInv k' := by
  have hin {p : Ptr} : k'.InTable p ↔ k.InTable p := by
    rw [Kernel.InTable, htable]
    rfl
  constructor
  · intro p hp
    rw [hht, hpid]
    exact h.hash (hin.1 hp)
  · rw [htable]
    exact h.slot
  · intro p hp
    rw [hn]
    exact h.alloc (hin.1 hp)
  · intro p hp hs
    have ht : k'.Terminal p := by
      unfold Kernel.Terminal
      rw [hs]
      rfl
    obtain he | ⟨he, -⟩ := hends p (hin.1 hp) ht
    · exact h.state (hin.1 hp) (he.symm.trans hs)
    · rw [he] at hs
      cases hs
  · intro p hp
    rw [hpid]
    exact h.pid (hin.1 hp)
  · intro pid p hp
    rw [hnext]
    exact h.fresh (hht ▸ hp)
  · intro i p hp
    rw [hn]
    exact h.slots (htable ▸ hp)
  · rw [hnext]
    exact h.bound
  · intro p hp h0
    rw [hppid] at h0
    obtain ⟨q, hq, hpq, hlive⟩ := h.parent (hin.1 hp) h0
    refine ⟨q, hin.2 hq, by rw [hpid, hppid, hpq], fun ht => ?_⟩
    obtain he | ⟨-, hno⟩ := hends q hq ht
    · apply hlive
      unfold Kernel.Terminal at ht ⊢
      rwa [← he]
    · exact hno p (hin.1 hp) hpq.symm

/-- A step of the scheduler. -/
theorem quiet (h : TableInv k) (hf : SchedFrame k k')
    (hends : ∀ p, k'.Terminal p → k'.state p = k.state p) : TableInv k' :=
  h.frame hf.processTable hf.processTableHt hf.nextPid hf.nproc
    (fun p => congrArg Prod.fst (hf.ident p)) (fun p => congrArg (fun x => x.2.1) (hf.ident p))
    fun p _ ht => .inl (hends p ht)

/-- The events outside of the scheduler, a reap apart. -/
theorem outside {e : StateEvent} (h : TableInv k) (ho : e.Outside) (hsafe : CollectSafe k e)
    (hreap : ∀ p, e ≠ .reap p) : TableInv (stateStep k e) := by
  obtain ⟨haside, hstate, -, -, htable⟩ := effect_stateStep k ho
  obtain ⟨htab, hht⟩ := htable hreap
  refine h.frame htab hht haside.nextPid haside.nproc haside.pid haside.ppid fun p _ ht => ?_
  obtain hs | ⟨q, s, hst, hs⟩ := hstate
  · exact .inl (congrFun hs p)
  obtain rfl | hpq := eq_or_ne p q
  · right
    unfold Kernel.Terminal at ht
    rw [hs, update_self] at ht ⊢
    obtain hlive | hends := hst.ends hsafe hreap
    · rw [hlive] at ht
      cases ht
    · exact hends
  · exact .inl (by rw [hs, update_of_ne hpq])

/-- Reaping takes the process out of both tables. -/
theorem reap (h : TableInv k) (hp : k.InTable p) : TableInv (k.waitpidReap p) := by
  by_cases hz : k.state p = .zombie
  swap
  · rw [waitpidReap, if_neg hz]
    exact h
  obtain ⟨i, hi, hreap⟩ := h.waitpidReap_eq hp hz
  rw [hreap]
  have hframe : Leaves k (k.setState p .terminated) := .setState
  have hslot {j : Nat} {q : Ptr} (hj : update k.processTable i none j = some q) :
      k.processTable j = some q ∧ j ≠ i := by
    by_cases hji : j = i
    · rw [hji, update_self] at hj
      cases hj
    · rw [update_of_ne hji] at hj
      exact ⟨hj, hji⟩
  -- those left in the table were in it, and are not `p`
  have hin {q : Ptr} (hq : ∃ j, 1 ≤ j ∧ j < maxProcesses ∧
      update k.processTable i none j = some q) : k.InTable q ∧ q ≠ p := by
    obtain ⟨j, hj1, hj2, hj⟩ := hq
    obtain ⟨hj, hji⟩ := hslot hj
    refine ⟨⟨j, hj1, hj2, hj⟩, ?_⟩
    rintro rfl
    exact hji (h.slot hj hi)
  have hstate {q : Ptr} (hq : q ≠ p) : (k.setState p .terminated).state q = k.state q := by
    rw [state_setState, update_of_ne hq]
  refine ⟨?_, ?_, ?_, ?_, ?_, ?_, ?_, h.bound, ?_⟩
  · intro q hq
    obtain ⟨hq, hqp⟩ := hin hq
    have hht := h.hash hq
    show update k.processTableHt (k.proc p).pid none
      ((k.setState p .terminated).proc q).pid = some q
    rw [hframe.pid, update_of_ne, hht]
    intro he
    rw [he, h.hash hp] at hht
    exact hqp (some.inj hht).symm
  · intro j j' q hj hj'
    exact h.slot (hslot hj).1 (hslot hj').1
  · intro q hq
    exact h.alloc (hin hq).1
  · intro q hq hs
    obtain ⟨hq, hqp⟩ := hin hq
    exact h.state hq ((hstate hqp).symm.trans hs)
  · intro q hq
    rw [hframe.pid]
    exact h.pid (hin hq).1
  · intro pid q hq
    replace hq : update k.processTableHt (k.proc p).pid none pid = some q := hq
    by_cases hpid : pid = (k.proc p).pid
    · rw [hpid, update_self] at hq
      cases hq
    · rw [update_of_ne hpid] at hq
      exact h.fresh hq
  · intro j q hj
    exact h.slots (hslot hj).1
  · intro q hq h0
    obtain ⟨hq, -⟩ := hin hq
    replace h0 : ((k.setState p .terminated).proc q).ppid ≠ 0 := h0
    rw [hframe.ppid] at h0
    obtain ⟨r, hr, hpr, hlive⟩ := h.parent hq h0
    have hrp : r ≠ p := by
      rintro rfl
      unfold Kernel.Terminal at hlive
      rw [hz] at hlive
      exact hlive rfl
    obtain ⟨j, hj1, hj2, hj⟩ := hr
    refine ⟨r, ⟨j, hj1, hj2, ?_⟩, ?_, fun ht => hlive ?_⟩
    · show update k.processTable i none j = some r
      rw [update_of_ne, hj]
      rintro rfl
      exact hrp (some.inj (hj.symm.trans hi))
    · rw [hframe.pid, hframe.ppid, hpr]
    · replace ht : (k.setState p .terminated).Terminal r := ht
      unfold Kernel.Terminal at ht ⊢
      rwa [hstate hrp] at ht

theorem state_publishChild_self {x : Process} {slot : Nat} (hready : x.state = .ready) :
    (k.publishChild c x slot).state k.nproc = .ready := by
  dsimp only [publishChild, schedulerAddProcess]
  split
  · rw [state_htInsert]
    show (k.allocProc x).state k.nproc = .ready
    rw [state_allocProc, update_self, hready]
  split
  · rw [state_sendResched, state_addToQueue, state_assignTo, update_self]
  · rw [state_addToQueue, state_assignTo, update_self]

/-- A child goes into a free slot, under a pid that nobody has. -/
theorem publishChild {x : Process} {slot : Nat} (h : TableInv k) (hslot : k.freeSlot = some slot)
    (hx : x.pid.toNat + 1 = k.nextPid.toNat) (hpos : 0 < x.pid.toNat)
    (hready : x.state = .ready) (hpid : k.processTableHt x.pid = none)
    (hparent : x.ppid ≠ 0 → ∃ q, k.InTable q ∧ (k.proc q).pid = x.ppid ∧ ¬ k.Terminal q) :
    TableInv (k.publishChild c x slot) := by
  -- what the new state looks like
  let k1 := (((k.allocProc x).initChildrenWq k.nproc).setSlot slot (some k.nproc)).htInsert x.pid
    k.nproc
  have hk1 : k1 = { ((k.allocProc x).initChildrenWq k.nproc).setSlot slot (some k.nproc) with
      processTableHt := update k.processTableHt x.pid (some k.nproc) } := by
    show htInsert _ _ _ = _
    unfold htInsert
    have : (((k.allocProc x).initChildrenWq k.nproc).setSlot slot (some k.nproc)).processTableHt
      x.pid = none := hpid
    rw [this]
    rfl
  have hframe : SchedFrame k1 (k.publishChild c x slot) := .schedulerAddProcess
  have hnproc : (k.publishChild c x slot).nproc = k.nproc + 1 := nproc_publishChild
  have hready : (k.publishChild c x slot).state k.nproc = .ready := state_publishChild_self hready
  have hstate {p : Ptr} (hp : p < k.nproc) : (k.publishChild c x slot).state p = k.state p :=
    state_publishChild (Nat.ne_of_lt hp)
  generalize k.publishChild c x slot = k2 at hframe hnproc hready hstate ⊢
  have htable : k2.processTable = update k.processTable slot (some k.nproc) := by
    rw [hframe.processTable, hk1]
    rfl
  have hht : k2.processTableHt = update k.processTableHt x.pid (some k.nproc) := by
    rw [hframe.processTableHt, hk1]
  have hnew : (k2.proc k.nproc).ident = x.ident := by
    rw [hframe.ident, hk1]
    exact congrArg Process.ident (update_self ..)
  have hold {p : Ptr} (hp : p < k.nproc) : (k2.proc p).ident = (k.proc p).ident := by
    rw [hframe.ident, hk1]
    exact congrArg Process.ident (update_of_ne (Nat.ne_of_lt hp) _ _)
  have hnext : k2.nextPid = k.nextPid := by
    rw [hframe.nextPid, hk1]
    rfl
  have hfree : k.processTable slot = none := by
    have hs := find?_some hslot
    exact isNone_iff_eq_none.1 hs
  -- whoever is in the table was in it, or is the child
  have hentry {i : Nat} {p : Ptr} (hi : k2.processTable i = some p) :
      i = slot ∧ p = k.nproc ∨ k.processTable i = some p := by
    rw [htable] at hi
    by_cases his : i = slot
    · rw [his, update_self] at hi
      exact .inl ⟨his, (some.inj hi).symm⟩
    · rw [update_of_ne his] at hi
      exact .inr hi
  have hin {p : Ptr} (hp : k2.InTable p) : k.InTable p ∨ p = k.nproc := by
    obtain ⟨i, hi1, hi2, hi⟩ := hp
    exact (hentry hi).symm.imp (fun hi => ⟨i, hi1, hi2, hi⟩) And.right
  have hkeep {p : Ptr} (hp : k.InTable p) : k2.InTable p := by
    obtain ⟨i, hi1, hi2, hi⟩ := hp
    refine ⟨i, hi1, hi2, ?_⟩
    rw [htable, update_of_ne, hi]
    rintro rfl
    rw [hfree] at hi
    cases hi
  have hpidNew : (k2.proc k.nproc).pid = x.pid := congrArg Prod.fst hnew
  have hpidOld {p : Ptr} (hp : p < k.nproc) : (k2.proc p).pid = (k.proc p).pid :=
    congrArg Prod.fst (hold hp)
  constructor
  · intro p hp
    rw [hht]
    obtain hp | rfl := hin hp
    · rw [hpidOld (h.alloc hp), update_of_ne, h.hash hp]
      intro he
      have := h.hash hp
      rw [he, hpid] at this
      cases this
    · rw [hpidNew, update_self]
  · intro i j p hi hj
    obtain ⟨rfl, rfl⟩ | hi := hentry hi <;> obtain ⟨rfl, hp⟩ | hj := hentry hj
    · rfl
    · exact absurd rfl (Nat.ne_of_gt (h.slots hj))
    · exact absurd hp (Nat.ne_of_lt (h.slots hi))
    · exact h.slot hi hj
  · intro p hp
    rw [hnproc]
    obtain hp | rfl := hin hp
    · exact Nat.lt_succ_of_lt (h.alloc hp)
    · exact Nat.lt_succ_self _
  · intro p hp
    obtain hp | rfl := hin hp
    · rw [hstate (h.alloc hp)]
      exact h.state hp
    · rw [hready]
      decide
  · intro p hp
    obtain hp | rfl := hin hp
    · rw [hpidOld (h.alloc hp)]
      exact h.pid hp
    · rw [hpidNew]
      exact hpos
  · intro pid p hp
    rw [hnext]
    rw [hht] at hp
    by_cases he : pid = x.pid
    · rw [he]
      omega
    · rw [update_of_ne he] at hp
      exact h.fresh hp
  · intro i p hi
    rw [hnproc]
    obtain ⟨-, rfl⟩ | hi := hentry hi
    · exact Nat.lt_succ_self _
    · exact Nat.lt_succ_of_lt (h.slots hi)
  · rw [hnext]
    exact h.bound
  · intro p hp h0
    have hfound : ∃ q, k.InTable q ∧ (k.proc q).pid = (k2.proc p).ppid ∧
        ¬ k.Terminal q := by
      obtain hp | rfl := hin hp
      · have hppid : (k2.proc p).ppid = (k.proc p).ppid :=
          congrArg (fun y => y.2.1) (hold (h.alloc hp))
        rw [hppid] at h0 ⊢
        exact h.parent hp h0
      · have hppid : (k2.proc k.nproc).ppid = x.ppid :=
          congrArg (fun y => y.2.1) hnew
        rw [hppid] at h0 ⊢
        exact hparent h0
    obtain ⟨q, hq, hpq, hlive⟩ := hfound
    refine ⟨q, hkeep hq, (hpidOld (h.alloc hq)).trans hpq, fun ht => hlive ?_⟩
    unfold Kernel.Terminal at ht ⊢
    rwa [hstate (h.alloc hq)] at ht

/-- A fork puts the child into a free slot, under a pid that no one has. -/
theorem fork {env : ForkEnv} (h : TableInv k) (hpid : k.nextPid.toNat < 2 ^ 31)
    (hp : k.InTable p) (hlive : ¬ k.Terminal p) : TableInv (k.sysFork c p env).1 := by
  have hpos : 0 < k.nextPid.toNat := Nat.zero_lt_of_lt (h.fresh (h.hash hp))
  have hsucc : (k.nextPid + 1).toNat = k.nextPid.toNat + 1 := by
    rw [UInt32.toNat_add]
    exact Nat.mod_eq_of_lt (by simp only [UInt32.toNat_one]; omega)
  have hbump : TableInv k.bumpNextPid := by
    refine ⟨h.hash, h.slot, h.alloc, h.state, h.pid, fun hq => ?_, h.slots, ?_, h.parent⟩
    · show _ < (k.nextPid + 1).toNat
      rw [hsucc]
      exact Nat.lt_succ_of_lt (h.fresh hq)
    · show (k.nextPid + 1).toNat ≤ 2 ^ 31
      rw [hsucc]
      exact hpid
  obtain ⟨-, he | he⟩ | ⟨-, slot, hslot, he⟩ := k.sysFork_cases c p env
  · rw [he]
    exact h
  · rw [he]
    exact hbump
  rw [he]
  refine hbump.publishChild hslot ?_ hpos rfl ?_ fun _ => ⟨p, hp, rfl, hlive⟩
  · show k.nextPid.toNat + 1 = (k.nextPid + 1).toNat
    rw [hsucc]
  · show k.processTableHt k.nextPid = none
    cases hht : k.processTableHt k.nextPid with
    | none => rfl
    | some q => exact absurd (h.fresh hht) (lt_irrefl _)

end TableInv

theorem tableInv_stateStep {k : Kernel} {e : StateEvent} (h : TableInv k)
    (hok : CollectStepOk k e) : TableInv (stateStep k e) := by
  by_cases hreap : ∃ p, e = .reap p
  · obtain ⟨p, rfl⟩ := hreap
    exact h.reap hok.2
  by_cases ho : e.Outside
  · exact h.outside ho hok.2 fun p he => hreap ⟨p, he⟩
  cases e with
  | schedule c => exact h.quiet .schedule fun _ => state_schedule_of_terminal
  | fork c p env => exact h.fork hok.2.1 hok.2.2.1 hok.2.2.2
  | removeProcess p => exact h.quiet .removeFromQueue fun p _ => congrFun state_removeFromQueue p
  | _ => exact absurd trivial ho

/-- A process that has ended keeps its pids and its status. -/
theorem ident_stateStep {k : Kernel} {e : StateEvent} (hok : CollectStepOk k e) {p : Ptr}
    (hp : p < k.nproc) (ht : k.Terminal p) : ((stateStep k e).proc p).ident = (k.proc p).ident := by
  by_cases ho : e.Outside
  · obtain ⟨haside, -, -, hcode, -⟩ := effect_stateStep k ho
    have hsame : ((stateStep k e).proc p).exitCode = (k.proc p).exitCode := by
      obtain hs | ⟨c, v, rfl, hc⟩ | ⟨hst, hreap⟩ := hcode p
      · exact hs
      · exact absurd ht (hok.2 p hc)
      · obtain hs | ⟨hs, -⟩ := hst.ends hok.2 hreap <;> cases hs
    rw [Process.ident, haside.pid, haside.ppid, hsame]
    rfl
  cases e with
  | schedule c => exact SchedFrame.schedule.ident p
  | fork c q env =>
    show ((k.sysFork c q env).1.proc p).ident = _
    obtain ⟨-, he | he⟩ | ⟨-, slot, -, he⟩ := k.sysFork_cases c q env
    · rw [he]
    · rw [he]
      rfl
    · rw [he]
      refine (SchedFrame.schedulerAddProcess.ident p).trans ?_
      have hne : p ≠ k.bumpNextPid.nproc := Nat.ne_of_lt hp
      unfold htInsert
      split <;> exact congrArg Process.ident (update_of_ne hne _ _)
  | removeProcess q => exact SchedFrame.removeFromQueue.ident p
  | _ => exact absurd trivial ho

/-! ## Boot -/

/-- The pids `start_init_process` finds: see `bootKernel`. -/
def bootPid (n p : Nat) : Nat :=
  if p = n + 1 then 0 else if p = n then n + 1 else if p = 0 then n else p

theorem bootPid_inj {n p q : Nat} (h : bootPid n p = bootPid n q) : p = q := by
  unfold bootPid at h
  split_ifs at h <;> omega

/-- After boot the process `p` is in the slot of its pid. -/
theorem bootKernel_table {n i p : Nat} :
    (bootKernel n).processTable i = some p ↔ p < n + 2 ∧ bootPid n p = i := by
  have htable : (bootKernel n).processTable i
      = (range (n + 2)).find? fun p => bootPid n p == i := rfl
  rw [htable]
  constructor
  · intro h
    have hpid := find?_some h
    exact ⟨mem_range.1 (mem_of_find?_eq_some h), eq_of_beq hpid⟩
  · rintro ⟨hp, hpid⟩
    have hsome : ((range (n + 2)).find? fun p => bootPid n p == i).isSome = true := by
      rw [find?_isSome]
      exact ⟨p, mem_range.2 hp, by rw [hpid]; exact beq_self_eq_true i⟩
    obtain ⟨q, hq⟩ := isSome_iff_exists.1 hsome
    have hqpid := find?_some hq
    rw [hq, bootPid_inj ((eq_of_beq hqpid).trans hpid.symm)]

/-- The tables after boot. -/
theorem tableInv_bootKernel {n : Nat} (hn : n ≤ maxCpus) : TableInv (bootKernel n) := by
  have hn' : n ≤ 8 := hn
  have hle {p : Nat} (hp : p < n + 2) : bootPid n p < n + 2 := by
    unfold bootPid
    split_ifs <;> omega
  have hpid {p : Nat} (hp : p < n + 2) : ((bootKernel n).proc p).pid.toNat = bootPid n p := by
    have hlt := hle hp
    show (UInt32.ofNat (bootPid n p)).toNat = bootPid n p
    exact UInt32.toNat_ofNat_of_lt' (by simp only [UInt32.size]; omega)
  have hnext : (bootKernel n).nextPid.toNat = n + 2 :=
    UInt32.toNat_ofNat_of_lt' (by simp only [UInt32.size]; omega)
  have hht (pid : UInt32) :
      (bootKernel n).processTableHt pid = (bootKernel n).processTable pid.toNat := rfl
  constructor
  · rintro p ⟨i, -, -, hi⟩
    rw [bootKernel_table] at hi
    rw [hht, hpid hi.1]
    exact bootKernel_table.2 ⟨hi.1, rfl⟩
  · intro i j p hi hj
    rw [bootKernel_table] at hi hj
    exact hi.2.symm.trans hj.2
  · rintro p ⟨i, -, -, hi⟩
    exact (bootKernel_table.1 hi).1
  · rintro p - hs
    replace hs : (if p = 0 then ProcState.ready else .running) = .terminated := hs
    split at hs <;> cases hs
  · rintro p ⟨i, hi1, -, hi⟩
    rw [bootKernel_table] at hi
    rw [hpid hi.1, hi.2]
    exact hi1
  · intro pid p hp
    rw [hht, bootKernel_table] at hp
    rw [hnext, ← hp.2]
    exact hle hp.1
  · intro i p hi
    exact (bootKernel_table.1 hi).1
  · omega
  · rintro p - h0
    exact absurd rfl h0

/-- **Children can be collected**, from when they end until they are, along every
run from boot that keeps to `CollectStepOk`. -/
theorem collectable_of_stepOk {n : Nat} (hn : n ≤ maxCpus) {es : List StateEvent}
    (hrun : Along stateStep CollectStepOk (bootKernel n) es) :
    CollectedAlong (bootKernel n) es := by
  rintro es1 es2 ⟨rest, rfl⟩ p hp ht hin hppid
  obtain ⟨hrun1, hrun2⟩ := along_append.mp (along_append.mp hrun).1
  rw [run_append] at hin ⊢
  generalize hk : run stateStep (bootKernel n) es1 = k at hp ht hin hppid hrun2
  have hk1 : TableInv k := hk ▸ run_invariant (fun _ _ => tableInv_stateStep)
    (tableInv_bootKernel hn) hrun1
  have hstep : ∀ k' e, (TableInv k' ∧ p < k'.nproc ∧ k'.Terminal p ∧
      (k'.proc p).ident = (k.proc p).ident) → CollectStepOk k' e →
      TableInv (stateStep k' e) ∧ p < (stateStep k' e).nproc ∧ (stateStep k' e).Terminal p ∧
        ((stateStep k' e).proc p).ident = (k.proc p).ident := by
    rintro k' e ⟨h, hp, ht, hid⟩ hok
    obtain ⟨hn, hterm⟩ := terminal_stateStep hok.1
    exact ⟨tableInv_stateStep h hok, lt_of_lt_of_le hp hn, (hterm p hp).2 ht,
      (ident_stateStep hok hp ht).trans hid⟩
  obtain ⟨h, -, ht', hid⟩ := run_invariant hstep ⟨hk1, hp, ht, rfl⟩ hrun2
  have hstatus : ((run stateStep k es2).proc p).exitCode = (k.proc p).exitCode :=
    congrArg (fun x => x.2.2) hid
  have hppid' : ((run stateStep k es2).proc p).ppid ≠ 0 := by
    have : ((run stateStep k es2).proc p).ppid = (k.proc p).ppid :=
      congrArg (fun x => x.2.1) hid
    rwa [this]
  exact hstatus ▸ h.collected hin ht' hppid'

/-- Init forks process 3, whose turn comes and which exits with status 256. -/
def childExitRun : List StateEvent :=
  [.fork 0 1 {}, .schedule 0, .exitCode 0 256, .exitStore 0]

/-- The child is all that is queued. -/
theorem linked_forkRun {p : Ptr} (hp : (stateStep (bootKernel 1) (.fork 0 1 {})).Linked p) :
    p = 3 := by
  have hchild : Closed (stateStep (bootKernel 1) (.fork 0 1 {})) fun p => p = 3 := by
    constructor
    · intro c q p hh
      by_cases hcq : c = 0 ∧ q = 0
      · obtain ⟨rfl, rfl⟩ := hcq
        have hhead : (stateStep (bootKernel 1) (.fork 0 1 {})).rqHead 0 0 = some 3 := by decide
        exact Option.some.inj (hh.symm.trans hhead)
      · have hq : (stateStep (bootKernel 1) (.fork 0 1 {})).rqHead c q = none :=
          Kernel.rqHead_setHead_of_ne hcq
        rw [hq] at hh
        cases hh
    · rintro p p' rfl hn
      exact Option.some.inj (hn.symm.trans (by decide))
  exact hchild.linked hp

/-- In the end the child is a ZOMBIE that its parent can collect. -/
theorem collectable_childExitRun :
    CollectedAlong (bootKernel 1) childExitRun ∧
      (run stateStep (bootKernel 1) childExitRun).state 3 = .zombie := by
  refine ⟨collectable_of_stepOk (by decide) ⟨⟨trivial, ?_⟩, ⟨⟨?_, ?_⟩, trivial⟩, ⟨trivial, ?_⟩,
    ⟨trivial, ?_⟩, trivial⟩, by decide⟩
  · exact ⟨by decide, ⟨2, by decide, by decide, by decide⟩, by decide⟩
  · intro i hi
    obtain rfl : i = 0 := some.inj (hi.symm.trans (by decide))
    decide
  · intro p hp _
    obtain rfl := linked_forkRun hp
    decide
  · intro me hme
    obtain rfl : me = 3 := some.inj (hme.symm.trans (by decide))
    decide
  · intro me hme _
    obtain rfl : me = 3 := some.inj (hme.symm.trans (by decide))
    rintro p ⟨i, -, hi, hip⟩
    -- the child is the only process with a parent
    have hall : ∀ i < maxProcesses, ∀ p,
        (run stateStep (bootKernel 1) (childExitRun.take 3)).processTable i = some p →
        ((run stateStep (bootKernel 1) (childExitRun.take 3)).proc p).ppid ≠ 3 := by
      generalize hk : run stateStep (bootKernel 1) (childExitRun.take 3) = k
      intro i hi p hip
      have hdec : ∀ i < maxProcesses,
          (k.processTable i).all (fun p => (k.proc p).ppid != 3) = true := by
        rw [← hk]
        decide +kernel
      have := hdec i hi
      rw [hip] at this
      simpa using this
    exact hall i hi p hip

/-- Init forks process 3 and kills it. -/
def childKillRun : List StateEvent := [.fork 0 1 {}, .sendSignal 0 3 sigKill]

theorem childKillRun_not_collected : ¬ CollectedAlong (bootKernel 1) childKillRun := by
  intro h
  have hc := h childKillRun [] (by rw [append_nil]) 3 (by decide) (by decide)
    ⟨3, by decide, by decide, by decide⟩ (by decide)
  have hwait := hc.byPid 1 true (by decide)
  have hret : ((run stateStep (bootKernel 1) (childKillRun ++ [])).sysWaitpid 1
      ((run stateStep (bootKernel 1) (childKillRun ++ [])).proc 3).pid true true).map
        WaitResult.ret = some (-ECHILD) := by decide
  rw [hwait] at hret
  exact absurd hret (by decide)

end UnixOs
