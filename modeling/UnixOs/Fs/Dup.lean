import UnixOs.Fs.DescriptorCounts

/-!
# Duplicating a descriptor

What `sys_dup` and `sys_dup2` owe their caller (`DupContract`), in every state that
a run can reach, and for which descriptors they keep it. The kinds of the two
descriptors decide: an end of a pipe is encoded above the entries of `open_files`,
which `vfs_dup` and `vfs_dup2` count and close all the same.
-/

namespace UnixOs.Files

open Function Machine Option ProcFd Errno

variable {S S' : Files} {p : Fin maxProcesses} {q : FdProc} {fd : Fin maxOpenFiles}
  {s : ProcFd} {a : FdObject}

/-! ## Reachable states -/

theorem bounded_boot : Bounded boot := by
  intro a
  cases a with
  | file | pipeEnd => exact (by decide : 0 < 2 ^ 32)

/-- Every state of every run is well encoded, and its counters are words. -/
theorem reachable (es : List FdEvent) :
    Sane (run fdStep boot es) ∧ Bounded (run fdStep boot es) := by
  have hstep : ∀ (S : Files) ev, Sane S ∧ Bounded S → Sane (S.fdStep ev) ∧ Bounded (S.fdStep ev) :=
    fun _ ev h => ⟨h.1.step ev, h.2.step ev⟩
  exact run_always hstep ⟨sane_boot, bounded_boot⟩ es

/-! ## The contract -/

/-- The two calls that duplicate a descriptor. -/
inductive DupCall where
  | dup (old : Fin maxOpenFiles)
  | dup2 (old new : Fin maxOpenFiles)

def DupCall.old : DupCall → Fin maxOpenFiles
  | .dup old => old
  | .dup2 old _ => old

def DupCall.exec (c : DupCall) (S : Files) (p : Fin maxProcesses) (q : FdProc) : Files × Int :=
  match c with
  | .dup old => S.sysDup p q old
  | .dup2 old new => S.sysDup2 p q old new

/-- What a call that returns `new` has done: `new` is a copy of `old` and no other
slot changed, the object of `new` has lost one reference (and got one back if it is
also the object of `old`), nothing changed if they are the same, and `open_files`
was not left. -/
structure DupContract (S S' : Files) (p : Fin maxProcesses) (q : FdProc)
    (old new : Fin maxOpenFiles) : Prop where
  table : S'.live p = some { q with fds := update q.fds new (q.fds old) }
  dropped : old ≠ new → ∀ a, (q.fds new).object = some a →
    0 < S.count a ∧ S'.count a = S.count a - 1 + if (q.fds old).object = some a then 1 else 0
  same : old = new → S' = S
  inBounds : S'.stray = S.stray

/-- The descriptors for which the calls keep the contract. -/
def DupCall.Ok (S : Files) (q : FdProc) : DupCall → Prop
  | .dup old => ∀ id, (q.fds old).kind ≠ .pipe id
  | .dup2 old new =>
    if old = new then (q.fds old).kind ≠ .console
    else (∀ id, (q.fds old).kind ≠ .pipe id) ∧
      ((q.fds old).kind = .vfs → ∀ id, (q.fds new).kind ≠ .pipe id) ∧
      ∀ a, (q.fds new).object = some a → 0 < S.count a

/-! ## Counting outside of `open_files` -/

theorem stray_bumpRaw (h : s.ofIdx ≤ 64) : (S.bumpRaw (s.ofIdx - 1)).stray = S.stray := by
  have hraw : s.ofIdx - 1 < vfsMaxOpenFiles := by
    simp only [vfsMaxOpenFiles]
    omega
  rw [bumpRaw, dif_pos hraw]
  rfl

theorem stray_bumpRaw_pipe {id : Nat} (h : s.kind = .pipe id) :
    (S.bumpRaw (s.ofIdx - 1)).stray ≠ S.stray := by
  have hraw : ¬ s.ofIdx - 1 < vfsMaxOpenFiles := by
    have := (kind_eq_pipe h).1
    simp only [vfsMaxOpenFiles, pipeFdBase] at *
    omega
  rw [bumpRaw, dif_neg hraw]
  exact List.cons_ne_self _ _

theorem stray_vfsClose : (S.vfsClose p q fd).stray = S.stray := by
  by_cases h0 : (q.fds fd).ofIdx = 0
  · rw [vfsClose_of_zero h0]
  · obtain ⟨S1, hr, heq, -⟩ := vfsClose_eq h0
    rw [heq]
    exact hr.stray

theorem stray_sysClose : (S.sysClose p q fd).1.stray = S.stray := by
  rw [sysClose]
  cases (q.fds fd).kind with
  | console | pipe => rfl
  | vfs => exact stray_vfsClose
  | invalid => rfl

/-- The slot of a file is in range. -/
theorem Sane.ofIdx_le_of_vfs (h : Sane S) (hq : S.live p = some q)
    (hk : (q.fds fd).kind = .vfs) : (q.fds fd).ofIdx ≤ 64 := by
  obtain hle | ⟨hpipe, -⟩ := h hq fd
  · exact hle
  · exact absurd (kind_eq_vfs hk).2 (not_lt.2 hpipe)

theorem ofIdx_ne_zero_of_kind (hk : s.kind ≠ .invalid) : s.ofIdx ≠ 0 := by
  intro h0
  apply hk
  rw [kind, h0]
  rfl

/-! ## `sys_dup` -/

/-- `sys_dup` of a file or the console keeps the contract, and of a pipe does not. -/
theorem dup_contract_iff (hs : Sane S) (hq : S.live p = some q) {old : Fin maxOpenFiles}
    (hsucc : 0 ≤ (S.sysDup p q old).2) :
    (∃ new : Fin maxOpenFiles, (S.sysDup p q old).2 = new.val ∧
      DupContract S (S.sysDup p q old).1 p q old new) ↔ ∀ id, (q.fds old).kind ≠ .pipe id := by
  -- A slot without a number is another one and has no object.
  have hfree : ∀ {new : Fin maxOpenFiles}, (q.fds old).ofIdx ≠ 0 → (q.fds new).ofIdx = 0 →
      old ≠ new ∧ (q.fds new).object = none := by
    intro new hold hnew
    refine ⟨?_, object_of_zero hnew⟩
    rintro rfl
    exact hold hnew
  by_cases hc : (q.fds old).kind = .console
  · have hold : (q.fds old).ofIdx ≠ 0 := ofIdx_ne_zero_of_kind (by rw [hc]; decide)
    simp only [sysDup, if_pos hc] at hsucc ⊢
    split at hsucc
    · next new hnew =>
      obtain ⟨hne, hobj⟩ := hfree hold (of_decide_eq_true (firstFd_spec hnew)).1
      constructor
      · intro _ id hk
        rw [hc] at hk
        cases hk
      · intro _
        refine ⟨new, rfl, live_setFd hq new _, ?_, fun he => absurd he hne, rfl⟩
        intro _ a ha
        rw [hobj] at ha
        cases ha
    · exact absurd (show 0 ≤ -EMFILE from hsucc) (by decide)
  simp only [sysDup, if_neg hc, vfsDup] at hsucc ⊢
  split at hsucc
  · exact absurd (show 0 ≤ -EBADF from hsucc) (by decide)
  next h0 =>
  rw [if_neg h0]
  split at hsucc
  · exact absurd (show 0 ≤ -EMFILE from hsucc) (by decide)
  next new hnew =>
  obtain ⟨hne, hobj⟩ := hfree h0 (of_decide_eq_true (firstFd_spec hnew))
  constructor
  · rintro ⟨_, -, hcon⟩ id hk
    exact stray_bumpRaw_pipe hk hcon.inBounds
  · intro hpipe
    have hvfs : (q.fds old).kind = .vfs := kind_vfs_of_ne h0 hc hpipe
    refine ⟨new, rfl, ?_, ?_, fun he => absurd he hne, stray_bumpRaw (hs.ofIdx_le_of_vfs hq hvfs)⟩
    · rw [live_bumpRaw]
      exact live_setFd hq new _
    · intro _ a ha
      rw [hobj] at ha
      cases ha

/-! ## `sys_dup2` -/

/-- What closing `new` leaves when it is about to be overwritten. -/
structure Closed (S S1 : Files) (p : Fin maxProcesses) (q : FdProc)
    (new : Fin maxOpenFiles) : Prop where
  table : ∀ s, (S1.setFd p new s).live p = some { q with fds := update q.fds new s }
  stray : S1.stray = S.stray

theorem Closed.refl (hq : S.live p = some q) (new : Fin maxOpenFiles) : Closed S S p q new :=
  ⟨fun s => live_setFd hq new s, rfl⟩

theorem Closed.of_live {S1 : Files} {new : Fin maxOpenFiles}
    (hlive : S1.live p = some { q with fds := update q.fds new .empty })
    (hstray : S1.stray = S.stray) : Closed S S1 p q new := by
  refine ⟨fun s => ?_, hstray⟩
  rw [live_setFd hlive]
  simp only [update_idem]

theorem closed_vfsClose (hq : S.live p = some q) (new : Fin maxOpenFiles) :
    Closed S (if (q.fds new).ofIdx ≠ 0 then S.vfsClose p q new else S) p q new := by
  split
  · next h0 => exact .of_live (live_vfsClose hq h0) stray_vfsClose
  · exact .refl hq new

theorem closed_sysClose (hq : S.live p = some q) (new : Fin maxOpenFiles) :
    Closed S (if (q.fds new).ofIdx ≠ 0 then (S.sysClose p q new).1 else S) p q new := by
  split
  · next h0 => exact .of_live (live_sysClose hq h0) stray_sysClose
  · exact .refl hq new

/-- `sys_close` drops one reference of an object that is counted. -/
theorem count_sysClose (hb : Bounded S) (ha : (q.fds fd).object = some a) (hpos : 0 < S.count a) :
    (S.sysClose p q fd).1.count a = S.count a - 1 := by
  rw [sysClose]
  cases hk : (q.fds fd).kind with
  | console =>
    rw [object_of_console hk] at ha
    cases ha
  | pipe id =>
    rw [object_of_pipe hk] at ha
    cases ha
    exact PipeRegistry.endCount_closeById hpos (hb (.pipeEnd id _))
  | vfs => rw [count_vfsClose, if_pos ⟨ha, object_isFile_of_vfs hk ha⟩]
  | invalid =>
    rw [object_of_zero (kind_eq_invalid hk)] at ha
    cases ha

variable {old new : Fin maxOpenFiles}

/-- `old` is the console, and `new` another descriptor. -/
theorem dup2_console_iff (hb : Bounded S) (hq : S.live p = some q)
    (hk : (q.fds old).kind = .console) (hne : old ≠ new) :
    DupContract S (S.sysDup2 p q old new).1 p q old new ↔
      ∀ a, (q.fds new).object = some a → 0 < S.count a := by
  have hclosed := closed_sysClose hq new
  simp only [sysDup2, if_pos hk, if_neg hne]
  constructor
  · exact fun hcon a ha => (hcon.dropped hne a ha).1
  · intro hpos
    refine ⟨hclosed.table _, fun _ a ha => ⟨hpos a ha, ?_⟩, fun he => absurd he hne, hclosed.stray⟩
    have h0 : (q.fds new).ofIdx ≠ 0 := by
      intro h0
      rw [object_of_zero h0] at ha
      cases ha
    rw [object_of_console hk, if_pos h0, count_setFd, count_sysClose hb ha (hpos a ha)]
    rfl

/-- `old` is a file, and `new` another descriptor. -/
theorem dup2_vfs_iff (hs : Sane S) (hb : Bounded S) (hq : S.live p = some q)
    (hk : (q.fds old).kind = .vfs) (hne : old ≠ new) :
    DupContract S (S.sysDup2 p q old new).1 p q old new ↔
      (∀ id, (q.fds new).kind ≠ .pipe id) ∧ ∀ a, (q.fds new).object = some a → 0 < S.count a := by
  have hclosed := closed_vfsClose hq new
  have h0 : (q.fds old).ofIdx ≠ 0 := (kind_eq_vfs hk).1
  have hc : (q.fds old).kind ≠ .console := by
    rw [hk]
    decide
  simp only [sysDup2, if_neg hc, vfsDup2, if_neg hne, if_neg h0]
  -- The counters after the close of `new` and the copy.
  have hcount : ∀ a, (q.fds new).object = some a →
      (((if (q.fds new).ofIdx ≠ 0 then S.vfsClose p q new else S).setFd p new
        (q.fds old)).bumpRaw ((q.fds old).ofIdx - 1)).count a
      = if (q.fds old).object = some a ∧ a.isFile = true then
          ((if a.isFile = true then S.count a - 1 else S.count a) + 1) % 2 ^ 32
        else if a.isFile = true then S.count a - 1 else S.count a := by
    intro a ha
    have hn0 : (q.fds new).ofIdx ≠ 0 := by
      intro hn0
      rw [object_of_zero hn0] at ha
      cases ha
    rw [count_bumpRaw h0, count_setFd, if_pos hn0, count_vfsClose, ha]
    simp only [true_and]
  constructor
  · intro hcon
    refine ⟨fun id hpipe => ?_, fun a ha => (hcon.dropped hne a ha).1⟩
    -- The end of a pipe is overwritten and keeps its count.
    have ha := object_of_pipe hpipe
    have hdrop := hcon.dropped hne _ ha
    have hold : (q.fds old).object ≠ some (.pipeEnd id (q.fds new).isWriteEnd) := by
      intro hobj
      cases object_isFile_of_vfs hk hobj
    rw [hcount _ ha, if_neg fun h => hold h.1, if_neg hold] at hdrop
    simp only [FdObject.isFile, Bool.false_eq_true, if_false] at hdrop
    omega
  · rintro ⟨hpipe, hpos⟩
    refine ⟨?_, fun _ a ha => ⟨hpos a ha, ?_⟩, fun he => absurd he hne, ?_⟩
    · rw [live_bumpRaw]
      exact hclosed.table _
    · have hfile : a.isFile = true := by
        cases a with
        | file i => rfl
        | pipeEnd id w => exact absurd (object_eq_pipeEnd ha).1 (hpipe id)
      have hlt := hb a
      have hpos := hpos a ha
      rw [hcount a ha]
      simp only [hfile, and_true, if_true]
      split
      · rw [Nat.sub_add_cancel hpos, Nat.mod_eq_of_lt hlt]
      · rfl
    · rw [stray_bumpRaw (hs.ofIdx_le_of_vfs hq hk)]
      exact hclosed.stray

/-- `old` is an end of a pipe: the count goes up outside of `open_files`. -/
theorem dup2_pipe (hq : S.live p = some q) {id : Nat}
    (hk : (q.fds old).kind = .pipe id) (hne : old ≠ new) :
    (S.sysDup2 p q old new).2 = new.val ∧ (S.sysDup2 p q old new).1.stray ≠ S.stray := by
  have h0 : (q.fds old).ofIdx ≠ 0 := ofIdx_ne_zero_of_kind (by simp [hk])
  have hc : (q.fds old).kind ≠ .console := by simp [hk]
  rw [sysDup2, if_neg hc, vfsDup2, if_neg hne, if_neg h0]
  refine ⟨rfl, fun hstray => ?_⟩
  exact stray_bumpRaw_pipe hk (hstray.trans (closed_vfsClose hq new).stray.symm)

/-- `dup2(fd, fd)` does nothing, except that it closes a console. -/
theorem dup2_same_iff (hq : S.live p = some q) {old : Fin maxOpenFiles} :
    DupContract S (S.sysDup2 p q old old).1 p q old old ↔ (q.fds old).kind ≠ .console := by
  constructor
  · intro hcon hk
    -- The console is closed, and then copied from its own empty slot.
    have hlive := hcon.table
    simp only [sysDup2, if_pos hk, if_true] at hlive
    rw [(closed_sysClose hq old).table, update_eq_self] at hlive
    have hslot := congrArg (fun q : FdProc => (q.fds old).ofIdx) (Option.some.inj hlive)
    simp only [update_self] at hslot
    refine ofIdx_ne_zero_of_kind ?_ hslot.symm
    rw [hk]
    decide
  · intro hc
    have heq : (S.sysDup2 p q old old).1 = S := by simp only [sysDup2, if_neg hc, vfsDup2, if_true]
    rw [heq]
    refine ⟨?_, (absurd rfl), fun _ => rfl, rfl⟩
    rw [update_eq_self]
    exact hq

/-! ## Every reachable state -/

/-- The descriptor a call is to fill, if it says so. -/
def DupCall.Fills (new : Fin maxOpenFiles) : DupCall → Prop
  | .dup _ => True
  | .dup2 _ n => new = n

/-- In every reachable state, a call that succeeds keeps the contract exactly for
the descriptors of `DupCall.Ok`. -/
theorem dupContract_iff_ok (es : List FdEvent) (c : DupCall) (p : Fin maxProcesses) (q : FdProc)
    (hq : (run fdStep boot es).live p = some q) (hsucc : 0 ≤ (c.exec (run fdStep boot es) p q).2) :
    (∃ new : Fin maxOpenFiles, (c.exec (run fdStep boot es) p q).2 = new.val ∧
      c.Fills new ∧ DupContract (run fdStep boot es)
        (c.exec (run fdStep boot es) p q).1 p q c.old new) ↔ c.Ok (run fdStep boot es) q := by
  obtain ⟨hs, hb⟩ := reachable es
  generalize run fdStep boot es = S at *
  cases c with
  | dup old =>
    refine Iff.trans ?_ (dup_contract_iff hs hq hsucc)
    exact exists_congr fun new => and_congr_right fun _ => and_iff_right trivial
  | dup2 old new =>
    -- The value that is returned is `new`, unless `old` is not a descriptor.
    have hret : ∀ {P : Fin maxOpenFiles → Prop}, (S.sysDup2 p q old new).2 = new.val →
        ((∃ n : Fin maxOpenFiles, (S.sysDup2 p q old new).2 = n.val ∧ n = new ∧ P n) ↔ P new) := by
      intro P hv
      constructor
      · rintro ⟨n, -, rfl, hP⟩
        exact hP
      · exact fun hP => ⟨new, hv, rfl, hP⟩
    show (∃ n : Fin maxOpenFiles, (S.sysDup2 p q old new).2 = n.val ∧ n = new ∧
      DupContract S (S.sysDup2 p q old new).1 p q old n) ↔ _
    obtain rfl | hne := eq_or_ne old new
    · have hv : (S.sysDup2 p q old old).2 = old.val := by
        rw [sysDup2]
        split
        · rfl
        · rw [vfsDup2, if_pos rfl]
      rw [hret hv, dup2_same_iff hq, DupCall.Ok, if_pos rfl]
    rw [DupCall.Ok, if_neg hne]
    cases hk : (q.fds old).kind with
    | console =>
      have hv : (S.sysDup2 p q old new).2 = new.val := by rw [sysDup2, if_pos hk]
      rw [hret hv, dup2_console_iff hb hq hk hne]
      simp
    | vfs =>
      have hv : (S.sysDup2 p q old new).2 = new.val := by
        rw [sysDup2, if_neg (by rw [hk]; decide), vfsDup2, if_neg hne, if_neg (kind_eq_vfs hk).1]
      rw [hret hv, dup2_vfs_iff hs hb hq hk hne]
      simp
    | pipe id =>
      obtain ⟨hv, hstray⟩ := dup2_pipe hq hk hne
      rw [hret hv]
      exact ⟨fun hcon => absurd hcon.inBounds hstray, fun hok => absurd rfl (hok.1 id)⟩
    | invalid =>
      have h0 := kind_eq_invalid hk
      have hc : (q.fds old).kind ≠ .console := by
        rw [hk]
        decide
      replace hsucc : 0 ≤ (S.sysDup2 p q old new).2 := hsucc
      rw [sysDup2, if_neg hc, vfsDup2, if_neg hne, if_pos h0] at hsucc
      exact absurd (show 0 ≤ -EBADF from hsucc) (by decide)

/-- A process has opened two files. -/
def openRun : List FdEvent :=
  [.create true, .openFile firstSlot oRdonly (.ok (5, 0)),
    .openFile firstSlot oRdonly (.ok (6, 0))]

/-- `dup2(3, 4)` closes the second file and puts the first in its place. -/
theorem dupContract_openRun :
    ∃ q, (run fdStep boot openRun).live firstSlot = some q ∧ (q.fds fd4).kind = .vfs ∧
      0 ≤ ((DupCall.dup2 fd3 fd4).exec (run fdStep boot openRun) firstSlot q).2 ∧
      ∃ new : Fin maxOpenFiles,
        ((DupCall.dup2 fd3 fd4).exec (run fdStep boot openRun) firstSlot q).2 = new.val ∧
        (DupCall.dup2 fd3 fd4).Fills new ∧ DupContract (run fdStep boot openRun)
          ((DupCall.dup2 fd3 fd4).exec (run fdStep boot openRun) firstSlot q).1
            firstSlot q fd3 new := by
  obtain ⟨q, hq⟩ : ∃ q, (run fdStep boot openRun).live firstSlot = some q :=
    isSome_iff_exists.1 (by decide +kernel)
  have hsucc : 0 ≤ ((DupCall.dup2 fd3 fd4).exec (run fdStep boot openRun) firstSlot q).2 := by
    exact of_decide_eq_true (test_of_live
      (f := fun q => 0 ≤ ((run fdStep boot openRun).sysDup2 firstSlot q fd3 fd4).2)
      (by decide +kernel) hq)
  have hold : (q.fds fd3).kind = .vfs :=
    of_decide_eq_true (test_of_live (f := fun q => (q.fds fd3).kind = .vfs) (by decide +kernel) hq)
  have hnew : (q.fds fd4).kind = .vfs :=
    of_decide_eq_true (test_of_live (f := fun q => (q.fds fd4).kind = .vfs) (by decide +kernel) hq)
  have hcount : ∀ a, (q.fds fd4).object = some a → 0 < (run fdStep boot openRun).count a := by
    have hall := test_of_live (f := fun q =>
      (q.fds fd4).object.all fun a => 0 < (run fdStep boot openRun).count a) (by decide +kernel) hq
    intro a ha
    simpa [ha] using hall
  have hok : (DupCall.dup2 fd3 fd4).Ok (run fdStep boot openRun) q := by
    rw [DupCall.Ok, if_neg (by decide)]
    refine ⟨fun id => ?_, fun _ id => ?_, hcount⟩
    · rw [hold]
      simp
    · rw [hnew]
      simp
  exact ⟨q, hq, hnew, hsucc,
    (dupContract_iff_ok openRun (.dup2 fd3 fd4) firstSlot q hq hsucc).2 hok⟩

/-- The shell of a pipeline: a process makes a pipe and puts its read end in the
place of the standard input. -/
theorem dup2_pipe_out_of_bounds :
    ∃ q, (run fdStep boot [.create true, .pipe firstSlot true 0]).live firstSlot
        = some q ∧
      0 ≤ ((run fdStep boot [.create true, .pipe firstSlot true 0]).sysDup2 firstSlot q
        fd3 ⟨0, by decide⟩).2 ∧
      ¬ DupContract (run fdStep boot [.create true, .pipe firstSlot true 0])
        ((run fdStep boot [.create true, .pipe firstSlot true 0]).sysDup2 firstSlot q
          fd3 ⟨0, by decide⟩).1 firstSlot q fd3 ⟨0, by decide⟩ := by
  obtain ⟨q, hq⟩ : ∃ q, (run fdStep boot [.create true, .pipe firstSlot true 0]).live
      firstSlot = some q := isSome_iff_exists.1 (by decide +kernel)
  have hk : (q.fds fd3).kind = .pipe 1 :=
    of_decide_eq_true (test_of_live (f := fun q => (q.fds fd3).kind = .pipe 1)
      (by decide +kernel) hq)
  obtain ⟨hv, hstray⟩ := dup2_pipe hq hk (show fd3 ≠ ⟨0, by decide⟩ by decide)
  refine ⟨q, hq, ?_, fun hcon => hstray hcon.inBounds⟩
  rw [hv]
  exact Int.natCast_nonneg _

end UnixOs.Files
