import UnixOs.Fs.DescriptorRefs

/-!
# The counters of descriptors along a run

`StepOk` is what a step must not do: copy a descriptor without counting it, drop
one without counting it down, or take one with it when a process exits. As long
as no step does so the counters of a class `K` of objects are exact (`FdInv`).
-/

namespace UnixOs.Files

open Function List Machine Option ProcFd PipeRegistry

variable {S S' : Files} {K : FdObject → Prop} {p : Fin maxProcesses} {q : FdProc}
  {fd : Fin maxOpenFiles} {s : ProcFd} {a : FdObject}

/-! ## One slot at a time -/

section

variable (h : Balanced K S) (hq : S.live p = some q)
include h hq

/-- A slot without an object is stored over one without an object. -/
theorem Balanced.setFd (hold : (q.fds fd).object = none) (hs : ∀ a, s.object = some a → ¬ K a) :
    Balanced K (S.setFd p fd s) := by
  refine h.move hq fd s (ref_setFd hq fd s) fun a ha => ?_
  rw [hold, count_setFd, if_neg (by simp), if_neg fun hobj => hs a hobj ha]

theorem Balanced.vfsClose (hfile : ∀ a, (q.fds fd).object = some a → K a → a.isFile = true) :
    Balanced K (S.vfsClose p q fd) := by
  refine h.move hq fd .empty ?_ fun a ha => ?_
  · rw [ref_vfsClose hq, object_empty]
  · rw [count_vfsClose, object_empty, if_neg (show ¬ none = some a by simp)]
    by_cases hobj : (q.fds fd).object = some a
    · have := h.pos hq hobj ha
      rw [if_pos ⟨hobj, hfile a hobj ha⟩, if_pos hobj]
      omega
    · rw [if_neg fun hc => hobj hc.1, if_neg hobj]

/-- A free slot gets a copy of another one, with `open_files` counted up. -/
theorem Balanced.copy (hold : (q.fds fd).object = none) (h0 : s.ofIdx ≠ 0)
    (hfile : ∀ a, s.object = some a → K a → a.isFile = true) :
    Balanced K ((S.setFd p fd s).bumpRaw (s.ofIdx - 1)) := by
  refine h.move hq fd s ?_ fun a ha => ?_
  · rw [ref_bumpRaw, ref_setFd hq]
  · rw [count_bumpRaw h0, count_setFd, hold, if_neg (show ¬ none = some a by simp)]
    by_cases hobj : s.object = some a
    · have := h.le ha
      rw [if_pos ⟨hobj, hfile a hobj ha⟩, if_pos hobj]
      omega
    · rw [if_neg fun hc => hobj hc.1, if_neg hobj]

end

theorem firstFd_spec {t : FdTable} {start : Nat} {test : ProcFd → Bool}
    (h : firstFd t start test = some fd) : test (t fd) = true := by
  have := find?_some h
  simp only [Bool.and_eq_true] at this
  exact this.2

theorem object_of_findFreeFd {t : FdTable} (h : findFreeFd t = some fd) : (t fd).object = none :=
  object_of_zero (of_decide_eq_true (firstFd_spec h))

/-! ## Opening and closing -/

theorem freeOpenFile_spec {i : Fin vfsMaxOpenFiles} (h : S.freeOpenFile = some i) :
    (S.openFiles i).refcount = 0 := by
  have := find?_some h
  exact of_decide_eq_true this

variable (h : Balanced K S) (hq : S.live p = some q)

include h hq in
/-- A free entry of `open_files` gets its first reference, or gives it back if no descriptor is
free. -/
theorem Balanced.vfsOpen {flags : Word}
    {resolved : Except Int (Nat × Nat)} : Balanced K (S.vfsOpen p q flags resolved).1 := by
  simp only [Files.vfsOpen]
  split
  · exact h
  split
  · exact h
  cases resolved with
  | error e => exact h
  | ok r =>
    cases hfree : S.freeOpenFile with
    | none => exact h
    | some i =>
      have hzero := freeOpenFile_spec hfree
      cases hfd : findFreeFd q.fds with
      | none =>
        -- The entry is given back: every count is what it was.
        intro a ha
        rw [count_setCount, count_setFile, update_idem]
        obtain rfl | hai := eq_or_ne a (.file i)
        · rw [update_self, ref_setCount, ref_setFile, ← h _ ha]
          exact hzero.symm
        · rw [update_of_ne hai]
          exact h a ha
      | some fd =>
        refine h.move hq fd _ (ref_setFd hq fd _) fun a ha => ?_
        have hobj : (⟨i.val + 1, flags⟩ : ProcFd).object = some (.file i) := object_eq_file.2 rfl
        rw [count_setFd, count_setFile, object_of_findFreeFd hfd, hobj,
          if_neg (show ¬ none = some a by simp)]
        obtain rfl | hai := eq_or_ne a (.file i)
        · have : S.count (.file i) = 0 := hzero
          rw [update_self, if_pos rfl, this]
        · rw [update_of_ne hai, if_neg fun hc => hai (some.inj hc).symm]

include h hq in
/-- The close of a pipe end counts it down. -/
theorem Balanced.closePipe {id : Nat} (hk : (q.fds fd).kind = .pipe id) {pipes : PipeRegistry}
    (hpipes : pipes = (S.pipes.closeById id (q.fds fd).isWriteEnd).1) :
    Balanced K { S.setFd p fd .empty with pipes } := by
  have hobj := object_of_pipe hk
  refine h.move hq fd .empty (ref_setFd hq fd .empty) fun a ha => ?_
  rw [object_empty, hobj]
  by_cases hae : a = .pipeEnd id (q.fds fd).isWriteEnd
  · subst hae
    have hpos := h.pos hq hobj ha
    have hle := h.le ha
    show pipes.endCount id _ + _ = _
    rw [hpipes, endCount_closeById hpos (lt_of_le_of_lt hle (by decide)), if_pos rfl]
    exact Nat.sub_add_cancel hpos
  · rw [if_neg fun hc => hae (some.inj hc).symm]
    cases a with
    | file i => rfl
    | pipeEnd id' w =>
      rw [hpipes]
      refine endCount_closeById_of_ne ?_
      rintro ⟨rfl, rfl⟩
      exact hae rfl

theorem object_isFile_of_vfs (hk : s.kind = .vfs) (h : s.object = some a) : a.isFile = true := by
  cases a with
  | file i => rfl
  | pipeEnd id w =>
    rw [(object_eq_pipeEnd h).1] at hk
    cases hk

theorem object_of_console (hk : s.kind = .console) : s.object = none := by rw [object, hk]

include h hq in
theorem Balanced.sysClose : Balanced K (S.sysClose p q fd).1 := by
  rw [Files.sysClose]
  cases hk : (q.fds fd).kind with
  | console => exact h.setFd hq (object_of_console hk) (by simp)
  | pipe id => exact h.closePipe hq hk rfl
  | vfs => exact h.vfsClose hq fun a ha _ => object_isFile_of_vfs hk ha
  | invalid => exact h

/-- After a close that found a descriptor its slot is empty. -/
theorem live_sysClose (hq : S.live p = some q) (h0 : (q.fds fd).ofIdx ≠ 0) :
    (S.sysClose p q fd).1.live p = some { q with fds := update q.fds fd .empty } := by
  rw [sysClose]
  cases hk : (q.fds fd).kind with
  | console | pipe => exact live_setFd hq fd .empty
  | vfs => exact live_vfsClose hq h0
  | invalid => exact absurd (kind_eq_invalid hk) h0

/-! ## Duplicating -/

include h hq in
/-- The copy counts one reference, if it is one of a file. -/
theorem Balanced.sysDup (hok : ∀ id, (q.fds fd).kind = .pipe id → findFreeFd q.fds = none) :
    Balanced K (S.sysDup p q fd).1 := by
  rw [Files.sysDup]
  split
  · next hk =>
    split
    · next new hnew =>
      have hz : (q.fds new).ofIdx = 0 := (of_decide_eq_true (firstFd_spec hnew)).1
      refine h.setFd hq (object_of_zero hz) fun a ha => ?_
      rw [object_of_console hk] at ha
      cases ha
    · exact h
  rw [Files.vfsDup]
  split
  · exact h
  next h0 =>
  split
  · exact h
  · next new hnew =>
    refine h.copy hq (object_of_findFreeFd hnew) h0 fun a ha _ => ?_
    cases a with
    | file i => rfl
    | pipeEnd id w =>
      rw [hok id (object_eq_pipeEnd ha).1] at hnew
      cases hnew

include h hq in
/-- The descriptor that is closed loses its reference before the copy gets one. -/
theorem Balanced.sysDup2 {old new : Fin maxOpenFiles}
    (hok : old = new ∨ (∀ id, (q.fds old).kind ≠ .pipe id) ∧
      ((q.fds old).kind = .vfs → ∀ a, (q.fds new).object = some a → K a → a.isFile = true)) :
    Balanced K (S.sysDup2 p q old new).1 := by
  rw [Files.sysDup2]
  split
  · next hk =>
    have hs : ∀ a, (if old = new then empty else q.fds old).object = some a → ¬ K a := by
      intro a ha
      split at ha
      · cases ha
      · rw [object_of_console hk] at ha
        cases ha
    split
    · next h0 =>
      refine (h.sysClose hq).setFd (live_sysClose hq h0) ?_ hs
      simp only [update_self, object_empty]
    · next h0 => exact h.setFd hq (object_of_zero (Decidable.not_not.1 h0)) hs
  next hc =>
  rw [Files.vfsDup2]
  split
  · exact h
  next hne =>
  split
  · exact h
  next h0 =>
  obtain ⟨hpipe, hnew⟩ := hok.resolve_left hne
  have hvfs : (q.fds old).kind = .vfs := kind_vfs_of_ne h0 hc hpipe
  have hcopy : ∀ a, (q.fds old).object = some a → K a → a.isFile = true :=
    fun a ha _ => object_isFile_of_vfs hvfs ha
  split
  · next hn =>
    refine (h.vfsClose hq (hnew hvfs)).copy (live_vfsClose hq hn) ?_ h0 hcopy
    simp only [update_self, object_empty]
  · next hn => exact h.copy hq (object_of_zero (Decidable.not_not.1 hn)) h0 hcopy

/-! ## Pipes -/

/-- The identifier under which a slot would look like the console. -/
def consolePipeId : Nat := consoleInodeMagic - pipeFdBase

theorem object_pipeSlot_isFile {id : Nat} (hid : id < 2 ^ 31) {flags : Word}
    (h : (⟨(pipeFdBase + id) % 2 ^ 32, flags⟩ : ProcFd).object = some a) : a.isFile = false := by
  cases a with
  | pipeEnd id' w => rfl
  | file i =>
    have hi := object_eq_file.1 h
    simp only [pipeFdBase, vfsMaxOpenFiles] at *
    omega

/-- The slots that `sys_pipe` fills refer to the ends of the pipe. -/
theorem object_pipeSlot {id : Nat} (hid : id < 2 ^ 31) (hmagic : id ≠ consolePipeId)
    (flags : Word) :
    (⟨(pipeFdBase + id) % 2 ^ 32, flags⟩ : ProcFd).object
      = some (.pipeEnd id (decide (flags &&& oWronly ≠ 0))) := by
  have hmod : (pipeFdBase + id) % 2 ^ 32 = pipeFdBase + id := by
    simp only [pipeFdBase]
    omega
  rw [hmod]
  have hk : (⟨pipeFdBase + id, flags⟩ : ProcFd).kind = .pipe id := by
    have hc : pipeFdBase + id ≠ consoleInodeMagic := by
      simp only [consolePipeId, pipeFdBase, consoleInodeMagic] at *
      omega
    rw [kind, if_neg hc, if_pos (Nat.le_add_right ..), Nat.add_sub_cancel_left]
  exact object_of_pipe hk

/-- The references after two free slots have got objects. -/
theorem refCount_two (hq : S.live p = some q) {rd wr : Fin maxOpenFiles} (hne : rd ≠ wr)
    (hrd : (q.fds rd).object = none) (hwr : (q.fds wr).object = none) (s s' : ProcFd) :
    refCount ((S.setFd p rd s).setFd p wr s').ref a
      = refCount S.ref a + (if s.object = some a then 1 else 0)
        + (if s'.object = some a then 1 else 0) := by
  have hup := refCount.update S.ref (a := a) (p, rd) s.object
  have hup' := refCount.update (S.setFd p rd s).ref (a := a) (p, wr) s'.object
  rw [ref_setFd (live_setFd hq rd s)]
  rw [ref_of_live (live_setFd hq rd s)] at hup'
  simp only [update_of_ne hne.symm, hwr] at hup'
  rw [ref_of_live hq, hrd, ← ref_setFd hq] at hup
  simp only [reduceCtorEq, if_false] at hup hup'
  omega

include h hq in
/-- The two ends are counted, or taken back where a later step fails. -/
theorem Balanced.sysPipe {bufOk : Bool} {copied : Int}
    (hok : bufOk = true → ∀ a, K a → a.isFile = false → S.pipes.Ids ∧
      S.pipes.nextPipeId < 2 ^ 31 ∧ S.pipes.nextPipeId ≠ consolePipeId) :
    Balanced K (S.sysPipe p q bufOk copied).1 := by
  by_cases hbuf : bufOk = false
  · rw [Files.sysPipe, if_pos hbuf]
    exact h
  rw [Bool.not_eq_false] at hbuf
  intro a ha
  have hb := h a ha
  obtain ⟨r, hr, -, hreg⟩ | ⟨rd, wr, r, hmade⟩ := sysPipe_cases S p q bufOk copied
  -- the pipe was not made, or was taken back
  · rw [hr]
    cases a with
    | file i => exact hb
    | pipeEnd id w =>
      obtain ⟨hids, hlt, -⟩ := hok hbuf _ ha rfl
      refine Eq.trans (endCount_congr ?_) hb
      rw [(hreg hlt hids.none_next).1]
  · have hid : S.newPipeId.toNat < 2 ^ 31 := allocateId_lt
    rw [hmade.eq, refCount_two (S := { S with pipes := r }) hq hmade.ne
      (object_of_zero hmade.rdSlot.2.1) (object_of_zero hmade.wrSlot.2.1)]
    have href : refCount ({ S with pipes := r } : Files).ref a = S.count a := hb.symm
    rw [href]
    cases a with
    | file i =>
      -- no file is meant by the code of a pipe
      have hno : ∀ flags, (⟨(pipeFdBase + S.newPipeId.toNat) % 2 ^ 32, flags⟩ : ProcFd).object
          ≠ some (.file i) := by
        intro flags hc
        cases object_pipeSlot_isFile hid hc
      rw [if_neg (hno _), if_neg (hno _)]
      rfl
    | pipeEnd id' w =>
      obtain ⟨hids, hlt, hmagic⟩ := hok hbuf _ ha rfl
      obtain ⟨hnext, rfl⟩ := hmade.reg hlt
      rw [hnext]
      have hrdw : decide (oRdonly &&& oWronly ≠ 0) = false := by decide
      have hwrw : decide (oWronly &&& oWronly ≠ 0) = true := by decide
      rw [object_pipeSlot hlt hmagic, object_pipeSlot hlt hmagic, hrdw, hwrw]
      obtain rfl | hid' := eq_or_ne id' S.pipes.nextPipeId
      -- the new pipe has one reader and one writer
      · rw [show S.count (.pipeEnd S.pipes.nextPipeId w) = 0 from hids.endCount_next w]
        refine (endCount_of_some (update_self ..)).trans ?_
        cases w <;> simp [Pipe.ends]
      · have hno : ∀ b, some (FdObject.pipeEnd S.pipes.nextPipeId b) ≠ some (.pipeEnd id' w) :=
          fun b hc => hid' (FdObject.pipeEnd.inj (some.inj hc)).1.symm
        rw [if_neg (hno _), if_neg (hno _)]
        exact endCount_congr (update_of_ne hid' ..)

/-! ## Processes -/

/-- What a process that is stored refers to. -/
def refRow (x : Option FdProc) (fd : Fin maxOpenFiles) : Option FdObject :=
  (x.filter fun q => !q.exited).bind fun q => (q.fds fd).object

theorem ref_setProc_self (x : Option FdProc) (fd : Fin maxOpenFiles) :
    (S.setProc p x).ref (p, fd) = refRow x fd := by
  rw [ref, live_setProc_self, refRow]

theorem ref_setProc_of_ne {p' : Fin maxProcesses} (hp : p' ≠ p) (x : Option FdProc)
    (fd : Fin maxOpenFiles) : (S.setProc p x).ref (p', fd) = S.ref (p', fd) := by
  rw [ref, ref, live_setProc_of_ne hp]

theorem ref_eq_refRow (fd : Fin maxOpenFiles) : S.ref (p, fd) = refRow (S.procs p) fd := rfl

/-- The process table changes where nothing is referred to before and after. -/
theorem Balanced.setProc (h : Balanced K S) {x : Option FdProc}
    (hold : ∀ fd, refRow (S.procs p) fd = none) (hnew : ∀ fd, refRow x fd = none) :
    Balanced K (S.setProc p x) := by
  intro a ha
  have href : (S.setProc p x).ref = S.ref := by
    funext slot
    obtain ⟨p', fd⟩ := slot
    obtain rfl | hp := eq_or_ne p' p
    · rw [ref_setProc_self, ref_eq_refRow, hold, hnew]
    · rw [ref_setProc_of_ne hp]
  rw [href]
  exact h a ha

theorem object_newFds (stdio : Bool) (i : Fin maxOpenFiles) : (newFds stdio i).object = none := by
  rw [newFds]
  split
  · split
    · exact object_of_console rfl
    split
    · exact object_of_console rfl
    · exact object_empty
  · exact object_empty

theorem freeSlot_spec {c : Fin maxProcesses} (h : S.freeSlot = some c) : S.procs c = none := by
  have := find?_some h
  simp only [Bool.and_eq_true] at this
  exact isNone_iff_eq_none.1 this.2

section

variable (h : Balanced K S)
include h

theorem Balanced.processCreate {stdio : Bool} : Balanced K (S.processCreate stdio) := by
  rw [Files.processCreate]
  split
  · exact h
  · next i hi =>
    refine h.setProc (fun fd => ?_) (object_newFds stdio)
    rw [freeSlot_spec hi]
    rfl

theorem Balanced.processTerminate : Balanced K (S.processTerminate p) := by
  rw [Files.processTerminate]
  split
  · next q hq =>
    split
    · next hex =>
      refine h.setProc (fun fd => ?_) fun fd => rfl
      rw [hq, refRow]
      simp [hex.1]
    · exact h
  · exact h

/-- A process that exits takes no reference with it if it has none. -/
theorem Balanced.processExit (hq : S.live p = some q)
    (hok : p.val ≠ 0 → ∀ fd a, (q.fds fd).object = some a → ¬ K a) :
    Balanced K (S.processExit p q) := by
  rw [Files.processExit]
  split
  · exact h
  next hp0 =>
  intro a ha
  have hrow : ∀ fd, (S.setProc p (some { q with exited := true })).ref (p, fd) = none := by
    intro fd
    rw [ref_setProc_self]
    rfl
  have hadd := refCount.add_row (a := a) hrow
    fun p' fd hp => (ref_setProc_of_ne hp (some { q with exited := true }) fd).symm
  have hzero : refCount (fun fd => S.ref (p, fd)) a = 0 := by
    refine refCount.eq_zero_iff.2 fun fd hfd => ?_
    rw [ref_of_live hq] at hfd
    exact hok hp0 fd a hfd ha
  rw [count_setProc, h a ha, hadd, hzero, add_zero]

end

/-! ### The loop of `sys_fork` -/

theorem inheritFd_eq : S.inheritFd s
    = if 1 ≤ s.ofIdx ∧ s.ofIdx ≤ 64 then S.incref (s.ofIdx - 1) else S := by
  rw [inheritFd, decode_eq]
  by_cases h : 1 ≤ s.ofIdx ∧ s.ofIdx ≤ 64
  · rw [if_pos (.inl (Nat.ne_of_gt h.1)), if_pos h, if_pos h]
  · rw [if_neg h]
    split <;> rfl

/-- `vfs_incref` on a slot of the table of open files. -/
theorem count_incref {raw : Nat} (hraw : raw < vfsMaxOpenFiles)
    (hobj : s.object = some (.file ⟨raw, hraw⟩)) :
    (S.incref raw).count a
      = if (s.object = some a ∧ a.isFile = true) ∧ 0 < S.count a then (S.count a + 1) % 2 ^ 32
        else S.count a := by
  simp only [incref, dif_pos hraw]
  by_cases ha : s.object = some a ∧ a.isFile = true
  · have hae : a = .file ⟨raw, hraw⟩ := some.inj (ha.1.symm.trans hobj)
    subst hae
    by_cases hpos : 0 < (S.openFiles ⟨raw, hraw⟩).refcount
    · rw [if_pos hpos, if_pos ⟨ha, hpos⟩]
      exact (count_setCount_of_object hobj fun n => (n + 1) % 2 ^ 32).trans (if_pos ha)
    · rw [if_neg hpos, if_neg fun hc => hpos hc.2]
  · refine Eq.trans ?_ (if_neg fun hc => ha hc.1).symm
    split
    · exact (count_setCount_of_object hobj fun n => (n + 1) % 2 ^ 32).trans (if_neg ha)
    · rfl

/-- The child's descriptor counts for a file, and not for a pipe. -/
theorem count_inheritFd : (S.inheritFd s).count a
    = if (s.object = some a ∧ a.isFile = true) ∧ 0 < S.count a then (S.count a + 1) % 2 ^ 32
      else S.count a := by
  rw [inheritFd_eq]
  by_cases h : 1 ≤ s.ofIdx ∧ s.ofIdx ≤ 64
  · have hraw : s.ofIdx - 1 < vfsMaxOpenFiles := by
      simp only [vfsMaxOpenFiles]
      omega
    rw [if_pos h]
    exact count_incref hraw (object_of_raw (Nat.ne_of_gt h.1) hraw)
  · -- The slot refers to no file.
    have hno : ¬ (s.object = some a ∧ a.isFile = true) := by
      by_cases h0 : s.ofIdx = 0
      · rw [object_of_zero h0]
        rintro ⟨hobj, -⟩
        cases hobj
      · refine object_ne_file ?_
        simp only [vfsMaxOpenFiles]
        omega
    rw [if_neg h]
    exact (if_neg fun hc => hno hc.1).symm

/-- A file that is counted is counted once more for each descriptor of the loop. -/
theorem count_foldl_inheritFd (fds : FdTable) (hfile : a.isFile = true)
    (l : List (Fin maxOpenFiles)) (hpos : 0 < S.count a) (hlt : S.count a + l.length < 2 ^ 32) :
    (l.foldl (fun S i => S.inheritFd (fds i)) S).count a
      = S.count a + (l.filterMap fun i => (fds i).object).count a := by
  induction l generalizing S with
  | nil => rfl
  | cons i l ih =>
    have hstep := count_inheritFd (S := S) (s := fds i) (a := a)
    rw [length_cons] at hlt
    by_cases hobj : (fds i).object = some a
    · rw [if_pos ⟨⟨hobj, hfile⟩, hpos⟩] at hstep
      have hcons : (i :: l).filterMap (fun i => (fds i).object)
          = a :: l.filterMap fun i => (fds i).object := filterMap_cons_some hobj
      rw [foldl_cons, ih (by omega) (by omega), hstep, hcons, count_cons_self]
      omega
    · rw [if_neg fun hc => hobj hc.1.1] at hstep
      rw [foldl_cons, ih (by omega) (by omega), hstep, filterMap_cons]
      split
      · rfl
      · next b hx =>
        rw [count_cons_of_ne]
        rintro rfl
        exact hobj hx

/-- What the descriptors of the loop do not refer to is not counted. -/
theorem count_foldl_inheritFd_of_ne (fds : FdTable) (hno : ∀ i, (fds i).object ≠ some a)
    (l : List (Fin maxOpenFiles)) :
    (l.foldl (fun S i => S.inheritFd (fds i)) S).count a = S.count a := by
  induction l generalizing S with
  | nil => rfl
  | cons i l ih => rw [foldl_cons, ih, count_inheritFd, if_neg fun hc => hno i hc.1.1]

include h hq in
/-- The counters after the loop over all descriptors of a live process. -/
theorem Balanced.count_inherit (ha : K a)
    (hfile : ∀ i, (q.fds i).object = some a → a.isFile = true) :
    ((finRange maxOpenFiles).foldl (fun S i => S.inheritFd (q.fds i)) S).count a
      = S.count a + refCount (fun i => (q.fds i).object) a := by
  by_cases hsome : ∃ i, (q.fds i).object = some a
  · obtain ⟨i, hi⟩ := hsome
    have hle := h.le ha
    have hcount : ((finRange maxOpenFiles).filterMap fun i => (q.fds i).object).count a
        = refCount (fun i => (q.fds i).object) a := by
      rw [refCount.count_filterMap _ (nodup_finRange _), refCount]
      simp only [mem_finRange, true_and]
    rw [count_foldl_inheritFd q.fds (hfile i hi) _ (h.pos hq hi ha), hcount]
    rw [length_finRange, maxOpenFiles]
    omega
  · have hno : ∀ i, (q.fds i).object ≠ some a := fun i hi => hsome ⟨i, hi⟩
    rw [count_foldl_inheritFd_of_ne q.fds hno, refCount.eq_zero_iff.2 hno, add_zero]

include h hq in
/-- Each descriptor of the child counts once, if a slot is free for the child. -/
theorem Balanced.sysFork {early : Bool}
    (hok : p.val ≠ 0 → early = false → ∀ fd a, (q.fds fd).object = some a → K a →
      a.isFile = true ∧ S.freeSlot ≠ none) : Balanced K (S.sysFork p q early) := by
  rw [Files.sysFork]
  split
  · exact h
  next hp0 =>
  split
  · exact h
  next hearly =>
  replace hok := hok hp0 (Bool.eq_false_iff.2 hearly)
  have hrec : Recounted S _ := .inherit q.fds (finRange maxOpenFiles)
  have hcount : ∀ a, K a → _ := fun a ha => h.count_inherit hq ha fun fd hfd => (hok fd a hfd ha).1
  simp only
  generalize (finRange maxOpenFiles).foldl (fun S i => S.inheritFd (q.fds i)) S = S1 at hrec hcount
  have hslot : S1.freeSlot = S.freeSlot := by rw [freeSlot, freeSlot, hrec.procs]
  have href := hrec.ref
  rw [hslot]
  intro a ha
  cases hfree : S.freeSlot with
  | none =>
    -- No slot is free: the parent has nothing that was counted.
    have hno : refCount (fun i => (q.fds i).object) a = 0 :=
      refCount.eq_zero_iff.2 fun fd hfd => (hok fd a hfd ha).2 hfree
    rw [hcount a ha, hno, href, h a ha, add_zero]
  | some child =>
    have hrow : ∀ fd, S1.ref (child, fd) = none := by
      intro fd
      rw [ref_eq_refRow, hrec.procs, freeSlot_spec hfree]
      rfl
    have hadd := refCount.add_row (a := a) hrow
      fun p' fd hp => ref_setProc_of_ne hp (some ⟨q.fds, false⟩) fd
    have hchild : (fun fd => (S1.setProc child (some ⟨q.fds, false⟩)).ref (child, fd))
        = fun fd => (q.fds fd).object := by
      funext fd
      rw [ref_setProc_self]
      rfl
    rw [hadd, hchild, count_setProc, hcount a ha, href, h a ha]

/-! ### The loop of `sys_execve` -/

/-- A descriptor with `O_CLOEXEC` is closed. -/
theorem Balanced.execFd (h : Balanced K S) (hs : Sane S) : Balanced K (S.execFd p fd) := by
  rw [Files.execFd]
  split
  · exact h
  next q hq =>
  split
  · next hclo =>
    refine h.vfsClose hq fun a ha _ => ?_
    cases a with
    | file i => rfl
    | pipeEnd id w =>
      -- A pipe end never has the flag.
      obtain hle | ⟨-, hflags⟩ := hs hq fd
      · have := (kind_eq_pipe (object_eq_pipeEnd ha).1).1
        simp only [pipeFdBase] at this
        omega
      · exact absurd hflags hclo.2
  · exact h

theorem Balanced.sysExecve (h : Balanced K S) (hs : Sane S) : Balanced K (S.sysExecve p) := by
  have hfold : ∀ l : List (Fin maxOpenFiles), ∀ S, Balanced K S → Sane S →
      Balanced K (l.foldl (fun S i => S.execFd p i) S) := by
    intro l
    induction l with
    | nil => exact fun S h _ => h
    | cons i l ih => exact fun S h hs => ih _ (h.execFd hs) hs.execFd
  exact hfold _ S h hs

/-! ## The whole step -/

/-- The counters of the objects in `K` are exact. -/
structure FdInv (K : FdObject → Prop) (S : Files) : Prop where
  sane : Sane S
  balanced : Balanced K S
  ids : ∀ a, K a → a.isFile = false → S.pipes.Ids

/-- What a step must not do for the counters of `K` to stay exact.
- `dup` and `dup2` do not copy an end of a pipe, and `dup2` does not put a file in
  the place of one that is counted.
- The identifiers of pipes have not run out, and the next one does not look like
  the console.
- `fork` does not copy an end of a pipe that is counted, and does not fail after
  the files were counted.
- A process has closed what is counted before it exits. -/
def StepOk (K : FdObject → Prop) (S : Files) : FdEvent → Prop
  | .dup p fd => ∀ q, S.live p = some q →
      ∀ id, (q.fds fd).kind = .pipe id → findFreeFd q.fds = none
  | .dup2 p old new => ∀ q, S.live p = some q → old = new ∨
      (∀ id, (q.fds old).kind ≠ .pipe id) ∧
      ((q.fds old).kind = .vfs → ∀ a, (q.fds new).object = some a → K a → a.isFile = true)
  | .pipe p bufOk _ => ∀ q, S.live p = some q → bufOk = true → ∀ a, K a → a.isFile = false →
      S.pipes.nextPipeId < 2 ^ 31 ∧ S.pipes.nextPipeId ≠ consolePipeId
  | .fork p early => ∀ q, S.live p = some q → p.val ≠ 0 → early = false →
      ∀ fd a, (q.fds fd).object = some a → K a → a.isFile = true ∧ S.freeSlot ≠ none
  | .exit p => ∀ q, S.live p = some q → p.val ≠ 0 →
      ∀ fd a, (q.fds fd).object = some a → ¬ K a
  | _ => True

theorem Balanced.pipeIo (h : Balanced K S) {op : PipeRegistry → Nat → PipeRegistry × PipeResult}
    (hop : ∀ r id, PipeRegistry.SameEnds r (op r id).1) : Balanced K (S.pipeIo q fd op) := by
  rw [Files.pipeIo]
  split
  · intro a ha
    refine Eq.trans ?_ (h a ha)
    cases a with
    | file i => rfl
    | pipeEnd id w => exact (hop _ _).endCount
  · exact h

/-- A step that a live process takes keeps the counters if it does for each process it
could be. -/
theorem Balanced.doBy (h : Balanced K S) {act : FdProc → Files}
    (hact : ∀ q, S.live p = some q → Balanced K (act q)) : Balanced K (S.doBy p act) := by
  rw [Files.doBy]
  split
  · exact h
  · next q hq => exact hact q hq

/-- Every step that is allowed keeps the counters of `K` exact. -/
theorem FdInv.step (h : FdInv K S) {ev : FdEvent} (hok : StepOk K S ev) :
    FdInv K (S.fdStep ev) := by
  refine ⟨h.sane.step ev, ?_, fun a ha hf => (change_step S ev).ids ?_ (h.ids a ha hf)⟩
  · have hb := h.balanced
    cases ev with
    | create stdio => exact hb.processCreate
    | openFile p flags resolved => exact hb.doBy fun q hq => hb.vfsOpen hq
    | close p fd => exact hb.doBy fun q hq => hb.sysClose hq
    | dup p fd => exact hb.doBy fun q hq => hb.sysDup hq (hok q hq)
    | dup2 p old new => exact hb.doBy fun q hq => hb.sysDup2 hq (hok q hq)
    | pipe p bufOk copied =>
      exact hb.doBy fun q hq => hb.sysPipe hq fun hbuf a ha hf =>
        ⟨h.ids a ha hf, hok q hq hbuf a ha hf⟩
    | read p fd count bufOk signal =>
      exact hb.doBy fun q hq => hb.pipeIo fun _ _ => sameEnds_readById
    | write p fd bytes bufOk copied signal =>
      exact hb.doBy fun q hq => hb.pipeIo fun _ _ => sameEnds_writeById
    | fork p early => exact hb.doBy fun q hq => hb.sysFork hq (hok q hq)
    | exec p => exact hb.sysExecve h.sane
    | exit p => exact hb.doBy fun q hq => hb.processExit hq (hok q hq)
    | reap p => exact hb.processTerminate
  · cases ev with
    | pipe p bufOk copied => exact fun q hq hbuf => (hok q hq hbuf a ha hf).1
    | _ => trivial

/-- At first there are no descriptors. -/
theorem fdInv_boot : FdInv K boot where
  sane := sane_boot
  balanced := by
    intro a _
    have href : ∀ slot, boot.ref slot ≠ some a := by
      rintro ⟨p, fd⟩ hslot
      rw [ref_eq_refRow] at hslot
      simp only [boot] at hslot
      split at hslot
      · simp [refRow, object_newFds, Option.filter] at hslot
      · cases hslot
    rw [refCount.eq_zero_iff.2 href]
    cases a with
    | file | pipeEnd => rfl
  ids := by
    intro a _ _
    constructor
    · intro id P hid
      cases hid
    · intro id P hid
      cases hid

/-- The counters are exact in every state of a run whose steps are allowed. -/
theorem fdInv_run {es : List FdEvent} (hrun : Along fdStep (StepOk K) boot es) :
    FdInv K (run fdStep boot es) :=
  run_invariant (fun _ _ h hok => h.step hok) fdInv_boot hrun

/-! ## Files -/

/-- The count of an entry of `open_files` is the number of live descriptors that
refer to it, so it is free exactly if there are none. -/
def FilesCounted (S : Files) : Prop :=
  ∀ i, (S.openFiles i).refcount = refCount S.ref (.file i) ∧
    ((S.openFiles i).refcount = 0 ↔
      ∀ p q, S.live p = some q → ∀ fd, (q.fds fd).ofIdx ≠ i.val + 1)

theorem refCount_file_eq_zero_iff {i : Fin vfsMaxOpenFiles} :
    refCount S.ref (.file i) = 0 ↔
      ∀ p q, S.live p = some q → ∀ fd, (q.fds fd).ofIdx ≠ i.val + 1 := by
  rw [refCount.eq_zero_iff]
  constructor
  · intro h p q hq fd hfd
    refine h (p, fd) ?_
    rw [ref_of_live hq]
    exact object_eq_file.2 hfd
  · rintro h ⟨p, fd⟩ href
    obtain ⟨q, hq, hobj⟩ := bind_eq_some_iff.1 href
    exact h p q hq fd (object_eq_file.1 hobj)

theorem FdInv.filesCounted (h : FdInv (fun a => a.isFile = true) S) : FilesCounted S := by
  intro i
  have heq : (S.openFiles i).refcount = refCount S.ref (.file i) := h.balanced (.file i) rfl
  refine ⟨heq, ?_⟩
  rw [heq]
  exact refCount_file_eq_zero_iff

/-- In every run whose steps are allowed, every entry of `open_files` counts its
descriptors. -/
theorem filesCounted_of_stepOk {es : List FdEvent}
    (hrun : Along fdStep (StepOk fun a => a.isFile = true) boot es) :
    FilesCounted (run fdStep boot es) :=
  (fdInv_run hrun).filesCounted

/-- The slot of the first process that is created. -/
def firstSlot : Fin maxProcesses := ⟨1, by decide⟩

/-- Its first descriptors after those of the console. -/
def fd3 : Fin maxOpenFiles := ⟨3, by decide⟩
def fd4 : Fin maxOpenFiles := ⟨4, by decide⟩

/-- A process opens a file, duplicates the descriptor, closes both and exits. -/
def closeRun : List FdEvent :=
  [.create true, .openFile firstSlot oRdonly (.ok (5, 0)), .dup firstSlot fd3, .close firstSlot fd3,
    .close firstSlot fd4, .exit firstSlot]

/-- A condition on the process that acts, decided by looking at it. -/
theorem test_of_live {f : FdProc → Bool} (h : (S.live p).map f = some true)
    (hq : S.live p = some q) : f q = true := by
  rw [hq] at h
  exact some.inj h

/-- Each close takes one reference back. -/
theorem filesCounted_closeRun :
    Along fdStep (StepOk fun a => a.isFile = true) boot closeRun ∧
      FilesCounted (run fdStep boot closeRun) := by
  have hdup : StepOk (fun a => a.isFile = true)
      (run fdStep boot [.create true, .openFile firstSlot oRdonly (.ok (5, 0))])
        (.dup firstSlot fd3) := by
    intro q hq id hpipe
    have hvfs := test_of_live (f := fun q => (q.fds fd3).kind = .vfs) (by decide +kernel) hq
    rw [of_decide_eq_true hvfs] at hpipe
    cases hpipe
  have hexit : StepOk (fun a => a.isFile = true)
      (run fdStep boot (closeRun.take 5)) (.exit firstSlot) := by
    intro q hq _ fd a ha
    have hnone := test_of_live (f := fun q => ∀ fd, (q.fds fd).object = none) (by decide +kernel) hq
    rw [of_decide_eq_true hnone fd] at ha
    cases ha
  have hrun : Along fdStep (StepOk fun a => a.isFile = true) boot closeRun :=
    ⟨trivial, trivial, hdup, trivial, trivial, hexit, trivial⟩
  exact ⟨hrun, filesCounted_of_stepOk hrun⟩

/-- A process exits with a file open. -/
def exitRun : List FdEvent :=
  [.create true, .openFile firstSlot oRdonly (.ok (5, 0)), .exit firstSlot]

/-- The entry keeps its count, and no descriptor refers to it. -/
theorem exit_leaks_file : ¬ FilesCounted (run fdStep boot exitRun) := by
  intro h
  have hlive : ∀ p, ((run fdStep boot exitRun).live p).all
      (fun q => decide (∀ fd, (q.fds fd).ofIdx ≠ 1)) = true := by
    decide +kernel
  have hzero := (h ⟨0, by decide⟩).2.2 fun p q hq fd => by
    have hp := hlive p
    rw [hq] at hp
    exact of_decide_eq_true hp fd
  cases hzero

end UnixOs.Files
