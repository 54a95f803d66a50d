import UnixOs.Fs.Descriptors
import UnixOs.Lib.RefCount
import UnixOs.Lib.Run

/-!
# Counting the descriptors

What a descriptor refers to is an entry of `open_files` or an end of a pipe
(`FdObject`). Each of them has a counter, and there is the number of descriptors
of live processes that refer to it; the two are the same as long as every step
that copies or drops a descriptor also counts (`StepOk`). One invariant serves
both kinds: `K` is the class of objects whose counters are looked at.
-/

namespace UnixOs

open Function List Option BitVec PipeRegistry

/-- What a descriptor refers to. -/
inductive FdObject where
  | file (i : Fin vfsMaxOpenFiles)
  | pipeEnd (id : Nat) (write : Bool)
  deriving DecidableEq

def FdObject.isFile : FdObject → Bool
  | .file _ => true
  | .pipeEnd _ _ => false

namespace ProcFd

/-- The object of a descriptor; the console is not counted. -/
def object (s : ProcFd) : Option FdObject :=
  match s.kind with
  | .pipe id => some (.pipeEnd id s.isWriteEnd)
  | .vfs => if h : s.ofIdx - 1 < vfsMaxOpenFiles then some (.file ⟨s.ofIdx - 1, h⟩) else none
  | .console => none
  | .invalid => none

variable {s : ProcFd}

@[simp] theorem object_empty : empty.object = none := by decide

theorem kind_eq_pipe {id : Nat} (h : s.kind = .pipe id) :
    pipeFdBase ≤ s.ofIdx ∧ id = s.ofIdx - pipeFdBase := by
  rw [kind] at h
  split at h
  · cases h
  split at h
  · next hp => exact ⟨hp, (FdKind.pipe.inj h).symm⟩
  split at h
  · cases h
  · cases h

theorem kind_eq_vfs (h : s.kind = .vfs) : s.ofIdx ≠ 0 ∧ s.ofIdx < pipeFdBase := by
  rw [kind] at h
  split at h
  · cases h
  split at h
  · cases h
  next hp =>
  split at h
  · cases h
  · next hz => exact ⟨hz, not_le.1 hp⟩

theorem kind_eq_invalid (h : s.kind = .invalid) : s.ofIdx = 0 := by
  rw [kind] at h
  split at h
  · cases h
  split at h
  · cases h
  split at h
  · next hz => exact hz
  · cases h

theorem kind_vfs_of_ne (h0 : s.ofIdx ≠ 0) (hc : s.kind ≠ .console)
    (hpipe : ∀ id, s.kind ≠ .pipe id) : s.kind = .vfs := by
  cases hk : s.kind with
  | console => exact absurd hk hc
  | pipe id => exact absurd hk (hpipe id)
  | vfs => rfl
  | invalid => exact absurd (kind_eq_invalid hk) h0

theorem kind_of_small (h0 : s.ofIdx ≠ 0) (h : s.ofIdx ≤ 64) : s.kind = .vfs := by
  have hc : s.ofIdx ≠ consoleInodeMagic := by
    simp only [consoleInodeMagic]
    omega
  have hp : ¬ pipeFdBase ≤ s.ofIdx := by
    simp only [pipeFdBase]
    omega
  rw [kind, if_neg hc, if_neg hp, if_neg h0]

theorem object_of_zero (h : s.ofIdx = 0) : s.object = none := by
  have hk : s.kind = .invalid := by
    rw [kind, h]
    rfl
  rw [object, hk]

/-- A file is meant by its index plus one. -/
theorem object_eq_file {i : Fin vfsMaxOpenFiles} :
    s.object = some (.file i) ↔ s.ofIdx = i.val + 1 := by
  constructor
  · intro h
    rw [object] at h
    cases hk : s.kind with
    | invalid | console | pipe => rw [hk] at h; cases h
    | vfs =>
      rw [hk] at h
      have hz := (kind_eq_vfs hk).1
      simp only at h
      split at h
      · obtain rfl := FdObject.file.inj (some.inj h)
        show s.ofIdx = s.ofIdx - 1 + 1
        omega
      · cases h
  · intro h
    have hi := i.isLt
    simp only [vfsMaxOpenFiles] at hi
    have hk : s.kind = .vfs := kind_of_small (by omega) (by omega)
    rw [object, hk]
    simp only
    rw [dif_pos (show s.ofIdx - 1 < vfsMaxOpenFiles by simp only [vfsMaxOpenFiles]; omega)]
    congr 2
    exact Fin.ext (show s.ofIdx - 1 = i.val by omega)

/-- The object of a pipe end tells its pipe and its direction. -/
theorem object_eq_pipeEnd {id : Nat} {w : Bool} (h : s.object = some (.pipeEnd id w)) :
    s.kind = .pipe id ∧ s.isWriteEnd = w := by
  rw [object] at h
  cases hk : s.kind with
  | invalid | console => rw [hk] at h; cases h
  | vfs =>
    rw [hk] at h
    simp only at h
    split at h
    · cases h
    · cases h
  | pipe id' =>
    rw [hk] at h
    obtain ⟨rfl, rfl⟩ := FdObject.pipeEnd.inj (some.inj h)
    exact ⟨rfl, rfl⟩

theorem object_of_pipe {id : Nat} (h : s.kind = .pipe id) :
    s.object = some (.pipeEnd id s.isWriteEnd) := by
  rw [object, h]

theorem decode_eq (s : ProcFd) :
    s.decode = if 1 ≤ s.ofIdx ∧ s.ofIdx ≤ 64 then some (s.ofIdx - 1) else none := by
  rw [decode]
  by_cases h0 : s.ofIdx = 0
  · rw [if_pos h0, if_neg (by omega)]
  · rw [if_neg h0]
    by_cases h64 : 64 < s.ofIdx
    · rw [if_pos h64, if_neg (by omega)]
    · rw [if_neg h64, if_pos (by omega)]

/-- A slot is empty, refers to `open_files`, or is the console or a pipe, which
are never closed by `sys_execve`. -/
def Sane (s : ProcFd) : Prop :=
  s.ofIdx ≤ 64 ∨ pipeFdBase ≤ s.ofIdx ∧ s.flags &&& oCloexec = 0

end ProcFd

namespace Files

/-- The objects of the descriptors of live processes. -/
def ref (S : Files) (s : Fin maxProcesses × Fin maxOpenFiles) : Option FdObject :=
  (S.live s.1).bind fun q => (q.fds s.2).object

/-- The counter of an object. -/
def count (S : Files) : FdObject → Nat
  | .file i => (S.openFiles i).refcount
  | .pipeEnd id w => S.pipes.endCount id w

/-- The counters of the objects in `K` are exact. -/
def Balanced (K : FdObject → Prop) (S : Files) : Prop :=
  ∀ a, K a → S.count a = refCount S.ref a

variable {S S' : Files} {K : FdObject → Prop} {p : Fin maxProcesses} {q : FdProc}
  {fd : Fin maxOpenFiles} {s : ProcFd} {a : FdObject}

/-! ## Storing a slot -/

theorem procs_of_live (h : S.live p = some q) : S.procs p = some q ∧ q.exited = false := by
  rw [live, filter_eq_some_iff] at h
  exact ⟨h.1, by simpa using h.2⟩

theorem live_of_procs (h : S.procs p = some q) (he : q.exited = false) : S.live p = some q := by
  rw [live, h]
  simp [he]

theorem ref_of_live (h : S.live p = some q) (fd : Fin maxOpenFiles) :
    S.ref (p, fd) = (q.fds fd).object := by
  rw [ref, h]
  rfl

theorem live_setProc_of_ne {p' : Fin maxProcesses} (hp : p' ≠ p) (x : Option FdProc) :
    (S.setProc p x).live p' = S.live p' := by
  rw [live, live, setProc]
  simp only [update_of_ne hp]

theorem live_setProc_self (x : Option FdProc) :
    (S.setProc p x).live p = x.filter fun q => !q.exited := by
  rw [live, setProc]
  simp only [update_self]

theorem live_setFd (h : S.live p = some q) (fd : Fin maxOpenFiles) (s : ProcFd) :
    (S.setFd p fd s).live p = some { q with fds := update q.fds fd s } := by
  obtain ⟨hq, he⟩ := procs_of_live h
  rw [setFd, live_setProc_self, hq]
  simp [he]

theorem ref_setFd (h : S.live p = some q) (fd : Fin maxOpenFiles) (s : ProcFd) :
    (S.setFd p fd s).ref = update S.ref (p, fd) s.object := by
  funext x
  obtain ⟨p', fd'⟩ := x
  obtain rfl | hp := eq_or_ne p' p
  · rw [ref_of_live (live_setFd h fd s)]
    obtain rfl | hfd := eq_or_ne fd' fd
    · simp only [update_self]
    · rw [update_of_ne fun hc => hfd (Prod.mk.inj hc).2, ref_of_live h]
      simp only [update_of_ne hfd]
  · rw [update_of_ne fun hc => hp (Prod.mk.inj hc).1, ref, ref, setFd]
    simp only [live_setProc_of_ne hp]

@[simp] theorem count_setProc (x : Option FdProc) : (S.setProc p x).count = S.count := rfl

@[simp] theorem count_setFd : (S.setFd p fd s).count = S.count := rfl

@[simp] theorem ref_setFile (i : Fin vfsMaxOpenFiles) (f : OpenFile) :
    (S.setFile i f).ref = S.ref := rfl

/-- The count of one entry is that of the record stored there. -/
theorem count_setFile (i : Fin vfsMaxOpenFiles) (f : OpenFile) :
    (S.setFile i f).count = update S.count (.file i) f.refcount := by
  funext a
  cases a with
  | pipeEnd id w =>
    rfl
  | file j =>
    obtain rfl | hj := eq_or_ne j i
    · rw [update_self]
      show (update S.openFiles j f j).refcount = _
      rw [update_self]
    · rw [update_of_ne fun hc => hj (FdObject.file.inj hc)]
      show (update S.openFiles i f j).refcount = (S.openFiles j).refcount
      rw [update_of_ne hj]

/-- One slot changes, and the counters with it. -/
theorem Balanced.move (h : Balanced K S) (hq : S.live p = some q) (fd : Fin maxOpenFiles)
    (s : ProcFd) (href : S'.ref = update S.ref (p, fd) s.object)
    (hcount : ∀ a, K a → S'.count a + (if (q.fds fd).object = some a then 1 else 0)
      = S.count a + (if s.object = some a then 1 else 0)) : Balanced K S' := by
  intro a ha
  have hup := refCount.update S.ref (a := a) (p, fd) s.object
  rw [ref_of_live hq] at hup
  have hc := hcount a ha
  have hb := h a ha
  rw [href]
  omega

/-- There are not more descriptors than slots. -/
theorem refCount_le (S : Files) (a : FdObject) : refCount S.ref a ≤ 8192 := by
  have hle : refCount S.ref a
      ≤ Fintype.card (Fin maxProcesses × Fin maxOpenFiles) := Finset.card_le_univ _
  rwa [Fintype.card_prod, Fintype.card_fin] at hle

theorem Balanced.pos (h : Balanced K S) (hq : S.live p = some q)
    (ha : (q.fds fd).object = some a) (hK : K a) : 0 < S.count a := by
  rw [h a hK]
  exact refCount.pos_of_mem ((ref_of_live hq fd).trans ha)

theorem Balanced.le (h : Balanced K S) (hK : K a) : S.count a ≤ 8192 := by
  rw [h a hK]
  exact refCount_le S a

/-! ## What the operations do to references and counters -/

theorem count_setCount (i : Fin vfsMaxOpenFiles) (n : Nat) :
    (S.setCount i n).count = update S.count (.file i) n :=
  count_setFile i _

@[simp] theorem ref_setCount (i : Fin vfsMaxOpenFiles) (n : Nat) :
    (S.setCount i n).ref = S.ref := rfl

/-- The entry of `open_files` that a number points to is what a slot with this
number refers to. -/
theorem object_of_raw (h0 : s.ofIdx ≠ 0) (h : s.ofIdx - 1 < vfsMaxOpenFiles) :
    s.object = some (.file ⟨s.ofIdx - 1, h⟩) :=
  ProcFd.object_eq_file.2 (show s.ofIdx = s.ofIdx - 1 + 1 by omega)

theorem object_ne_file (h : ¬ s.ofIdx - 1 < vfsMaxOpenFiles) :
    ¬ (s.object = some a ∧ a.isFile = true) := by
  rintro ⟨hobj, ha⟩
  cases a with
  | pipeEnd id w => cases ha
  | file i =>
    have := ProcFd.object_eq_file.1 hobj
    omega

/-- The counter of the file that a slot refers to changes. -/
theorem count_setCount_of_object {i : Fin vfsMaxOpenFiles} (hs : s.object = some (.file i))
    (f : Nat → Nat) : (S.setCount i (f (S.openFiles i).refcount)).count a
      = if s.object = some a ∧ a.isFile = true then f (S.count a) else S.count a := by
  rw [count_setCount]
  by_cases ha : a = .file i
  · subst ha
    rw [update_self, if_pos ⟨hs, rfl⟩]
    rfl
  · rw [update_of_ne ha, if_neg]
    rintro ⟨hobj, -⟩
    exact ha (some.inj (hobj.symm.trans hs))

theorem count_bumpRaw (h0 : s.ofIdx ≠ 0) :
    (S.bumpRaw (s.ofIdx - 1)).count a
      = if s.object = some a ∧ a.isFile = true then (S.count a + 1) % 2 ^ 32
        else S.count a := by
  rw [bumpRaw]
  split
  · next h => exact count_setCount_of_object (object_of_raw h0 h) fun n => (n + 1) % 2 ^ 32
  · next h =>
    rw [if_neg (object_ne_file h)]
    rfl

@[simp] theorem live_bumpRaw (raw : Nat) : (S.bumpRaw raw).live = S.live := by
  rw [bumpRaw]
  split <;> rfl

@[simp] theorem ref_bumpRaw (raw : Nat) : (S.bumpRaw raw).ref = S.ref := by
  rw [bumpRaw]
  split <;> rfl

/-- A live slot that referred to nothing stays so when it is emptied. -/
theorem update_ref_none (hq : S.live p = some q) (h : (q.fds fd).object = none) :
    update S.ref (p, fd) none = S.ref := by
  rw [← h, ← ref_of_live hq, update_eq_self]

/-! ## Only `open_files` changes -/

/-- Every counter fits its word. -/
def Bounded (S : Files) : Prop := ∀ a, S.count a < 2 ^ 32

theorem Bounded.setFile (h : Bounded S) {i : Fin vfsMaxOpenFiles} {f : OpenFile}
    (hf : f.refcount < 2 ^ 32) : Bounded (S.setFile i f) := by
  intro a
  rw [count_setFile]
  by_cases ha : a = .file i
  · subst ha
    rwa [update_self]
  · rw [update_of_ne ha]
    exact h a

/-- At most the counts of `open_files` are different, and they still fit their words. -/
structure Recounted (S S' : Files) : Prop where
  procs : S'.procs = S.procs
  pipes : S'.pipes = S.pipes
  stray : S'.stray = S.stray
  bounded : Bounded S → Bounded S'

namespace Recounted

theorem refl (S : Files) : Recounted S S := ⟨rfl, rfl, rfl, id⟩

theorem trans {S1 S2 : Files} (h : Recounted S S1) (h' : Recounted S1 S2) : Recounted S S2 :=
  ⟨h'.procs.trans h.procs, h'.pipes.trans h.pipes, h'.stray.trans h.stray,
    fun hb => h'.bounded (h.bounded hb)⟩

theorem live (h : Recounted S S') : S'.live = S.live := by
  funext p
  rw [Files.live, Files.live, h.procs]

theorem ref (h : Recounted S S') : S'.ref = S.ref := by
  funext x
  rw [Files.ref, Files.ref, h.live]

theorem setCount {i : Fin vfsMaxOpenFiles} {n : Nat} (hn : Bounded S → n < 2 ^ 32) :
    Recounted S (S.setCount i n) :=
  ⟨rfl, rfl, rfl, fun hb => hb.setFile (hn hb)⟩

theorem incref (raw : Nat) : Recounted S (S.incref raw) := by
  simp only [Files.incref]
  split
  · split
    · exact setCount fun _ => Nat.mod_lt _ (by decide)
    · exact refl S
  · exact refl S

theorem inheritFd (s : ProcFd) : Recounted S (S.inheritFd s) := by
  rw [Files.inheritFd]
  split
  · split
    · exact incref _
    · exact refl S
  · exact refl S

/-- The loop of `sys_fork` over the descriptors of the parent. -/
theorem inherit (fds : FdTable) (l : List (Fin maxOpenFiles)) :
    Recounted S (l.foldl (fun S i => S.inheritFd (fds i)) S) := by
  induction l generalizing S with
  | nil => exact refl S
  | cons i l ih => exact (inheritFd (fds i)).trans ih

end Recounted

/-- `__vfs_close_locked` counts the file of a slot in use down and empties the slot. -/
theorem vfsClose_eq (h0 : (q.fds fd).ofIdx ≠ 0) :
    ∃ S1, Recounted S S1 ∧ S.vfsClose p q fd = S1.setFd p fd .empty ∧
      ∀ a, S1.count a = if (q.fds fd).object = some a ∧ a.isFile = true then S.count a - 1
        else S.count a := by
  simp only [vfsClose, if_neg h0]
  split
  · next h =>
    have hobj := object_of_raw h0 h
    split
    · refine ⟨_, .setCount fun hb => ?_, rfl, fun a => count_setCount_of_object hobj fun n => n - 1⟩
      exact lt_of_le_of_lt (Nat.sub_le ..) (hb (.file _))
    · -- A count of zero stays zero.
      refine ⟨S, .refl S, rfl, fun a => ?_⟩
      split
      · next ha =>
        have he : a = .file ⟨(q.fds fd).ofIdx - 1, h⟩ := some.inj (ha.1.symm.trans hobj)
        subst he
        show (S.openFiles _).refcount = (S.openFiles _).refcount - 1
        omega
      · rfl
  · next h => exact ⟨S, .refl S, rfl, fun a => (if_neg (object_ne_file h)).symm⟩

theorem vfsClose_of_zero (h0 : (q.fds fd).ofIdx = 0) : S.vfsClose p q fd = S := if_pos h0

theorem ref_vfsClose (hq : S.live p = some q) (fd : Fin maxOpenFiles) :
    (S.vfsClose p q fd).ref = update S.ref (p, fd) none := by
  by_cases h0 : (q.fds fd).ofIdx = 0
  · rw [vfsClose_of_zero h0, update_ref_none hq (ProcFd.object_of_zero h0)]
  · obtain ⟨S1, hr, heq, -⟩ := vfsClose_eq h0
    rw [heq, ref_setFd ((congrFun hr.live p).trans hq), hr.ref, ProcFd.object_empty]

theorem count_vfsClose (fd : Fin maxOpenFiles) :
    (S.vfsClose p q fd).count a
      = if (q.fds fd).object = some a ∧ a.isFile = true then S.count a - 1
        else S.count a := by
  by_cases h0 : (q.fds fd).ofIdx = 0
  · rw [vfsClose_of_zero h0, ProcFd.object_of_zero h0, if_neg (by simp)]
  · obtain ⟨S1, -, heq, hcount⟩ := vfsClose_eq h0
    rw [heq]
    exact hcount a

/-- The table of the process after a close: the slot is empty. -/
theorem live_vfsClose (hq : S.live p = some q) (h0 : (q.fds fd).ofIdx ≠ 0) :
    (S.vfsClose p q fd).live p = some { q with fds := update q.fds fd .empty } := by
  obtain ⟨S1, hr, heq, -⟩ := vfsClose_eq h0
  rw [heq]
  exact live_setFd ((congrFun hr.live p).trans hq) fd .empty

theorem toInt_ofNat_of_lt {n : Nat} (h : n < 2 ^ 31) : (BitVec.ofNat 32 n).toInt = n := by
  rw [toInt_eq_toNat_of_lt, toNat_ofNat, Nat.mod_eq_of_lt (by omega)]
  rw [toNat_ofNat]
  omega

/-- A slot that `sys_pipe` takes (pipe.c:263). -/
def PipeSlot (q : FdProc) (i : Fin maxOpenFiles) : Prop :=
  3 ≤ i.val ∧ (q.fds i).ofIdx = 0 ∧ (q.fds i).flags = 0

instance (q : FdProc) (i : Fin maxOpenFiles) : Decidable (PipeSlot q i) :=
  inferInstanceAs (Decidable (_ ∧ _ ∧ _))

theorem pipeSlots_cons {rd wr : Fin maxOpenFiles} {rest : List (Fin maxOpenFiles)}
    (h : (finRange maxOpenFiles).filter (fun i => decide (PipeSlot q i)) = rd :: wr :: rest) :
    rd ≠ wr ∧ PipeSlot q rd ∧ PipeSlot q wr := by
  have hmem : ∀ i ∈ rd :: wr :: rest, PipeSlot q i := by
    intro i hi
    rw [← h, mem_filter] at hi
    exact of_decide_eq_true hi.2
  refine ⟨?_, hmem rd mem_cons_self, hmem wr (.tail _ mem_cons_self)⟩
  have hnodup : (rd :: wr :: rest).Nodup := h ▸ (nodup_finRange _).filter _
  rintro rfl
  exact (nodup_cons.1 hnodup).1 mem_cons_self

/-- What `pipe_allocate_id` returns for the buffer of a new pipe. -/
def newPipeId (S : Files) : Int := (S.pipes.allocateId (.createBuffer pipeBuf)).2

/-- `sys_pipe` makes a pipe with the registry `r`: two empty slots become its ends. As
long as the identifiers are below `2^31` the registry is known. -/
structure PipeMade (S : Files) (p : Fin maxProcesses) (q : FdProc) (bufOk : Bool) (copied : Int)
    (rd wr : Fin maxOpenFiles) (r : PipeRegistry) : Prop where
  ne : rd ≠ wr
  rdSlot : PipeSlot q rd
  wrSlot : PipeSlot q wr
  args : bufOk = true ∧ 0 ≤ copied ∧ 0 ≤ S.newPipeId
  eq : (S.sysPipe p q bufOk copied).1 = (({ S with pipes := r } : Files).setFd p rd
    ⟨(pipeFdBase + S.newPipeId.toNat) % 2 ^ 32, oRdonly⟩).setFd p wr
    ⟨(pipeFdBase + S.newPipeId.toNat) % 2 ^ 32, oWronly⟩
  ends : ∀ id w, r.endCount id w ≤ 1 ∨ r.endCount id w = S.pipes.endCount id w
  reg : S.pipes.nextPipeId < 2 ^ 31 → S.newPipeId.toNat = S.pipes.nextPipeId ∧
    r = ⟨update S.pipes.pipes S.pipes.nextPipeId
      (some { Pipe.createBuffer pipeBuf with readers := 1, writers := 1 }), S.pipes.nextPipeId + 1⟩

/-- What `sys_pipe` can do: at most the registry changes, or a pipe is made. -/
theorem sysPipe_cases (S : Files) (p : Fin maxProcesses) (q : FdProc) (bufOk : Bool)
    (copied : Int) :
    (∃ r, (S.sysPipe p q bufOk copied).1 = { S with pipes := r } ∧
      (∀ id w, r.endCount id w ≤ 1 ∨ r.endCount id w = S.pipes.endCount id w) ∧
      (S.pipes.nextPipeId < 2 ^ 31 → S.pipes.pipes S.pipes.nextPipeId = none →
        r.pipes = S.pipes.pipes ∧ S.pipes.nextPipeId ≤ r.nextPipeId)) ∨
    ∃ rd wr r, PipeMade S p q bufOk copied rd wr r := by
  by_cases hbuf : bufOk = false
  · rw [sysPipe, if_pos hbuf]
    exact .inl ⟨S.pipes, rfl, fun _ _ => .inr rfl, fun _ _ => ⟨rfl, le_rfl⟩⟩
  by_cases hreg : (S.pipes.pipes S.pipes.nextPipeId).isSome
  · simp only [sysPipe, if_neg hbuf, allocateId, if_pos hreg]
    refine .inl ⟨_, rfl, fun id w => .inr rfl, fun _ hnone => ?_⟩
    rw [hnone] at hreg
    cases hreg
  have hid : S.newPipeId = (BitVec.ofNat 32 S.pipes.nextPipeId).toInt := by
    simp only [newPipeId, allocateId, if_neg hreg]
  have hnext : S.pipes.nextPipeId < 2 ^ 31 → S.newPipeId.toNat = S.pipes.nextPipeId := by
    intro hlt
    rw [hid, toInt_ofNat_of_lt hlt, Int.toNat_natCast]
  -- The registry with a buffer that has no ends yet.
  have halloc : ∀ {r : PipeRegistry}, r.pipes = update S.pipes.pipes
      S.pipes.nextPipeId (some (.createBuffer pipeBuf)) →
      ∀ id w, r.endCount id w ≤ 1 ∨ r.endCount id w = S.pipes.endCount id w := by
    intro r hr id w
    have hset : r.endCount id w
        = (S.pipes.set S.pipes.nextPipeId (.createBuffer pipeBuf)).endCount id w :=
      endCount_congr (congrFun hr id)
    rw [hset, endCount_set]
    split
    · exact .inl ((Pipe.ends_eq_zero ⟨rfl, rfl⟩ w).trans_le (Nat.zero_le 1))
    · exact .inr rfl
  simp only [sysPipe, if_neg hbuf, allocateId, if_neg hreg, ← hid]
  split
  · next hneg =>
    refine .inl ⟨_, rfl, fun id w => ?_, fun hlt _ => ?_⟩
    · rw [endCount_set]
      split
      · exact .inl ((Pipe.ends_eq_zero ⟨rfl, rfl⟩ w).trans_le (Nat.zero_le 1))
      · exact halloc rfl id w
    · rw [hid, toInt_ofNat_of_lt hlt] at hneg
      omega
  next hpos =>
  -- A failure takes the pipe out of the registry again.
  have hfail : ∀ r : PipeRegistry, r.pipes = update S.pipes.pipes
      S.pipes.nextPipeId (some (.createBuffer pipeBuf)) →
      r.nextPipeId = (S.pipes.nextPipeId + 1) % 2 ^ 32 →
      (∀ id w, (r.remove S.newPipeId.toNat).endCount id w ≤ 1 ∨
        (r.remove S.newPipeId.toNat).endCount id w = S.pipes.endCount id w) ∧
      (S.pipes.nextPipeId < 2 ^ 31 → S.pipes.pipes S.pipes.nextPipeId = none →
        (r.remove S.newPipeId.toNat).pipes = S.pipes.pipes ∧
          S.pipes.nextPipeId ≤ r.nextPipeId) := by
    refine fun r hr hn => ⟨fun id w => ?_, fun hlt hnone => ?_⟩
    · rw [endCount_remove]
      split
      · exact .inl (Nat.zero_le 1)
      · exact halloc hr id w
    · rw [PipeRegistry.remove, hr, hnext hlt, update_idem]
      refine ⟨?_, by omega⟩
      rw [← hnone, update_eq_self]
  split
  · next rd wr rest hslots =>
    split
    · exact .inl ⟨_, rfl, hfail _ rfl rfl⟩
    next hcopied =>
    obtain ⟨hne, hrd, hwr⟩ := pipeSlots_cons hslots
    refine .inr ⟨rd, wr, PipeRegistry.set ⟨update S.pipes.pipes S.pipes.nextPipeId
      (some (.createBuffer pipeBuf)), (S.pipes.nextPipeId + 1) % 2 ^ 32⟩ S.newPipeId.toNat
      { Pipe.createBuffer pipeBuf with readers := 1, writers := 1 }, hne, hrd, hwr,
      ⟨Bool.not_eq_false _ ▸ hbuf, not_lt.1 hcopied, not_lt.1 hpos⟩, ?_, fun id w => ?_,
      fun hlt => ⟨hnext hlt, ?_⟩⟩
    · simp only [sysPipe, if_neg hbuf, allocateId, if_neg hreg, ← hid, if_neg hpos,
        hslots, if_neg hcopied]
    · rw [endCount_set]
      split
      · cases w <;> exact .inl (le_refl 1)
      · exact halloc rfl id w
    · simp only [PipeRegistry.set, hnext hlt, update_idem]
      congr 1
      omega
  · exact .inl ⟨_, rfl, hfail _ rfl rfl⟩

/-! ## What an operation leaves -/

/-- Every slot of a live process meets a condition. -/
def Slots (P : Fin maxProcesses → Fin maxOpenFiles → ProcFd → Prop) (S : Files) : Prop :=
  ∀ ⦃p q⦄, S.live p = some q → ∀ fd, P p fd (q.fds fd)

/-- What an operation leaves: every slot meets `P` or is as it was, the counters still fit
their words, and the identifiers of pipes are still known, if `G` holds. -/
structure Change (P : Fin maxProcesses → Fin maxOpenFiles → ProcFd → Prop) (G : Prop)
    (S S' : Files) : Prop where
  slots : Slots (fun p fd s => P p fd s ∨ ∃ q, S.live p = some q ∧ s = q.fds fd) S'
  bounded : Bounded S → Bounded S'
  ids : G → S.pipes.Ids → S'.pipes.Ids

namespace Change

variable {P : Fin maxProcesses → Fin maxOpenFiles → ProcFd → Prop} {G : Prop} {S1 S2 : Files}

theorem refl (S : Files) : Change P G S S :=
  ⟨fun _ q hq _ => .inr ⟨q, hq, rfl⟩, id, fun _ => id⟩

theorem trans (h : Change P G S S1) (h' : Change P G S1 S2) : Change P G S S2 := by
  refine ⟨fun p q hq fd => ?_, fun hb => h'.bounded (h.bounded hb),
    fun hg hi => h'.ids hg (h.ids hg hi)⟩
  obtain hs | ⟨q1, hq1, he⟩ := h'.slots hq fd
  · exact .inl hs
  · rw [he]
    exact h.slots hq1 fd

theorem of_recounted (h : Recounted S S') : Change P G S S' := by
  refine ⟨fun p q hq fd => .inr ⟨q, ?_, rfl⟩, h.bounded, fun _ hi => ?_⟩
  · rwa [h.live] at hq
  · rwa [h.pipes]

theorem setProc {x : Option FdProc} (hx : ∀ q, x = some q → q.exited = false → ∀ fd,
    P p fd (q.fds fd) ∨ ∃ q0, S.live p = some q0 ∧ q.fds fd = q0.fds fd) :
    Change P G S (S.setProc p x) := by
  refine ⟨fun p' q hq => ?_, fun hb => hb, fun _ hi => hi⟩
  obtain rfl | hp := eq_or_ne p' p
  · rw [live_setProc_self, filter_eq_some_iff] at hq
    exact hx q hq.1 (by simpa using hq.2)
  · rw [live_setProc_of_ne hp] at hq
    exact fun fd => .inr ⟨q, hq, rfl⟩

theorem setFd (hs : P p fd s) : Change P G S (S.setFd p fd s) := by
  refine setProc fun q hq he fd' => ?_
  obtain ⟨q0, hq0, rfl⟩ := map_eq_some_iff.1 hq
  obtain rfl | hfd := eq_or_ne fd' fd
  · exact .inl (by simpa only [update_self] using hs)
  · exact .inr ⟨q0, live_of_procs hq0 he, by simp only [update_of_ne hfd]⟩

theorem setPipes {r : PipeRegistry}
    (hr : ∀ id w, r.endCount id w < 2 ^ 32 ∨ r.endCount id w = S.pipes.endCount id w)
    (hi : G → S.pipes.Ids → r.Ids) : Change P G S { S with pipes := r } := by
  refine ⟨(refl (G := G) S).slots, fun hb a => ?_, hi⟩
  cases a with
  | file i => exact hb (.file i)
  | pipeEnd id w =>
    refine (hr id w).elim (fun h => h) fun h => ?_
    show r.endCount id w < 2 ^ 32
    rw [h]
    exact hb (.pipeEnd id w)

theorem bumpRaw (raw : Nat) : Change P G S (S.bumpRaw raw) := by
  rw [Files.bumpRaw]
  split
  · exact of_recounted (.setCount fun _ => Nat.mod_lt _ (by decide))
  · exact ⟨(refl (G := G) S).slots, fun hb => hb, fun _ hi => hi⟩

theorem vfsClose (hempty : P p fd .empty) : Change P G S (S.vfsClose p q fd) := by
  by_cases h0 : (q.fds fd).ofIdx = 0
  · rw [vfsClose_of_zero h0]
    exact refl S
  · obtain ⟨S1, hr, heq, -⟩ := vfsClose_eq h0
    rw [heq]
    exact (of_recounted hr).trans (setFd hempty)

theorem sysClose (hempty : P p fd .empty) : Change P G S (S.sysClose p q fd).1 := by
  rw [Files.sysClose]
  cases (q.fds fd).kind with
  | console => exact setFd hempty
  | pipe id =>
    refine (setFd hempty).trans (setPipes (fun id' w' => ?_) fun _ hi => hi.closeById)
    exact endCount_closeById_lt id' w'
  | vfs => exact vfsClose hempty
  | invalid => exact refl S

/-- `vfs_open` fills one slot at most. -/
theorem vfsOpen {flags : Word} {resolved : Except Int (Nat × Nat)}
    (hs : ∀ (i : Fin vfsMaxOpenFiles) fd, P p fd ⟨i.val + 1, flags⟩) :
    Change P G S (S.vfsOpen p q flags resolved).1 := by
  have hfile : ∀ {i f}, f.refcount < 2 ^ 32 → Change P G S (S.setFile i f) := fun hf =>
    of_recounted ⟨rfl, rfl, rfl, fun hb => hb.setFile hf⟩
  simp only [Files.vfsOpen]
  split
  · exact refl S
  split
  · exact refl S
  cases resolved with
  | error e => exact refl S
  | ok r =>
    cases S.freeOpenFile with
    | none => exact refl S
    | some i =>
      refine (hfile (i := i) (f := ⟨r.1, r.2, flags, 1⟩) (show 1 < 2 ^ 32 by decide)).trans ?_
      cases findFreeFd q.fds with
      | none => exact of_recounted (.setCount fun _ => by decide)
      | some fd => exact setFd (hs i fd)

theorem sysDup (hs : ∀ new, P p new (q.fds fd)) : Change P G S (S.sysDup p q fd).1 := by
  rw [Files.sysDup]
  split
  · split
    · exact setFd (hs _)
    · exact refl S
  rw [Files.vfsDup]
  split
  · exact refl S
  split
  · exact refl S
  · exact (setFd (hs _)).trans (bumpRaw _)

/-- `sys_dup2` empties `new` and then fills it. -/
theorem sysDup2 {old new : Fin maxOpenFiles} (hempty : P p new .empty)
    (hs : P p new (q.fds old)) : Change P G S (S.sysDup2 p q old new).1 := by
  rw [Files.sysDup2]
  split
  · have hclosed : Change P G S (if (q.fds new).ofIdx ≠ 0 then (S.sysClose p q new).1 else S) := by
      split
      · exact sysClose hempty
      · exact refl S
    refine hclosed.trans (setFd ?_)
    · split
      · exact hempty
      · exact hs
  rw [Files.vfsDup2]
  split
  · exact refl S
  split
  · exact refl S
  refine trans ?_ ((setFd hs).trans (bumpRaw _))
  split
  · exact vfsClose hempty
  · exact refl S

/-- `sys_pipe` fills two free slots with the code of the new pipe. -/
theorem sysPipe {bufOk : Bool} {copied : Int}
    (hs : bufOk = true → 0 ≤ copied → (∃ rd wr, rd ≠ wr ∧ PipeSlot q rd ∧ PipeSlot q wr) →
      0 ≤ S.newPipeId → ∀ fd flags, flags = oRdonly ∨ flags = oWronly → P p fd
        ⟨(pipeFdBase + S.newPipeId.toNat) % 2 ^ 32, flags⟩)
    (hlt : G → S.pipes.nextPipeId < 2 ^ 31) : Change P G S (S.sysPipe p q bufOk copied).1 := by
  have hsmall : ∀ {n m : Nat}, n ≤ 1 ∨ n = m → n < 2 ^ 32 ∨ n = m := fun h =>
    h.imp_left fun h1 => lt_of_le_of_lt h1 (by decide)
  obtain ⟨r, hr, hends, hreg⟩ | ⟨rd, wr, r, hmade⟩ := sysPipe_cases S p q bufOk copied
  · rw [hr]
    refine setPipes (fun id w => hsmall (hends id w)) fun hg hi => ?_
    obtain ⟨hpipes, hnext⟩ := hreg (hlt hg) hi.none_next
    exact hi.congr hpipes hnext
  · rw [hmade.eq]
    obtain ⟨hbuf, hcopied, hid⟩ := hmade.args
    have hslot := hs hbuf hcopied ⟨rd, wr, hmade.ne, hmade.rdSlot, hmade.wrSlot⟩ hid
    refine (setPipes (fun id w => hsmall (hmade.ends id w)) fun hg hi => ?_).trans
      ((setFd (hslot _ _ (.inl rfl))).trans (setFd (hslot _ _ (.inr rfl))))
    rw [(hmade.reg (hlt hg)).2]
    refine hi.update (Nat.le_succ _) (Nat.lt_succ_self _) ?_
    rintro P ⟨⟩
    exact ⟨rfl, true, Nat.one_pos⟩

theorem pipeIo {op : PipeRegistry → Nat → PipeRegistry × PipeResult}
    (hop : ∀ r id, SameEnds r (op r id).1) : Change P G S (S.pipeIo q fd op) := by
  rw [Files.pipeIo]
  split
  · exact setPipes (fun _ _ => .inr (hop _ _).endCount) fun _ hi => hi.sameEnds (hop _ _)
  · exact refl S

theorem processCreate {stdio : Bool} (hs : ∀ p fd, P p fd (newFds stdio fd)) :
    Change P G S (S.processCreate stdio) := by
  rw [Files.processCreate]
  split
  · exact refl S
  · refine setProc ?_
    rintro q ⟨⟩ - fd
    exact .inl (hs _ fd)

/-- A fork copies the slots of the parent. -/
theorem sysFork (hs : ∀ child fd, P child fd (q.fds fd)) {early : Bool} :
    Change P G S (S.sysFork p q early) := by
  rw [Files.sysFork]
  split
  · exact refl S
  split
  · exact refl S
  refine trans (of_recounted (.inherit q.fds (finRange maxOpenFiles))) ?_
  simp only
  split
  · exact refl _
  · refine setProc ?_
    rintro q' ⟨⟩ - fd
    exact .inl (hs _ fd)

theorem execFd (hempty : ∀ fd, P p fd .empty) : Change P G S (S.execFd p fd) := by
  rw [Files.execFd]
  split
  · exact refl S
  split
  · exact vfsClose (hempty fd)
  · exact refl S

theorem processExit : Change P G S (S.processExit p q) := by
  rw [Files.processExit]
  split
  · exact refl S
  · refine setProc ?_
    rintro q' ⟨⟩ he
    cases he

theorem processTerminate : Change P G S (S.processTerminate p) := by
  rw [Files.processTerminate]
  split
  · split
    · refine setProc ?_
      rintro q' ⟨⟩
    · exact refl S
  · exact refl S

end Change

/-- What an event puts in a slot of a process. -/
def Puts (S : Files) : FdEvent → Fin maxProcesses → Fin maxOpenFiles → ProcFd → Prop
  | .create stdio => fun _ fd s => s = newFds stdio fd
  | .openFile p _ _ => fun p' _ s => p' = p ∧ ∃ i : Fin vfsMaxOpenFiles, s.ofIdx = i.val + 1
  | .dup p fd => fun p' _ s => p' = p ∧ ∃ q, S.live p = some q ∧ s = q.fds fd
  | .dup2 p old _ => fun p' _ s => p' = p ∧ ∃ q, S.live p = some q ∧ s = q.fds old
  | .pipe p bufOk copied => fun p' _ s =>
    (p' = p ∧ bufOk = true ∧ 0 ≤ copied ∧ ∃ q, S.live p = some q ∧
      ∃ rd wr, rd ≠ wr ∧ PipeSlot q rd ∧ PipeSlot q wr) ∧
    0 ≤ S.newPipeId ∧ s.ofIdx = (pipeFdBase + S.newPipeId.toNat) % 2 ^ 32 ∧
    (s.flags = oRdonly ∨ s.flags = oWronly)
  | .fork p _ => fun _ fd s => ∃ q, S.live p = some q ∧ s = q.fds fd
  | .close _ _ | .read _ _ _ _ _ | .write _ _ _ _ _ _ | .exec _ | .exit _ | .reap _ =>
    fun _ _ _ => False

/-- `sys_pipe` has an identifier left that is not a negative `int`. -/
def IdLeft (S : Files) : FdEvent → Prop
  | .pipe p bufOk _ => ∀ q, S.live p = some q → bufOk = true → S.pipes.nextPipeId < 2 ^ 31
  | _ => True

/-- After a step a slot is empty, what the event puts there, or as it was. -/
theorem change_step (S : Files) (ev : FdEvent) :
    Change (fun p fd s => s = .empty ∨ S.Puts ev p fd s) (S.IdLeft ev) S (S.fdStep ev) := by
  have hby : ∀ {p : Fin maxProcesses} {act : FdProc → Files} {P} {G : Prop},
      (∀ q, S.live p = some q → Change P G S (act q)) → Change P G S (S.doBy p act) := by
    intro p act P G hact
    rw [doBy]
    split
    · exact .refl S
    · next q hq => exact hact q hq
  cases ev with
  | create stdio => exact .processCreate fun p fd => .inr rfl
  | openFile p flags resolved => exact hby fun q _ => .vfsOpen fun i fd => .inr ⟨rfl, i, rfl⟩
  | close p fd => exact hby fun q _ => .sysClose (.inl rfl)
  | dup p fd => exact hby fun q hq => .sysDup fun new => .inr ⟨rfl, q, hq, rfl⟩
  | dup2 p old new => exact hby fun q hq => .sysDup2 (.inl rfl) (.inr ⟨rfl, q, hq, rfl⟩)
  | pipe p bufOk copied =>
    refine hby fun q hq => ?_
    cases bufOk with
    | false => exact .refl S
    | true =>
      exact .sysPipe (fun hbuf hcopied hroom hid fd flags hf =>
        .inr ⟨⟨rfl, hbuf, hcopied, q, hq, hroom⟩, hid, rfl, hf⟩) fun hg => hg q hq rfl
  | read p fd count bufOk signal =>
    exact hby fun q _ => .pipeIo fun _ _ => sameEnds_readById
  | write p fd bytes bufOk copied signal =>
    exact hby fun q _ => .pipeIo fun _ _ => sameEnds_writeById
  | fork p early => exact hby fun q hq => .sysFork fun child fd => .inr ⟨q, hq, rfl⟩
  | exec p =>
    exact foldlRecOn _ _ (Change.refl S) fun S' hS i _ => hS.trans (.execFd fun _ => .inl rfl)
  | exit p => exact hby fun q hq => .processExit
  | reap p => exact .processTerminate

theorem Bounded.step (h : Bounded S) (ev : FdEvent) : Bounded (S.fdStep ev) :=
  (change_step S ev).bounded h

/-! ## The encoding of the slots -/

def Sane (S : Files) : Prop :=
  ∀ ⦃p q⦄, S.live p = some q → ∀ fd, (q.fds fd).Sane

namespace Sane

theorem empty : ProcFd.empty.Sane := .inl (Nat.zero_le _)

theorem pipeSlot {id : Nat} (hid : id < 2 ^ 31) (hidx : s.ofIdx = (pipeFdBase + id) % 2 ^ 32)
    (hflags : s.flags = oRdonly ∨ s.flags = oWronly) : s.Sane := by
  refine .inr ⟨?_, ?_⟩
  · rw [hidx, pipeFdBase]
    omega
  · obtain hf | hf := hflags
    · rw [hf]
      decide
    · rw [hf]
      decide

theorem newFds (stdio : Bool) (i : Fin maxOpenFiles) : (Files.newFds stdio i).Sane := by
  rw [Files.newFds]
  split
  · split
    · exact .inr (by decide)
    split
    · exact .inr (by decide)
    · exact empty
  · exact empty

theorem execFd (h : Sane S) : Sane (S.execFd p fd) := by
  have hchange : Change (fun _ _ s => s = .empty) True S (S.execFd p fd) := .execFd fun _ => rfl
  intro p' q' hq' fd'
  obtain he | ⟨q, hq, he⟩ := hchange.slots hq' fd'
  · rw [he]
    exact empty
  · rw [he]
    exact h hq fd'

/-- The encoding holds in every run, whatever the processes do. -/
theorem step (h : Sane S) (ev : FdEvent) : Sane (S.fdStep ev) := by
  intro p q' hq' fd
  obtain (he | hputs) | ⟨q, hq, he⟩ := (change_step S ev).slots hq' fd
  · rw [he]
    exact empty
  rotate_left
  · rw [he]
    exact h hq fd
  cases ev with
  | create stdio => exact hputs ▸ newFds stdio fd
  | openFile p flags resolved =>
    obtain ⟨-, i, hi⟩ := hputs
    exact .inl (hi ▸ i.isLt)
  | dup p old | dup2 p old new =>
    obtain ⟨-, q, hq, he⟩ := hputs
    exact he ▸ h hq old
  | pipe p bufOk copied =>
    obtain ⟨-, -, hidx, hflags⟩ := hputs
    exact pipeSlot allocateId_lt hidx hflags
  | fork p early =>
    obtain ⟨q, hq, he⟩ := hputs
    exact he ▸ h hq fd
  | close | read | write | exec | exit | reap => exact hputs.elim

end Sane

theorem sane_boot : Sane boot := by
  intro p q hq fd
  obtain ⟨hq, -⟩ := procs_of_live hq
  simp only [boot] at hq
  split at hq
  · cases hq
    exact Sane.newFds false fd
  · cases hq

end Files

end UnixOs
