import UnixOs.Fs.DescriptorCounts

/-!
# What a descriptor is taken for

One number, `of_idx`, tells a file, the console and every pipe apart. Beside the tables
of descriptors a run is followed by what put each descriptor there: `console_open_stdio`,
`vfs_open`, or `sys_pipe` with the identifier it was given; a copy by `dup`, `dup2` or
`fork` is what it was copied from.

- `FdOrigin`: what a descriptor was installed as;
- `KindsTell`: `vfs_fd_kind` and `is_pipe_fd` give this back;
- `TakesConsoleCode`: the one identifier whose number is the console's.
-/

namespace UnixOs

open Function List Machine Option

/-- `is_pipe_fd` (pipe.c:301). -/
def ProcFd.isPipeFd (s : ProcFd) : Option Nat :=
  if pipeFdBase ≤ s.ofIdx ∧ s.ofIdx ≠ consoleInodeMagic then some (s.ofIdx - pipeFdBase) else none

inductive FdOrigin where
  | console
  | file
  | pipe (id : Nat)
  deriving DecidableEq

namespace FdOrigin

def kind : FdOrigin → FdKind
  | .console => .console
  | .file => .vfs
  | .pipe id => .pipe id

def pipeId : FdOrigin → Option Nat
  | .console | .file => none
  | .pipe id => some id

end FdOrigin

/-- What put each descriptor there. -/
abbrev Origins := Fin maxProcesses → Fin maxOpenFiles → Option FdOrigin

namespace Files

/-- A descriptor of a live process. -/
def slot (S : Files) (p : Fin maxProcesses) (fd : Fin maxOpenFiles) : Option ProcFd :=
  (S.live p).map fun q => q.fds fd

/-- What an event installs in the slots that it changes. -/
def installs (S : Files) (O : Origins) : FdEvent → Fin maxOpenFiles → Option FdOrigin
  | .create _ => fun _ => some .console
  | .openFile _ _ _ => fun _ => some .file
  | .dup p fd => fun _ => O p fd
  | .dup2 p old _ => fun _ => O p old
  | .pipe _ _ _ => fun _ => some (.pipe (S.pipes.allocateId (.createBuffer pipeBuf)).2.toNat)
  | .fork p _ => fun fd => O p fd
  | .close _ _ | .read _ _ _ _ _ | .write _ _ _ _ _ _ | .exec _ | .exit _ | .reap _ => fun _ => none

/-- A step together with what it installs. -/
def originStep (x : Files × Origins) (ev : FdEvent) : Files × Origins :=
  (x.1.fdStep ev, fun p fd =>
    if (x.1.fdStep ev).slot p fd = x.1.slot p fd then x.2 p fd else x.1.installs x.2 ev fd)

def originBoot : Files × Origins := (boot, fun _ _ => none)

/-- Every descriptor in use is taken for what it was installed as. -/
def KindsTell (x : Files × Origins) : Prop :=
  ∀ ⦃p q⦄, x.1.live p = some q → ∀ fd, (q.fds fd).ofIdx ≠ 0 →
    ∃ o, x.2 p fd = some o ∧ (q.fds fd).kind = o.kind ∧ (q.fds fd).isPipeFd = o.pipeId

/-- A `sys_pipe` that goes through takes the identifier, an `uint32_t`, whose number
`PIPE_FD_BASE + id` is `CONSOLE_INODE_MAGIC`. -/
def TakesConsoleCode (S : Files) : FdEvent → Prop
  | .pipe p bufOk copied =>
    bufOk = true ∧ 0 ≤ copied ∧
      (∃ q, S.live p = some q ∧ ∃ rd wr, rd ≠ wr ∧ PipeSlot q rd ∧ PipeSlot q wr) ∧
      S.pipes.pipes S.pipes.nextPipeId = none ∧
      pipeFdBase + S.pipes.nextPipeId % 2 ^ 32 = consoleInodeMagic
  | _ => False

end Files

namespace FdOrigin

/-- The numbers that stand for an origin. -/
def Encodes : FdOrigin → Nat → Prop
  | .console, n => n = consoleInodeMagic
  | .file, n => 1 ≤ n ∧ n ≤ vfsMaxOpenFiles
  | .pipe id, n => n = pipeFdBase + id ∧ n ≠ consoleInodeMagic

variable {o : FdOrigin} {s : ProcFd}

theorem Encodes.kind_eq (h : o.Encodes s.ofIdx) : s.kind = o.kind := by
  cases o with
  | console => exact if_pos h
  | file => exact ProcFd.kind_of_small (by have := h.1; omega) h.2
  | pipe id =>
    have hbase : pipeFdBase ≤ s.ofIdx := by rw [h.1]; omega
    rw [ProcFd.kind, if_neg h.2, if_pos hbase, h.1, Nat.add_sub_cancel_left]
    rfl

theorem Encodes.isPipeFd_eq (h : o.Encodes s.ofIdx) : s.isPipeFd = o.pipeId := by
  rw [ProcFd.isPipeFd]
  cases o with
  | console => exact if_neg fun hs => hs.2 h
  | file =>
    refine if_neg fun hs => ?_
    have hle : pipeFdBase ≤ vfsMaxOpenFiles := hs.1.trans h.2
    exact absurd hle (by decide)
  | pipe id =>
    have hbase : pipeFdBase ≤ s.ofIdx := by rw [h.1]; omega
    rw [if_pos ⟨hbase, h.2⟩, h.1, Nat.add_sub_cancel_left]
    rfl

end FdOrigin

namespace Files

variable {S : Files} {O : Origins} {ev : FdEvent} {p : Fin maxProcesses} {q : FdProc}
  {fd : Fin maxOpenFiles}

/-! ## Every step keeps the encoding -/

/-- Every descriptor in use has the number of what it was installed as. -/
def Tagged (x : Files × Origins) : Prop :=
  ∀ ⦃p q⦄, x.1.live p = some q → ∀ fd, (q.fds fd).ofIdx ≠ 0 →
    ∃ o, x.2 p fd = some o ∧ o.Encodes (q.fds fd).ofIdx

theorem Tagged.kindsTell {x : Files × Origins} (h : Tagged x) : KindsTell x := by
  intro p q hq fd hne
  obtain ⟨o, ho, henc⟩ := h hq fd hne
  exact ⟨o, ho, henc.kind_eq, henc.isPipeFd_eq⟩

theorem slot_of_live (h : S.live p = some q) : S.slot p fd = some (q.fds fd) := by
  rw [slot, h]
  rfl

/-- The identifier of a new pipe is the counter. -/
theorem allocateId_nonneg {r : PipeRegistry} {P : Pipe} (h : 0 ≤ (r.allocateId P).2) :
    (r.allocateId P).2.toNat = r.nextPipeId % 2 ^ 32 ∧ r.pipes r.nextPipeId = none := by
  rw [PipeRegistry.allocateId] at h ⊢
  split at h
  · exact absurd (show (0 : Int) ≤ -1 from h) (by decide)
  · next hreg =>
    rw [if_neg hreg]
    refine ⟨?_, by simpa using hreg⟩
    have hcast : ((BitVec.ofNat 32 r.nextPipeId).toInt.toNat : Int)
        = (BitVec.ofNat 32 r.nextPipeId).toInt := Int.toNat_of_nonneg h
    rw [BitVec.toInt_eq_toNat_cond] at h hcast ⊢
    simp only [BitVec.toNat_ofNat] at h hcast ⊢
    split at h <;> omega

/-- What an event puts in a slot has the number of what it installs. -/
theorem encodes_of_puts (h : Tagged (S, O)) (hev : ¬ S.TakesConsoleCode ev) {s : ProcFd}
    (hs : S.Puts ev p fd s) (hne : s.ofIdx ≠ 0) :
    ∃ o, S.installs O ev fd = some o ∧ o.Encodes s.ofIdx := by
  cases ev with
  | create stdio =>
    refine ⟨.console, rfl, ?_⟩
    obtain rfl : s = newFds stdio fd := hs
    rw [newFds] at hne ⊢
    split at hne
    · next hstdio =>
      rw [if_pos hstdio]
      split at hne
      · next h0 => rw [if_pos h0]; rfl
      · next h0 =>
        rw [if_neg h0]
        split at hne
        · next h2 => rw [if_pos h2]; rfl
        · exact absurd rfl hne
    · exact absurd rfl hne
  | openFile p flags resolved =>
    obtain ⟨-, i, hi⟩ := hs
    refine ⟨.file, rfl, ?_⟩
    rw [hi]
    exact ⟨Nat.succ_pos _, i.isLt⟩
  | dup p old | dup2 p old new =>
    obtain ⟨-, q, hq, rfl⟩ := hs
    exact h hq old hne
  | pipe p bufOk copied =>
    obtain ⟨⟨-, hbuf, hcopied, hroom⟩, hid, hidx, -⟩ := hs
    obtain ⟨hnext, hnone⟩ : S.newPipeId.toNat = _ ∧ _ := allocateId_nonneg hid
    have hlt : S.newPipeId.toNat < 2 ^ 31 := PipeRegistry.allocateId_lt
    have hsmall : s.ofIdx = pipeFdBase + S.newPipeId.toNat := by
      rw [hidx, pipeFdBase]
      omega
    refine ⟨_, rfl, hsmall, fun hclash => hev ⟨hbuf, hcopied, hroom, hnone, ?_⟩⟩
    rw [← hnext, ← hsmall, hclash]
  | fork p early =>
    obtain ⟨q, hq, rfl⟩ := hs
    exact h hq fd hne
  | close | read | write | exec | exit | reap => exact hs.elim

/-- Only a pipe that takes the code of the console breaks the tags. -/
theorem Tagged.step (h : Tagged (S, O)) (hev : ¬ S.TakesConsoleCode ev) :
    Tagged (originStep (S, O) ev) := by
  intro p q' hq' fd hne
  have hslot : (S.fdStep ev).slot p fd = some (q'.fds fd) := slot_of_live hq'
  rw [originStep]
  simp only
  split
  · -- the slot is as it was
    next hsame =>
    rw [hslot, slot] at hsame
    obtain ⟨q, hq, he⟩ := map_eq_some_iff.1 hsame.symm
    rw [← he] at hne ⊢
    exact h hq fd hne
  · next hchanged =>
    obtain (he | hputs) | ⟨q, hq, he⟩ := (change_step S ev).slots hq' fd
    · rw [he] at hne
      exact absurd rfl hne
    · exact encodes_of_puts h hev hputs hne
    · rw [hslot, slot_of_live hq, he] at hchanged
      exact absurd rfl hchanged

theorem tagged_boot : Tagged originBoot := by
  intro p q hq fd hne
  obtain ⟨hq, -⟩ := procs_of_live hq
  simp only [originBoot, boot] at hq
  split at hq
  · cases hq
    exact absurd rfl hne
  · cases hq

/-! ## The identifier of the console -/

/-- Two free slots are what `sys_pipe` looks for. -/
theorem pipeSlots_of_ne {rd wr : Fin maxOpenFiles} (hne : rd ≠ wr) (hrd : PipeSlot q rd)
    (hwr : PipeSlot q wr) : ∃ rd wr rest,
      (finRange maxOpenFiles).filter (fun i => decide (PipeSlot q i)) = rd :: wr :: rest := by
  have hmem : ∀ i, PipeSlot q i →
      i ∈ (finRange maxOpenFiles).filter fun i => decide (PipeSlot q i) :=
    fun i hi => mem_filter.2 ⟨mem_finRange i, decide_eq_true hi⟩
  cases hl : (finRange maxOpenFiles).filter fun i => decide (PipeSlot q i) with
  | nil =>
    have := hl ▸ hmem rd hrd
    cases this
  | cons a l =>
    cases l with
    | nil =>
      have h1 : rd = a := mem_singleton.1 (hl ▸ hmem rd hrd)
      have h₂ : wr = a := mem_singleton.1 (hl ▸ hmem wr hwr)
      exact absurd (h1.trans h₂.symm) hne
    | cons b rest => exact ⟨a, b, rest, rfl⟩

theorem allocateId_of_none {r : PipeRegistry} {P : Pipe} (h : r.pipes r.nextPipeId = none)
    (hlt : r.nextPipeId % 2 ^ 32 < 2 ^ 31) :
    (r.allocateId P).2 = ((r.nextPipeId % 2 ^ 32 : Nat) : Int) := by
  have hreg : ¬ (r.pipes r.nextPipeId).isSome := by
    rw [h]
    nofun
  rw [PipeRegistry.allocateId]
  simp only [if_neg hreg]
  rw [BitVec.toInt_eq_toNat_cond, BitVec.toNat_ofNat, if_pos (by omega)]

/-- A `sys_pipe` that goes through. -/
theorem sysPipe_of_slots {copied : Int} {rd wr : Fin maxOpenFiles} {rest : List (Fin maxOpenFiles)}
    (hslots : (finRange maxOpenFiles).filter (fun i => decide (PipeSlot q i))
      = rd :: wr :: rest) (hcopied : 0 ≤ copied) (hid : 0 ≤ S.newPipeId) : ∃ r,
      (S.sysPipe p q true copied).1 = (({ S with pipes := r } : Files).setFd p rd
        ⟨(pipeFdBase + S.newPipeId.toNat) % 2 ^ 32, oRdonly⟩).setFd p wr
        ⟨(pipeFdBase + S.newPipeId.toNat) % 2 ^ 32, oWronly⟩ := by
  have hraw : (finRange maxOpenFiles).filter (fun i =>
      decide (3 ≤ i.val ∧ (q.fds i).ofIdx = 0 ∧ (q.fds i).flags = 0)) = rd :: wr :: rest := hslots
  rw [sysPipe, if_neg (by decide)]
  simp only
  have hpos : ¬ (S.pipes.allocateId (.createBuffer pipeBuf)).2 < 0 := not_lt.2 hid
  rw [if_neg hpos, hraw]
  simp only
  rw [if_neg (not_lt.2 hcopied)]
  exact ⟨_, rfl⟩

/-- The ends of that pipe are taken for the console. -/
theorem not_kindsTell_of_takes (h : S.TakesConsoleCode ev) :
    ¬ KindsTell (originStep (S, O) ev) := by
  cases ev with
  | pipe p bufOk copied =>
    obtain ⟨rfl, hcopied, ⟨q, hq, rd, wr, hne, hrd, hwr⟩, hnone, hcode⟩ := h
    obtain ⟨rd, wr, rest, hslots⟩ := pipeSlots_of_ne hne hrd hwr
    obtain ⟨-, -, hwr⟩ := pipeSlots_cons hslots
    have hid : S.newPipeId = ((48344 : Nat) : Int) := by
      have h48344 : S.pipes.nextPipeId % 2 ^ 32 = 48344 := by
        simp only [pipeFdBase, consoleInodeMagic] at hcode
        omega
      rw [newPipeId, allocateId_of_none hnone (by rw [h48344]; decide), h48344]
    obtain ⟨r, hr⟩ := sysPipe_of_slots hslots hcopied (by rw [hid]; decide)
    -- the write end has the number of the console
    have hlive : ∃ q', (S.fdStep (.pipe p true copied)).live p = some q' ∧
        q'.fds wr = ⟨consoleInodeMagic, oWronly⟩ := by
      have hstep : S.fdStep (.pipe p true copied) = (S.sysPipe p q true copied).1 := by
        rw [fdStep, doBy, hq]
      have hpipes : ({ S with pipes := r } : Files).live p = some q := hq
      rw [hstep, hr, hid]
      exact ⟨_, live_setFd (live_setFd hpipes rd _) wr _, update_self ..⟩
    obtain ⟨q', hq', hfd⟩ := hlive
    intro hkinds
    obtain ⟨o, ho, hkind, -⟩ := hkinds hq' wr (by rw [hfd]; decide)
    have hchanged : (S.fdStep (.pipe p true copied)).slot p wr ≠ S.slot p wr := by
      rw [slot_of_live hq', slot_of_live hq, hfd]
      intro he
      have hidx := hwr.2.1
      rw [← some.inj he] at hidx
      exact absurd hidx (by decide)
    have ho' : o = .pipe 48344 := by
      rw [originStep] at ho
      simp only [if_neg hchanged] at ho
      replace ho : some (FdOrigin.pipe S.newPipeId.toNat) = some o := ho
      rw [hid] at ho
      exact (some.inj ho).symm
    rw [ho', hfd] at hkind
    cases hkind
  | create | openFile | close | dup | dup2 | read | write | fork | exec | exit | reap =>
    exact h.elim

/-- In the states of a run every descriptor is taken for what it was installed as,
exactly if no pipe of the run takes the number of the console. -/
theorem kindsTell_iff (es : List FdEvent) :
    Along originStep (fun x ev => ¬ x.1.TakesConsoleCode ev) originBoot es ↔
      ∀ es1, es1 <+: es → KindsTell (run originStep originBoot es1) := by
  constructor
  · rintro h es1 ⟨es2, rfl⟩
    have hstep : ∀ x ev, Tagged x → ¬ x.1.TakesConsoleCode ev → Tagged (originStep x ev) :=
      fun x ev hx hev => Tagged.step hx hev
    exact (run_invariant hstep tagged_boot (along_append.1 h).1).kindsTell
  · intro h
    refine along_iff_split.2 fun es1 ev es2 hes htakes => ?_
    refine not_kindsTell_of_takes (O := (run originStep originBoot es1).2) htakes ?_
    have hpre : es1 ++ [ev] <+: es := ⟨es2, by rw [← hes, append_assoc]; rfl⟩
    have := h _ hpre
    rwa [run_append] at this

/-- The first process with its console. -/
def oneProcess : Files × Origins := originStep originBoot (.create true)

/-- It after the identifiers below `n` were used up. -/
def usedIds (n : Nat) : Files := { oneProcess.1 with pipes := ⟨fun _ => none, n⟩ }

/-- `pipe` with a bad pointer uses up an identifier and leaves nothing else behind. -/
def badPipe : FdEvent := .pipe firstSlot true (-Errno.EFAULT)

/-- A `pipe` that fails uses up an identifier. -/
theorem originStep_badPipe {n : Nat} (hn : n + 1 < 2 ^ 31) :
    originStep (usedIds n, O) badPipe = (usedIds (n + 1), O) := by
  have hid : (BitVec.ofNat 32 n).toInt = n := toInt_ofNat_of_lt (by omega)
  have hstep : (usedIds n).fdStep badPipe
      = usedIds (n + 1) := by
    have hq : (usedIds n).live firstSlot = some ⟨newFds true, false⟩ := rfl
    have hslots : ∃ rd wr rest, (finRange maxOpenFiles).filter (fun i =>
        decide (3 ≤ i.val ∧ (newFds true i).ofIdx = 0 ∧ (newFds true i).flags = 0))
          = rd :: wr :: rest :=
      pipeSlots_of_ne (q := ⟨newFds true, false⟩) (show fd3 ≠ fd4 by decide) (by decide) (by decide)
    obtain ⟨rd, wr, rest, hslots⟩ := hslots
    rw [badPipe, fdStep, doBy, hq]
    simp only [usedIds, sysPipe, PipeRegistry.allocateId, isSome_none, Bool.false_eq_true,
      Bool.true_eq_false, if_false, hid, hslots]
    rw [if_neg (not_lt.2 (Int.natCast_nonneg n)), if_pos (show -Errno.EFAULT < 0 by decide)]
    simp only [PipeRegistry.remove, Int.toNat_natCast, update_idem]
    rw [Nat.mod_eq_of_lt (by omega)]
    congr 2
    exact update_eq_self n fun _ => none
  refine Prod.ext hstep (funext fun p => funext fun fd => ?_)
  rw [originStep]
  simp only [hstep]
  exact if_pos rfl

theorem run_badPipe {n k : Nat} (hn : n + k < 2 ^ 31) :
    run originStep (usedIds n, O) (replicate k badPipe) = (usedIds (n + k), O) := by
  induction k generalizing n with
  | zero => rfl
  | succ k ih =>
    rw [replicate_succ, run_cons, originStep_badPipe (by omega), ih (by omega),
      Nat.add_right_comm n 1 k, add_assoc n k 1]

/-- After 48343 identifiers the next pipe is taken for the console. -/
theorem pipe_taken_for_console :
    ¬ KindsTell (run originStep originBoot
      (.create true :: replicate 48343 badPipe ++ [.pipe firstSlot true 0])) := by
  rw [cons_append, run_cons, run_append]
  have hone : originStep originBoot (.create true) = (usedIds 1, oneProcess.2) := rfl
  rw [hone, run_badPipe (by decide)]
  refine not_kindsTell_of_takes ⟨rfl, le_rfl, ⟨⟨newFds true, false⟩, rfl, fd3, fd4, ?_⟩, rfl, ?_⟩
  · decide
  · decide

end Files

end UnixOs
