import UnixOs.Mm.TwinVm

/-!
# Fresh memory does not leak

Two systems that differ in the content of free frames only run the same calls.
Along every run in which `sys_brk` maps no page they answer alike and their
processes see the same: whatever `sys_mmap`, a demand fault, the stack or the
loader hands to a process was cleared or filled first. `sys_brk` maps frames as
they come from the pool.
-/

namespace UnixOs

open Function List Machine Mm
open BitVec (lt_def toNat_add)

/-- What processes have the kernel do with their memory. `sys_execve` is the
creation of a memory, `load_elf_process`, `setup_exec_user_stack` and the exit of
the old memory. -/
inductive VmEvent where
  | create (c : Nat) (memOk dirOk : Bool)
  | fork (c : Nat) (src : Frame) (memOk dirOk : Bool)
  | exit (c : Nat) (d : Frame)
  | store (c : Nat) (d : Frame) (v : VPage) (i : Idx) (k : Fin 4) (x : BitVec 8)
  | cowFault (c : Nat) (d : Frame) (v : VPage)
  | brk (c : Nat) (d : Frame) (addr : Word)
  | mmap (c : Nat) (d : Frame) (addr len prot flags fd : Word) (isFb : Bool)
  | munmap (c : Nat) (d : Frame) (addr len : Word)
  | demandFault (c : Nat) (d : Frame) (addr : Word) (pread : Int → Word → List (BitVec 8))
  | loadElf (c : Nat) (d : Frame) (inp : ElfInput)
  | setupStack (d : Frame) (args : ExecArgs)

/-- The process memory that is used. -/
def VmEvent.actor : VmEvent → Option Frame
  | .create _ _ _ => none
  | .fork _ src _ _ => some src
  | .exit _ d => some d
  | .store _ d _ _ _ _ => some d
  | .cowFault _ d _ => some d
  | .brk _ d _ => some d
  | .mmap _ d _ _ _ _ _ _ => some d
  | .munmap _ d _ _ => some d
  | .demandFault _ d _ _ => some d
  | .loadElf _ d _ => some d
  | .setupStack d _ => some d

namespace Vm

/-- The two systems differ in the content of free frames only. -/
structure Twin (S T : Vm) : Prop where
  mm : Mm.Twin clean S.mm T.mm
  proc : T.proc = S.proc
  files : T.files = S.files

/-- The range lies between `USER_CODE_BASE` and `USER_SPACE_END`. -/
def InUserSpace (start stop : Nat) : Prop :=
  userCodeBase.toNat ≤ start ∧ stop ≤ userSpaceEnd.toNat

/-- Counts are not too low, and mappings lie in user space. -/
structure Ok (S : Vm) : Prop where
  inv : Mm.Inv (· ≤ ·) S.mm noneHeld
  files : ∀ r ∈ S.files, r.inUse = true → InUserSpace r.start.toNat r.stop.toNat
  regions : ∀ d, ∀ r ∈ (S.proc d).regions, r.inUse = true →
    InUserSpace r.addr.toNat (r.addr.toNat + r.len.toNat)

/-- The answer to a call that gives a process memory or none. -/
def dirAnswer : Option Frame → Int
  | none => -1
  | some d => d.val

def vmStep (S : Vm) : VmEvent → Vm × Int
  | .create c memOk dirOk => (S.createProcessMemory c memOk dirOk).map id dirAnswer
  | .fork c src memOk dirOk => (S.cloneProcessMemory c src memOk dirOk).map id dirAnswer
  | .exit c d => (S.destroyProcessMemory c d, 0)
  | .store c d v i k x =>
    (S.mm.userStore c d v i k x).map (fun mm => { S with mm }) fun b => if b then 0 else -1
  | .cowFault c d v =>
    (S.mm.handleCowFault c d v).map (fun mm => { S with mm }) fun b => if b then 0 else -1
  | .brk c d addr => S.sysBrk c (some d) addr
  | .mmap c d addr len prot flags fd isFb => S.sysMmap c (some d) addr len prot flags fd isFb
  | .munmap c d addr len => S.sysMunmap c (some d) addr len
  | .demandFault c d addr pread => S.handleDemandFault c (some d) addr pread
  | .loadElf c d inp => S.loadElfProcess c d inp
  | .setupStack d args => S.setupExecUserStack d args

/-- The answers to a list of calls. -/
def answers : Vm → List VmEvent → List Int
  | _, [] => []
  | S, ev :: evs => (S.vmStep ev).2 :: answers (S.vmStep ev).1 evs

/-- The call passes the checks of `sys_brk` and maps a page. -/
def BrkMaps (S : Vm) (d : Frame) (addr : Word) : Prop :=
  heapStart ≤ addr ∧ addr ≤ heapStart + maxHeapSize ∧ (S.proc d).brk < addr ∧
    pageUp (S.proc d).brk < pageUp addr

/-- The memory that is used is live, `sys_brk` maps no page, `sys_mmap` does not
mean the framebuffer, and directories are destroyed safely. -/
def FreshOk (S : Vm) (ev : VmEvent) : Prop :=
  (∀ d, ev.actor = some d → d ∈ S.mm.dirs) ∧
    match ev with
    | .create c _ dirOk => S.mm.CreateSafe c dirOk
    | .fork c src memOk dirOk => S.mm.CloneSafe c src memOk dirOk
    | .exit _ d => S.mm.SafeDestroy d
    | .brk _ d addr => ¬ S.BrkMaps d addr
    | .mmap _ _ addr _ _ flags fd isFb => ¬ MeansFramebuffer addr flags fd isFb
    | _ => True

/-- The results of a call on two systems. -/
structure Same (x y : Vm × Int) : Prop where
  answer : y.2 = x.2
  twin : Twin x.1 y.1
  ok : Ok x.1

variable {S T : Vm} {m m' : Mm} {c : Nat} {d : Frame} {addr len : Word}

/-- The other system has another memory manager. -/
theorem Twin.eq_withMm (h : Twin S T) : T = { S with mm := T.mm } := by
  obtain ⟨mm, proc, files⟩ := T
  obtain ⟨-, rfl, rfl⟩ := h
  rfl

theorem same_mk {proc : Frame → ProcMem} {files : List FileRegion} {a : Int}
    (h : Mm.Twin clean m m') (hok : Ok ⟨m, proc, files⟩) :
    Same (⟨m, proc, files⟩, a) (⟨m', proc, files⟩, a) := ⟨rfl, ⟨h, rfl, rfl⟩, hok⟩

theorem Ok.withMm (h : Ok S) (hinv : Mm.Inv (· ≤ ·) m noneHeld) :
    Ok { S with mm := m } := ⟨hinv, h.files, h.regions⟩

theorem Ok.setProc {p : ProcMem} (h : Ok S) (d : Frame)
    (hp : ∀ r ∈ p.regions, r.inUse = true →
      InUserSpace r.addr.toNat (r.addr.toNat + r.len.toNat)) : Ok (S.setProc d p) := by
  refine ⟨h.inv, h.files, fun d' r hr => ?_⟩
  obtain rfl | hd := eq_or_ne d' d
  · rw [show (S.setProc d' p).proc d' = p from update_self _ _ _] at hr
    exact hp r hr
  · rw [show (S.setProc d p).proc d' = S.proc d' from update_of_ne hd _ _] at hr
    exact h.regions d' r hr

/-! ## Pages of the ranges -/

theorem isUser_of_inUserSpace {start stop a : Word}
    (h : InUserSpace start.toNat stop.toNat) (ha : a ∈ pagesFromTo start stop) :
    a.vpage.1.IsUser := by
  have hbase : userCodeBase.toNat = 0x08048000 := rfl
  have hend : userSpaceEnd.toNat = 0x80000000 := rfl
  obtain ⟨hlo, hhi⟩ := h
  obtain ⟨hle, hlt⟩ := mem_pagesFromTo ha
  exact isUser_vpage (by omega) (by omega)

theorem pagesFromTo_eq_nil {a b : Word} (h : ¬ a < b) : pagesFromTo a b = [] := by
  rw [lt_def] at h
  rw [pagesFromTo, show (b.toNat - a.toNat + 4095) / 4096 = 0 by omega]
  rfl

theorem toNat_pageUp {a : Word} (h : a.toNat + 4095 < 2 ^ 32) :
    (pageUp a).toNat = (a.toNat + 4095) / 4096 * 4096 := by
  have hup : (a + 4096 - 1).toNat = a.toNat + 4095 := by
    have hone : (1 : Word).toNat = 1 := rfl
    have hpage : (4096 : Word).toNat = 4096 := rfl
    rw [BitVec.toNat_sub, toNat_add]
    omega
  rw [pageUp, toNat_pageAddrMask, hup]

/-! ## The calls

The second system is the first with the memory manager `m'`. -/

section

variable (h : Mm.Twin clean S.mm m') (hok : Ok S)
include h hok

/-- A new process is alike on both machines, since its pages are cleared. -/
theorem twin_createProcessMemory {memOk dirOk : Bool} (hsafe : S.mm.CreateSafe c dirOk) :
    Same ((S.createProcessMemory c memOk dirOk).map id dirAnswer)
      ((({ S with mm := m' } : Vm).createProcessMemory c memOk dirOk).map id dirAnswer) := by
  obtain ⟨hres, h1⟩ := h.createProcessMemory hok.inv c memOk dirOk
  simp only [Vm.createProcessMemory]
  cases hy : m'.createProcessMemory c memOk dirOk with
  | mk m2' r =>
    rcases hok.inv.createProcessMemory (countRel_le 0xFFFF) memOk hsafe with
      ⟨m2, hx, hinv, -⟩ | ⟨m2, d, hx, hinv, -⟩
    · rw [hx, hy] at hres h1
      obtain rfl : r = none := hres
      rw [hx]
      exact same_mk h1 (hok.withMm hinv)
    · rw [hx, hy] at hres h1
      obtain rfl : r = some d := hres
      rw [hx]
      refine same_mk h1 ((hok.withMm hinv).setProc d fun r hr huse => ?_)
      rw [(mem_replicate.1 hr).2] at huse
      cases huse

/-- So is a forked one, since its pages are those of the parent. -/
theorem twin_cloneProcessMemory {src : Frame}
    (hsrc : src ∈ S.mm.dirs) {memOk dirOk : Bool} (hsafe : S.mm.CloneSafe c src memOk dirOk) :
    Same ((S.cloneProcessMemory c src memOk dirOk).map id dirAnswer)
      ((({ S with mm := m' } : Vm).cloneProcessMemory c src memOk dirOk).map id dirAnswer) := by
  obtain ⟨hres, h1⟩ := h.cloneProcessMemory hok.inv fewHeld_noneHeld hsrc hsafe
  simp only [Vm.cloneProcessMemory]
  cases hy : m'.cloneProcessMemory c src memOk dirOk with
  | mk m2' r =>
    rcases hok.inv.cloneProcessMemory (countRel_le 0xFFFF) fewHeld_noneHeld hsrc hsafe
      with ⟨m2, hx, hinv, -⟩ | ⟨m2, d, hx, hinv, -⟩
    · rw [hx, hy] at hres h1
      obtain rfl : r = none := hres
      rw [hx]
      exact same_mk h1 (hok.withMm hinv)
    · rw [hx, hy] at hres h1
      obtain rfl : r = some d := hres
      rw [hx]
      exact same_mk h1 ((hok.withMm hinv).setProc d (hok.regions src))

theorem twin_destroyProcessMemory (hd : d ∈ S.mm.dirs) (hsafe : S.mm.SafeDestroy d) (c : Nat) :
    Same (S.destroyProcessMemory c d, 0)
      (({ S with mm := m' } : Vm).destroyProcessMemory c d, 0) := by
  refine same_mk (h.destroyPageDirectory hok.inv hd c)
    ⟨(hok.inv.destroyPageDirectory (countRel_le 0xFFFF) hd hsafe c).1, fun r hr huse => ?_,
      hok.regions⟩
  obtain ⟨r0, hr0, rfl⟩ := mem_map.1 hr
  split at huse
  · cases huse
  · next hc =>
    rw [if_neg hc]
    exact hok.files r0 hr0 huse

/-- A break that maps no page. -/
theorem twin_sysBrk (hd : d ∈ S.mm.dirs) (hno : ¬ S.BrkMaps d addr) (c : Nat) :
    Same (S.sysBrk c (some d) addr) (({ S with mm := m' } : Vm).sysBrk c (some d) addr) := by
  simp only [Vm.sysBrk]
  split
  · exact same_mk h hok
  split
  · exact same_mk h hok
  next hlow =>
  split
  · exact same_mk h hok
  next hhigh =>
  split
  · next hgrow =>
    -- No page lies between the two ends.
    have hnil : pagesFromTo (pageUp (S.proc d).brk) (pageUp addr) = [] :=
      pagesFromTo_eq_nil fun hlt => hno ⟨BitVec.not_lt.1 hlow, BitVec.not_lt.1 hhigh, hgrow, hlt⟩
    rw [hnil]
    exact same_mk h (hok.setProc d (hok.regions d))
  · split
    · have hpages : ∀ a ∈ pagesFromTo (pageUp addr) (pageUp (S.proc d).brk),
          numKernelPageTables ≤ a.vpage.1.val := by
        intro a ha
        have hle := (mem_pagesFromTo ha).1
        have hbase : heapStart.toNat = 0x08048000 := rfl
        have htop : (heapStart + maxHeapSize).toNat = 0x18048000 := rfl
        rw [lt_def] at hlow
        rw [lt_def] at hhigh
        rw [toNat_pageUp (by omega)] at hle
        simp only [Word.vpage, vpageOf, Word.frame, numKernelPageTables]
        omega
      have hk := Mm.Twin.unmapRange hd c hpages h hok.inv
      exact same_mk hk.twin ((hok.withMm hk.inv).setProc d (hok.regions d))
    · exact same_mk h (hok.setProc d (hok.regions d))

end

/-! ## Mappings -/

/-- A mapping that found a place lies in user space. -/
theorem inUserSpace_of_placeMapping {p p' : ProcMem} {flags mapAddr : Word}
    (h : placeMapping p addr len flags = .ok (mapAddr, p')) :
    InUserSpace mapAddr.toNat (mapAddr.toNat + len.toNat) ∧ p'.regions = p.regions := by
  have hplace : ∀ {a : Word}, ¬ (a < userCodeBase ∨ userSpaceEnd ≤ a ∨ userSpaceEnd - a < len) →
      InUserSpace a.toNat (a.toNat + len.toNat) := by
    intro a ha
    obtain ⟨hlo, ha⟩ := not_or.1 ha
    obtain ⟨hhi, hlen⟩ := not_or.1 ha
    rw [lt_def] at hlo
    rw [BitVec.le_def] at hhi
    rw [lt_def, BitVec.toNat_sub] at hlen
    refine ⟨by omega, ?_⟩
    omega
  simp only [placeMapping] at h
  split at h
  · split at h
    · cases h
    · next hok =>
      obtain ⟨rfl, rfl⟩ := Prod.mk.inj (Except.ok.inj h)
      exact ⟨hplace hok, rfl⟩
  · generalize (if p.mmapNext = 0 then userHeapBase else p.mmapNext) = a at h
    split at h
    · cases h
    · next hok =>
      obtain ⟨rfl, rfl⟩ := Prod.mk.inj (Except.ok.inj h)
      exact ⟨hplace hok, rfl⟩

theorem forall_takeSlot {P : FileRegion → Prop} {r : FileRegion} (hr : P r)
    {files files' : List FileRegion} (hall : ∀ s ∈ files, P s)
    (h : takeSlot r files = some files') : ∀ s ∈ files', P s := by
  induction files generalizing files' with
  | nil => cases h
  | cons s rest ih =>
    rw [takeSlot] at h
    split at h
    · cases h
      exact forall_mem_cons.2 ⟨hr, fun t ht => hall t (.tail s ht)⟩
    · obtain ⟨rest', hrest, rfl⟩ := Option.map_eq_some_iff.1 h
      exact forall_mem_cons.2 ⟨hall s mem_cons_self,
        ih (fun t ht => hall t (.tail s ht)) hrest⟩

theorem Ok.mmapFileRegister {start stop : Word} {fd : Int} {offset prot : Word} {S' : Vm}
    (hok : Ok S) (hin : InUserSpace start.toNat stop.toNat)
    (h : S.mmapFileRegister d start stop fd offset prot = some S') :
    Ok S' ∧ S'.mm = S.mm ∧ S'.proc = S.proc := by
  rw [Vm.mmapFileRegister] at h
  split at h
  · cases h
  split at h
  · cases h
  · obtain ⟨files, hfiles, rfl⟩ := Option.map_eq_some_iff.1 h
    exact ⟨⟨hok.inv, forall_takeSlot (fun _ => hin) hok.files hfiles, hok.regions⟩, rfl, rfl⟩

theorem Ok.record {mapAddr : Word} (hok : Ok S) (d : Frame) (slot : Nat) (prot flags : Word)
    (hin : InUserSpace mapAddr.toNat (mapAddr.toNat + len.toNat)) :
    Ok (S.setProc d { S.proc d with
      regions := (S.proc d).regions.set slot ⟨mapAddr, len, prot, flags, true⟩ }) := by
  refine hok.setProc d fun r hr huse => ?_
  rcases mem_or_eq_of_mem_set hr with hr | rfl
  · exact hok.regions d r hr huse
  · exact hin

variable (h : Mm.Twin clean S.mm m') (hok : Ok S) (hd : d ∈ S.mm.dirs)

include h hok hd in
theorem twin_finishMmap (c slot : Nat) {mapAddr : Word} (prot flags fd : Word)
    (hin : InUserSpace mapAddr.toNat (mapAddr.toNat + len.toNat)) :
    Same (S.finishMmap c d slot mapAddr len prot flags fd)
      (({ S with mm := m' } : Vm).finishMmap c d slot mapAddr len prot flags fd) := by
  have hstop : (mapAddr + len).toNat = mapAddr.toNat + len.toNat := by
    have := hin.2
    rw [toNat_add]
    omega
  have hin' : InUserSpace mapAddr.toNat (mapAddr + len).toNat := hstop ▸ hin
  simp only [Vm.finishMmap]
  split
  · have hreg : ({ S with mm := m' } : Vm).mmapFileRegister d mapAddr (mapAddr + len)
        fd.toInt 0 prot = (S.mmapFileRegister d mapAddr (mapAddr + len) fd.toInt 0 prot).map
          fun S' => { S' with mm := m' } := by
      simp only [Vm.mmapFileRegister]
      split
      · rfl
      split
      · rfl
      · rw [Option.map_map]
        rfl
    rw [hreg]
    cases hx : S.mmapFileRegister d mapAddr (mapAddr + len) fd.toInt 0 prot with
    | none => exact same_mk h hok
    | some S' =>
      obtain ⟨hok', hmm, hproc⟩ := hok.mmapFileRegister hin' hx
      have hrec := hok'.record d slot prot flags hin
      rw [hproc] at hrec
      exact ⟨rfl, ⟨show Mm.Twin clean S'.mm m' from hmm ▸ h, rfl, rfl⟩, hrec⟩
  · have hpages : ∀ a ∈ pagesFromTo mapAddr (mapAddr + len), a.vpage.1.IsUser :=
      fun a ha => isUser_of_inUserSpace hin' ha
    obtain ⟨hres, h1, hinv, -⟩ := Mm.Twin.mapRange hd c (decide (prot &&& protWrite ≠ 0))
      [] hpages (fun a ha => absurd ha not_mem_nil) h hok.inv
    cases hx : mapRange c d (decide (prot &&& protWrite ≠ 0)) true [] S.mm
        (pagesFromTo mapAddr (mapAddr + len)) with
    | mk m2 b =>
      cases hy : mapRange c d (decide (prot &&& protWrite ≠ 0)) true [] m'
          (pagesFromTo mapAddr (mapAddr + len)) with
      | mk m2' b' =>
        rw [hx, hy] at hres h1
        rw [hx] at hinv
        obtain rfl : b' = b := hres
        cases b' with
        | false => exact same_mk h1 (hok.withMm hinv)
        | true => exact same_mk h1 ((hok.withMm hinv).record d slot prot flags hin)

include h hok hd in
/-- The checks look at the record of the process only. -/
theorem twin_sysMmap
    {prot flags fd : Word} {isFb : Bool} (hfb : ¬ MeansFramebuffer addr flags fd isFb)
    (c : Nat) (len : Word) :
    Same (S.sysMmap c (some d) addr len prot flags fd isFb)
      (({ S with mm := m' } : Vm).sysMmap c (some d) addr len prot flags fd isFb) := by
  simp only [Vm.sysMmap, if_neg hfb]
  split
  · exact same_mk h hok
  split
  · exact same_mk h hok
  cases freeRegion (S.proc d).regions with
  | none => exact same_mk h hok
  | some slot =>
    cases hplace : placeMapping (S.proc d) addr (pageUp len) flags with
    | error e => exact same_mk h hok
    | ok x =>
      obtain ⟨mapAddr, p⟩ := x
      obtain ⟨hin, hregions⟩ := inUserSpace_of_placeMapping hplace
      have hok' : Ok (S.setProc d p) := hok.setProc d (hregions ▸ hok.regions d)
      exact twin_finishMmap (S := S.setProc d p) h hok' hd c slot prot flags fd hin

theorem forall_dropSlot {start stop : Word} {files : List FileRegion}
    (hall : ∀ r ∈ files, r.inUse = true → InUserSpace r.start.toNat r.stop.toNat) :
    ∀ r ∈ dropSlot d start stop files, r.inUse = true → InUserSpace r.start.toNat r.stop.toNat := by
  induction files with
  | nil => exact hall
  | cons s rest ih =>
    have hrest := fun t ht => hall t (.tail s ht)
    rw [dropSlot]
    split
    · refine forall_mem_cons.2 ⟨fun huse => ?_, hrest⟩
      cases huse
    · exact forall_mem_cons.2 ⟨hall s mem_cons_self, ih hrest⟩

include h hok hd in
/-- The pages go, and the region with them. -/
theorem twin_sysMunmap (c : Nat) (addr len : Word) :
    Same (S.sysMunmap c (some d) addr len)
      (({ S with mm := m' } : Vm).sysMunmap c (some d) addr len) := by
  simp only [Vm.sysMunmap]
  split
  · exact same_mk h hok
  cases hfind : (S.proc d).regions.findIdx? fun r => r.inUse && decide (r.addr = addr) with
  | none => exact same_mk h hok
  | some i =>
    simp only
    cases hr : (S.proc d).regions[i]? with
    | none => exact same_mk h hok
    | some r =>
      obtain ⟨hi, hget⟩ := List.getElem?_eq_some_iff.1 hr
      have huse : r.inUse = true := by
        obtain ⟨hi', hp, -⟩ := List.findIdx?_eq_some_iff_getElem.1 hfind
        rw [hget] at hp
        exact (Bool.and_eq_true_iff.1 hp).1
      have hin := hok.regions d r (hget ▸ getElem_mem hi) huse
      have hstop : (r.addr + r.len).toNat = r.addr.toNat + r.len.toNat := by
        have := hin.2
        rw [toNat_add]
        omega
      have hpages : ∀ a ∈ pagesFromTo r.addr (r.addr + r.len),
          numKernelPageTables ≤ a.vpage.1.val :=
        fun a ha => (isUser_of_inUserSpace (hstop ▸ hin) ha).1
      have hk := Mm.Twin.unmapRange hd c hpages h hok.inv
      have hok1 : Ok ⟨S.mm.unmapRange c d (pagesFromTo r.addr (r.addr + r.len)), S.proc,
          dropSlot d r.addr (r.addr + r.len) S.files⟩ :=
        ⟨hk.inv, forall_dropSlot hok.files, hok.regions⟩
      refine same_mk hk.twin (hok1.setProc d fun s hs hsuse => ?_)
      rcases mem_or_eq_of_mem_set hs with hs | rfl
      · exact hok.regions d s hs hsuse
      · cases hsuse

/-! ## Demand faults -/

include h hok hd in
/-- The page of a mapping is made at its first use. -/
theorem twin_handleDemandFault (c : Nat) (addr : Word) (pread : Int → Word → List (BitVec 8)) :
    Same (S.handleDemandFault c (some d) addr pread)
      (({ S with mm := m' } : Vm).handleDemandFault c (some d) addr pread) := by
  simp only [Vm.handleDemandFault, Vm.mmapFileLookup]
  cases hfind : S.files.find? fun r =>
      r.inUse && decide (r.pd = d ∧ r.start ≤ addr ∧ addr < r.stop) with
  | none => exact same_mk h hok
  | some r =>
    have huser : (addr &&& pageAddrMask).vpage.1.IsUser := by
      have hmatch := find?_some hfind
      obtain ⟨huse, hr⟩ := Bool.and_eq_true_iff.1 hmatch
      obtain ⟨-, hlo, hhi⟩ := of_decide_eq_true hr
      obtain ⟨hbase, hend⟩ := hok.files r (mem_of_find?_eq_some hfind) huse
      have hcode : userCodeBase.toNat = 0x08048000 := rfl
      have hspace : userSpaceEnd.toNat = 0x80000000 := rfl
      rw [BitVec.le_def] at hlo
      rw [lt_def] at hhi
      have hmask := toNat_pageAddrMask addr
      exact isUser_vpage (by omega) (by omega)
    generalize addr &&& pageAddrMask = pageVa at huser
    simp only [h.getPhysicalFrame hok.inv unreferenced_clean hd]
    split
    · exact same_mk h hok
    rcases h.allocate_cases hok.inv (countRel_le 0xFFFF) c with
      ⟨hx, hy⟩ | ⟨m1, m1', f, hx, hy, htaken⟩
    · rw [hx, hy]
      exact same_mk h hok
    · rw [hx, hy]
      have hready := htaken.cleared.copyToFrame 0
        ((pread r.fd (r.offset + (pageVa - r.start))).take 4096)
      have hd1 := hready.unseen.dirs ▸ hd
      simp only [hready.twin.getPhysicalFrame hready.inv unreferenced_clean hd1]
      split
      · exact same_mk (hready.twin.freeFrame c f)
          (hok.withMm (hready.inv.freeFrame (countRel_le 0xFFFF) c))
      · obtain ⟨m2, m2', b, hx2, hy2, hfail, hdone⟩ := Mm.Twin.mapFilled hready hd huser
          (userFlags_present _) (userFlags_user _) c
        rw [fileFlags, hx2, hy2]
        cases b with
        | false =>
          obtain ⟨-, ht, hi, -⟩ := hfail rfl
          exact same_mk ht (hok.withMm hi)
        | true =>
          obtain ⟨⟨-, ht, hi, -⟩, -⟩ := hdone rfl
          exact same_mk ht (hok.withMm hi)

/-! ## Programs -/

section

variable (h : Mm.Twin clean S.mm m') (hok : Ok S) (hd : d ∈ S.mm.dirs)
include h hok hd

/-- The segments of the interpreter. -/
theorem twin_loadInterpreter (c : Nat) (pathRc openRc : Int) (img : ElfFile) :
    Same (S.loadInterpreter c d pathRc openRc img)
      (({ S with mm := m' } : Vm).loadInterpreter c d pathRc openRc img) := by
  simp only [Vm.loadInterpreter]
  split
  · exact same_mk h hok
  split
  · exact same_mk h hok
  split
  · exact same_mk h (hok.setProc d (hok.regions d))
  · have hk := Mm.Twin.elfLoadSegments hd c img.file (S.proc d).mmapNext img.phdrs 0 h hok.inv
    obtain ⟨hres, h1, hinv, -⟩ := hk
    simp only [Vm.setProc]
    cases hx : elfLoadSegments c d img.file (S.proc d).mmapNext S.mm img.phdrs 0 with
    | mk m2 r =>
      cases hy : elfLoadSegments c d img.file (S.proc d).mmapNext m' img.phdrs 0 with
      | mk m2' r' =>
        rw [hx, hy] at hres h1
        rw [hx] at hinv
        obtain rfl : r' = r := hres
        exact same_mk h1 ((hok.withMm hinv).setProc d (hok.regions d))

/-- The segments of the program, and then its interpreter. -/
theorem twin_loadElfProcess (c : Nat) (inp : ElfInput) :
    Same (S.loadElfProcess c d inp) (({ S with mm := m' } : Vm).loadElfProcess c d inp) := by
  simp only [Vm.loadElfProcess]
  split
  · exact same_mk h hok
  · obtain ⟨hres, h1, hinv, hdirs⟩ := Mm.Twin.elfLoadSegments hd c inp.exe.file inp.base
      inp.exe.phdrs 0 h hok.inv
    cases hx : elfLoadSegments c d inp.exe.file inp.base S.mm inp.exe.phdrs 0 with
    | mk m2 r =>
      cases hy : elfLoadSegments c d inp.exe.file inp.base m' inp.exe.phdrs 0 with
      | mk m2' r' =>
        rw [hx, hy] at hres h1
        rw [hx] at hinv hdirs
        obtain rfl : r' = r := hres
        obtain ⟨rc, brkEnd⟩ := r'
        split
        · exact same_mk h1 (hok.withMm hinv)
        · have hok2 : Ok { S with mm := m2 } := hok.withMm hinv
          have hd2 : d ∈ m2.dirs := hdirs ▸ hd
          -- The end of the heap is recorded if there is one.
          have hproc : ∃ proc, (if 0 < brkEnd then
                ({ S with mm := m2 } : Vm).setProc d { S.proc d with brk := brkEnd }
              else { S with mm := m2 }) = ⟨m2, proc, S.files⟩ ∧
              (if 0 < brkEnd then
                ({ S with mm := m2' } : Vm).setProc d { S.proc d with brk := brkEnd }
              else { S with mm := m2' }) = ⟨m2', proc, S.files⟩ ∧
              Ok ⟨m2, proc, S.files⟩ := by
            split
            · exact ⟨_, rfl, rfl, hok2.setProc d (hok.regions d)⟩
            · exact ⟨_, rfl, rfl, hok2⟩
          obtain ⟨proc, hp, hp', hok3⟩ := hproc
          rw [hp, hp']
          cases inp.interp with
          | none => exact same_mk h1 hok3
          | some x =>
            obtain ⟨pathRc, openRc, img⟩ := x
            exact twin_loadInterpreter h1 hok3 hd2 c pathRc openRc img

theorem twin_setupExecUserStack (args : ExecArgs) :
    Same (S.setupExecUserStack d args) (({ S with mm := m' } : Vm).setupExecUserStack d args) := by
  obtain ⟨hres, h1, hinv, -⟩ := Mm.Twin.writeStack hd args.stackWrites
    (fun x hx => args.bounds_of_mem_stackWrites hx) h hok.inv
  simp only [Vm.setupExecUserStack]
  cases hx : writeStack d S.mm args.stackWrites with
  | mk m2 rc =>
    cases hy : writeStack d m' args.stackWrites with
    | mk m2' rc' =>
      rw [hx, hy] at hres h1
      rw [hx] at hinv
      obtain rfl : rc' = rc := hres
      exact same_mk h1 (hok.withMm hinv)

end

/-! ## Runs -/

/-- One case for each event. -/
theorem Twin.step (h : Twin S T) (hok : Ok S) {ev : VmEvent} (hev : FreshOk S ev) :
    Same (S.vmStep ev) (T.vmStep ev) := by
  have hR := countRel_le 0xFFFF
  rw [h.eq_withMm]
  obtain ⟨hlive, hcond⟩ := hev
  cases ev with
  | create c memOk dirOk => exact twin_createProcessMemory h.mm hok hcond
  | fork c src memOk dirOk => exact twin_cloneProcessMemory h.mm hok (hlive src rfl) hcond
  | exit c d => exact twin_destroyProcessMemory h.mm hok (hlive d rfl) hcond c
  | store c d v i k x =>
    have hd := hlive d rfl
    obtain ⟨hres, h1⟩ := h.mm.userStore hok.inv hR hd c v i k x
    have hinv : Mm.Inv (· ≤ ·) (S.mm.userStore c d v i k x).1 noneHeld := by
      rcases hok.inv.userStore hR hd c v i k x with
        ⟨m, hx, hinv, -⟩ | ⟨m, w, w', hx, hinv, -⟩
      · rw [hx]; exact hinv
      · rw [hx]; exact hinv
    exact ⟨congrArg (fun b : Bool => if b then (0 : Int) else -1) hres, ⟨h1, rfl, rfl⟩,
      hok.withMm hinv⟩
  | cowFault c d v =>
    have hd := hlive d rfl
    obtain ⟨hres, h1⟩ := h.mm.handleCowFault hok.inv hR hd c v
    have hinv : Mm.Inv (· ≤ ·) (S.mm.handleCowFault c d v).1 noneHeld := by
      rcases hok.inv.handleCowFault hR hd c v with
        ⟨m, hx, hinv, -⟩ | ⟨m, w, f, hx, -, -, hinv, -⟩
      · rw [hx]; exact hinv
      · rw [hx]; exact hinv
    exact ⟨congrArg (fun b : Bool => if b then (0 : Int) else -1) hres, ⟨h1, rfl, rfl⟩,
      hok.withMm hinv⟩
  | brk c d addr => exact twin_sysBrk h.mm hok (hlive d rfl) hcond c
  | mmap c d addr len prot flags fd isFb => exact twin_sysMmap h.mm hok (hlive d rfl) hcond c len
  | munmap c d addr len => exact twin_sysMunmap h.mm hok (hlive d rfl) c addr len
  | demandFault c d addr pread => exact twin_handleDemandFault h.mm hok (hlive d rfl) c addr pread
  | loadElf c d inp => exact twin_loadElfProcess h.mm hok (hlive d rfl) c inp
  | setupStack d args => exact twin_setupExecUserStack h.mm hok (hlive d rfl) args

/-- The state after a call. -/
def after (S : Vm) (ev : VmEvent) : Vm := (S.vmStep ev).1

theorem Twin.refl (S : Vm) : Twin S S := ⟨Mm.Twin.refl S.mm, rfl, rfl⟩

theorem Ok.run {evs : List VmEvent} (hok : Ok S) (hevs : Along after FreshOk S evs) :
    Ok (run after S evs) :=
  run_invariant (fun S _ h hev => ((Twin.refl S).step h hev).ok) hok hevs

theorem Twin.run {evs : List VmEvent} (h : Twin S T) (hok : Ok S)
    (hevs : Along after FreshOk S evs) :
    T.answers evs = S.answers evs ∧ Twin (run after S evs) (run after T evs) := by
  induction evs generalizing S T with
  | nil => exact ⟨rfl, h⟩
  | cons ev evs ih =>
    obtain ⟨hans, htwin, hok'⟩ := h.step hok hevs.1
    obtain ⟨hrest, hlast⟩ := ih htwin hok' hevs.2
    exact ⟨congrArg₂ cons hans hrest, hlast⟩

/-- After `paging_init`, before the first process. -/
def boot (L : KernelLayout) (mem : Frame → Idx → Word) : Vm where
  mm := pagingInit L mem
  proc := fun _ => newProcMem
  files := replicate mmapFileMaxRegions ⟨false, 0, 0, 0, 0, 0, 0⟩

theorem ok_boot (L : KernelLayout) (mem : Frame → Idx → Word) : Ok (boot L mem) := by
  refine ⟨inv_pagingInit L mem, fun r hr huse => ?_, fun d r hr huse => ?_⟩
  · rw [(mem_replicate.1 hr).2] at huse
    cases huse
  · rw [(mem_replicate.1 hr).2] at huse
    cases huse

/-- If `sys_brk` maps no page, what was in the free frames at some point of a run
shows in no answer and in no page of a process from then on. -/
theorem view_eq_of_freshOk (L : KernelLayout) (mem : Frame → Idx → Word)
    (before evs : List VmEvent) (T : Vm) (hbefore : Along after FreshOk (boot L mem) before)
    (htwin : Twin (run after (boot L mem) before) T)
    (hevs : Along after FreshOk (run after (boot L mem) before) evs) :
    T.answers evs = (run after (boot L mem) before).answers evs ∧
      (run after T evs).mm.view = (run after (boot L mem) (before ++ evs)).mm.view := by
  have hok := (ok_boot L mem).run hbefore
  obtain ⟨hans, hlast⟩ := htwin.run hok hevs
  refine ⟨hans, ?_⟩
  rw [run_append]
  exact hlast.mm.view (hok.run hevs).inv unreferenced_clean

/-! ## The page of `sys_brk` -/

end Vm

namespace Mm

variable {m m' : Mm} {c b : Nat} {d f : Frame} {v : VPage}

/-- The page shows what the frame held before, in each of two systems. -/
theorem Room.mapUserPage_dirty (hroom : Room b m c 2) (h : Twin clean m m')
    (hinv : Inv (· ≤ ·) m noneHeld) (hd : d ∈ m.dirs) (hv : v.1.IsUser) :
    ∃ f m2 m2', m.mapUserPage c d v true false = (m2, true) ∧
      m'.mapUserPage c d v true false = (m2', true) ∧ f.Pool ∧ ¬ m.Allocated f ∧
      m2.view d v = some (.entry f (userFlags true), m.mem f) ∧
      m2'.view d v = some (.entry f (userFlags true), m'.mem f) := by
  obtain ⟨m1, f, hx, -, hroom1⟩ := hroom.allocateFrame
  have hR := countRel_le 0xFFFF
  have hpage : ∀ {m1 m2 : Mm}, Inv (· ≤ ·) m1 (bump noneHeld f) →
      m1.refs f + noneHeld f = 0 → d ∈ m1.dirs → m1.mapPage c d v f (userFlags true)
        = (m2, true) → m2.view d v = some (.entry f (userFlags true), m1.mem f) := by
    intro m1 m2 hinv1 hz hd1 hmap
    rcases hinv1.mapAny hz hd1 hv (userFlags_present true) (userFlags_user true) c with
      ⟨m3, hmap', -⟩ | ⟨m3, hmap', -, hset⟩
    · rw [hmap] at hmap'
      cases (Prod.mk.inj hmap').2
    · rw [hmap] at hmap'
      cases hmap'
      rw [hset.view, if_pos ⟨rfl, rfl⟩]
  rcases h.allocateFrame hinv hR c with ⟨hx', -⟩ | ⟨n1, f', hx', hy, hgot, htwin⟩
  · rw [hx] at hx'
    cases (Prod.mk.inj hx').2
  · rw [hx] at hx'
    obtain ⟨rfl, hf⟩ := Prod.mk.inj hx'
    cases hf
    have hd1 : d ∈ m1.dirs := hgot.same.2.1 ▸ hd
    have hun : m1.Unreferenced fun g => clean g ∨ g = f := by
      rintro g (hg | rfl)
      · exact hg.elim
      · exact ⟨hgot.pool, Nat.eq_zero_of_add_eq_zero_right hgot.unused⟩
    obtain ⟨m2, hmap, -⟩ := hroom1.mapPage d v f (userFlags true)
    obtain ⟨n2, m2', bit, hmap', hmap2, -⟩ :=
      htwin.mapPage_cases hgot.inv hun hR hd1 c v f (userFlags true)
    rw [hmap] at hmap'
    cases hmap'
    refine ⟨f, m2, m2', ?_, ?_, hgot.pool, hgot.free, ?_, ?_⟩
    · rw [mapUserPage, hx]
      simp only [hmap, Bool.false_eq_true, if_false]
    · rw [mapUserPage, hy]
      simp only [hmap2, Bool.false_eq_true, if_false]
    · rw [hpage hgot.inv hgot.unused hd1 hmap, show m1.mem = m.mem from hgot.same.1]
    · have hz : (m1.withMem m'.mem).refs f + noneHeld f = 0 := by
        rw [htwin.refs hgot.inv hun]
        exact hgot.unused
      have hview := hpage (htwin.inv hgot.inv hun) hz hd1 hmap2
      exact hview

open Classical in
/-- The same state with other words in every free frame. -/
noncomputable def scrambled (m : Mm) : Mm :=
  m.withMem fun f i => if f.Pool ∧ ¬ m.Allocated f then ~~~ m.mem f i else m.mem f i

theorem twin_scrambled (m : Mm) : Twin clean m m.scrambled := by
  refine ⟨rfl, rfl, rfl, rfl, rfl, rfl, fun f hlive _ => ?_⟩
  funext i
  exact if_neg fun hc => hc.2 (hlive hc.1)

theorem mem_scrambled (hpool : f.Pool) (hfree : ¬ m.Allocated f) : m.scrambled.mem f ≠ m.mem f := by
  intro heq
  have hword : m.scrambled.mem f 0 = ~~~ m.mem f 0 := if_pos ⟨hpool, hfree⟩
  rw [heq] at hword
  have hbit := congrArg (·.getLsbD 0) hword
  simp at hbit

end Mm

namespace Vm

/-- The first process has been created. -/
def firstVm : Vm := run after (boot lowLayout fun _ _ => 0) [.create 0 true true]

/-- Its heap grows by a page. -/
def growHeap : VmEvent := .brk 0 2816 0x08049000

/-- The first process after boot, and that there is room for 64 frames. -/
theorem firstVm_spec :
    ∃ m, firstVm = (⟨m, fun _ => newProcMem, (boot lowLayout fun _ _ => 0).files⟩ : Vm) ∧
      Mm.Inv (· ≤ ·) m noneHeld ∧ 2816 ∈ m.dirs ∧ Mm.Room identityEndFrame m 0 64 ∧
      ∀ v ∈ stackPages, (m.pte 2816 v).isSome := by
  have hroom : Mm.Room identityEndFrame bootMm 0 (64 + 65) :=
    room_pagingInit lowLayout _ 0 (le_refl _) (by decide)
  have hinv : Mm.Inv (· ≤ ·) bootMm noneHeld := inv_pagingInit lowLayout _
  obtain ⟨m, d, heq, hd, hroom', hinv', hcr⟩ := Mm.Room.created (countRel_le 0xFFFF) hinv hroom
  have hfirst : (bootMm.allocateFrame 0).2 = some 2816 := allocateFrame_pagingInit lowLayout _ 0
  rw [hfirst] at hd
  cases hd
  refine ⟨m, ?_, hinv', hcr.dirs ▸ mem_cons_self, hroom', fun v hv => ?_⟩
  swap
  · obtain ⟨f, hf⟩ := hcr.stack v hv
    rw [pte_eq_view, hf]
    rfl
  rw [firstVm, run_cons, run_nil, after, vmStep, Vm.createProcessMemory,
    show (boot lowLayout fun _ _ => 0).mm = bootMm from rfl, heq]
  simp only [Prod.map, id, setProc, boot, Vm.mk.injEq, true_and, and_true]
  exact update_eq_self _ _

/-- One page is mapped at the start of the heap. -/
theorem sysBrk_firstPage {m m2 : Mm} {files : List FileRegion}
    (h : m.mapUserPage 0 2816 (32, 72) true false = (m2, true)) :
    ((⟨m, fun _ => newProcMem, files⟩ : Vm).after growHeap).mm = m2 := by
  have hpages : pagesFromTo (pageUp newProcMem.brk) (pageUp 0x08049000) = [0x08048000] := by decide
  have hpage : (0x08048000 : Word).vpage = (32, 72) := by decide
  have hloop : mapRange 0 2816 true false [] m [0x08048000] = (m2, true) := by
    rw [mapRange, hpage, h]
    rfl
  rw [after, growHeap, vmStep, sysBrk]
  simp only
  rw [if_neg (by decide), hpages, hloop]
  rfl

/-- The page that `sys_brk` maps shows what a free frame held. -/
theorem growHeap_leaks :
    ¬ ∀ T, Twin firstVm T → (run after T [growHeap]).mm.view
      = (run after firstVm [growHeap]).mm.view := by
  intro hall
  obtain ⟨m, hfirst, hinv, hd, hroom, -⟩ := firstVm_spec
  rw [hfirst] at hall
  have hview := hall ⟨m.scrambled, fun _ => newProcMem, (boot lowLayout fun _ _ => 0).files⟩
    ⟨m.twin_scrambled, rfl, rfl⟩
  obtain ⟨f, m2, m2', hx, hy, hpool, hfree, hpage, hpage'⟩ :=
    (hroom.mono (by decide)).mapUserPage_dirty (v := (32, 72)) m.twin_scrambled hinv hd (by decide)
  rw [run_cons, run_nil, run_cons, run_nil, sysBrk_firstPage hx, sysBrk_firstPage hy] at hview
  rw [hview, hpage] at hpage'
  exact mem_scrambled hpool hfree (Prod.mk.inj (Option.some.inj hpage')).2.symm

theorem twin_scrambled (S : Vm) : Twin S { S with mm := S.mm.scrambled } :=
  ⟨S.mm.twin_scrambled, rfl, rfl⟩

/-- An anonymous mapping of a page. -/
def mapPage : VmEvent := .mmap 0 2816 0 4096 3 mapAnon 0xFFFFFFFF false

/-- After the first process was created, other words in the free frames do not
show in the page that `sys_mmap` maps. -/
theorem view_eq_mapPage :
    Twin firstVm { firstVm with mm := firstVm.mm.scrambled } ∧
      (run after { firstVm with mm := firstVm.mm.scrambled } [mapPage]).mm.view
        = (run after (boot lowLayout fun _ _ => 0)
            ([.create 0 true true] ++ [mapPage])).mm.view := by
  have hroom : Mm.Room identityEndFrame (boot lowLayout fun _ _ => 0).mm 0 (2 + 65) :=
    room_pagingInit lowLayout _ 0 (le_refl _) (by decide)
  have htwin := twin_scrambled firstVm
  have hcreate : FreshOk (boot lowLayout fun _ _ => 0) (.create 0 true true) :=
    ⟨fun _ hd => (Option.some_ne_none _ hd.symm).elim, hroom.createProcessMemory.2⟩
  have hmap : FreshOk firstVm mapPage := by
    obtain ⟨m, hfirst, -, hd, -⟩ := firstVm_spec
    rw [hfirst]
    refine ⟨fun d hdd => ?_, ?_⟩
    · cases hdd
      exact hd
    · show ¬ MeansFramebuffer 0 mapAnon 0xFFFFFFFF false
      decide
  exact ⟨htwin, (view_eq_of_freshOk lowLayout (fun _ _ => 0) [.create 0 true true]
    [mapPage] _ ⟨hcreate, trivial⟩ htwin ⟨hmap, trivial⟩).2⟩

end Vm

end UnixOs
