import UnixOs.Mm.RoomFork

/-!
# Reference counts are exact

The memory manager as a machine: processes are created, forked, destroyed, and
fault, map and unmap pages, in any order and on any CPU. `Counted` is the
property of the counts. It holds along every run in which no
`destroy_page_directory`, called or rolled back into, meets a frame of the
kernel's identity map that something else still counts (`SafeOp`); without that
condition it fails as soon as the pool is used beyond frame 4096.
-/

namespace UnixOs.Mm

open List Machine

/-- The operations on the address spaces, each on a CPU and with the outcomes of
its `kmalloc`s. -/
inductive MmOp where
  | create (c : Nat) (memOk dirOk : Bool)
  | clone (c : Nat) (src : Frame) (memOk dirOk : Bool)
  | cowFault (c : Nat) (d : Frame) (v : VPage)
  | map (c : Nat) (d : Frame) (v : VPage) (writable zero : Bool)
  | unmap (c : Nat) (d : Frame) (v : VPage)
  | destroy (c : Nat) (d : Frame)

def mmStep (S : Mm) : MmOp → Mm
  | .create c memOk dirOk => (S.createProcessMemory c memOk dirOk).1
  | .clone c src memOk dirOk => (S.cloneProcessMemory c src memOk dirOk).1
  | .cowFault c d v => (S.handleCowFault c d v).1
  | .map c d v writable zero => (S.mapUserPage c d v writable zero).1
  | .unmap c d v => S.unmapUserPage c d v
  | .destroy c d => S.destroyProcessMemory c d

/-- The caller acts on a live address space and on a page of user space. -/
def ValidOp (S : Mm) : MmOp → Prop
  | .create _ _ _ => True
  | .clone _ src _ _ => src ∈ S.dirs
  | .cowFault _ d _ => d ∈ S.dirs
  | .map _ d v _ _ => d ∈ S.dirs ∧ v.1.IsUser
  | .unmap _ d v => d ∈ S.dirs ∧ v.1.IsUser
  | .destroy _ d => d ∈ S.dirs

/-- A page is mapped where there is none, and every directory that dies is safe
to destroy. -/
def SafeOp (S : Mm) (op : MmOp) : Prop :=
  S.ValidOp op ∧
    match op with
    | .create c _ dirOk => S.CreateSafe c dirOk
    | .clone c src memOk dirOk => S.CloneSafe c src memOk dirOk
    | .map _ d v _ _ => S.pte d v = none
    | .destroy _ d => S.SafeDestroy d
    | _ => True

/-- The count of an allocated frame of the pool is the number of references to
it, and a frame that is not allocated has none. -/
def Counted (S : Mm) : Prop :=
  ∀ f : Frame, f.Pool →
    (S.Allocated f → S.refcount f = S.refs f) ∧ (¬ S.Allocated f → S.refs f = 0)

variable {R : Nat → Nat → Prop} {S : Mm}

theorem Inv.counted (h : Inv (· = ·) S noneHeld) : S.Counted := by
  intro f hf
  refine ⟨fun ha => ?_, fun hna => ?_⟩
  · have hcount : S.refs f + 0 = S.refcount f := h.alloc.count hf ha
    rw [← hcount, add_zero]
  · by_contra hne
    exact hna (h.alloc.owned (Nat.add_pos_left (Nat.pos_of_ne_zero hne) _))

/-! ## The invariant along a run -/

theorem refs_pagingInit (L : KernelLayout) (mem : Frame → Idx → Word) (f : Frame) :
    (pagingInit L mem).refs f = 0 := by
  exact refCount.eq_zero_iff.2 fun s hs => absurd (owner_mem_dirs hs) not_mem_nil

/-- After `paging_init` nothing is allocated and there is no directory. -/
theorem inv_pagingInit (L : KernelLayout) (mem : Frame → Idx → Word) :
    Inv R (pagingInit L mem) noneHeld := by
  have hrefs := refs_pagingInit L mem
  have hnone : ∀ s f, (pagingInit L mem).ptr s ≠ some f := fun s f =>
    refCount.eq_zero_iff.1 (hrefs f) s
  have hnopte : ∀ {d v w}, (pagingInit L mem).pte d v ≠ some w := fun hw =>
    hnone _ _ (ptr_entry_of_pte hw)
  refine ⟨allocInv_pagingInit L mem fun f => ?_, ?_⟩
  · rw [hrefs, zero_add]
  · refine ⟨fun _ hf => absurd hf (hnone _ _), fun hw => absurd hw hnopte,
      fun hf => absurd hf (hnone _ _), fun {d i p} ht => ?_,
      fun hw => absurd hw hnopte, fun hd => absurd hd not_mem_nil,
      fun t j => ?_, nodup_nil⟩
    · exact absurd ht (hnone (.table d i) p)
    · dsimp only [pagingInit]
      cases hfind : (finRange numKernelPageTables).find?
          fun t' => L.pageTable t' = L.pageTable t with
      | none =>
        have := find?_eq_none.1 hfind t (mem_finRange t)
        simp at this
      | some t' =>
        have := find?_some hfind
        rw [L.injective (of_decide_eq_true this)]

/-- One step keeps the invariant. -/
theorem Inv.mmStep (hR : CountRel 0xFFFF R) (S : Mm) (op : MmOp)
    (h : Inv R S noneHeld) (hop : S.SafeOp op) : Inv R (S.mmStep op) noneHeld := by
  obtain ⟨hvalid, hsafe⟩ := hop
  cases op with
  | create c memOk dirOk =>
    rcases h.createProcessMemory hR memOk hsafe with
      ⟨S', heq, h', -⟩ | ⟨S', d, heq, h', -⟩
    · rw [Mm.mmStep, heq]
      exact h'
    · rw [Mm.mmStep, heq]
      exact h'
  | clone c src memOk dirOk =>
    rcases h.cloneProcessMemory hR fewHeld_noneHeld hvalid hsafe with
      ⟨S', heq, h', -⟩ | ⟨S', d, heq, h', -⟩
    · rw [Mm.mmStep, heq]
      exact h'
    · rw [Mm.mmStep, heq]
      exact h'
  | cowFault c d v =>
    rcases h.handleCowFault hR hvalid c v with
      ⟨S', heq, h', -⟩ | ⟨S', w, f, heq, -, -, h', -⟩
    · rw [Mm.mmStep, heq]
      exact h'
    · rw [Mm.mmStep, heq]
      exact h'
  | map c d v writable zero =>
    rcases h.mapUserPage hR hvalid.1 hvalid.2 hsafe c writable zero with
      ⟨S', heq, h', -⟩ | ⟨S', f, ws, heq, h', -, -⟩
    · rw [Mm.mmStep, heq]
      exact h'
    · rw [Mm.mmStep, heq]
      exact h'
  | unmap c d v => exact (h.unmapUserPage hR hvalid.1 hvalid.2 c).1
  | destroy c d => exact (h.destroyPageDirectory hR hvalid hsafe c).1

/-- The counts are exact in every state of a run that maps pages where there are
none and destroys directories where that is safe. -/
theorem refcount_eq_refs_of_safeOps (L : KernelLayout) (mem : Frame → Idx → Word)
    {ops : List MmOp} (hrun : Along mmStep SafeOp (pagingInit L mem) ops) :
    (run mmStep (pagingInit L mem) ops).Counted :=
  (run_invariant (Inv.mmStep (countRel_eq 0xFFFF)) (inv_pagingInit L mem) hrun).counted

/-- User pages are frames of the pool. One that may be written, and a directory or a
table, is referred to from one place. -/
structure Owned (S : Mm) : Prop where
  pool : ∀ {d v w}, S.pte d v = some w → w.frame.Pool
  struct : ∀ {s s' f}, s.IsStruct → S.ptr s = some f → S.ptr s' = some f → s = s'
  page : ∀ {d v w s}, S.pte d v = some w → w.writable = true → S.ptr s = some w.frame →
    s = .entry d v

theorem Inv.owned (h : Inv R S noneHeld) : S.Owned where
  pool := h.pool_of_pte
  struct := h.space.slot_unique
  page hw hwr hp := by
    have hone := h.space.writable hw hwr
    exact refCount.unique (show S.refs _ ≤ 1 by omega) hp (ptr_entry_of_pte hw)

theorem owned_of_safeOps (L : KernelLayout) (mem : Frame → Idx → Word) {ops : List MmOp}
    (hrun : Along mmStep SafeOp (pagingInit L mem) ops) :
    (run mmStep (pagingInit L mem) ops).Owned :=
  (run_invariant (Inv.mmStep (countRel_eq 0xFFFF)) (inv_pagingInit L mem) hrun).owned

/-! ## Many processes -/

/-- Every directory has the stack `create_process_memory` gave it. -/
def Stacked (S : Mm) : Prop :=
  ∀ d ∈ S.dirs, ∀ v ∈ stackPages, ∃ f, S.pte d v = some (.entry f (userFlags true))

variable {b n k : Nat} {d : Frame}

/-- A process is created on CPU 0. -/
def createOp : MmOp := .create 0 true true

/-- With room for its frames a process is created. -/
theorem Room.create (hroom : Room b S 0 (n + 65)) (h : Inv R S noneHeld)
    (hR : CountRel 0xFFFF R) (hst : S.Stacked) :
    S.SafeOp createOp ∧ Inv R (S.mmStep createOp) noneHeld ∧
      Room b (S.mmStep createOp) 0 n ∧ (S.mmStep createOp).Stacked ∧
      ∃ d, (S.allocateFrame 0).2 = some d ∧ (S.mmStep createOp).dirs = d :: S.dirs ∧
        ∀ v, v ∉ stackPages → (S.mmStep createOp).pte d v = none := by
  obtain ⟨S', d, heq, hd, hroom', h', hcr⟩ := Room.created hR h hroom
  have hop : S.SafeOp createOp := ⟨trivial, hroom.createProcessMemory.2⟩
  have hstep : S.mmStep createOp = S' := by rw [createOp, mmStep, heq]
  rw [hstep]
  refine ⟨hop, h', hroom', ?_, d, hd, hcr.dirs, fun v hv => ?_⟩
  · intro d1 hd1 v hv
    rw [hcr.dirs] at hd1
    rcases mem_cons.1 hd1 with rfl | hd1
    · obtain ⟨f, hf⟩ := hcr.stack v hv
      exact ⟨f, (view_eq_some.1 hf).1⟩
    · have hne : d1 ≠ d := fun he => hcr.fresh (he ▸ hd1)
      obtain ⟨f, hf⟩ := hst d1 hd1 v hv
      refine ⟨f, ?_⟩
      rw [pte_eq_view, hcr.others.view d1 hne, ← pte_eq_view, hf]
  · rw [pte_eq_view, hcr.rest v hv]
    rfl

/-- By induction on the number of processes. -/
theorem Room.createMany (hR : CountRel 0xFFFF R) :
    ∀ {S : Mm}, Room b S 0 (n + 65 * k) → Inv R S noneHeld → S.Stacked →
      Along mmStep SafeOp S (replicate k createOp) ∧
        Inv R (run mmStep S (replicate k createOp)) noneHeld ∧
        (run mmStep S (replicate k createOp)).Stacked ∧
        (run mmStep S (replicate k createOp)).dirs.length
          = S.dirs.length + k ∧ ∀ d ∈ S.dirs, d ∈ (run mmStep S (replicate k createOp)).dirs := by
  induction k with
  | zero => exact fun _ h hst => ⟨trivial, h, hst, rfl, fun _ hd => hd⟩
  | succ k ih =>
    intro S hroom h hst
    obtain ⟨hop, h1, hroom1, hst1, d, -, hdirs, -⟩ :=
      (hroom.mono (n := n + 65 * k + 65) (by omega)).create h hR hst
    obtain ⟨hal, h2, hst2, hlen, hsub⟩ := ih hroom1 h1 hst1
    rw [replicate_succ, run_cons]
    refine ⟨⟨hop, hal⟩, h2, hst2, ?_, fun d' hd' => hsub d' ?_⟩
    · rw [hlen, hdirs, length_cons]
      omega
    · rw [hdirs]
      exact .tail d hd'

/-- With enough processes beside `d0`, one of them has a stack page in the part
of the pool that the kernel's tables 4 to 7 map. -/
theorem Inv.exists_high_page (h : Inv R S noneHeld) (hst : S.Stacked)
    {d0 : Frame} (hd0 : d0 ∈ S.dirs) (hmany : 42 ≤ S.dirs.length) :
    ∃ d v w, d ≠ d0 ∧ S.pte d v = some w ∧ w.writable = true ∧ w.frame ∈ identityRefs := by
  by_contra hno
  push Not at hno
  let pages := (S.dirs.erase d0).product stackPages
  let number (x : Frame × VPage) : Nat := ((S.ptr (.entry x.1 x.2)).getD 0).val
  -- Every page of the other processes has a frame below 4096 ...
  have hpage : ∀ x ∈ pages, ∃ w, S.pte x.1 x.2 = some w ∧ w.writable = true ∧
      number x = w.frame.val := by
    rintro ⟨d, v⟩ hx
    obtain ⟨hd, hv⟩ := pair_mem_product.1 hx
    obtain ⟨f, hf⟩ := hst d (mem_of_mem_erase hd) v hv
    refine ⟨_, hf, ?_, ?_⟩
    · rw [writable_entry]
      decide
    · show ((S.ptr (.entry d v)).getD 0).val = _
      rw [ptr_entry_of_pte hf]
      rfl
  have hrange : pages.map number ⊆ range' heapEndFrame (4096 - heapEndFrame) := by
    intro y hy
    obtain ⟨⟨d, v⟩, hx, rfl⟩ := mem_map.1 hy
    obtain ⟨w, hw, hwr, hnum⟩ := hpage _ hx
    have hd := (h.space.nodup.mem_erase_iff.1 (pair_mem_product.1 hx).1).1
    have hpool := h.pool_of_pte hw
    have hlow := mt mem_identityRefs.2 (hno d v w hd hw hwr)
    rw [hnum, mem_range'_1]
    simp only [Frame.Pool, heapEndFrame, identityEndFrame] at hpool hlow ⊢
    omega
  -- ... and no two share one.
  have hnd : (pages.map number).Nodup := by
    refine List.Nodup.map_on ?_ ((h.space.nodup.erase d0).product nodup_stackPages)
    rintro ⟨d, v⟩ hx ⟨d', v'⟩ hx' he
    obtain ⟨w, hw, hwr, hnum⟩ := hpage _ hx
    obtain ⟨w', hw', -, hnum'⟩ := hpage _ hx'
    have hframe : w'.frame = w.frame := Fin.ext (by rw [← hnum, ← hnum', he])
    have hone := h.space.writable hw hwr
    have hptr' := ptr_entry_of_pte hw'
    rw [hframe] at hptr'
    have hslot := refCount.unique (show S.refs w.frame ≤ 1 by omega) (ptr_entry_of_pte hw) hptr'
    exact Prod.ext (Slot.entry.inj hslot).1 (Slot.entry.inj hslot).2
  have hlen : pages.length = (S.dirs.erase d0).length * stackPages.length := length_product _ _
  have hle := (subperm_of_subset hnd hrange).length_le
  rw [length_map, length_range', hlen, length_erase_of_mem hd0, length_stackPages] at hle
  simp only [heapEndFrame] at hle
  omega

theorem mmStep_destroy (S : Mm) (c : Nat) (d : Frame) :
    S.mmStep (.destroy c d) = S.destroyPageDirectory c d := rfl

/-- Destroying `d0` takes the count of a page of another process in that part to
zero. -/
theorem Inv.not_counted_destroy (h : Inv (· = ·) S noneHeld) {d0 : Frame}
    (hd0 : d0 ∈ S.dirs) {d : Frame} {v : VPage} {w : Word} (hne : d ≠ d0)
    (hw : S.pte d v = some w) (hwr : w.writable = true) (hhigh : w.frame ∈ identityRefs) (c : Nat) :
    ¬ (S.destroyPageDirectory c d0).Counted := by
  intro hcounted
  have hmapped : (S.destroyPageDirectory c d0).pte d v = some w := by
    rw [pte_destroyPageDirectory h hd0 hne]
    exact hw
  have hrefs : 0 < (S.destroyPageDirectory c d0).refs w.frame :=
    refCount.pos_of_mem (ptr_entry_of_pte hmapped)
  have hone : S.refs w.frame + 0 = 1 := h.space.writable hw hwr
  have hcount : S.refs w.frame + 0 = S.refcount w.frame :=
    h.alloc.count (h.pool_of_pte hw) (h.alloc.owned (Nat.add_pos_left (by omega) _))
  have hzero : (S.destroyPageDirectory c d0).refcount w.frame = 0 := by
    rw [refcount_destroyPageDirectory h hd0 hhigh]
    omega
  obtain ⟨hin, hout⟩ := hcounted w.frame (h.pool_of_pte hw)
  by_cases ha : (S.destroyPageDirectory c d0).Allocated w.frame
  · have := hin ha
    omega
  · have := hout ha
    omega

/-! ## Two runs -/

/-- Cleared memory after `paging_init`. -/
def bootMm : Mm := pagingInit lowLayout fun _ _ => 0

theorem stacked_bootMm : bootMm.Stacked := fun _ hd => absurd hd not_mem_nil

/-- The first process has its directory in the first frame of the pool. -/
theorem mem_dirs_first (hroom : Room b bootMm 0 (n + 65)) :
    2816 ∈ (bootMm.mmStep createOp).dirs := by
  obtain ⟨-, -, -, -, d, hd, hdirs, -⟩ :=
    hroom.create (inv_pagingInit _ _) (countRel_eq 0xFFFF) stacked_bootMm
  rw [show (bootMm.allocateFrame 0).2 = some 2816 from allocateFrame_pagingInit _ _ 0] at hd
  rw [hdirs, ← Option.some.inj hd]
  exact mem_cons_self

/-- 42 processes are created, and the first one exits. -/
def firstExits : List MmOp := replicate 42 createOp ++ [.destroy 0 2816]

/-- The exit of the first process takes the count of a frame that another
process has as its stack to zero. -/
theorem firstExits_not_counted :
    Along mmStep ValidOp bootMm firstExits ∧ ¬ (run mmStep bootMm firstExits).Counted := by
  have hroom : Room identityEndFrame bootMm 0 (0 + 65 * 42) :=
    room_pagingInit lowLayout _ 0 (le_refl _) (by decide)
  obtain ⟨hal, h, hst, hlen, -⟩ := hroom.createMany (countRel_eq 0xFFFF)
    (inv_pagingInit lowLayout _) stacked_bootMm
  have hfirst : 2816 ∈ (run mmStep bootMm (replicate 42 createOp)).dirs := by
    obtain ⟨-, h1, hroom1, hst1, -⟩ :=
      (hroom.mono (n := 65 * 41 + 65) (by omega)).create (inv_pagingInit lowLayout _)
        (countRel_eq 0xFFFF) stacked_bootMm
    obtain ⟨-, -, -, -, hsub⟩ := (hroom1.mono (n := 0 + 65 * 41) (by omega)).createMany
      (countRel_eq 0xFFFF) h1 hst1
    rw [replicate_succ, run_cons]
    exact hsub 2816 (mem_dirs_first (hroom.mono (n := 65 * 41 + 65) (by omega)))
  rw [firstExits, run_append, along_append]
  set S := run mmStep bootMm (replicate 42 createOp)
  refine ⟨⟨hal.mono fun _ _ hop => hop.1, hfirst, trivial⟩, ?_⟩
  obtain ⟨d, v, w, hne, hw, hwr, hhigh⟩ := h.exists_high_page hst hfirst
    (by rw [hlen]; exact Nat.le_add_left _ _)
  rw [run_cons, run_nil, mmStep_destroy]
  exact h.not_counted_destroy hfirst hne hw hwr hhigh 0

/-- After boot a process can be created and can fork. -/
theorem exists_fork_bootMm :
    ∃ S1 S2 dst, bootMm.createProcessMemory 0 true true = (S1, some 2816) ∧
      Created noneHeld bootMm S1 2816 ∧
      S1.cloneProcessMemory 0 2816 true true = (S2, some dst) ∧
      Cloned S1 S2 2816 dst ∧ Inv (· = ·) S2 noneHeld ∧ Room 4096 S2 0 1 ∧
      2816 ∈ S1.dirs ∧ 2816 ∈ S2.dirs ∧ dst ∈ S2.dirs ∧ 2816 ≠ dst := by
  have hR := countRel_eq 0xFFFF
  have hroom : Room 4096 bootMm 0 (1 + 1024 + 65 + 65) :=
    room_pagingInit lowLayout _ 0 (by decide) (by decide)
  obtain ⟨⟨S1, d, heq1, hd, hroom1⟩, hsafe⟩ := hroom.createProcessMemory
  have hfirst : (bootMm.allocateFrame 0).2 = some 2816 := allocateFrame_pagingInit lowLayout _ 0
  obtain rfl := Option.some.inj (hd.symm.trans hfirst)
  rcases (inv_pagingInit lowLayout fun _ _ => 0).createProcessMemory hR true hsafe with
    ⟨S1', heq1', -, -⟩ | ⟨S1', d', heq1', h1, hcr⟩
  · cases (Prod.mk.inj (heq1.symm.trans heq1')).2
  obtain ⟨rfl, he⟩ := Prod.mk.inj (heq1.symm.trans heq1')
  cases he
  have hmem : (2816 : Frame) ∈ S1.dirs := hcr.dirs ▸ mem_cons_self
  -- The stack lies behind one directory entry.
  have hcost : (userIdx.map (S1.shareCost 2816 allIdx)).sum ≤ 1024 := by
    refine sum_shareCost_le (a := 511) fun v hv => hcr.rest v fun hs => hv ?_
    obtain ⟨j, -, rfl⟩ := mem_map.1 hs
    rfl
  obtain ⟨S2, dst, heq2, hroom2⟩ := Room.cloneProcessMemory (n := 1) hR h1 hmem
    (hroom1.mono (by omega))
  have hclone : (S1.cloneProcessMemory 0 2816 true true).2 = some dst := by rw [heq2]
  rcases h1.cloneProcessMemory hR fewHeld_noneHeld hmem (cloneSafe_of_some hclone) with
    ⟨S2', heq2', -, -⟩ | ⟨S2', dst', heq2', h2, hcl⟩
  · cases (Prod.mk.inj (heq2.symm.trans heq2')).2
  obtain ⟨rfl, he⟩ := Prod.mk.inj (heq2.symm.trans heq2')
  cases he
  exact ⟨S1, S2, dst, heq1, hcr, heq2, hcl, h2, hroom2, hmem, hcl.dirs ▸ .tail _ hmem,
    hcl.dirs ▸ mem_cons_self, fun he => hcl.fresh (he ▸ hmem)⟩

/-- A process is created and forks. -/
def forks : List MmOp := [createOp, .clone 0 2816 true true]

/-- Both operations succeed, with frames below 4096. -/
theorem safeOp_forks : Along mmStep SafeOp bootMm forks ∧
    Inv (· = ·) (run mmStep bootMm forks) noneHeld ∧ Room 4096 (run mmStep bootMm forks) 0 1 ∧
    2816 ∈ (run mmStep bootMm forks).dirs ∧ ∃ child ∈ (run mmStep bootMm forks).dirs,
      child ≠ 2816 := by
  obtain ⟨S1, S2, child, heq1, -, heq2, -, h2, hroom, hmem1, hmem2, hchild, hne⟩ :=
    exists_fork_bootMm
  have hstep1 : bootMm.mmStep createOp = S1 := by rw [createOp, mmStep, heq1]
  have hstep2 : S1.mmStep (.clone 0 2816 true true) = S2 := by rw [mmStep, heq2]
  have hcreate : bootMm.SafeOp createOp :=
    ⟨trivial, createSafe_of_some (congrArg Prod.snd heq1)⟩
  have hclone : S1.SafeOp (.clone 0 2816 true true) :=
    ⟨hmem1, cloneSafe_of_some (congrArg Prod.snd heq2)⟩
  rw [forks, run_cons, run_cons, run_nil, hstep1, hstep2]
  refine ⟨⟨hcreate, ?_, trivial⟩, h2, hroom, hmem2, child, hchild, hne.symm⟩
  rw [hstep1]
  exact hclone

/-- The parent exits, and the child takes a fault on a page that was shared. -/
def parentExits (child : Frame) : List MmOp :=
  forks ++ [.destroy 0 2816, .cowFault 0 child (511, 1000)]

/-- A pool that is used below frame 4096 only is safe. -/
theorem refcount_eq_refs_parentExits :
    ∃ child, Along mmStep SafeOp bootMm (parentExits child) ∧
      (run mmStep bootMm (parentExits child)).Counted := by
  obtain ⟨hforks, h, hroom, hparent, child, hchild, hne⟩ := safeOp_forks
  have hsafe : (run mmStep bootMm forks).SafeDestroy 2816 := fun f hf =>
    .inl (hroom.refcount f (mem_identityRefs.1 hf).1)
  have hrun : Along mmStep SafeOp bootMm (parentExits child) := by
    rw [parentExits, along_append]
    refine ⟨hforks, ⟨hparent, hsafe⟩, ⟨?_, trivial⟩, trivial⟩
    rw [mmStep_destroy]
    show child ∈ ((run mmStep bootMm forks).destroyPageDirectory 0 2816).dirs
    rw [(h.destroyPageDirectory (countRel_eq 0xFFFF) hparent hsafe 0).2.1]
    exact (mem_erase_of_ne hne).2 hchild
  exact ⟨child, hrun, refcount_eq_refs_of_safeOps lowLayout _ hrun⟩

/-- The parent stores to a page that the child shares. -/
theorem owned_forks : (run mmStep bootMm (forks ++ [.cowFault 0 2816 (511, 1000)])).Owned := by
  obtain ⟨hforks, -, -, hparent, -⟩ := safeOp_forks
  refine owned_of_safeOps lowLayout _ (along_append.2 ⟨hforks, ⟨hparent, trivial⟩, trivial⟩)

end UnixOs.Mm
