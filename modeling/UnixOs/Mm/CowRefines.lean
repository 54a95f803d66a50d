import UnixOs.Mm.User
import UnixOs.Mm.Counts

/-!
# Copy-on-write is eager copying

The abstract machine `Eager` has no frames: a process has pages with their
content and a write permission, and a fork copies all of them. The events of the
copy-on-write machine drive it too. `pages S` reads an eager state off a state
of the memory manager: a page with the copy-on-write bit counts as writable.

After every run the pages read off the one machine are the state of the other,
so every load of every process gives what it would give had fork copied.
-/

namespace UnixOs

open Function List Machine

/-! ## The eager machine -/

/-- A page of a process that shares nothing. -/
structure Page where
  data : Idx → Word
  writable : Bool

/-- A byte of the page is stored. -/
def Page.store (p : Page) (i : Idx) (k : Fin 4) (x : BitVec 8) : Page :=
  { p with data := Mm.storeByte p.data i k x }

/-- The pages of every process, each process named by its directory. -/
abbrev Eager := Frame → VPage → Option Page

/-- What happens to the processes: one is created, maps a cleared page, forks, or
stores a byte. The events carry what the kernel returned. -/
inductive CowEvent where
  | create (c : Nat) (d : Frame)
  | mmap (c : Nat) (d : Frame) (v : VPage) (writable : Bool)
  | fork (c : Nat) (src dst : Frame)
  | store (c : Nat) (d : Frame) (v : VPage) (i : Idx) (k : Fin 4) (x : BitVec 8)
      (ok : Bool)

namespace Eager

/-- The cleared stack of a new process. -/
def newPages : VPage → Option Page := fun v =>
  if v ∈ Mm.stackPages then some ⟨fun _ => 0, true⟩ else none

/-- One page of one process becomes `p`. -/
def setPage (E : Eager) (d : Frame) (v : VPage) (p : Option Page) : Eager :=
  fun d' v' => if d' = d ∧ v' = v then p else E d' v'

/-- A store goes through where the page is writable. -/
def store (E : Eager) (d : Frame) (v : VPage) (i : Idx) (k : Fin 4)
    (x : BitVec 8) : Eager :=
  match E d v with
  | some p => if p.writable then E.setPage d v (some (p.store i k x)) else E
  | none => E

/-- The byte a process loads. -/
def load (E : Eager) (d : Frame) (v : VPage) (i : Idx) (k : Fin 4) :
    Option (BitVec 8) :=
  (E d v).map fun p => (p.data i).byte k

/-- A fork copies every page. -/
def step (E : Eager) : CowEvent → Eager
  | .create _ d => update E d newPages
  | .mmap _ d v writable => E.setPage d v (some ⟨fun _ => 0, writable⟩)
  | .fork _ src dst => update E dst (E src)
  | .store _ d v i k x ok => if ok then E.store d v i k x else E

end Eager

namespace Mm

/-! ## The copy-on-write machine -/

def cowStep (S : Mm) : CowEvent → Mm
  | .create c _ => (S.createProcessMemory c true true).1
  | .mmap c d v writable => (S.mapUserPage c d v writable true).1
  | .fork c src _ => (S.cloneProcessMemory c src true true).1
  | .store c d v i k x _ => (S.userStore c d v i k x).1

/-- The event tells what the kernel returns: creating, mapping and forking
succeed; a store may also end the process. -/
def Happens (S : Mm) : CowEvent → Prop
  | .create c d => (S.createProcessMemory c true true).2 = some d
  | .mmap c d v writable => d ∈ S.dirs ∧ v.1.IsUser ∧ S.pte d v = none ∧
      (S.mapUserPage c d v writable true).2 = true
  | .fork c src dst => src ∈ S.dirs ∧
      (S.cloneProcessMemory c src true true).2 = some dst
  | .store c d v i k x ok => d ∈ S.dirs ∧ (S.userStore c d v i k x).2 = ok

/-- The page behind an entry and the content of its frame. -/
def pageOf (y : Word × (Idx → Word)) : Page := ⟨y.2, y.1.writable || y.1.cow⟩

/-- The eager state of the processes. -/
def pages (S : Mm) : Eager := fun d v => (S.view d v).map pageOf

variable {S S' : Mm} {R : Nat → Nat → Prop} {held : Frame → Nat}
  {d src dst : Frame} {v : VPage} {y : Option (Word × (Idx → Word))}

/-! ## How the pages change -/

theorem Unseen.pages (h : Unseen held S S') : S'.pages = S.pages := by
  funext d v
  rw [Mm.pages, Mm.pages, h.view]

theorem Sets.pages (h : Sets held S S' d v y) : S'.pages = S.pages.setPage d v (y.map pageOf) := by
  funext d' v'
  rw [Mm.pages, h.view, Eager.setPage]
  split <;> rfl

theorem Created.pages (h : Created held S S' d) : S'.pages = update S.pages d Eager.newPages := by
  funext d' v'
  obtain rfl | hd := eq_or_ne d' d
  · rw [update_self, Mm.pages, Eager.newPages]
    split
    · next hv =>
      obtain ⟨f, hf⟩ := h.stack v' hv
      rw [hf, Option.map_some, pageOf, writable_entry]
      rfl
    · next hv =>
      rw [h.rest v' hv]
      rfl
  · rw [update_of_ne hd, Mm.pages, Mm.pages, h.others.view d' hd]

/-- Sharing a page changes neither its content nor whether it may be stored
to. -/
theorem pageOf_shareWord (w : Word) (m : Idx → Word) : pageOf (shareWord w, m) = pageOf (w, m) := by
  have hcow : (Word.entry w.frame (shareFlags w.flags)).cow
      = (shareFlags w.flags).cow := by
    rw [Word.cow, Word.flags_entry]
  rw [pageOf, pageOf, shareWord, writable_entry, hcow, Word.writable, Word.cow]
  congr 1
  unfold shareFlags
  split
  · next hwr =>
    rw [hwr]
    simp [Flags.cow, pageCowBit]
  · rfl

theorem map_pageOf_share (y : Option (Word × (Idx → Word))) :
    (share y).map pageOf = y.map pageOf := by
  cases y with
  | none => rfl
  | some y => exact congrArg some (pageOf_shareWord y.1 y.2)

theorem Cloned.pages (h : Cloned S S' src dst) : S'.pages = update S.pages dst (S.pages src) := by
  funext d v
  obtain rfl | hdst := eq_or_ne d dst
  · rw [update_self, pages, pages, h.child, map_pageOf_share]
  · rw [update_of_ne hdst, Mm.pages, Mm.pages]
    by_cases hsrc : d = src
    · rw [hsrc, h.parent, map_pageOf_share]
    · rw [h.others d hsrc hdst]

/-! ## The simulation -/

/-- The invariant holds and the eager machine has the pages of the processes. -/
def CowSim (R : Nat → Nat → Prop) (S : Mm) (E : Eager) : Prop :=
  Inv R S noneHeld ∧ S.pages = E

section

variable (hR : CountRel 0xFFFF R) (h : Inv R S noneHeld)
include hR h

theorem CowSim.create {c : Nat} (hd : (S.createProcessMemory c true true).2 = some d) :
    CowSim R (S.createProcessMemory c true true).1 (update S.pages d Eager.newPages) := by
  rcases h.createProcessMemory hR true (createSafe_of_some hd) with
    ⟨S', heq, -, -⟩ | ⟨S', d', heq, h', hcr⟩
  · rw [heq] at hd
    cases hd
  · rw [heq] at hd ⊢
    cases hd
    exact ⟨h', hcr.pages⟩

theorem CowSim.fork {c : Nat} (hsrc : src ∈ S.dirs)
    (hdst : (S.cloneProcessMemory c src true true).2 = some dst) :
    CowSim R (S.cloneProcessMemory c src true true).1 (update S.pages dst (S.pages src)) := by
  rcases h.cloneProcessMemory hR fewHeld_noneHeld hsrc (cloneSafe_of_some hdst) with
    ⟨S', heq, -, -⟩ | ⟨S', dst', heq, h', hcl⟩
  · rw [heq] at hdst
    cases hdst
  · rw [heq] at hdst ⊢
    cases hdst
    exact ⟨h', hcl.pages⟩

/-- A store goes to the process's own copy, so only its page changes. -/
theorem CowSim.store (hd : d ∈ S.dirs) {c : Nat} {i : Idx} {k : Fin 4} {x : BitVec 8} {ok : Bool}
    (hok : (S.userStore c d v i k x).2 = ok) :
    CowSim R (S.userStore c d v i k x).1 (if ok then S.pages.store d v i k x else S.pages) := by
  rcases h.userStore hR hd c v i k x with
    ⟨S', heq, h', hun⟩ | ⟨S', w, w', heq, h', hw, hmay, hw', hset⟩
  · rw [heq] at hok ⊢
    subst hok
    exact ⟨h', hun.pages⟩
  · rw [heq] at hok ⊢
    subst hok
    refine ⟨h', ?_⟩
    have hpage : S.pages d v = some ⟨S.mem w.frame, true⟩ := by
      rw [pages, view, hw, Option.map_some, Option.map_some, pageOf, hmay]
    rw [if_pos rfl, Eager.store, hpage]
    rw [hset.pages, Option.map_some, pageOf, hw', Bool.true_or]
    rfl

/-- A new page is cleared. -/
theorem CowSim.mmap (hd : d ∈ S.dirs) (hv : v.1.IsUser) (hnone : S.pte d v = none) {c : Nat}
    {writable : Bool} (hok : (S.mapUserPage c d v writable true).2 = true) :
    CowSim R (S.mapUserPage c d v writable true).1
      (S.pages.setPage d v (some ⟨fun _ => 0, writable⟩)) := by
  rcases h.mapUserPage hR hd hv hnone c writable true with
    ⟨S', heq, -, -⟩ | ⟨S', f, ws, heq, h', hws, hset⟩
  · rw [heq] at hok
    cases hok
  · rw [heq]
    refine ⟨h', ?_⟩
    have hcow : (Word.entry f (userFlags writable)).cow = false := by
      rw [Word.cow, Word.flags_entry]
      cases writable <;> decide
    have hwr : (Word.entry f (userFlags writable)).writable = writable := by
      rw [writable_entry]
      cases writable <;> decide
    rw [hset.pages, Option.map_some, pageOf, hcow, hwr, hws rfl, Bool.or_false]

end

/-- One event on both machines. -/
theorem CowSim.step (hR : CountRel 0xFFFF R) (S : Mm) (E : Eager) (ev : CowEvent)
    (h : CowSim R S E) (hev : S.Happens ev) : CowSim R (S.cowStep ev) (E.step ev) := by
  obtain ⟨hinv, rfl⟩ := h
  cases ev with
  | create c d => exact CowSim.create hR hinv hev
  | mmap c d v writable =>
    obtain ⟨hd, hv, hnone, hok⟩ := hev
    exact CowSim.mmap hR hinv hd hv hnone hok
  | fork c src dst => exact CowSim.fork hR hinv hev.1 hev.2
  | store c d v i k x ok => exact CowSim.store hR hinv hev.1 hev.2

section

variable {c : Nat} {w : Word} {i : Idx} {k : Fin 4} {x : BitVec 8}

/-- With a frame for the copy, a fault on a copy-on-write page is resolved. -/
theorem handleCowFault_of_frame (h : Inv R S held) (hfree : (S.allocateFrame c).2.isSome)
    (hw : S.pte d v = some w) (hcow : w.cow = true) : (S.handleCowFault c d v).2 = true := by
  obtain ⟨p, ht, hwp, rfl⟩ := pte_eq_some.1 hw
  rw [handleCowFault_eq h ht hwp hcow]
  split
  · rfl
  · cases halloc : S.allocateFrame c with
    | mk S' f =>
      rw [halloc] at hfree
      obtain ⟨f, rfl⟩ := Option.isSome_iff_exists.1 hfree
      rfl

/-- The page is writable, or a fault makes it so. -/
theorem userStore_of_frame (hR : CountRel 0xFFFF R) (hfree : (S.allocateFrame c).2.isSome)
    (h : Inv R S held) (hd : d ∈ S.dirs) (hw : S.pte d v = some w)
    (hmay : (w.writable || w.cow) = true) : (S.userStore c d v i k x).2 = true := by
  cases hwr : w.writable with
  | true =>
    rw [Mm.userStore, userTranslate_of_pte h.space hw, hwr]
    rfl
  | false =>
    have hcow : w.cow = true := by rwa [hwr, Bool.false_or] at hmay
    have hfault := handleCowFault_of_frame h hfree hw hcow
    rw [Mm.userStore, userTranslate_of_pte h.space hw, hwr]
    rcases h.handleCowFault hR hd c v with
      ⟨S1, heq, -, -⟩ | ⟨S1, w1, f, heq, -, -, h1, hset⟩
    · rw [heq] at hfault
      cases hfault
    · -- The second attempt finds the page writable.
      have hpte : S1.pte d v = some (.entry f (unshareFlags w1.flags)) := by
        rw [pte_eq_view, hset.view, if_pos ⟨rfl, rfl⟩]
        rfl
      have hwr' : (Word.entry f (unshareFlags w1.flags)).writable = true := by
        rw [writable_entry, unshareFlags_writable]
      simp only [Bool.not_false, Bool.and_self, if_true, heq,
        userTranslate_of_pte h1.space hpte, hwr', Bool.not_true, Bool.and_false,
        Bool.false_eq_true, if_false]

end

/-- Along every run, every load gives what it would give had fork copied the
pages, a store that fork with copies would let through is refused only for want of a frame,
and a frame that some entry maps writable has a count of one. -/
theorem cow_refines_eager (L : KernelLayout) (mem : Frame → Idx → Word)
    {evs : List CowEvent} (hrun : Along cowStep Happens (pagingInit L mem) evs) :
    (∀ d ∈ (run cowStep (pagingInit L mem) evs).dirs, ∀ v i k,
      (run cowStep (pagingInit L mem) evs).userLoad d v i k
        = (run Eager.step (fun _ _ => none) evs).load d v i k) ∧
    (∀ d ∈ (run cowStep (pagingInit L mem) evs).dirs, ∀ c v i k x p,
      run Eager.step (fun _ _ => none) evs d v = some p → p.writable = true →
      ((run cowStep (pagingInit L mem) evs).allocateFrame c).2.isSome →
      ((run cowStep (pagingInit L mem) evs).userStore c d v i k x).2 = true) ∧
    ∀ d v w, (run cowStep (pagingInit L mem) evs).pte d v = some w → w.writable = true →
      (run cowStep (pagingInit L mem) evs).refcount w.frame = 1 := by
  have hstart : CowSim (· = ·) (pagingInit L mem) fun _ _ => none := by
    refine ⟨inv_pagingInit L mem, ?_⟩
    funext d v
    rw [pages, view_eq_none not_mem_nil]
    rfl
  have hR := countRel_eq 0xFFFF
  obtain ⟨hinv, hpages⟩ := run_simulation (CowSim.step hR) hstart hrun
  rw [← hpages]
  refine ⟨fun d hd v i k => ?_, fun d hd c v i k x p hp hmay hfree => ?_, fun d v w hw hwr => ?_⟩
  · rw [userLoad_eq hinv.space hd, Eager.load, pages, Option.map_map]
    rfl
  · obtain ⟨y, hy, rfl⟩ := Option.map_eq_some_iff.1 hp
    exact userStore_of_frame hR hfree hinv hd (view_eq_some.1 hy).1 hmay
  · have hone := hinv.space.writable hw hwr
    have hcount := hinv.alloc.count (hinv.pool_of_pte hw)
      (hinv.alloc.owned (by rw [hone]; exact Nat.one_pos))
    exact hcount.symm.trans hone

/-! ## A run -/

variable {c : Nat} {i : Idx} {k : Fin 4} {x : BitVec 8}

theorem dirs_userStore (hR : CountRel 0xFFFF R) (h : Inv R S held)
    (hd : d ∈ S.dirs) : (S.userStore c d v i k x).1.dirs = S.dirs := by
  rcases h.userStore hR hd c v i k x with
    ⟨S', heq, -, hun⟩ | ⟨S', w, w', heq, -, -, -, -, hset⟩
  · rw [heq]
    exact hun.dirs
  · rw [heq]
    exact hset.dirs

/-- A process is created and forks, and then stores to its stack. -/
def forkRun (dst : Frame) : List CowEvent :=
  [.create 0 2816, .fork 0 2816 dst, .store 0 2816 (511, 1000) 0 0 7 true]

/-- In a run with a fork and a store by the parent, the parent loads what it
stored, the child does not. -/
theorem cow_refines_eager_forkRun :
    ∃ dst, Along cowStep Happens bootMm (forkRun dst) ∧
      (run cowStep bootMm (forkRun dst)).userLoad 2816 (511, 1000) 0 0 = some 7 ∧
      (run cowStep bootMm (forkRun dst)).userLoad dst (511, 1000) 0 0 = some 0 := by
  obtain ⟨S1, S2, dst, heq1, hcr, heq2, hcl, h2, hroom, hmem1, hmem2, -, hne⟩ := exists_fork_bootMm
  have hv : ((511, 1000) : VPage) ∈ stackPages := mem_map.2 ⟨1000, mem_idxRange.2 (by decide), rfl⟩
  obtain ⟨f, hf⟩ := hcr.stack _ hv
  have hview : S2.view 2816 (511, 1000)
      = some (shareWord (.entry f (userFlags true)), fun _ => 0) := by
    rw [hcl.parent, hf]
    rfl
  have hmay : ((shareWord (.entry f (userFlags true))).writable
      || (shareWord (.entry f (userFlags true))).cow) = true := by
    rw [shareWord, Word.writable, Word.cow, Word.flags_entry, Word.flags_entry]
    decide
  obtain ⟨_, _, halloc, -, -⟩ := hroom.allocateFrame
  have hstore := userStore_of_frame (i := 0) (k := 0) (x := 7) (countRel_eq 0xFFFF)
    (by rw [halloc]; rfl) h2 hmem2
    (view_eq_some.1 hview).1 hmay
  have hstep1 : bootMm.cowStep (.create 0 2816) = S1 := by rw [cowStep, heq1]
  have hstep2 : S1.cowStep (.fork 0 2816 dst) = S2 := by rw [cowStep, heq2]
  have hrun : Along cowStep Happens bootMm (forkRun dst) := by
    refine ⟨?_, ?_, ?_, trivial⟩
    · rw [Happens, heq1]
    · rw [hstep1]
      refine ⟨hmem1, ?_⟩
      rw [heq2]
    · rw [hstep1, hstep2]
      exact ⟨hmem2, hstore⟩
  have hdirs : (run cowStep bootMm (forkRun dst)).dirs = S2.dirs := by
    rw [forkRun, run_cons, hstep1, run_cons, hstep2, run_cons, run_nil]
    exact dirs_userStore (countRel_eq 0xFFFF) h2 hmem2
  have hnew : Eager.newPages (511, 1000) = some ⟨fun _ => 0, true⟩ := if_pos hv
  obtain ⟨hload, -⟩ := cow_refines_eager lowLayout _ hrun
  refine ⟨dst, hrun, ?_, ?_⟩
  · refine (hload 2816 (by rw [← bootMm, hdirs]; exact hmem2) _ _ _).trans ?_
    simp only [forkRun, run_cons, run_nil, Eager.step, Eager.store,
      update_self, update_of_ne hne, hnew, if_true, Eager.load,
      Eager.setPage, and_self, Option.map_some, Page.store, storeByte]
    decide
  · refine (hload dst (by rw [← bootMm, hdirs, hcl.dirs]; exact mem_cons_self)
      _ _ _).trans ?_
    simp only [forkRun, run_cons, run_nil, Eager.step, Eager.store,
      update_self, update_of_ne hne, hnew, if_true, Eager.load,
      Eager.setPage, and_true, Option.map_some, if_neg hne.symm]
    decide

end Mm

end UnixOs
