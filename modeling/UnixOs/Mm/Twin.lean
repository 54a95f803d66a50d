import UnixOs.Mm.Clone
import UnixOs.Mm.FrameOps
import UnixOs.Mm.User

/-!
# Memories that differ in free frames

`Twin D S T`: the states are the same, except for the content of frames of the
pool that are free, and of the frames in `D`, which the running code has taken
from the pool and not yet filled. A store of the same word, and every operation
of the allocator, keeps two states twins; a load gives the same in both where
the frame is referred to. So an operation of the memory manager keeps twins if it
fills every frame it takes before it leaves it to a process.
-/

namespace UnixOs

open Function Option

namespace Mm

/-- The frame is allocated, or not from the pool. -/
def Live (S : Mm) (f : Frame) : Prop := f.Pool → S.Allocated f

structure Twin (D : Frame → Prop) (S T : Mm) : Prop where
  used : T.used = S.used
  nextFree : T.nextFree = S.nextFree
  refcount : T.refcount = S.refcount
  magazine : T.magazine = S.magazine
  dirs : T.dirs = S.dirs
  kernel : T.kernel = S.kernel
  mem : ∀ f, S.Live f → ¬ D f → T.mem f = S.mem f

/-- No frame is yet to be filled. -/
abbrev clean : Frame → Prop := fun _ => False

variable {S T S' T' : Mm} {D D' : Frame → Prop} {m : Frame → Idx → Word}
  {R : Nat → Nat → Prop} {held : Frame → Nat} {c : Nat} {d f p : Frame} {v : VPage}
  {i : Idx} {w : Word}

theorem Twin.eq_withMem (h : Twin D S T) : T = S.withMem T.mem := by
  obtain ⟨mem, used, nextFree, refcount, magazine, dirs, kernel⟩ := T
  obtain ⟨rfl, rfl, rfl, rfl, rfl, rfl, -⟩ := h
  rfl

theorem Twin.refl (S : Mm) : Twin D S S := ⟨rfl, rfl, rfl, rfl, rfl, rfl, fun _ _ _ => rfl⟩

theorem allocated_of_frameDecref {g : Frame} (h : (S.frameDecref c f).Allocated g) :
    S.Allocated g := by
  obtain heq | heq | heq := S.frameDecref_cases c f
  · rwa [heq] at h
  · rw [heq] at h
    exact (allocated_setRef _).1 h
  · rw [heq] at h
    exact (allocated_setRef _).1 (allocated_releaseFrameToPool.1 h).1

theorem allocated_of_frameIncref {g : Frame} (h : (S.frameIncref f).Allocated g) :
    S.Allocated g := by
  rw [frameIncref_eq] at h
  exact (allocated_setRef _).1 h

/-! ## Twins under the allocator -/

section

variable (h : Twin D S T)
include h

theorem Twin.mono (himp : ∀ f, D f → D' f) : Twin D' S T :=
  ⟨h.used, h.nextFree, h.refcount, h.magazine, h.dirs, h.kernel,
    fun f hf hD => h.mem f hf fun hc => hD (himp f hc)⟩

/-- A change that both states make and that leaves the memory alone. -/
theorem Twin.of_withMem (hT : T' = S'.withMem T.mem) (hmem : S'.mem = S.mem)
    (hlive : ∀ g, S'.Live g → ¬ D' g → S.Live g ∧ ¬ D g) : Twin D' S' T' := by
  subst hT
  refine ⟨rfl, rfl, rfl, rfl, rfl, rfl, fun g hg hD => ?_⟩
  obtain ⟨hold, hDold⟩ := hlive g hg hD
  rw [hmem]
  exact h.mem g hold hDold

theorem Twin.frameDecref (c : Nat) (f : Frame) :
    Twin D (S.frameDecref c f) (T.frameDecref c f) := by
  refine h.of_withMem ?_ (sameSpace_frameDecref S c f).1 fun g hg hD =>
    ⟨fun hp => allocated_of_frameDecref (hg hp), hD⟩
  rw [h.eq_withMem]
  exact frameDecref_withMem

theorem Twin.freeFrame (c : Nat) (f : Frame) : Twin D (S.freeFrame c f) (T.freeFrame c f) := by
  rw [freeFrame_eq, freeFrame_eq]
  exact h.frameDecref c f

theorem Twin.frameIncref (f : Frame) : Twin D (S.frameIncref f) (T.frameIncref f) := by
  refine h.of_withMem ?_ (sameSpace_frameIncref S f).1 fun g hg hD =>
    ⟨fun hp => allocated_of_frameIncref (hg hp), hD⟩
  rw [h.eq_withMem]
  exact frameIncref_withMem

/-- A frame that is taken from the pool may have another content in each. -/
theorem Twin.allocateFrame (hinv : Inv R S held) (hR : CountRel 0xFFFF R) (c : Nat) :
    (S.allocateFrame c = (S, none) ∧ T.allocateFrame c = (T, none)) ∨
    ∃ S1 f, S.allocateFrame c = (S1, some f) ∧
      T.allocateFrame c = (S1.withMem T.mem, some f) ∧ Got R held S S1 f ∧
      Twin (fun g => D g ∨ g = f) S1 (S1.withMem T.mem) := by
  have heq : T.allocateFrame c
      = ((S.allocateFrame c).1.withMem T.mem, (S.allocateFrame c).2) := by
    rw [h.eq_withMem]
    exact allocateFrame_withMem
  obtain hx | ⟨S1, f, hx, hgot⟩ := hinv.allocateFrame hR c
  · refine .inl ⟨hx, ?_⟩
    rw [heq, hx, h.eq_withMem]
    rfl
  · rw [hx] at heq
    refine .inr ⟨S1, f, hx, heq, hgot, h.of_withMem rfl hgot.same.1 fun g hg hD => ?_⟩
    obtain ⟨hDg, hne⟩ := not_or.1 hD
    have halloc := fun hp => (allocated_allocateFrame hinv.alloc.mags).1
      (by rw [hx]; exact hg hp)
    rw [hx] at halloc
    exact ⟨fun hp => (halloc hp).resolve_right fun he => hne (Option.some.inj he).symm, hDg⟩

end

/-! ## Twins under stores -/

/-- The same store to both keeps equal what was equal. -/
theorem mem_setFrame_congr {g : Frame} {ws : Idx → Word} (h : T.mem g = S.mem g) :
    (T.setFrame f ws).mem g = (S.setFrame f ws).mem g := by
  show update T.mem f ws g = update S.mem f ws g
  by_cases hgf : g = f
  · rw [hgf, update_self, update_self]
  · rw [update_of_ne hgf, update_of_ne hgf]
    exact h

theorem mem_setWord_congr {g : Frame} (h : T.mem g = S.mem g) :
    (T.setWord f i w).mem g = (S.setWord f i w).mem g := by
  obtain rfl | hgf := eq_or_ne g f
  · show update T.mem g _ g = update S.mem g _ g
    rw [update_self, update_self, h]
  · rw [mem_setWord_of_frame_ne _ _ _ hgf, mem_setWord_of_frame_ne _ _ _ hgf]
    exact h

section

variable (h : Twin D S T)
include h

theorem Twin.setFrame (f : Frame) (ws : Idx → Word) :
    Twin (fun g => D g ∧ g ≠ f) (S.setFrame f ws) (T.setFrame f ws) := by
  refine ⟨h.used, h.nextFree, h.refcount, h.magazine, h.dirs, h.kernel, fun g hg hD => ?_⟩
  by_cases hgf : g = f
  · show update T.mem f ws g = update S.mem f ws g
    rw [hgf, update_self, update_self]
  · exact mem_setFrame_congr (h.mem g hg fun hc => hD ⟨hc, hgf⟩)

theorem Twin.setWord (f : Frame) (i : Idx) (w : Word) :
    Twin D (S.setWord f i w) (T.setWord f i w) :=
  ⟨h.used, h.nextFree, h.refcount, h.magazine, h.dirs, h.kernel,
    fun g hg hD => mem_setWord_congr (h.mem g hg hD)⟩

theorem Twin.zeroFrame (f : Frame) :
    Twin (fun g => D g ∧ g ≠ f) (S.zeroFrame f) (T.zeroFrame f) := by
  have hzero := h.setFrame f fun _ => 0
  simp only [Mm.zeroFrame]
  split
  · exact hzero
  · have hkernel : (T.setFrame f fun _ => 0).kernel = (S.setFrame f fun _ => 0).kernel := h.kernel
    rw [tempUnmapFrame, tempUnmapFrame, hkernel]
    exact hzero.setWord _ _ _

end

/-! ## Loads -/

/-- The frames that are yet to be filled are of the pool and nothing refers to
them. -/
def Unreferenced (S : Mm) (D : Frame → Prop) : Prop :=
  ∀ g, D g → g.Pool ∧ S.refs g = 0

theorem unreferenced_clean : S.Unreferenced clean := fun _ hg => hg.elim

section Loads

variable (h : Twin D S T) (hinv : Inv R S held) (hD : S.Unreferenced D)

include h hinv hD

theorem Twin.mem_of_refs (hpos : 0 < S.refs f) : T.mem f = S.mem f :=
  h.mem f (fun _ => hinv.alloc.owned (Nat.add_pos_left hpos _))
    fun hc => absurd (hD f hc).2 (Nat.ne_of_gt hpos)

theorem Twin.mem_dir (hd : d ∈ S.dirs) : T.mem d = S.mem d :=
  h.mem_of_refs hinv hD (refCount.pos_of_mem (ptr_dir hd))

theorem Twin.mem_table (ht : S.table d i = some p) : T.mem p = S.mem p :=
  h.mem_of_refs hinv hD (refCount.pos_of_mem (s := .table d i) ht)

theorem Twin.mem_page (hw : S.pte d v = some w) : T.mem w.frame = S.mem w.frame :=
  h.mem_of_refs hinv hD (refCount.pos_of_mem (ptr_entry_of_pte hw))

omit hinv in
theorem Twin.mem_kernel (t : Fin numKernelPageTables) :
    T.mem (S.kernel.pageTable t) = S.mem (S.kernel.pageTable t) := by
  have hnot : ¬ (S.kernel.pageTable t).Pool := fun hp =>
    absurd hp.1 (not_le.2 (S.kernel.below t))
  exact h.mem _ (fun hp => absurd hp hnot) fun hc => hnot (hD _ hc).1

theorem Twin.table : T.table = S.table := by
  funext d i
  by_cases hd : d ∈ S.dirs
  · rw [Mm.table, Mm.table, h.dirs, h.mem_dir hinv hD hd]
  · rw [Mm.table, Mm.table, h.dirs, if_neg fun hc => hd hc.1, if_neg fun hc => hd hc.1]

theorem Twin.pte : T.pte = S.pte := by
  funext d v
  rw [Mm.pte, Mm.pte, h.table hinv hD]
  cases ht : S.table d v.1 with
  | none => rfl
  | some p =>
    simp only
    rw [h.mem_table hinv hD ht]

/-- A process sees the same in both. -/
theorem Twin.view : T.view = S.view := by
  funext d v
  rw [Mm.view, Mm.view, h.pte hinv hD]
  cases hw : S.pte d v with
  | none => rfl
  | some w => rw [map_some, map_some, h.mem_page hinv hD hw]

theorem Twin.ptr : T.ptr = S.ptr := by
  funext s
  cases s with
  | dir d => rw [Mm.ptr, Mm.ptr, h.dirs]
  | table d i => exact congrFun (congrFun (h.table hinv hD) d) i
  | entry d v => rw [Mm.ptr, Mm.ptr, h.pte hinv hD]

theorem Twin.refs : T.refs = S.refs := by
  funext f
  rw [Mm.refs, Mm.refs, h.ptr hinv hD]

section

variable (hd : d ∈ S.dirs)
include hd

/-- The table a walk comes to. -/
theorem Twin.mem_walk (hp : (S.mem d i).present = true) :
    T.mem (S.mem d i).frame = S.mem (S.mem d i).frame := by
  by_cases hi : i.IsUser
  · exact h.mem_table hinv hD (table_eq_some.2 ⟨hd, hi, hp, rfl⟩)
  · have hpde := hinv.space.kernelPde hd hi
    rw [kernelPde] at hpde
    split at hpde
    · rw [hpde, Word.frame_entry, h.mem_kernel hD]
    · rw [hpde] at hp
      exact absurd hp (by decide)

theorem Twin.lookup (v : VPage) : T.lookup d v = S.lookup d v := by
  dsimp only [Mm.lookup]
  rw [h.mem_dir hinv hD hd]
  cases hp : (S.mem d v.1).present with
  | false => rfl
  | true => rw [h.mem_walk hinv hD hd hp]

theorem Twin.userTranslate (v : VPage) (write : Bool) :
    T.userTranslate d v write = S.userTranslate d v write := by
  dsimp only [Mm.userTranslate]
  rw [h.mem_dir hinv hD hd]
  cases hp : (S.mem d v.1).present with
  | false => rfl
  | true => rw [h.mem_walk hinv hD hd hp]

theorem Twin.getPhysicalFrame (v : VPage) : T.getPhysicalFrame d v = S.getPhysicalFrame d v := by
  rw [Mm.getPhysicalFrame, Mm.getPhysicalFrame, h.lookup hinv hD hd]

end

/-- The invariant does not look at free frames. -/
theorem Twin.inv : Inv R T held := by
  have hrefs := h.refs hinv hD
  have hptr := h.ptr hinv hD
  have hpte := h.pte hinv hD
  have htab := h.table hinv hD
  have halloc : ∀ {f}, T.Allocated f ↔ S.Allocated f := by
    intro f
    rw [Allocated, Allocated, h.used, h.magazine]
  refine ⟨⟨fun hf => ?_, fun hf => ?_, fun hf ha => ?_, ?_⟩, ?_⟩
  · rw [hrefs] at hf
    exact hinv.alloc.pool hf
  · rw [hrefs] at hf
    exact halloc.2 (hinv.alloc.owned hf)
  · rw [hrefs, h.refcount]
    exact hinv.alloc.count hf (halloc.1 ha)
  · obtain ⟨hparked, hnodup, hdisj⟩ := hinv.alloc.mags
    refine ⟨fun hf => ?_, fun c => ?_, fun hf hf' => ?_⟩
    · rw [h.magazine] at hf
      rw [h.used]
      exact hparked hf
    · rw [h.magazine]
      exact hnodup c
    · rw [h.magazine] at hf hf'
      exact hdisj hf hf'
  · have hs := hinv.space
    refine ⟨fun {s f} hstr hf => ?_, fun {d v w} hw hwr => ?_, fun hf hf' => ?_,
      fun {d i p} ht => ?_, fun hw => ?_, fun {d i} hd hi => ?_, fun t j => ?_, ?_⟩
    · rw [hptr] at hf
      rw [hrefs]
      exact hs.exclusive hstr hf
    · rw [hpte] at hw
      rw [hrefs]
      exact hs.writable hw hwr
    · rw [hptr] at hf hf'
      exact hs.injective hf hf'
    · rw [htab] at ht
      rw [h.mem_dir hinv hD (table_eq_some.1 ht).1]
      exact hs.userPde ht
    · rw [hpte] at hw
      exact hs.userPte hw
    · rw [h.dirs] at hd
      rw [h.mem_dir hinv hD hd, h.kernel]
      exact hs.kernelPde hd hi
    · rw [h.kernel, h.mem_kernel hD]
      exact hs.kernelPte t j
    · rw [h.dirs]
      exact hs.nodup

/-- A table that is allocated is cleared before it is used. -/
theorem Twin.ensureTable (hR : CountRel 0xFFFF R) (hd : d ∈ S.dirs) (c : Nat) (i : Idx)
    (flags : Flags) :
    (T.ensureTable c d i flags).2 = (S.ensureTable c d i flags).2 ∧
      Twin D (S.ensureTable c d i flags).1 (T.ensureTable c d i flags).1 ∧
      (T.ensureTable c d i flags).1.mem d = (S.ensureTable c d i flags).1.mem d := by
  have hmd := h.mem_dir hinv hD hd
  simp only [Mm.ensureTable, hmd]
  split
  · exact ⟨rfl, h, hmd⟩
  obtain ⟨hx, hy⟩ | ⟨S1, pt, hx, hy, hgot, h1⟩ := h.allocateFrame hinv hR c
  · rw [hx, hy]
    exact ⟨rfl, h, hmd⟩
  · rw [hx, hy]
    have hclear : Twin D (S1.zeroFrame pt) ((S1.withMem T.mem).zeroFrame pt) :=
      (h1.zeroFrame pt).mono fun g hg => hg.1.resolve_right hg.2
    have hmd2 : ((S1.withMem T.mem).zeroFrame pt).mem d = (S1.zeroFrame pt).mem d := by
      rw [zeroFrame_of_pool hgot.pool, zeroFrame_of_pool hgot.pool]
      refine mem_setFrame_congr (hmd.trans ?_)
      rw [show S1.mem = S.mem from hgot.same.1]
    exact ⟨rfl, hclear.setWord _ _ _, mem_setWord_congr hmd2⟩

/-- The table that is missing is made on both. -/
theorem Twin.mapPage (hR : CountRel 0xFFFF R) (hd : d ∈ S.dirs) (c : Nat) (v : VPage)
    (f : Frame) (flags : Flags) :
    (T.mapPage c d v f flags).2 = (S.mapPage c d v f flags).2 ∧
      Twin D (S.mapPage c d v f flags).1 (T.mapPage c d v f flags).1 := by
  obtain ⟨hres, h1, hmem⟩ := h.ensureTable hinv hD hR hd c v.1 flags
  simp only [Mm.mapPage]
  cases hx : S.ensureTable c d v.1 flags with
  | mk S1 r =>
    cases hy : T.ensureTable c d v.1 flags with
    | mk T1 r' =>
      rw [hx, hy] at hres h1 hmem
      obtain rfl : r' = r := hres
      replace hmem : T1.mem d = S1.mem d := hmem
      cases r' with
      | false => exact ⟨rfl, h1⟩
      | true =>
        refine ⟨rfl, ?_⟩
        simp only [promoteUser]
        split
        · simp only [hmem, mem_setWord_self]
          exact (Twin.setWord h1 _ _ _).setWord _ _ _
        · simp only [hmem]
          exact Twin.setWord h1 _ _ _

end Loads

end Mm

end UnixOs
