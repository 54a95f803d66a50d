import UnixOs.Mm.Alloc
import UnixOs.Mm.PageDir
import UnixOs.Lib.Run

/-!
# The frame allocator under its clients

The clients call `allocate_frame`, `frame_incref`, `frame_decref` and
`free_frame` on any CPU. `Clients` is the allocator with the references they
hold: a frame is handed out with one, a reference is copied only by a client
that has one, and only a reference that is held is dropped. The frames below the
end of the kernel heap are not the allocator's, and nothing is asked of calls
about them.

A frame of the pool is then always in one place: clear in the bitmap, parked in
one magazine, or live.
-/

namespace UnixOs

open Function List Machine

/-- The allocator and the number of references its clients hold to each frame. -/
structure Clients where
  mm : Mm
  held : Frame → Nat

/-- The calls of the clients, on CPU `c` where the magazine matters. -/
inductive FrameOp where
  | allocate (c : Nat)
  | incref (f : Frame)
  | decref (c : Nat) (f : Frame)
  | free (c : Nat) (f : Frame)

/-- Where a frame of the pool is. -/
inductive Place where
  | clear
  | parked (c : Nat)
  | live

namespace Clients

/-- One reference less to `f`. -/
def dropRef (T : Frame → Nat) (f : Frame) : Frame → Nat :=
  update T f (T f - 1)

/-- One call. -/
def step (s : Clients) : FrameOp → Clients
  | .allocate c =>
    match s.mm.allocateFrame c with
    | (S, none) => ⟨S, s.held⟩
    | (S, some f) => ⟨S, bump s.held f⟩
  | .incref f =>
    ⟨s.mm.frameIncref f,
      if f.val < heapEndFrame then s.held else bump s.held f⟩
  | .decref c f =>
    ⟨s.mm.frameDecref c f,
      if f.val < heapEndFrame then s.held else dropRef s.held f⟩
  | .free c f =>
    ⟨s.mm.freeFrame c f,
      if f.val < heapEndFrame then s.held else dropRef s.held f⟩

/-- A reference is copied or dropped by a client that has it, and no frame gets
more references than its count can say. -/
def Allowed (s : Clients) : FrameOp → Prop
  | .allocate _ => True
  | .incref f => f.val < heapEndFrame ∨ (0 < s.held f ∧ s.held f < 0xFFFF)
  | .decref _ f => f.val < heapEndFrame ∨ 0 < s.held f
  | .free _ f => f.val < heapEndFrame ∨ 0 < s.held f

/-- The frame is at the place. -/
def At (s : Clients) (f : Frame) : Place → Prop
  | .clear => s.mm.used f = false
  | .parked c => f ∈ s.mm.magazine c
  | .live => 0 < s.held f

end Clients

/-! ## The hint

The scan starts at the bitmap word `next_free`. It misses nothing, because every
word of the pool before it is full. -/

namespace Mm

variable {S S' : Mm} {R : Nat → Nat → Prop} {T : Frame → Nat} {c : Nat} {f : Frame}

/-- Every frame of the pool in a word before the hint is marked used. -/
def HintFull (S : Mm) : Prop :=
  ∀ f : Frame, f.Pool → f.val / 32 < S.nextFree → S.used f = true

section

variable (h : S.HintFull)
include h

theorem HintFull.of_eq (hu : S'.used = S.used) (hn : S'.nextFree = S.nextFree) : S'.HintFull := by
  intro f hf hlt
  rw [hu]
  exact h f hf (hn ▸ hlt)

/-- The scan covers every clear frame of the pool. -/
theorem HintFull.mem_clearList (hf : f.Pool) (hclear : S.used f = false) : f ∈ S.clearList := by
  refine Mm.mem_clearList.2 ⟨⟨?_, hf.2⟩, hclear⟩
  have hnot : ¬ f.val / 32 < S.nextFree := by
    intro hlt
    rw [h f hf hlt] at hclear
    exact Bool.noConfusion hclear
  have hlow := hf.1
  have hfirst : firstBitmapIdx = 88 := rfl
  simp only [heapEndFrame] at hlow
  rw [scanStart]
  split <;> omega

theorem hintFull_setRef (f : Frame) (n : Nat) : (S.setRef f n).HintFull := by
  refine h.of_eq (used_setRef f n) ?_
  unfold setRef
  split <;> rfl

/-- The batch takes the clear frames in order, so that none stays behind in a
word before the last one taken. -/
theorem HintFull.allocFramesLocked (want : Nat) : (S.allocFramesLocked want).1.HintFull := by
  intro f hf hlt
  refine (used_allocFramesLocked want).2 ?_
  by_cases hclear : S.used f = true
  · exact .inl hclear
  have hmem := h.mem_clearList hf (by simpa using hclear)
  dsimp only [Mm.allocFramesLocked] at hlt
  cases hlast : (S.clearFrames want).getLast? with
  | none =>
    rw [hlast] at hlt
    exact .inl (h f hf hlt)
  | some l =>
    rw [hlast] at hlt
    refine .inr ?_
    have hl : l ∈ S.clearList.take want := mem_of_getLast? hlast
    rw [← take_append_drop want S.clearList, mem_append] at hmem
    rcases hmem with hmem | hmem
    · exact hmem
    · have := lt_of_take_of_drop hl hmem
      dsimp only at hlt
      omega

/-- A frame that is cleared pulls the hint back to its word. -/
theorem HintFull.clearFrame (f : Frame) : (S.clearFrame f).HintFull := by
  intro g hg hlt
  show update S.used f false g = true
  have hlow := hg.1
  have hfirst : firstBitmapIdx = 88 := rfl
  simp only [heapEndFrame] at hlow
  dsimp only [Mm.clearFrame] at hlt
  obtain rfl | hgf := eq_or_ne g f
  · split at hlt <;> omega
  · rw [update_of_ne hgf]
    refine h g hg ?_
    split at hlt <;> omega

end

theorem HintFull.foldl_clearFrame (out : List Frame) :
    ∀ {S : Mm}, S.HintFull → (out.foldl Mm.clearFrame S).HintFull := by
  induction out with
  | nil => exact fun h => h
  | cons f out ih => exact fun h => ih (h.clearFrame f)

section

variable (h : S.HintFull)
include h

theorem HintFull.releaseFrameToPool (c : Nat) (f : Frame) :
    (S.releaseFrameToPool c f).HintFull := by
  unfold Mm.releaseFrameToPool
  split
  · exact h.of_eq rfl rfl
  · exact ((HintFull.foldl_clearFrame _ h).of_eq rfl rfl).clearFrame f

theorem HintFull.frameDecref (c : Nat) (f : Frame) : (S.frameDecref c f).HintFull := by
  obtain heq | heq | heq := S.frameDecref_cases c f
  · rw [heq]
    exact h
  · rw [heq]
    exact hintFull_setRef h f _
  · rw [heq]
    exact (hintFull_setRef h f 0).releaseFrameToPool c f

theorem HintFull.allocateFrame (c : Nat) : (S.allocateFrame c).1.HintFull := by
  obtain ⟨f, rest, -, heq⟩ | ⟨-, -, heq⟩ | ⟨f, rest, -, -, heq⟩ := S.allocateFrame_cases c
  · rw [heq]
    have hmag : (S.setMagazine c rest).HintFull := h.of_eq rfl rfl
    exact hintFull_setRef hmag f 1
  · rw [heq]
    exact h
  · rw [heq]
    exact (h.allocFramesLocked frameMagazineSize).of_eq rfl rfl

end

/-! ## What becomes allocated and what is released -/

theorem allocated_allocateFrame (h : S.MagInv) {g : Frame} :
    (S.allocateFrame c).1.Allocated g ↔ S.Allocated g ∨ (S.allocateFrame c).2 = some g := by
  obtain ⟨f, rest, hmag, heq⟩ | ⟨-, -, heq⟩ | ⟨f, rest, hmag, hout, heq⟩ := S.allocateFrame_cases c
  · rw [heq, allocated_setRef, allocated_pop h hmag, Option.some.injEq, eq_comm]
  · rw [heq]
    exact (or_iff_left (Option.some_ne_none g).symm).symm
  · rw [heq, allocated_batch h hmag hout, Option.some.injEq, eq_comm]

/-- The last reference releases the frame. -/
theorem allocated_frameDecref (hf : f.Pool) {g : Frame} (hpos : 0 < S.refcount f) :
    (S.frameDecref c f).Allocated g ↔ S.Allocated g ∧ (S.refcount f = 1 → g ≠ f) := by
  rw [frameDecref_of_pool hf, if_neg (by omega)]
  split
  · next hmany =>
    rw [allocated_setRef]
    exact ⟨fun ha => ⟨ha, fun hone => absurd hmany (by omega)⟩, fun ha => ha.1⟩
  · rw [allocated_releaseFrameToPool, allocated_setRef]
    exact and_congr_right fun _ => ⟨fun hne _ => hne, fun hne => hne (by omega)⟩

/-! ## After boot -/

/-- A layout with the kernel's tables from 1 MiB on. -/
def lowLayout : KernelLayout where
  pageTable t := Fin.ofNat (2 ^ 20) (256 + t.val)
  below := by decide
  injective := by decide

theorem clearList_pagingInit (L : KernelLayout) (mem : Frame → Idx → Word) :
    (pagingInit L mem).clearList = scanFrom firstBitmapIdx := by
  have hstart : (pagingInit L mem).scanStart = firstBitmapIdx :=
    if_pos (show 0 < firstBitmapIdx by decide)
  rw [clearList, hstart]
  refine filter_eq_self.2 fun f hf => ?_
  have hlow := (mem_scanFrom.1 hf).1
  have hnot : ¬ f.val < heapEndFrame := by
    simp only [firstBitmapIdx, heapEndFrame] at hlow ⊢
    omega
  show (!decide (f.val < heapEndFrame)) = true
  rw [decide_eq_false hnot]
  rfl

/-- The first frame handed out is the first of the pool. -/
theorem allocateFrame_pagingInit (L : KernelLayout) (mem : Frame → Idx → Word)
    (c : Nat) : ((pagingInit L mem).allocateFrame c).2 = some 2816 := by
  obtain ⟨rest, hscan⟩ : ∃ rest, scanFrom firstBitmapIdx = 2816 :: rest := ⟨_, rfl⟩
  have hfirst : (pagingInit L mem).clearFrames frameMagazineSize
      = 2816 :: rest.take 15 := by
    show (pagingInit L mem).clearList.take 16 = _
    rw [clearList_pagingInit, hscan, take_succ_cons]
  obtain ⟨f, rest, hmag, -⟩ | ⟨-, hout, -⟩ | ⟨f, rest, -, hout, heq⟩ :=
    (pagingInit L mem).allocateFrame_cases c
  · cases hmag
  · rw [hfirst] at hout
    cases hout
  · rw [hfirst] at hout
    rw [heq, (List.cons.inj hout).1]

/-- Nothing is allocated after `paging_init`. -/
theorem allocInv_pagingInit (L : KernelLayout) (mem : Frame → Idx → Word)
    (hT : ∀ f, T f = 0) : AllocInv R (pagingInit L mem) T := by
  refine ⟨fun {f} hf => ?_, fun {f} hf => ?_, fun {f} hp hf => ?_, ?_⟩
  · rw [hT] at hf
    exact absurd hf (lt_irrefl 0)
  · rw [hT] at hf
    exact absurd hf (lt_irrefl 0)
  · exact absurd hp.1 (not_le.2 (of_decide_eq_true hf.1))
  · exact ⟨fun hf => absurd hf not_mem_nil, fun _ => nodup_nil, fun hf => absurd hf not_mem_nil⟩

end Mm

/-! ## Conservation -/

namespace Clients

variable {s : Clients}

/-- The counts are the references held, every allocated frame of the pool has
one, and the hint is right. -/
structure Conserves (s : Clients) : Prop where
  alloc : Mm.AllocInv (· = ·) s.mm s.held
  live : ∀ {f : Frame}, f.Pool → s.mm.Allocated f → 0 < s.held f
  hint : s.mm.HintFull

section

variable (h : s.Conserves)
include h

/-- A frame that is allocated goes from its place to a client. -/
theorem Conserves.allocate (c : Nat) : (s.step (.allocate c)).Conserves := by
  have halloc := fun g => Mm.allocated_allocateFrame (c := c) (g := g) h.alloc.mags
  have hhint := h.hint.allocateFrame c
  rw [step]
  obtain heq | ⟨S, f, heq, -, hinv, -⟩ := h.alloc.allocateFrame (countRel_eq 0xFFFF) c
  · rw [heq]
    exact h
  · rw [heq] at halloc hhint ⊢
    refine ⟨hinv, fun {g} hp hg => ?_, hhint⟩
    rcases (halloc g).1 hg with hold | hnew
    · exact lt_of_lt_of_le (h.live hp hold) (le_bump _ _ _)
    · cases hnew
      show 0 < bump s.held f f
      rw [bump_self]
      omega

/-- A client that holds a frame gets one more reference to it. -/
theorem Conserves.incref {f : Frame} (hok : s.Allowed (.incref f)) :
    (s.step (.incref f)).Conserves := by
  have hhint := Mm.hintFull_setRef h.hint f
  have hlive : ∀ n {g : Frame}, g.Pool → (s.mm.setRef f n).Allocated g → 0 < s.held g :=
    fun n {g} hp hg => h.live hp ((Mm.allocated_setRef n).1 hg)
  rw [step]
  by_cases hlow : f.val < heapEndFrame
  · rw [if_pos hlow, Mm.frameIncref_eq]
    refine ⟨h.alloc.of_pool (Mm.used_setRef f _) (Mm.magazine_setRef f _) fun g hg => ?_,
      hlive _, hhint _⟩
    have hne : g ≠ f := fun he => not_lt.2 hg.1 (he ▸ hlow)
    exact Mm.refcount_setRef_of_ne hne _
  · rw [if_neg hlow]
    obtain ⟨hpos, hlt⟩ := hok.resolve_left hlow
    have hinv := h.alloc.incref (countRel_eq 0xFFFF) hpos hlt
    rw [Mm.frameIncref_eq] at hinv ⊢
    exact ⟨hinv, fun hp hg => lt_of_lt_of_le (hlive _ hp hg) (le_bump _ _ _), hhint _⟩

/-- Both `frame_decref` and `free_frame` drop a reference. -/
theorem Conserves.drop {f : Frame} (c : Nat) (hpos : 0 < s.held f) :
    Conserves ⟨s.mm.frameDecref c f, dropRef s.held f⟩ := by
  have hpool := h.alloc.pool hpos
  have hcount := h.alloc.count hpool (h.alloc.owned hpos)
  have hbump : bump (dropRef s.held f) f = s.held := by
    funext g
    obtain rfl | hg := eq_or_ne g f
    · rw [bump_self, dropRef, update_self]
      omega
    · rw [bump_of_ne hg, dropRef, update_of_ne hg]
  refine ⟨?_, fun {g} hp hg => ?_, h.hint.frameDecref c f⟩
  · have hinv := h.alloc
    rw [← hbump] at hinv
    exact hinv.decref (countRel_eq 0xFFFF) c
  · obtain ⟨hg, hone⟩ := (Mm.allocated_frameDecref hpool (hcount ▸ hpos)).1 hg
    have hlive := h.live hp hg
    show 0 < update s.held f (s.held f - 1) g
    obtain rfl | hgf := eq_or_ne g f
    · rw [update_self]
      have : s.held g ≠ 1 := fun he => hone (hcount ▸ he) rfl
      omega
    · rw [update_of_ne hgf]
      exact hlive

theorem Conserves.decref {c : Nat} {f : Frame}
    (hok : s.Allowed (.decref c f)) : (s.step (.decref c f)).Conserves := by
  rw [step]
  by_cases hlow : f.val < heapEndFrame
  · have hskip : s.mm.frameDecref c f = s.mm := by
      rw [Mm.frameDecref, if_neg (by simp only [frameCount, heapEndFrame] at hlow ⊢; omega),
        if_pos hlow]
    rw [if_pos hlow, hskip]
    exact h
  · rw [if_neg hlow]
    exact h.drop c (hok.resolve_left hlow)

theorem Conserves.free {c : Nat} {f : Frame}
    (hok : s.Allowed (.free c f)) : (s.step (.free c f)).Conserves := by
  rw [step, Mm.freeFrame_eq]
  exact h.decref hok

end

theorem Conserves.step (s : Clients) (op : FrameOp) (h : s.Conserves)
    (hok : s.Allowed op) : (s.step op).Conserves := by
  cases op with
  | allocate c => exact h.allocate c
  | incref f => exact h.incref hok
  | decref c f => exact h.decref hok
  | free c f => exact h.free hok

/-! ## What the clients can rely on -/

/-- Every frame of the pool is in one place, a live frame has its count, a frame
handed out comes from the pool and was not live, and `allocate_frame` fails only
where the magazine is empty and the pool is used up. -/
structure Accounted (s : Clients) : Prop where
  place : ∀ f : Frame, f.Pool → ∃! p, s.At f p
  once : ∀ c, (s.mm.magazine c).Nodup
  count : ∀ f : Frame, s.At f .live →
    s.mm.refcount f = s.held f ∧ 1 ≤ s.mm.refcount f
  fresh : ∀ c f, (s.mm.allocateFrame c).2 = some f → f.Pool ∧ ¬ s.At f .live
  complete : ∀ c, (s.mm.allocateFrame c).2 = none →
    s.mm.magazine c = [] ∧ ∀ f : Frame, f.Pool → ¬ s.At f .clear

section

variable (h : s.Conserves)
include h

/-- Every frame of the pool is in one place. -/
theorem Conserves.place {f : Frame} (hf : f.Pool) : ∃! p, s.At f p := by
  by_cases hlive : 0 < s.held f
  · obtain ⟨hu, hm⟩ := h.alloc.owned hlive
    refine ⟨.live, hlive, fun p hp => ?_⟩
    cases p with
    | clear => exact absurd hp (by rw [At, hu]; decide)
    | parked c => exact absurd hp (hm c)
    | live => rfl
  · by_cases hpark : ∃ c, f ∈ s.mm.magazine c
    · obtain ⟨c, hc⟩ := hpark
      refine ⟨.parked c, hc, fun p hp => ?_⟩
      cases p with
      | clear => exact absurd hc (h.alloc.mags.not_mem_of_clear hp)
      | parked c' => rw [h.alloc.mags.disjoint hp hc]
      | live => exact absurd hp hlive
    · have hclear : s.mm.used f = false := by
        by_contra hu
        exact hlive (h.live hf ⟨by simpa using hu, fun c hc => hpark ⟨c, hc⟩⟩)
      refine ⟨.clear, hclear, fun p hp => ?_⟩
      cases p with
      | clear => rfl
      | parked c => exact absurd ⟨c, hp⟩ hpark
      | live => exact absurd hp hlive

/-- An allocation fails only when the magazine of its CPU is empty and no bit is clear. -/
theorem Conserves.complete {c : Nat} (hnone : (s.mm.allocateFrame c).2 = none) :
    s.mm.magazine c = [] ∧ ∀ f : Frame, f.Pool → ¬ s.At f .clear := by
  obtain ⟨f, rest, -, heq⟩ | ⟨hmag, hout, -⟩ | ⟨f, rest, -, -, heq⟩ := s.mm.allocateFrame_cases c
  · rw [heq] at hnone
    cases hnone
  · refine ⟨hmag, fun f hf hclear => ?_⟩
    have hmem := h.hint.mem_clearList hf hclear
    -- An empty batch means an empty scan.
    have htake : s.mm.clearList.take frameMagazineSize = [] := hout
    rcases take_eq_nil_iff.1 htake with hsize | hnil
    · exact absurd hsize (by decide)
    · rw [hnil] at hmem
      exact absurd hmem not_mem_nil
  · rw [heq] at hnone
    cases hnone

theorem Conserves.accounted : s.Accounted := by
  refine ⟨fun f hf => h.place hf, h.alloc.mags.nodup, fun f hf => ?_, fun c f hf => ?_,
    fun c hc => h.complete hc⟩
  · have hcount := h.alloc.count (h.alloc.pool hf) (h.alloc.owned hf)
    exact ⟨hcount.symm, hcount ▸ hf⟩
  · obtain heq | ⟨S, g, heq, -, -, hz, hpool, -⟩ := h.alloc.allocateFrame (countRel_eq 0xFFFF) c
    · rw [heq] at hf
      cases hf
    · rw [heq] at hf
      cases hf
      exact ⟨hpool, not_lt.2 hz.le⟩

end

/-- The clients before their first call. -/
def boot (L : KernelLayout) (mem : Frame → Idx → Word) : Clients :=
  ⟨Mm.pagingInit L mem, fun _ => 0⟩

theorem conserves_boot (L : KernelLayout) (mem : Frame → Idx → Word) : (boot L mem).Conserves := by
  refine ⟨Mm.allocInv_pagingInit L mem fun _ => rfl, fun {f} hp hf => ?_, fun f _ hlt => ?_⟩
  · exact absurd hp.1 (not_le.2 (of_decide_eq_true hf.1))
  · exact absurd hlt (Nat.not_lt_zero _)

/-- In every state that the calls of disciplined clients reach, on any number of
CPUs, every frame of the pool is accounted for. -/
theorem frames_accounted (L : KernelLayout) (mem : Frame → Idx → Word)
    {ops : List FrameOp} (hrun : Along step Allowed (boot L mem) ops) :
    (run step (boot L mem) ops).Accounted :=
  (run_invariant Conserves.step (conserves_boot L mem) hrun).accounted

/-- A frame is handed out on CPU 0, shared, dropped on CPU 1 and freed. -/
def shareAndFree : List FrameOp :=
  [.allocate 0, .incref 2816, .decref 1 2816, .free 0 2816]

/-- The frame is accounted for when all is done. -/
theorem frames_accounted_shareAndFree :
    Along step Allowed (boot Mm.lowLayout fun _ _ => 0) shareAndFree ∧
      (run step (boot Mm.lowLayout fun _ _ => 0) shareAndFree).Accounted := by
  have hheld : ((boot Mm.lowLayout fun _ _ => 0).step (.allocate 0)).held
      = bump (fun _ => 0) 2816 := by
    have hfirst := Mm.allocateFrame_pagingInit Mm.lowLayout (fun _ _ => 0) 0
    rw [step, boot]
    cases hx : (Mm.pagingInit Mm.lowLayout fun _ _ => 0).allocateFrame 0 with
    | mk S r =>
      rw [hx] at hfirst
      obtain rfl : r = some 2816 := hfirst
      rfl
  have hrun : Along step Allowed (boot Mm.lowLayout fun _ _ => 0) shareAndFree := by
    generalize (boot Mm.lowLayout fun _ _ => 0) = s at *
    refine ⟨trivial, ?_⟩
    generalize s.step (.allocate 0) = s1 at *
    refine ⟨.inr ?_, .inr ?_, .inr ?_, trivial⟩
    · rw [hheld]
      decide
    · show 0 < (if (2816 : Frame).val < heapEndFrame then s1.held
        else bump s1.held 2816) 2816
      rw [hheld]
      decide
    · show 0 < (if (2816 : Frame).val < heapEndFrame then (s1.step (.incref 2816)).held
        else dropRef (if (2816 : Frame).val < heapEndFrame then s1.held
          else bump s1.held 2816) 2816) 2816
      rw [if_neg (by decide), hheld]
      decide
  exact ⟨hrun, frames_accounted _ _ hrun⟩

end Clients

end UnixOs
