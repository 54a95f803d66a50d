import UnixOs.Mm.Frames
import UnixOs.Lib.RefCount

/-!
# The allocator keeps its books

`AllocInv R S T`: the allocator's state fits `T f` references to each frame
`f`. A frame with references is *allocated*: its bit is set and no magazine
holds it, and then its count stands in the relation `R` to `T f`. A frame in a
magazine or in the bitmap has no references, whatever its count says: the
frames a batch leaves in a magazine keep the count of one they were given.
-/

namespace UnixOs

open Function List

/-- One more reference to `f`. -/
def bump (T : Frame → Nat) (f : Frame) : Frame → Nat :=
  fun g => T g + if g = f then 1 else 0

@[simp] theorem bump_self (T : Frame → Nat) (f : Frame) : bump T f f = T f + 1 := by simp [bump]

theorem bump_of_ne {T : Frame → Nat} {f g : Frame} (h : g ≠ f) : bump T f g = T g := by
  simp [bump, h]

theorem le_bump (T : Frame → Nat) (f g : Frame) : T g ≤ bump T f g :=
  Nat.le_add_right _ _

theorem Frame.Pool.lt_frameCount {f : Frame} (h : f.Pool) : f.val < frameCount := by
  have := h.2
  simp only [identityEndFrame, frameCount] at this ⊢
  omega

namespace Mm

/-- The frame is out of the bitmap and of every magazine. -/
def Allocated (S : Mm) (f : Frame) : Prop :=
  S.used f = true ∧ ∀ c, f ∉ S.magazine c

/-- The magazines hold distinct frames of the pool, marked used. -/
structure MagInv (S : Mm) : Prop where
  parked : ∀ {c f}, f ∈ S.magazine c → S.used f = true ∧ f.Pool
  nodup : ∀ c, (S.magazine c).Nodup
  disjoint : ∀ {c c' f}, f ∈ S.magazine c → f ∈ S.magazine c' → c = c'

/-- The allocator fits `T f` references to each frame `f`. -/
structure AllocInv (R : Nat → Nat → Prop) (S : Mm) (T : Frame → Nat) : Prop where
  pool : ∀ {f}, 0 < T f → f.Pool
  owned : ∀ {f}, 0 < T f → S.Allocated f
  count : ∀ {f}, f.Pool → S.Allocated f → R (T f) (S.refcount f)
  mags : S.MagInv

variable {R : Nat → Nat → Prop} {S S' : Mm} {T : Frame → Nat} {c : Nat}
  {f g : Frame}

/-! ## Fields an operation leaves alone -/

/-- Memory and directories are the same. -/
def SameSpace (S S' : Mm) : Prop :=
  S'.mem = S.mem ∧ S'.dirs = S.dirs ∧ S'.kernel = S.kernel

theorem SameSpace.refl (S : Mm) : S.SameSpace S := ⟨rfl, rfl, rfl⟩

theorem SameSpace.trans {S'' : Mm} (h : S.SameSpace S') (h' : S'.SameSpace S'') : S.SameSpace S'' :=
  ⟨h'.1.trans h.1, h'.2.1.trans h.2.1, h'.2.2.trans h.2.2⟩

/-- The allocator is the same. -/
def SameAlloc (S S' : Mm) : Prop :=
  S'.used = S.used ∧ S'.refcount = S.refcount ∧ S'.magazine = S.magazine

theorem MagInv.of_same (h : S.MagInv) (hu : S'.used = S.used)
    (hm : S'.magazine = S.magazine) : S'.MagInv := by
  constructor
  · rw [hm, hu]; exact h.parked
  · rw [hm]; exact h.nodup
  · rw [hm]; exact h.disjoint

/-- The allocator looks at the counts of the pool only. -/
theorem AllocInv.of_pool (h : AllocInv R S T) (hu : S'.used = S.used)
    (hm : S'.magazine = S.magazine) (hr : ∀ f : Frame, f.Pool → S'.refcount f = S.refcount f) :
    AllocInv R S' T := by
  have halloc : ∀ f, S'.Allocated f ↔ S.Allocated f := by
    intro f
    rw [Allocated, Allocated, hu, hm]
  refine ⟨h.pool, fun hf => (halloc _).2 (h.owned hf), fun {f} hp hf => ?_, h.mags.of_same hu hm⟩
  rw [hr f hp]
  exact h.count hp ((halloc f).1 hf)

theorem AllocInv.of_same (h : AllocInv R S T) (hs : S.SameAlloc S') : AllocInv R S' T :=
  h.of_pool hs.1 hs.2.2 fun f _ => congrFun hs.2.1 f

theorem sameSpace_setRef (S : Mm) (f : Frame) (n : Nat) : S.SameSpace (S.setRef f n) := by
  unfold setRef
  split <;> exact .refl _

theorem refcount_setRef (hf : f.Pool) (n : Nat) :
    (S.setRef f n).refcount = update S.refcount f n := by
  rw [setRef, if_pos hf.lt_frameCount]

theorem refcount_setRef_of_ne (h : g ≠ f) (n : Nat) : (S.setRef f n).refcount g = S.refcount g := by
  unfold setRef
  split
  · exact update_of_ne h _ _
  · rfl

/-- Storing the count that is there changes nothing. -/
theorem setRef_refcount (S : Mm) (f : Frame) : S.setRef f (S.refcount f) = S := by
  rw [setRef, update_eq_self]
  split <;> rfl

theorem used_setRef (f : Frame) (n : Nat) : (S.setRef f n).used = S.used := by
  unfold setRef
  split <;> rfl

theorem magazine_setRef (f : Frame) (n : Nat) : (S.setRef f n).magazine = S.magazine := by
  unfold setRef
  split <;> rfl

theorem allocated_setRef (n : Nat) : (S.setRef f n).Allocated g ↔ S.Allocated g := by
  simp only [Allocated, used_setRef, magazine_setRef]

/-- The count of one frame is stored. -/
theorem AllocInv.setRef (h : AllocInv R S T) {T' : Frame → Nat} {n : Nat}
    (hf : f.Pool) (hT : ∀ g, g ≠ f → T' g = T g)
    (hpos : 0 < T' f → S.Allocated f) (hR : S.Allocated f → R (T' f) n) :
    AllocInv R (S.setRef f n) T' := by
  constructor
  · intro g hg
    by_cases hgf : g = f
    · exact hgf ▸ hf
    · exact h.pool (hT g hgf ▸ hg)
  · intro g hg
    rw [allocated_setRef]
    obtain rfl | hgf := eq_or_ne g f
    · exact hpos hg
    · exact h.owned (hT g hgf ▸ hg)
  · intro g hp hg
    rw [allocated_setRef] at hg
    rw [refcount_setRef hf]
    obtain rfl | hgf := eq_or_ne g f
    · rw [update_self]
      exact hR hg
    · rw [update_of_ne hgf, hT g hgf]
      exact h.count hp hg
  · exact h.mags.of_same (used_setRef f n) (magazine_setRef f n)

/-! ## Allocation -/

theorem nodup_scanFrom (n : Nat) : (scanFrom n).Nodup := by
  refine List.Nodup.map_on ?_ nodup_range'
  intro a ha b hb hab
  have hval := congrArg Fin.val hab
  rw [mem_range'_1] at ha hb
  simp only [Fin.ofNat, identityEndFrame] at hval ha hb
  omega

theorem mem_scanFrom {n : Nat} : f ∈ scanFrom n ↔ n * 32 ≤ f.val ∧ f.val < identityEndFrame := by
  simp only [scanFrom, mem_map, mem_range'_1]
  constructor
  · rintro ⟨a, ha, rfl⟩
    simp only [Fin.ofNat, identityEndFrame] at ha ⊢
    omega
  · intro hf
    refine ⟨f.val, ?_, Fin.ext ?_⟩
    · omega
    · simp [Fin.ofNat]

theorem firstBitmapIdx_le_scanStart (S : Mm) : firstBitmapIdx ≤ S.scanStart := by
  unfold scanStart
  split <;> omega

variable {want : Nat} {rest : List Frame} {fs : List Frame}

/-- The scan finds frames of the pool whose bit is clear. -/
theorem mem_clearFrames (h : f ∈ S.clearFrames want) : S.used f = false ∧ f.Pool := by
  have hmem := mem_of_mem_take h
  rw [mem_filter, mem_scanFrom] at hmem
  obtain ⟨⟨hlo, hhi⟩, hu⟩ := hmem
  refine ⟨by simpa using hu, ?_, hhi⟩
  have := S.firstBitmapIdx_le_scanStart
  simp only [firstBitmapIdx, heapEndFrame] at this ⊢
  omega

theorem nodup_clearFrames (S : Mm) (want : Nat) : (S.clearFrames want).Nodup :=
  ((nodup_scanFrom _).filter _).sublist (take_sublist _ _)

/-- The frames the bitmap scan would find. -/
def clearList (S : Mm) : List Frame :=
  (scanFrom S.scanStart).filter fun f => !S.used f

theorem pairwise_scanFrom (n : Nat) : (scanFrom n).Pairwise fun f g => f.val < g.val := by
  refine pairwise_map.2 (List.Pairwise.imp_of_mem ?_ pairwise_lt_range')
  intro x y hx hy hlt
  rw [mem_range'_1] at hx hy
  simp only [Fin.ofNat, identityEndFrame] at hx hy ⊢
  omega

/-- A frame the scan finds among the first lies below those that it leaves. -/
theorem lt_of_take_of_drop {n : Nat} (hf : f ∈ S.clearList.take n)
    (hg : g ∈ S.clearList.drop n) : f.val < g.val := by
  have hp := (pairwise_scanFrom S.scanStart).filter fun f => !S.used f
  change S.clearList.Pairwise _ at hp
  rw [← take_append_drop n S.clearList, pairwise_append] at hp
  exact hp.2.2 f hf g hg

theorem nodup_clearList (S : Mm) : S.clearList.Nodup := (nodup_scanFrom _).filter _

theorem mem_clearList :
    f ∈ S.clearList ↔ (S.scanStart * 32 ≤ f.val ∧ f.val < identityEndFrame) ∧ S.used f = false := by
  rw [clearList, mem_filter, mem_scanFrom]
  simp

/-! ### Magazines -/

theorem mem_setMagazine {c' : Nat} :
    g ∈ (S.setMagazine c fs).magazine c' ↔ if c' = c then g ∈ fs else g ∈ S.magazine c' := by
  show g ∈ update S.magazine c fs c' ↔ _
  by_cases h : c' = c
  · subst h
    simp
  · simp [h]

theorem allocated_setMagazine :
    (S.setMagazine c fs).Allocated g
      ↔ S.used g = true ∧ g ∉ fs ∧ ∀ c', c' ≠ c → g ∉ S.magazine c' := by
  refine and_congr_right fun _ => ⟨fun h => ⟨?_, fun c' hc' => ?_⟩, ?_⟩
  · have := h c
    rwa [mem_setMagazine, if_pos rfl] at this
  · have := h c'
    rwa [mem_setMagazine, if_neg hc'] at this
  · rintro ⟨hfs, hother⟩ c'
    rw [mem_setMagazine]
    split
    · exact hfs
    · next hc' => exact hother c' hc'

/-- A magazine may hold frames that are marked and in no other magazine. -/
theorem MagInv.setMagazine (h : S.MagInv) (hnd : fs.Nodup)
    (hpark : ∀ g ∈ fs, S.used g = true ∧ g.Pool)
    (hdisj : ∀ g ∈ fs, ∀ c', c' ≠ c → g ∉ S.magazine c') : (S.setMagazine c fs).MagInv := by
  constructor
  · intro c' f hf
    rw [mem_setMagazine] at hf
    split at hf
    · exact hpark f hf
    · exact h.parked hf
  · intro c'
    show (update S.magazine c fs c').Nodup
    by_cases hc' : c' = c
    · rw [hc', update_self]
      exact hnd
    · rw [update_of_ne hc']
      exact h.nodup c'
  · intro c1 c2 f h1 h2
    rw [mem_setMagazine] at h1 h2
    split at h1
    · next hc1 =>
      split at h2
      · next hc2 => rw [hc1, hc2]
      · next hc2 => exact absurd h2 (hdisj f h1 c2 hc2)
    · next hc1 =>
      split at h2
      · exact absurd h1 (hdisj f h2 c1 hc1)
      · exact h.disjoint h1 h2

/-- A parked frame has no references. -/
theorem AllocInv.eq_zero_of_parked (h : AllocInv R S T) (hf : f ∈ S.magazine c) : T f = 0 := by
  by_contra hne
  exact (h.owned (Nat.pos_of_ne_zero hne)).2 c hf

/-- A frame whose bit is clear has no references. -/
theorem AllocInv.eq_zero_of_clear (h : AllocInv R S T) (hf : S.used f = false) : T f = 0 := by
  by_contra hne
  have := (h.owned (Nat.pos_of_ne_zero hne)).1
  rw [hf] at this
  exact absurd this (by decide)

/-- Taking a frame from a magazine changes the status of that frame only. -/
theorem allocated_pop (h : S.MagInv) (hmag : S.magazine c = f :: rest) :
    (S.setMagazine c rest).Allocated g ↔ S.Allocated g ∨ g = f := by
  have hfc : f ∈ S.magazine c := hmag ▸ mem_cons_self
  have hnd := h.nodup c
  rw [hmag, nodup_cons] at hnd
  rw [allocated_setMagazine]
  constructor
  · rintro ⟨hu, hr, ho⟩
    by_cases hgf : g = f
    · exact .inr hgf
    · refine .inl ⟨hu, fun c' hc' => ?_⟩
      obtain rfl | hcc := eq_or_ne c' c
      · rw [hmag] at hc'
        exact hr (mem_of_ne_of_mem hgf hc')
      · exact ho c' hcc hc'
  · rintro (⟨hu, hm⟩ | rfl)
    · exact ⟨hu, fun hg => hm c (hmag ▸ .tail f hg), fun c' _ => hm c'⟩
    · exact ⟨(h.parked hfc).1, hnd.1, fun c' hc' hg => hc' (h.disjoint hg hfc)⟩

variable (hR : CountRel 0xFFFF R) (h : AllocInv R S T)

include hR h in
/-- A frame without references becomes allocated, with a count of one. -/
theorem AllocInv.handOut (hpool : f.Pool)
    (hzero : T f = 0) (halloc : ∀ g, S'.Allocated g ↔ S.Allocated g ∨ g = f)
    (hone : S'.refcount f = 1) (hcount : ∀ g, S.Allocated g → g ≠ f → S'.refcount g = S.refcount g)
    (hmags : S'.MagInv) : AllocInv R S' (bump T f) := by
  have hpos : ∀ {g}, 0 < bump T f g → g ≠ f → 0 < T g := fun hg hne => bump_of_ne (T := T) hne ▸ hg
  refine ⟨fun {g} hg => ?_, fun {g} hg => (halloc g).2 ?_, fun {g} hp hg => ?_, hmags⟩
  · by_cases hgf : g = f
    · exact hgf ▸ hpool
    · exact h.pool (hpos hg hgf)
  · by_cases hgf : g = f
    · exact .inr hgf
    · exact .inl (h.owned (hpos hg hgf))
  · obtain rfl | hgf := eq_or_ne g f
    · rw [bump_self, hone, hzero]
      exact hR.one
    · have hold := ((halloc g).1 hg).resolve_right hgf
      rw [bump_of_ne hgf, hcount g hold hgf]
      exact h.count hp hold

include hR h in
/-- A frame is taken from the top of a magazine. -/
theorem AllocInv.pop (hmag : S.magazine c = f :: rest) :
    AllocInv R ((S.setMagazine c rest).setRef f 1) (bump T f) := by
  have hfc : f ∈ S.magazine c := hmag ▸ mem_cons_self
  have hpool : f.Pool := (h.mags.parked hfc).2
  have hnd := h.mags.nodup c
  rw [hmag, nodup_cons] at hnd
  have hrest : ∀ g ∈ rest, g ∈ S.magazine c := fun g hg => hmag ▸ .tail f hg
  have hmags : (S.setMagazine c rest).MagInv :=
    h.mags.setMagazine hnd.2 (fun g hg => h.mags.parked (hrest g hg))
      fun g hg c' hc' hg' => hc' (h.mags.disjoint hg' (hrest g hg))
  refine h.handOut hR hpool (h.eq_zero_of_parked hfc) (fun g => ?_) ?_ (fun g _ hne => ?_)
    (hmags.of_same (used_setRef f 1) (magazine_setRef f 1))
  · rw [allocated_setRef, allocated_pop h.mags hmag]
  · rw [refcount_setRef hpool, update_self]
  · exact refcount_setRef_of_ne hne 1

theorem MagInv.not_mem_of_clear (h : S.MagInv) (hf : S.used f = false) : f ∉ S.magazine c := by
  intro hc
  have := (h.parked hc).1
  rw [hf] at this
  exact absurd this (by decide)

theorem used_allocFramesLocked (want : Nat) :
    (S.allocFramesLocked want).1.used g = true ↔ S.used g = true ∨ g ∈ S.clearFrames want := by
  show (S.used g || decide (g ∈ S.clearFrames want)) = true ↔ _
  rw [Bool.or_eq_true, decide_eq_true_eq]

/-- With a batch the first frame becomes allocated; the rest goes from the
bitmap to the magazine. -/
theorem allocated_batch (h : S.MagInv) (hmag : S.magazine c = [])
    (hout : S.clearFrames want = f :: rest) :
    ((S.allocFramesLocked want).1.setMagazine c rest.reverse).Allocated g
      ↔ S.Allocated g ∨ g = f := by
  have hclear : ∀ g ∈ f :: rest, S.used g = false := fun g hg => (mem_clearFrames (hout ▸ hg)).1
  have hnd : (f :: rest).Nodup := hout ▸ S.nodup_clearFrames want
  have hm1 : (S.allocFramesLocked want).1.magazine = S.magazine := rfl
  rw [allocated_setMagazine, used_allocFramesLocked, hout, mem_reverse]
  constructor
  · rintro ⟨hu, hr, ho⟩
    by_cases hgf : g = f
    · exact .inr hgf
    · refine .inl ⟨hu.resolve_right ?_, fun c' hc' => ?_⟩
      · exact fun hg => hr (mem_of_ne_of_mem hgf hg)
      · by_cases hcc : c' = c
        · rw [hcc, hmag] at hc'
          exact absurd hc' not_mem_nil
        · exact ho c' hcc hc'
  · rintro (⟨hu, hm⟩ | rfl)
    · refine ⟨.inl hu, fun hg => ?_, fun c' _ => hm c'⟩
      have := hclear g (.tail f hg)
      rw [hu] at this
      exact absurd this (by decide)
    · exact ⟨.inr mem_cons_self, (nodup_cons.1 hnd).1,
        fun c' _ => h.not_mem_of_clear (hclear _ mem_cons_self)⟩

include hR h in
/-- A batch is taken from the bitmap: the first frame is handed out, the rest
is parked. -/
theorem AllocInv.batch (hmag : S.magazine c = []) (hout : S.clearFrames want = f :: rest) :
    AllocInv R ((S.allocFramesLocked want).1.setMagazine c rest.reverse) (bump T f) := by
  have hmem : ∀ g ∈ f :: rest, S.used g = false ∧ g.Pool := fun g hg => mem_clearFrames (hout ▸ hg)
  have hnd : (f :: rest).Nodup := hout ▸ S.nodup_clearFrames want
  obtain ⟨hclear, hpool⟩ := hmem f mem_cons_self
  have hused : ∀ {g}, S.used g = true ∨ g ∈ S.clearFrames want →
      (S.allocFramesLocked want).1.used g = true := (used_allocFramesLocked want).2
  refine h.handOut hR hpool (h.eq_zero_of_clear hclear)
    (fun g => allocated_batch h.mags hmag hout) ?_ (fun g hold _ => ?_) ?_
  · show (if f ∈ S.clearFrames want then 1 else S.refcount f) = 1
    rw [hout, if_pos mem_cons_self]
  · refine if_neg fun hin => ?_
    have := (mem_clearFrames hin).1
    rw [hold.1] at this
    exact absurd this (by decide)
  · refine MagInv.setMagazine ⟨fun hg => ⟨hused (.inl (h.mags.parked hg).1),
      (h.mags.parked hg).2⟩, h.mags.nodup, h.mags.disjoint⟩
      (nodup_reverse.2 (nodup_cons.1 hnd).2) (fun g hg => ?_) fun g hg c' _ => ?_
    · rw [mem_reverse] at hg
      have hg' := mem_cons_of_mem f hg
      exact ⟨hused (.inr (hout ▸ hg')), (hmem g hg').2⟩
    · rw [mem_reverse] at hg
      exact h.mags.not_mem_of_clear (hmem g (.tail f hg)).1

theorem allocFramesLocked_of_nil (hout : S.clearFrames want = []) :
    (S.allocFramesLocked want).1 = S := by
  simp [allocFramesLocked, hout]

/-- What `allocate_frame` can do: take a frame from the magazine, find none, or take
a batch from the bitmap. -/
theorem allocateFrame_cases (S : Mm) (c : Nat) :
    (∃ f rest, S.magazine c = f :: rest ∧
      S.allocateFrame c = ((S.setMagazine c rest).setRef f 1, some f)) ∨
    (S.magazine c = [] ∧ S.clearFrames frameMagazineSize = [] ∧
      S.allocateFrame c = (S, none)) ∨
    ∃ f rest, S.magazine c = [] ∧ S.clearFrames frameMagazineSize = f :: rest ∧
      S.allocateFrame c
        = ((S.allocFramesLocked frameMagazineSize).1.setMagazine c rest.reverse, some f) := by
  have hS : ∀ {out}, S.clearFrames frameMagazineSize = out →
      S.allocFramesLocked frameMagazineSize = ((S.allocFramesLocked frameMagazineSize).1, out) := by
    rintro _ rfl
    rfl
  unfold allocateFrame
  cases S.magazine c with
  | cons f rest => exact .inl ⟨f, rest, rfl, rfl⟩
  | nil =>
    cases hout : S.clearFrames frameMagazineSize with
    | nil =>
      rw [hS hout, allocFramesLocked_of_nil hout]
      exact .inr (.inl ⟨rfl, rfl, rfl⟩)
    | cons f rest =>
      refine .inr (.inr ⟨f, rest, rfl, rfl, ?_⟩)
      rw [hS hout]

include hR h in
/-- What `allocate_frame` does: it fails without a change, or it hands out a frame
that had no references, with a count of one. -/
theorem AllocInv.allocateFrame (c : Nat) :
    S.allocateFrame c = (S, none) ∨
      ∃ S' f, S.allocateFrame c = (S', some f) ∧ S.SameSpace S' ∧
        AllocInv R S' (bump T f) ∧ T f = 0 ∧ f.Pool ∧ S'.refcount f = 1 ∧ ¬ S.Allocated f := by
  obtain ⟨f, rest, hmag, heq⟩ | ⟨-, -, heq⟩ | ⟨f, rest, hmag, hout, heq⟩ := S.allocateFrame_cases c
  · have hfc : f ∈ S.magazine c := hmag ▸ mem_cons_self
    have hpool := (h.mags.parked hfc).2
    refine .inr ⟨_, f, heq, sameSpace_setRef _ f 1, h.pop hR hmag, h.eq_zero_of_parked hfc,
      hpool, ?_, fun ha => ha.2 c hfc⟩
    rw [refcount_setRef hpool, update_self]
  · exact .inl heq
  · obtain ⟨hclear, hpool⟩ := mem_clearFrames (hout ▸ mem_cons_self)
    refine .inr ⟨_, f, heq, .refl _, h.batch hR hmag hout, h.eq_zero_of_clear hclear, hpool,
      ?_, fun ha => ?_⟩
    · show (if f ∈ S.clearFrames _ then 1 else S.refcount f) = 1
      rw [hout, if_pos mem_cons_self]
    · rw [ha.1] at hclear
      cases hclear

/-! ## Release -/

/-- Clearing the frames of a list clears their bits only. -/
theorem foldl_clearFrame (out : List Frame) (S : Mm) :
    (∀ g, (out.foldl clearFrame S).used g = (S.used g && decide (g ∉ out))) ∧
      (out.foldl clearFrame S).magazine = S.magazine ∧
      (out.foldl clearFrame S).refcount = S.refcount ∧ S.SameSpace (out.foldl clearFrame S) := by
  induction out generalizing S with
  | nil => exact ⟨by simp, rfl, rfl, .refl _⟩
  | cons f out ih =>
    obtain ⟨hu, hm, hr, hs⟩ := ih (S.clearFrame f)
    refine ⟨fun g => ?_, hm, hr, ?_⟩
    · rw [foldl_cons, hu]
      show (update S.used f false g && _) = _
      by_cases hgf : g = f
      · subst hgf; simp
      · simp [hgf]
    · have hone : S.SameSpace (S.clearFrame f) := .refl _
      exact hone.trans hs

theorem sameSpace_releaseFrameToPool (S : Mm) (c : Nat) (f : Frame) :
    S.SameSpace (S.releaseFrameToPool c f) := by
  unfold releaseFrameToPool
  split
  · exact .refl _
  · exact (foldl_clearFrame _ S).2.2.2

theorem refcount_releaseFrameToPool (S : Mm) (c : Nat) (f : Frame) :
    (S.releaseFrameToPool c f).refcount = S.refcount := by
  unfold releaseFrameToPool
  split
  · rfl
  · exact (foldl_clearFrame _ S).2.2.1

/-- The state after half of the magazine and `f` have gone to the bitmap. -/
theorem flush_eq (S : Mm) (c : Nat) (f : Frame) (out rest : List Frame) :
    (∀ g, (((out.foldl clearFrame S).setMagazine c rest).clearFrame f).used g = true
      ↔ S.used g = true ∧ g ∉ out ∧ g ≠ f) ∧
    (((out.foldl clearFrame S).setMagazine c rest).clearFrame f).magazine
      = (S.setMagazine c rest).magazine := by
  obtain ⟨hu, hm, -, -⟩ := foldl_clearFrame out S
  constructor
  · intro g
    show update (out.foldl clearFrame S).used f false g = true ↔ _
    by_cases hgf : g = f
    · subst hgf; simp
    · simp [hgf, hu]
  · show update (out.foldl clearFrame S).magazine c rest = update S.magazine c rest
    rw [hm]

/-- Releasing a frame changes the status of that frame only. -/
theorem allocated_releaseFrameToPool :
    (S.releaseFrameToPool c f).Allocated g ↔ S.Allocated g ∧ g ≠ f := by
  unfold releaseFrameToPool
  split
  · rw [allocated_setMagazine]
    constructor
    · rintro ⟨hu, hfs, ho⟩
      rw [mem_cons, not_or] at hfs
      refine ⟨⟨hu, fun c' hc' => ?_⟩, hfs.1⟩
      by_cases hcc : c' = c
      · exact hfs.2 (hcc ▸ hc')
      · exact ho c' hcc hc'
    · rintro ⟨⟨hu, hm⟩, hne⟩
      exact ⟨hu, fun hg => (mem_cons.1 hg).elim hne (hm c), fun c' _ => hm c'⟩
  · set out := (S.magazine c).take (frameMagazineSize / 2)
    set rest := (S.magazine c).drop (frameMagazineSize / 2)
    have hinmag : ∀ g, g ∈ S.magazine c ↔ g ∈ out ∨ g ∈ rest := by
      intro g
      rw [← mem_append, take_append_drop]
    obtain ⟨hused, hmags⟩ := flush_eq S c f out rest
    constructor
    · rintro ⟨hug, hmg⟩
      obtain ⟨hug, hgo, hgf⟩ := (hused g).1 hug
      refine ⟨⟨hug, fun c' hc' => hmg c' ?_⟩, hgf⟩
      rw [hmags, mem_setMagazine]
      split
      · next hcc => exact ((hinmag g).1 (hcc ▸ hc')).resolve_left hgo
      · exact hc'
    · rintro ⟨⟨hug, hmg⟩, hgf⟩
      refine ⟨(hused g).2 ⟨hug, fun ho => hmg c ((hinmag g).2 (.inl ho)), hgf⟩, ?_⟩
      intro c' hc'
      rw [hmags, mem_setMagazine] at hc'
      split at hc'
      · exact hmg c ((hinmag g).2 (.inr hc'))
      · exact hmg c' hc'

/-- The frame goes to the magazine, or with half of a full one back to the bitmap. -/
theorem MagInv.releaseFrameToPool (h : S.MagInv) (hf : S.Allocated f)
    (hpool : f.Pool) (c : Nat) : (S.releaseFrameToPool c f).MagInv := by
  unfold Mm.releaseFrameToPool
  split
  · -- Onto the magazine.
    refine h.setMagazine (nodup_cons.2 ⟨hf.2 c, h.nodup c⟩) ?_ ?_
    · intro g hg
      rcases mem_cons.1 hg with rfl | hg
      · exact ⟨hf.1, hpool⟩
      · exact h.parked hg
    · intro g hg c' hc' hg'
      rcases mem_cons.1 hg with rfl | hg
      · exact hf.2 c' hg'
      · exact hc' (h.disjoint hg' hg)
  · -- Half of the magazine and `f` go to the bitmap.
    set out := (S.magazine c).take (frameMagazineSize / 2)
    set rest := (S.magazine c).drop (frameMagazineSize / 2)
    have hsplit : out ++ rest = S.magazine c := take_append_drop _ _
    have hnd : (out ++ rest).Nodup := hsplit ▸ h.nodup c
    have hrestmag : ∀ g ∈ rest, g ∈ S.magazine c := fun g hg => hsplit ▸ mem_append_right out hg
    obtain ⟨hused, hmags⟩ := flush_eq S c f out rest
    have hbase : (S.setMagazine c rest).MagInv :=
      h.setMagazine (List.Nodup.of_append_right hnd)
        (fun g hg => h.parked (hrestmag g hg))
        fun g hg c' hc' hg' => hc' (h.disjoint hg' (hrestmag g hg))
    constructor
    · intro c' g hg
      rw [hmags, mem_setMagazine] at hg
      have hgm : g ∈ S.magazine c' ∧ g ∉ out := by
        split at hg
        · next hcc => exact ⟨hcc ▸ hrestmag g hg, fun ho => disjoint_of_nodup_append hnd ho hg⟩
        · next hcc => exact ⟨hg, fun ho => hcc (h.disjoint hg (hsplit ▸ mem_append_left rest ho))⟩
      refine ⟨(hused g).2 ⟨(h.parked hgm.1).1, hgm.2, ?_⟩, (h.parked hgm.1).2⟩
      rintro rfl
      exact hf.2 c' hgm.1
    · intro c'
      rw [hmags]
      exact hbase.nodup c'
    · rw [hmags]
      exact hbase.disjoint

/-- A frame without references goes back to the pool. -/
theorem AllocInv.release (h : AllocInv R S T) (hf : S.Allocated f)
    (hpool : f.Pool) (hzero : T f = 0) : AllocInv R (S.releaseFrameToPool c f) T := by
  refine ⟨h.pool, fun {g} hg => ?_, fun {g} hp hg => ?_, h.mags.releaseFrameToPool hf hpool c⟩
  · rw [allocated_releaseFrameToPool]
    exact ⟨h.owned hg, fun hgf => by rw [hgf] at hg; omega⟩
  · rw [allocated_releaseFrameToPool] at hg
    rw [refcount_releaseFrameToPool]
    exact h.count hp hg.1

/-! ## Counting up and down -/

/-- What `frame_decref` can do. -/
theorem frameDecref_cases (S : Mm) (c : Nat) (f : Frame) :
    S.frameDecref c f = S ∨ S.frameDecref c f = S.setRef f (S.refcount f - 1) ∨
      S.frameDecref c f = (S.setRef f 0).releaseFrameToPool c f := by
  unfold frameDecref
  split
  · exact .inl rfl
  split
  · exact .inl rfl
  split
  · exact .inl rfl
  split
  · exact .inr (.inl rfl)
  · exact .inr (.inr rfl)

theorem sameSpace_frameDecref (S : Mm) (c : Nat) (f : Frame) : S.SameSpace (S.frameDecref c f) := by
  obtain heq | heq | heq := S.frameDecref_cases c f
  · rw [heq]
    exact .refl _
  · rw [heq]
    exact sameSpace_setRef _ _ _
  · rw [heq]
    exact (sameSpace_setRef _ _ _).trans (sameSpace_releaseFrameToPool _ _ _)

/-- `free_frame` is `frame_decref`, which skips the frames of the kernel itself. -/
theorem freeFrame_eq (S : Mm) (c : Nat) (f : Frame) : S.freeFrame c f = S.frameDecref c f := by
  rw [freeFrame]
  split
  · next hlow =>
    rw [frameDecref, if_neg (by simp only [frameCount, heapEndFrame] at hlow ⊢; omega), if_pos hlow]
  · rfl

theorem frameIncref_eq : S.frameIncref f
    = S.setRef f (if S.refcount f < 0xFFFF then S.refcount f + 1 else S.refcount f) := by
  rw [frameIncref]
  by_cases hf : frameCount ≤ f.val
  · rw [if_pos hf, setRef, if_neg (not_lt.2 hf)]
  · rw [if_neg hf]
    split
    · rfl
    · exact (setRef_refcount S f).symm

theorem sameSpace_freeFrame (S : Mm) (c : Nat) (f : Frame) : S.SameSpace (S.freeFrame c f) := by
  rw [freeFrame_eq]
  exact sameSpace_frameDecref S c f

theorem frameDecref_of_pool (hf : f.Pool) (c : Nat) :
    S.frameDecref c f =
      if S.refcount f = 0 then S
      else if 1 < S.refcount f then S.setRef f (S.refcount f - 1)
      else (S.setRef f 0).releaseFrameToPool c f := by
  rw [frameDecref, if_neg (not_le.2 hf.lt_frameCount), if_neg (not_lt.2 hf.1)]

theorem refcount_frameDecref (hf : f.Pool) (c : Nat) :
    (S.frameDecref c f).refcount = update S.refcount f (S.refcount f - 1) := by
  rw [frameDecref_of_pool hf]
  split
  · next hz => rw [hz, Nat.zero_sub, ← hz, update_eq_self]
  · split
    · exact refcount_setRef hf _
    · rw [refcount_releaseFrameToPool, refcount_setRef hf,
        show S.refcount f - 1 = 0 by omega]

/-- One reference is given up. -/
theorem AllocInv.decref (hR : CountRel 0xFFFF R) (h : AllocInv R S (bump T f))
    (c : Nat) : AllocInv R (S.frameDecref c f) T := by
  have hpos : 0 < bump T f f := by rw [bump_self]; omega
  have hpool := h.pool hpos
  have halloc := h.owned hpos
  have hcount := h.count hpool halloc
  rw [bump_self] at hcount
  have hle := hR.le hcount
  rw [frameDecref_of_pool hpool, if_neg (by omega)]
  split
  · refine h.setRef hpool (fun g hg => (bump_of_ne hg).symm) (fun _ => halloc) ?_
    intro _
    obtain ⟨n, hn⟩ : ∃ n, S.refcount f = n + 1 := ⟨S.refcount f - 1, by omega⟩
    rw [hn] at hcount ⊢
    exact hR.succ.1 hcount
  · have hzero : T f = 0 := by omega
    have hset : AllocInv R (S.setRef f 0) T :=
      h.setRef hpool (fun g hg => (bump_of_ne hg).symm) (fun _ => halloc)
        fun _ => by rw [hzero]; exact hR.zero
    exact hset.release ((allocated_setRef 0).2 halloc) hpool hzero

include hR h in
/-- One reference is added to a frame that has some. -/
theorem AllocInv.incref
    (hpos : 0 < T f) (hlt : T f < 0xFFFF) : AllocInv R (S.frameIncref f) (bump T f) := by
  have hpool := h.pool hpos
  have halloc := h.owned hpos
  rw [frameIncref_eq]
  refine h.setRef hpool (fun g hg => bump_of_ne hg) (fun _ => halloc) fun _ => ?_
  rw [bump_self]
  exact hR.saturate (h.count hpool halloc) hlt

theorem sameSpace_frameIncref (S : Mm) (f : Frame) : S.SameSpace (S.frameIncref f) := by
  rw [frameIncref_eq]
  exact sameSpace_setRef _ _ _

/-- A count of zero is not counted down. -/
theorem frameDecref_of_zero (h : S.refcount f = 0) (c : Nat) : S.frameDecref c f = S := by
  simp [frameDecref, h]

/-! ## The allocator does not look at the memory -/

/-- The same state with another memory. -/
def withMem (S : Mm) (m : Frame → Idx → Word) : Mm := { S with mem := m }

section WithMem

variable {m : Frame → Idx → Word}

theorem setRef_withMem (n : Nat) : (S.withMem m).setRef f n = (S.setRef f n).withMem m := by
  unfold setRef
  split <;> rfl

theorem foldl_clearFrame_withMem (out : List Frame) (S : Mm) :
    out.foldl clearFrame (S.withMem m) = (out.foldl clearFrame S).withMem m := by
  induction out generalizing S with
  | nil => rfl
  | cons f out ih => exact ih (S.clearFrame f)

theorem releaseFrameToPool_withMem :
    (S.withMem m).releaseFrameToPool c f = (S.releaseFrameToPool c f).withMem m := by
  have hmag : (S.withMem m).magazine = S.magazine := rfl
  simp only [releaseFrameToPool, hmag, foldl_clearFrame_withMem]
  split <;> rfl

theorem frameDecref_withMem : (S.withMem m).frameDecref c f = (S.frameDecref c f).withMem m := by
  have href : (S.withMem m).refcount = S.refcount := rfl
  simp only [Mm.frameDecref, href, setRef_withMem, releaseFrameToPool_withMem]
  split
  · rfl
  split
  · rfl
  split
  · rfl
  split <;> rfl

theorem frameIncref_withMem : (S.withMem m).frameIncref f = (S.frameIncref f).withMem m := by
  rw [frameIncref_eq, frameIncref_eq]
  exact setRef_withMem _

/-- The allocator does not look at the memory. -/
theorem allocateFrame_withMem :
    (S.withMem m).allocateFrame c = ((S.allocateFrame c).1.withMem m, (S.allocateFrame c).2) := by
  have hmags : (S.withMem m).magazine = S.magazine := rfl
  have hbatch : (S.withMem m).allocFramesLocked frameMagazineSize
      = ((S.allocFramesLocked frameMagazineSize).1.withMem m,
        (S.allocFramesLocked frameMagazineSize).2) := rfl
  simp only [Mm.allocateFrame, hmags, hbatch]
  cases S.magazine c with
  | cons f rest => exact Prod.ext (setRef_withMem (S := S.setMagazine c rest) 1) rfl
  | nil =>
    cases S.allocFramesLocked frameMagazineSize with
    | mk S1 out =>
      cases out with
      | nil | cons => rfl

/-- Counting down and storing touch different parts of the state. -/
theorem frameDecref_setWord (c : Nat) (f p : Frame) (j : Idx) (w : Word) :
    (S.setWord p j w).frameDecref c f = (S.frameDecref c f).setWord p j w := by
  rw [setWord, setWord, (sameSpace_frameDecref S c f).1]
  exact frameDecref_withMem

theorem frameIncref_setWord (f p : Frame) (j : Idx) (w : Word) :
    (S.setWord p j w).frameIncref f = (S.frameIncref f).setWord p j w := by
  rw [setWord, setWord, (sameSpace_frameIncref S f).1]
  exact frameIncref_withMem

end WithMem

end Mm

end UnixOs
