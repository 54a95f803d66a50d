import UnixOs.Mm.Ops

/-!
# Destroying an address space

The loop of `destroy_page_directory` starts at directory entry 4, but entries 4
to 7 are the kernel's own tables, which map the frames 4096 to 8191 onto
themselves. So besides giving up the references of the directory
(`dirRefs S d`), the loop counts every one of these frames down once more
(`identityRefs`).

`SafeDestroy S d` says when this does no harm: a frame in that range with a
count has all of it from the directory that dies.
-/

namespace UnixOs.Mm

open Function List

variable {S S' : Mm} {R : Nat → Nat → Prop} {held : Frame → Nat}
  {d p f g : Frame} {i j : Idx} {c : Nat}

/-! ## The loop as a list of decrements -/

/-- Each frame of the list is counted down. -/
def drops (S : Mm) (c : Nat) (l : List Frame) : Mm :=
  l.foldl (fun S f => S.frameDecref c f) S

theorem drops_append (l l' : List Frame) :
    S.drops c (l ++ l') = (S.drops c l).drops c l' := foldl_append

theorem drops_singleton (f : Frame) : S.drops c [f] = S.frameDecref c f := rfl

theorem sameSpace_drops (l : List Frame) : S.SameSpace (S.drops c l) := by
  induction l generalizing S with
  | nil => exact .refl S
  | cons f l ih => exact (sameSpace_frameDecref S c f).trans ih

/-- The frames the entries of a table refer to. -/
def tableRefs (m : Frame → Idx → Word) (p : Frame) : List Frame :=
  allIdx.filterMap fun j => (asEntry (m p j)).map Word.frame

/-- The entries of a table are counted down one by one, and then its own frame is freed. -/
theorem dropTable_eq (S : Mm) (c : Nat) (p : Frame) :
    S.dropTable c p = (S.drops c (tableRefs S.mem p)).freeFrame c p := by
  -- The memory stays what it is along the loop.
  suffices hloop : ∀ (js : List Idx) (T : Mm), T.mem = S.mem →
      js.foldl (fun S j => if (S.mem p j).present = true then
          S.frameDecref c (S.mem p j).frame else S) T
        = T.drops c (js.filterMap fun j =>
            (asEntry (S.mem p j)).map Word.frame) by
    simp only [dropTable, tableRefs, hloop allIdx S rfl]
  intro js
  induction js with
  | nil => exact fun _ _ => rfl
  | cons j js ih =>
    intro T hT
    rw [foldl_cons, hT, filterMap_cons]
    by_cases hp : (S.mem p j).present = true
    · rw [if_pos hp, asEntry, if_pos hp, Option.map_some]
      rw [ih _ ((sameSpace_frameDecref T c _).1.trans hT)]
      rfl
    · rw [if_neg hp, asEntry, if_neg hp, Option.map_none]
      exact ih T hT

/-- The frames that entries 4 to 7 of every directory map. -/
def identityRefs : List Frame :=
  (idxRange 4 numKernelPageTables).flatMap fun i =>
    allIdx.map fun j => Fin.ofNat (2 ^ 20) (i.val * 1024 + j.val)

theorem idxRange_split : idxRange 4 userPdeLast = idxRange 4 numKernelPageTables ++ userIdx := by
  decide +kernel

theorem mem_identityRefs : f ∈ identityRefs ↔ 4096 ≤ f.val ∧ f.val < identityEndFrame := by
  simp only [identityRefs, mem_flatMap, mem_map, mem_idxRange,
    numKernelPageTables, identityEndFrame]
  constructor
  · rintro ⟨i, hi, j, -, rfl⟩
    simp only [Fin.ofNat]
    omega
  · intro hf
    refine ⟨⟨f.val / 1024, by omega⟩, by simp only; omega,
      ⟨f.val % 1024, by omega⟩, mem_allIdx, Fin.ext ?_⟩
    simp only [Fin.ofNat]
    omega

/-- The entry of a directory as the loop of `destroy_page_directory` sees
it. -/
theorem dropTable_kernel (h : SpaceInv S held) (t : Fin numKernelPageTables) :
    S.dropTable c (S.kernel.pageTable t)
      = S.drops c (allIdx.map fun j => Fin.ofNat (2 ^ 20) (t.val * 1024 + j.val)) := by
  have hrefs : tableRefs S.mem (S.kernel.pageTable t)
      = allIdx.map fun j => Fin.ofNat (2 ^ 20) (t.val * 1024 + j.val) := by
    rw [tableRefs, ← filterMap_eq_map]
    refine filterMap_congr fun j _ => ?_
    rw [h.kernelPte t j, kernelPte, asEntry_entry (by decide), Option.map_some, Word.frame_entry]
    rfl
  rw [dropTable_eq, hrefs, freeFrame, if_pos (S.kernel.below t)]

theorem dropTable_user (ht : S.table d i = some p) :
    S.dropTable c p = S.drops c ((rowSlots d i).filterMap S.ptr) := by
  have hentries : ((allIdx.map fun j => Slot.entry d (i, j)).filterMap S.ptr)
      = tableRefs S.mem p := by
    rw [filterMap_map]
    refine filterMap_congr fun j _ => ?_
    show (S.pte d (i, j)).map Word.frame = _
    rw [pte, ht]
  have htable : [Slot.table d i].filterMap S.ptr = [p] := by
    rw [filterMap_cons, show S.ptr (.table d i) = some p from ht, filterMap_nil]
  rw [rowSlots, filterMap_append, hentries, htable, drops_append, dropTable_eq, freeFrame_eq]
  rfl

/-- For an entry of user space these are the references of its row. -/
theorem dropPde_user (hd : d ∈ S.dirs) (hi : i.IsUser)
    (hpool : ∀ {p}, S.table d i = some p → p.Pool) :
    S.dropPde c d i = S.drops c ((rowSlots d i).filterMap S.ptr) := by
  dsimp only [dropPde]
  by_cases hp : (S.mem d i).present = true
  · have ht : S.table d i = some (S.mem d i).frame := table_eq_some.2 ⟨hd, hi, hp, rfl⟩
    rw [← dropTable_user ht]
    simp only [hp, Bool.not_true, Bool.false_eq_true, if_false]
    rw [if_neg (not_le.2 (hpool ht).2)]
  · have ht : S.table d i = none := by
      rw [table_eq_none hd hi]
      simpa using hp
    have hnil : (rowSlots d i).filterMap S.ptr = [] := by
      refine filterMap_eq_nil_iff.2 fun s hs => ?_
      simp only [rowSlots, mem_append, mem_map, mem_singleton] at hs
      rcases hs with ⟨j, -, rfl⟩ | rfl
      · show (S.pte d (i, j)).map Word.frame = none
        rw [pte_eq_none_of_table ht]
        rfl
      · exact ht
    rw [hnil]
    simp only [hp, Bool.not_false, if_true]
    rfl

theorem dropPde_kernel (h : SpaceInv S held) (hd : d ∈ S.dirs) (hi : i.val < numKernelPageTables) :
    S.dropPde c d i
      = S.drops c (allIdx.map fun j => Fin.ofNat (2 ^ 20) (i.val * 1024 + j.val)) := by
  have hnu : ¬ i.IsUser := fun hu => absurd hu.1 (not_le.2 hi)
  have hpde := h.kernelPde hd hnu
  rw [kernelPde, dif_pos hi] at hpde
  have hbelow := S.kernel.below ⟨i.val, hi⟩
  dsimp only [dropPde]
  rw [hpde, present_entry, Word.frame_entry]
  simp only [show (pagePresent ||| pageWritable).present = true by decide,
    Bool.not_true, Bool.false_eq_true, if_false]
  rw [if_neg (by simp only [heapEndFrame, identityEndFrame] at *; omega)]
  exact dropTable_kernel h ⟨i.val, hi⟩

/-- A loop whose rounds count frames down, each a list the address spaces
determine. -/
theorem foldl_drops {step : Mm → Idx → Mm} {row : Idx → List Frame} {is : List Idx}
    (hstep : ∀ T, S.SameSpace T → ∀ i ∈ is, step T i = T.drops c (row i)) :
    is.foldl step S = S.drops c (is.flatMap row) := by
  suffices hloop : ∀ (js : List Idx), js ⊆ is → ∀ T, S.SameSpace T →
      js.foldl step T = T.drops c (js.flatMap row) from
    hloop is (List.Subset.refl is) S (.refl S)
  intro js
  induction js with
  | nil => exact fun _ _ _ => rfl
  | cons i js ih =>
    intro hsub T hT
    rw [foldl_cons, hstep T hT i (hsub mem_cons_self),
      ih (fun x hx => hsub (.tail i hx)) _ (hT.trans (sameSpace_drops _)),
      flatMap_cons, drops_append]

/-- `destroy_page_directory` as a list of decrements. -/
theorem destroyPageDirectory_eq (h : Inv R S held) (hd : d ∈ S.dirs) :
    S.destroyPageDirectory c d = (S.drops c (identityRefs ++ S.dirRefs d)).removeDir d := by
  have hpool : ∀ {i p}, S.table d i = some p → p.Pool := fun {i p} ht =>
    h.alloc.pool (Nat.add_pos_left (refCount.pos_of_mem (s := .table d i) ht) _)
  have hkernel : (idxRange 4 numKernelPageTables).foldl
      (fun S i => S.dropPde c d i) S = S.drops c identityRefs :=
    foldl_drops fun T hT i hi => dropPde_kernel (h.space.of_same hT)
      (hT.2.1 ▸ hd) (mem_idxRange.1 hi).2
  have hT : S.SameSpace (S.drops c identityRefs) := sameSpace_drops _
  have huser : userIdx.foldl (fun S i => S.dropPde c d i) (S.drops c identityRefs)
      = (S.drops c identityRefs).drops c
          (userIdx.flatMap fun i => (rowSlots d i).filterMap S.ptr) := by
    refine foldl_drops fun ρ hρ i hi => ?_
    have hρ' := hT.trans hρ
    rw [← hρ'.ptr]
    refine dropPde_user (hρ'.2.1 ▸ hd) (mem_userIdx.1 hi) fun ht => ?_
    rw [hρ'.table] at ht
    exact hpool ht
  have hdirRefs : S.dirRefs d
      = (userIdx.flatMap fun i => (rowSlots d i).filterMap S.ptr) ++ [d] := by
    rw [dirRefs, slotsOf, filterMap_append, filterMap_flatMap,
      filterMap_cons, ptr_dir hd, filterMap_nil]
  simp only [destroyPageDirectory]
  rw [idxRange_split, foldl_append, hkernel, huser, hdirRefs, drops_append,
    drops_append, freeFrame_eq, drops_singleton]

/-! ## What the decrements do to the books -/

theorem refcount_drops (f : Frame) (l : List Frame) (hl : ∀ g ∈ l, g.Pool) :
    (S.drops c l).refcount f = S.refcount f - l.count f := by
  induction l generalizing S with
  | nil => rfl
  | cons g l ih =>
    have hstep : S.drops c (g :: l) = (S.frameDecref c g).drops c l := rfl
    rw [hstep, ih fun x hx => hl x (.tail g hx),
      refcount_frameDecref (hl g mem_cons_self)]
    obtain rfl | hfg := eq_or_ne f g
    · rw [update_self, count_cons_self]
      omega
    · rw [update_of_ne hfg, count_cons_of_ne (Ne.symm hfg)]

/-- The list takes the references `extra` away. A frame may stand in it more
often than that, if nothing else refers to it and its count is exact: then the
decrements past zero do nothing. -/
theorem AllocInv.drops (hR : CountRel 0xFFFF R) {N extra : Frame → Nat}
    {l : List Frame} (h : AllocInv R S fun f => N f + extra f) (hl : ∀ f, l.count f = extra f ∨
      (extra f ≤ l.count f ∧ N f = 0 ∧ S.refcount f = extra f)) : AllocInv R (S.drops c l) N := by
  induction l generalizing S extra with
  | nil =>
    have hextra : (fun f => N f + extra f) = N := by
      funext f
      have := hl f
      simp only [count_nil] at this
      omega
    rw [hextra] at h
    exact h
  | cons f l ih =>
    have hstep : S.drops c (f :: l) = (S.frameDecref c f).drops c l := rfl
    rw [hstep]
    have hother : ∀ g, g ≠ f → (f :: l).count g = l.count g := fun g hg =>
      count_cons_of_ne (Ne.symm hg)
    have hself : (f :: l).count f = l.count f + 1 := count_cons_self
    by_cases hz : extra f = 0
    · -- Past zero: the decrement does nothing.
      have hrc : S.refcount f = 0 := by
        have := hl f
        omega
      rw [frameDecref_of_zero hrc]
      refine ih h fun g => ?_
      obtain rfl | hg := eq_or_ne g f
      · have := hl g
        omega
      · rw [← hother g hg]
        exact hl g
    · -- One of the references goes.
      have hbump : (fun g => N g + extra g)
          = bump (fun g => N g + (if g = f then extra f - 1 else extra g)) f := by
        funext g
        obtain rfl | hg := eq_or_ne g f
        · simp only [bump, if_true]
          omega
        · simp only [bump, if_neg hg, add_zero]
      rw [hbump] at h
      have hpool : f.Pool := h.pool (by rw [bump_self]; omega)
      refine ih (h.decref hR c) fun g => ?_
      rw [refcount_frameDecref hpool]
      obtain rfl | hg := eq_or_ne g f
      · have := hl g
        simp only [if_true, update_self]
        omega
      · rw [update_of_ne hg, if_neg hg, ← hother g hg]
        exact hl g

/-! ## When destroying is safe -/

/-- A frame mapped by the kernel's tables 4 to 7 has no count, or all of it
from the directory that dies. -/
def SafeDestroy (S : Mm) (d : Frame) : Prop :=
  ∀ f ∈ identityRefs, S.refcount f = 0 ∨ S.refcount f = (S.dirRefs d).count f

/-- No frame is twice in the identity map. -/
theorem nodup_identityRefs : identityRefs.Nodup := by
  refine nodup_flatMap.2 ⟨fun i hi => ?_, ?_⟩
  · refine List.Nodup.map_on ?_ (nodup_finRange _)
    intro j _ j' _ he
    have hval := congrArg Fin.val he
    have hi' := (mem_idxRange.1 hi).2
    simp only [Fin.ofNat, numKernelPageTables] at hval hi'
    exact Fin.ext (by omega)
  · have hnd : (idxRange 4 numKernelPageTables).Nodup := (nodup_finRange _).filter _
    refine hnd.imp_of_mem fun {i i'} hi hi' hne f hf hf' => ?_
    obtain ⟨j, -, rfl⟩ := mem_map.1 hf
    obtain ⟨j', -, he⟩ := mem_map.1 hf'
    have hval := congrArg Fin.val he
    have h1 := (mem_idxRange.1 hi).2
    have h2 := (mem_idxRange.1 hi').2
    simp only [Fin.ofNat, numKernelPageTables] at hval h1 h2
    exact hne (Fin.ext (by omega))

theorem pool_of_identityRefs (hf : f ∈ identityRefs) : f.Pool := by
  have := mem_identityRefs.1 hf
  simp only [Frame.Pool, heapEndFrame] at this ⊢
  omega

theorem sameSpace_removeDir (h : S.SameSpace S') (d : Frame) :
    (S.removeDir d).SameSpace (S'.removeDir d) :=
  ⟨h.1, congrArg (List.erase · d) h.2.1, h.2.2⟩

theorem sameAlloc_removeDir (S : Mm) (d : Frame) : S.SameAlloc (S.removeDir d) :=
  ⟨rfl, rfl, rfl⟩

/-- A directory goes, and the books are as if its references had never
been. -/
theorem Inv.removeDir_of_alloc (h : Inv R S held) (hsame : S.SameSpace S')
    (ha : AllocInv R S' fun f => (S.removeDir d).refs f + held f) :
    Inv R (S'.removeDir d) held ∧ (S'.removeDir d).dirs = S.dirs.erase d ∧
      (S'.removeDir d).mem = S.mem ∧ (S'.removeDir d).kernel = S.kernel ∧
      ∀ d', d' ≠ d → (S'.removeDir d).view d' = S.view d' := by
  have hrem := sameSpace_removeDir hsame d
  obtain ⟨hinv, hpte⟩ := h.removeDir d
  refine ⟨⟨?_, ?_⟩, hrem.2.1, hrem.1, hrem.2.2, fun d' hd' => ?_⟩
  · rw [hrem.refs]
    exact ha.of_same (sameAlloc_removeDir S' d)
  · exact (hinv.space.unhold fun g => Nat.le_add_right _ _).of_same hrem
  · funext v
    rw [hrem.view, view, hpte d' hd']
    rfl

/-- Where it is safe, the decrements leave the books of the other
directories. -/
theorem Inv.alloc_drops (hR : CountRel 0xFFFF R) (h : Inv R S held)
    (hsafe : S.SafeDestroy d) (c : Nat) :
    AllocInv R (S.drops c (identityRefs ++ S.dirRefs d))
      fun f => (S.removeDir d).refs f + held f := by
  set N := fun f => (S.removeDir d).refs f + held f with hTdef
  have hsum : (fun f => (S.removeDir d).refs f + (held f + (S.dirRefs d).count f))
      = fun f => N f + (S.dirRefs d).count f :=
    funext fun f => (add_assoc _ _ _).symm
  have halloc : AllocInv R S fun f => N f + (S.dirRefs d).count f := by
    rw [← hsum]
    exact (h.removeDir d).1.alloc.of_same ⟨rfl, rfl, rfl⟩
  refine halloc.drops hR fun f => ?_
  rw [count_append]
  by_cases hf : f ∈ identityRefs
  · -- The count bounds all references, so it leaves none to others.
    have hle : N f + (S.dirRefs d).count f ≤ S.refcount f := by
      by_cases hpos : 0 < N f + (S.dirRefs d).count f
      · exact hR.le (halloc.count (pool_of_identityRefs hf) (halloc.owned hpos))
      · omega
    have := hsafe f hf
    exact .inr ⟨by omega, by omega, by omega⟩
  · rw [count_eq_zero_of_not_mem hf]
    exact .inl (zero_add _)

/-- `destroy_page_directory` where it is safe: the invariant is kept and the
other address spaces see what they saw. -/
theorem Inv.destroyPageDirectory (hR : CountRel 0xFFFF R) (h : Inv R S held)
    (hd : d ∈ S.dirs) (hsafe : S.SafeDestroy d) (c : Nat) :
    Inv R (S.destroyPageDirectory c d) held ∧ (S.destroyPageDirectory c d).dirs = S.dirs.erase d ∧
      (S.destroyPageDirectory c d).mem = S.mem ∧
      (S.destroyPageDirectory c d).kernel = S.kernel ∧
      ∀ d', d' ≠ d → (S.destroyPageDirectory c d).view d' = S.view d' := by
  rw [destroyPageDirectory_eq h hd]
  exact h.removeDir_of_alloc (sameSpace_drops _) (h.alloc_drops hR hsafe c)

/-- The entries of the other directories stay, safe or not. -/
theorem pte_destroyPageDirectory (h : Inv R S held) (hd : d ∈ S.dirs)
    {d' : Frame} (hne : d' ≠ d) (c : Nat) : (S.destroyPageDirectory c d).pte d' = S.pte d' := by
  rw [destroyPageDirectory_eq h hd, (sameSpace_removeDir (sameSpace_drops _) d).pte]
  exact (h.removeDir d).2 d' hne

/-- A frame of the identity map is counted down once more than the directory
refers to it. -/
theorem refcount_destroyPageDirectory (h : Inv R S held) (hd : d ∈ S.dirs)
    (hf : f ∈ identityRefs) (c : Nat) :
    (S.destroyPageDirectory c d).refcount f = S.refcount f - (1 + (S.dirRefs d).count f) := by
  have hpool : ∀ g ∈ identityRefs ++ S.dirRefs d, g.Pool := by
    intro g hg
    rcases mem_append.1 hg with hg | hg
    · exact pool_of_identityRefs hg
    · obtain ⟨s, -, hs⟩ := mem_filterMap.1 hg
      exact h.alloc.pool (Nat.add_pos_left (refCount.pos_of_mem hs) _)
  have hone : identityRefs.count f = 1 := count_eq_one_of_mem nodup_identityRefs hf
  rw [destroyPageDirectory_eq h hd,
    (sameAlloc_removeDir (S.drops c (identityRefs ++ S.dirRefs d)) d).2.1,
    refcount_drops f _ hpool, count_append, hone]

end UnixOs.Mm
