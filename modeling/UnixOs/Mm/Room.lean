import UnixOs.Mm.Create
import UnixOs.Mm.FrameOps

/-!
# Allocation succeeds while there is room

`avail S c` counts the frames CPU `c` can get: those of its magazine and those
the bitmap scan would find. An allocation takes one of them. `Room b S c n`
says that `n` more allocations succeed and only hand out frames below `b`,
given that no frame from `b` on has a count yet.
-/

namespace UnixOs.Mm

open Function List

variable {S S' : Mm} {R : Nat → Nat → Prop} {held : Frame → Nat}
  {b c m n : Nat} {d f : Frame} {v : VPage} {flags : Flags}

/-- The number of frames CPU `c` can allocate. -/
def avail (S : Mm) (c : Nat) : Nat := (S.magazine c).length + S.clearList.length

/-! ## The scan goes upward -/

/-- Where many frames are clear, the first of them are low. -/
theorem lt_of_mem_take (hlen : n + (identityEndFrame - b) ≤ S.clearList.length)
    (hf : f ∈ S.clearList.take n) : f.val < b := by
  have hin : (S.clearList.drop n).map Fin.val ⊆
      List.range' (f.val + 1) (identityEndFrame - (f.val + 1)) := by
    intro x hx
    obtain ⟨g, hg, rfl⟩ := mem_map.1 hx
    have hlt := lt_of_take_of_drop hf hg
    have hend := (mem_clearList.1 (mem_of_mem_drop hg)).1.2
    rw [mem_range'_1]
    omega
  have hnd : ((S.clearList.drop n).map Fin.val).Nodup :=
    (S.nodup_clearList.sublist (drop_sublist _ _)).map Fin.val_injective
  have hle := (subperm_of_subset hnd hin).length_le
  have hend := (mem_clearList.1 (mem_of_mem_take hf)).1.2
  rw [length_map, length_drop, length_range'] at hle
  omega

/-! ## One allocation -/

/-- The batch leaves the frames behind it for the next scan. -/
theorem length_drop_le_clearList (hne : S.clearFrames n ≠ []) :
    (S.clearList.drop n).length ≤ (S.allocFramesLocked n).1.clearList.length := by
  refine (subperm_of_subset (S.nodup_clearList.sublist (drop_sublist _ _)) fun g hg => ?_).length_le
  have hgc := mem_clearList.1 (mem_of_mem_drop hg)
  have hlast := getLast_mem hne
  have hlt := lt_of_take_of_drop (show _ ∈ S.clearList.take n from hlast) hg
  have hnot : g ∉ S.clearFrames n := fun hin =>
    absurd (lt_of_take_of_drop (show g ∈ S.clearList.take n from hin) hg) (lt_irrefl _)
  have hnext : (S.allocFramesLocked n).1.nextFree
      = ((S.clearFrames n).getLast hne).val / 32 := by
    dsimp only [allocFramesLocked]
    rw [List.getLast?_eq_some_getLast hne]
  have hlow := (mem_clearFrames hlast).2.1
  refine mem_clearList.2 ⟨⟨?_, hgc.1.2⟩, ?_⟩
  · simp only [heapEndFrame] at hlow
    rw [scanStart, hnext, if_neg (by simp only [firstBitmapIdx, heapEndFrame]; omega)]
    omega
  · show (S.used g || decide (g ∈ S.clearFrames n)) = false
    rw [hgc.2, decide_eq_false hnot]
    rfl

/-- There is room for `n` allocations on CPU `c`, all of frames below `b`. -/
structure Room (b : Nat) (S : Mm) (c n : Nat) : Prop where
  bound : b ≤ identityEndFrame
  avail : n + (identityEndFrame - b) + frameMagazineSize ≤ S.avail c
  refcount : ∀ f : Frame, b ≤ f.val → S.refcount f = 0
  magazine : ∀ f ∈ S.magazine c, f.val < b

theorem Room.mono (h : Room b S c m) (hle : n ≤ m) : Room b S c n :=
  ⟨h.bound, by have := h.avail; omega, h.refcount, h.magazine⟩

theorem Room.of_same (h : Room b S c n) (hs : S.SameAlloc S')
    (hn : S'.nextFree = S.nextFree) : Room b S' c n := by
  obtain ⟨hu, hr, hm⟩ := hs
  refine ⟨h.bound, ?_, by rw [hr]; exact h.refcount, by rw [hm]; exact h.magazine⟩
  have hclear : S'.clearList = S.clearList := by simp only [clearList, scanStart, hu, hn]
  rw [Mm.avail, hclear, hm]
  exact h.avail

/-- The count of a frame below `b` changes. -/
theorem Room.setRef (h : Room b S c n) (hf : f.val < b) (k : Nat) : Room b (S.setRef f k) c n := by
  have hclear : (S.setRef f k).clearList = S.clearList := by
    unfold Mm.setRef
    split <;> rfl
  refine ⟨h.bound, ?_, fun g hg => ?_, ?_⟩
  · rw [Mm.avail, hclear, magazine_setRef]
    exact h.avail
  · rw [refcount_setRef_of_ne (by rintro rfl; omega)]
    exact h.refcount g hg
  · rw [magazine_setRef]
    exact h.magazine

/-- The magazine is refilled by a batch where it is empty. -/
theorem Room.allocateFrame (h : Room b S c (n + 1)) :
    ∃ S' f, S.allocateFrame c = (S', some f) ∧ f.val < b ∧ Room b S' c n := by
  have hav := h.avail
  -- with an empty magazine the batch is complete and lies below `b`
  have hbatch : S.magazine c = [] →
      (∀ g ∈ S.clearFrames frameMagazineSize, g.val < b) ∧
      (S.clearFrames frameMagazineSize).length = frameMagazineSize := by
    intro hmag
    rw [Mm.avail, hmag, length_nil, zero_add] at hav
    refine ⟨fun g hg => lt_of_mem_take (by omega) (show g ∈ S.clearList.take _ from hg), ?_⟩
    show (S.clearList.take _).length = _
    rw [length_take]
    omega
  obtain ⟨f, rest, hmag, heq⟩ | ⟨hmag, hout, -⟩ | ⟨f, rest, hmag, hout, heq⟩ :=
    S.allocateFrame_cases c
  -- from the magazine
  · have hf := h.magazine f (hmag ▸ mem_cons_self)
    have hrest : (S.setMagazine c rest).magazine c = rest := update_self _ _ _
    refine ⟨_, f, heq, hf,
      Room.setRef (S := S.setMagazine c rest) ⟨h.bound, ?_, h.refcount, fun g hg => ?_⟩ hf 1⟩
    · have hclear : (S.setMagazine c rest).clearList = S.clearList := rfl
      rw [Mm.avail, hmag, length_cons] at hav
      rw [Mm.avail, hclear, hrest]
      omega
    · rw [hrest] at hg
      exact h.magazine g (hmag ▸ mem_cons_of_mem f hg)
  -- an empty batch, which there is room against
  · have hlen := (hbatch hmag).2
    rw [hout] at hlen
    exact absurd hlen (by decide)
  -- the first of a batch, the rest of which becomes the magazine
  · obtain ⟨hlow, hlen⟩ := hbatch hmag
    have hdrop := length_drop_le_clearList
      (show S.clearFrames frameMagazineSize ≠ [] by rw [hout]; exact cons_ne_nil _ _)
    rw [hout] at hlen hlow
    refine ⟨_, f, heq, hlow f mem_cons_self, h.bound, ?_, fun g hg => ?_, fun g hg => ?_⟩
    · have hmag' : ((S.allocFramesLocked frameMagazineSize).1.setMagazine c
          rest.reverse).magazine c = rest.reverse := update_self _ _ _
      have hclear : ((S.allocFramesLocked frameMagazineSize).1.setMagazine c
          rest.reverse).clearList = (S.allocFramesLocked frameMagazineSize).1.clearList := rfl
      rw [length_drop] at hdrop
      rw [length_cons] at hlen
      rw [Mm.avail, hmag, length_nil] at hav
      rw [Mm.avail, hmag', hclear, length_reverse]
      omega
    · show (if g ∈ S.clearFrames frameMagazineSize then 1 else S.refcount g) = 0
      rw [hout, if_neg fun hin => by have := hlow g hin; omega]
      exact h.refcount g hg
    · rw [mem_setMagazine, if_pos rfl, mem_reverse] at hg
      exact hlow g (mem_cons_of_mem f hg)

/-! ## The functions that allocate -/

section

variable (h : Room b S c n)
include h

theorem Room.setFrame (f : Frame) (ws : Idx → Word) : Room b (S.setFrame f ws) c n :=
  h.of_same ⟨rfl, rfl, rfl⟩ rfl

theorem Room.setWord (f : Frame) (i : Idx) (w : Word) : Room b (S.setWord f i w) c n :=
  h.of_same ⟨rfl, rfl, rfl⟩ rfl

theorem Room.zeroFrame (f : Frame) : Room b (S.zeroFrame f) c n := by
  dsimp only [Mm.zeroFrame]
  split
  · exact h.setFrame f _
  · exact (h.setFrame f _).setWord _ _ _

end

theorem Room.ensureTable (h : Room b S c (n + 1)) (d : Frame) (i : Idx) (flags : Flags) :
    ∃ S', S.ensureTable c d i flags = (S', true) ∧ Room b S' c n := by
  unfold Mm.ensureTable
  split
  · exact ⟨S, rfl, h.mono (Nat.le_succ n)⟩
  · obtain ⟨S1, pt, heq, -, h1⟩ := h.allocateFrame
    rw [heq]
    exact ⟨_, rfl, (h1.zeroFrame pt).setWord _ _ _⟩

theorem Room.mapPage (h : Room b S c (n + 1)) (d : Frame) (v : VPage) (f : Frame) (flags : Flags) :
    ∃ S', S.mapPage c d v f flags = (S', true) ∧ Room b S' c n := by
  unfold Mm.mapPage
  obtain ⟨S1, heq, h1⟩ := h.ensureTable d v.1 flags
  rw [heq]
  refine ⟨_, rfl, Room.setWord ?_ _ _ _⟩
  unfold promoteUser
  split
  · exact h1.setWord _ _ _
  · exact h1

/-- Two frames for each page: its own and one for a table. -/
theorem Room.mapUserPages (d : Frame) (flags : Flags) {vs : List VPage} :
    ∀ {S : Mm}, Room b S c (2 * vs.length + n) →
      ∃ S', mapUserPages c d flags S vs = (S', true) ∧ Room b S' c n := by
  induction vs with
  | nil => exact fun h => ⟨_, rfl, h.mono (by simp)⟩
  | cons v vs ih =>
    intro S h
    rw [length_cons] at h
    obtain ⟨S1, f, heq1, -, h1⟩ := (h.mono (n := 2 * vs.length + n + 1 + 1)
      (by omega)).allocateFrame
    obtain ⟨S2, heq2, h2⟩ := (h1.zeroFrame f).mapPage d v f flags
    obtain ⟨S3, heq3, h3⟩ := ih h2
    rw [Mm.mapUserPages, heq1]
    simp only [heq2]
    exact ⟨S3, heq3, h3⟩

theorem length_stackPages : stackPages.length = 32 := by
  rw [stackPages, length_map]
  decide +kernel

/-- The directory is the first frame allocated. -/
theorem Room.createPageDirectory (h : Room b S c (n + 1)) :
    ∃ S' d, S.createPageDirectory c true = (S', some d) ∧
      (S.allocateFrame c).2 = some d ∧ Room b S' c n := by
  obtain ⟨S1, pd, heq, hlt, h1⟩ := h.allocateFrame
  have hb := h.bound
  simp only [Mm.createPageDirectory, Bool.not_true, Bool.false_eq_true, if_false,
    heq, if_neg (show ¬ identityEndFrame ≤ pd.val by omega)]
  exact ⟨_, pd, rfl, rfl, h1.of_same ⟨rfl, rfl, rfl⟩ rfl⟩

/-- With room for 65 frames a process is created. -/
theorem Room.createProcessMemory (h : Room b S c (n + 65)) :
    (∃ S' d, S.createProcessMemory c true true = (S', some d) ∧
      (S.allocateFrame c).2 = some d ∧ Room b S' c n) ∧ S.CreateSafe c true := by
  obtain ⟨S1, d, heq1, hd, h1⟩ := (h.mono (n := n + 64 + 1) (by omega)).createPageDirectory
  obtain ⟨S2, heq2, h2⟩ := (h1.mono (n := 2 * stackPages.length + n)
    (by rw [length_stackPages]; omega)).mapUserPages d
    (userFlags true)
  refine ⟨⟨S2, d, ?_, hd, h2⟩, ?_⟩
  · simp only [Mm.createProcessMemory, Bool.not_true, Bool.false_eq_true, if_false, heq1, heq2]
  · intro S1' d' S2' heq1' heq2'
    rw [heq1] at heq1'
    obtain ⟨rfl, he⟩ := Prod.mk.inj heq1'
    cases he
    rw [heq2] at heq2'
    cases (Prod.mk.inj heq2').2

/-- With room a process memory is created, and what is then known of it. -/
theorem Room.created (hR : CountRel 0xFFFF R) (hinv : Inv R S held) (h : Room b S c (n + 65)) :
    ∃ S' d, S.createProcessMemory c true true = (S', some d) ∧
      (S.allocateFrame c).2 = some d ∧ Room b S' c n ∧ Inv R S' held ∧ Created held S S' d := by
  obtain ⟨⟨S1, d, heq, hd, h1⟩, hsafe⟩ := h.createProcessMemory
  rcases hinv.createProcessMemory hR true hsafe with
    ⟨S1', heq', -, -⟩ | ⟨S1', d', heq', hinv1, hcr⟩
  · rw [heq] at heq'
    cases (Prod.mk.inj heq').2
  · rw [heq] at heq'
    obtain ⟨rfl, he⟩ := Prod.mk.inj heq'
    cases he
    exact ⟨S1, d, heq, hd, h1, hinv1, hcr⟩

/-! ## After boot -/

/-- The pool is free after `paging_init`. -/
theorem room_pagingInit (L : KernelLayout) (mem : Frame → Idx → Word) (c : Nat)
    (hb : b ≤ identityEndFrame)
    (hn : n + (identityEndFrame - b) + frameMagazineSize ≤ identityEndFrame - heapEndFrame) :
    Room b (pagingInit L mem) c n := by
  refine ⟨hb, hn.trans ?_, fun _ _ => rfl, fun f hf => absurd hf not_mem_nil⟩
  rw [avail, clearList_pagingInit]
  exact Nat.le_add_left_of_le (by
    rw [scanFrom, length_map, length_range']
    decide)

end UnixOs.Mm
