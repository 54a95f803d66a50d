import UnixOs.Mm.Clone
import UnixOs.Mm.Room
import Mathlib.Algebra.Group.Action.Defs

/-!
# Forking succeeds while there is room

`clone_process_memory` allocates for the new directory and its stack, gives the
stack back, and then needs at most one table for each page of the parent.
`shareCost` counts these pages.
-/

namespace UnixOs.Mm

open Function List

variable {S S' S0 : Mm} {R : Nat → Nat → Prop} {held : Frame → Nat}
  {b c m n : Nat} {d p f src dst : Frame} {v : VPage} {i j : Idx}
  {P : VPage → Prop}

/-! ## Giving frames back keeps the room -/

theorem nextFree_clearFrame_le (f : Frame) : (S.clearFrame f).nextFree ≤ S.nextFree := by
  show (if f.val / 32 < S.nextFree ∧ firstBitmapIdx ≤ f.val / 32 then f.val / 32
    else S.nextFree) ≤ S.nextFree
  split <;> omega

theorem nextFree_clearFrame_le_self (hf : f.Pool) : (S.clearFrame f).nextFree ≤ f.val / 32 := by
  have hlow := hf.1
  have hfirst : firstBitmapIdx ≤ f.val / 32 := by
    simp only [firstBitmapIdx, heapEndFrame] at hlow ⊢
    omega
  show (if f.val / 32 < S.nextFree ∧ firstBitmapIdx ≤ f.val / 32 then f.val / 32
    else S.nextFree) ≤ f.val / 32
  split <;> omega

theorem scanStart_le (h : S'.nextFree ≤ n) (hn : firstBitmapIdx ≤ n) : S'.scanStart ≤ n := by
  unfold scanStart
  split <;> omega

theorem foldl_clearFrame_nextFree {out : List Frame} (hout : ∀ g ∈ out, g.Pool) :
    (out.foldl clearFrame S).nextFree ≤ S.nextFree ∧
      ∀ g ∈ out, (out.foldl clearFrame S).nextFree ≤ g.val / 32 := by
  induction out generalizing S with
  | nil => exact ⟨le_refl _, fun g hg => absurd hg not_mem_nil⟩
  | cons f out ih =>
    obtain ⟨hle, hself⟩ := ih fun g hg => hout g (.tail f hg)
    refine ⟨hle.trans (nextFree_clearFrame_le f), fun g hg => ?_⟩
    rcases mem_cons.1 hg with rfl | hg
    · exact hle.trans (nextFree_clearFrame_le_self (hout g mem_cons_self))
    · exact hself g hg

/-- A frame that is given back can be had again. -/
theorem avail_releaseFrameToPool (hm : S.MagInv) (c : Nat) (f : Frame) :
    S.avail c ≤ (S.releaseFrameToPool c f).avail c := by
  dsimp only [releaseFrameToPool]
  split
  · have hmag : (S.setMagazine c (f :: S.magazine c)).magazine c
        = f :: S.magazine c := update_self _ _ _
    have hclear : (S.setMagazine c (f :: S.magazine c)).clearList = S.clearList := rfl
    rw [avail, avail, hmag, hclear, length_cons]
    omega
  · set out := (S.magazine c).take (frameMagazineSize / 2) with hout
    set rest := (S.magazine c).drop (frameMagazineSize / 2) with hrest
    have hin : ∀ g ∈ out, S.used g = true ∧ g.Pool := fun g hg => hm.parked (mem_of_mem_take hg)
    obtain ⟨hu, -, -, -⟩ := foldl_clearFrame out S
    obtain ⟨hnext, hself⟩ := foldl_clearFrame_nextFree fun g hg => (hin g hg).2
    set S1 := out.foldl clearFrame S with hS1
    set S2 := (S1.setMagazine c rest).clearFrame f
    have hmag : S2.magazine c = rest := update_self _ _ _
    -- What was clear stays clear, and half of the magazine joins it.
    have hsub : S.clearList ++ out
        ⊆ S2.clearList := by
      intro g hg
      have hnext' : S2.nextFree ≤ S1.nextFree := nextFree_clearFrame_le f
      have hclear : S1.used g = false →
          S2.used g = false := by
        intro hg
        show update S1.used f false g = false
        by_cases hgf : g = f
        · rw [hgf, update_self]
        · rw [update_of_ne hgf, hg]
      rcases mem_append.1 hg with hg | hg
      · obtain ⟨⟨hlo, hhi⟩, hfree⟩ := mem_clearList.1 hg
        refine mem_clearList.2 ⟨⟨?_, hhi⟩, hclear ?_⟩
        · have hstart := firstBitmapIdx_le_scanStart S
          have hle : S.nextFree ≤ S.scanStart := by
            unfold scanStart
            split <;> omega
          have := scanStart_le (hnext'.trans (hnext.trans hle)) hstart
          omega
        · rw [hu, hfree]
          rfl
      · have hpool := (hin g hg).2
        refine mem_clearList.2 ⟨⟨?_, hpool.2⟩, hclear ?_⟩
        · have hlow := hpool.1
          have hfirst : firstBitmapIdx ≤ g.val / 32 := by
            simp only [firstBitmapIdx, heapEndFrame] at hlow ⊢
            omega
          have := scanStart_le (hnext'.trans (hself g hg)) hfirst
          omega
        · rw [hu, decide_eq_false (not_not.2 hg), Bool.and_false]
    have hnd : (S.clearList ++ out).Nodup := by
      refine nodup_append'.2 ⟨S.nodup_clearList,
        (hm.nodup c).sublist (take_sublist _ _), fun g hg hg' => ?_⟩
      have := (mem_clearList.1 hg).2
      rw [(hin g hg').1] at this
      exact absurd this (by decide)
    have hle := (subperm_of_subset hnd hsub).length_le
    have hlen : out.length + rest.length = (S.magazine c).length := by
      rw [← length_append, hout, hrest, take_append_drop]
    rw [avail, avail, hmag]
    rw [length_append] at hle
    omega

/-- A frame that is given back makes the room no smaller. -/
theorem Room.frameDecref (h : Room b S c n) (hm : S.MagInv) (f : Frame) :
    Room b (S.frameDecref c f) c n := by
  by_cases hf : f.val < b
  · obtain heq | heq | heq := S.frameDecref_cases c f
    · rw [heq]
      exact h
    · rw [heq]
      exact h.setRef hf _
    · rw [heq]
      have h0 := h.setRef hf 0
      have hm' : (S.setRef f 0).MagInv := hm.of_same (used_setRef f 0) (magazine_setRef f 0)
      refine ⟨h.bound, h0.avail.trans (avail_releaseFrameToPool hm' c f), ?_, ?_⟩
      · rw [refcount_releaseFrameToPool]
        exact h0.refcount
      · intro g hg
        unfold releaseFrameToPool at hg
        split at hg
        · rw [mem_setMagazine, if_pos rfl] at hg
          rcases mem_cons.1 hg with rfl | hg
          · exact hf
          · exact h0.magazine g hg
        · have hg' : g ∈ (((S.setRef f 0).magazine c).take _ |>.foldl clearFrame
              (S.setRef f 0) |>.setMagazine c _).magazine c := hg
          rw [mem_setMagazine, if_pos rfl] at hg'
          exact h0.magazine g (mem_of_mem_drop hg')
  · rw [frameDecref_of_zero (h.refcount f (Nat.le_of_not_lt hf))]
    exact h

/-! ## Purging -/

theorem Room.purgeEntry (h : Room b S c n) (hm : S.MagInv) (p : Frame) (j : Idx) :
    Room b (S.purgeEntry c p j) c n := by
  dsimp only [Mm.purgeEntry]
  split
  · exact (h.frameDecref hm _).setWord _ _ _
  · exact h

section

variable (hR : CountRel 0xFFFF R)
include hR

theorem Room.purgeEntries :
    ∀ (js : List Idx) {S : Mm}, Inv R S held → S.table d i = some p →
      Room b S c n → Room b (js.foldl (fun S j => S.purgeEntry c p j) S) c n := by
  intro js
  induction js with
  | nil => exact fun _ _ h => h
  | cons j js ih =>
    intro S hinv ht h
    obtain ⟨hd, hi, -, -⟩ := table_eq_some.1 ht
    have hroom := h.purgeEntry hinv.alloc.mags p j
    rw [foldl_cons]
    rw [purgeEntry_eq hinv ht] at hroom ⊢
    exact ih (hinv.unmapUserPage hR hd hi c).1 (table_unmapUserPage hinv ht) hroom

theorem Room.purgeTable (hinv : Inv R S held)
    (hd : d ∈ S.dirs) (hi : i.IsUser) (h : Room b S c n) : Room b (S.purgeTable c d i) c n := by
  dsimp only [Mm.purgeTable]
  split
  · exact h
  next hp =>
  split
  · exact h
  have ht : S.table d i = some (S.mem d i).frame := table_eq_some.2 ⟨hd, hi, by simpa using hp, rfl⟩
  have hroom := Room.purgeEntries hR allIdx hinv ht h
  have hinv' := (hinv.purgeEntries hR c allIdx ht).1
  rw [freeFrame_eq]
  exact (hroom.frameDecref hinv'.alloc.mags _).setWord _ _ _

/-- By induction on the tables of user space. -/
theorem Room.purgeDstUserPages (hinv : Inv R S held)
    (hd : d ∈ S.dirs) (h : Room b S c n) : Room b (S.purgeDstUserPages c d) c n := by
  have hloop : ∀ (is : List Idx), (∀ i ∈ is, i.IsUser) → ∀ {S : Mm},
      Inv R S held → d ∈ S.dirs → Room b S c n →
      Room b (is.foldl (fun S i => S.purgeTable c d i) S) c n := by
    intro is
    induction is with
    | nil => exact fun _ _ _ _ h => h
    | cons i is ih =>
      intro his S hinv hd h
      have hi := his i mem_cons_self
      obtain ⟨hinv1, hcl⟩ := hinv.purgeTable hR hd hi c
      exact ih (fun x hx => his x (.tail i hx)) hinv1
        (hcl.dirs ▸ hd) (Room.purgeTable hR hinv hd hi h)
  exact hloop userIdx (fun i hi => mem_userIdx.1 hi) hinv hd h

end

/-! ## Sharing -/

section

variable (h : Room b S c n)
include h

theorem Room.frameIncref (hf : f.val < b) : Room b (S.frameIncref f) c n := by
  rw [frameIncref_eq]
  exact h.setRef hf _

/-- A frame with a reference has a count. -/
theorem Room.lt_of_pte (hR : CountRel 0xFFFF R)
    (hinv : Inv R S held) {w : Word} (hw : S.pte d v = some w) : w.frame.val < b := by
  by_contra hge
  have hpos : 0 < S.refs w.frame := refCount.pos_of_mem (ptr_entry_of_pte hw)
  have hle := hR.le (hinv.alloc.count (hinv.pool_of_pte hw)
    (hinv.alloc.owned (Nat.add_pos_left hpos _)))
  rw [h.refcount _ (Nat.le_of_not_lt hge)] at hle
  omega

/-- One entry costs a table at most, and nothing where there is no page. -/
theorem Room.shareEntry (dst : Frame) (hR : CountRel 0xFFFF R)
    (hinv : Inv R S held) (ht : S.table src v.1 = some p)
    (hroom : (S.view src v).isSome = true → Room b S c (n + 1)) :
    ∃ S', S.shareEntry c p dst v = (S', true) ∧ Room b S' c n := by
  dsimp only [Mm.shareEntry]
  by_cases hw : (S.mem p v.2).present = true
  · have hpte : S.pte src v = some (S.mem p v.2) := pte_eq_some.2 ⟨p, ht, hw, rfl⟩
    have hlt := h.lt_of_pte hR hinv hpte
    have hroom := hroom (by rw [view, hpte]; rfl)
    rw [hw]
    rw [downgrade_eq rfl]
    obtain ⟨S1, heq, h1⟩ := (hroom.setWord p v.2 (shareWord (S.mem p v.2))).mapPage
      dst v (S.mem p v.2).frame (shareFlags (S.mem p v.2).flags)
    rw [heq]
    exact ⟨_, rfl, h1.frameIncref hlt⟩
  · simp only [hw, Bool.not_false, if_true]
    exact ⟨S, rfl, h⟩

end

/-- The number of pages behind a directory entry. -/
def shareCost (S : Mm) (d : Frame) (js : List Idx) (i : Idx) : Nat :=
  js.countP fun j => (S.view d (i, j)).isSome

theorem Shared.isSome_view (h : Shared S0 S src dst P) (v : VPage) :
    (S.view src v).isSome = (S0.view src v).isSome := by
  by_cases hv : P v
  · rw [(h.done v hv).1, share, Option.isSome_map]
  · rw [(h.todo v hv).1]

section

variable (hR : CountRel 0xFFFF R)
include hR

/-- By induction on the entries. -/
theorem Room.shareTable (hne : src ≠ dst) {js : List Idx} (hnd : js.Nodup) :
    ∀ {S : Mm} {P : VPage → Prop}, Inv R S noneHeld → Shared S0 S src dst P →
      dst ∈ S.dirs → S.table src i = some p → (∀ j ∈ js, ¬ P (i, j)) →
      Room b S c (n + S0.shareCost src js i) →
      ∃ S', shareTable c p dst i S js = (S', true) ∧ Room b S' c n := by
  induction js with
  | nil => exact fun _ _ _ _ _ h => ⟨_, rfl, h.mono (Nat.le_add_right _ _)⟩
  | cons j js ih =>
    intro S P hinv hsh hdst ht hjs h
    obtain ⟨hj, hnd⟩ := nodup_cons.1 hnd
    have hcost : S0.shareCost src (j :: js) i = S0.shareCost src js i
        + if (S0.view src (i, j)).isSome = true then 1 else 0 := countP_cons
    rw [hcost] at h
    obtain ⟨S1, heq, h1⟩ := (h.mono (n := n + S0.shareCost src js i)
      (by omega)).shareEntry dst hR hinv ht fun hs => by
        rw [hsh.isSome_view] at hs
        rw [if_pos hs] at h
        exact h
    rw [Mm.shareTable, heq]
    rcases hinv.shareEntry hR fewHeld_noneHeld hsh hne hdst ht
        (hjs j mem_cons_self) c with
      ⟨S1', heq', -, -⟩ | ⟨S1', heq', hinv1, hsh1, ht1⟩
    · rw [heq] at heq'
      cases (Prod.mk.inj heq').2
    · rw [heq] at heq'
      cases heq'
      have hdst1 : dst ∈ S1.dirs := by
        rw [hsh1.dirs, ← hsh.dirs]
        exact hdst
      exact ih hnd hinv1 hsh1 hdst1 ht1 (fun j' hj' => not_or.2
        ⟨hjs j' (.tail j hj'), fun he => hj (by
          rw [← (Prod.mk.inj he).2]; exact hj')⟩) h1

/-- One table of the parent. -/
theorem Room.sharePde (hinv : Inv R S noneHeld)
    (hsh : Shared S0 S src dst P) (hne : src ≠ dst) (hsrc : src ∈ S.dirs)
    (hdst : dst ∈ S.dirs) (hi : i.IsUser) (hP : ∀ j, ¬ P (i, j))
    (h : Room b S c (n + S0.shareCost src allIdx i)) :
    ∃ S', S.sharePde c src dst i = (S', true) ∧ Room b S' c n := by
  dsimp only [Mm.sharePde]
  split
  · exact ⟨S, rfl, h.mono (Nat.le_add_right _ _)⟩
  next hp =>
  split
  · exact ⟨S, rfl, h.mono (Nat.le_add_right _ _)⟩
  have ht : S.table src i = some (S.mem src i).frame :=
    table_eq_some.2 ⟨hsrc, hi, by simpa using hp, rfl⟩
  exact Room.shareTable hR hne (nodup_finRange _) hinv hsh hdst ht (fun j _ => hP j) h

/-- By induction on the tables. -/
theorem Room.shareTables (hne : src ≠ dst)
    {is : List Idx} (hnd : is.Nodup) (hus : ∀ i ∈ is, i.IsUser) :
    ∀ {S : Mm} {P : VPage → Prop}, Inv R S noneHeld → Shared S0 S src dst P →
      src ∈ S.dirs → dst ∈ S.dirs → (∀ v, v.1 ∈ is → ¬ P v) →
      Room b S c (n + (is.map (S0.shareCost src allIdx)).sum) →
      ∃ S', shareTables c src dst S is = (S', true) ∧ Room b S' c n := by
  induction is with
  | nil => exact fun _ _ _ _ _ h => ⟨_, rfl, h.mono (Nat.le_add_right _ _)⟩
  | cons i is ih =>
    intro S P hinv hsh hsrc hdst his h
    obtain ⟨hi, hnd⟩ := nodup_cons.1 hnd
    have hiu := hus i mem_cons_self
    have hP : ∀ j, ¬ P (i, j) := fun j => his (i, j) mem_cons_self
    rw [map_cons, sum_cons] at h
    obtain ⟨S1, heq, h1⟩ := Room.sharePde hR hinv hsh hne hsrc hdst hiu hP
      (h.mono (n := n + (is.map (S0.shareCost src allIdx)).sum
        + S0.shareCost src allIdx i) (by omega))
    rw [Mm.shareTables, heq]
    rcases hinv.sharePde hR fewHeld_noneHeld hsh hne hsrc hdst hiu hP c with
      ⟨S1', heq', -, -⟩ | ⟨S1', heq', hinv1, hsh1⟩
    · rw [heq] at heq'
      cases (Prod.mk.inj heq').2
    · rw [heq] at heq'
      cases heq'
      have hdirs : S1.dirs = S.dirs := hsh1.dirs.trans hsh.dirs.symm
      exact ih hnd (fun x hx => hus x (.tail i hx)) hinv1 hsh1
        (hdirs ▸ hsrc) (hdirs ▸ hdst) (fun v hv => not_or.2
          ⟨his v (.tail i hv), fun he => hi (he ▸ hv)⟩) h1

/-- With room for a process and for a table per page of the parent, the fork
succeeds. -/
theorem Room.cloneProcessMemory (hinv : Inv R S noneHeld)
    (hsrc : src ∈ S.dirs) (h : Room b S c (n + (userIdx.map (S.shareCost src allIdx)).sum + 65)) :
    ∃ S' dst, S.cloneProcessMemory c src true true = (S', some dst) ∧ Room b S' c n := by
  obtain ⟨S1, dst, heq, -, h1, hinv1, hcr⟩ := Room.created hR hinv h
  have hne : src ≠ dst := fun he => hcr.fresh (he ▸ hsrc)
  have hdst1 : dst ∈ S1.dirs := hcr.dirs ▸ mem_cons_self
  have h2 := Room.purgeDstUserPages hR hinv1 hdst1 h1
  obtain ⟨hinv2, hdirs2, hoth2, hempty⟩ := hinv1.purgeDstUserPages hR hdst1 c
  rw [Mm.cloneProcessMemory, heq]
  show ∃ S' d, finishClone c dst _ = (S', some d) ∧ _
  generalize S1.purgeDstUserPages c dst = S2 at *
  have hdirs : S2.dirs = dst :: S.dirs := hdirs2.trans hcr.dirs
  have hview : S2.view src = S.view src := (hcr.others.trans hoth2).view src hne
  have hcost : S2.shareCost src allIdx = S.shareCost src allIdx := by
    funext i
    rw [shareCost, shareCost, hview]
  have hstart : Shared S2 S2 src dst fun _ => False :=
    ⟨fun _ hv => hv.elim, fun v _ => ⟨rfl, hempty v⟩, fun _ _ _ => rfl, rfl, rfl⟩
  rw [← hcost] at h2
  obtain ⟨S3, hloop, h3⟩ := Room.shareTables hR hne nodup_userIdx
    (fun i hi => mem_userIdx.1 hi) hinv2 hstart
    (hdirs ▸ .tail _ hsrc) (hdirs ▸ mem_cons_self)
    (fun _ _ => id) h2
  rw [cowShareUserPages, hloop]
  exact ⟨S3, dst, rfl, h3⟩

end

/-- A process that has pages behind one directory entry only. -/
theorem sum_shareCost_le {a : Idx} (hout : ∀ v, v.1 ≠ a → S.view d v = none) :
    (userIdx.map (S.shareCost d allIdx)).sum ≤ 1024 := by
  have hzero : ∀ i, i ≠ a → S.shareCost d allIdx i = 0 := by
    intro i hi
    refine countP_eq_zero.2 fun j _ => ?_
    rw [hout (i, j) hi]
    exact Bool.false_ne_true
  have hone : S.shareCost d allIdx a ≤ 1024 := by
    refine countP_le_length.trans ?_
    rw [allIdx, length_finRange]
    decide
  have hcount := nodup_iff_count_le_one.1 nodup_userIdx a
  rw [sum_map_eq_nsmul_single a _ fun i hi _ => hzero i hi, smul_eq_mul]
  calc userIdx.count a * S.shareCost d allIdx a
      ≤ 1 * 1024 := Nat.mul_le_mul hcount hone
    _ = 1024 := rfl

end UnixOs.Mm
