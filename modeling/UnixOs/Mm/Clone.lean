import UnixOs.Mm.Purge
import Mathlib.Order.Interval.Finset.Nat

/-!
# Forking an address space

`cow_share_user_pages` walks the pages of the parent: a writable entry becomes
read-only with the copy-on-write bit, the child gets the same entry, and the
frame one reference more. `share` is what this makes of a page; a finished loop
has done it to every page of both (`Shared`), a loop that stopped for lack of
memory to some pages of the parent (`HalfShared`).
-/

namespace UnixOs.Mm

open List Option

variable {S S' : Mm} {R : Nat → Nat → Prop} {held : Frame → Nat}
  {d p f g src dst : Frame} {i j : Idx} {v : VPage} {w : Word} {c : Nat}

/-! ## The number of sharers -/

/-- A page is mapped at most once by each directory. -/
theorem Inv.refs_le_pool (h : Inv R S held) (hns : S.NotStruct f) :
    S.refs f ≤ identityEndFrame - heapEndFrame := by
  have howner : ∀ s, S.ptr s = some f →
      ∃ d v, s = .entry d v ∧ d ∈ S.dirs := by
    intro s hs
    cases s with
    | dir | table => exact absurd hs (hns _ trivial)
    | entry d v => exact ⟨d, v, rfl, owner_mem_dirs hs⟩
  have hpool : ∀ {d}, d ∈ S.dirs → d.Pool := fun hd =>
    h.alloc.pool (Nat.add_pos_left (refCount.pos_of_mem (ptr_dir hd)) _)
  -- The number of its directory tells one reference from another.
  rw [← Nat.card_Ico]
  refine refCount.le_card (fun s => (owner s).val) (fun s hs => ?_) ?_
  · obtain ⟨d, v, rfl, hd⟩ := howner s hs
    exact Finset.mem_Ico.2 (hpool hd)
  · intro s s' hs hs' he
    obtain ⟨d, v, rfl, -⟩ := howner s hs
    obtain ⟨d', v', rfl, -⟩ := howner s' hs'
    obtain rfl : d = d' := Fin.ext he
    rw [h.space.injective hs hs']

/-! ## One page -/

theorem shareFlags_present (fl : Flags) (h : fl.present = true) :
    (shareFlags fl).present = true := by
  simp only [Flags.present, shareFlags] at h ⊢
  split <;> simp [h, pageCowBit, pageWritable]

theorem shareFlags_user (fl : Flags) (h : fl.user = true) : (shareFlags fl).user = true := by
  simp only [Flags.user, shareFlags] at h ⊢
  split <;> simp [h, pageCowBit, pageWritable]

theorem shareFlags_writable (fl : Flags) : (shareFlags fl).writable = false := by
  unfold shareFlags
  split
  · simp [Flags.writable, pageCowBit, pageWritable]
  · next h => simpa using h

/-- The entry both sides of a fork get for a page. -/
def shareWord (w : Word) : Word := .entry w.frame (shareFlags w.flags)

/-- What both sides of a fork see of a page. -/
def share (x : Option (Word × (Idx → Word))) : Option (Word × (Idx → Word)) :=
  x.map fun y => (shareWord y.1, y.2)

theorem frame_shareWord : (shareWord w).frame = w.frame := Word.frame_entry _ _

theorem asEntry_shareWord (h : w.present = true) : asEntry (shareWord w) = some (shareWord w) :=
  asEntry_entry (shareFlags_present _ h)

/-- The store to the parent's entry, which is made for a writable page only,
is one that may always be made. -/
theorem downgrade_eq (hw : S.mem p j = w) :
    (if w.flags.writable then S.setWord p j (.entry w.frame (shareFlags w.flags))
      else S) = S.setWord p j (shareWord w) := by
  split
  · rfl
  · next h =>
    have hflags : shareFlags w.flags = w.flags := if_neg h
    rw [shareWord, hflags, Word.entry_frame_flags, ← hw]
    simp only [setWord, Function.update_eq_self]

/-- The parent's entry loses its write permission. -/
theorem Inv.downgrade (h : Inv R S held) (ht : S.table d v.1 = some p) (hw : S.pte d v = some w) :
    Inv R (S.setWord p v.2 (shareWord w)) held ∧ Sets held S (S.setWord p v.2 (shareWord w)) d v
        (some (shareWord w, S.mem w.frame)) := by
  have hptr := ptr_entry_of_pte hw
  have hentry := asEntry_shareWord (present_of_pte hw)
  constructor
  · refine h.setEntry ht (fun g => ?_) ?_ ?_ ?_
    · rw [hentry, map_some, frame_shareWord, hptr]
    · intro _ v' hv'
      rw [frame_shareWord] at hv'
      exact h.space.injective hv' hptr
    · intro _ hc
      rw [shareWord, writable_entry, shareFlags_writable] at hc
      cases hc
    · intro _
      rw [shareWord, user_entry]
      exact shareFlags_user _ (h.space.userPte hw)
  · have hne : w.frame ≠ p := fun he =>
      h.space.notStruct_of_entry hptr (.table d v.1) trivial (ht.trans (congrArg some he.symm))
    have hset := sets_setEntry (j := v.2) h.space ht
      fun _ => by rw [frame_shareWord]; exact hne
    rwa [hentry, map_some, frame_shareWord] at hset

/-- A page with a read-only entry is writable nowhere. -/
theorem SpaceInv.readOnly (h : SpaceInv S held) (hw : S.pte d v = some w)
    (hro : w.writable = false) {d' : Frame} {v' : VPage} {w' : Word}
    (hw' : S.pte d' v' = some w') (he : w'.frame = w.frame) : w'.writable = false := by
  cases hwr : w'.writable with
  | false => rfl
  | true =>
    have hone := h.writable hw' hwr
    have hptr := ptr_entry_of_pte hw
    have hptr' := ptr_entry_of_pte hw'
    rw [← he] at hptr
    have hslot := refCount.unique (show S.refs w'.frame ≤ 1 by omega) hptr hptr'
    cases hslot
    rw [hw] at hw'
    cases hw'
    rw [hro] at hwr
    exact absurd hwr (by decide)

/-- The running code holds so few references that no count reaches its limit. -/
def FewHeld (held : Frame → Nat) : Prop :=
  ∀ f, held f + (identityEndFrame - heapEndFrame) < 0xFFFF

theorem fewHeld_noneHeld : FewHeld noneHeld := fun _ =>
  show 0 + (identityEndFrame - heapEndFrame) < 0xFFFF by decide

/-- The child gets the parent's entry, and the frame a reference more. -/
theorem Inv.addSharer (hR : CountRel 0xFFFF R) (hheld : FewHeld held) (h : Inv R S held)
    (hw : S.pte src v = some w) (hro : w.writable = false)
    (ht : S.table dst v.1 = some p) (hnone : S.pte dst v = none)
    (hsub : ∀ {v' g}, S.ptr (.entry dst v') = some g → S.ptr (.entry src v') = some g) :
    Inv R ((S.setWord p v.2 w).frameIncref w.frame) held ∧
      Sets held S ((S.setWord p v.2 w).frameIncref w.frame) dst v (some (w, S.mem w.frame)) := by
  have hptr := ptr_entry_of_pte hw
  have hns := h.space.notStruct_of_entry hptr
  have hentry : asEntry w = some w := if_pos (present_of_pte hw)
  have hnoptr : S.ptr (.entry dst v) = none := by
    rw [ptr, hnone]
    rfl
  have hle := h.refs_le_pool hns
  have hfew := hheld w.frame
  have h1 : Inv R (S.frameIncref w.frame) (bump held w.frame) :=
    h.frameIncref hR (Nat.add_pos_left (refCount.pos_of_mem hptr) _)
      (show S.refs w.frame + held w.frame < 0xFFFF by omega) hns
      (h.space.readOnly hw hro)
  have hsame := sameSpace_frameIncref S w.frame
  constructor
  · rw [frameIncref_setWord]
    refine h1.setEntry (d := dst) (i := v.1) ?_ (fun g => ?_) ?_ ?_ ?_
    · rw [hsame.table]
      exact ht
    · rw [hsame.ptr, hentry, map_some, hnoptr]
      simp [bump, eq_comm]
    · intro _ v' hv'
      rw [hsame.ptr] at hv'
      exact h.space.injective (hsub hv') hptr
    · intro _ hc
      rw [hro] at hc
      cases hc
    · exact fun _ => h.space.userPte hw
  · have hne : w.frame ≠ p := fun he =>
      hns (.table dst v.1) trivial (ht.trans (congrArg some he.symm))
    have hset := sets_setEntry (j := v.2) h.space ht fun _ => hne
    rw [hentry] at hset
    exact hset.before (sameSpace_frameIncref _ _).unseen

/-! ## The loop -/

/-- The pages of `src` that meet `P` are shared with `dst`, which has no
others. -/
structure Shared (S S' : Mm) (src dst : Frame) (P : VPage → Prop) : Prop where
  done : ∀ v, P v → S'.view src v = share (S.view src v) ∧
    S'.view dst v = share (S.view src v)
  todo : ∀ v, ¬ P v → S'.view src v = S.view src v ∧ S'.view dst v = none
  others : ∀ d, d ≠ src → d ≠ dst → S'.view d = S.view d
  dirs : S'.dirs = S.dirs
  kernel : S'.kernel = S.kernel

/-- Some pages of `src` have become read-only. -/
structure HalfShared (S S' : Mm) (src dst : Frame) : Prop where
  parent : ∀ v, S'.view src v = S.view src v ∨
    S'.view src v = share (S.view src v)
  others : ∀ d, d ≠ src → d ≠ dst → S'.view d = S.view d
  dirs : S'.dirs = S.dirs
  kernel : S'.kernel = S.kernel

variable {S0 : Mm} {P Q : VPage → Prop}

theorem Shared.half (h : Shared S0 S src dst P) : HalfShared S0 S src dst := by
  refine ⟨fun v => ?_, h.others, h.dirs, h.kernel⟩
  by_cases hv : P v
  · exact .inr (h.done v hv).1
  · exact .inl (h.todo v hv).1

theorem HalfShared.before (h : HalfShared S0 S src dst)
    (hun : Unseen held S S') : HalfShared S0 S' src dst := by
  refine ⟨?_, ?_, hun.dirs.trans h.dirs, hun.kernel.trans h.kernel⟩
  · rw [hun.view]; exact h.parent
  · rw [hun.view]; exact h.others

section

variable (h : Shared S0 S src dst P)
include h

theorem Shared.congr (hPQ : ∀ v, Q v ↔ P v) : Shared S0 S src dst Q :=
  ⟨fun v hv => h.done v ((hPQ v).1 hv), fun v hv => h.todo v (mt (hPQ v).2 hv),
    h.others, h.dirs, h.kernel⟩

/-- Pages that are not mapped count as shared. -/
theorem Shared.skip (hQ : ∀ v, Q v → ¬ P v → S.view src v = none) :
    Shared S0 S src dst fun v => P v ∨ Q v := by
  refine ⟨fun v hv => ?_, fun v hv => h.todo v (not_or.1 hv).1, h.others, h.dirs, h.kernel⟩
  by_cases hp : P v
  · exact h.done v hp
  · have hnone := hQ v (hv.resolve_left hp) hp
    obtain ⟨hs, hd⟩ := h.todo v hp
    rw [hnone, hd, ← hs, hnone]
    exact ⟨rfl, rfl⟩

/-- The child maps no frame the parent does not map at the same page. -/
theorem Shared.ptr_dst (hf : S.ptr (.entry dst v) = some f) : S.ptr (.entry src v) = some f := by
  rw [ptr, pte_eq_view] at hf ⊢
  by_cases hv : P v
  · obtain ⟨hs, hd⟩ := h.done v hv
    rw [hs, ← hd]
    exact hf
  · rw [(h.todo v hv).2] at hf
    cases hf

end

variable {x : Option (Word × (Idx → Word))}

/-- The parent's side of one page. -/
theorem HalfShared.step (h : HalfShared S0 S src dst)
    (hset : Sets held S S' src v x) (hx : x = share (S0.view src v)) :
    HalfShared S0 S' src dst := by
  refine ⟨fun v' => ?_, fun d hd hd' => ?_, hset.dirs.trans h.dirs, hset.kernel.trans h.kernel⟩
  · by_cases hvv : v' = v
    · rw [hset.view, if_pos ⟨rfl, hvv⟩, hx, hvv]
      exact .inr rfl
    · rw [hset.view, if_neg fun hc => hvv hc.2]
      exact h.parent v'
  · rw [hset.others.view d hd]
    exact h.others d hd hd'

/-- Both sides of one page. -/
theorem Shared.step {S1 S2 : Mm} (h : Shared S0 S src dst P)
    (hsrc : Sets held S S1 src v x) (hun : Unseen held S1 S2)
    (hdst : Sets held S2 S' dst v x) (hx : x = share (S0.view src v)) :
    Shared S0 S' src dst fun v' => P v' ∨ v' = v := by
  have hview : ∀ d v', S'.view d v' = if (d = src ∨ d = dst) ∧ v' = v then x
      else S.view d v' := by
    intro d v'
    rw [hdst.view, hun.view, hsrc.view]
    by_cases hd : d = dst <;> by_cases hs : d = src <;> by_cases hv : v' = v <;>
      simp [hd, hs, hv]
  refine ⟨fun v' hv' => ?_, fun v' hv' => ?_, fun d hd hd' => ?_,
    hdst.dirs.trans (hun.dirs.trans (hsrc.dirs.trans h.dirs)),
    hdst.kernel.trans (hun.kernel.trans (hsrc.kernel.trans h.kernel))⟩
  · by_cases hvv : v' = v
    · rw [hview, hview, if_pos ⟨.inl rfl, hvv⟩, if_pos ⟨.inr rfl, hvv⟩, hx, hvv]
      exact ⟨rfl, rfl⟩
    · rw [hview, hview, if_neg fun hc => hvv hc.2, if_neg fun hc => hvv hc.2]
      exact h.done v' (hv'.resolve_right hvv)
  · obtain ⟨hp, hvv⟩ := not_or.1 hv'
    rw [hview, hview, if_neg fun hc => hvv hc.2, if_neg fun hc => hvv hc.2]
    exact h.todo v' hp
  · rw [← h.others d hd hd']
    funext v'
    rw [hview, if_neg fun hc => hc.1.elim hd hd']

section

variable (hR : CountRel 0xFFFF R) (hheld : FewHeld held)
include hR hheld

/-- One entry of `cow_share_user_pages`. -/
theorem Inv.shareEntry (h : Inv R S held)
    (hsh : Shared S0 S src dst P) (hne : src ≠ dst) (hdst : dst ∈ S.dirs)
    (ht : S.table src v.1 = some p) (hv : ¬ P v) (c : Nat) :
    (∃ S', S.shareEntry c p dst v = (S', false) ∧ Inv R S' held ∧
      HalfShared S0 S' src dst) ∨
    ∃ S', S.shareEntry c p dst v = (S', true) ∧ Inv R S' held ∧
      Shared S0 S' src dst (fun v' => P v' ∨ v' = v) ∧ S'.table src v.1 = some p := by
  obtain ⟨hvs, hvd⟩ := hsh.todo v hv
  dsimp only [Mm.shareEntry]
  rw [downgrade_eq rfl]
  by_cases hw : (S.mem p v.2).present = true
  · rw [hw]
    have hpte : S.pte src v = some (S.mem p v.2) := pte_eq_some.2 ⟨p, ht, hw, rfl⟩
    have hviewsrc : S.view src v = some (S.mem p v.2, S.mem (S.mem p v.2).frame) :=
      view_eq_some.2 ⟨hpte, rfl⟩
    generalize S.mem p v.2 = w at *
    have hx : some (shareWord w, S.mem w.frame) = share (S0.view src v) := by
      rw [← hvs, hviewsrc]
      rfl
    -- First the parent's entry.
    obtain ⟨h1, hset1⟩ := h.downgrade ht hpte
    have ht1 : (S.setWord p v.2 (shareWord w)).table src v.1 = some p := by
      rw [table_setEntry h.space ht]; exact ht
    generalize S.setWord p v.2 (shareWord w) = S1 at *
    have hpte1 : S1.view src v = some (shareWord w, S.mem w.frame) := by
      rw [hset1.view, if_pos ⟨rfl, rfl⟩]
    -- Then the child's.
    rcases h1.mapPage_cases hR (hset1.dirs ▸ hdst) (table_eq_some.1 ht).2.1
        (shareFlags_user _ (h.space.userPte hpte)) c w.frame with
      ⟨S2, heq, h2, hun⟩ | ⟨S2, q, heq, h2, hun, hkept, htq⟩
    · rw [heq]
      exact .inl ⟨S2, rfl, h2, (hsh.half.step hset1 hx).before hun⟩
    · rw [heq]
      have hsrc2 := view_eq_some.1
        (show S2.view src v = some (shareWord w, S.mem w.frame) by rw [hun.view]; exact hpte1)
      have hdst2 : ∀ v', S2.view dst v' = S.view dst v' := fun v' => by
        rw [hun.view, hset1.others.view dst hne.symm]
      have hnone : S2.pte dst v = none := by
        rw [pte_eq_view, hdst2, hvd]
        rfl
      have hsub : ∀ {v' g}, S2.ptr (.entry dst v') = some g →
          S2.ptr (.entry src v') = some g := by
        intro v' g hg
        rw [ptr, pte_eq_view, hdst2, ← pte_eq_view] at hg
        have hold := hsh.ptr_dst hg
        rw [hun.ptr_entry, ptr, pte_eq_view, hset1.view]
        split
        · next hc =>
          rw [hc.2, ptr_entry_of_pte hpte] at hold
          rw [← hold]
          exact congrArg some frame_shareWord
        · rw [← pte_eq_view]
          exact hold
      obtain ⟨h3, hset3⟩ := h2.addSharer hR hheld hsrc2.1
        (by rw [shareWord, writable_entry, shareFlags_writable]) htq hnone hsub
      rw [hsrc2.2] at hset3
      rw [frame_shareWord] at h3 hset3
      refine .inr ⟨_, rfl, h3, hsh.step hset1 hun hset3 hx, ?_⟩
      rw [(sameSpace_frameIncref _ _).table, table_setEntry h2.space htq]
      exact hkept ht1
  · have hnone : S.view src v = none := by
      rw [view, pte, ht]
      simp [asEntry, hw]
    simp only [hw, Bool.not_false, if_true]
    refine .inr ⟨S, rfl, h, hsh.skip fun v' hv' _ => ?_, ht⟩
    rw [hv']
    exact hnone

/-- The loop over the entries of a table. -/
theorem Inv.shareTable (hne : src ≠ dst) (c : Nat) {js : List Idx} (hnd : js.Nodup) :
    ∀ {S : Mm} {P : VPage → Prop}, Inv R S held → Shared S0 S src dst P →
      dst ∈ S.dirs → S.table src i = some p → (∀ j ∈ js, ¬ P (i, j)) →
      (∃ S', shareTable c p dst i S js = (S', false) ∧ Inv R S' held ∧
        HalfShared S0 S' src dst) ∨
      ∃ S', shareTable c p dst i S js = (S', true) ∧ Inv R S' held ∧
        Shared S0 S' src dst fun v => P v ∨ (v.1 = i ∧ v.2 ∈ js) := by
  induction js with
  | nil =>
    intro S P h hsh _ _ _
    exact .inr ⟨S, rfl, h, hsh.congr fun v => by simp⟩
  | cons j js ih =>
    intro S P h hsh hdst ht hjs
    obtain ⟨hj, hnd⟩ := nodup_cons.1 hnd
    rw [Mm.shareTable]
    rcases h.shareEntry hR hheld hsh hne hdst ht (hjs j mem_cons_self) c
      with ⟨S1, heq, h1, hhalf⟩ | ⟨S1, heq, h1, hsh1, ht1⟩
    · rw [heq]
      exact .inl ⟨S1, rfl, h1, hhalf⟩
    · rw [heq]
      have hdst1 : dst ∈ S1.dirs := by
        rw [hsh1.dirs, ← hsh.dirs]
        exact hdst
      rcases ih hnd h1 hsh1 hdst1 ht1 fun j' hj' => not_or.2
          ⟨hjs j' (.tail j hj'), fun he => hj (by
            rw [← (Prod.mk.inj he).2]; exact hj')⟩ with hfail | ⟨S2, heq2, h2, hsh2⟩
      · exact .inl hfail
      · refine .inr ⟨S2, heq2, h2, hsh2.congr fun v => ?_⟩
        obtain ⟨i', j'⟩ := v
        simp only [mem_cons, Prod.mk.injEq]
        tauto

/-- One directory entry of `cow_share_user_pages`. -/
theorem Inv.sharePde (h : Inv R S held)
    (hsh : Shared S0 S src dst P) (hne : src ≠ dst) (hsrc : src ∈ S.dirs)
    (hdst : dst ∈ S.dirs) (hi : i.IsUser) (hP : ∀ j, ¬ P (i, j)) (c : Nat) :
    (∃ S', S.sharePde c src dst i = (S', false) ∧ Inv R S' held ∧
      HalfShared S0 S' src dst) ∨
    ∃ S', S.sharePde c src dst i = (S', true) ∧ Inv R S' held ∧
      Shared S0 S' src dst fun v => P v ∨ v.1 = i := by
  dsimp only [Mm.sharePde]
  cases ht : S.table src i with
  | none =>
    have hp := (table_eq_none hsrc hi).1 ht
    simp only [hp, Bool.not_false, if_true]
    refine .inr ⟨S, rfl, h, hsh.skip fun v hv _ => ?_⟩
    obtain ⟨i', j'⟩ := v
    obtain rfl : i' = i := hv
    rw [view, pte_eq_none_of_table ht]
    rfl
  | some p =>
    obtain ⟨-, -, hpp, hpf⟩ := table_eq_some.1 ht
    have hpool : p.Pool := h.alloc.pool
      (Nat.add_pos_left (refCount.pos_of_mem (s := .table src i) ht) _)
    simp only [hpp, Bool.not_true, Bool.false_eq_true, if_false, hpf, if_neg (not_le.2 hpool.2)]
    rcases h.shareTable hR hheld hne c (show allIdx.Nodup from nodup_finRange _) hsh hdst
        ht (fun j _ => hP j) with hfail | ⟨S1, heq, h1, hsh1⟩
    · exact .inl hfail
    · refine .inr ⟨S1, heq, h1, hsh1.congr fun v => ?_⟩
      simp only [mem_allIdx, and_true]

/-- `cow_share_user_pages` over some directory entries. -/
theorem Inv.shareTables (hne : src ≠ dst) (c : Nat)
    {is : List Idx} (hnd : is.Nodup) (hus : ∀ i ∈ is, i.IsUser) :
    ∀ {S : Mm} {P : VPage → Prop}, Inv R S held → Shared S0 S src dst P →
      src ∈ S.dirs → dst ∈ S.dirs → (∀ v, v.1 ∈ is → ¬ P v) →
      (∃ S', shareTables c src dst S is = (S', false) ∧ Inv R S' held ∧
        HalfShared S0 S' src dst) ∨
      ∃ S', shareTables c src dst S is = (S', true) ∧ Inv R S' held ∧
        Shared S0 S' src dst fun v => P v ∨ v.1 ∈ is := by
  induction is with
  | nil =>
    intro S P h hsh _ _ _
    exact .inr ⟨S, rfl, h, hsh.congr fun v => by simp⟩
  | cons i is ih =>
    intro S P h hsh hsrc hdst his
    obtain ⟨hi, hnd⟩ := nodup_cons.1 hnd
    rw [Mm.shareTables]
    rcases h.sharePde hR hheld hsh hne hsrc hdst (hus i mem_cons_self)
        (fun j => his (i, j) mem_cons_self) c with
      ⟨S1, heq, h1, hhalf⟩ | ⟨S1, heq, h1, hsh1⟩
    · rw [heq]
      exact .inl ⟨S1, rfl, h1, hhalf⟩
    · rw [heq]
      have hdirs : S1.dirs = S.dirs := hsh1.dirs.trans hsh.dirs.symm
      rcases ih hnd (fun x hx => hus x (.tail i hx)) h1 hsh1
          (hdirs ▸ hsrc) (hdirs ▸ hdst) fun v hv => not_or.2
            ⟨his v (.tail i hv), fun he => hi (he ▸ hv)⟩ with
        hfail | ⟨S2, heq2, h2, hsh2⟩
      · exact .inl hfail
      · refine .inr ⟨S2, heq2, h2, hsh2.congr fun v => ?_⟩
        simp only [mem_cons]
        tauto

end

/-! ## `clone_process_memory` -/

/-- If memory runs out, the roll-backs are safe. -/
def CloneSafe (S : Mm) (c : Nat) (src : Frame) (memOk dirOk : Bool) : Prop :=
  S.CreateSafe c dirOk ∧
    ∀ S1 dst S2, S.createProcessMemory c memOk dirOk = (S1, some dst) →
      (S1.purgeDstUserPages c dst).cowShareUserPages c src dst = (S2, false) →
      S2.SafeDestroy dst

/-- A fork that succeeded needed no roll-back. -/
theorem cloneSafe_of_some {memOk dirOk : Bool}
    (h : (S.cloneProcessMemory c src memOk dirOk).2 = some dst) :
    S.CloneSafe c src memOk dirOk := by
  rw [cloneProcessMemory] at h
  cases hcr : S.createProcessMemory c memOk dirOk with
  | mk S1 r =>
    rw [hcr] at h
    cases r with
    | none => cases h
    | some d =>
      refine ⟨createSafe_of_some (by rw [hcr]), fun S1' d' S2 hcr' hsh => ?_⟩
      rw [hcr] at hcr'
      obtain ⟨rfl, he⟩ := Prod.mk.inj hcr'
      cases he
      change (finishClone c d _).2 = some dst at h
      rw [hsh] at h
      cases h

/-- The new directory `dst` shares the pages of `src`. -/
structure Cloned (S S' : Mm) (src dst : Frame) : Prop where
  fresh : dst ∉ S.dirs
  dirs : S'.dirs = dst :: S.dirs
  parent : ∀ v, S'.view src v = share (S.view src v)
  child : ∀ v, S'.view dst v = share (S.view src v)
  others : ∀ d, d ≠ src → d ≠ dst → S'.view d = S.view d
  kernel : S'.kernel = S.kernel

/-- A fork that failed: some pages of `src` have become read-only. -/
structure Unforked (S S' : Mm) (src : Frame) : Prop where
  parent : ∀ v, S'.view src v = S.view src v ∨
    S'.view src v = share (S.view src v)
  others : ∀ d, d ≠ src → S'.view d = S.view d
  dirs : S'.dirs = S.dirs
  kernel : S'.kernel = S.kernel

theorem Unseen.unforked (h : Unseen held S S') (src : Frame) : Unforked S S' src :=
  ⟨fun _ => .inl (by rw [h.view]), fun _ _ => by rw [h.view], h.dirs, h.kernel⟩

theorem view_of_not_user (hv : ¬ v.1.IsUser) (d : Frame) : S.view d v = none := by
  rw [view, pte, show S.table d v.1 = none from if_neg fun hc => hv hc.2.1]
  rfl

/-- A directory that came and went leaves the read-only pages of `src`. -/
theorem Inv.rollbackClone {S1 : Mm} (hR : CountRel 0xFFFF R)
    (h : Inv R S' held) (hne : src ≠ dst) (hnew : dst ∉ S.dirs)
    (hdirs : S1.dirs = dst :: S.dirs) (hoth : Others held S S1 dst)
    (hhalf : HalfShared S1 S' src dst) (hsafe : S'.SafeDestroy dst) (c : Nat) :
    Inv R (S'.destroyPageDirectory c dst) held ∧
      Unforked S (S'.destroyPageDirectory c dst) src := by
  have hdirs' : S'.dirs = dst :: S.dirs := hhalf.dirs.trans hdirs
  have hd : dst ∈ S'.dirs := hdirs' ▸ mem_cons_self
  obtain ⟨h', hdirs'', -, hker, hview⟩ := h.destroyPageDirectory hR hd hsafe c
  have hback : (S'.destroyPageDirectory c dst).dirs = S.dirs := by
    rw [hdirs'', hdirs', erase_cons_head]
  refine ⟨h', fun v => ?_, fun d hds => ?_, hback, hker.trans (hhalf.kernel.trans hoth.kernel)⟩
  · rw [hview src hne, ← hoth.view src hne]
    exact hhalf.parent v
  · obtain rfl | hdd := eq_or_ne d dst
    · funext v
      rw [view_eq_none hnew, view_eq_none (by rw [hback]; exact hnew)]
    · rw [hview d hdd, hhalf.others d hds hdd, hoth.view d hdd]

/-- A fork that fails leaves pages of the parent read-only; one that succeeds shares them all. -/
theorem Inv.cloneProcessMemory (hR : CountRel 0xFFFF R) (hheld : FewHeld held) (h : Inv R S held)
    (hsrc : src ∈ S.dirs) {memOk dirOk : Bool} (hsafe : S.CloneSafe c src memOk dirOk) :
    (∃ S', S.cloneProcessMemory c src memOk dirOk = (S', none) ∧
      Inv R S' held ∧ Unforked S S' src) ∨
    ∃ S' dst, S.cloneProcessMemory c src memOk dirOk = (S', some dst) ∧
      Inv R S' held ∧ Cloned S S' src dst := by
  unfold Mm.cloneProcessMemory
  rcases h.createProcessMemory hR memOk hsafe.1 with
    ⟨S1, heq, h1, hun⟩ | ⟨S1, dst, heq, h1, hcr⟩
  -- no memory for the child
  · simp only [heq]
    exact .inl ⟨S1, rfl, h1, hun.unforked src⟩
  · have hne : src ≠ dst := fun he => hcr.fresh (he ▸ hsrc)
    have hdst1 : dst ∈ S1.dirs := hcr.dirs ▸ mem_cons_self
    obtain ⟨h2, hdirs2, hoth2, hempty⟩ := h1.purgeDstUserPages hR hdst1 c
    have hshare := hsafe.2 S1 dst
    rw [heq]
    show (∃ S', finishClone c dst _ = (S', none) ∧ _) ∨
      ∃ S' d, finishClone c dst _ = (S', some d) ∧ _
    generalize S1.purgeDstUserPages c dst = S2 at *
    have hdirs : S2.dirs = dst :: S.dirs := hdirs2.trans hcr.dirs
    have hoth : Others held S S2 dst := hcr.others.trans hoth2
    have hstart : Shared S2 S2 src dst fun _ => False :=
      ⟨fun _ hv => hv.elim, fun v _ => ⟨rfl, hempty v⟩, fun _ _ _ => rfl, rfl, rfl⟩
    rcases h2.shareTables hR hheld hne c nodup_userIdx (fun i hi => mem_userIdx.1 hi)
        hstart (hdirs ▸ .tail _ hsrc)
        (hdirs ▸ mem_cons_self) (fun _ _ => id) with
      ⟨S3, hloop, h3, hhalf⟩ | ⟨S3, hloop, h3, hsh⟩
    -- sharing stops at a page, and the child is destroyed
    · rw [cowShareUserPages, hloop]
      obtain ⟨h4, hunf⟩ := h3.rollbackClone hR hne hcr.fresh hdirs hoth hhalf
        (hshare S3 heq hloop) c
      exact .inl ⟨_, rfl, h4, hunf⟩
    · rw [cowShareUserPages, hloop]
      have hview : ∀ v, S3.view src v = share (S2.view src v) ∧
          S3.view dst v = share (S2.view src v) := by
        intro v
        by_cases hv : v.1.IsUser
        · exact hsh.done v (.inr (mem_userIdx.2 hv))
        · rw [view_of_not_user hv, view_of_not_user hv, view_of_not_user hv]
          exact ⟨rfl, rfl⟩
      have hsrc2 : S2.view src = S.view src := hoth.view src hne
      refine .inr ⟨S3, dst, rfl, h3, hcr.fresh, hsh.dirs.trans hdirs, fun v => ?_,
        fun v => ?_, fun d hds hdd => ?_, hsh.kernel.trans hoth.kernel⟩
      · rw [(hview v).1, hsrc2]
      · rw [(hview v).2, hsrc2]
      · rw [hsh.others d hds hdd, hoth.view d hdd]

end UnixOs.Mm
