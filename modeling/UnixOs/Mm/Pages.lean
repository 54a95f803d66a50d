import UnixOs.Mm.Ops

/-!
# Operations on one page

`map_page` with a new frame as `brk`, `mmap` and `map_user_pages` use it,
`unmap_range` on one page, and the copy-on-write fault. Each of them keeps the
invariant and changes what one process sees of one page.
-/

namespace UnixOs.Mm

open Function Option

variable {S S' : Mm} {R : Nat → Nat → Prop} {held : Frame → Nat}
  {d p f g : Frame} {i j : Idx} {v : VPage} {w : Word} {c : Nat}
  {flags : Flags}

/-! ## The content of a page -/

/-- The frame of a page that is mapped once gets another content. -/
theorem sets_setFrame (h : SpaceInv S held) (hw : S.pte d v = some w)
    (hone : S.refs w.frame + held w.frame = 1) (ws : Idx → Word) :
    Sets held S (S.setFrame w.frame ws) d v (some (w, ws)) := by
  have hptr := ptr_entry_of_pte hw
  have hns := h.notStruct_of_entry hptr
  refine ⟨fun d' v' => ?_, rfl, rfl, fun g hg => ?_⟩
  · rw [view, pte_setFrame hns]
    split
    · next hc =>
      obtain ⟨rfl, rfl⟩ := hc
      rw [hw, map_some]
      show some (w, update S.mem w.frame ws w.frame) = _
      rw [update_self]
    · next hc =>
      rw [view]
      cases hw' : S.pte d' v' with
      | none => rfl
      | some w' =>
        -- Another entry for the same frame would be a second reference.
        have hne : w'.frame ≠ w.frame := by
          intro he
          have hptr' := ptr_entry_of_pte hw'
          rw [he] at hptr'
          have hslot := refCount.unique (show S.refs w.frame ≤ 1 by omega) hptr' hptr
          exact hc ⟨(Slot.entry.inj hslot).1, (Slot.entry.inj hslot).2⟩
        rw [map_some, map_some]
        show some (w', update S.mem w.frame ws w'.frame) = _
        rw [update_of_ne hne]
  · refine update_of_ne ?_ _ _
    rintro rfl
    have : 0 < S.refs w.frame := refCount.pos_of_mem hptr
    omega

theorem Inv.pool_of_pte (h : Inv R S held) (hw : S.pte d v = some w) : w.frame.Pool :=
  h.alloc.pool (Nat.add_pos_left (refCount.pos_of_mem (ptr_entry_of_pte hw)) _)

theorem Inv.setPage (h : Inv R S held) (hw : S.pte d v = some w)
    (ws : Idx → Word) : Inv R (S.setFrame w.frame ws) held :=
  h.setFrame (h.space.notStruct_of_entry (ptr_entry_of_pte hw)) (h.pool_of_pte hw) ws

/-! ## Mapping a new frame -/

/-- `allocate_frame`, then `map_page`, then `free_frame` where that fails: the
part `map_user_pages`, `sys_brk` and `sys_mmap` share. `pre` is what happens to
the frame before it is mapped. -/
theorem Inv.mapNew (hR : CountRel 0xFFFF R) (h : Inv R S (bump held f))
    (hz : S.refs f + held f = 0) (hd : d ∈ S.dirs) (hv : v.1.IsUser)
    (hnone : S.pte d v = none) (hp : flags.present = true) (hu : flags.user = true) (c : Nat) :
    (∃ S', S.mapPage c d v f flags = (S', false) ∧
      Inv R (S'.freeFrame c f) held ∧ Unseen held S (S'.freeFrame c f)) ∨
    ∃ S', S.mapPage c d v f flags = (S', true) ∧ Inv R S' held ∧
      Sets held S S' d v (some (.entry f flags, S.mem f)) := by
  rcases h.mapPage hR hz hd hv hnone hp hu c with ⟨S', heq, h', hun⟩ | hok
  · refine .inl ⟨S', heq, h'.freeFrame hR c, ?_⟩
    exact (hun.mono fun g hg => hg.trans_le (le_bump held f g)).trans
      (sameSpace_freeFrame S' c f).unseen
  · exact .inr hok

theorem userFlags_present (writable : Bool) : (userFlags writable).present = true := by
  cases writable <;> decide

theorem userFlags_user (writable : Bool) : (userFlags writable).user = true := by
  cases writable <;> decide

/-- One page of `brk` or `mmap`, at a page that is not mapped. -/
theorem Inv.mapUserPage (hR : CountRel 0xFFFF R) (h : Inv R S held)
    (hd : d ∈ S.dirs) (hv : v.1.IsUser) (hnone : S.pte d v = none)
    (c : Nat) (writable zero : Bool) :
    (∃ S', S.mapUserPage c d v writable zero = (S', false) ∧ Inv R S' held ∧
      Unseen held S S') ∨
    ∃ S' f ws, S.mapUserPage c d v writable zero = (S', true) ∧ Inv R S' held ∧
      (zero = true → ws = fun _ => 0) ∧
      Sets held S S' d v (some (.entry f (userFlags writable), ws)) := by
  unfold Mm.mapUserPage
  obtain hx | ⟨S1, f, hx, hgot⟩ := h.allocateFrame hR c
  · rw [hx]
    exact .inl ⟨S, rfl, h, .refl _ _⟩
  · rw [hx]
    have hz := hgot.unused
    have hd1 : d ∈ S1.dirs := hgot.same.2.1 ▸ hd
    have hnone1 : S1.pte d v = none := by
      rw [show S1.pte = S.pte from hgot.same.pte]
      exact hnone
    rcases hgot.inv.mapNew hR hz hd1 hv hnone1 (userFlags_present writable)
      (userFlags_user writable) c with ⟨S2, heq, h2, hun⟩ | ⟨S2, heq, h2, hset⟩
    · simp only [heq]
      exact .inl ⟨_, rfl, h2, hgot.same.unseen.trans hun⟩
    · simp only [heq]
      have hset' := hset.after hgot.same.unseen
      have hpte : S2.pte d v = some (.entry f (userFlags writable)) := by
        rw [pte_eq_view, hset'.view, if_pos ⟨rfl, rfl⟩]
        rfl
      cases zero with
      | false => exact .inr ⟨S2, f, _, rfl, h2, Bool.noConfusion, hset'⟩
      | true =>
        -- The new page is mapped once, so clearing it is seen there only.
        have hwf := Word.frame_entry f (userFlags writable)
        have hone : S2.refs f = 1 := by
          have := hset.refs_eq_one h2.space (by rw [hwf]; omega)
          rwa [hwf] at this
        rw [if_pos rfl, zeroFrame_of_pool hgot.pool]
        have h3 := h2.setPage hpte fun _ => 0
        have hset3 := sets_setFrame h2.space hpte (by rw [hwf]; omega) fun _ => 0
        rw [hwf] at h3 hset3
        exact .inr ⟨_, f, _, rfl, h3, fun _ => rfl, hset'.trans hset3⟩

/-! ## Unmapping -/

/-- The entry `get_physical_addr` finds at a user page. -/
theorem lookup_eq_pte (hd : d ∈ S.dirs) (hv : v.1.IsUser) : S.lookup d v = S.pte d v := by
  dsimp only [lookup]
  by_cases hp : (S.mem d v.1).present = true
  · have ht : S.table d v.1 = some (S.mem d v.1).frame := table_eq_some.2 ⟨hd, hv, hp, rfl⟩
    rw [pte, ht]
    cases hw : (S.mem (S.mem d v.1).frame v.2).present <;> simp [hp, asEntry, hw]
  · rw [pte, (table_eq_none hd hv).2 (by simpa using hp)]
    simp [hp]

theorem Inv.getPhysicalFrame (h : Inv R S held) (hd : d ∈ S.dirs) (hv : v.1.IsUser) :
    S.getPhysicalFrame d v = (S.pte d v).map Word.frame := by
  rw [Mm.getPhysicalFrame, lookup_eq_pte hd hv]
  cases hw : S.pte d v with
  | none => rfl
  | some w =>
    have hne : w.frame ≠ 0 := by
      intro he
      have hpool := h.pool_of_pte hw
      rw [he] at hpool
      exact absurd hpool.1 (by decide)
    simp only [hne, if_false, map_some]

theorem sets_none (held : Frame → Nat) (hw : S.pte d v = none) : Sets held S S d v none := by
  refine ⟨fun d' v' => ?_, rfl, rfl, fun _ _ => rfl⟩
  by_cases hc : d' = d ∧ v' = v
  · rw [if_pos hc, hc.1, hc.2, view, hw]
    rfl
  · rw [if_neg hc]

/-- One page of `unmap_range`. -/
theorem Inv.unmapUserPage (hR : CountRel 0xFFFF R) (h : Inv R S held)
    (hd : d ∈ S.dirs) (hv : v.1.IsUser) (c : Nat) :
    Inv R (S.unmapUserPage c d v) held ∧ Sets held S (S.unmapUserPage c d v) d v none := by
  rw [Mm.unmapUserPage, h.getPhysicalFrame hd hv]
  cases hw : S.pte d v with
  | none => exact ⟨h, sets_none held hw⟩
  | some w =>
    obtain ⟨p, ht, hwp, rfl⟩ := pte_eq_some.1 hw
    obtain ⟨-, -, hpp, hpf⟩ := table_eq_some.1 ht
    have hunmap : S.unmapPage d v = S.setWord p v.2 0 := by
      rw [unmapPage, hpp, hpf]
      rfl
    rw [hunmap]
    have hmove : Inv R (S.setWord p v.2 0) (bump held (S.mem p v.2).frame) := by
      refine h.setEntry ht (fun g => ?_) Bool.noConfusion
        Bool.noConfusion Bool.noConfusion
      rw [asEntry_zero, ptr_entry_of_pte hw]
      simp [bump, eq_comm]
    refine ⟨hmove.freeFrame hR c, ?_⟩
    have hset := sets_setEntry (w := 0) (j := v.2) h.space ht Bool.noConfusion
    rw [asEntry_zero] at hset
    exact hset.before (sameSpace_freeFrame _ c _).unseen

/-! ## The copy-on-write fault -/

theorem unshareFlags_present (fl : Flags) (h : fl.present = true) :
    (unshareFlags fl).present = true := by
  simp only [Flags.present, unshareFlags] at h ⊢
  simp [h, pageCowBit, pageWritable]

theorem unshareFlags_user (fl : Flags) (h : fl.user = true) : (unshareFlags fl).user = true := by
  simp only [Flags.user, unshareFlags] at h ⊢
  simp [h, pageCowBit, pageWritable]

/-- A fault outside the copy-on-write pages of user space is refused. -/
theorem handleCowFault_refused (h : Inv R S held) (hd : d ∈ S.dirs)
    (hno : ∀ w, S.pte d v = some w → w.cow = false) : S.handleCowFault c d v = (S, false) := by
  dsimp only [Mm.handleCowFault]
  split
  · rfl
  next hp =>
  split
  · rfl
  split
  · rfl
  next hw =>
  rw [if_pos]
  replace hp : (S.mem d v.1).present = true := by simpa using hp
  replace hw : (S.mem (S.mem d v.1).frame v.2).present = true := by simpa using hw
  by_cases hv : v.1.IsUser
  · have hpte : S.pte d v = some (S.mem (S.mem d v.1).frame v.2) :=
      pte_eq_some.2 ⟨_, table_eq_some.2 ⟨hd, hv, hp, rfl⟩, hw, rfl⟩
    rw [hno _ hpte]
    rfl
  · -- The kernel's own entries have no copy-on-write bit.
    have hpde := h.space.kernelPde hd hv
    rw [kernelPde] at hpde
    split at hpde
    · rw [hpde, Word.frame_entry, h.space.kernelPte, kernelPte, Word.cow, Word.flags_entry]
      decide
    · rw [hpde] at hp
      exact absurd hp (by decide)

/-- A fault on a copy-on-write page. -/
theorem handleCowFault_eq (h : Inv R S held) (ht : S.table d v.1 = some p)
    (hw : (S.mem p v.2).present = true) (hcow : (S.mem p v.2).cow = true) :
    S.handleCowFault c d v =
      if S.frameGetref (S.mem p v.2).frame ≤ 1 then
        (S.setWord p v.2
          (.entry (S.mem p v.2).frame (unshareFlags (S.mem p v.2).flags)), true)
      else
        match S.allocateFrame c with
        | (S', none) => (S', false)
        | (S', some new) =>
          (((S'.copyFrame (S.mem p v.2).frame new).setWord p v.2
            (.entry new (unshareFlags (S.mem p v.2).flags))).frameDecref c
              (S.mem p v.2).frame, true) := by
  obtain ⟨-, -, hpp, rfl⟩ := table_eq_some.1 ht
  have hpool : (S.mem d v.1).frame.Pool := h.alloc.pool
    (Nat.add_pos_left (refCount.pos_of_mem (s := .table d v.1) ht) _)
  have hpde : ¬ (!(S.mem d v.1).present) = true := by rw [hpp]; decide
  have hpte : ¬ (!(S.mem (S.mem d v.1).frame v.2).present) = true := by rw [hw]; decide
  have hbit : ¬ (!(S.mem (S.mem d v.1).frame v.2).cow) = true := by rw [hcow]; decide
  exact (if_neg hpde).trans ((if_neg (not_le.2 hpool.2)).trans
    ((if_neg hpte).trans (if_neg hbit)))

theorem copyFrame_of_pool {old new : Frame} (ho : old.Pool) (hn : new.Pool) :
    S.copyFrame old new = S.setFrame new (S.mem old) := by
  rw [copyFrame, if_pos ⟨ho.2, hn.2⟩]

section

variable (hR : CountRel 0xFFFF R)
include hR

/-- The last owner takes the frame over. -/
theorem Inv.cowUpgrade (h : Inv R S held)
    (ht : S.table d v.1 = some p) (hw : S.pte d v = some w) (hlast : S.frameGetref w.frame ≤ 1) :
    Inv R (S.setWord p v.2 (.entry w.frame (unshareFlags w.flags))) held ∧
      Sets held S (S.setWord p v.2 (.entry w.frame (unshareFlags w.flags))) d v
        (some (.entry w.frame (unshareFlags w.flags), S.mem w.frame)) := by
  have hptr := ptr_entry_of_pte hw
  have hpool := h.pool_of_pte hw
  have hentry := asEntry_entry (f := w.frame) (unshareFlags_present w.flags (present_of_pte hw))
  -- The count is at least the number of references, so the entry is the only one.
  have hone : S.refs w.frame + held w.frame = 1 := by
    have hpos : 0 < S.refs w.frame := refCount.pos_of_mem hptr
    have hle := hR.le (h.alloc.count hpool (h.alloc.owned (Nat.add_pos_left hpos _)))
    rw [frameGetref, if_neg (not_le.2 hpool.lt_frameCount)] at hlast
    omega
  constructor
  · refine h.setEntry ht (fun g => ?_) ?_ ?_ ?_
    · rw [hentry, map_some, Word.frame_entry, hptr]
    · intro _ v' hv'
      rw [Word.frame_entry] at hv'
      exact h.space.injective hv' hptr
    · intro _ _
      rw [Word.frame_entry]
      exact hone
    · intro _
      rw [user_entry]
      exact unshareFlags_user _ (h.space.userPte hw)
  · have hne : w.frame ≠ p := fun he =>
      h.space.notStruct_of_entry hptr (.table d v.1) trivial (ht.trans (congrArg some he.symm))
    have hset := sets_setEntry (w := .entry w.frame (unshareFlags w.flags))
      (j := v.2) h.space ht fun _ => by rw [Word.frame_entry]; exact hne
    rwa [hentry, map_some, Word.frame_entry] at hset

/-- A sharer gets a copy of its own. -/
theorem Inv.cowCopy (h : Inv R S (bump held f))
    (hz : S.refs f + held f = 0) (ht : S.table d v.1 = some p) (hw : S.pte d v = some w) (c : Nat) :
    Inv R (((S.copyFrame w.frame f).setWord p v.2
        (.entry f (unshareFlags w.flags))).frameDecref c w.frame) held ∧
      Sets held S (((S.copyFrame w.frame f).setWord p v.2
        (.entry f (unshareFlags w.flags))).frameDecref c w.frame) d v
        (some (.entry f (unshareFlags w.flags), S.mem w.frame)) := by
  have hptr := ptr_entry_of_pte hw
  have hpool := h.pool_of_pte hw
  have hns : S.NotStruct f := notStruct_of_refs (by omega)
  have hentry := asEntry_entry (f := f) (unshareFlags_present w.flags (present_of_pte hw))
  rw [copyFrame_of_pool hpool h.pool]
  obtain ⟨h1, hun⟩ := h.fillHeld hz (S.mem w.frame)
  set S1 := S.setFrame f (S.mem w.frame) with hS1
  have ht1 : S1.table d v.1 = some p := by rw [hS1, table_setFrame hns]; exact ht
  have hptr1 : S1.ptr (.entry d v) = some w.frame := by rw [hS1, ptr_setFrame hns]; exact hptr
  have hz1 : S1.refs f = 0 := by rw [hS1, refs_setFrame hns]; omega
  have hmem : S1.mem f = S.mem w.frame := update_self _ _ _
  -- The entry gives up the old frame and takes the new one.
  have hmove : Inv R (S1.setWord p v.2 (.entry f (unshareFlags w.flags)))
      (bump held w.frame) := by
    refine h1.setEntry ht1 (fun g => ?_) ?_ ?_ ?_
    · rw [hentry, map_some, Word.frame_entry, hptr1]
      simp only [bump, Option.some.injEq, eq_comm]
      omega
    · intro _ v' hv'
      rw [Word.frame_entry] at hv'
      exact absurd hv' (refCount.eq_zero_iff.1 hz1 _)
    · intro _ _
      rw [Word.frame_entry, bump_self]
      omega
    · intro _
      rw [user_entry]
      exact unshareFlags_user _ (h.space.userPte hw)
  refine ⟨hmove.frameDecref hR c, ?_⟩
  have hne : f ≠ p := fun he => hns (.table d v.1) trivial (ht.trans (congrArg some he.symm))
  have hset := sets_setEntry (w := .entry f (unshareFlags w.flags)) (j := v.2)
    h1.space ht1 fun _ => by rw [Word.frame_entry]; exact hne
  rw [hentry, map_some, Word.frame_entry, hmem] at hset
  exact ((hset.mono fun g hg => hg.trans_le (le_bump held f g)).after hun).before
    (sameSpace_frameDecref _ c _).unseen

/-- `handle_cow_fault` on any page of a live directory: it fails and nobody
sees a difference, or the entry of a copy-on-write page becomes writable and
the page keeps its content. -/
theorem Inv.handleCowFault (h : Inv R S held) (hd : d ∈ S.dirs) (c : Nat) (v : VPage) :
    (∃ S', S.handleCowFault c d v = (S', false) ∧ Inv R S' held ∧
      Unseen held S S') ∨
    ∃ S' w f, S.handleCowFault c d v = (S', true) ∧ S.pte d v = some w ∧
      w.cow = true ∧ Inv R S' held ∧ Sets held S S' d v
        (some (.entry f (unshareFlags w.flags), S.mem w.frame)) := by
  by_cases hno : ∀ w, S.pte d v = some w → w.cow = false
  · exact .inl ⟨S, handleCowFault_refused h hd hno, h, .refl _ _⟩
  · obtain ⟨w, hw, hcow⟩ : ∃ w, S.pte d v = some w ∧ w.cow = true := by
      push Not at hno
      obtain ⟨w, hw, hc⟩ := hno
      exact ⟨w, hw, by simpa using hc⟩
    obtain ⟨p, ht, hwp, rfl⟩ := pte_eq_some.1 hw
    rw [handleCowFault_eq h ht hwp hcow]
    split
    · next hlast =>
      obtain ⟨h', hset⟩ := h.cowUpgrade hR ht hw hlast
      exact .inr ⟨_, _, _, rfl, hw, hcow, h', hset⟩
    · obtain hx | ⟨S1, f, hx, hgot⟩ := h.allocateFrame hR c
      · rw [hx]
        exact .inl ⟨S, rfl, h, .refl _ _⟩
      · rw [hx]
        have ht1 : S1.table d v.1 = some p := by
          rw [show S1.table = S.table from hgot.same.table]
          exact ht
        have hw1 : S1.pte d v = some (S.mem p v.2) := by
          rw [show S1.pte = S.pte from hgot.same.pte]
          exact hw
        obtain ⟨h2, hset⟩ := hgot.inv.cowCopy hR hgot.unused ht1 hw1 c
        rw [show S1.mem = S.mem from hgot.same.1] at hset
        exact .inr ⟨_, _, f, rfl, hw, hcow, h2, hset.after hgot.same.unseen⟩

end

end UnixOs.Mm
