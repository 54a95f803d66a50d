import UnixOs.Mm.Space

/-!
# What the operations do to the address spaces

Each function of page_dir.c, process_mm.c and cow_temp.c keeps the invariant.
`view S d v` is what a process sees of its page `v`: the entry and the content
of the frame. One lemma per function says how the views change; most functions
change none, and only the references the running code holds.
-/

namespace UnixOs.Mm

open Function Option Word

/-- The entry of a user page with the content of its frame. -/
def view (S : Mm) (d : Frame) (v : VPage) : Option (Word × (Idx → Word)) :=
  (S.pte d v).map fun w => (w, S.mem w.frame)

variable {S S' : Mm} {R : Nat → Nat → Prop} {held : Frame → Nat}
  {d p f g : Frame} {i j : Idx} {v : VPage} {w : Word} {c : Nat}

theorem view_eq_some {x : Word × (Idx → Word)} :
    S.view d v = some x ↔ S.pte d v = some x.1 ∧ S.mem x.1.frame = x.2 := by
  unfold view
  rw [map_eq_some_iff]
  constructor
  · rintro ⟨w, hw, rfl⟩
    exact ⟨hw, rfl⟩
  · rintro ⟨hw, hm⟩
    exact ⟨x.1, hw, by rw [hm]⟩

/-- No view has changed, nor the frames the running code holds. -/
structure Unseen (held : Frame → Nat) (S S' : Mm) : Prop where
  view : S'.view = S.view
  dirs : S'.dirs = S.dirs
  kernel : S'.kernel = S.kernel
  mem : ∀ g, 0 < held g → S'.mem g = S.mem g

theorem Unseen.refl (held : Frame → Nat) (S : Mm) : Unseen held S S :=
  ⟨rfl, rfl, rfl, fun _ _ => rfl⟩

variable {S'' : Mm} {held' : Frame → Nat} {fl : Flags} {flags : Flags}

theorem Unseen.trans (h : Unseen held S S') (h' : Unseen held S' S'') : Unseen held S S'' :=
  ⟨h'.view.trans h.view, h'.dirs.trans h.dirs, h'.kernel.trans h.kernel,
    fun g hg => (h'.mem g hg).trans (h.mem g hg)⟩

theorem Unseen.mono (h : Unseen held S S')
    (hle : ∀ g, 0 < held' g → 0 < held g) : Unseen held' S S' :=
  ⟨h.view, h.dirs, h.kernel, fun g hg => h.mem g (hle g hg)⟩

theorem pte_eq_view (d : Frame) (v : VPage) : S.pte d v = (S.view d v).map Prod.fst := by
  rw [view, map_map]
  exact (map_id').symm

section

variable (h : Unseen held S S')
include h

theorem Unseen.pte : S'.pte = S.pte := by
  funext d v
  rw [pte_eq_view, pte_eq_view, h.view]

theorem Unseen.ptr_entry (d : Frame) (v : VPage) : S'.ptr (.entry d v) = S.ptr (.entry d v) := by
  rw [ptr, ptr, h.pte]

/-- A held frame that no slot referred to stays so. -/
theorem Unseen.refs_eq_zero (hs : SpaceInv S' held)
    (hf : 0 < held f) (hz : S.refs f = 0) : S'.refs f = 0 := by
  refine refCount.eq_zero_iff.2 fun s => ?_
  cases s with
  | dir | table => exact hs.notStruct_of_held hf _ trivial
  | entry d v =>
    rw [h.ptr_entry]
    exact refCount.eq_zero_iff.1 hz _

end

theorem SameSpace.view (h : S.SameSpace S') : S'.view = S.view := by
  funext d v
  simp only [Mm.view, h.pte, h.1]

theorem SameSpace.unseen (h : S.SameSpace S') : Unseen held S S' :=
  ⟨h.view, h.2.1, h.2.2, fun g _ => by rw [h.1]⟩

/-! ## References the running code takes and gives up -/

theorem add_bump (T held : Frame → Nat) (f : Frame) :
    (fun g => T g + bump held f g) = bump (fun g => T g + held g) f := by
  funext g
  simp only [bump]
  omega

theorem inv_of_sameSpace (hs : S.SameSpace S') (ha : AllocInv R S' fun f => S.refs f + held f)
    (hp : SpaceInv S held) : Inv R S' held :=
  ⟨by rw [hs.refs]; exact ha, hp.of_same hs⟩

/-- A frame no slot refers to may be held once more. -/
theorem SpaceInv.hold (h : SpaceInv S held) (hf : S.refs f = 0) : SpaceInv S (bump held f) := by
  refine h.of_held fun g hg => ?_
  have hgf : g = f := by
    by_contra hne
    exact hg (bump_of_ne hne)
  subst hgf
  refine ⟨notStruct_of_refs hf, fun {d v w} hw hwf => ?_⟩
  exact absurd (hwf ▸ ptr_entry_of_pte hw) (refCount.eq_zero_iff.1 hf _)

/-- A frame the running code holds is no directory, table or writable page, so
the code may give it up. -/
theorem SpaceInv.unhold (h : SpaceInv S held') (hle : ∀ g, held g ≤ held' g) : SpaceInv S held := by
  refine h.of_held fun g hg => ?_
  have hpos : 0 < held' g := by have := hle g; omega
  refine ⟨h.notStruct_of_held hpos, fun {d v w} hw hwf => ?_⟩
  cases hwr : w.writable with
  | false => rfl
  | true =>
    have hone := h.writable hw hwr
    have hmapped : 0 < S.refs w.frame := refCount.pos_of_mem (ptr_entry_of_pte hw)
    rw [hwf] at hone hmapped
    omega

/-- The running code has taken the frame `f` from the pool. -/
structure Got (R : Nat → Nat → Prop) (held : Frame → Nat) (S S' : Mm) (f : Frame) : Prop where
  inv : Inv R S' (bump held f)
  unused : S'.refs f + held f = 0
  pool : f.Pool
  same : S.SameSpace S'
  one : S'.refcount f = 1
  free : ¬ S.Allocated f

/-- `allocate_frame`: it fails, or the running code holds a new frame. -/
theorem Inv.allocateFrame (hR : CountRel 0xFFFF R) (h : Inv R S held) (c : Nat) :
    S.allocateFrame c = (S, none) ∨
      ∃ S' f, S.allocateFrame c = (S', some f) ∧ Got R held S S' f := by
  obtain heq | ⟨S', f, heq, hsame, ha, hz, hp, hone, hfree⟩ := h.alloc.allocateFrame hR c
  · exact .inl heq
  · refine .inr ⟨S', f, heq, inv_of_sameSpace hsame ?_ (h.space.hold (by omega)), ?_, hp,
      hsame, hone, hfree⟩
    · rw [add_bump]
      exact ha
    · rw [show S'.refs = S.refs from hsame.refs]
      exact hz

theorem Inv.frameDecref (hR : CountRel 0xFFFF R) (h : Inv R S (bump held f))
    (c : Nat) : Inv R (S.frameDecref c f) held := by
  refine inv_of_sameSpace (sameSpace_frameDecref S c f) ?_ (h.space.unhold (le_bump held f))
  have ha := h.alloc
  rw [add_bump] at ha
  exact ha.decref hR c

theorem Inv.pool (h : Inv R S (bump held f)) : f.Pool :=
  h.alloc.pool (by show 0 < _ + bump held f f; rw [bump_self]; omega)

theorem Inv.freeFrame (hR : CountRel 0xFFFF R) (h : Inv R S (bump held f))
    (c : Nat) : Inv R (S.freeFrame c f) held := by
  rw [freeFrame_eq]
  exact h.frameDecref hR c

/-- `frame_incref` of a page that is writable nowhere. -/
theorem Inv.frameIncref (hR : CountRel 0xFFFF R) (h : Inv R S held)
    (hpos : 0 < S.refs f + held f) (hlt : S.refs f + held f < 0xFFFF) (hns : S.NotStruct f)
    (hwr : ∀ {d v w}, S.pte d v = some w → w.frame = f → w.writable = false) :
    Inv R (S.frameIncref f) (bump held f) := by
  refine inv_of_sameSpace (sameSpace_frameIncref S f) ?_ ?_
  · rw [add_bump]
    exact h.alloc.incref hR hpos hlt
  · refine h.space.of_held fun g hg => ?_
    have hgf : g = f := by
      by_contra hne
      exact hg (bump_of_ne hne)
    exact hgf ▸ ⟨hns, hwr⟩

/-! ## Stores nobody sees -/

theorem view_setFrame (hf : S.NotStruct f)
    (hne : ∀ d v, S.ptr (.entry d v) ≠ some f) (ws : Idx → Word) :
    (S.setFrame f ws).view = S.view := by
  funext d v
  rw [view, view, pte_setFrame hf]
  cases hw : S.pte d v with
  | none => rfl
  | some w =>
    have hwf : w.frame ≠ f := fun he => hne d v (he ▸ ptr_entry_of_pte hw)
    show some (w, update S.mem f ws w.frame) = _
    rw [update_of_ne hwf]
    rfl

/-- The content of a frame only the running code refers to. -/
theorem Inv.fillHeld (h : Inv R S (bump held f)) (hz : S.refs f + held f = 0) (ws : Idx → Word) :
    Inv R (S.setFrame f ws) (bump held f) ∧ Unseen held S (S.setFrame f ws) := by
  have hrefs : S.refs f = 0 := by omega
  have hns := notStruct_of_refs hrefs
  refine ⟨h.setFrame hns h.pool ws, ?_, rfl, rfl, fun g hg => ?_⟩
  · exact view_setFrame hns (fun d v => refCount.eq_zero_iff.1 hrefs _) ws
  · refine update_of_ne ?_ _ _
    rintro rfl
    omega

theorem zeroFrame_of_pool (hf : f.Pool) : S.zeroFrame f = S.setFrame f fun _ => 0 := by
  rw [zeroFrame, if_pos hf.2]

/-- The frame that was taken has been filled with `ws`. -/
structure Filled (R : Nat → Nat → Prop) (held : Frame → Nat) (S S' : Mm) (f : Frame)
    (ws : Idx → Word) : Prop where
  inv : Inv R S' (bump held f)
  unused : S'.refs f + held f = 0
  unseen : Unseen held S S'
  mem : S'.mem f = ws
  table : S'.table = S.table

theorem Got.fill (h : Got R held S S' f) (ws : Idx → Word) :
    Filled R held S (S'.setFrame f ws) f ws := by
  have hz := h.unused
  have hns : S'.NotStruct f := notStruct_of_refs (by omega)
  obtain ⟨hinv, hun⟩ := h.inv.fillHeld hz ws
  refine ⟨hinv, ?_, h.same.unseen.trans hun, update_self _ _ _, ?_⟩
  · rw [refs_setFrame hns]
    exact hz
  · rw [table_setFrame hns]
    exact h.same.table

theorem Got.clear (h : Got R held S S' f) : Filled R held S (S'.zeroFrame f) f fun _ => 0 := by
  rw [zeroFrame_of_pool h.pool]
  exact h.fill _

section

variable (h : SpaceInv S held) (hd : d ∈ S.dirs) (hi : i.IsUser)
  (hne : w.present = true → w.frame ≠ d)
  (hsame : ∀ j, S.pte d (i, j) = (asEntry w).bind fun w => asEntry (S.mem w.frame j))
include h hd hi hne hsame

theorem view_setPde : (S.setWord d i w).view = S.view := by
  funext d' v'
  rw [view, view, pte_setPde h hd hi hne hsame]
  cases hw : S.pte d' v' with
  | none => rfl
  | some w' =>
    have hwf : w'.frame ≠ d := fun he =>
      h.notStruct_of_entry (ptr_entry_of_pte hw) (.dir d) trivial
        ((ptr_dir hd).trans (congrArg some he.symm))
    show some (w', update S.mem d _ w'.frame) = _
    rw [update_of_ne hwf]
    rfl

/-- A store to the directory that leaves every page where it is. -/
theorem unseen_setPde : Unseen held S (S.setWord d i w) := by
  refine ⟨view_setPde h hd hi hne hsame, rfl, rfl, fun g hg => ?_⟩
  refine update_of_ne ?_ _ _
  rintro rfl
  exact h.notStruct_of_held hg (.dir g) trivial (ptr_dir hd)

end

/-! ## Page tables -/

/-- Every table is still where it was. -/
def TablesKept (S S' : Mm) : Prop :=
  ∀ {d i p}, S.table d i = some p → S'.table d i = some p

theorem present_entry : (entry f fl).present = fl.present := by rw [present, flags_entry]

theorem user_entry : (entry f fl).user = fl.user := by rw [user, flags_entry]

theorem writable_entry : (entry f fl).writable = fl.writable := by rw [writable, flags_entry]

theorem asEntry_entry (h : fl.present = true) : asEntry (entry f fl) = some (entry f fl) :=
  if_pos (present_entry.trans h)

theorem table_eq_none (hd : d ∈ S.dirs) (hi : i.IsUser) :
    S.table d i = none ↔ (S.mem d i).present = false := by
  unfold table
  split
  · next h => simp [h.2.2]
  · next h =>
    have : ¬ (S.mem d i).present = true := fun hp => h ⟨hd, hi, hp⟩
    simpa using this

theorem pte_eq_none_of_table (h : S.table d i = none) (j : Idx) : S.pte d (i, j) = none := by
  rw [pte, h]

theorem asEntry_zero : asEntry 0 = none := if_neg (by decide)

/-- An empty frame the running code holds becomes a table. -/
theorem Inv.newTable (h : Inv R S (bump held p)) (hz : S.refs p + held p = 0)
    (hd : d ∈ S.dirs) (hi : i.IsUser) (hnone : S.table d i = none)
    (hmem : S.mem p = fun _ => 0) (hwf : w.frame = p) (hwp : w.present = true)
    (hwu : w.user = true ∧ w.writable = true) :
    Inv R (S.setWord d i w) held ∧ Unseen held S (S.setWord d i w) ∧
      TablesKept S (S.setWord d i w) ∧ (S.setWord d i w).table d i = some p := by
  have hne : d ≠ p := (h.space.notStruct_of_held (by rw [bump_self]; omega)).ne_dir hd
  have hentry : asEntry w = some w := if_pos hwp
  have hsame : ∀ j, S.pte d (i, j)
      = (asEntry w).bind fun w => asEntry (S.mem w.frame j) := by
    intro j
    rw [pte_eq_none_of_table hnone, hentry, bind_some, hwf, hmem]
    exact asEntry_zero.symm
  have hframe : w.present = true → w.frame ≠ d := fun _ => by rw [hwf]; exact hne.symm
  refine ⟨?_, ?_, ?_, ?_⟩
  · refine h.setPde hd hi hframe hsame (fun g => ?_) (fun _ => ?_) fun _ => hwu
    · rw [hnone, hentry, map_some, hwf]
      simp [bump, eq_comm]
    · rw [hwf, bump_self]
      omega
  · exact (unseen_setPde h.space hd hi hframe hsame).mono fun g hg => hg.trans_le (le_bump held p g)
  · intro d' i' p' ht'
    rw [table_setPde hd hi, if_neg]
    · exact ht'
    · rintro ⟨rfl, rfl⟩
      rw [hnone] at ht'
      cases ht'
  · rw [table_setPde hd hi, if_pos ⟨rfl, rfl⟩, hentry, map_some, hwf]

/-- `map_page` finds a table or gets one, and nobody sees it. -/
theorem Inv.ensureTable (hR : CountRel 0xFFFF R) (h : Inv R S held)
    (hd : d ∈ S.dirs) (hi : i.IsUser) (hu : flags.user = true) (c : Nat) :
    Unseen held S (S.ensureTable c d i flags).1 ∧
      Inv R (S.ensureTable c d i flags).1 held ∧ TablesKept S (S.ensureTable c d i flags).1 ∧
      ((S.ensureTable c d i flags).2 = true →
        ∃ p, (S.ensureTable c d i flags).1.table d i = some p) := by
  unfold Mm.ensureTable
  split
  · next hp => exact ⟨.refl _ _, h, id, fun _ => ⟨_, table_eq_some.2 ⟨hd, hi, hp, rfl⟩⟩⟩
  · next hp =>
    obtain hx | ⟨S1, pt, hx, hgot⟩ := h.allocateFrame hR c
    · rw [hx]
      exact ⟨.refl _ _, h, id, Bool.noConfusion⟩
    · rw [hx]
      have hfill := hgot.clear
      have hd2 : d ∈ (S1.zeroFrame pt).dirs := hfill.unseen.dirs ▸ hd
      have hnone : (S1.zeroFrame pt).table d i = none := by
        rw [hfill.table, table_eq_none hd hi]
        simpa using hp
      obtain ⟨h3, hun3, hkept3, ht3⟩ := hfill.inv.newTable hfill.unused hd2 hi hnone hfill.mem
        (w := .entry pt (pagePresent ||| pageWritable ||| (flags &&& pageUser)))
        (frame_entry _ _)
        (by rw [present_entry]; simp [Flags.present, pagePresent])
        ⟨by
          simp only [Flags.user] at hu
          rw [user_entry]
          simp [Flags.user, pagePresent, pageWritable, pageUser, hu],
        by
          rw [writable_entry]
          simp [Flags.writable, pagePresent, pageWritable, pageUser]⟩
      exact ⟨hfill.unseen.trans hun3, h3, fun ht' => hkept3 (hfill.table ▸ ht'), fun _ => ⟨pt, ht3⟩⟩

/-- The promotion of `PAGE_USER` changes a flag only. -/
theorem Inv.promoteUser (h : Inv R S held) (ht : S.table d i = some p) (flags : Flags) :
    Unseen held S (S.promoteUser d i flags) ∧
      Inv R (S.promoteUser d i flags) held ∧ TablesKept S (S.promoteUser d i flags) ∧
      (S.promoteUser d i flags).table d i = some p ∧
      ((S.promoteUser d i flags).mem d i).frame = p := by
  obtain ⟨hd, hi, hp, hf⟩ := table_eq_some.1 ht
  unfold Mm.promoteUser
  split
  · set w := entry (S.mem d i).frame ((S.mem d i).flags ||| pageUser) with hw
    have hwf : w.frame = p := by rw [hw, frame_entry, hf]
    have hwp : w.present = true := by
      rw [hw, present_entry]
      simp only [present, Flags.present] at hp
      simp [Flags.present, hp]
    have hwu : w.user = true ∧ w.writable = true := by
      constructor
      · rw [hw, user_entry]
        simp [Flags.user, pageUser]
      · have hold := (h.space.userPde ht).2
        simp only [writable, Flags.writable] at hold
        rw [hw, writable_entry]
        simp [Flags.writable, hold]
    have hentry : asEntry w = some w := if_pos hwp
    have hframe : w.present = true → w.frame ≠ d := fun _ => by
      rw [hwf]; exact (h.space.ne_dir_of_table ht hd).symm
    have hsame : ∀ j, S.pte d (i, j)
        = (asEntry w).bind fun w => asEntry (S.mem w.frame j) := by
      intro j
      rw [pte, ht, hentry, bind_some, hwf]
    refine ⟨unseen_setPde h.space hd hi hframe hsame, ?_, ?_, ?_, ?_⟩
    · refine h.setPde hd hi hframe hsame (fun g => ?_) (fun _ => ?_) fun _ => hwu
      · rw [ht, hentry, map_some, hwf]
      · rw [hwf]
        exact h.space.exclusive (s := .table d i) trivial ht
    · intro d' i' p' ht'
      rw [table_setPde hd hi]
      split
      · next hc =>
        obtain ⟨rfl, rfl⟩ := hc
        rw [hentry, map_some, hwf, ← ht]
        exact ht'
      · exact ht'
    · rw [table_setPde hd hi, if_pos ⟨rfl, rfl⟩, hentry, map_some, hwf]
    · show (update S.mem d _ d i).frame = p
      rw [update_self, update_self, hwf]
  · exact ⟨.refl _ _, h, id, ht, hf⟩

/-! ## Page-table entries -/

/-- One page of one directory is seen as `x`, and nothing else has changed. -/
structure Sets (held : Frame → Nat) (S S' : Mm) (d : Frame) (v : VPage)
    (x : Option (Word × (Idx → Word))) : Prop where
  view : ∀ d' v', S'.view d' v' = if d' = d ∧ v' = v then x else S.view d' v'
  dirs : S'.dirs = S.dirs
  kernel : S'.kernel = S.kernel
  mem : ∀ g, 0 < held g → S'.mem g = S.mem g

variable {x : Option (Word × (Idx → Word))}

theorem Sets.after (h : Sets held S' S'' d v x) (hu : Unseen held S S') : Sets held S S'' d v x :=
  ⟨by rw [← hu.view]; exact h.view, h.dirs.trans hu.dirs,
    h.kernel.trans hu.kernel, fun g hg => (h.mem g hg).trans (hu.mem g hg)⟩

theorem Sets.before (h : Sets held S S' d v x) (hu : Unseen held S' S'') : Sets held S S'' d v x :=
  ⟨by rw [hu.view]; exact h.view, hu.dirs.trans h.dirs,
    hu.kernel.trans h.kernel, fun g hg => (hu.mem g hg).trans (h.mem g hg)⟩

theorem Sets.mono (h : Sets held S S' d v x)
    (hle : ∀ g, 0 < held' g → 0 < held g) : Sets held' S S' d v x :=
  ⟨h.view, h.dirs, h.kernel, fun g hg => h.mem g (hle g hg)⟩

/-- A frame no slot referred to is now mapped by one entry. -/
theorem Sets.refs_eq_one {ws : Idx → Word} (h : Sets held S S' d v (some (w, ws)))
    (hs : SpaceInv S' held) (hz : S.refs w.frame = 0) : S'.refs w.frame = 1 := by
  have hpte : S'.pte d v = some w := by
    rw [pte_eq_view, h.view, if_pos ⟨rfl, rfl⟩]
    rfl
  have hptr := ptr_entry_of_pte hpte
  have hns := hs.notStruct_of_entry hptr
  refine refCount.eq_one hptr fun s hsf => ?_
  cases s with
  | dir | table => exact absurd hsf (hns _ trivial)
  | entry d' v' =>
    by_cases hc : d' = d ∧ v' = v
    · rw [hc.1, hc.2]
    · rw [ptr, pte_eq_view, h.view, if_neg hc, ← pte_eq_view] at hsf
      exact absurd hsf (refCount.eq_zero_iff.1 hz (.entry d' v'))

theorem Sets.trans {y : Option (Word × (Idx → Word))}
    (h : Sets held S S' d v x) (h' : Sets held S' S'' d v y) : Sets held S S'' d v y := by
  refine ⟨fun d' v' => ?_, h'.dirs.trans h.dirs, h'.kernel.trans h.kernel,
    fun g hg => (h'.mem g hg).trans (h.mem g hg)⟩
  rw [h'.view, h.view]
  split <;> rfl

/-- A store to the entry of a page. -/
theorem sets_setEntry (h : SpaceInv S held) (ht : S.table d i = some p)
    (hwf : w.present = true → w.frame ≠ p) :
    Sets held S (S.setWord p j w) d (i, j) ((asEntry w).map fun w => (w, S.mem w.frame)) := by
  refine ⟨fun d' v' => ?_, rfl, rfl, fun g hg => ?_⟩
  · have hkeep : ∀ {w' : Word}, w'.frame ≠ p →
        (S.setWord p j w).mem w'.frame = S.mem w'.frame := fun hne =>
      update_of_ne hne _ _
    rw [view, pte_setEntry h ht]
    split
    · cases hw : asEntry w with
      | none => rfl
      | some w' =>
        obtain ⟨hp, rfl⟩ := asEntry_eq_some.1 hw
        rw [map_some, map_some, hkeep (hwf hp)]
    · rw [view]
      cases hw : S.pte d' v' with
      | none => rfl
      | some w' =>
        have hne : w'.frame ≠ p := fun he =>
          h.notStruct_of_entry (ptr_entry_of_pte hw) (.table d i) trivial
            (ht.trans (congrArg some he.symm))
        rw [map_some, map_some, hkeep hne]
  · refine update_of_ne ?_ _ _
    rintro rfl
    exact h.notStruct_of_held hg (.table d i) trivial ht

/-- `map_page` is the search for a table, which nobody sees, and one store. -/
theorem Inv.mapPage_cases (hR : CountRel 0xFFFF R) (h : Inv R S held)
    (hd : d ∈ S.dirs) (hv : v.1.IsUser) (hu : flags.user = true) (c : Nat) (f : Frame) :
    (∃ S', S.mapPage c d v f flags = (S', false) ∧ Inv R S' held ∧
      Unseen held S S') ∨
    ∃ S' p, S.mapPage c d v f flags = (S'.setWord p v.2 (.entry f flags), true) ∧
      Inv R S' held ∧ Unseen held S S' ∧ TablesKept S S' ∧ S'.table d v.1 = some p := by
  obtain ⟨hun, h1, hkept, htab⟩ := h.ensureTable hR hd hv hu c
  unfold Mm.mapPage
  cases hx : S.ensureTable c d v.1 flags with
  | mk S1 r =>
    rw [hx] at hun h1 hkept htab
    cases r with
    | false => exact .inl ⟨S1, rfl, h1, hun⟩
    | true =>
      obtain ⟨p, ht⟩ := htab rfl
      obtain ⟨hun2, h2, hkept2, ht2, hf2⟩ := h1.promoteUser ht flags
      refine .inr ⟨_, p, ?_, h2, hun.trans hun2, fun ht' => hkept2 (hkept ht'), ht2⟩
      show (_, true) = _
      rw [hf2]

/-- A frame the running code holds, and nobody else, is entered into a table. -/
theorem Inv.enter (h : Inv R S (bump held f)) (hz : S.refs f + held f = 0)
    (ht : S.table d v.1 = some p) (hp : flags.present = true)
    (hu : flags.user = true) (hmove : ∀ g, held' g + (if some f = some g then 1 else 0)
      = bump held f g + (if S.ptr (.entry d v) = some g then 1 else 0)) :
    Inv R (S.setWord p v.2 (.entry f flags)) held' ∧
      Sets (bump held f) S (S.setWord p v.2 (.entry f flags)) d v
        (some (.entry f flags, S.mem f)) := by
  have hpos : 0 < bump held f f := by rw [bump_self]; omega
  have hentry : asEntry (.entry f flags) = some (.entry f flags) := asEntry_entry hp
  constructor
  · refine h.setEntry ht (fun g => ?_) ?_ ?_ ?_
    · rw [hentry, map_some, frame_entry]
      exact hmove g
    · intro _ v' hv'
      rw [frame_entry] at hv'
      exact absurd hv' (refCount.eq_zero_iff.1 (show S.refs f = 0 by omega) _)
    · intro _ _
      rw [frame_entry, bump_self]
      omega
    · intro _
      rw [user_entry]
      exact hu
  · have hne : f ≠ p := fun he =>
      h.space.notStruct_of_held hpos (.table d v.1) trivial (ht.trans (congrArg some he.symm))
    have hset := sets_setEntry (w := .entry f flags) (j := v.2) h.space ht
      fun _ => by rw [frame_entry]; exact hne
    rwa [hentry, map_some, frame_entry] at hset

/-- `map_page` of a frame the running code holds, at a page that is not
mapped. -/
theorem Inv.mapPage (hR : CountRel 0xFFFF R) (h : Inv R S (bump held f))
    (hz : S.refs f + held f = 0) (hd : d ∈ S.dirs) (hv : v.1.IsUser)
    (hnone : S.pte d v = none) (hp : flags.present = true) (hu : flags.user = true) (c : Nat) :
    (∃ S', S.mapPage c d v f flags = (S', false) ∧ Inv R S' (bump held f) ∧
      Unseen (bump held f) S S') ∨
    ∃ S', S.mapPage c d v f flags = (S', true) ∧ Inv R S' held ∧
      Sets held S S' d v (some (.entry f flags, S.mem f)) := by
  rcases h.mapPage_cases hR hd hv hu c f with hfail | hok
  · exact .inl hfail
  · obtain ⟨S1, p, heq, h1, hun, -, ht⟩ := hok
    have hpos : 0 < bump held f f := by rw [bump_self]; omega
    have hz1 : S1.refs f = 0 := hun.refs_eq_zero h1.space hpos (by omega)
    have hnone1 : S1.ptr (.entry d v) = none := by
      rw [ptr, hun.pte, hnone]
      rfl
    have hmove : ∀ g, held g + (if some f = some g then 1 else 0)
        = bump held f g + (if S1.ptr (.entry d v) = some g then 1 else 0) := fun g => by
      rw [hnone1]
      simp [bump, eq_comm]
    obtain ⟨hinv, hset⟩ := h1.enter (by omega) ht hp hu hmove
    rw [hun.mem f hpos] at hset
    exact .inr ⟨_, heq, hinv, (hset.after hun).mono fun g hg => hg.trans_le (le_bump held f g)⟩

end UnixOs.Mm
