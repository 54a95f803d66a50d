import UnixOs.Mm.PageDir
import UnixOs.Mm.Alloc
import Mathlib.Data.Fintype.Prod
import Mathlib.Data.Fintype.Sigma
import Mathlib.Data.Fintype.Sum
import Mathlib.Tactic.DeriveFintype

/-!
# Address spaces and the references they hold

A reference to a frame stands in a *slot*: a live directory, a present
directory entry of user space, or a present user page-table entry. `refs S f`
is the number of slots that refer to `f`, and `held f` the number of references
the running code holds while it moves a frame from the allocator to a slot or
back.

`Inv R S held` says that the allocator's books fit `refs + held`, that
directories and tables are referred to exactly once, and what the entries of
user space look like. Since directories, tables and pages lie in one memory,
the second is what keeps a store to one from being a store to another.
-/

namespace UnixOs

open Function List

/-- A place a reference to a frame can stand in. -/
inductive Slot where
  | dir (d : Frame)
  | table (d : Frame) (i : Idx)
  | entry (d : Frame) (v : VPage)
  deriving DecidableEq, Fintype

/-- Directories and tables, as against pages. -/
def Slot.IsStruct : Slot → Prop
  | .entry _ _ => False
  | _ => True

/-- The directory indices of user space. -/
def Idx.IsUser (i : Idx) : Prop :=
  numKernelPageTables ≤ i.val ∧ i.val < userPdeLast

instance (i : Idx) : Decidable i.IsUser := inferInstanceAs (Decidable (_ ∧ _))

namespace Mm

variable (S : Mm)

/-- The table of a live directory at a user index. -/
def table (d : Frame) (i : Idx) : Option Frame :=
  if d ∈ S.dirs ∧ i.IsUser ∧ (S.mem d i).present = true then
    some (S.mem d i).frame
  else none

/-- The entry a word stands for. -/
def asEntry (w : Word) : Option Word := if w.present = true then some w else none

/-- The present entry of a live directory for a user page. -/
def pte (d : Frame) (v : VPage) : Option Word :=
  match S.table d v.1 with
  | none => none
  | some p => asEntry (S.mem p v.2)

/-- What a slot refers to. -/
def ptr : Slot → Option Frame
  | .dir d => if d ∈ S.dirs then some d else none
  | .table d i => S.table d i
  | .entry d v => (S.pte d v).map Word.frame

/-- The number of references to a frame. -/
def refs (f : Frame) : Nat := refCount S.ptr f

/-- What the entries of user space look like, and which frames they share. -/
structure SpaceInv (S : Mm) (held : Frame → Nat) : Prop where
  exclusive : ∀ {s f}, s.IsStruct → S.ptr s = some f → S.refs f + held f = 1
  writable : ∀ {d v w}, S.pte d v = some w → w.writable = true →
    S.refs w.frame + held w.frame = 1
  injective : ∀ {d v v' f}, S.ptr (.entry d v) = some f →
    S.ptr (.entry d v') = some f → v = v'
  userPde : ∀ {d i p}, S.table d i = some p →
    (S.mem d i).user = true ∧ (S.mem d i).writable = true
  userPte : ∀ {d v w}, S.pte d v = some w → w.user = true
  kernelPde : ∀ {d i}, d ∈ S.dirs → ¬ i.IsUser →
    S.mem d i = kernelPde S.kernel i
  kernelPte : ∀ t j, S.mem (S.kernel.pageTable t) j = kernelPte t j
  nodup : S.dirs.Nodup

/-- Between two operations the running code holds no reference. -/
abbrev noneHeld : Frame → Nat := fun _ => 0

/-- The invariant of the memory manager, with the references the running code
holds. -/
structure Inv (R : Nat → Nat → Prop) (S : Mm) (held : Frame → Nat) : Prop where
  alloc : AllocInv R S fun f => S.refs f + held f
  space : SpaceInv S held

variable {S} {R : Nat → Nat → Prop} {held : Frame → Nat} {d p f g : Frame}
  {i j : Idx} {v : VPage} {w : Word} {c : Nat}

/-! ## Reading slots -/

theorem table_eq_some :
    S.table d i = some p ↔ d ∈ S.dirs ∧ i.IsUser ∧ (S.mem d i).present = true ∧
        (S.mem d i).frame = p := by
  unfold table
  split
  · next h => simp [h]
  · next h => simp; intro h1 h2 h3; exact absurd ⟨h1, h2, h3⟩ h

theorem pte_eq_some :
    S.pte d v = some w ↔
      ∃ p, S.table d v.1 = some p ∧ (S.mem p v.2).present = true ∧ S.mem p v.2 = w := by
  unfold pte
  cases S.table d v.1 with
  | none => simp
  | some p => simp [asEntry]

theorem asEntry_eq_some {w' : Word} : asEntry w = some w' ↔ w.present = true ∧ w = w' := by
  simp [asEntry]

theorem present_of_pte (h : S.pte d v = some w) : w.present = true := by
  obtain ⟨p, -, hp, rfl⟩ := pte_eq_some.1 h
  exact hp

theorem ptr_dir (h : d ∈ S.dirs) : S.ptr (.dir d) = some d := if_pos h

theorem ptr_entry_of_pte (h : S.pte d v = some w) : S.ptr (.entry d v) = some w.frame := by
  rw [ptr, h]
  rfl

/-- No directory and no table lies in the frame. -/
def NotStruct (S : Mm) (f : Frame) : Prop :=
  ∀ s, s.IsStruct → S.ptr s ≠ some f

theorem NotStruct.ne_dir (h : S.NotStruct f) (hd : d ∈ S.dirs) : d ≠ f :=
  fun he => h (.dir d) trivial (he ▸ ptr_dir hd)

theorem NotStruct.ne_table (h : S.NotStruct f) (ht : S.table d i = some p) : p ≠ f :=
  fun he => h (.table d i) trivial (he ▸ ht)

theorem notStruct_of_refs (h : S.refs f = 0) : S.NotStruct f :=
  fun s _ hs => refCount.eq_zero_iff.1 h s hs

namespace SpaceInv

section

variable (h : SpaceInv S held)
include h

/-- What a table slot refers to is in no other slot. -/
theorem slot_unique {s s' : Slot} (hs : s.IsStruct)
    (hf : S.ptr s = some f) (hf' : S.ptr s' = some f) : s = s' := by
  have := h.exclusive hs hf
  exact refCount.unique (show S.refs f ≤ 1 by omega) hf hf'

theorem ne_dir_of_table (ht : S.table d i = some p) {d' : Frame} (hd' : d' ∈ S.dirs) : d' ≠ p := by
  rintro rfl
  exact Slot.noConfusion (h.slot_unique (s := .table d i) trivial ht (ptr_dir hd'))

theorem table_inj (ht : S.table d i = some p)
    {d' : Frame} {i' : Idx} (ht' : S.table d' i' = some p) : d = d' ∧ i = i' := by
  have hother : S.ptr (.table d' i') = some p := ht'
  have := h.slot_unique (s := .table d i) trivial ht hother
  exact ⟨(Slot.table.inj this).1, (Slot.table.inj this).2⟩

/-- A page is neither a directory nor a table. -/
theorem notStruct_of_entry (hf : S.ptr (.entry d v) = some f) : S.NotStruct f := by
  rintro s hs hsf
  have := h.slot_unique hs hsf hf
  subst this
  exact hs

/-- A frame the running code holds is neither a directory nor a table. -/
theorem notStruct_of_held (hf : 0 < held f) : S.NotStruct f := by
  intro s hs hsf
  have hone := h.exclusive hs hsf
  have hpos : 0 < S.refs f := refCount.pos_of_mem hsf
  omega

end

end SpaceInv

/-! ## Stores that leave the slots alone -/

variable {S' : Mm} {held' : Frame → Nat}

section

variable (h : S.SameSpace S')
include h

theorem SameSpace.table : S'.table = S.table := by
  funext d i
  simp only [Mm.table, h.1, h.2.1]

theorem SameSpace.pte : S'.pte = S.pte := by
  funext d v
  simp only [Mm.pte, h.table, h.1]

theorem SameSpace.ptr : S'.ptr = S.ptr := by
  funext s
  cases s with
  | dir d => simp only [Mm.ptr, h.2.1]
  | table d i => simp only [Mm.ptr, h.table]
  | entry d v => simp only [Mm.ptr, h.pte]

theorem SameSpace.refs : S'.refs = S.refs := by
  funext f
  rw [Mm.refs, Mm.refs, h.ptr]

end

/-- The slots are the same and so are the kernel's tables and the directories'
kernel entries. -/
theorem SpaceInv.of_same (h : SpaceInv S held) (hs : S.SameSpace S') : SpaceInv S' held := by
  constructor
  · rw [hs.ptr, hs.refs]; exact h.exclusive
  · rw [hs.pte, hs.refs]; exact h.writable
  · rw [hs.ptr]; exact h.injective
  · rw [hs.table, hs.1]; exact h.userPde
  · rw [hs.pte]; exact h.userPte
  · rw [hs.1, hs.2.1, hs.2.2]; exact h.kernelPde
  · rw [hs.1, hs.2.2]; exact h.kernelPte
  · rw [hs.2.1]; exact h.nodup

/-- The references the running code holds change at frames that are neither
directories nor tables nor writable pages. -/
theorem SpaceInv.of_held (h : SpaceInv S held)
    (hsame : ∀ g, held' g ≠ held g → S.NotStruct g ∧
      ∀ {d v w}, S.pte d v = some w → w.frame = g → w.writable = false) : SpaceInv S held' := by
  refine ⟨fun {s f} hs hf => ?_, fun {d v w} hw hwr => ?_, h.injective, h.userPde,
    h.userPte, h.kernelPde, h.kernelPte, h.nodup⟩
  · by_cases hne : held' f = held f
    · rw [hne]
      exact h.exclusive hs hf
    · exact absurd hf ((hsame f hne).1 s hs)
  · by_cases hne : held' w.frame = held w.frame
    · rw [hne]
      exact h.writable hw hwr
    · have := (hsame _ hne).2 hw rfl
      rw [hwr] at this
      exact absurd this (by decide)

section

variable (h : S.NotStruct f)
include h

theorem table_setFrame (ws : Idx → Word) : (S.setFrame f ws).table = S.table := by
  funext d i
  by_cases hd : d ∈ S.dirs
  · have hmem : (S.setFrame f ws).mem d = S.mem d := update_of_ne (h.ne_dir hd) _ _
    simp only [table, hmem]
    rfl
  · rw [table, table, if_neg fun hc => hd hc.1, if_neg fun hc => hd hc.1]

theorem pte_setFrame (ws : Idx → Word) : (S.setFrame f ws).pte = S.pte := by
  funext d v
  rw [pte, pte, table_setFrame h]
  cases ht : S.table d v.1 with
  | none => rfl
  | some p =>
    have hmem : (S.setFrame f ws).mem p = S.mem p := update_of_ne (h.ne_table ht) _ _
    simp only [hmem]

theorem ptr_setFrame (ws : Idx → Word) : (S.setFrame f ws).ptr = S.ptr := by
  funext s
  cases s with
  | dir d => rfl
  | table d i => exact congrFun (congrFun (table_setFrame h ws) d) i
  | entry d v => rw [ptr, ptr, pte_setFrame h]

theorem refs_setFrame (ws : Idx → Word) : (S.setFrame f ws).refs = S.refs := by
  funext g
  rw [refs, refs, ptr_setFrame h]

end

/-- A frame of the pool that is neither directory nor table may hold
anything. -/
theorem Inv.setFrame (h : Inv R S held) (hf : S.NotStruct f) (hp : f.Pool)
    (ws : Idx → Word) : Inv R (S.setFrame f ws) held := by
  constructor
  · rw [refs_setFrame hf]
    exact h.alloc.of_same ⟨rfl, rfl, rfl⟩
  · constructor
    · rw [ptr_setFrame hf, refs_setFrame hf]; exact h.space.exclusive
    · rw [pte_setFrame hf, refs_setFrame hf]; exact h.space.writable
    · rw [ptr_setFrame hf]; exact h.space.injective
    · rw [table_setFrame hf]
      intro d i p ht
      have hd := (table_eq_some.1 ht).1
      rw [show (S.setFrame f ws).mem d = S.mem d from
        update_of_ne (hf.ne_dir hd) _ _]
      exact h.space.userPde ht
    · rw [pte_setFrame hf]; exact h.space.userPte
    · intro d i hd hi
      rw [show (S.setFrame f ws).mem d = S.mem d from
        update_of_ne (hf.ne_dir hd) _ _]
      exact h.space.kernelPde hd hi
    · intro t j
      have hne : S.kernel.pageTable t ≠ f := by
        rintro rfl
        exact absurd hp.1 (not_le.2 (S.kernel.below t))
      show update S.mem f ws (S.kernel.pageTable t) j = _
      rw [update_of_ne hne]
      exact h.space.kernelPte t j
    · exact h.space.nodup

/-! ## A store to a page-table entry -/

section SetEntry

variable (h : SpaceInv S held) (ht : S.table d i = some p)

include h ht

theorem mem_setEntry_dir {d' : Frame} (hd' : d' ∈ S.dirs) : (S.setWord p j w).mem d' = S.mem d' :=
  update_of_ne (h.ne_dir_of_table ht hd') _ _

theorem table_setEntry : (S.setWord p j w).table = S.table := by
  funext d' i'
  by_cases hd' : d' ∈ S.dirs
  · simp only [table, mem_setEntry_dir h ht hd']
    rfl
  · rw [table, table, if_neg fun hc => hd' hc.1, if_neg fun hc => hd' hc.1]

/-- A word stored into a table changes one entry of one directory. -/
theorem pte_setEntry (d' : Frame) (v' : VPage) :
    (S.setWord p j w).pte d' v' = if d' = d ∧ v' = (i, j) then asEntry w else S.pte d' v' := by
  obtain ⟨i', j'⟩ := v'
  rw [pte, pte, table_setEntry h ht]
  cases ht' : S.table d' i' with
  | none =>
    rw [if_neg]
    rintro ⟨rfl, he⟩
    cases he
    rw [ht] at ht'
    exact absurd ht' (Option.some_ne_none p)
  | some p' =>
    show asEntry (update S.mem p _ p' j') = if _ then asEntry w else asEntry (S.mem p' j')
    obtain rfl | hp := eq_or_ne p' p
    · obtain ⟨rfl, rfl⟩ := h.table_inj ht ht'
      rw [update_self]
      by_cases hj : j' = j
      · rw [hj, update_self, if_pos ⟨rfl, rfl⟩]
      · rw [update_of_ne hj, if_neg fun hc => hj (Prod.mk.inj hc.2).2]
    · rw [update_of_ne hp, if_neg]
      rintro ⟨rfl, he⟩
      cases he
      rw [ht] at ht'
      exact hp (Option.some.inj ht').symm

/-- And one reference. -/
theorem ptr_setEntry :
    (S.setWord p j w).ptr = update S.ptr (.entry d (i, j)) ((asEntry w).map Word.frame) := by
  funext s
  cases s with
  | dir d' => rw [update_of_ne (Slot.noConfusion)]; rfl
  | table d' i' => rw [update_of_ne (Slot.noConfusion), ptr, ptr, table_setEntry h ht]
  | entry d' v' =>
    rw [ptr, pte_setEntry h ht]
    by_cases hc : d' = d ∧ v' = (i, j)
    · obtain ⟨rfl, rfl⟩ := hc
      rw [if_pos ⟨rfl, rfl⟩, update_self]
    · rw [if_neg hc, update_of_ne]
      · rfl
      · intro he
        exact hc ⟨(Slot.entry.inj he).1, (Slot.entry.inj he).2⟩

/-- The references after the store: one less to what the entry referred to,
one more to what it refers to. -/
theorem refs_setEntry (g : Frame) :
    (S.setWord p j w).refs g
        + (if S.ptr (.entry d (i, j)) = some g then 1 else 0)
      = S.refs g + (if (asEntry w).map Word.frame = some g then 1 else 0) := by
  rw [refs, ptr_setEntry h ht]
  exact refCount.update _ _ _

end SetEntry

/-- A store to an entry, with the references moved between the entry and the
running code. -/
theorem Inv.setEntry (h : Inv R S held) (ht : S.table d i = some p)
    (hmove : ∀ g,
      held' g + (if (asEntry w).map Word.frame = some g then 1 else 0)
        = held g + (if S.ptr (.entry d (i, j)) = some g then 1 else 0))
    (hinj : w.present = true → ∀ v', S.ptr (.entry d v') = some w.frame → v' = (i, j))
    (hwr : w.present = true → w.writable = true → S.refs w.frame + held w.frame = 1)
    (huser : w.present = true → w.user = true) : Inv R (S.setWord p j w) held' := by
  have hs := h.space
  -- The sum of both kinds of references is the same.
  have hT : ∀ g, (S.setWord p j w).refs g + held' g = S.refs g + held g := by
    intro g
    have h1 := refs_setEntry hs ht (j := j) (w := w) g
    have h2 := hmove g
    omega
  have hpool : p.Pool := h.alloc.pool (by
    have := refCount.pos_of_mem (show S.ptr (.table d i) = some p from ht)
    exact Nat.add_pos_left this _)
  constructor
  · rw [funext hT]
    exact h.alloc.of_same ⟨rfl, rfl, rfl⟩
  · constructor
    · intro s f hst hf
      rw [hT]
      rw [ptr_setEntry hs ht, update_of_ne] at hf
      · exact hs.exclusive hst hf
      · rintro rfl
        exact hst
    · intro d' v' w' hw' hwr'
      rw [hT]
      rw [pte_setEntry hs ht] at hw'
      split at hw'
      · obtain ⟨hp, rfl⟩ := asEntry_eq_some.1 hw'
        exact hwr hp hwr'
      · exact hs.writable hw' hwr'
    · intro d' v1 v2 f h₁ h₂
      rw [ptr_setEntry hs ht] at h₁ h₂
      obtain rfl | hd := eq_or_ne d' d
      · -- An old entry for the new frame can only be the one stored to.
        have hold : ∀ {v}, v ≠ (i, j) →
            update S.ptr (.entry d' (i, j)) ((asEntry w).map Word.frame) (.entry d' v) = some f →
            S.ptr (.entry d' v) = some f := by
          intro v hv hf
          rwa [update_of_ne] at hf
          exact fun he => hv (Slot.entry.inj he).2
        have hst : update S.ptr (.entry d' (i, j))
              ((asEntry w).map Word.frame) (.entry d' (i, j)) = some f →
            w.present = true ∧ w.frame = f := by
          intro hf
          rw [update_self] at hf
          obtain ⟨w', hw', rfl⟩ := Option.map_eq_some_iff.1 hf
          obtain ⟨hp, rfl⟩ := asEntry_eq_some.1 hw'
          exact ⟨hp, rfl⟩
        by_cases hv1 : v1 = (i, j)
        · by_cases hv2 : v2 = (i, j)
          · rw [hv1, hv2]
          · subst hv1
            obtain ⟨hp, rfl⟩ := hst h₁
            exact (hinj hp v2 (hold hv2 h₂)).symm
        · obtain rfl | hv2 := eq_or_ne v2 (i, j)
          · obtain ⟨hp, rfl⟩ := hst h₂
            exact hinj hp v1 (hold hv1 h₁)
          · exact hs.injective (hold hv1 h₁) (hold hv2 h₂)
      · have hold : ∀ v, update S.ptr (.entry d (i, j))
              ((asEntry w).map Word.frame) (.entry d' v)
            = S.ptr (.entry d' v) := fun v =>
          update_of_ne (fun he => hd (Slot.entry.inj he).1) _ _
        rw [hold] at h₁ h₂
        exact hs.injective h₁ h₂
    · intro d' i' p' ht'
      rw [table_setEntry hs ht] at ht'
      rw [mem_setEntry_dir hs ht (table_eq_some.1 ht').1]
      exact hs.userPde ht'
    · intro d' v' w' hw'
      rw [pte_setEntry hs ht] at hw'
      split at hw'
      · obtain ⟨hp, rfl⟩ := asEntry_eq_some.1 hw'
        exact huser hp
      · exact hs.userPte hw'
    · intro d' i' hd' hi'
      rw [mem_setEntry_dir hs ht hd']
      exact hs.kernelPde hd' hi'
    · intro t j'
      have hne : S.kernel.pageTable t ≠ p := by
        rintro rfl
        exact absurd hpool.1 (not_le.2 (S.kernel.below t))
      show update S.mem p _ (S.kernel.pageTable t) j' = _
      rw [update_of_ne hne]
      exact hs.kernelPte t j'
    · exact hs.nodup

/-! ## A store to a directory entry -/

section SetPde

variable (h : SpaceInv S held) (hd : d ∈ S.dirs) (hi : i.IsUser)

include hd hi in
/-- A word stored into a directory changes one of its tables. -/
theorem table_setPde (d' : Frame) (i' : Idx) :
    (S.setWord d i w).table d' i'
      = if d' = d ∧ i' = i then (asEntry w).map Word.frame else S.table d' i' := by
  show (if d' ∈ S.dirs ∧ i'.IsUser ∧
      (update S.mem d _ d' i').present = true then
      some (update S.mem d _ d' i').frame else none) = _
  obtain rfl | hdd := eq_or_ne d' d
  · rw [update_self]
    obtain rfl | hii := eq_or_ne i' i
    · rw [update_self]
      by_cases hp : w.present = true
      · simp [hd, hi, hp, asEntry]
      · simp [hp, asEntry]
    · rw [update_of_ne hii, if_neg (c := d' = d' ∧ i' = i) fun hc => hii hc.2]
      rfl
  · rw [update_of_ne hdd, if_neg (c := d' = d ∧ i' = i) fun hc => hdd hc.1]
    rfl

include h hd hi in
/-- The pages stay the same if the new table has the entries of the old one. -/
theorem pte_setPde (hne : w.present = true → w.frame ≠ d)
    (hsame : ∀ j, S.pte d (i, j) = (asEntry w).bind fun w => asEntry (S.mem w.frame j)) :
    (S.setWord d i w).pte = S.pte := by
  funext d' v'
  obtain ⟨i', j'⟩ := v'
  rw [pte, table_setPde hd hi]
  by_cases hc : d' = d ∧ i' = i
  · obtain ⟨rfl, rfl⟩ := hc
    rw [if_pos ⟨rfl, rfl⟩, hsame]
    cases hw : asEntry w with
    | none => rfl
    | some w' =>
      obtain ⟨hp, rfl⟩ := asEntry_eq_some.1 hw
      show asEntry (update S.mem d' _ w.frame j') = _
      rw [update_of_ne (hne hp)]
      rfl
  · rw [if_neg hc, pte]
    cases ht' : S.table d' i' with
    | none => rfl
    | some p' =>
      show asEntry (update S.mem d _ p' j') = asEntry (S.mem p' j')
      rw [update_of_ne (h.ne_dir_of_table ht' hd).symm]

include h hd hi in
/-- And one reference, if the entries behind it stay the same. -/
theorem ptr_setPde (hne : w.present = true → w.frame ≠ d)
    (hsame : ∀ j, S.pte d (i, j) = (asEntry w).bind fun w => asEntry (S.mem w.frame j)) :
    (S.setWord d i w).ptr = update S.ptr (.table d i) ((asEntry w).map Word.frame) := by
  funext s
  cases s with
  | dir d' => rw [update_of_ne (Slot.noConfusion)]; rfl
  | table d' i' =>
    rw [ptr, table_setPde hd hi]
    by_cases hc : d' = d ∧ i' = i
    · obtain ⟨rfl, rfl⟩ := hc
      rw [if_pos ⟨rfl, rfl⟩, update_self]
    · rw [if_neg hc, update_of_ne]
      · rfl
      · intro he
        exact hc ⟨(Slot.table.inj he).1, (Slot.table.inj he).2⟩
  | entry d' v' =>
    rw [update_of_ne (Slot.noConfusion), ptr, ptr, pte_setPde h hd hi hne hsame]

end SetPde

/-- A store to a user entry of a directory, with the references moved between
the entry and the running code. -/
theorem Inv.setPde (h : Inv R S held) (hd : d ∈ S.dirs)
    (hi : i.IsUser) (hne : w.present = true → w.frame ≠ d)
    (hsame : ∀ j, S.pte d (i, j) = (asEntry w).bind fun w => asEntry (S.mem w.frame j))
    (hmove : ∀ g,
      held' g + (if (asEntry w).map Word.frame = some g then 1 else 0)
        = held g + (if S.table d i = some g then 1 else 0))
    (hex : w.present = true → S.refs w.frame + held w.frame = 1)
    (huser : w.present = true → w.user = true ∧ w.writable = true) :
    Inv R (S.setWord d i w) held' := by
  have hs := h.space
  have hptr := ptr_setPde hs hd hi hne hsame
  have hpte := pte_setPde hs hd hi hne hsame
  -- a reference moves between the word and the caller's hand, so that the sums stay
  have hT : ∀ g, (S.setWord d i w).refs g + held' g = S.refs g + held g := by
    intro g
    have h1 := refCount.update S.ptr (a := g) (.table d i) ((asEntry w).map Word.frame)
    rw [← hptr] at h1
    have h2 := hmove g
    have h3 : S.ptr (.table d i) = S.table d i := rfl
    rw [h3] at h1
    simp only [refs] at *
    omega
  have hpool : d.Pool := h.alloc.pool (by
    exact Nat.add_pos_left (refCount.pos_of_mem (ptr_dir hd)) _)
  have hother : ∀ {d'}, d' ≠ d → (S.setWord d i w).mem d' = S.mem d' :=
    fun hdd => update_of_ne hdd _ _
  have hself : (S.setWord d i w).mem d = update (S.mem d) i w := update_self _ _ _
  constructor
  · rw [funext hT]
    exact h.alloc.of_same ⟨rfl, rfl, rfl⟩
  · constructor
    · intro s f hst hf
      rw [hT]
      rw [hptr] at hf
      obtain rfl | hsl := eq_or_ne s (.table d i)
      · rw [update_self] at hf
        obtain ⟨w', hw', rfl⟩ := Option.map_eq_some_iff.1 hf
        obtain ⟨hp, rfl⟩ := asEntry_eq_some.1 hw'
        exact hex hp
      · rw [update_of_ne hsl] at hf
        exact hs.exclusive hst hf
    · intro d' v' w' hw' hwr'
      rw [hT]
      rw [hpte] at hw'
      exact hs.writable hw' hwr'
    · intro d' v1 v2 f h₁ h₂
      rw [ptr, hpte] at h₁ h₂
      exact hs.injective h₁ h₂
    · intro d' i' p' ht'
      rw [table_setPde hd hi] at ht'
      split at ht'
      · next hc =>
        obtain ⟨rfl, rfl⟩ := hc
        obtain ⟨w', hw', -⟩ := Option.map_eq_some_iff.1 ht'
        obtain ⟨hp, rfl⟩ := asEntry_eq_some.1 hw'
        rw [hself, update_self]
        exact huser hp
      · next hc =>
        obtain rfl | hdd := eq_or_ne d' d
        · rw [hself, update_of_ne fun hii => hc ⟨rfl, hii⟩]
          exact hs.userPde ht'
        · rw [hother hdd]
          exact hs.userPde ht'
    · rw [hpte]
      exact hs.userPte
    · intro d' i' hd' hi'
      obtain rfl | hdd := eq_or_ne d' d
      · have hii : i' ≠ i := fun he => hi' (he ▸ hi)
        rw [hself, update_of_ne hii]
        exact hs.kernelPde hd' hi'
      · rw [hother hdd]
        exact hs.kernelPde hd' hi'
    · intro t j'
      have hne' : S.kernel.pageTable t ≠ d := by
        rintro rfl
        exact absurd hpool.1 (not_le.2 (S.kernel.below t))
      show (S.setWord d i w).mem (S.kernel.pageTable t) j' = _
      rw [hother hne']
      exact hs.kernelPte t j'
    · exact hs.nodup

/-! ## Directories come and go -/

theorem not_mem_dirs_of_refs (h : S.refs d = 0) : d ∉ S.dirs := fun hd =>
  refCount.eq_zero_iff.1 h (.dir d) (ptr_dir hd)

/-- A frame the running code holds becomes a directory without user entries. -/
theorem Inv.addDir (h : Inv R S (bump held d)) (hzero : S.refs d + held d = 0)
    (hkernel : ∀ i, ¬ i.IsUser → S.mem d i = kernelPde S.kernel i)
    (huser : ∀ i, i.IsUser → (S.mem d i).present = false) :
    Inv R (S.addDir d) held ∧ (S.addDir d).pte = S.pte := by
  have hs := h.space
  have hnew : d ∉ S.dirs := not_mem_dirs_of_refs (by omega)
  set S' : Mm := S.addDir d with hS'
  -- the user part of the new directory is empty, so no table is added
  have htable : S'.table = S.table := by
    funext d' i'
    by_cases hdd : d' = d
    · subst hdd
      have hright : S.table d' i' = none := if_neg fun hc => hnew hc.1
      have hleft : S'.table d' i' = none := if_neg fun hc => by
        have := huser i' hc.2.1
        rw [show (S.mem d' i').present = true from hc.2.2] at this
        exact absurd this (by decide)
      rw [hleft, hright]
    · have hmem : d' ∈ S'.dirs ↔ d' ∈ S.dirs := by
        show d' ∈ d :: S.dirs ↔ _
        simp [hdd]
      simp only [table, hmem]
      rfl
  have hpte : S'.pte = S.pte := by
    funext d' v'
    rw [pte, htable]
    rfl
  have hptr : S'.ptr = update S.ptr (.dir d) (some d) := by
    funext s
    cases s with
    | dir d' =>
      by_cases hdd : d' = d
      · subst hdd
        rw [update_self]
        exact if_pos mem_cons_self
      · show (if d' ∈ d :: S.dirs then some d' else none) = _
        simp [hdd, ptr]
    | table d' i' => rw [update_of_ne (Slot.noConfusion), ptr, ptr, htable]
    | entry d' v' => rw [update_of_ne (Slot.noConfusion), ptr, ptr, hpte]
  have hold : S.ptr (.dir d) = none := if_neg hnew
  -- the caller's reference becomes that of the list of directories
  have hrefs : ∀ g, S'.refs g = bump S.refs d g := by
    intro g
    rw [refs, hptr, refCount.update_some _ _ hold]
    simp only [bump, refs, eq_comm]
  have hT : ∀ g, S'.refs g + held g = S.refs g + bump held d g := by
    intro g
    rw [hrefs]
    simp only [bump]
    omega
  refine ⟨⟨?_, ?_⟩, hpte⟩
  · rw [funext hT]
    exact h.alloc.of_same ⟨rfl, rfl, rfl⟩
  · constructor
    · intro s f hst hf
      rw [hT]
      rw [hptr] at hf
      obtain rfl | hsl := eq_or_ne s (.dir d)
      · rw [update_self] at hf
        cases hf
        rw [bump_self]
        omega
      · rw [update_of_ne hsl] at hf
        exact hs.exclusive hst hf
    · intro d' v' w' hw' hwr'
      rw [hT]
      rw [hpte] at hw'
      exact hs.writable hw' hwr'
    · intro d' v1 v2 f h₁ h₂
      rw [ptr, hpte] at h₁ h₂
      exact hs.injective h₁ h₂
    · rw [htable]
      exact hs.userPde
    · rw [hpte]
      exact hs.userPte
    · intro d' i' hd' hi'
      rcases mem_cons.1 hd' with rfl | hd'
      · exact hkernel i' hi'
      · exact hs.kernelPde hd' hi'
    · exact hs.kernelPte
    · exact nodup_cons.2 ⟨hnew, hs.nodup⟩


/-- The directory a slot belongs to. -/
def owner : Slot → Frame
  | .dir d => d
  | .table d _ => d
  | .entry d _ => d

theorem owner_mem_dirs {s : Slot} (h : S.ptr s = some f) : owner s ∈ S.dirs := by
  cases s with
  | dir d =>
    rw [ptr] at h
    split at h
    · next hd => exact hd
    · cases h
  | table d i => exact (table_eq_some.1 h).1
  | entry d v =>
    obtain ⟨w, hw, -⟩ := Option.map_eq_some_iff.1 h
    obtain ⟨p, ht, -⟩ := pte_eq_some.1 hw
    exact (table_eq_some.1 ht).1

/-- The slots behind one entry of a directory. -/
def rowSlots (d : Frame) (i : Idx) : List Slot :=
  (allIdx.map fun j => Slot.entry d (i, j)) ++ [Slot.table d i]

/-- The slots of a directory, in the order in which
`destroy_page_directory` visits them. -/
def slotsOf (d : Frame) : List Slot := userIdx.flatMap (rowSlots d) ++ [.dir d]

/-- The references a directory holds. -/
def dirRefs (S : Mm) (d : Frame) : List Frame := (slotsOf d).filterMap S.ptr

theorem mem_idxRange {lo hi : Nat} : i ∈ idxRange lo hi ↔ lo ≤ i.val ∧ i.val < hi := by
  simp [idxRange]

theorem mem_userIdx : i ∈ userIdx ↔ i.IsUser := mem_idxRange

theorem mem_allIdx : j ∈ allIdx := mem_finRange j

theorem nodup_userIdx : userIdx.Nodup := by
  rw [userIdx]
  exact (nodup_finRange _).filter _

theorem owner_of_mem_slotsOf {s : Slot} (h : s ∈ slotsOf d) : owner s = d := by
  simp only [slotsOf, rowSlots, mem_append, mem_flatMap, mem_map, mem_singleton] at h
  rcases h with ⟨i, -, ⟨j, -, rfl⟩ | rfl⟩ | rfl <;> rfl

/-- A slot of the directory that refers to a frame is listed. -/
theorem mem_slotsOf_of_ptr {s : Slot} (ho : owner s = d) (h : S.ptr s = some f) :
    s ∈ slotsOf d := by
  simp only [slotsOf, rowSlots, mem_append, mem_flatMap, mem_map, mem_singleton]
  cases s with
  | dir d' => exact .inr (congrArg Slot.dir ho)
  | table d' i' =>
    obtain rfl : d' = d := ho
    have hu := (table_eq_some.1 h).2.1
    exact .inl ⟨i', mem_userIdx.2 hu, .inr rfl⟩
  | entry d' v' =>
    obtain rfl : d' = d := ho
    obtain ⟨w, hw, -⟩ := Option.map_eq_some_iff.1 h
    obtain ⟨p, ht, -⟩ := pte_eq_some.1 hw
    have hu := (table_eq_some.1 ht).2.1
    exact .inl ⟨v'.1, mem_userIdx.2 hu, .inl ⟨v'.2, mem_allIdx, rfl⟩⟩

/-- No slot is listed twice. -/
theorem nodup_slotsOf (d : Frame) : (slotsOf d).Nodup := by
  have hrow : ∀ i, (rowSlots d i).Nodup := by
    intro i
    refine nodup_append'.2 ⟨?_, nodup_singleton _, ?_⟩
    · refine (nodup_finRange _).map fun j j' hj => ?_
      exact (Prod.mk.inj (Slot.entry.inj hj).2).2
    · intro s hs hs'
      obtain ⟨j, -, rfl⟩ := mem_map.1 hs
      exact Slot.noConfusion (mem_singleton.1 hs')
  refine nodup_append'.2 ⟨?_, nodup_singleton _, ?_⟩
  · refine nodup_flatMap.2 ⟨fun i _ => hrow i, ?_⟩
    refine nodup_userIdx.imp fun {i i'} hne s hs hs' => ?_
    simp only [rowSlots, mem_append, mem_map, mem_singleton] at hs hs'
    rcases hs with ⟨j, -, rfl⟩ | rfl <;> rcases hs' with ⟨j', -, he⟩ | he
    · exact hne (Prod.mk.inj (Slot.entry.inj he).2).1.symm
    · exact Slot.noConfusion he
    · exact Slot.noConfusion he
    · exact hne (Slot.table.inj he).2
  · intro s hs hs'
    obtain rfl := mem_singleton.1 hs'
    simp only [rowSlots, mem_flatMap, mem_append, mem_map, mem_singleton] at hs
    rcases hs with ⟨i, -, ⟨j, -, he⟩ | he⟩ <;> exact Slot.noConfusion he

/-- A directory is taken away, and the running code holds what it held. -/
theorem Inv.removeDir (h : Inv R S held) (d : Frame) :
    Inv R (S.removeDir d) (fun f => held f + (S.dirRefs d).count f) ∧
      ∀ d', d' ≠ d → (S.removeDir d).pte d' = S.pte d' := by
  have hs := h.space
  set S' : Mm := S.removeDir d with hS'
  have hmem : ∀ d', d' ∈ S'.dirs ↔ d' ≠ d ∧ d' ∈ S.dirs := fun d' => hs.nodup.mem_erase_iff
  have htable : ∀ d' i', S'.table d' i'
      = if d' = d then none else S.table d' i' := by
    intro d' i'
    by_cases hdd : d' = d
    · rw [if_pos hdd]
      exact if_neg fun hc => ((hmem d').1 hc.1).1 hdd
    · rw [if_neg hdd]
      have : d' ∈ S'.dirs ↔ d' ∈ S.dirs := by simp [hmem, hdd]
      simp only [table, this]
      rfl
  have hpte : ∀ d' v', S'.pte d' v' = if d' = d then none else S.pte d' v' := by
    intro d' v'
    rw [pte, htable]
    by_cases hdd : d' = d
    · rw [if_pos hdd, if_pos hdd]
    · rw [if_neg hdd, if_neg hdd]
      rfl
  have hptr : S'.ptr = fun s => if owner s = d then none else S.ptr s := by
    funext s
    cases s with
    | dir d' =>
      show (if d' ∈ S'.dirs then some d' else none) = if d' = d then none else _
      by_cases hdd : d' = d
      · rw [if_pos hdd, if_neg fun hc => ((hmem d').1 hc).1 hdd]
      · simp [hdd, hmem, ptr]
    | table d' i' => exact htable d' i'
    | entry d' v' =>
      show (S'.pte d' v').map Word.frame = if d' = d then none else _
      rw [hpte]
      split <;> rfl
  -- what the slots of `d` referred to is in the caller's hand
  have hT : ∀ g, S'.refs g + (held g + (S.dirRefs d).count g)
      = S.refs g + held g := by
    intro g
    have hset : (Finset.univ.filter fun s => s ∈ slotsOf d ∧ S.ptr s = some g)
        = Finset.univ.filter fun s => owner s = d ∧ S.ptr s = some g := by
      ext s
      simp only [Finset.mem_filter, Finset.mem_univ, true_and]
      constructor
      · exact fun hsl => ⟨owner_of_mem_slotsOf hsl.1, hsl.2⟩
      · exact fun hsl => ⟨mem_slotsOf_of_ptr hsl.1 hsl.2, hsl.2⟩
    have hcount := refCount.count_filterMap S.ptr (a := g) (nodup_slotsOf d)
    have hsplit := refCount.split S.ptr (a := g) (fun s => owner s = d)
    rw [hset] at hcount
    rw [← hptr] at hsplit
    simp only [refs, dirRefs]
    omega
  refine ⟨⟨?_, ?_⟩, fun d' hd' => ?_⟩
  · rw [funext hT]
    exact h.alloc.of_same ⟨rfl, rfl, rfl⟩
  · have hold : ∀ {s f}, S'.ptr s = some f → S.ptr s = some f := by
      intro s f hf
      rw [hptr] at hf
      simp only at hf
      split at hf
      · cases hf
      · exact hf
    have hpold : ∀ {d' v' w'}, S'.pte d' v' = some w' → S.pte d' v' = some w' := by
      intro d' v' w' hw'
      rw [hpte] at hw'
      split at hw'
      · cases hw'
      · exact hw'
    constructor
    · intro s f hst hf
      rw [hT]
      exact hs.exclusive hst (hold hf)
    · intro d' v' w' hw' hwr'
      rw [hT]
      exact hs.writable (hpold hw') hwr'
    · exact fun h₁ h₂ => hs.injective (hold h₁) (hold h₂)
    · intro d' i' p' ht'
      exact hs.userPde (hold (s := .table d' i') ht')
    · exact fun hw' => hs.userPte (hpold hw')
    · exact fun hd' hi' => hs.kernelPde ((hmem _).1 hd').2 hi'
    · exact hs.kernelPte
    · exact hs.nodup.erase d
  · funext v'
    rw [hpte, if_neg hd']

end Mm

end UnixOs
