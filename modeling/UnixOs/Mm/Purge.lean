import UnixOs.Mm.Create

/-!
# Purging a directory before it is shared into

`clone_process_memory` starts from a fresh address space, whose stack
`purge_dst_user_pages` takes away again, tables included. The source counts a
frame down before it clears the entry that referred to it; since the two touch
different parts of the state, this is the other order as well.
-/

namespace UnixOs.Mm

open List Option

variable {S S' : Mm} {R : Nat → Nat → Prop} {held : Frame → Nat}
  {d p f g : Frame} {i j : Idx} {v : VPage} {w : Word} {c : Nat}

/-! ## One entry, one table -/

/-- Purging an entry is unmapping it. -/
theorem purgeEntry_eq (h : Inv R S held) (ht : S.table d i = some p) :
    S.purgeEntry c p j = S.unmapUserPage c d (i, j) := by
  obtain ⟨hd, hi, hpp, hpf⟩ := table_eq_some.1 ht
  rw [unmapUserPage, h.getPhysicalFrame hd hi, pte, ht, purgeEntry]
  by_cases hw : (S.mem p j).present = true
  · have hunmap : S.unmapPage d (i, j) = S.setWord p j 0 := by
      rw [unmapPage, hpp, hpf]
      rfl
    simp only [asEntry, hw, if_true, map_some]
    rw [hunmap, freeFrame_eq, frameDecref_setWord]
  · simp only [asEntry, hw, if_false, map_none, Bool.false_eq_true]

/-- The pages of `d` that meet `P` are gone. -/
structure Cleared (held : Frame → Nat) (S S' : Mm) (d : Frame)
    (P : VPage → Prop) : Prop where
  dirs : S'.dirs = S.dirs
  others : Others held S S' d
  gone : ∀ v, P v → S'.view d v = none
  kept : ∀ v, ¬ P v → S'.view d v = S.view d v

theorem Cleared.refl (held : Frame → Nat) (S : Mm) (d : Frame) :
    Cleared held S S d fun _ => False :=
  ⟨rfl, (Unseen.refl held S).others d, fun _ hv => hv.elim, fun _ _ => rfl⟩

theorem Cleared.trans {S'' : Mm} {P Q W : VPage → Prop}
    (h : Cleared held S S' d P) (h' : Cleared held S' S'' d Q)
    (hW : ∀ v, W v ↔ P v ∨ Q v) : Cleared held S S'' d W := by
  refine ⟨h'.dirs.trans h.dirs, h.others.trans h'.others, fun v hv => ?_, fun v hv => ?_⟩
  · by_cases hq : Q v
    · exact h'.gone v hq
    · rw [h'.kept v hq]
      exact h.gone v (((hW v).1 hv).resolve_right hq)
  · have hpq := not_or.1 (mt (hW v).2 hv)
    rw [h'.kept v hpq.2, h.kept v hpq.1]

theorem Sets.cleared (h : Sets held S S' d v none) : Cleared held S S' d fun v' => v' = v := by
  refine ⟨h.dirs, h.others, fun v' hv' => ?_, fun v' hv' => ?_⟩
  · rw [h.view, if_pos ⟨rfl, hv'⟩]
  · rw [h.view, if_neg fun hc => hv' hc.2]

/-- Clearing an entry leaves the tables where they are. -/
theorem table_unmapUserPage (h : Inv R S held) (ht : S.table d i = some p) :
    (S.unmapUserPage c d (i, j)).table d i = some p := by
  rw [← purgeEntry_eq h ht, purgeEntry]
  split
  · rw [← frameDecref_setWord, (sameSpace_frameDecref _ c _).table, table_setEntry h.space ht]
    exact ht
  · exact ht

section

variable (hR : CountRel 0xFFFF R)
include hR

/-- The loop over the entries of a table. -/
theorem Inv.purgeEntries (c : Nat) :
    ∀ (js : List Idx) {S : Mm}, Inv R S held → S.table d i = some p →
      Inv R (js.foldl (fun S j => S.purgeEntry c p j) S) held ∧
        (js.foldl (fun S j => S.purgeEntry c p j) S).table d i = some p ∧
        Cleared held S (js.foldl (fun S j => S.purgeEntry c p j) S) d
          fun v => v.1 = i ∧ v.2 ∈ js := by
  intro js
  induction js with
  | nil =>
    intro S h ht
    refine ⟨h, ht, (Cleared.refl held S d).trans (.refl held S d) fun v => ?_⟩
    simp
  | cons j js ih =>
    intro S h ht
    obtain ⟨hd, hi, -, -⟩ := table_eq_some.1 ht
    obtain ⟨h1, hset⟩ := h.unmapUserPage hR (v := (i, j)) hd hi c
    have ht1 := table_unmapUserPage (c := c) (j := j) h ht
    rw [foldl_cons, purgeEntry_eq h ht]
    obtain ⟨h2, ht2, hcl⟩ := ih h1 ht1
    refine ⟨h2, ht2, hset.cleared.trans hcl fun v => ?_⟩
    obtain ⟨i', j'⟩ := v
    simp only [mem_cons, Prod.mk.injEq]
    tauto

/-- One table of `purge_dst_user_pages`. -/
theorem Inv.purgeTable (h : Inv R S held) (hd : d ∈ S.dirs) (hi : i.IsUser) (c : Nat) :
    Inv R (S.purgeTable c d i) held ∧ Cleared held S (S.purgeTable c d i) d fun v => v.1 = i := by
  dsimp only [Mm.purgeTable]
  cases ht : S.table d i with
  | none =>
    have hp := (table_eq_none hd hi).1 ht
    simp only [hp, Bool.not_false, if_true]
    refine ⟨h, rfl, (Unseen.refl held S).others d, ?_, fun _ _ => rfl⟩
    rintro ⟨i', j'⟩ rfl
    rw [view, pte_eq_none_of_table ht]
    rfl
  | some p =>
    obtain ⟨-, -, hpp, rfl⟩ := table_eq_some.1 ht
    have hpool : (S.mem d i).frame.Pool := h.alloc.pool
      (Nat.add_pos_left (refCount.pos_of_mem (s := .table d i) ht) _)
    simp only [hpp, Bool.not_true, Bool.false_eq_true, if_false, if_neg (not_le.2 hpool.2)]
    generalize hp : (S.mem d i).frame = p at *
    obtain ⟨h1, ht1, hcl⟩ := h.purgeEntries hR c allIdx ht
    generalize allIdx.foldl (fun S j => S.purgeEntry c p j) S = S1 at *
    have hd1 : d ∈ S1.dirs := hcl.dirs ▸ hd
    have hempty : ∀ j, S1.pte d (i, j)
        = (asEntry 0).bind fun w => asEntry (S1.mem w.frame j) := by
      intro j
      rw [pte_eq_view, hcl.gone (i, j) ⟨rfl, mem_allIdx⟩]
      rfl
    -- The table is empty: its entry in the directory goes.
    have hmove : Inv R (S1.setWord d i 0) (bump held p) := by
      refine h1.setPde hd1 hi Bool.noConfusion hempty (fun g => ?_)
        Bool.noConfusion Bool.noConfusion
      rw [asEntry_zero, ht1]
      simp [bump, eq_comm]
    have hun := unseen_setPde (w := 0) h1.space hd1 hi Bool.noConfusion hempty
    rw [freeFrame_eq, ← frameDecref_setWord, ← freeFrame_eq]
    have hun' : Unseen held S1 ((S1.setWord d i 0).freeFrame c p) :=
      hun.trans (sameSpace_freeFrame _ c p).unseen
    refine ⟨hmove.freeFrame hR c, hun'.dirs.trans hcl.dirs,
      hcl.others.trans (hun'.others d), fun v hv => ?_, fun v hv => ?_⟩
    · rw [hun'.view]
      exact hcl.gone v ⟨hv, mem_allIdx⟩
    · rw [hun'.view]
      exact hcl.kept v fun hc => hv hc.1

/-- `purge_dst_user_pages` leaves the directory without pages. -/
theorem Inv.purgeDstUserPages (h : Inv R S held) (hd : d ∈ S.dirs) (c : Nat) :
    Inv R (S.purgeDstUserPages c d) held ∧
      (S.purgeDstUserPages c d).dirs = S.dirs ∧
      Others held S (S.purgeDstUserPages c d) d ∧
      ∀ v, (S.purgeDstUserPages c d).view d v = none := by
  have hloop : ∀ (is : List Idx), (∀ i ∈ is, i.IsUser) → ∀ {S : Mm},
      Inv R S held → d ∈ S.dirs →
      Inv R (is.foldl (fun S i => S.purgeTable c d i) S) held ∧
        Cleared held S (is.foldl (fun S i => S.purgeTable c d i) S) d fun v => v.1 ∈ is := by
    intro is
    induction is with
    | nil =>
      intro _ S h _
      refine ⟨h, (Cleared.refl held S d).trans (.refl held S d) fun v => ?_⟩
      simp
    | cons i is ih =>
      intro his S h hd
      obtain ⟨h1, hcl1⟩ := h.purgeTable hR hd (his i mem_cons_self) c
      obtain ⟨h2, hcl2⟩ := ih (fun x hx => his x (mem_cons_of_mem i hx)) h1 (hcl1.dirs ▸ hd)
      exact ⟨h2, hcl1.trans hcl2 fun v => mem_cons⟩
  obtain ⟨h', hcl⟩ := hloop userIdx (fun i hi => mem_userIdx.1 hi) h hd
  refine ⟨h', hcl.dirs, hcl.others, fun v => ?_⟩
  by_cases hv : v.1.IsUser
  · exact hcl.gone v (mem_userIdx.2 hv)
  · rw [Mm.purgeDstUserPages, hcl.kept v fun hc => hv (mem_userIdx.1 hc), view, pte,
      show S.table d v.1 = none from if_neg fun hc => hv hc.2.1]
    rfl

end

end UnixOs.Mm
