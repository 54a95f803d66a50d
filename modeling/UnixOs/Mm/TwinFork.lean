import UnixOs.Mm.TwinOps

/-!
# Stores, copy-on-write faults and forks on twins

A copy-on-write fault hands out a frame that is overwritten with the page it
replaces, and a fork gives the child the frames of the parent: neither shows what
a free frame held.
-/

namespace UnixOs.Mm

open List

variable {S T : Mm} {R : Nat → Nat → Prop} {held : Frame → Nat}
  {c : Nat} {d f p src dst : Frame} {v : VPage} {i j : Idx} {w : Word} {flags : Flags}

/-! ## Faults and stores -/

theorem Twin.copyFrame {S1 T1 : Mm} (h : Taken R held S S1 T1 f) (hw : S1.pte d v = some w) :
    Twin clean (S1.copyFrame w.frame f) (T1.copyFrame w.frame f) := by
  have hpool := h.inv.pool_of_pte hw
  rw [copyFrame_of_pool hpool h.pool, copyFrame_of_pool hpool h.pool,
    h.twin.mem_page h.inv h.unreferenced hw]
  exact h.setFrame _

section

variable (h : Twin clean S T) (hinv : Inv R S held)
include h hinv

/-- The copy has the content of the shared frame, which is the same on both. -/
theorem Twin.handleCowFault (hR : CountRel 0xFFFF R) (hd : d ∈ S.dirs) (c : Nat) (v : VPage) :
    Agree (S.handleCowFault c d v) (T.handleCowFault c d v) := by
  have hinv' := h.inv hinv unreferenced_clean
  have hd' : d ∈ T.dirs := h.dirs ▸ hd
  have hpte : T.pte d v = S.pte d v := by rw [h.pte hinv unreferenced_clean]
  by_cases hno : ∀ w, S.pte d v = some w → w.cow = false
  · rw [handleCowFault_refused hinv hd hno, handleCowFault_refused hinv' hd' (hpte ▸ hno)]
    exact agree_mk h
  · push Not at hno
    obtain ⟨w, hw, hcow⟩ := hno
    obtain ⟨p, ht, hwp, rfl⟩ := pte_eq_some.1 hw
    replace hcow : (S.mem p v.2).cow = true := by simpa using hcow
    have hmem := h.mem_table hinv unreferenced_clean ht
    have ht' : T.table d v.1 = some p := by rw [h.table hinv unreferenced_clean]; exact ht
    have hcount : T.frameGetref (S.mem p v.2).frame = S.frameGetref (S.mem p v.2).frame := by
      rw [frameGetref, frameGetref, h.refcount]
    rw [handleCowFault_eq hinv ht hwp hcow,
      handleCowFault_eq hinv' ht' (hmem ▸ hwp) (hmem ▸ hcow), hmem, hcount]
    split
    · exact agree_mk (h.setWord _ _ _)
    · rcases h.allocate_cases hinv hR c with
        ⟨hx, hy⟩ | ⟨S1, T1, f, hx, hy, htaken⟩
      · rw [hx, hy]
        exact agree_mk h
      · rw [hx, hy]
        have hw1 : S1.pte d v = some (S.mem p v.2) := by
          rw [show S1.pte = S.pte from htaken.same.pte]; exact hw
        exact agree_mk (((Twin.copyFrame htaken hw1).setWord _ _ _).frameDecref c _)

/-- A store to a page that a process may write to. -/
theorem Twin.setByte (hd : d ∈ S.dirs)
    (hok : S.userTranslate d v true = .ok f) (i : Idx) (k : Fin 4) (x : BitVec 8) :
    Twin clean (S.setByte f i k x) (T.setByte f i k x) := by
  have hmem : T.mem f = S.mem f := by
    cases hw : S.pte d v with
    | none =>
      obtain ⟨e, he⟩ := userTranslate_of_none hinv.space hd hw true
      rw [he] at hok
      cases hok
    | some w =>
      rw [userTranslate_of_pte hinv.space hw] at hok
      split at hok
      · cases hok
      · cases hok
        exact h.mem_page hinv unreferenced_clean hw
  rw [Mm.setByte, Mm.setByte, hmem]
  exact h.setWord _ _ _

/-- The fault, if there is one, and then the byte. -/
theorem Twin.userStore (hR : CountRel 0xFFFF R) (hd : d ∈ S.dirs) (c : Nat) (v : VPage) (i : Idx)
    (k : Fin 4) (x : BitVec 8) : Agree (S.userStore c d v i k x) (T.userStore c d v i k x) := by
  rw [Mm.userStore, Mm.userStore, h.userTranslate hinv unreferenced_clean hd]
  cases hok : S.userTranslate d v true with
  | ok f => exact agree_mk (h.setByte hinv hd hok i k x)
  | error e =>
    cases e with
    | notPresent => exact agree_mk h
    | protection =>
      have hstep : ∃ S1 b, S.handleCowFault c d v = (S1, b) ∧ Inv R S1 held ∧
          S1.dirs = S.dirs := by
        rcases hinv.handleCowFault hR hd c v with
          ⟨S1, heq, hinv1, hun⟩ | ⟨S1, w, f, heq, -, -, hinv1, hset⟩
        · exact ⟨S1, false, heq, hinv1, hun.dirs⟩
        · exact ⟨S1, true, heq, hinv1, hset.dirs⟩
      obtain ⟨S1, b, hx, hinv1, hdirs⟩ := hstep
      obtain ⟨T1, hy, h1⟩ := (h.handleCowFault hinv hR hd c v).eq hx
      simp only [hx, hy]
      cases b with
      | false => exact agree_mk h1
      | true =>
        have hd1 : d ∈ S1.dirs := hdirs ▸ hd
        simp only [h1.userTranslate hinv1 unreferenced_clean hd1]
        cases hok1 : S1.userTranslate d v true with
        | ok f => exact agree_mk (h1.setByte hinv1 hd1 hok1 i k x)
        | error e => exact agree_mk h1

end

/-! ## Purging the child -/

/-- By induction on the entries. -/
theorem Twin.purgeEntries (hR : CountRel 0xFFFF R) (c : Nat) (js : List Idx) :
    ∀ {S T : Mm}, Twin clean S T → Inv R S held → S.table d i = some p →
      Twin clean (js.foldl (fun S j => S.purgeEntry c p j) S)
        (js.foldl (fun S j => S.purgeEntry c p j) T) := by
  induction js with
  | nil => exact fun h _ _ => h
  | cons j js ih =>
    intro S T h hinv ht
    have ht' : T.table d i = some p := by rw [h.table hinv unreferenced_clean]; exact ht
    obtain ⟨hd, hi, -, -⟩ := table_eq_some.1 ht
    rw [foldl_cons, foldl_cons, purgeEntry_eq hinv ht,
      purgeEntry_eq (h.inv hinv unreferenced_clean) ht']
    exact ih (h.unmapUserPage hinv hd c (i, j))
      (hinv.unmapUserPage hR (v := (i, j)) hd hi c).1 (table_unmapUserPage hinv ht)

section

variable (h : Twin clean S T) (hinv : Inv R S held) (hR : CountRel 0xFFFF R) (hd : d ∈ S.dirs)
include h hinv hR hd

theorem Twin.purgeTable (hi : i.IsUser) (c : Nat) :
    Twin clean (S.purgeTable c d i) (T.purgeTable c d i) := by
  have hmem := h.mem_dir hinv unreferenced_clean hd
  simp only [Mm.purgeTable, hmem]
  split
  · exact h
  next hp =>
  split
  · exact h
  · have ht : S.table d i = some (S.mem d i).frame :=
      table_eq_some.2 ⟨hd, hi, by simpa using hp, rfl⟩
    exact ((Twin.purgeEntries hR c allIdx h hinv ht).freeFrame c _).setWord _ _ _

/-- By induction on the tables. -/
theorem Twin.purgeDstUserPages (c : Nat) :
    Twin clean (S.purgeDstUserPages c d) (T.purgeDstUserPages c d) := by
  have hloop : ∀ (is : List Idx), (∀ i ∈ is, i.IsUser) → ∀ {S T : Mm},
      Twin clean S T → Inv R S held → d ∈ S.dirs →
      Twin clean (is.foldl (fun S i => S.purgeTable c d i) S)
        (is.foldl (fun S i => S.purgeTable c d i) T) := by
    intro is
    induction is with
    | nil => exact fun _ _ _ h _ _ => h
    | cons i is ih =>
      intro his S T h hinv hd
      have hi := his i mem_cons_self
      obtain ⟨hinv1, hcl⟩ := hinv.purgeTable hR hd hi c
      exact ih (fun x hx => his x (mem_cons_of_mem i hx)) (h.purgeTable hinv hR hd hi c)
        hinv1 (hcl.dirs ▸ hd)
  exact hloop userIdx (fun i hi => mem_userIdx.1 hi) h hinv hd

end

/-! ## Sharing the parent's pages -/

/-- One page is shared. -/
theorem Twin.shareEntry (h : Twin clean S T) (hinv : Inv R S held)
    (hR : CountRel 0xFFFF R) (hdst : dst ∈ S.dirs) (ht : S.table src v.1 = some p)
    (c : Nat) : Agree (S.shareEntry c p dst v) (T.shareEntry c p dst v) := by
  have hmem := h.mem_table hinv unreferenced_clean ht
  dsimp only [Mm.shareEntry]
  rw [downgrade_eq rfl, downgrade_eq rfl, hmem]
  by_cases hw : (S.mem p v.2).present = true
  · have hpte : S.pte src v = some (S.mem p v.2) := pte_eq_some.2 ⟨p, ht, hw, rfl⟩
    rw [hw]
    obtain ⟨hinv1, hset⟩ := hinv.downgrade ht hpte
    obtain ⟨S2, T2, b, hx, hy, h2⟩ := (h.setWord p v.2 (shareWord (S.mem p v.2))).mapPage_cases
      hinv1 unreferenced_clean hR (hset.dirs ▸ hdst) c v (S.mem p v.2).frame
      (shareFlags (S.mem p v.2).flags)
    rw [hx, hy]
    cases b with
    | false => exact agree_mk h2
    | true => exact agree_mk (h2.frameIncref _)
  · simp only [hw, Bool.not_false, if_true]
    exact agree_mk h

variable {S0 : Mm} {P : VPage → Prop}

/-- By induction on the entries, with the pages that are shared so far. -/
theorem Twin.shareTable (hR : CountRel 0xFFFF R) (hheld : FewHeld held) (hne : src ≠ dst)
    (c : Nat) {js : List Idx} (hnd : js.Nodup) :
    ∀ {S T : Mm} {P : VPage → Prop}, Twin clean S T → Inv R S held →
      Shared S0 S src dst P → dst ∈ S.dirs → S.table src i = some p →
      (∀ j ∈ js, ¬ P (i, j)) →
      Agree (shareTable c p dst i S js) (shareTable c p dst i T js) := by
  induction js with
  | nil => exact fun h _ _ _ _ _ => agree_mk h
  | cons j js ih =>
    intro S T P h hinv hsh hdst ht hjs
    obtain ⟨hj, hnd⟩ := nodup_cons.1 hnd
    have hentry := Twin.shareEntry (v := (i, j)) h hinv hR hdst ht c
    rw [Mm.shareTable, Mm.shareTable]
    rcases hinv.shareEntry (v := (i, j)) hR hheld hsh hne hdst ht
        (hjs j mem_cons_self) c with
      ⟨S1, hx, hinv1, -⟩ | ⟨S1, hx, hinv1, hsh1, ht1⟩
    · obtain ⟨T1, hy, h1⟩ := hentry.eq hx
      rw [hx, hy]
      exact agree_mk h1
    · obtain ⟨T1, hy, h1⟩ := hentry.eq hx
      rw [hx, hy]
      have hdst1 : dst ∈ S1.dirs := by
        rw [hsh1.dirs, ← hsh.dirs]
        exact hdst
      exact ih hnd h1 hinv1 hsh1 hdst1 ht1 fun j' hj' => not_or.2
        ⟨hjs j' (mem_cons_of_mem j hj'), fun he => hj (by
          rw [← (Prod.mk.inj he).2]; exact hj')⟩

/-- A table of the parent, if it is there. -/
theorem Twin.sharePde (h : Twin clean S T) (hinv : Inv R S held)
    (hR : CountRel 0xFFFF R) (hheld : FewHeld held) (hsh : Shared S0 S src dst P)
    (hne : src ≠ dst) (hsrc : src ∈ S.dirs) (hdst : dst ∈ S.dirs) (hi : i.IsUser)
    (hP : ∀ j, ¬ P (i, j)) (c : Nat) : Agree (S.sharePde c src dst i) (T.sharePde c src dst i) := by
  have hmem := h.mem_dir hinv unreferenced_clean hsrc
  dsimp only [Mm.sharePde]
  rw [hmem]
  split
  · exact agree_mk h
  next hp =>
  split
  · exact agree_mk h
  · have ht : S.table src i = some (S.mem src i).frame :=
      table_eq_some.2 ⟨hsrc, hi, by simpa using hp, rfl⟩
    exact Twin.shareTable hR hheld hne c (show allIdx.Nodup from nodup_finRange _) h
      hinv hsh hdst ht fun j _ => hP j

/-- By induction on the tables. -/
theorem Twin.shareTables (hR : CountRel 0xFFFF R) (hheld : FewHeld held) (hne : src ≠ dst)
    (c : Nat) {is : List Idx} (hnd : is.Nodup) (hus : ∀ i ∈ is, i.IsUser) :
    ∀ {S T : Mm} {P : VPage → Prop}, Twin clean S T → Inv R S held →
      Shared S0 S src dst P → src ∈ S.dirs → dst ∈ S.dirs → (∀ v, v.1 ∈ is → ¬ P v) →
      Agree (shareTables c src dst S is) (shareTables c src dst T is) := by
  induction is with
  | nil => exact fun h _ _ _ _ _ => agree_mk h
  | cons i is ih =>
    intro S T P h hinv hsh hsrc hdst his
    obtain ⟨hi, hnd⟩ := nodup_cons.1 hnd
    have hP : ∀ j, ¬ P (i, j) := fun j => his (i, j) mem_cons_self
    have hu := hus i mem_cons_self
    have hpde := h.sharePde hinv hR hheld hsh hne hsrc hdst hu hP c
    rw [Mm.shareTables, Mm.shareTables]
    rcases hinv.sharePde hR hheld hsh hne hsrc hdst hu hP c with
      ⟨S1, hx, hinv1, -⟩ | ⟨S1, hx, hinv1, hsh1⟩
    · obtain ⟨T1, hy, h1⟩ := hpde.eq hx
      rw [hx, hy]
      exact agree_mk h1
    · obtain ⟨T1, hy, h1⟩ := hpde.eq hx
      rw [hx, hy]
      have hdirs : S1.dirs = S.dirs := hsh1.dirs.trans hsh.dirs.symm
      exact ih hnd (fun x hx => hus x (mem_cons_of_mem i hx)) h1 hinv1 hsh1
        (hdirs ▸ hsrc) (hdirs ▸ hdst) fun v hv => not_or.2
          ⟨his v (mem_cons_of_mem i hv), fun he => hi (he ▸ hv)⟩

/-- The child is created, its pages are purged, and those of the parent shared. -/
theorem Twin.cloneProcessMemory (h : Twin clean S T) (hinv : Inv (· ≤ ·) S held)
    (hheld : FewHeld held) (hsrc : src ∈ S.dirs) {memOk dirOk : Bool}
    (hsafe : S.CloneSafe c src memOk dirOk) :
    Agree (S.cloneProcessMemory c src memOk dirOk) (T.cloneProcessMemory c src memOk dirOk) := by
  have hR := countRel_le 0xFFFF
  have hcreate := h.createProcessMemory hinv c memOk dirOk
  unfold Mm.cloneProcessMemory
  rcases hinv.createProcessMemory hR memOk hsafe.1 with
    ⟨S1, hx, -, -⟩ | ⟨S1, dst, hx, hinv1, hcr⟩
  · obtain ⟨T1, hy, h1⟩ := hcreate.eq hx
    simp only [hx, hy]
    exact agree_mk h1
  · obtain ⟨T1, hy, h1⟩ := hcreate.eq hx
    simp only [hx, hy]
    have hne : src ≠ dst := fun he => hcr.fresh (he ▸ hsrc)
    have hdst1 : dst ∈ S1.dirs := hcr.dirs ▸ mem_cons_self
    obtain ⟨hinv2, hdirs2, -, hempty⟩ := hinv1.purgeDstUserPages hR hdst1 c
    have h2 := h1.purgeDstUserPages hinv1 hR hdst1 c
    generalize S1.purgeDstUserPages c dst = S2 at *
    generalize T1.purgeDstUserPages c dst = T2 at *
    have hdirs : S2.dirs = dst :: S.dirs := hdirs2.trans hcr.dirs
    have hstart : Shared S2 S2 src dst fun _ => False :=
      ⟨fun _ hv => hv.elim, fun v _ => ⟨rfl, hempty v⟩, fun _ _ _ => rfl, rfl, rfl⟩
    have hsrc2 : src ∈ S2.dirs := hdirs ▸ mem_cons_of_mem _ hsrc
    have hdst2 : dst ∈ S2.dirs := hdirs ▸ mem_cons_self
    have hus : ∀ i ∈ userIdx, i.IsUser := fun i hi => mem_userIdx.1 hi
    have hshare := Twin.shareTables hR hheld hne c nodup_userIdx hus h2 hinv2 hstart
      hsrc2 hdst2 fun _ _ => id
    rw [cowShareUserPages, cowShareUserPages]
    rcases hinv2.shareTables hR hheld hne c nodup_userIdx hus hstart hsrc2 hdst2
        (fun _ _ => id) with ⟨S3, hx3, hinv3, hhalf⟩ | ⟨S3, hx3, hinv3, hsh⟩
    · obtain ⟨T3, hy3, h3⟩ := hshare.eq hx3
      rw [hx3, hy3]
      exact agree_mk (h3.destroyPageDirectory hinv3 (hhalf.dirs ▸ hdst2) c)
    · obtain ⟨T3, hy3, h3⟩ := hshare.eq hx3
      rw [hx3, hy3]
      exact agree_mk h3

end UnixOs.Mm
