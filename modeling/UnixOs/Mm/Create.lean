import UnixOs.Mm.Pages
import UnixOs.Mm.Destroy

/-!
# A new address space

`create_process_memory` allocates a directory and maps the stack. Where the
stack cannot be mapped it rolls back with `destroy_page_directory`, so the
condition of `SafeDestroy` comes in here too (`CreateSafe`).
-/

namespace UnixOs.Mm

open List

variable {S S' S'' : Mm} {R : Nat → Nat → Prop} {held : Frame → Nat}
  {d f : Frame} {v : VPage} {c : Nat} {flags : Flags}

/-! ## Changes in one directory -/

/-- The processes with other directories than `d` see what they saw. -/
structure Others (held : Frame → Nat) (S S' : Mm) (d : Frame) : Prop where
  view : ∀ d', d' ≠ d → S'.view d' = S.view d'
  kernel : S'.kernel = S.kernel
  mem : ∀ g, 0 < held g → S'.mem g = S.mem g

theorem Others.trans (h : Others held S S' d) (h' : Others held S' S'' d) : Others held S S'' d :=
  ⟨fun d' hd' => (h'.view d' hd').trans (h.view d' hd'),
    h'.kernel.trans h.kernel, fun g hg => (h'.mem g hg).trans (h.mem g hg)⟩

theorem Unseen.others (h : Unseen held S S') (d : Frame) : Others held S S' d :=
  ⟨fun d' _ => by rw [h.view], h.kernel, h.mem⟩

theorem Sets.others {x : Option (Word × (Idx → Word))}
    (h : Sets held S S' d v x) : Others held S S' d := by
  refine ⟨fun d' hd' => ?_, h.kernel, h.mem⟩
  funext v'
  rw [h.view, if_neg fun hc => hd' hc.1]

/-- A directory without entries in user space has no pages. -/
theorem view_eq_none (h : d ∉ S.dirs) (v : VPage) : S.view d v = none := by
  have ht : S.table d v.1 = none := if_neg fun hc => h hc.1
  rw [view, pte, ht]
  rfl

/-! ## The directory -/

/-- The words `create_page_directory` stores. -/
theorem newPageDirectory_eq (L : KernelLayout) (i : Idx) :
    (if i.val < numKernelPageTables then kernelPde L i
      else if (kernelPde L i).present then kernelPde L i else 0) = kernelPde L i := by
  split
  · rfl
  · next h =>
    rw [kernelPde, dif_neg h]
    rfl

/-- `create_page_directory`: it fails and nobody sees a difference, or there is
a new directory without pages. -/
theorem Inv.createPageDirectory (hR : CountRel 0xFFFF R) (h : Inv R S held)
    (c : Nat) (dirOk : Bool) :
    (∃ S', S.createPageDirectory c dirOk = (S', none) ∧ Inv R S' held ∧
      Unseen held S S') ∨
    ∃ S' d, S.createPageDirectory c dirOk = (S', some d) ∧ Inv R S' held ∧
      d ∉ S.dirs ∧ S'.dirs = d :: S.dirs ∧ Others held S S' d ∧ ∀ v, S'.view d v = none := by
  dsimp only [Mm.createPageDirectory]
  cases dirOk with
  | false => exact .inl ⟨S, rfl, h, .refl _ _⟩
  | true =>
    obtain hx | ⟨S1, pd, hx, hgot⟩ := h.allocateFrame hR c
    · rw [hx]
      exact .inl ⟨S, rfl, h, .refl _ _⟩
    · rw [hx]
      simp only [newPageDirectory_eq]
      have hfill := hgot.fill (kernelPde S1.kernel)
      have hz := hgot.unused
      have hnew : pd ∉ S.dirs := hgot.same.2.1 ▸ not_mem_dirs_of_refs (by omega)
      set S2 := S1.setFrame pd (kernelPde S1.kernel)
      obtain ⟨h3, hpte⟩ := hfill.inv.addDir hfill.unused (fun i _ => by rw [hfill.mem]; rfl)
        fun i hi => by
          rw [hfill.mem, kernelPde, dif_neg (not_lt.2 hi.1)]
          rfl
      have hview : (S2.addDir pd).view = S.view := by
        rw [← hfill.unseen.view]
        funext d' v'
        rw [view, hpte]
        rfl
      refine .inr ⟨S2.addDir pd, pd, ?_, h3, hnew, congrArg (pd :: ·) hfill.unseen.dirs,
        ⟨fun d' _ => by rw [hview], hfill.unseen.kernel, hfill.unseen.mem⟩, fun v => ?_⟩
      · simp only [Bool.not_true, Bool.false_eq_true, if_false, if_neg (not_le.2 hgot.pool.2)]
      · rw [hview]
        exact view_eq_none hnew v

/-! ## Its pages -/

/-- `map_user_pages` over pages that are not mapped. -/
theorem Inv.mapUserPages (hR : CountRel 0xFFFF R) (hp : flags.present = true)
    (hu : flags.user = true) {vs : List VPage} (hnd : vs.Nodup) :
    ∀ {S : Mm}, Inv R S held → d ∈ S.dirs →
      (∀ v ∈ vs, v.1.IsUser ∧ S.pte d v = none) →
      ∃ S' b, Mm.mapUserPages c d flags S vs = (S', b) ∧ Inv R S' held ∧
        S'.dirs = S.dirs ∧ Others held S S' d ∧ (b = true →
          (∀ v ∈ vs, ∃ f, S'.view d v = some (.entry f flags, fun _ => 0)) ∧
          ∀ v, v ∉ vs → S'.view d v = S.view d v) := by
  induction vs with
  | nil =>
    intro S h _ _
    exact ⟨S, true, rfl, h, rfl, (Unseen.refl _ _).others d,
      fun _ => ⟨fun v hv => absurd hv not_mem_nil, fun _ _ => rfl⟩⟩
  | cons v vs ih =>
    intro S h hd hvs
    obtain ⟨hvnot, hnd⟩ := nodup_cons.1 hnd
    obtain ⟨hvu, hvn⟩ := hvs v mem_cons_self
    rw [Mm.mapUserPages]
    obtain hx | ⟨S1, f, hx, hgot⟩ := h.allocateFrame hR c
    -- no frame for the page
    · rw [hx]
      exact ⟨S, false, rfl, h, rfl, (Unseen.refl _ _).others d, Bool.noConfusion⟩
    · rw [hx]
      have hfill := hgot.clear
      have hun2 := hfill.unseen
      have hd2 : d ∈ (S1.zeroFrame f).dirs := hun2.dirs ▸ hd
      have hn2 : (S1.zeroFrame f).pte d v = none := by rw [hun2.pte]; exact hvn
      rcases hfill.inv.mapNew hR hfill.unused hd2 hvu hn2 hp hu c with
        ⟨S3, heq, h3, hun3⟩ | ⟨S3, heq, h3, hset⟩
      -- no frame for its table
      · simp only [heq]
        have hun' := hun2.trans hun3
        exact ⟨_, false, rfl, h3, hun'.dirs, hun'.others d, Bool.noConfusion⟩
      · simp only [heq]
        rw [hfill.mem] at hset
        have hset' := hset.after hun2
        obtain ⟨S', b, hrun, h', hdirs, hoth, hview⟩ := ih hnd h3
          (hset'.dirs ▸ hd) fun v' hv' => by
            obtain ⟨hu', hn'⟩ := hvs v' (mem_cons_of_mem v hv')
            have hne : v' ≠ v := fun he => hvnot (he ▸ hv')
            refine ⟨hu', ?_⟩
            rw [pte_eq_view, hset'.view, if_neg fun hc => hne hc.2, ← pte_eq_view, hn']
        refine ⟨S', b, hrun, h', hdirs.trans hset'.dirs, hset'.others.trans hoth, fun hb => ?_⟩
        obtain ⟨hin, hout⟩ := hview hb
        refine ⟨fun v' hv' => ?_, fun v' hv' => ?_⟩
        · rcases mem_cons.1 hv' with rfl | hv'
          · refine ⟨f, ?_⟩
            rw [hout v' hvnot, hset'.view, if_pos ⟨rfl, rfl⟩]
          · exact hin v' hv'
        · obtain ⟨hne, hv'⟩ := not_or.1 (mt mem_cons.2 hv')
          rw [hout v' hv', hset'.view, if_neg fun hc => hne hc.2]

theorem nodup_stackPages : stackPages.Nodup := by
  refine ((nodup_finRange _).filter _).map fun j j' hj => ?_
  exact (Prod.mk.inj hj).2

theorem isUser_of_mem_stackPages (hv : v ∈ stackPages) : v.1.IsUser := by
  obtain ⟨j, -, rfl⟩ := mem_map.1 hv
  exact show Idx.IsUser 511 by decide

/-! ## `create_process_memory` -/

/-- If the stack cannot be mapped, the roll-back is safe. -/
def CreateSafe (S : Mm) (c : Nat) (dirOk : Bool) : Prop :=
  ∀ S1 d S2, S.createPageDirectory c dirOk = (S1, some d) →
    Mm.mapUserPages c d (userFlags true) S1 stackPages = (S2, false) →
    S2.SafeDestroy d

/-- A process that was created needed no roll-back. -/
theorem createSafe_of_some {memOk dirOk : Bool}
    (h : (S.createProcessMemory c memOk dirOk).2 = some d) : S.CreateSafe c dirOk := by
  intro S1 d' S2 hdir hmap
  cases memOk with
  | false => cases h
  | true =>
    simp only [createProcessMemory, Bool.not_true, Bool.false_eq_true, if_false, hdir, hmap] at h
    cases h

/-- The new directory `d` has a cleared stack and no other page. -/
structure Created (held : Frame → Nat) (S S' : Mm) (d : Frame) : Prop where
  fresh : d ∉ S.dirs
  dirs : S'.dirs = d :: S.dirs
  others : Others held S S' d
  stack : ∀ v ∈ stackPages,
    ∃ f, S'.view d v = some (.entry f (userFlags true), fun _ => 0)
  rest : ∀ v, v ∉ stackPages → S'.view d v = none

/-- A directory that came and went leaves no trace. -/
theorem Inv.rollback (hR : CountRel 0xFFFF R) (h : Inv R S' held)
    (hnew : d ∉ S.dirs) (hdirs : S'.dirs = d :: S.dirs)
    (hoth : Others held S S' d) (hsafe : S'.SafeDestroy d) (c : Nat) :
    Inv R (S'.destroyPageDirectory c d) held ∧ Unseen held S (S'.destroyPageDirectory c d) := by
  have hd : d ∈ S'.dirs := hdirs ▸ mem_cons_self
  obtain ⟨h', hdirs', hmem', hker', hview'⟩ := h.destroyPageDirectory hR hd hsafe c
  have hback : (S'.destroyPageDirectory c d).dirs = S.dirs := by rw [hdirs', hdirs, erase_cons_head]
  refine ⟨h', ?_, hback, hker'.trans hoth.kernel, fun g hg => ?_⟩
  · funext d'
    obtain rfl | hdd := eq_or_ne d' d
    · funext v
      rw [view_eq_none hnew, view_eq_none (by rw [hback]; exact hnew)]
    · rw [hview' d' hdd, hoth.view d' hdd]
  · rw [hmem']
    exact hoth.mem g hg

/-- A process is created with a cleared stack, or what was allocated is given back. -/
theorem Inv.createProcessMemory (hR : CountRel 0xFFFF R) (h : Inv R S held)
    {c : Nat} (memOk : Bool) {dirOk : Bool} (hsafe : S.CreateSafe c dirOk) :
    (∃ S', S.createProcessMemory c memOk dirOk = (S', none) ∧ Inv R S' held ∧
      Unseen held S S') ∨
    ∃ S' d, S.createProcessMemory c memOk dirOk = (S', some d) ∧
      Inv R S' held ∧ Created held S S' d := by
  unfold Mm.createProcessMemory
  cases memOk with
  | false => exact .inl ⟨S, rfl, h, .refl _ _⟩
  | true =>
    rcases h.createPageDirectory hR c dirOk with
      ⟨S1, heq, h1, hun⟩ | ⟨S1, d, heq, h1, hnew, hdirs, hoth, hempty⟩
    · simp only [heq]
      exact .inl ⟨S1, rfl, h1, hun⟩
    · obtain ⟨S2, b, hmap, h2, hdirs2, hoth2, hview⟩ := h1.mapUserPages (c := c)
        hR (userFlags_present true) (userFlags_user true) nodup_stackPages
        (hdirs ▸ mem_cons_self) fun v hv =>
          ⟨isUser_of_mem_stackPages hv, by rw [pte_eq_view, hempty]; rfl⟩
      simp only [heq, hmap]
      cases b with
      | false =>
        obtain ⟨h3, hun⟩ := h2.rollback hR hnew (hdirs2.trans hdirs)
          (hoth.trans hoth2) (hsafe S1 d S2 heq hmap) c
        exact .inl ⟨_, rfl, h3, hun⟩
      | true =>
        obtain ⟨hin, hout⟩ := hview rfl
        exact .inr ⟨S2, d, rfl, h2, hnew, hdirs2.trans hdirs, hoth.trans hoth2,
          hin, fun v hv => (hout v hv).trans (hempty v)⟩

end UnixOs.Mm
