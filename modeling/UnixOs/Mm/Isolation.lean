import UnixOs.Mm.CowRefines
import UnixOs.Mm.Protect
import UnixOs.Mm.UserPointers

/-!
# Isolation of processes under `sys_mprotect` and `copy_to_user`

Processes are created and forked, store, fault, change the protection of their
pages and have the kernel copy into them. What one of them does must not change
what another loads. This holds along every run in which the pages that are made
writable, or written by the kernel, are private to the process (`IsoOk`).

The counts stay exact if the entries that `mprotect(PROT_NONE)` has cleared are
still counted: `lost` tells which directory has lost which frame that way.
-/

namespace UnixOs

open List Machine

/-- What the processes and the kernel on their behalf do. -/
inductive IsoEvent where
  | create (c : Nat) (memOk dirOk : Bool)
  | fork (c : Nat) (src : Frame) (memOk dirOk : Bool)
  | store (c : Nat) (d : Frame) (v : VPage) (i : Idx) (k : Fin 4) (x : BitVec 8)
  | cowFault (c : Nat) (d : Frame) (v : VPage)
  | mprotect (c : Nat) (d : Frame) (addr len prot : Word)
  | copyToUser (d : Frame) (dst src n : Word) (content : Nat → BitVec 8)

/-- The process that acts. -/
def IsoEvent.actor : IsoEvent → Option Frame
  | .create _ _ _ => none
  | .fork _ src _ _ => some src
  | .store _ d _ _ _ _ => some d
  | .cowFault _ d _ => some d
  | .mprotect _ d _ _ _ => some d
  | .copyToUser d _ _ _ _ => some d

namespace Mm

def isoStep (S : Mm) : IsoEvent → Mm
  | .create c memOk dirOk => (S.createProcessMemory c memOk dirOk).1
  | .fork c src memOk dirOk => (S.cloneProcessMemory c src memOk dirOk).1
  | .store c d v i k x => (S.userStore c d v i k x).1
  | .cowFault c d v => (S.handleCowFault c d v).1
  | .mprotect c d addr len prot => (S.sysMprotect c (some d) addr len prot).1
  | .copyToUser d dst src n content => (S.copyToUser d dst src n content).1

/-- The process that acts is live. -/
def LiveActor (S : Mm) (ev : IsoEvent) : Prop :=
  ∀ d, ev.actor = some d → d ∈ S.dirs

/-- The arguments pass the checks of `sys_mprotect`. -/
def ProtAccepted (addr len prot : Word) : Prop :=
  (addr ≠ 0 ∧ len ≠ 0) ∧ addr &&& ~~~ pageAddrMask = 0 ∧
    prot &&& ~~~ (protRead ||| protWrite ||| protExec) = 0 ∧
    ¬ addr < userCodeBase ∧ ¬ userSpaceEnd - addr < (len + 4096 - 1) &&& pageAddrMask

/-- Roll-backs are safe; a range whose protection changes does not wrap, and its
pages are private if they become writable; the kernel copies above the identity
map, to private pages. -/
def IsoOk (S : Mm) (ev : IsoEvent) : Prop :=
  S.LiveActor ev ∧
    match ev with
    | .create c _ dirOk => S.CreateSafe c dirOk
    | .fork c src memOk dirOk => S.CloneSafe c src memOk dirOk
    | .store _ _ _ _ _ _ => True
    | .cowFault _ _ _ => True
    | .mprotect _ d addr len prot => ProtAccepted addr len prot →
        addr ≤ userSpaceEnd ∧
          (prot &&& protWrite ≠ 0 → ∀ v ∈ protPages addr len, S.PrivatePage d v)
    | .copyToUser d dst src n content =>
        (UserCopy.toUser dst src n content).Passes S d n.toNat →
          identityMapEnd ≤ dst ∧ ∀ a ∈ addrRange dst n.toNat, S.PrivatePage d a.vpage

/-- The pages a copy of the kernel goes through have a count of one. -/
def CopiesPrivately (S : Mm) : IsoEvent → Prop
  | .copyToUser d dst src n content =>
    (UserCopy.toUser dst src n content).Passes S d n.toNat →
      ∀ a ∈ addrRange dst n.toNat,
        ∃ w, S.pte d a.vpage = some w ∧ S.refcount w.frame = 1
  | _ => True

/-- No other process loads another byte than before; no entry is writable while
its frame has another count than one; no copy goes through an entry whose frame
has another count. -/
def Isolated (S : Mm) (ev : IsoEvent) : Prop :=
  (∀ d ∈ S.dirs, ev.actor ≠ some d → ∀ v i k,
    (S.isoStep ev).userLoad d v i k = S.userLoad d v i k) ∧
  (∀ d v w, (S.isoStep ev).pte d v = some w → w.writable = true →
    (S.isoStep ev).refcount w.frame = 1) ∧
  S.CopiesPrivately ev

variable {S S' : Mm} {held : Frame → Nat} {d p f : Frame} {v : VPage} {w : Word}
  {c : Nat} {flags : Flags} {a : Option Frame}

/-! ## Lost references -/

/-- How often a frame was lost. -/
def lostCount (lost : Finset (Frame × Frame)) (f : Frame) : Nat :=
  (lost.filter fun x => x.2 = f).card

/-- What a live directory has lost it does not map. -/
structure LostInv (S : Mm) (lost : Finset (Frame × Frame)) : Prop where
  live : ∀ {d f}, (d, f) ∈ lost → d ∈ S.dirs
  unmapped : ∀ {d f v}, (d, f) ∈ lost → S.ptr (.entry d v) ≠ some f

variable {lost : Finset (Frame × Frame)}

theorem lostCount_insert (h : (d, f) ∉ lost) :
    lostCount (insert (d, f) lost) = bump (lostCount lost) f := by
  funext g
  rw [lostCount, Finset.filter_insert]
  obtain rfl | hg := eq_or_ne f g
  · rw [if_pos rfl, bump_self, Finset.card_insert_of_notMem fun hm => h (Finset.mem_filter.1 hm).1]
    rfl
  · rw [if_neg hg, bump_of_ne (Ne.symm hg)]
    rfl

theorem lostCount_pos (h : (d, f) ∈ lost) : 0 < lostCount lost f :=
  Finset.card_pos.2 ⟨(d, f), Finset.mem_filter.2 ⟨h, rfl⟩⟩

/-- A frame is lost at most once by each directory. -/
theorem LostInv.fewHeld (h : LostInv S lost)
    (hinv : Inv (· = ·) S held) : FewHeld (lostCount lost) := by
  intro f
  have hle : lostCount lost f ≤ (Finset.Ico heapEndFrame identityEndFrame).card := by
    refine Finset.card_le_card_of_injOn (fun x => x.1.val) ?_ ?_
    · intro x hx
      have hlive := h.live (Finset.mem_filter.1 (Finset.mem_coe.1 hx)).1
      have hpool : x.1.Pool := hinv.alloc.pool
        (Nat.add_pos_left (refCount.pos_of_mem (ptr_dir hlive)) _)
      exact Finset.mem_coe.2 (Finset.mem_Ico.2 hpool)
    · intro x hx y hy he
      have hxf := (Finset.mem_filter.1 (Finset.mem_coe.1 hx)).2
      have hyf := (Finset.mem_filter.1 (Finset.mem_coe.1 hy)).2
      exact Prod.ext (Fin.ext he) (hxf.trans hyf.symm)
  rw [Nat.card_Ico] at hle
  simp only [heapEndFrame, identityEndFrame] at hle ⊢
  omega

/-- What a step that loses nothing has to keep. -/
theorem LostInv.step (h : LostInv S lost) (hdirs : ∀ d ∈ S.dirs, d ∈ S'.dirs)
    (hptr : ∀ d ∈ S.dirs, ∀ v f, S'.ptr (.entry d v) = some f →
      S.ptr (.entry d v) = some f ∨ lostCount lost f = 0) : LostInv S' lost := by
  refine ⟨fun hm => hdirs _ (h.live hm), fun {d f v} hm hf => ?_⟩
  rcases hptr d (h.live hm) v f hf with hold | hzero
  · exact h.unmapped hm hold
  · exact absurd (lostCount_pos hm) (by omega)

/-- The counts are exact, lost references included. -/
def IsoInv (S : Mm) : Prop :=
  ∃ lost, Inv (· = ·) S (lostCount lost) ∧ LostInv S lost

/-- At first nothing is lost. -/
theorem Inv.isoInv (h : Inv (· = ·) S noneHeld) : IsoInv S := by
  refine ⟨∅, ?_, fun hm => absurd hm (Finset.notMem_empty _),
    fun hm => absurd hm (Finset.notMem_empty _)⟩
  exact h

/-- A writable entry is the only reference to its frame. -/
theorem IsoInv.refcount_eq_one (h : IsoInv S) (hw : S.pte d v = some w)
    (hwr : w.writable = true) : S.refcount w.frame = 1 := by
  obtain ⟨lost, hinv, -⟩ := h
  exact (hinv.refcount_eq hw).symm.trans (hinv.space.writable hw hwr)

/-! ## Steps confined to one process -/

/-- The processes other than `a` live on and see the same. -/
structure Confined (a : Option Frame) (S S' : Mm) : Prop where
  dirs : ∀ d ∈ S.dirs, d ∈ S'.dirs
  view : ∀ d ∈ S.dirs, a ≠ some d → S'.view d = S.view d

theorem Confined.refl (a : Option Frame) (S : Mm) : Confined a S S :=
  ⟨fun _ hd => hd, fun _ _ _ => rfl⟩

theorem Confined.trans {S'' : Mm} (h : Confined a S S') (h' : Confined a S' S'') :
    Confined a S S'' :=
  ⟨fun d hd => h'.dirs d (h.dirs d hd),
    fun d hd ha => (h'.view d (h.dirs d hd) ha).trans (h.view d hd ha)⟩

theorem Unseen.confined (h : Unseen held S S') (a : Option Frame) : Confined a S S' :=
  ⟨fun _ hd => h.dirs ▸ hd, fun _ _ _ => by rw [h.view]⟩

theorem Sets.confined {x : Option (Word × (Idx → Word))}
    (h : Sets held S S' d v x) : Confined (some d) S S' := by
  refine ⟨fun _ hd => h.dirs ▸ hd, fun d' _ ha => ?_⟩
  funext v'
  rw [h.view, if_neg fun hc => ha (congrArg some hc.1.symm)]

theorem ptr_entry_eq_view (S : Mm) (d : Frame) (v : VPage) :
    S.ptr (.entry d v) = (S.view d v).map fun y => y.1.frame := by
  rw [ptr, pte_eq_view, Option.map_map]
  rfl

theorem map_frame_share (x : Option (Word × (Idx → Word))) :
    (share x).map (fun y => y.1.frame) = x.map fun y => y.1.frame := by
  cases x with
  | none => rfl
  | some y => exact congrArg some frame_shareWord

/-- Only the process that acts can come to map a frame it has lost. -/
theorem LostInv.confined (h : LostInv S lost) (hconf : Confined a S S')
    (hactor : ∀ d, a = some d → ∀ v f, S'.ptr (.entry d v) = some f →
      S.ptr (.entry d v) = some f ∨ lostCount lost f = 0) : LostInv S' lost := by
  refine h.step hconf.dirs fun d hd v f hf => ?_
  by_cases ha : a = some d
  · exact hactor d ha v f hf
  · rw [ptr_entry_eq_view, hconf.view d hd ha, ← ptr_entry_eq_view] at hf
    exact .inl hf

theorem LostInv.unseen (h : LostInv S lost) (hun : Unseen held S S') : LostInv S' lost := by
  refine h.confined (hun.confined none) fun d ha => ?_
  cases ha

/-- A page of a process may be replaced by a writable one. -/
theorem LostInv.sets {ws : Idx → Word} (h : LostInv S lost) (hinv : Inv (· = ·) S' (lostCount lost))
    (hset : Sets held S S' d v (some (w, ws))) (hwr : w.writable = true) : LostInv S' lost := by
  refine h.confined hset.confined fun d' hd' v' f hf => ?_
  rw [ptr_entry_eq_view, hset.view] at hf
  split at hf
  · have hpte : S'.pte d v = some w := by
      rw [pte_eq_view, hset.view, if_pos ⟨rfl, rfl⟩]
      rfl
    have hone := hinv.space.writable hpte hwr
    have hpos : 0 < S'.refs w.frame := refCount.pos_of_mem (ptr_entry_of_pte hpte)
    obtain rfl : w.frame = f := Option.some.inj hf
    exact .inr (by omega)
  · rw [ptr_entry_eq_view]
    exact .inl hf

/-! ## Creating, forking, storing -/

section

variable (h : IsoInv S)
include h

/-- A new process changes no other one. -/
theorem IsoInv.create (memOk : Bool) {dirOk : Bool} (hsafe : S.CreateSafe c dirOk) :
    IsoInv (S.createProcessMemory c memOk dirOk).1 ∧
      Confined none S (S.createProcessMemory c memOk dirOk).1 := by
  obtain ⟨lost, hinv, hlost⟩ := h
  rcases hinv.createProcessMemory (countRel_eq 0xFFFF) memOk hsafe with
    ⟨S', heq, h', hun⟩ | ⟨S', d, heq, h', hcr⟩
  · rw [heq]
    exact ⟨⟨lost, h', hlost.unseen hun⟩, hun.confined none⟩
  · rw [heq]
    have hconf : Confined none S S' := by
      constructor
      · intro d' hd'
        rw [hcr.dirs]
        exact .tail d hd'
      · intro d' hd' _
        refine hcr.others.view d' ?_
        rintro rfl
        exact hcr.fresh hd'
    refine ⟨⟨lost, h', hlost.confined hconf fun d' ha => ?_⟩, hconf⟩
    cases ha

/-- A fork changes the parent at most. -/
theorem IsoInv.fork {src : Frame} (hsrc : src ∈ S.dirs)
    {memOk dirOk : Bool} (hsafe : S.CloneSafe c src memOk dirOk) :
    IsoInv (S.cloneProcessMemory c src memOk dirOk).1 ∧
      Confined (some src) S (S.cloneProcessMemory c src memOk dirOk).1 := by
  obtain ⟨lost, hinv, hlost⟩ := h
  rcases hinv.cloneProcessMemory (countRel_eq 0xFFFF) (hlost.fewHeld hinv) hsrc hsafe
    with ⟨S', heq, h', hunf⟩ | ⟨S', dst, heq, h', hcl⟩
  · rw [heq]
    have hconf : Confined (some src) S S' :=
      ⟨fun d hd => hunf.dirs ▸ hd, fun d _ ha => hunf.others d fun he => ha (congrArg some he.symm)⟩
    refine ⟨⟨lost, h', hlost.confined hconf fun d ha v f hf => .inl ?_⟩, hconf⟩
    cases ha
    rw [ptr_entry_eq_view] at hf ⊢
    rcases hunf.parent v with hv | hv
    · rw [← hv]
      exact hf
    · rw [hv, map_frame_share] at hf
      exact hf
  · rw [heq]
    have hconf : Confined (some src) S S' := by
      constructor
      · intro d hd
        rw [hcl.dirs]
        exact .tail dst hd
      · intro d hd ha
        refine hcl.others d (fun he => ha (congrArg some he.symm)) ?_
        rintro rfl
        exact hcl.fresh hd
    refine ⟨⟨lost, h', hlost.confined hconf fun d ha v f hf => .inl ?_⟩, hconf⟩
    cases ha
    rw [ptr_entry_eq_view, hcl.parent, map_frame_share] at hf
    rw [ptr_entry_eq_view]
    exact hf

theorem IsoInv.store (hd : d ∈ S.dirs) (v : VPage) (i : Idx) (k : Fin 4) (x : BitVec 8) :
    IsoInv (S.userStore c d v i k x).1 ∧ Confined (some d) S (S.userStore c d v i k x).1 := by
  obtain ⟨lost, hinv, hlost⟩ := h
  rcases hinv.userStore (countRel_eq 0xFFFF) hd c v i k x with
    ⟨S', heq, h', hun⟩ | ⟨S', w, w', heq, h', -, -, hwr, hset⟩
  · rw [heq]
    exact ⟨⟨lost, h', hlost.unseen hun⟩, hun.confined _⟩
  · rw [heq]
    exact ⟨⟨lost, h', hlost.sets h' hset hwr⟩, hset.confined⟩

theorem IsoInv.cowFault (hd : d ∈ S.dirs) (v : VPage) :
    IsoInv (S.handleCowFault c d v).1 ∧ Confined (some d) S (S.handleCowFault c d v).1 := by
  obtain ⟨lost, hinv, hlost⟩ := h
  rcases hinv.handleCowFault (countRel_eq 0xFFFF) hd c v with
    ⟨S', heq, h', hun⟩ | ⟨S', w, f, heq, -, -, h', hset⟩
  · rw [heq]
    exact ⟨⟨lost, h', hlost.unseen hun⟩, hun.confined _⟩
  · rw [heq]
    refine ⟨⟨lost, h', hlost.sets h' hset ?_⟩, hset.confined⟩
    rw [writable_entry, unshareFlags_writable]

end

/-! ## Protection -/

/-- A page that stays present: the process maps the same frame. -/
theorem IsoInv.reprotect (h : IsoInv S) (ht : S.table d v.1 = some p)
    (hw : S.pte d v = some w) (hp : flags.present = true) (hu : flags.user = true)
    (hpriv : flags.writable = true → S.PrivatePage d v) :
    IsoInv (S.setWord p v.2 (.entry w.frame flags)) ∧
      Confined (some d) S (S.setWord p v.2 (.entry w.frame flags)) := by
  obtain ⟨lost, hinv, hlost⟩ := h
  obtain ⟨h', hset⟩ := hinv.reprotect ht hw hp hu hpriv
  refine ⟨⟨lost, h', hlost.confined hset.confined fun d' ha v' f hf => .inl ?_⟩, hset.confined⟩
  rw [ptr_entry_eq_view, hset.view] at hf
  split at hf
  · next hc =>
    rw [Option.map_some, Word.frame_entry] at hf
    rw [hc.1, hc.2, ptr_entry_of_pte hw]
    exact hf
  · rw [ptr_entry_eq_view]
    exact hf

/-- A page that goes: its frame is lost. -/
theorem IsoInv.forget (h : IsoInv S) (ht : S.table d v.1 = some p)
    (hw : S.pte d v = some w) (hp : flags.present = false) :
    IsoInv (S.setWord p v.2 (.entry w.frame flags)) ∧
      Confined (some d) S (S.setWord p v.2 (.entry w.frame flags)) := by
  obtain ⟨lost, hinv, hlost⟩ := h
  have hptr := ptr_entry_of_pte hw
  have hnew : (d, w.frame) ∉ lost := fun hm => hlost.unmapped hm hptr
  obtain ⟨h', hset⟩ := hinv.forget ht hw hp
  have hold : ∀ {d' v' f}, (S.setWord p v.2 (.entry w.frame flags)).ptr (.entry d' v')
      = some f → ¬ (d' = d ∧ v' = v) ∧ S.ptr (.entry d' v') = some f := by
    intro d' v' f hf
    rw [ptr_entry_eq_view, hset.view] at hf
    split at hf
    · cases hf
    · next hc =>
      rw [ptr_entry_eq_view]
      exact ⟨hc, hf⟩
  refine ⟨⟨insert (d, w.frame) lost, ?_, ?_, ?_⟩, hset.confined⟩
  · rw [lostCount_insert hnew]
    exact h'
  · intro d' f hm
    rcases Finset.mem_insert.1 hm with he | hm
    · cases he
      exact (table_eq_some.1 ht).1
    · exact hlost.live hm
  · intro d' f v' hm hf
    obtain ⟨hc, hf⟩ := hold hf
    rcases Finset.mem_insert.1 hm with he | hm
    · cases he
      exact hc ⟨rfl, hinv.space.injective hf hptr⟩
    · exact hlost.unmapped hm hf

/-- A page whose new entry may be written to is private again. -/
theorem PrivatePage.setEntry {v' : VPage} (hs : SpaceInv S held)
    (ht : S.table d v.1 = some p) (hwr : flags.writable = true) (h : S.PrivatePage d v') :
    (S.setWord p v.2 (.entry f flags)).PrivatePage d v' := by
  intro w' hw'
  rw [pte_setEntry hs ht] at hw'
  split at hw'
  · obtain ⟨-, rfl⟩ := asEntry_eq_some.1 hw'
    exact .inl (by rw [writable_entry, hwr])
  · exact h w' hw'

/-- A page becomes writable only where it is private. -/
theorem IsoInv.mprotectPage (h : IsoInv S) (hd : d ∈ S.dirs) (hv : v.1.IsUser)
    (hu : flags.user = true) (hpriv : flags.writable = true → S.PrivatePage d v) :
    (IsoInv (S.mprotectPage c d flags v) ∧
      Confined (some d) S (S.mprotectPage c d flags v)) ∧
    ∀ v', flags.writable = true → S.PrivatePage d v' →
      (S.mprotectPage c d flags v).PrivatePage d v' := by
  obtain ⟨lost, hinv, hlost⟩ := id h
  rcases hinv.mprotectPage_eq hd hv c flags with ⟨-, heq⟩ | ⟨w, p, hw, ht, heq⟩
  · rw [heq]
    exact ⟨⟨h, .refl _ _⟩, fun _ _ hv' => hv'⟩
  · rw [heq]
    refine ⟨?_, fun v' hwr hv' => hv'.setEntry hinv.space ht hwr⟩
    cases hp : flags.present with
    | true => exact h.reprotect ht hw hp hu hpriv
    | false => exact h.forget ht hw hp

/-- The loop of `sys_mprotect`. -/
theorem IsoInv.mprotectPages (hu : flags.user = true) {as : List Word} :
    ∀ {S : Mm}, IsoInv S → d ∈ S.dirs → (∀ b ∈ as, b.vpage.1.IsUser) →
      (flags.writable = true → ∀ b ∈ as, S.PrivatePage d b.vpage) →
      IsoInv (as.foldl (fun S b => S.mprotectPage c d flags b.vpage) S) ∧ Confined (some d) S
          (as.foldl (fun S b => S.mprotectPage c d flags b.vpage) S) := by
  induction as with
  | nil => exact fun h _ _ _ => ⟨h, .refl _ _⟩
  | cons b as ih =>
    intro S h hd hus hpriv
    obtain ⟨⟨h1, hconf1⟩, hkeep⟩ := h.mprotectPage hd
      (hus b mem_cons_self) hu fun hwr => hpriv hwr b mem_cons_self
    obtain ⟨h2, hconf2⟩ := ih h1 (hconf1.dirs d hd)
      (fun b' hb' => hus b' (.tail b hb'))
      fun hwr b' hb' => hkeep _ hwr (hpriv hwr b' (.tail b hb'))
    exact ⟨h2, hconf1.trans hconf2⟩

/-- The pages of the range in turn. -/
theorem IsoInv.mprotect (h : IsoInv S) (hd : d ∈ S.dirs) {addr len prot : Word}
    (hok : ProtAccepted addr len prot → addr ≤ userSpaceEnd ∧
      (prot &&& protWrite ≠ 0 → ∀ v ∈ protPages addr len, S.PrivatePage d v)) :
    IsoInv (S.sysMprotect c (some d) addr len prot).1 ∧
      Confined (some d) S (S.sysMprotect c (some d) addr len prot).1 := by
  have hself : IsoInv S ∧ Confined (some d) S S := ⟨h, .refl _ _⟩
  rw [sysMprotect]
  split
  · exact hself
  next hnull =>
  split
  · exact hself
  next halign =>
  split
  · exact hself
  next hprot =>
  dsimp only
  split
  · exact hself
  next hcode =>
  split
  · exact hself
  next hlen =>
  obtain ⟨haddr, hpriv⟩ := hok ⟨not_or.1 hnull, not_not.1 halign, not_not.1 hprot, hcode, hlen⟩
  refine h.mprotectPages (protFlags_user prot) hd (fun b hb => ?_) fun hwr b hb => ?_
  · exact isUser_of_mem_protPages haddr hcode hlen (mem_map_of_mem hb)
  · exact hpriv (protFlags_writable hwr) _ (mem_map_of_mem hb)

/-! ## Copies of the kernel -/

/-- The page is mapped, and by one entry only. -/
def MappedOnce (S : Mm) (held : Frame → Nat) (d : Frame) (v : VPage) : Prop :=
  v.1.IsUser ∧ ∃ w, S.pte d v = some w ∧ S.refs w.frame + held w.frame = 1

theorem Inv.kernelStore (h : Inv (· = ·) S held) (hd : d ∈ S.dirs) {b : Word}
    (hb : S.MappedOnce held d b.vpage) (x : BitVec 8) :
    Inv (· = ·) (S.kernelStore d b x) held ∧ Confined (some d) S (S.kernelStore d b x) ∧
      (S.kernelStore d b x).pte = S.pte ∧ (S.kernelStore d b x).refs = S.refs := by
  obtain ⟨hu, w, hw, hone⟩ := hb
  have hns := h.space.notStruct_of_entry (ptr_entry_of_pte hw)
  rw [Mm.kernelStore, lookup_eq_pte hd hu, hw]
  exact ⟨h.setPage hw _, (sets_setFrame h.space hw hone _).confined,
    pte_setFrame hns _, refs_setFrame hns _⟩

/-- The `kmemcpy` of `copy_to_user`. -/
theorem Inv.storeBytes {bs : List (Word × BitVec 8)} :
    ∀ {S : Mm}, Inv (· = ·) S held → d ∈ S.dirs →
      (∀ b ∈ bs, S.MappedOnce held d b.1.vpage) →
      Inv (· = ·) (Mm.storeBytes d S bs) held ∧ Confined (some d) S (Mm.storeBytes d S bs) ∧
        (Mm.storeBytes d S bs).pte = S.pte := by
  induction bs with
  | nil => exact fun h _ _ => ⟨h, .refl _ _, rfl⟩
  | cons b bs ih =>
    intro S h hd hbs
    obtain ⟨h1, hconf1, hpte1, hrefs1⟩ := h.kernelStore hd (hbs b mem_cons_self) b.2
    have hrest : ∀ b' ∈ bs, (S.kernelStore d b.1 b.2).MappedOnce held d b'.1.vpage := by
      intro b' hb'
      rw [MappedOnce, hpte1, hrefs1]
      exact hbs b' (.tail b hb')
    obtain ⟨h2, hconf2, hpte2⟩ := ih h1 (hconf1.dirs d hd) hrest
    exact ⟨h2, hconf1.trans hconf2, hpte2.trans hpte1⟩

/-- Above the identity map a copy that passes the checks reaches mapped pages. -/
theorem mapped_of_passes {dst src n : Word} {content : Nat → BitVec 8} (hd : d ∈ S.dirs)
    (hpass : (UserCopy.toUser dst src n content).Passes S d n.toNat)
    (hlow : identityMapEnd ≤ dst) {b : Word} (hb : b ∈ addrRange dst n.toNat) :
    b.vpage.1.IsUser ∧ ∃ w, S.pte d b.vpage = some w := by
  obtain ⟨-, -, hend, hres⟩ := hpass.range
  have hstart : identityMapEnd.toNat = 0x2000000 := rfl
  replace hend : dst.toNat + n.toNat ≤ 0xC0000000 := hend
  obtain ⟨hge, hlt⟩ := (mem_addrRange_iff (by omega)).1 hb
  rw [BitVec.le_def] at hlow
  have hu : b.vpage.1.IsUser := by
    refine isUser_vpageOf ?_ ?_
    · simp only [Word.frame]
      omega
    · simp only [Word.frame]
      omega
  obtain ⟨w, hw, -⟩ := userAddrResident_iff.1 (hres b hb)
  exact ⟨hu, w, (lookup_eq_pte hd hu).symm.trans hw⟩

/-- The copy writes to pages of the caller, which are private. -/
theorem IsoInv.copyToUser (h : IsoInv S) (hd : d ∈ S.dirs) {dst src n : Word}
    {content : Nat → BitVec 8}
    (hok : (UserCopy.toUser dst src n content).Passes S d n.toNat →
      identityMapEnd ≤ dst ∧ ∀ b ∈ addrRange dst n.toNat, S.PrivatePage d b.vpage) :
    IsoInv (S.copyToUser d dst src n content).1 ∧
      Confined (some d) S (S.copyToUser d dst src n content).1 := by
  have hself : IsoInv S ∧ Confined (some d) S S := ⟨h, .refl _ _⟩
  obtain ⟨lost, hinv, hlost⟩ := h
  rw [Mm.copyToUser]
  split
  · exact hself
  next hptr =>
  split
  · exact hself
  next hn =>
  split
  · exact hself
  next hacc =>
  split
  · exact hself
  next hres =>
  have hpass : (UserCopy.toUser dst src n content).Passes S d n.toNat :=
    ⟨(not_or.1 hptr).1, (not_or.1 hptr).2, hn, by simpa using hacc, by simpa using hres, rfl⟩
  obtain ⟨hlow, hpriv⟩ := hok hpass
  have honce : ∀ b ∈ (List.range n.toNat).map fun k =>
      (dst + BitVec.ofNat 32 k, content k),
      S.MappedOnce (lostCount lost) d b.1.vpage := by
    intro b hb
    obtain ⟨k, hk, rfl⟩ := mem_map.1 hb
    have hmem : dst + BitVec.ofNat 32 k ∈ addrRange dst n.toNat :=
      mem_addrRange.2 ⟨k, mem_range.1 hk, rfl⟩
    obtain ⟨hu, w, hw⟩ := mapped_of_passes hd hpass hlow hmem
    exact ⟨hu, w, hw, hinv.refs_of_private (hpriv _ hmem) hw⟩
  obtain ⟨h', hconf, hpte⟩ := hinv.storeBytes hd honce
  refine ⟨⟨lost, h', hlost.confined hconf fun d' _ v f hf => .inl ?_⟩, hconf⟩
  rw [ptr, hpte] at hf
  exact hf

/-! ## Runs -/

theorem IsoInv.step (h : IsoInv S) {ev : IsoEvent} (hok : S.IsoOk ev) :
    IsoInv (S.isoStep ev) ∧ Confined ev.actor S (S.isoStep ev) := by
  obtain ⟨hlive, hok⟩ := hok
  cases ev with
  | create c memOk dirOk => exact h.create memOk hok
  | fork c src memOk dirOk => exact h.fork (hlive src rfl) hok
  | store c d v i k x => exact h.store (hlive d rfl) v i k x
  | cowFault c d v => exact h.cowFault (hlive d rfl) v
  | mprotect c d addr len prot => exact h.mprotect (hlive d rfl) hok
  | copyToUser d dst src n content => exact h.copyToUser (hlive d rfl) hok

theorem IsoInv.copiesPrivately (h : IsoInv S) {ev : IsoEvent} (hok : S.IsoOk ev) :
    S.CopiesPrivately ev := by
  obtain ⟨hlive, hok⟩ := hok
  cases ev with
  | copyToUser d dst src n content =>
    intro hpass b hb
    obtain ⟨hlow, hpriv⟩ := hok hpass
    obtain ⟨-, w, hw⟩ := mapped_of_passes (hlive d rfl) hpass hlow hb
    refine ⟨w, hw, ?_⟩
    obtain ⟨lost, hinv, -⟩ := h
    rw [← hinv.refcount_eq hw]
    exact hinv.refs_of_private (hpriv b hb) hw
  | _ => trivial

theorem IsoInv.isolated (h : IsoInv S) {ev : IsoEvent} (hok : S.IsoOk ev) : S.Isolated ev := by
  obtain ⟨h', hconf⟩ := h.step hok
  refine ⟨fun d hd ha v i k => ?_, fun d v w => h'.refcount_eq_one, h.copiesPrivately hok⟩
  obtain ⟨lost, hinv, -⟩ := h
  obtain ⟨lost', hinv', -⟩ := h'
  rw [userLoad_eq hinv'.space (hconf.dirs d hd), userLoad_eq hinv.space hd, hconf.view d hd ha]

/-- Along every run in which pages become writable and are copied to only while
they are private, every step leaves the other processes alone. -/
theorem isolated_of_privatePages (L : KernelLayout) (mem : Frame → Idx → Word)
    {evs : List IsoEvent} (hrun : Along isoStep IsoOk (pagingInit L mem) evs) :
    Along isoStep Isolated (pagingInit L mem) evs := by
  refine along_iff_split.2 fun es1 ev es2 hes => ?_
  subst hes
  obtain ⟨hfront, hok, -⟩ := along_append.1 hrun
  refine IsoInv.isolated ?_ hok
  exact run_invariant (fun S e h he => (h.step he).1) (inv_pagingInit L mem).isoInv hfront

/-- The one party of a call is live. -/
theorem live_of_mem (h : d ∈ S.dirs) : ∀ d', some d = some d' → d' ∈ S.dirs := by
  intro d' hd
  cases hd
  exact h

/-- A process is created and forks; the child makes a page of its stack read-only
and the parent stores to it. -/
def readOnlyRun (dst : Frame) : List IsoEvent :=
  [.create 0 true true, .fork 0 2816 true true,
    .mprotect 0 dst 0x7FFE8000 4096 1, .store 0 2816 (511, 1000) 0 0 7]

theorem isolated_readOnlyRun :
    ∃ dst, Along isoStep IsoOk bootMm (readOnlyRun dst) ∧
      Along isoStep Isolated bootMm (readOnlyRun dst) := by
  obtain ⟨S1, S2, dst, heq1, -, heq2, -, h2, -, hmem1, hmem2, hdst, -⟩ := exists_fork_bootMm
  have hstep1 : bootMm.isoStep (.create 0 true true) = S1 := by rw [isoStep, heq1]
  have hstep2 : S1.isoStep (.fork 0 2816 true true) = S2 := by rw [isoStep, heq2]
  have hprot : S2.IsoOk (.mprotect 0 dst 0x7FFE8000 4096 1) := by
    exact ⟨live_of_mem hdst, fun _ => ⟨by decide, absurd rfl⟩⟩
  have hcreate : (bootMm.createProcessMemory 0 true true).2 = some 2816 := by rw [heq1]
  have hclone : (S1.cloneProcessMemory 0 2816 true true).2 = some dst := by rw [heq2]
  have hrun : Along isoStep IsoOk bootMm (readOnlyRun dst) := by
    refine ⟨⟨fun d hd => ?_, ?_⟩, ?_, ?_, ?_, trivial⟩
    · cases hd
    · exact createSafe_of_some hcreate
    · rw [hstep1]
      exact ⟨live_of_mem hmem1, cloneSafe_of_some hclone⟩
    · rw [hstep1, hstep2]
      exact hprot
    · rw [hstep1, hstep2]
      exact ⟨live_of_mem ((h2.isoInv.step hprot).2.dirs _ hmem2), trivial⟩
  exact ⟨dst, hrun, isolated_of_privatePages lowLayout _ hrun⟩

/-! ## A page made writable while it is shared -/

theorem userTranslate_congr (hdir : S'.mem d v.1 = S.mem d v.1)
    (htab : S'.mem (S.mem d v.1).frame v.2 = S.mem (S.mem d v.1).frame v.2)
    (write : Bool) : S'.userTranslate d v write = S.userTranslate d v write := by
  simp only [userTranslate, hdir, htab]

/-- The walk over an entry that has just been stored. -/
theorem userTranslate_setEntry (h : SpaceInv S held) (ht : S.table d v.1 = some p)
    (f : Frame) (hp : flags.present = true) (hu : flags.user = true)
    (hwr : flags.writable = true) (write : Bool) :
    (S.setWord p v.2 (.entry f flags)).userTranslate d v write = .ok f := by
  have hdir := mem_setEntry_dir (j := v.2) (w := .entry f flags) h ht (table_eq_some.1 ht).1
  obtain ⟨hpu, hpw⟩ := h.userPde ht
  obtain ⟨-, -, hpp, rfl⟩ := table_eq_some.1 ht
  simp only [userTranslate, hdir, mem_setWord_self, hpp, hpu, hpw, present_entry, hp,
    user_entry, hu, writable_entry, hwr, Word.frame_entry, Bool.not_true, Bool.and_self,
    Bool.and_false, Bool.false_eq_true, if_false]

/-- The child makes a page of the stack writable that it shares with its parent,
and stores to it. -/
def protectRun (dst : Frame) : List IsoEvent :=
  [.create 0 true true, .fork 0 2816 true true,
    .mprotect 0 dst 0x7FFE8000 4096 3, .store 0 dst (511, 1000) 0 0 7]

/-- The parent loads what the child stored. -/
theorem protectRun_not_isolated :
    ∃ dst, Along isoStep LiveActor bootMm (protectRun dst) ∧
      (run isoStep bootMm ((protectRun dst).take 3)).userLoad 2816 (511, 1000) 0 0 = some 0 ∧
      (run isoStep bootMm (protectRun dst)).userLoad 2816 (511, 1000) 0 0
        = some 7 ∧ ¬ Along isoStep Isolated bootMm (protectRun dst) := by
  obtain ⟨S1, S2, dst, heq1, hcr, heq2, hcl, h2, -, hmem1, hmem2, hdst, hne⟩ := exists_fork_bootMm
  have hstep1 : bootMm.isoStep (.create 0 true true) = S1 := by rw [isoStep, heq1]
  have hstep2 : S1.isoStep (.fork 0 2816 true true) = S2 := by rw [isoStep, heq2]
  -- Both map the same cleared frame `f`.
  obtain ⟨f, hf⟩ := hcr.stack (511, 1000) (mem_map.2 ⟨1000, mem_idxRange.2 (by decide), rfl⟩)
  set w : Word := shareWord (.entry f (userFlags true)) with hwdef
  have hwf : w.frame = f := frame_shareWord.trans (Word.frame_entry _ _)
  have hparent := view_eq_some.1 (show S2.view 2816 (511, 1000) = some (w, fun _ => 0) by
    rw [hcl.parent, hf]
    rfl)
  have hchild := view_eq_some.1 (show S2.view dst (511, 1000) = some (w, fun _ => 0) by
    rw [hcl.child, hf]
    rfl)
  obtain ⟨q, htq, -, -⟩ := pte_eq_some.1 hparent.1
  obtain ⟨p, htp, -, -⟩ := pte_eq_some.1 hchild.1
  have hns := h2.space.notStruct_of_entry (ptr_entry_of_pte hparent.1)
  have hqp : q ≠ p := fun he => hne (h2.space.table_inj htq (he ▸ htp)).1
  obtain ⟨-, -, -, hq⟩ := table_eq_some.1 htq
  set S3 := S2.setWord p 1000 (.entry f (protFlags 3)) with hS3
  have hstep3 : S2.isoStep (.mprotect 0 dst 0x7FFE8000 4096 3) = S3 := by
    have hpage : S2.mprotectPage 0 dst (protFlags 3) (511, 1000) = S3 := by
      rcases h2.mprotectPage_eq (v := (511, 1000)) hdst (by decide) 0 (protFlags 3) with
        ⟨hnone, -⟩ | ⟨w', p', hw', hp', heq⟩
      · rw [hchild.1] at hnone
        cases hnone
      · obtain rfl := Option.some.inj (htp.symm.trans hp')
        obtain rfl := Option.some.inj (hchild.1.symm.trans hw')
        rw [heq, hwf]
    rw [isoStep, sysMprotect]
    rw [if_neg (by decide)]
    exact hpage
  have hstep4 : S3.isoStep (.store 0 dst (511, 1000) 0 0 7) = S3.setByte f 0 0 7 := by
    rw [isoStep, userStore, userTranslate_setEntry h2.space htp f
      (by decide) (by decide) (by decide)]
  -- The walk of the parent is the same in all three states.
  have hwalk2 : S2.userTranslate 2816 (511, 1000) false = .ok f := by
    rw [userTranslate_of_pte h2.space hparent.1, hwf]
    rfl
  have hwalk3 : S3.userTranslate 2816 (511, 1000) false = .ok f := by
    refine (userTranslate_congr ?_ ?_ false).trans hwalk2
    · rw [mem_setWord_of_frame_ne _ _ _ (h2.space.ne_dir_of_table htp hmem2)]
    · rw [mem_setWord_of_frame_ne _ _ _ (hq ▸ hqp)]
  have hwalk4 : (S3.setByte f 0 0 7).userTranslate 2816 (511, 1000) false = .ok f := by
    have hdir3 : S3.mem 2816 = S2.mem 2816 :=
      mem_setWord_of_frame_ne _ _ _ (h2.space.ne_dir_of_table htp hmem2)
    refine (userTranslate_congr ?_ ?_ false).trans hwalk3
    · rw [setByte, mem_setWord_of_frame_ne _ _ _ (hwf ▸ hns.ne_dir hmem2)]
    · rw [setByte, hdir3, mem_setWord_of_frame_ne _ _ _ (by
        rw [hq]
        exact hwf ▸ hns.ne_table htq)]
  have hcontent : S3.mem f 0 = 0 := by
    rw [mem_setWord_of_frame_ne _ _ _ (hwf ▸ (hns.ne_table htp).symm), ← hwf, hparent.2]
  have hload3 : S3.userLoad 2816 (511, 1000) 0 0 = some 0 := by
    rw [userLoad, hwalk3]
    simp only [hcontent]
    decide
  have hload4 : (S3.setByte f 0 0 7).userLoad 2816 (511, 1000) 0 0 = some 7 := by
    rw [userLoad, hwalk4]
    simp only [setByte, mem_setWord_self, hcontent]
    decide
  have hlive : Along isoStep LiveActor bootMm (protectRun dst) := by
    refine ⟨fun d hd => ?_, ?_, ?_, ?_, trivial⟩
    · cases hd
    · rw [hstep1]
      exact live_of_mem hmem1
    · rw [hstep1, hstep2]
      exact live_of_mem hdst
    · rw [hstep1, hstep2, hstep3]
      exact live_of_mem hdst
  refine ⟨dst, hlive, ?_, ?_, ?_⟩
  · show (run isoStep bootMm [_, _, _]).userLoad _ _ _ _ = _
    rw [run_cons, hstep1, run_cons, hstep2, run_cons, hstep3]
    exact hload3
  · rw [protectRun, run_cons, hstep1, run_cons, hstep2, run_cons, hstep3, run_cons, hstep4]
    exact hload4
  · rintro ⟨-, -, -, hiso, -⟩
    rw [hstep1, hstep2, hstep3] at hiso
    have hsame := hiso.1 2816 hmem2 (fun he => hne (Option.some.inj he).symm) (511, 1000) 0 0
    rw [hstep4, hload3, hload4] at hsame
    exact absurd (Option.some.inj hsame) (by decide)

end Mm

end UnixOs
