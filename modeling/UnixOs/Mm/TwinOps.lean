import UnixOs.Mm.Twin
import UnixOs.Mm.Vm

/-!
# The operations of the memory manager on twins

Each operation gives the same result in two states that differ in free frames
only, and leaves two such states: pages are cleared or filled between
`allocate_frame` and the moment a process can read them. The page that `sys_brk`
maps is the exception; it has no lemma here.
-/

namespace UnixOs.Mm

open Function List Option

/-- The results of an operation on twins: the same answer, and twins again. -/
def Agree {α : Type} (x y : Mm × α) : Prop := y.2 = x.2 ∧ Twin clean x.1 y.1

variable {S T : Mm} {D : Frame → Prop} {R : Nat → Nat → Prop} {held : Frame → Nat}
  {c : Nat} {d f p : Frame} {v : VPage} {i : Idx} {w : Word} {flags : Flags}

theorem agree_mk {α : Type} {a : α} (h : Twin clean S T) : Agree (S, a) (T, a) := ⟨rfl, h⟩

theorem Agree.eq {α : Type} {x y : Mm × α} (h : Agree x y) {S1 : Mm} {a : α} (hx : x = (S1, a)) :
    ∃ T1, y = (T1, a) ∧ Twin clean S1 T1 := by
  subst hx
  exact ⟨y.1, Prod.ext rfl h.1, h.2⟩

/-! ## Taking a frame -/

/-- What the running code knows of a frame it has taken in both states. -/
structure Taken (R : Nat → Nat → Prop) (held : Frame → Nat) (S S1 T1 : Mm)
    (f : Frame) : Prop where
  twin : Twin (fun g => g = f) S1 T1
  inv : Inv R S1 (bump held f)
  unused : S1.refs f + held f = 0
  pool : f.Pool
  same : S.SameSpace S1
  one : S1.refcount f = 1

theorem Twin.allocate_cases (h : Twin clean S T) (hinv : Inv R S held)
    (hR : CountRel 0xFFFF R) (c : Nat) :
    (S.allocateFrame c = (S, none) ∧ T.allocateFrame c = (T, none)) ∨
    ∃ S1 T1 f, S.allocateFrame c = (S1, some f) ∧ T.allocateFrame c = (T1, some f) ∧
      Taken R held S S1 T1 f := by
  obtain hnone | ⟨S1, f, hx, hy, hgot, h1⟩ := h.allocateFrame hinv hR c
  · exact .inl hnone
  · exact .inr ⟨S1, _, f, hx, hy, h1.mono fun g hg => hg.resolve_left id, hgot.inv, hgot.unused,
      hgot.pool, hgot.same, hgot.one⟩

variable {S1 T1 : Mm}

section

variable (h : Taken R held S S1 T1 f)
include h

theorem Taken.unreferenced : S1.Unreferenced fun g => g = f := by
  rintro g rfl
  have := h.unused
  exact ⟨h.pool, by omega⟩

/-- A frame that was cleared is the same in both. -/
theorem Taken.zeroFrame :
    Twin clean (S1.zeroFrame f) (T1.zeroFrame f) ∧
      (T1.zeroFrame f).mem f = (S1.zeroFrame f).mem f := by
  refine ⟨(h.twin.zeroFrame f).mono fun g hg => hg.2 hg.1, ?_⟩
  rw [zeroFrame_of_pool h.pool, zeroFrame_of_pool h.pool]
  show update T1.mem f _ f = update S1.mem f _ f
  rw [update_self, update_self]

theorem Taken.setFrame (ws : Idx → Word) : Twin clean (S1.setFrame f ws) (T1.setFrame f ws) :=
  (h.twin.setFrame f ws).mono fun _ hg => hg.2 hg.1

end

/-- A frame that goes back to the pool may keep what it has. -/
theorem Twin.freeTaken (h : Twin (· = f) S T) (hpool : f.Pool) (hone : S.refcount f = 1) (c : Nat) :
    Twin clean (S.freeFrame c f) (T.freeFrame c f) := by
  have h' := h.freeFrame c f
  refine ⟨h'.used, h'.nextFree, h'.refcount, h'.magazine, h'.dirs, h'.kernel,
    fun _ hg _ => h'.mem _ hg ?_⟩
  rintro rfl
  have halloc := hg hpool
  rw [freeFrame_eq, allocated_frameDecref hpool (by omega)] at halloc
  exact halloc.2 hone rfl

/-! ## Mapping -/

/-- `map_page` fails only for want of a frame. -/
theorem eq_of_mapPage_false {S1 : Mm} (heq : S.mapPage c d v f flags = (S1, false)) : S1 = S := by
  rw [mapPage, ensureTable] at heq
  by_cases hp : (S.mem d v.1).present = true
  · rw [if_pos hp] at heq
    cases (Prod.mk.inj heq).2
  rw [if_neg hp] at heq
  obtain ⟨g, rest, -, hx⟩ | ⟨-, -, hx⟩ | ⟨g, rest, -, -, hx⟩ := S.allocateFrame_cases c
  · rw [hx] at heq
    cases (Prod.mk.inj heq).2
  · rw [hx] at heq
    exact (Prod.mk.inj heq).1.symm
  · rw [hx] at heq
    cases (Prod.mk.inj heq).2

theorem Twin.mapPage_cases (h : Twin D S T) (hinv : Inv R S held)
    (hD : S.Unreferenced D) (hR : CountRel 0xFFFF R) (hd : d ∈ S.dirs) (c : Nat)
    (v : VPage) (f : Frame) (flags : Flags) :
    ∃ S1 T1 b, S.mapPage c d v f flags = (S1, b) ∧ T.mapPage c d v f flags = (T1, b) ∧
      Twin D S1 T1 := by
  obtain ⟨hres, h1⟩ := h.mapPage hinv hD hR hd c v f flags
  exact ⟨_, _, _, rfl, Prod.ext rfl hres, h1⟩

/-- One page of an anonymous mapping: it is cleared after it is mapped. -/
theorem Twin.mapUserPage (h : Twin clean S T) (hinv : Inv R S held)
    (hR : CountRel 0xFFFF R) (hd : d ∈ S.dirs) (c : Nat) (v : VPage) (writable : Bool) :
    Agree (S.mapUserPage c d v writable true) (T.mapUserPage c d v writable true) := by
  rw [Mm.mapUserPage, Mm.mapUserPage]
  rcases h.allocate_cases hinv hR c with
    ⟨hx, hy⟩ | ⟨S1, T1, f, hx, hy, htaken⟩
  · rw [hx, hy]
    exact agree_mk h
  · rw [hx, hy]
    have hd1 : d ∈ S1.dirs := htaken.same.2.1 ▸ hd
    obtain ⟨S2, T2, b, hx2, hy2, h2⟩ := htaken.twin.mapPage_cases htaken.inv
      htaken.unreferenced hR hd1 c v f (userFlags writable)
    simp only [hx2, hy2]
    cases b with
    | false =>
      obtain rfl := eq_of_mapPage_false hx2
      exact agree_mk (h2.freeTaken htaken.pool htaken.one c)
    | true => exact agree_mk ((h2.zeroFrame f).mono fun g hg => hg.2 hg.1)

/-- The entry is cleared, and its frame is freed. -/
theorem Twin.unmapUserPage (h : Twin clean S T) (hinv : Inv R S held)
    (hd : d ∈ S.dirs) (c : Nat) (v : VPage) :
    Twin clean (S.unmapUserPage c d v) (T.unmapUserPage c d v) := by
  have hphys := h.getPhysicalFrame hinv unreferenced_clean hd v
  have hmem := h.mem_dir hinv unreferenced_clean hd
  rw [Mm.unmapUserPage, Mm.unmapUserPage, hphys]
  cases S.getPhysicalFrame d v with
  | none => exact h
  | some f =>
    refine Twin.freeFrame ?_ c f
    rw [unmapPage, unmapPage, hmem]
    split
    · exact h
    · exact h.setWord _ _ _

/-! ## Directories -/

theorem Twin.removeDir (h : Twin clean S T) (d : Frame) :
    Twin clean (S.removeDir d) (T.removeDir d) :=
  ⟨h.used, h.nextFree, h.refcount, h.magazine, congrArg (·.erase d) h.dirs, h.kernel, h.mem⟩

theorem Twin.drops (l : List Frame) :
    ∀ {S T : Mm}, Twin clean S T → Twin clean (S.drops c l) (T.drops c l) := by
  induction l with
  | nil => exact fun h => h
  | cons f l ih => exact fun h => ih (h.frameDecref c f)

theorem Twin.destroyPageDirectory (h : Twin clean S T) (hinv : Inv R S held)
    (hd : d ∈ S.dirs) (c : Nat) :
    Twin clean (S.destroyPageDirectory c d) (T.destroyPageDirectory c d) := by
  have hrefs : T.dirRefs d = S.dirRefs d := by rw [dirRefs, dirRefs, h.ptr hinv unreferenced_clean]
  rw [destroyPageDirectory_eq hinv hd,
    destroyPageDirectory_eq (h.inv hinv unreferenced_clean) (h.dirs ▸ hd), hrefs]
  exact (h.drops _).removeDir d

/-- A new directory has the entries of the kernel. -/
theorem Twin.createPageDirectory (h : Twin clean S T) (hinv : Inv R S held)
    (hR : CountRel 0xFFFF R) (c : Nat) (dirOk : Bool) :
    Agree (S.createPageDirectory c dirOk) (T.createPageDirectory c dirOk) := by
  simp only [Mm.createPageDirectory]
  cases dirOk with
  | false => exact agree_mk h
  | true =>
    rcases h.allocate_cases hinv hR c with
      ⟨hx, hy⟩ | ⟨S1, T1, f, hx, hy, htaken⟩
    · simp only [hx, hy]
      exact agree_mk h
    · simp only [hx, hy, if_neg (Nat.not_le.2 htaken.pool.2), htaken.twin.kernel]
      have h2 := htaken.setFrame fun i =>
        if i.val < numKernelPageTables then kernelPde S1.kernel i
        else if (kernelPde S1.kernel i).present then kernelPde S1.kernel i else 0
      exact agree_mk ⟨h2.used, h2.nextFree, h2.refcount, h2.magazine,
        congrArg (f :: ·) h2.dirs, h2.kernel, h2.mem⟩

/-! ## Counts that may be too high

A page that is mapped where another was takes its place; the other keeps its
count. So from here on a count is only known not to be too low. -/

theorem Inv.drop (h : Inv (· ≤ ·) S (bump held f)) : Inv (· ≤ ·) S held := by
  have hle : ∀ g, S.refs g + held g ≤ S.refs g + bump held f g := fun g =>
    Nat.add_le_add_left (le_bump held f g) _
  refine ⟨⟨fun {g} hg => h.alloc.pool (hg.trans_le (hle g)),
    fun {g} hg => h.alloc.owned (hg.trans_le (hle g)),
    fun {g} hg ha => (hle g).trans (h.alloc.count hg ha), h.alloc.mags⟩,
    h.space.unhold (le_bump held f)⟩

/-- A frame the running code holds is mapped where nothing or another is. -/
theorem Inv.mapAny (h : Inv (· ≤ ·) S (bump held f)) (hz : S.refs f + held f = 0)
    (hd : d ∈ S.dirs) (hv : v.1.IsUser) (hp : flags.present = true)
    (hu : flags.user = true) (c : Nat) :
    (∃ S', S.mapPage c d v f flags = (S', false) ∧
      Inv (· ≤ ·) (S'.freeFrame c f) held ∧ Unseen held S (S'.freeFrame c f)) ∨
    ∃ S', S.mapPage c d v f flags = (S', true) ∧ Inv (· ≤ ·) S' held ∧
      Sets held S S' d v (some (.entry f flags, S.mem f)) := by
  have hR := countRel_le 0xFFFF
  cases hw : S.pte d v with
  | none => exact h.mapNew hR hz hd hv hw hp hu c
  | some w =>
    obtain ⟨p, ht, -, -⟩ := pte_eq_some.1 hw
    have hmove : ∀ g, bump held w.frame g + (if some f = some g then 1 else 0)
        = bump held f g + (if S.ptr (.entry d v) = some g then 1 else 0) := fun g => by
      rw [ptr_entry_of_pte hw]
      simp only [bump, Option.some.injEq, eq_comm (a := g)]
      exact Nat.add_right_comm _ _ _
    obtain ⟨hinv, hset⟩ := h.enter hz ht hp hu hmove
    exact .inr ⟨_, mapPage_of_table h.space ht c f flags, hinv.drop,
      hset.mono fun g hg => hg.trans_le (le_bump held f g)⟩

/-! ## Pages that are filled before they are mapped -/

theorem Twin.copyToFrame (h : Twin clean S T) (hmem : T.mem f = S.mem f) (off : Nat)
    (bytes : List (BitVec 8)) :
    Twin clean (S.copyToFrame f off bytes) (T.copyToFrame f off bytes) := by
  have hfill : Twin clean (S.setFrame f (overlay (S.mem f) off bytes))
      (T.setFrame f (overlay (S.mem f) off bytes)) :=
    (h.setFrame f _).mono fun _ hg => hg.1
  simp only [Mm.copyToFrame, hmem]
  split
  · exact hfill
  · rw [tempUnmapFrame, tempUnmapFrame, hfill.kernel]
    exact hfill.setWord _ _ _

/-- A frame that is ready to be mapped, in both states. -/
structure Ready (held : Frame → Nat) (S S1 T1 : Mm) (f : Frame) : Prop where
  twin : Twin clean S1 T1
  inv : Inv (· ≤ ·) S1 (bump held f)
  unused : S1.refs f + held f = 0
  pool : f.Pool
  unseen : Unseen held S S1
  mem : T1.mem f = S1.mem f

theorem Taken.cleared (h : Taken (· ≤ ·) held S S1 T1 f) :
    Ready held S (S1.zeroFrame f) (T1.zeroFrame f) f := by
  obtain ⟨htwin, hmem⟩ := h.zeroFrame
  have hns : S1.NotStruct f := notStruct_of_refs (by have := h.unused; omega)
  obtain ⟨hinv, hun⟩ := h.inv.fillHeld h.unused fun _ => 0
  rw [← zeroFrame_of_pool h.pool] at hinv hun
  refine ⟨htwin, hinv, ?_, h.pool, h.same.unseen.trans hun, hmem⟩
  rw [zeroFrame_of_pool h.pool, refs_setFrame hns]
  exact h.unused

/-- What is copied into the frame is the same on both. -/
theorem Ready.copyToFrame (h : Ready held S S1 T1 f) (off : Nat) (bytes : List (BitVec 8)) :
    Ready held S (S1.copyToFrame f off bytes) (T1.copyToFrame f off bytes) f := by
  have heq : ∀ S : Mm, S.copyToFrame f off bytes
      = S.setFrame f (overlay (S.mem f) off bytes) := fun S => if_pos h.pool.2
  obtain ⟨hinv, hun⟩ := h.inv.fillHeld h.unused (overlay (S1.mem f) off bytes)
  have hns : S1.NotStruct f := notStruct_of_refs (by have := h.unused; omega)
  refine ⟨h.twin.copyToFrame h.mem off bytes, ?_, ?_, h.pool, ?_, ?_⟩
  · rw [heq]
    exact hinv
  · rw [heq, refs_setFrame hns]
    exact h.unused
  · rw [heq]
    exact h.unseen.trans hun
  · rw [heq, heq, h.mem]
    exact mem_setFrame_congr h.mem

/-- The frame is mapped, or given back. -/
theorem Ready.mapPage (h : Ready held S S1 T1 f) (hd : d ∈ S.dirs)
    (hv : v.1.IsUser) (hp : flags.present = true) (hu : flags.user = true) (c : Nat) :
    (∃ S2 T2, S1.mapPage c d v f flags = (S2, false) ∧
      T1.mapPage c d v f flags = (T2, false) ∧
      Twin clean (S2.freeFrame c f) (T2.freeFrame c f) ∧
      Inv (· ≤ ·) (S2.freeFrame c f) held ∧ Unseen held S (S2.freeFrame c f)) ∨
    ∃ S2 T2, S1.mapPage c d v f flags = (S2, true) ∧
      T1.mapPage c d v f flags = (T2, true) ∧ Twin clean S2 T2 ∧
      Inv (· ≤ ·) S2 held ∧ Sets held S S2 d v (some (.entry f flags, S1.mem f)) := by
  have hd1 : d ∈ S1.dirs := h.unseen.dirs ▸ hd
  obtain ⟨S2, T2, b, hx, hy, h2⟩ := h.twin.mapPage_cases h.inv unreferenced_clean
    (countRel_le 0xFFFF) hd1 c v f flags
  rcases h.inv.mapAny h.unused hd1 hv hp hu c with
    ⟨S2', heq, hinv2, hun⟩ | ⟨S2', heq, hinv2, hset⟩
  · obtain ⟨rfl, rfl⟩ := Prod.mk.inj (hx.symm.trans heq)
    exact .inl ⟨S2, T2, hx, hy, h2.freeFrame c f, hinv2, h.unseen.trans hun⟩
  · obtain ⟨rfl, rfl⟩ := Prod.mk.inj (hx.symm.trans heq)
    exact .inr ⟨S2, T2, hx, hy, h2, hinv2, hset.after h.unseen⟩

/-- The stack of a new process is cleared. -/
theorem Twin.mapUserPages (hp : flags.present = true) (hu : flags.user = true)
    (hd : d ∈ S.dirs) (c : Nat) {vs : List VPage} (hvs : ∀ v ∈ vs, v.1.IsUser)
    (h : Twin clean S T) (hinv : Inv (· ≤ ·) S held) :
    Agree (mapUserPages c d flags S vs) (mapUserPages c d flags T vs) := by
  induction vs generalizing S T with
  | nil => exact agree_mk h
  | cons v vs ih =>
    rw [mapUserPages, mapUserPages]
    rcases h.allocate_cases hinv (countRel_le 0xFFFF) c with
      ⟨hx, hy⟩ | ⟨S1, T1, f, hx, hy, htaken⟩
    · rw [hx, hy]
      exact agree_mk h
    · rw [hx, hy]
      rcases htaken.cleared.mapPage hd (hvs v mem_cons_self) hp hu c with
        ⟨S2, T2, hx2, hy2, h2, -, -⟩ | ⟨S2, T2, hx2, hy2, h2, hinv2, hset⟩
      · simp only [hx2, hy2]
        exact agree_mk h2
      · simp only [hx2, hy2]
        exact ih (hset.dirs ▸ hd) (fun v' hv' => hvs v' (.tail v hv')) h2 hinv2

/-- The directory, and then the stack. -/
theorem Twin.createProcessMemory (h : Twin clean S T) (hinv : Inv (· ≤ ·) S held)
    (c : Nat) (memOk dirOk : Bool) :
    Agree (S.createProcessMemory c memOk dirOk) (T.createProcessMemory c memOk dirOk) := by
  have hR := countRel_le 0xFFFF
  simp only [Mm.createProcessMemory]
  cases memOk with
  | false => exact agree_mk h
  | true =>
    have hdir := h.createPageDirectory hinv hR c dirOk
    rcases hinv.createPageDirectory hR c dirOk with
      ⟨S1, hx, -, -⟩ | ⟨S1, d, hx, hinv1, -, hdirs, -, hempty⟩
    · obtain ⟨T1, hy, h1⟩ := hdir.eq hx
      simp only [hx, hy]
      exact agree_mk h1
    · obtain ⟨T1, hy, h1⟩ := hdir.eq hx
      have hd : d ∈ S1.dirs := hdirs ▸ mem_cons_self
      have hstack := Twin.mapUserPages (userFlags_present true) (userFlags_user true) hd c
        (fun v hv => isUser_of_mem_stackPages hv) h1 hinv1
      obtain ⟨S2, b, hx2, hinv2, hdirs2, -⟩ := hinv1.mapUserPages hR
        (userFlags_present true) (userFlags_user true) nodup_stackPages hd fun v hv =>
          ⟨isUser_of_mem_stackPages hv, by rw [pte_eq_view, hempty]; rfl⟩
      obtain ⟨T2, hy2, h2⟩ := hstack.eq hx2
      simp only [hx, hy, hx2, hy2]
      cases b with
      | false => exact agree_mk (h2.destroyPageDirectory hinv2 (hdirs2 ▸ hd) c)
      | true => exact agree_mk h2

end UnixOs.Mm
