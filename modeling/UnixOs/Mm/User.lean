import UnixOs.Mm.Pages

/-!
# Loads and stores of a process

A user-mode access goes through both levels of the page tables: both entries
must be present and have `PAGE_USER`, and `PAGE_WRITABLE` for a store. A store
that faults on a present page runs `handle_cow_fault` and is executed again if
that succeeds (interrupt.c:47); any other fault ends the process. Faults on
absent pages of file mappings are left out.
-/

namespace UnixOs

namespace Word

/-- The byte `k` of a word in memory. -/
def byte (w : Word) (k : Fin 4) : BitVec 8 := w.extractLsb' (8 * k.val) 8

/-- The word with its byte `k` stored. -/
def setByte (w : Word) (k : Fin 4) (x : BitVec 8) : Word :=
  (w &&& ~~~ (0xFF#32 <<< (8 * k.val))) ||| (x.setWidth 32 <<< (8 * k.val))

end Word

/-- The page-fault error code, as far as the handler looks at it. -/
inductive PageFault where
  | notPresent
  | protection
  deriving DecidableEq

namespace Mm

section Hardware

variable (S : Mm)

/-- The frame a user-mode access to page `v` reaches. -/
def userTranslate (d : Frame) (v : VPage) (write : Bool) : Except PageFault Frame :=
  let pde := S.mem d v.1
  if !pde.present then .error .notPresent
  else
    let pte := S.mem pde.frame v.2
    if !pte.present then .error .notPresent
    else if !(pde.user && pte.user) then .error .protection
    else if write && !(pde.writable && pte.writable) then .error .protection
    else .ok pte.frame

/-- A byte is loaded. -/
def userLoad (d : Frame) (v : VPage) (i : Idx) (k : Fin 4) : Option (BitVec 8) :=
  match S.userTranslate d v false with
  | .ok f => some ((S.mem f i).byte k)
  | .error _ => none

/-- A byte of a frame is stored. -/
def setByte (f : Frame) (i : Idx) (k : Fin 4) (x : BitVec 8) : Mm :=
  S.setWord f i ((S.mem f i).setByte k x)

/-- A byte is stored: true where the process goes on. -/
def userStore (c : Nat) (d : Frame) (v : VPage) (i : Idx) (k : Fin 4)
    (x : BitVec 8) : Mm × Bool :=
  match S.userTranslate d v true with
  | .ok f => (S.setByte f i k x, true)
  | .error .notPresent => (S, false)
  | .error .protection =>
    match S.handleCowFault c d v with
    | (S, false) => (S, false)
    | (S, true) =>
      match S.userTranslate d v true with
      | .ok f => (S.setByte f i k x, true)
      | .error _ => (S, false)

end Hardware

variable {S S' : Mm} {R : Nat → Nat → Prop} {held : Frame → Nat}
  {d f : Frame} {v : VPage} {w : Word} {i : Idx} {k : Fin 4} {x : BitVec 8}
  {c : Nat}

/-! ## The walk and the entries -/

section

variable (h : SpaceInv S held)
include h

/-- The walk over a page of the process. -/
theorem userTranslate_of_pte (hw : S.pte d v = some w) (write : Bool) :
    S.userTranslate d v write
      = if write && !w.writable then .error .protection else .ok w.frame := by
  obtain ⟨p, ht, hwp, rfl⟩ := pte_eq_some.1 hw
  obtain ⟨-, -, hpp, rfl⟩ := table_eq_some.1 ht
  obtain ⟨hpu, hpw⟩ := h.userPde ht
  simp only [userTranslate, hpp, hwp, hpu, hpw, h.userPte hw, Bool.not_true,
    Bool.and_self, Bool.true_and, Bool.false_eq_true, if_false]

/-- The walk elsewhere: the kernel's entries do not have `PAGE_USER`. -/
theorem userTranslate_of_none (hd : d ∈ S.dirs)
    (hw : S.pte d v = none) (write : Bool) : ∃ e, S.userTranslate d v write = .error e := by
  dsimp only [userTranslate]
  split
  · exact ⟨_, rfl⟩
  next hp =>
  split
  · exact ⟨_, rfl⟩
  next hwp =>
  replace hp : (S.mem d v.1).present = true := by simpa using hp
  replace hwp : (S.mem (S.mem d v.1).frame v.2).present = true := by simpa using hwp
  by_cases hv : v.1.IsUser
  · have hpte : S.pte d v = some (S.mem (S.mem d v.1).frame v.2) :=
      pte_eq_some.2 ⟨_, table_eq_some.2 ⟨hd, hv, hp, rfl⟩, hwp, rfl⟩
    rw [hw] at hpte
    cases hpte
  · have hpde := h.kernelPde hd hv
    rw [kernelPde] at hpde
    split at hpde
    · have hnu : (S.mem d v.1).user = false := by
        rw [hpde, user_entry]
        decide
      rw [hnu]
      exact ⟨.protection, rfl⟩
    · rw [hpde] at hp
      exact absurd hp (by decide)

/-- What a process loads is what it sees. -/
theorem userLoad_eq (hd : d ∈ S.dirs) :
    S.userLoad d v i k = (S.view d v).map fun y => (y.2 i).byte k := by
  cases hw : S.pte d v with
  | none =>
    obtain ⟨e, he⟩ := userTranslate_of_none h hd hw false
    rw [userLoad, he, view, hw]
    rfl
  | some w =>
    rw [userLoad, userTranslate_of_pte h hw, view, hw]
    rfl

end

/-! ## Stores -/

/-- The content of a frame with one byte stored. -/
def storeByte (m : Idx → Word) (i : Idx) (k : Fin 4) (x : BitVec 8) : Idx → Word :=
  Function.update m i ((m i).setByte k x)

theorem setByte_eq (f : Frame) :
    S.setByte f i k x = S.setFrame f (storeByte (S.mem f) i k x) := rfl

/-- A store through a writable entry. -/
theorem Inv.setByte (h : Inv R S held) (hw : S.pte d v = some w) (hwr : w.writable = true) :
    Inv R (S.setByte w.frame i k x) held ∧ Sets held S (S.setByte w.frame i k x) d v
        (some (w, storeByte (S.mem w.frame) i k x)) := by
  rw [setByte_eq]
  exact ⟨h.setPage hw _, sets_setFrame h.space hw (h.space.writable hw hwr) _⟩

theorem unshareFlags_writable (fl : Flags) : (unshareFlags fl).writable = true := by
  simp [Flags.writable, unshareFlags, pageCowBit, pageWritable]

/-- A store of a process: it ends the process and nobody sees a difference, or
it changes one byte of one page of one process, which was writable or a
copy-on-write page. -/
theorem Inv.userStore (hR : CountRel 0xFFFF R) (h : Inv R S held)
    (hd : d ∈ S.dirs) (c : Nat) (v : VPage) (i : Idx) (k : Fin 4) (x : BitVec 8) :
    (∃ S', S.userStore c d v i k x = (S', false) ∧ Inv R S' held ∧
      Unseen held S S') ∨
    ∃ S' w w', S.userStore c d v i k x = (S', true) ∧ Inv R S' held ∧
      S.pte d v = some w ∧ (w.writable || w.cow) = true ∧ w'.writable = true ∧
      Sets held S S' d v (some (w', storeByte (S.mem w.frame) i k x)) := by
  unfold Mm.userStore
  cases hw : S.pte d v with
  | none =>
    obtain ⟨e, he⟩ := userTranslate_of_none h.space hd hw true
    rw [he]
    cases e with
    | notPresent => exact .inl ⟨S, rfl, h, .refl _ _⟩
    | protection =>
      rw [handleCowFault_refused h hd fun w hw' => by rw [hw] at hw'; cases hw']
      exact .inl ⟨S, rfl, h, .refl _ _⟩
  | some w =>
    rw [userTranslate_of_pte h.space hw]
    cases hwr : w.writable with
    | true =>
      obtain ⟨h', hset⟩ := h.setByte (i := i) (k := k) (x := x) hw hwr
      exact .inr ⟨_, w, w, rfl, h', rfl, by rw [hwr]; rfl, hwr, hset⟩
    | false =>
      rcases h.handleCowFault hR hd c v with
        ⟨S1, heq, h1, hun⟩ | ⟨S1, w1, f, heq, hw1, hcow, h1, hset⟩
      · rw [heq]
        exact .inl ⟨S1, rfl, h1, hun⟩
      · rw [heq]
        rw [hw] at hw1
        cases hw1
        -- The second attempt finds a writable page with the same content.
        have hview : S1.view d v
            = some (.entry f (unshareFlags w.flags), S.mem w.frame) := by
          rw [hset.view, if_pos ⟨rfl, rfl⟩]
        obtain ⟨hpte, hmem⟩ := view_eq_some.1 hview
        have hwr' : (Word.entry f (unshareFlags w.flags)).writable = true := by
          rw [writable_entry, unshareFlags_writable]
        obtain ⟨h2, hset2⟩ := h1.setByte (i := i) (k := k) (x := x) hpte hwr'
        rw [hmem] at hset2
        simp only [userTranslate_of_pte h1.space hpte, hwr', Bool.not_true,
          Bool.and_false, Bool.false_eq_true, if_false]
        exact .inr ⟨_, w, _, rfl, h2, rfl, by rw [hcow]; exact Bool.or_true _, hwr',
          hset.trans hset2⟩

end Mm

end UnixOs
