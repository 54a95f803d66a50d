import UnixOs.Mm.Clone
import UnixOs.Mm.Uaccess

/-!
# `sys_mprotect` (sys_mem.c:225)

The call stores a new entry over every present entry of its range, with the same
frame. It looks neither at `PAGE_COW_BIT` nor at the count of the frame, and an
entry stored for `PROT_NONE` keeps its reference although no walk finds it.
-/

namespace UnixOs

open List Option BitVec Errno

/-- `USER_CODE_BASE`. -/
def userCodeBase : Word := 0x08048000

/-- `USER_SPACE_END`. -/
def userSpaceEnd : Word := 0x80000000

/-- `PAGE_ADDR_MASK`. -/
def pageAddrMask : Word := 0xFFFFF000

def protRead : Word := 1
def protWrite : Word := 2
def protExec : Word := 4

/-- The flags of the entries `sys_mprotect` stores (sys_mem.c:252). -/
def protFlags (prot : Word) : Flags :=
  pageUser ||| (if prot ≠ 0 then pagePresent else 0) |||
    (if prot &&& protWrite ≠ 0 then pageWritable else 0)

/-- The page starts of the loop of `sys_mprotect` (sys_mem.c:225), for a length
that is a multiple of the page size. -/
def pageStarts (addr len : Word) : List Word :=
  (List.range (len.toNat / 4096)).map fun k => addr + BitVec.ofNat 32 (4096 * k)

namespace Mm

section

variable (S : Mm)

/-- One page of `sys_mprotect`. -/
def mprotectPage (c : Nat) (d : Frame) (flags : Flags) (v : VPage) : Mm :=
  match S.getPhysicalFrame d v with
  | some phys => (S.mapPage c d v phys flags).1
  | none => S

/-- `sys_mprotect` (sys_mem.c:225) of a process whose directory is `memory`, if it
has one. -/
def sysMprotect (c : Nat) (memory : Option Frame) (addr len prot : Word) :
    Mm × Int :=
  if addr = 0 ∨ len = 0 then (S, -EINVAL)
  else if addr &&& ~~~ pageAddrMask ≠ 0 then (S, -EINVAL)
  else if prot &&& ~~~ (protRead ||| protWrite ||| protExec) ≠ 0 then
    (S, -EINVAL)
  else
    match memory with
    | none => (S, -ESRCH)
    | some d =>
      let len := (len + 4096 - 1) &&& pageAddrMask
      if addr < userCodeBase then (S, -EINVAL)
      else if userSpaceEnd - addr < len then (S, -EINVAL)
      else
        ((pageStarts addr len).foldl
          (fun S a => S.mprotectPage c d (protFlags prot) a.vpage) S, 0)

end

/-- The pages a call that passes its checks visits. -/
def protPages (addr len : Word) : List VPage :=
  (pageStarts addr ((len + 4096 - 1) &&& pageAddrMask)).map Word.vpage

variable {S S' : Mm} {held : Frame → Nat} {d p f : Frame} {v : VPage} {w : Word}
  {c : Nat} {flags : Flags}

/-! ## The range -/

theorem protFlags_user (prot : Word) : (protFlags prot).user = true := by
  simp only [Flags.user, protFlags]
  split <;> split <;> decide

theorem protFlags_writable {prot : Word} (h : (protFlags prot).writable = true) :
    prot &&& protWrite ≠ 0 := by
  intro hz
  simp only [Flags.writable, protFlags, hz, ne_eq, not_true_eq_false, if_false] at h
  split at h <;> exact absurd h (by decide)

/-- Below `USER_SPACE_END` the range has pages of user space only. -/
theorem isUser_of_mem_protPages {addr len : Word} (haddr : addr ≤ userSpaceEnd)
    (hcode : ¬ addr < userCodeBase)
    (hlen : ¬ userSpaceEnd - addr < (len + 4096 - 1) &&& pageAddrMask)
    (hv : v ∈ protPages addr len) : v.1.IsUser := by
  obtain ⟨a, ha, rfl⟩ := mem_map.1 hv
  obtain ⟨k, hk, rfl⟩ := mem_map.1 ha
  rw [mem_range] at hk
  have hbase : userCodeBase.toNat = 0x08048000 := rfl
  have hend : userSpaceEnd.toNat = 0x80000000 := rfl
  rw [le_def, hend] at haddr
  rw [lt_def, hbase] at hcode
  rw [lt_def, toNat_sub, hend] at hlen
  generalize ((len + 4096 - 1) &&& pageAddrMask).toNat = l at hlen hk
  simp only [Word.vpage, vpageOf, Idx.IsUser, Word.frame, toNat_add,
    toNat_ofNat, numKernelPageTables, userPdeLast]
  omega

/-! ## One page -/

/-- `map_page` where there is a table is one store. -/
theorem mapPage_of_table (h : SpaceInv S held) (ht : S.table d v.1 = some p)
    (c : Nat) (f : Frame) (flags : Flags) :
    S.mapPage c d v f flags = (S.setWord p v.2 (.entry f flags), true) := by
  obtain ⟨-, -, hpp, rfl⟩ := table_eq_some.1 ht
  have hkeep : (S.mem d v.1).flags ||| pageUser = (S.mem d v.1).flags := by
    have huser := (h.userPde ht).1
    rw [Word.user, Flags.user] at huser
    refine eq_of_getLsbD_eq fun i hi => ?_
    rw [getLsbD_or]
    by_cases hi2 : i = 2
    · rw [hi2, huser]
      rfl
    · have hzero : pageUser.getLsbD i = false := by
        have : ∀ i : Fin 12, i.val ≠ 2 → pageUser.getLsbD i.val = false := by decide
        exact this ⟨i, hi⟩ hi2
      rw [hzero, Bool.or_false]
  have hpromote : S.promoteUser d v.1 flags = S := by
    rw [promoteUser]
    split
    · simp only [hkeep, Word.entry_frame_flags, setWord, Function.update_eq_self]
    · rfl
  rw [mapPage, ensureTable, if_pos hpp]
  simp only [hpromote]

/-- A page only this process may reach: its entry is writable, or its frame has
a count of one. -/
def PrivatePage (S : Mm) (d : Frame) (v : VPage) : Prop :=
  ∀ w, S.pte d v = some w → w.writable = true ∨ S.refcount w.frame = 1

section

variable (h : Inv (· = ·) S held)
include h

theorem Inv.refcount_eq (hw : S.pte d v = some w) :
    S.refs w.frame + held w.frame = S.refcount w.frame :=
  have hpos := Nat.add_pos_left (refCount.pos_of_mem (ptr_entry_of_pte hw)) _
  h.alloc.count (h.alloc.pool hpos) (h.alloc.owned hpos)

theorem Inv.refs_of_private (hpriv : S.PrivatePage d v)
    (hw : S.pte d v = some w) : S.refs w.frame + held w.frame = 1 := by
  rcases hpriv w hw with hwr | hone
  · exact h.space.writable hw hwr
  · exact (h.refcount_eq hw).trans hone

/-- The entry of a page is stored anew and stays present. -/
theorem Inv.reprotect (ht : S.table d v.1 = some p)
    (hw : S.pte d v = some w) (hp : flags.present = true) (hu : flags.user = true)
    (hpriv : flags.writable = true → S.PrivatePage d v) :
    Inv (· = ·) (S.setWord p v.2 (.entry w.frame flags)) held ∧
      Sets held S (S.setWord p v.2 (.entry w.frame flags)) d v
        (some (.entry w.frame flags, S.mem w.frame)) := by
  have hptr := ptr_entry_of_pte hw
  have hentry : asEntry (.entry w.frame flags) = some (.entry w.frame flags) := asEntry_entry hp
  constructor
  · refine h.setEntry (i := v.1) ht (fun g => ?_) ?_ ?_ ?_
    · rw [hentry, map_some, Word.frame_entry, hptr]
    · intro _ v' hv'
      rw [Word.frame_entry] at hv'
      exact h.space.injective hv' hptr
    · intro _ hwr
      rw [writable_entry] at hwr
      rw [Word.frame_entry]
      exact h.refs_of_private (hpriv hwr) hw
    · intro _
      rw [user_entry]
      exact hu
  · have hne : w.frame ≠ p := fun he =>
      h.space.notStruct_of_entry hptr (.table d v.1) trivial (ht.trans (congrArg some he.symm))
    have hset := sets_setEntry (w := .entry w.frame flags) (j := v.2) h.space ht
      fun _ => by rw [Word.frame_entry]; exact hne
    rwa [hentry, map_some, Word.frame_entry] at hset

/-- The entry of a page is stored anew and is no longer present: its reference
stays behind. -/
theorem Inv.forget (ht : S.table d v.1 = some p)
    (hw : S.pte d v = some w) (hp : flags.present = false) :
    Inv (· = ·) (S.setWord p v.2 (.entry w.frame flags)) (bump held w.frame) ∧
      Sets held S (S.setWord p v.2 (.entry w.frame flags)) d v none := by
  have habs : (Word.entry w.frame flags).present = false := by rw [present_entry, hp]
  have hentry : asEntry (.entry w.frame flags) = none := by
    rw [asEntry, if_neg (by rw [habs]; exact Bool.false_ne_true)]
  have hnot : ¬ (Word.entry w.frame flags).present = true := by
    rw [habs]
    exact Bool.false_ne_true
  constructor
  · refine h.setEntry (i := v.1) ht (fun g => ?_) (fun hc => absurd hc hnot)
      (fun hc => absurd hc hnot) fun hc => absurd hc hnot
    rw [hentry, ptr_entry_of_pte hw]
    simp [bump, eq_comm]
  · have hset := sets_setEntry (w := .entry w.frame flags) (j := v.2) h.space ht
      fun hc => absurd hc hnot
    rwa [hentry] at hset

/-- One page of `sys_mprotect`: nothing is there, or its entry is stored anew. -/
theorem Inv.mprotectPage_eq (hd : d ∈ S.dirs) (hv : v.1.IsUser) (c : Nat) (flags : Flags) :
    (S.pte d v = none ∧ S.mprotectPage c d flags v = S) ∨
    ∃ w p, S.pte d v = some w ∧ S.table d v.1 = some p ∧
      S.mprotectPage c d flags v = S.setWord p v.2 (.entry w.frame flags) := by
  rw [mprotectPage, h.getPhysicalFrame hd hv]
  cases hw : S.pte d v with
  | none => exact .inl ⟨rfl, rfl⟩
  | some w =>
    obtain ⟨p, ht, -, -⟩ := pte_eq_some.1 hw
    refine .inr ⟨w, p, rfl, ht, ?_⟩
    simp only [map_some, mapPage_of_table h.space ht]

end

end Mm

end UnixOs
