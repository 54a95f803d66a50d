import UnixOs.Mm.Counts
import UnixOs.Mm.Uaccess

/-!
# What a user pointer can reach

`access_ok` accepts every address from the second page up to `KERNEL_BASE`, and
`user_range_resident` asks only whether the pages are present. Neither looks at
`PAGE_USER`. Above the identity map that makes no difference, since whatever is
present there is a page of the process. The identity map below it is present in
every directory, so a copy with a pointer into it succeeds and reads or writes
kernel memory.

`Built S d` says what is used of a directory the kernel has built. Mapping the
framebuffer sets `PAGE_USER` on its pages in the kernel's first table, so these
are let out.
-/

namespace UnixOs

open List Word Errno
open BitVec (ofNat toNat_ofNat toNat_add le_def eq_of_toNat_eq)

/-- The pages of the VGA framebuffer, `VGA_FRAMEBUFFER_ADDR` and on. -/
def IsFramebuffer (p : Frame) : Prop := 0xA0 ≤ p.val ∧ p.val < 0xB0

namespace Mm

variable {S : Mm} {d : Frame} {p : Frame} {v : VPage} {a : Word} {held : Frame → Nat}

/-- The page is present and has `PAGE_USER` in both levels. -/
def UserMapped (S : Mm) (d : Frame) (v : VPage) : Prop :=
  (S.mem d v.1).present = true ∧ (S.mem d v.1).user = true ∧
    (S.mem (S.mem d v.1).frame v.2).present = true ∧
    (S.mem (S.mem d v.1).frame v.2).user = true

/-- A directory as the kernel builds them: the kernel's tables below the end of
the identity map, `PAGE_USER` on everything present above it. -/
structure Built (S : Mm) (d : Frame) : Prop where
  kernelPde : ∀ t : Fin numKernelPageTables, ∀ i : Idx, i.val = t.val →
    (S.mem d i).present = true ∧ (S.mem d i).frame = S.kernel.pageTable t
  kernelPte : ∀ (t : Fin numKernelPageTables) (j : Idx),
    (S.mem (S.kernel.pageTable t) j).present = true ∧
      (S.mem (S.kernel.pageTable t) j).frame.val = t.val * 1024 + j.val ∧
      ((S.mem (S.kernel.pageTable t) j).user = true →
        IsFramebuffer (Fin.ofNat (2 ^ 20) (t.val * 1024 + j.val)))
  userPde : ∀ i : Idx, i.IsUser → (S.mem d i).present = true →
    (S.mem d i).user = true
  userPte : ∀ v : VPage, v.1.IsUser → (S.mem d v.1).present = true →
    (S.mem (S.mem d v.1).frame v.2).present = true →
    (S.mem (S.mem d v.1).frame v.2).user = true

/-- The invariant of the memory manager gives this for every directory. -/
theorem SpaceInv.built (h : SpaceInv S held) (hd : d ∈ S.dirs) : Built S d := by
  refine ⟨fun t i hi => ?_, fun t j => ?_, fun i hi hp => ?_, fun v hv hp hw => ?_⟩
  · have hlt : i.val < numKernelPageTables := hi ▸ t.isLt
    have hnot : ¬ i.IsUser := fun hu => not_le.2 hlt hu.1
    have ht : (⟨i.val, hlt⟩ : Fin numKernelPageTables) = t := Fin.ext hi
    rw [h.kernelPde hd hnot, Mm.kernelPde, dif_pos hlt, ht, frame_entry, present, flags_entry]
    exact ⟨by decide, rfl⟩
  · rw [h.kernelPte t j, Mm.kernelPte, frame_entry, present, user, flags_entry]
    have hlt := t.isLt
    simp only [numKernelPageTables] at hlt
    refine ⟨by decide, ?_, fun hu => absurd hu (by decide)⟩
    exact Nat.mod_eq_of_lt (by omega)
  · exact (h.userPde (table_eq_some.2 ⟨hd, hi, hp, rfl⟩)).1
  · exact h.userPte (pte_eq_some.2 ⟨_, table_eq_some.2 ⟨hd, hv, hp, rfl⟩, hw, rfl⟩)

/-- The flags of a framebuffer page (sys_mem.c:126). -/
def fbFlags : Flags := pagePresent ||| pageWritable ||| pageUser

/-- One page of the framebuffer branch of `sys_mmap` (sys_mem.c:108): the page
is mapped to itself. -/
def mapFramebufferPage (S : Mm) (c : Nat) (d : Frame) (j : Idx) : Mm :=
  (S.mapPage c d (0, j) (Fin.ofNat (2 ^ 20) j.val) fbFlags).1

/-- The branch stores to the directory and to the kernel's first table. -/
theorem mapFramebufferPage_eq (h : SpaceInv S held) (hd : d ∈ S.dirs) (c : Nat) (j : Idx) :
    S.mapFramebufferPage c d j
      = (S.setWord d 0 (.entry (S.kernel.pageTable ⟨0, by decide⟩) fbFlags)).setWord
        (S.kernel.pageTable ⟨0, by decide⟩) j (.entry (Fin.ofNat (2 ^ 20) j.val) fbFlags) := by
  have hpde : S.mem d 0
      = .entry (S.kernel.pageTable ⟨0, by decide⟩) (pagePresent ||| pageWritable) :=
    (h.kernelPde hd (by decide)).trans (dif_pos (by decide))
  have hpresent : (S.mem d 0).present = true := by
    rw [hpde, present, flags_entry]
    decide
  have hpromote : S.promoteUser d 0 fbFlags
      = S.setWord d 0 (.entry (S.kernel.pageTable ⟨0, by decide⟩) fbFlags) := by
    rw [promoteUser, if_pos (by decide)]
    simp only [hpde, frame_entry, flags_entry]
    rfl
  have htable : ((S.setWord d 0
      (.entry (S.kernel.pageTable ⟨0, by decide⟩) fbFlags)).mem d 0).frame
      = S.kernel.pageTable ⟨0, by decide⟩ := by
    rw [mem_setWord_self, frame_entry]
  rw [mapFramebufferPage, mapPage, ensureTable, if_pos hpresent]
  simp only [hpromote, htable]

/-- A directory stays so when a process maps the framebuffer. -/
theorem Inv.built_mapFramebufferPage {R : Nat → Nat → Prop} (h : Inv R S held)
    (hd : d ∈ S.dirs) (c : Nat) {j : Idx} (hj : 0xA0 ≤ j.val ∧ j.val < 0xB0)
    {d' : Frame} (hd' : d' ∈ S.dirs) : Built (S.mapFramebufferPage c d j) d' := by
  have hpoolDir : ∀ {d'}, d' ∈ S.dirs → d'.Pool := fun hd' =>
    h.alloc.pool (Nat.add_pos_left (refCount.pos_of_mem (ptr_dir hd')) _)
  have hneDir : ∀ {d'}, d' ∈ S.dirs → ∀ t, d' ≠ S.kernel.pageTable t :=
    fun hd' t he => absurd (hpoolDir hd').1 (not_le.2 (he ▸ S.kernel.below t))
  have hb := h.space.built hd'
  rw [mapFramebufferPage_eq h.space hd c j]
  set t0 : Fin numKernelPageTables := ⟨0, by decide⟩
  set w0 : Word := .entry (S.kernel.pageTable t0) fbFlags
  set w1 : Word := .entry (Fin.ofNat (2 ^ 20) j.val) fbFlags
  set S' := (S.setWord d 0 w0).setWord (S.kernel.pageTable t0) j w1
  have hmem (f : Frame) (i : Idx) : S'.mem f i = if f = S.kernel.pageTable t0 ∧ i = j then w1
      else if f = d ∧ i = 0 then w0 else S.mem f i := by
    simp only [S', setWord, Function.update_apply]
    by_cases hf : f = S.kernel.pageTable t0
    · simp [hf, (hneDir hd t0).symm, Function.update_apply]
    · rw [if_neg hf, if_neg (mt And.left hf)]
      by_cases hfd : f = d <;> simp [hfd, Function.update_apply]
  have huser {i : Idx} (hi : i.IsUser) : S'.mem d' i = S.mem d' i := by
    rw [hmem, if_neg (mt And.left (hneDir hd' t0))]
    exact if_neg fun he => absurd hi (by rw [he.2]; decide)
  refine ⟨fun t i hi => ?_, fun t k => ?_, fun i hi hp => ?_, fun v hv hp hw => ?_⟩
  · rw [hmem, if_neg (mt And.left (hneDir hd' t0))]
    split
    · next hzero =>
      obtain ⟨-, rfl⟩ := hzero
      rw [show t = t0 from Fin.ext hi.symm, frame_entry, present, flags_entry]
      exact ⟨by decide, rfl⟩
    · exact hb.kernelPde t i hi
  · rw [show S'.kernel = S.kernel from rfl, hmem]
    split
    · next hk =>
      obtain ⟨ht, rfl⟩ := hk
      obtain rfl := S.kernel.injective ht
      rw [frame_entry, present, flags_entry]
      refine ⟨by decide, ?_, fun _ => ?_⟩
      · show k.val % 2 ^ 20 = 0 * 1024 + k.val
        omega
      · simp only [IsFramebuffer, Fin.ofNat, t0]
        omega
    · rw [if_neg (mt And.left (hneDir hd t).symm)]
      exact hb.kernelPte t k
  · rw [huser hi] at hp ⊢
    exact hb.userPde i hi hp
  · rw [huser hv] at hp hw ⊢
    have ht : S.table d' v.1 = some (S.mem d' v.1).frame := table_eq_some.2 ⟨hd', hv, hp, rfl⟩
    have hpool : (S.mem d' v.1).frame.Pool :=
      h.alloc.pool (Nat.add_pos_left (refCount.pos_of_mem (s := .table d' v.1) ht) _)
    have hne : (S.mem d' v.1).frame ≠ S.kernel.pageTable t0 := fun he =>
      absurd hpool.1 (not_le.2 (he ▸ S.kernel.below t0))
    rw [hmem, if_neg (mt And.left hne),
      if_neg (mt And.left (h.space.ne_dir_of_table ht hd).symm)] at hw ⊢
    exact hb.userPte v hv hp hw

/-! ## Pages below and above the end of the identity map -/

theorem isUser_vpageOf (hlow : 8192 ≤ p.val) (hhigh : p.val < 786432) : (vpageOf p).1.IsUser := by
  simp only [Idx.IsUser, vpageOf, numKernelPageTables, userPdeLast]
  omega

theorem userAddrResident_iff :
    S.userAddrResident d p = true ↔ ∃ w, S.lookup d (vpageOf p) = some w ∧ w.frame ≠ 0 := by
  rw [userAddrResident, getPhysicalFrame]
  cases hl : S.lookup d (vpageOf p) with
  | none => simp
  | some w => by_cases hz : w.frame = 0 <;> simp [hz]

theorem lookup_eq_some_iff {w : Word} :
    S.lookup d v = some w ↔ (S.mem d v.1).present = true ∧
      (S.mem (S.mem d v.1).frame v.2).present = true ∧ S.mem (S.mem d v.1).frame v.2 = w := by
  dsimp only [lookup]
  cases (S.mem d v.1).present with
  | false => simp
  | true =>
    cases (S.mem (S.mem d v.1).frame v.2).present with
    | false | true => simp

/-- Whatever is present above the identity map is the process's. -/
theorem Built.userMapped (h : Built S d) (hlow : 8192 ≤ p.val)
    (hhigh : p.val < 786432) (hres : S.userAddrResident d p = true) :
    UserMapped S d (vpageOf p) := by
  obtain ⟨w, hw, -⟩ := userAddrResident_iff.1 hres
  obtain ⟨hp, hpt, -⟩ := lookup_eq_some_iff.1 hw
  have hu := isUser_vpageOf hlow hhigh
  exact ⟨hp, h.userPde _ hu hp, hpt, h.userPte _ hu hp hpt⟩

/-- The identity map is present, from its second page on. -/
theorem Built.resident_low (h : Built S d) (hpos : 0 < p.val) (hlow : p.val < 8192) :
    S.userAddrResident d p = true := by
  have ht : p.val / 1024 < numKernelPageTables := by
    simp only [numKernelPageTables]
    omega
  obtain ⟨hp, hf⟩ := h.kernelPde ⟨p.val / 1024, ht⟩ (vpageOf p).1 rfl
  obtain ⟨hpt, hframe, -⟩ := h.kernelPte ⟨p.val / 1024, ht⟩ (vpageOf p).2
  rw [← hf] at hpt hframe
  refine userAddrResident_iff.2 ⟨_, lookup_eq_some_iff.2 ⟨hp, hpt, rfl⟩, fun hz => ?_⟩
  rw [hz] at hframe
  simp only [vpageOf, Fin.val_zero] at hframe
  omega

/-- Of the identity map only the framebuffer can be the process's. -/
theorem Built.framebuffer (h : Built S d) (hlow : p.val < 8192)
    (hu : UserMapped S d (vpageOf p)) : IsFramebuffer p := by
  have ht : p.val / 1024 < numKernelPageTables := by
    simp only [numKernelPageTables]
    omega
  obtain ⟨-, hf⟩ := h.kernelPde ⟨p.val / 1024, ht⟩ (vpageOf p).1 rfl
  obtain ⟨-, -, hpu⟩ := h.kernelPte ⟨p.val / 1024, ht⟩ (vpageOf p).2
  have huser := hu.2.2.2
  rw [hf] at huser
  have hfb := hpu huser
  have hval : (Fin.ofNat (2 ^ 20) (p.val / 1024 * 1024 + (vpageOf p).2.val)) = p := by
    refine Fin.ext ?_
    simp only [Fin.ofNat, vpageOf]
    omega
  rwa [hval] at hfb

/-! ## Ranges of addresses -/

theorem mem_addrRange {n : Nat} {b : Word} :
    b ∈ addrRange a n ↔ ∃ k, k < n ∧ a + ofNat 32 k = b := by
  simp [addrRange]

/-- Without a wrap the addresses of a range are the numbers between its ends. -/
theorem mem_addrRange_iff {n : Nat} (hend : a.toNat + n ≤ 2 ^ 32) {b : Word} :
    b ∈ addrRange a n ↔ a.toNat ≤ b.toNat ∧ b.toNat < a.toNat + n := by
  rw [mem_addrRange]
  constructor
  · rintro ⟨k, hk, rfl⟩
    rw [toNat_add, toNat_ofNat]
    omega
  · rintro ⟨hle, hlt⟩
    refine ⟨b.toNat - a.toNat, by omega, eq_of_toNat_eq ?_⟩
    rw [toNat_add, toNat_ofNat]
    omega

theorem mem_pagesBetween {q x : Frame} (hpx : p.val ≤ x.val) (hxq : x.val ≤ q.val) :
    x ∈ pagesBetween p q := by
  refine mem_map.2 ⟨x.val - p.val, mem_range.2 ?_, Fin.ext ?_⟩
  · rw [Fin.sub_val_of_le (by exact Fin.le_def.2 (hpx.trans hxq))]
    omega
  · show (p.val + (x.val - p.val) % 2 ^ 20) % 2 ^ 20 = x.val
    omega

/-- What `access_ok` lets pass. -/
theorem of_accessOk {n : Word} (hok : accessOk a n = true) :
    4096 ≤ a.toNat ∧ a.toNat + n.toNat ≤ 0xC0000000 := by
  have hbase : kernelBase.toNat = 0xC0000000 := rfl
  have hmin : userMinVa.toNat = 4096 := rfl
  unfold accessOk at hok
  simp only [le_def, BitVec.lt_def, toNat_add, hbase, hmin] at hok
  split at hok
  · exact absurd hok (by decide)
  split at hok
  · exact absurd hok (by decide)
  split at hok
  · exact absurd hok (by decide)
  split at hok
  · exact absurd hok (by decide)
  split at hok
  · exact absurd hok (by decide)
  · omega

/-- Residence is checked for each page of the range. -/
theorem userRangeResident_of_mem {n : Word} (hok : accessOk a n = true)
    (hn : n ≠ 0) (hres : S.userRangeResident d a n = true) {b : Word}
    (hb : b ∈ addrRange a n.toNat) : S.userAddrResident d b.frame = true := by
  obtain ⟨-, hend⟩ := of_accessOk hok
  rw [mem_addrRange_iff (by omega)] at hb
  rw [userRangeResident, if_neg hn, all_eq_true] at hres
  refine hres _ (mem_pagesBetween ?_ ?_)
  · exact Nat.div_le_div_right hb.1
  · have hlast : (a + n - 1).toNat = a.toNat + n.toNat - 1 := by
      rw [BitVec.toNat_sub, toNat_add]
      have : (1 : Word).toNat = 1 := rfl
      omega
    show b.toNat / 4096 ≤ (a + n - 1).toNat / 4096
    exact Nat.div_le_div_right (by omega)

/-- A range of resident pages is the process's exactly where it starts above
the identity map, or lies in a framebuffer that is mapped. -/
theorem Built.range_iff (h : Built S d) {m : Nat} (hpos : 0 < m)
    (hend : a.toNat + m ≤ 0xC0000000)
    (hres : ∀ b ∈ addrRange a m, S.userAddrResident d b.frame = true) :
    (∀ b ∈ addrRange a m, UserMapped S d b.vpage) ↔
      identityMapEnd ≤ a ∨ ∀ b ∈ addrRange a m, IsFramebuffer b.frame ∧ UserMapped S d b.vpage := by
  have hident : identityMapEnd.toNat = 0x2000000 := rfl
  have hmem : ∀ b : Word, b ∈ addrRange a m ↔
      a.toNat ≤ b.toNat ∧ b.toNat < a.toNat + m := fun b => mem_addrRange_iff (by omega)
  have hframe : ∀ b : Word, b.frame.val = b.toNat / 4096 := fun _ => rfl
  constructor
  · intro hall
    by_cases hi : identityMapEnd ≤ a
    · exact .inl hi
    rw [le_def] at hi
    refine .inr fun b hb => ⟨?_, hall b hb⟩
    by_cases hb8 : b.frame.val < 8192
    · exact h.framebuffer hb8 (hall b hb)
    -- A range that starts in the framebuffer and leaves it has the page behind.
    have ha : IsFramebuffer a.frame := by
      refine h.framebuffer ?_ (hall a ((hmem a).2 ⟨le_rfl, by omega⟩))
      rw [hframe]
      omega
    have hb' := (hmem b).1 hb
    simp only [IsFramebuffer, hframe] at ha hb8
    have hmid : (0xB0000 : Word).toNat = 0xB0000 := rfl
    have hbehind := h.framebuffer (by decide)
      (hall 0xB0000 ((hmem _).2 ⟨by omega, by omega⟩))
    exact absurd hbehind.2 (by decide)
  · rintro (hi | hfb) b hb
    · rw [le_def] at hi
      have hb' := (hmem b).1 hb
      refine h.userMapped ?_ ?_ (hres b hb)
      · rw [hframe]
        omega
      · rw [hframe]
        omega
    · exact (hfb b hb).2

/-! ## Strings -/

/-- The string at `src`, read from character `i` on, ends with character `k`
among the next `room`, and lies on resident pages. -/
structure StrEnd (S : Mm) (d : Frame) (src : Word) (i room k : Nat) : Prop where
  le : i ≤ k
  lt : k < i + room
  nul : S.kernelLoad d (src + ofNat 32 k) = 0
  before : ∀ j, i ≤ j → j < k → S.kernelLoad d (src + ofNat 32 j) ≠ 0
  resident : ∀ j, i ≤ j → j ≤ k →
    S.userAddrResident d (src + ofNat 32 j).frame = true

variable {src : Word} {i room k : Nat}

/-- The next character is not the end. -/
theorem StrEnd.cons (h : StrEnd S d src (i + 1) room k)
    (hne : S.kernelLoad d (src + ofNat 32 i) ≠ 0)
    (hres : S.userAddrResident d (src + ofNat 32 i).frame = true) :
    StrEnd S d src i (room + 1) k := by
  refine ⟨by have := h.le; omega, by have := h.lt; omega, h.nul, fun j hi hj => ?_,
    fun j hi hj => ?_⟩
  · rcases Nat.eq_or_lt_of_le hi with rfl | hlt
    · exact hne
    · exact h.before j hlt hj
  · rcases Nat.eq_or_lt_of_le hi with rfl | hlt
    · exact hres
    · exact h.resident j hlt hj

theorem StrEnd.tail (h : StrEnd S d src i (room + 1) k)
    (hne : S.kernelLoad d (src + ofNat 32 i) ≠ 0) : StrEnd S d src (i + 1) room k := by
  have hik : i ≠ k := by
    rintro rfl
    exact hne h.nul
  refine ⟨by have := h.le; omega, by have := h.lt; omega, h.nul,
    fun j hi hj => h.before j (by omega) hj, fun j hi hj => h.resident j (by omega) hj⟩

/-- The loop finds the end of the string, or returns an error where there is
none within the room. -/
theorem copyStrLoop_spec (S : Mm) (d : Frame) (src : Word) (room : Nat) :
    ∀ (i : Nat) (cur : Frame) (acc : List (BitVec 8)), S.userAddrResident d cur = true →
      (∃ k, StrEnd S d src i room k ∧
        (S.copyStrLoop d src room i cur acc).1 = (ofNat 32 k).toInt) ∨
      (∀ k, ¬ StrEnd S d src i room k) ∧ (S.copyStrLoop d src room i cur acc).1 < 0 := by
  induction room with
  | zero =>
    intro i cur acc _
    refine .inr ⟨fun k hk => ?_, show -EOVERFLOW < 0 by decide⟩
    have := hk.le
    have := hk.lt
    omega
  | succ room ih =>
    intro i cur acc hcur
    simp only [copyStrLoop]
    by_cases hfault : (src + ofNat 32 i).frame ≠ cur ∧
        (!S.userAddrResident d (src + ofNat 32 i).frame) = true
    · rw [if_pos hfault]
      refine .inr ⟨fun k hk => ?_, show -EFAULT < 0 by decide⟩
      have hres := hk.resident i le_rfl hk.le
      rw [hres] at hfault
      exact absurd hfault.2 (by decide)
    · rw [if_neg hfault]
      -- A page that was not looked at again is the one found resident before.
      have hres : S.userAddrResident d (src + ofNat 32 i).frame = true := by
        by_cases hpage : (src + ofNat 32 i).frame = cur
        · rw [hpage]
          exact hcur
        · by_contra hno
          exact hfault ⟨hpage, by simpa using hno⟩
      by_cases hc : S.kernelLoad d (src + ofNat 32 i) = 0
      · rw [if_pos hc]
        refine .inl ⟨i, ⟨le_rfl, by omega, hc, fun j _ _ => by omega, fun j hi hj => ?_⟩, rfl⟩
        obtain rfl : j = i := by omega
        exact hres
      · rw [if_neg hc]
        rcases ih (i + 1) _ (acc ++ [S.kernelLoad d (src + ofNat 32 i)]) hres with
          ⟨k, hk, hret⟩ | ⟨hno, hneg⟩
        · exact .inl ⟨k, hk.cons hc hres, hret⟩
        · exact .inr ⟨fun k hk => hno k (hk.tail hc), hneg⟩

theorem StrEnd.unique {k' : Nat} (h : StrEnd S d src i room k)
    (h' : StrEnd S d src i room k') : k = k' := by
  rcases Nat.lt_trichotomy k k' with hlt | heq | hlt
  · exact absurd h.nul (h'.before k h.le hlt)
  · exact heq
  · exact absurd h'.nul (h.before k' h'.le hlt)

end Mm

/-! ## The three calls -/

/-- A copy on behalf of a process. -/
inductive UserCopy where
  | fromUser (dst src n : Word)
  | toUser (dst src n : Word) (content : Nat → BitVec 8)
  | strFromUser (dst src max : Word)

namespace UserCopy

/-- The pointer the process supplied. -/
def user : UserCopy → Word
  | .fromUser _ src _ => src
  | .toUser dst _ _ _ => dst
  | .strFromUser _ src _ => src

/-- What the call returns. -/
def ret (S : Mm) (d : Frame) : UserCopy → Int
  | .fromUser dst src n => (S.copyFromUser d dst src n).1
  | .toUser dst src n content => (S.copyToUser d dst src n content).2
  | .strFromUser dst src max => (S.copyStrFromUser d dst src max).1

/-- The addresses a call that succeeded has accessed; a string is read up to its
end. -/
def touched (S : Mm) (d : Frame) : UserCopy → List Word
  | .fromUser _ src n => addrRange src n.toNat
  | .toUser dst _ n _ => addrRange dst n.toNat
  | .strFromUser dst src max => addrRange src (((S.copyStrFromUser d dst src max).1).toNat + 1)

/-- The arguments pass the checks of the call, and `m` bytes are to be accessed. -/
def Passes (S : Mm) (d : Frame) (m : Nat) : UserCopy → Prop
  | .fromUser dst src n => dst ≠ 0 ∧ src ≠ 0 ∧ n ≠ 0 ∧ accessOk src n = true ∧
      S.userRangeResident d src n = true ∧ m = n.toNat
  | .toUser dst src n _ => dst ≠ 0 ∧ src ≠ 0 ∧ n ≠ 0 ∧ accessOk dst n = true ∧
      S.userRangeResident d dst n = true ∧ m = n.toNat
  | .strFromUser dst src max => dst ≠ 0 ∧ src ≠ 0 ∧ max ≠ 0 ∧
      accessOk src max = true ∧
      ∃ k, k < 2 ^ 31 ∧ Mm.StrEnd S d src 0 (max.toNat - 1) k ∧ m = k + 1

variable {S : Mm} {d : Frame} {m : Nat} {call : UserCopy}

/-- `copy_str_from_user` after its checks. -/
theorem copyStrFromUser_eq {dst src max : Word} (hdst : dst ≠ 0) (hsrc : src ≠ 0)
    (hmax : max ≠ 0) (hok : accessOk src max = true)
    (hres : S.userAddrResident d src.frame = true) :
    S.copyStrFromUser d dst src max = S.copyStrLoop d src (max.toNat - 1) 0 src.frame [] := by
  rw [Mm.copyStrFromUser, if_neg (not_or.2 ⟨hdst, not_or.2 ⟨hsrc, hmax⟩⟩), if_neg (by simp [hok]),
    if_neg (by simp [hres])]

theorem toInt_of_lt {k : Nat} (hk : k < 2 ^ 31) : (ofNat 32 k).toInt = k := by
  rw [BitVec.toInt_eq_toNat_cond, toNat_ofNat]
  split <;> omega

/-- Such a call succeeds and accesses these bytes. -/
theorem Passes.succeeds (h : call.Passes S d m) :
    0 ≤ call.ret S d ∧ call.touched S d = addrRange call.user m := by
  cases call with
  | fromUser dst src n =>
    obtain ⟨hdst, hsrc, hn, hok, hres, rfl⟩ := h
    refine ⟨?_, rfl⟩
    rw [ret, Mm.copyFromUser, if_neg (not_or.2 ⟨hdst, hsrc⟩), if_neg hn,
      if_neg (by simp [hok]), if_neg (by simp [hres])]
  | toUser dst src n content =>
    obtain ⟨hdst, hsrc, hn, hok, hres, rfl⟩ := h
    refine ⟨?_, rfl⟩
    rw [ret, Mm.copyToUser, if_neg (not_or.2 ⟨hdst, hsrc⟩), if_neg hn,
      if_neg (by simp [hok]), if_neg (by simp [hres])]
  | strFromUser dst src max =>
    obtain ⟨hdst, hsrc, hmax, hok, k, hk, hend, rfl⟩ := h
    have hfirst := hend.resident 0 le_rfl hend.le
    rw [BitVec.add_zero] at hfirst
    have hret : (S.copyStrFromUser d dst src max).1 = k := by
      rw [copyStrFromUser_eq hdst hsrc hmax hok hfirst]
      rcases Mm.copyStrLoop_spec S d src (max.toNat - 1) 0 src.frame [] hfirst with
        ⟨k', hend', hret⟩ | ⟨hno, -⟩
      · rw [hret, hend.unique hend', toInt_of_lt (hend.unique hend' ▸ hk)]
      · exact absurd hend (hno k)
    constructor
    · rw [ret, hret]
      exact Int.natCast_nonneg k
    · rw [touched, hret]
      rfl

/-- A call that succeeds passed its checks, or had nothing to copy. -/
theorem passes_of_ret (hret : 0 ≤ call.ret S d) :
    call.touched S d = [] ∨ ∃ m, call.Passes S d m := by
  cases call with
  | fromUser dst src n =>
    rw [ret, Mm.copyFromUser] at hret
    split at hret
    · exact absurd hret (by decide)
    next hptr =>
    split at hret
    · next hn =>
      subst hn
      exact .inl rfl
    next hn =>
    split at hret
    · exact absurd hret (by decide)
    next hok =>
    split at hret
    · exact absurd hret (by decide)
    next hres =>
    exact .inr ⟨_, (not_or.1 hptr).1, (not_or.1 hptr).2, hn, by simpa using hok,
      by simpa using hres, rfl⟩
  | toUser dst src n content =>
    rw [ret, Mm.copyToUser] at hret
    split at hret
    · exact absurd hret (show ¬ (0 : Int) ≤ -EINVAL by decide)
    next hptr =>
    split at hret
    · next hn =>
      subst hn
      exact .inl rfl
    next hn =>
    split at hret
    · exact absurd hret (show ¬ (0 : Int) ≤ -EFAULT by decide)
    next hok =>
    split at hret
    · exact absurd hret (show ¬ (0 : Int) ≤ -EFAULT by decide)
    next hres =>
    exact .inr ⟨_, (not_or.1 hptr).1, (not_or.1 hptr).2, hn, by simpa using hok,
      by simpa using hres, rfl⟩
  | strFromUser dst src max =>
    rw [ret, Mm.copyStrFromUser] at hret
    split at hret
    · exact absurd hret (by decide)
    next hptr =>
    split at hret
    · exact absurd hret (by decide)
    next hok =>
    split at hret
    · exact absurd hret (by decide)
    next hres =>
    -- the loop has found the terminator, or has stopped with an error
    obtain ⟨hdst, hptr⟩ := not_or.1 hptr
    obtain ⟨hsrc, hmax⟩ := not_or.1 hptr
    rcases Mm.copyStrLoop_spec S d src (max.toNat - 1) 0 src.frame []
      (by simpa using hres) with ⟨k, hend, heq⟩ | ⟨-, hneg⟩
    · refine .inr ⟨_, hdst, hsrc, hmax, by simpa using hok, k, ?_, hend, rfl⟩
      rw [heq, BitVec.toInt_eq_toNat_cond, toNat_ofNat] at hret
      have := hend.lt
      split at hret <;> omega
    · exact absurd hret (by omega)

/-- What a copy has checked before it touches memory. -/
theorem Passes.range (h : call.Passes S d m) :
    4096 ≤ call.user.toNat ∧ 0 < m ∧ call.user.toNat + m ≤ 0xC0000000 ∧
      ∀ b ∈ addrRange call.user m, S.userAddrResident d b.frame = true := by
  have hposOf : ∀ {n : Word}, n ≠ 0 → 0 < n.toNat := fun {n} hn =>
    Nat.pos_of_ne_zero fun hz => hn (eq_of_toNat_eq hz)
  cases call with
  | fromUser | toUser =>
    obtain ⟨-, -, hn, hok, hres, rfl⟩ := h
    obtain ⟨hlow, hend⟩ := Mm.of_accessOk hok
    exact ⟨hlow, hposOf hn, hend, fun b hb => Mm.userRangeResident_of_mem hok hn hres hb⟩
  | strFromUser dst src max =>
    obtain ⟨-, -, hmax, hok, k, hk, hstr, rfl⟩ := h
    obtain ⟨hlow, hend⟩ := Mm.of_accessOk hok
    have hlt := hstr.lt
    refine ⟨hlow, Nat.succ_pos k, ?_, fun b hb => ?_⟩
    · show src.toNat + (k + 1) ≤ _
      omega
    · obtain ⟨j, hj, rfl⟩ := Mm.mem_addrRange.1 hb
      exact hstr.resident j (Nat.zero_le j) (by omega)

/-- A call succeeds only on pages of the process exactly where its pointer, if it
passes the checks, lies above the identity map or in a framebuffer that is
mapped. -/
theorem userMapped_iff_above_identityMap (h : Mm.Built S d) (call : UserCopy) :
    (0 ≤ call.ret S d → ∀ a ∈ call.touched S d, Mm.UserMapped S d a.vpage) ↔
      ∀ m, call.Passes S d m → identityMapEnd ≤ call.user ∨
        ∀ a ∈ addrRange call.user m, IsFramebuffer a.frame ∧ Mm.UserMapped S d a.vpage := by
  constructor
  · intro hall m hm
    obtain ⟨hret, htouched⟩ := hm.succeeds
    obtain ⟨-, hpos, hend, hres⟩ := hm.range
    refine (h.range_iff hpos hend hres).1 ?_
    rw [← htouched]
    exact hall hret
  · intro hcond hret
    rcases passes_of_ret hret with hnil | ⟨m, hm⟩
    · rw [hnil]
      exact fun a ha => absurd ha not_mem_nil
    · obtain ⟨-, hpos, hend, hres⟩ := hm.range
      rw [hm.succeeds.2]
      exact (h.range_iff hpos hend hres).2 (hcond m hm)

/-! ## The first process -/

/-- The first process has been created. -/
def firstMm : Mm := Mm.bootMm.mmStep Mm.createOp

theorem built_firstMm : Mm.Built firstMm 2816 := by
  have hroom : Mm.Room identityEndFrame Mm.bootMm 0 (0 + 65) :=
    Mm.room_pagingInit Mm.lowLayout _ 0 (le_refl _) (by decide)
  have hinv := (hroom.create (Mm.inv_pagingInit Mm.lowLayout _) (countRel_eq 0xFFFF)
    Mm.stacked_bootMm).2.1
  exact hinv.space.built (Mm.mem_dirs_first hroom)

/-- Four bytes are copied to the start of the kernel's code, from a buffer in its
heap. -/
def kernelWrite : UserCopy := .toUser 0x100000 0x300000 4 fun _ => 0

/-- The copy succeeds although the page is the kernel's. -/
theorem kernelWrite_succeeds :
    ¬ (0 ≤ kernelWrite.ret firstMm 2816 →
      ∀ a ∈ kernelWrite.touched firstMm 2816, Mm.UserMapped firstMm 2816 a.vpage) := by
  have hpages : pagesBetween (0x100000 : Word).frame (0x100000 + 4 - 1 : Word).frame
      = [256] := by decide
  have hres : firstMm.userRangeResident 2816 0x100000 4 = true := by
    rw [Mm.userRangeResident, hpages, all_cons, all_nil,
      built_firstMm.resident_low (by decide) (by decide)]
    rfl
  have hpass : kernelWrite.Passes firstMm 2816 4 :=
    ⟨by decide, by decide, by decide, by decide, hres, rfl⟩
  intro hall
  have hmapped := hall hpass.succeeds.1 0x100000 (by
    decide)
  exact absurd (built_firstMm.framebuffer (by decide) hmapped).2 (by decide)

/-- A copy from the stack of the process. -/
def stackRead : UserCopy := .fromUser 0x300000 0x7FFE8000 16

theorem userMapped_stackRead :
    Mm.Built firstMm 2816 ∧
      (0 ≤ stackRead.ret firstMm 2816 →
        ∀ a ∈ stackRead.touched firstMm 2816, Mm.UserMapped firstMm 2816 a.vpage) :=
  ⟨built_firstMm, (userMapped_iff_above_identityMap built_firstMm stackRead).2
    fun _ _ => .inl (by decide)⟩

end UserCopy

end UnixOs
