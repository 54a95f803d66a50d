import UnixOs.Mm.ElfImage

/-!
# Where the images go (elf_loader.c)

`map_segment_streaming` checks that a segment starts in
`[USER_CODE_BASE, USER_SPACE_END)` and that its end does not wrap. It does not look
at where the segment ends, at the pages of the stack, or at the other image. So the
pages are where they should be just when the headers say so: every segment ends
below the stack, and the program and its interpreter are apart.
-/

namespace UnixOs

open List

namespace Placed

variable {s t : Placed}

/-- The segment has pages. -/
def Loads (s : Placed) : Prop := s.ph.pType = ptLoad ∧ s.ph.pMemsz ≠ 0

/-- The memory of a segment ends below the stack. -/
def BelowStack (s : Placed) : Prop :=
  s.Loads → s.start.toNat + s.ph.pMemsz.toNat ≤ stackBottom

/-- The pages of two segments, from the first to the one after the last, are apart. -/
def Apart (s t : Placed) : Prop :=
  s.Loads → t.Loads →
    s.endPage ≤ t.start.toNat / 4096 ∨ t.endPage ≤ s.start.toNat / 4096

instance (s : Placed) : Decidable s.Loads := inferInstanceAs (Decidable (_ ∧ _))
instance (s : Placed) : Decidable s.BelowStack := inferInstanceAs (Decidable (_ → _))
instance (s t : Placed) : Decidable (s.Apart t) := inferInstanceAs (Decidable (_ → _ → _ ∨ _))

theorem Loads.pos (h : s.Loads) : 0 < s.ph.pMemsz.toNat := by
  have hne : s.ph.pMemsz.toNat ≠ 0 := fun h0 => h.2 (BitVec.eq_of_toNat_eq h0)
  omega

theorem covers_iff {a : Word} : s.Covers a ↔ s.Loads ∧
    s.start.toNat / 4096 ≤ a.toNat / 4096 ∧ a.toNat / 4096 < s.endPage := by
  rw [Covers, Loads, and_assoc]

/-- The pages of a segment are in user space and not the stack's just when its memory
ends below the stack. -/
theorem Accepted.belowStack_iff (h : s.Accepted) :
    (∀ a, s.Covers a → (userCodeBase.toNat ≤ a.toNat ∧ a.toNat < userSpaceEnd.toNat) ∧
      a.vpage ∉ Mm.stackPages) ↔ s.BelowStack := by
  have hcode : userCodeBase.toNat = 0x08048000 := rfl
  have hspace : userSpaceEnd.toNat = 0x80000000 := rfl
  have htop : userStackBase.toNat = 0x80000000 := rfl
  have hbottom : stackBottom = 0x7FFE0000 := rfl
  constructor
  · intro hall hloads
    obtain ⟨hlo, hhi, hend⟩ := h hloads.1 hloads.2
    have hpos := hloads.pos
    by_contra hover
    -- The segment has the lowest page of the stack or starts above it.
    have ha : (BitVec.ofNat 32 (max s.start.toNat stackBottom)).toNat
        = max s.start.toNat stackBottom := by
      rw [BitVec.toNat_ofNat]
      omega
    refine (hall (BitVec.ofNat 32 (max s.start.toNat stackBottom))
      (covers_iff.2 ⟨hloads, ?_, ?_⟩)).2 ((vpage_mem_stackPages _).2 ?_)
    · rw [ha]
      omega
    · rw [ha, endPage]
      omega
    · rw [ha]
      omega
  · intro hbelow a ha
    obtain ⟨hloads, hge, hlt⟩ := covers_iff.1 ha
    obtain ⟨hlo, hhi, hend⟩ := h hloads.1 hloads.2
    have hstop := hbelow hloads
    rw [endPage] at hlt
    rw [vpage_mem_stackPages]
    omega

/-- Two segments share no address exactly if one ends, in pages, before the other begins. -/
theorem apart_iff : (∀ a, ¬ (s.Covers a ∧ t.Covers a)) ↔ s.Apart t := by
  constructor
  · intro hall hs ht
    have hpos := hs.pos
    have hpos' := ht.pos
    by_contra hmeet
    obtain ⟨hst, hts⟩ := not_or.1 hmeet
    -- The higher of the two first pages belongs to both.
    have ha : (BitVec.ofNat 32 (max s.start.toNat t.start.toNat)).toNat
        = max s.start.toNat t.start.toNat := by
      rw [BitVec.toNat_ofNat]
      omega
    refine hall (BitVec.ofNat 32 (max s.start.toNat t.start.toNat))
      ⟨covers_iff.2 ⟨hs, ?_, ?_⟩, covers_iff.2 ⟨ht, ?_, ?_⟩⟩ <;> rw [ha]
    · omega
    · simp only [endPage] at hst hts ⊢
      omega
    · omega
    · simp only [endPage] at hst hts ⊢
      omega
  · rintro hapart a ⟨ha, ha'⟩
    obtain ⟨hs, hge, hlt⟩ := covers_iff.1 ha
    obtain ⟨ht, hge', hlt'⟩ := covers_iff.1 ha'
    rcases hapart hs ht with hle | hle
    · omega
    · omega

end Placed

namespace Vm

variable {S : Vm} {d : Frame} {c : Nat} {inp : ElfInput}

/-- The pages of the segments are mapped, lie in user space and are not pages of the
stack, and no page belongs to the program and to its interpreter. -/
structure LaidOut (S S' : Vm) (d : Frame) (inp : ElfInput) : Prop where
  mapped : ∀ s ∈ S.placed d inp, ∀ a, s.Covers a → (S'.mm.userByte d a).isSome
  inside : ∀ s ∈ S.placed d inp, ∀ a, s.Covers a →
    userCodeBase.toNat ≤ a.toNat ∧ a.toNat < userSpaceEnd.toNat
  offStack : ∀ s ∈ S.placed d inp, ∀ a, s.Covers a → a.vpage ∉ Mm.stackPages
  apart : ∀ s ∈ inp.exe.placed inp.base, ∀ t ∈ S.interpPlaced d inp,
    ∀ a, ¬ (s.Covers a ∧ t.Covers a)

/-- After a load that succeeds the images are laid out as they should be just when
every segment ends below the stack and those of the program are apart from those of the
interpreter. -/
theorem laidOut_iff (hinv : Mm.Inv (· ≤ ·) S.mm Mm.noneHeld) (hd : d ∈ S.mm.dirs)
    (hload : ¬ (S.loadElfProcess c d inp).2 < 0) :
    LaidOut S (S.loadElfProcess c d inp).1 d inp ↔
      (∀ s ∈ S.placed d inp, s.BelowStack) ∧
        ∀ s ∈ inp.exe.placed inp.base, ∀ t ∈ S.interpPlaced d inp, s.Apart t := by
  obtain ⟨haccs, hbytes⟩ := userByte_loadElfProcess hinv hd hload
  constructor
  · intro h
    refine ⟨fun s hs => (haccs s hs).belowStack_iff.1 fun a ha =>
      ⟨h.inside s hs a ha, h.offStack s hs a ha⟩, fun s hs t ht => ?_⟩
    exact Placed.apart_iff.1 (h.apart s hs t ht)
  · rintro ⟨hbelow, hapart⟩
    have hpages := fun s hs => (haccs s hs).belowStack_iff.2 (hbelow s hs)
    refine ⟨fun s hs a ha => ?_, fun s hs a ha => (hpages s hs a ha).1,
      fun s hs a ha => (hpages s hs a ha).2,
      fun s hs t ht => Placed.apart_iff.2 (hapart s hs t ht)⟩
    obtain ⟨t, ht⟩ := exists_owner hs ha
    rw [hbytes, loadedByte, ht]
    rfl

/-- A page of memory at `addr`, with an interpreter of one page at its base. -/
def oneSegment (addr memsz : Word) : ElfInput :=
  ⟨0, .readable [] [⟨ptLoad, 0, addr, 0, memsz, 0⟩] addr, 0,
    some (0, 0, .readable [] [⟨ptLoad, 0, 0, 0, 4096, 0⟩] 0)⟩

theorem placed_oneSegment (addr memsz : Word) :
    (oneSegment addr memsz).exe.placed (oneSegment addr memsz).base
      = [⟨⟨ptLoad, 0, addr, 0, memsz, 0⟩, [], 0⟩] := rfl

theorem interpPlaced_oneSegment (addr memsz : Word) :
    firstVm.interpPlaced 2816 (oneSegment addr memsz)
      = [⟨⟨ptLoad, 0, 0, 0, 4096, 0⟩, [], userHeapBase⟩] := by
  obtain ⟨m, hfirst, -⟩ := firstVm_spec
  rw [hfirst]
  rfl

/-- A program at `USER_CODE_BASE`. -/
theorem laidOut_low :
    (firstVm.loadElfProcess 0 2816 (oneSegment userCodeBase 4096)).2 = 0 ∧
      LaidOut firstVm (firstVm.loadElfProcess 0 2816 (oneSegment userCodeBase 4096)).1 2816
        (oneSegment userCodeBase 4096) := by
  have hload : (firstVm.loadElfProcess 0 2816 (oneSegment userCodeBase 4096)).2 = 0 :=
    (firstVm_loads _ _ _ (by decide) (by decide) (by decide) (by decide)).2
  refine ⟨hload, (laidOut_iff firstVm_inv.1 firstVm_inv.2 (by rw [hload]; decide)).2 ?_⟩
  rw [placed, placed_oneSegment, interpPlaced_oneSegment]
  exact ⟨by decide, by decide⟩

/-- A program of two pages at the last page of user space gets the page after it and one
of the stack; a program at `USER_HEAP_BASE` shares a page with its interpreter. -/
theorem laidOut_high_fails :
    (firstVm.loadElfProcess 0 2816 (oneSegment 0x7FFFF000 8192)).2 = 0 ∧
    ¬ LaidOut firstVm (firstVm.loadElfProcess 0 2816 (oneSegment 0x7FFFF000 8192)).1 2816
      (oneSegment 0x7FFFF000 8192) ∧
    ((firstVm.loadElfProcess 0 2816 (oneSegment 0x7FFFF000 8192)).1.mm.userByte 2816
      userSpaceEnd).isSome ∧
    (firstVm.loadElfProcess 0 2816 (oneSegment userHeapBase 4096)).2 = 0 ∧
    ¬ LaidOut firstVm (firstVm.loadElfProcess 0 2816 (oneSegment userHeapBase 4096)).1 2816
      (oneSegment userHeapBase 4096) := by
  have hload : (firstVm.loadElfProcess 0 2816 (oneSegment 0x7FFFF000 8192)).2 = 0 :=
    (firstVm_loads _ _ _ (by decide) (by decide) (by decide) (by decide)).2
  have hload' : (firstVm.loadElfProcess 0 2816 (oneSegment userHeapBase 4096)).2 = 0 :=
    (firstVm_loads _ _ _ (by decide) (by decide) (by decide) (by decide)).2
  refine ⟨hload, fun h => ?_, ?_, hload', fun h => ?_⟩
  · exact absurd (h.inside _ mem_cons_self userSpaceEnd (by decide)).2 (by decide)
  · rw [(userByte_loadElfProcess firstVm_inv.1 firstVm_inv.2 (by rw [hload]; decide)).2,
      placed, placed_oneSegment, interpPlaced_oneSegment]
    decide
  · have hapart := h.apart
    rw [placed_oneSegment, interpPlaced_oneSegment] at hapart
    exact hapart _ mem_cons_self _ mem_cons_self userHeapBase (by decide)

end Vm

end UnixOs
