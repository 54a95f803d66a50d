import UnixOs.Mm.TwinVm

/-!
# The bytes a process reads

A page is 1024 words and a process reads bytes. `pageByte` is the byte at an offset
of a page, `copy_to_frame` stores a list of bytes from an offset on
(`pageByte_overlay`), and `userByte` is the byte at an address, through the tables.
-/

namespace UnixOs

open Function List BitVec

namespace Word

theorem getLsbD_byteMask (i : Nat) : (0xFF#32).getLsbD i = decide (i < 8) := by
  rw [show (0xFF#32) = BitVec.ofNat 32 (2 ^ 8 - 1) from rfl, getLsbD_ofNat,
    Nat.testBit_two_pow_sub_one, Bool.and_eq_decide]
  exact decide_eq_decide.2 (by simp only [decide_eq_true_eq]; omega)

/-- A byte of a word is changed and the other three stay. -/
theorem byte_setByte (w : Word) (k k' : Fin 4) (x : BitVec 8) :
    (w.setByte k x).byte k' = if k' = k then x else w.byte k' := by
  refine eq_of_getLsbD_eq fun i hi => ?_
  have hlt : 8 * k'.val + i < 32 := by omega
  have hbit : ((w.setByte k x).byte k').getLsbD i
      = (w.getLsbD (8 * k'.val + i) &&
          (decide (8 * k'.val + i < 8 * k.val) || !decide (8 * k'.val + i - 8 * k.val < 8)) ||
        (!decide (8 * k'.val + i < 8 * k.val) && x.getLsbD (8 * k'.val + i - 8 * k.val))) := by
    have hlt' : 8 * k'.val + i - 8 * k.val < 32 := by omega
    simp only [byte, setByte, getLsbD_extractLsb', getLsbD_or, getLsbD_and,
      getLsbD_not, getLsbD_shiftLeft, getLsbD_setWidth, getLsbD_byteMask,
      hi, hlt, hlt', decide_true, Bool.true_and, Bool.not_and, Bool.not_not]
  rw [hbit]
  obtain rfl | hk := eq_or_ne k' k
  · rw [if_pos rfl, decide_eq_false (by omega), Nat.add_sub_cancel_left, decide_eq_true hi]
    simp
  · rw [if_neg hk, byte, getLsbD_extractLsb', decide_eq_true hi, Bool.true_and]
    by_cases hlow : 8 * k'.val + i < 8 * k.val
    · simp [hlow]
    · -- Above byte `k` the stored byte has no bit.
      rw [decide_eq_false hlow, decide_eq_false (by omega), getLsbD_of_ge x _ (by omega)]
      simp

end Word

namespace Mm

/-! ## Pages -/

/-- The byte at offset `o` of a page. -/
def pageByte (ws : Idx → Word) (o : Nat) : BitVec 8 :=
  (ws (Fin.ofNat (2 ^ 10) (o / 4))).byte (Fin.ofNat 4 o)

/-- The same for a byte of a page. -/
theorem pageByte_storeByte (ws : Idx → Word) {o o' : Nat} (ho : o < 4096) (ho' : o' < 4096)
    (x : BitVec 8) :
    pageByte (storeByte ws (Fin.ofNat (2 ^ 10) (o / 4)) (Fin.ofNat 4 o) x) o'
      = if o' = o then x else pageByte ws o' := by
  simp only [pageByte, storeByte]
  by_cases hword : o' / 4 = o / 4
  · rw [hword, update_self, Word.byte_setByte]
    have hlane : Fin.ofNat 4 o' = Fin.ofNat 4 o ↔ o' = o := by
      simp only [Fin.ext_iff, Fin.val_ofNat]
      omega
    simp only [hlane]
  · have hne : Fin.ofNat (2 ^ 10) (o' / 4) ≠ Fin.ofNat (2 ^ 10) (o / 4) := by
      simp only [ne_eq, Fin.ext_iff, Fin.val_ofNat]
      omega
    rw [update_of_ne hne, if_neg fun h => hword (by rw [h])]

theorem overlay_concat (ws : Idx → Word) (off : Nat) (bytes : List (BitVec 8)) (x : BitVec 8) :
    overlay ws off (bytes ++ [x]) = storeByte (overlay ws off bytes)
      (Fin.ofNat (2 ^ 10) ((off + bytes.length) / 4)) (Fin.ofNat 4 (off + bytes.length)) x := by
  simp [overlay, zipIdx_append, foldl_append]

/-- Bytes stored from `off` on. -/
theorem pageByte_overlay (ws : Idx → Word) {off o : Nat} {bytes : List (BitVec 8)}
    (hfit : off + bytes.length ≤ 4096) (ho : o < 4096) :
    pageByte (overlay ws off bytes) o
      = if off ≤ o then (bytes[o - off]?).getD (pageByte ws o) else pageByte ws o := by
  -- From the end, as the bytes are stored in order.
  induction bytes using reverseRecOn with
  | nil =>
    show pageByte ws o = _
    simp
  | append_singleton bytes x ih =>
    rw [length_append, length_singleton] at hfit
    rw [overlay_concat, pageByte_storeByte _ (by omega) ho, ih (by omega)]
    obtain rfl | hlast := eq_or_ne o (off + bytes.length)
    · simp
    · rw [if_neg hlast]
      by_cases hoff : off ≤ o
      · rw [if_pos hoff, if_pos hoff]
        by_cases hin : o - off < bytes.length
        · rw [getElem?_append_left hin]
        · rw [List.getElem?_eq_none (by omega), List.getElem?_eq_none]
          rw [length_append, length_singleton]
          omega
      · rw [if_neg hoff, if_neg hoff]

/-! ## Addresses -/

variable {S : Mm} {d : Frame} {held : Frame → Nat}

/-- The byte a process loads at an address. -/
def userByte (S : Mm) (d : Frame) (a : Word) : Option (BitVec 8) :=
  S.userLoad d a.vpage a.wordIdx a.lane

theorem userByte_eq (h : SpaceInv S held) (hd : d ∈ S.dirs) (a : Word) :
    S.userByte d a = (S.view d a.vpage).map fun y => pageByte y.2 (a.toNat % 4096) := by
  have hidx : a.wordIdx = Fin.ofNat (2 ^ 10) (a.toNat % 4096 / 4) := by
    simp only [Word.wordIdx, Fin.ext_iff, Fin.val_ofNat]
    omega
  have hlane : a.lane = Fin.ofNat 4 (a.toNat % 4096) := by
    simp only [Word.lane, Fin.ext_iff, Fin.val_ofNat]
    omega
  rw [userByte, userLoad_eq h hd, hidx, hlane]
  rfl

theorem vpage_eq_iff {a b : Word} : a.vpage = b.vpage ↔ a.toNat / 4096 = b.toNat / 4096 := by
  simp only [Word.vpage, vpageOf, Word.frame, Prod.mk.injEq, Fin.mk.injEq]
  omega

end Mm

/-- The first address of the stack's pages. -/
def stackBottom : Nat := 0x7FFE0000

/-- The pages of the stack as addresses. -/
theorem vpage_mem_stackPages (a : Word) :
    a.vpage ∈ Mm.stackPages ↔ stackBottom ≤ a.toNat ∧ a.toNat < userStackBase.toNat := by
  have htop : userStackBase.toNat = 0x80000000 := rfl
  rw [Mm.stackPages, mem_map, htop, stackBottom]
  constructor
  · rintro ⟨j, hj, hv⟩
    have hrange := Mm.mem_idxRange.1 hj
    have hdir : 511 = a.toNat / 4096 / 1024 := congrArg (fun v : VPage => v.1.val) hv
    have htbl : j.val = a.toNat / 4096 % 1024 := congrArg (fun v : VPage => v.2.val) hv
    omega
  · rintro ⟨hlo, hhi⟩
    refine ⟨a.vpage.2, Mm.mem_idxRange.2 ?_, Prod.ext (Fin.ext ?_) rfl⟩
    · show 992 ≤ a.toNat / 4096 % 1024 ∧ a.toNat / 4096 % 1024 < 1024
      omega
    · show 511 = a.toNat / 4096 / 1024
      omega

end UnixOs
