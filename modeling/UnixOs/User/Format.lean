import Mathlib.Data.Nat.Digits.Lemmas

/-!
# Printed integers (stdio_full.c)

`emit_num` pads only on the left, puts the sign of a number on the wrong side of the padding, and
writes too few zeros for a precision.

- `standard`: what the C standard prescribes, from the value of the number;
- `emitNum_ok_iff`: when this is what comes out.
-/

namespace UnixOs.Stdio

open List

/-- The integer conversions of `vformat` (stdio_full.c:228). -/
inductive Conv where
  | d | u | o | x | X
  deriving DecidableEq

def Conv.base : Conv → Nat
  | .d | .u => 10
  | .o => 8
  | .x | .X => 16

/-- `d < 10 ? '0' + d : (upper ? 'A' : 'a') + d - 10`. -/
def Conv.digit (conv : Conv) (d : Nat) : Char :=
  .ofNat (if d < 10 then 48 + d else (if conv = .X then 65 else 97) + d - 10)

variable (conv : Conv) (val : BitVec 32) (left zero : Bool) (width prec : Int)

/-- `neg` of `emit_num`. -/
def Neg : Prop := conv = .d ∧ val.slt 0

instance : Decidable (Neg conv val) := inferInstanceAs (Decidable (_ ∧ _))

def sign : List Char := if Neg conv val then ['-'] else []

/-- The loop over the digits (stdio_full.c:190), last digit first. -/
def digitLoop (conv : Conv) (val : Nat) (buf : List Char) : List Char :=
  if val = 0 then buf
  else digitLoop conv (val / conv.base) (buf ++ [conv.digit (val % conv.base)])
termination_by val
decreasing_by exact Nat.div_lt_self (by omega) (by cases conv <;> decide)

/-- `buf` of `emit_num` after the loop over the digits. -/
def digits : List Char :=
  let val := if Neg conv val then -val else val
  digitLoop conv val.toNat (if val = 0 ∧ prec ≠ 0 then ['0'] else [])

/-- `while (prec > i) buf[i++] = '0', prec--` (stdio_full.c:196). -/
def zeroPad (prec : Int) (buf : List Char) : List Char :=
  if buf.length < prec then zeroPad (prec - 1) (buf ++ ['0']) else buf
termination_by (prec - buf.length).toNat
decreasing_by rw [length_append, length_singleton]; omega

/-- `emit_num` (stdio_full.c:179) as `vformat` calls it. -/
def emitNum : List Char :=
  let pad := if zero && !left then '0' else ' '
  let buf := zeroPad prec (digits conv val prec)
  let fill := replicate (width - (buf.length + (sign conv val).length)).toNat pad
  (if pad = ' ' then sign conv val ++ fill else fill ++ sign conv val) ++ buf.reverse

/-! ## The standard -/

/-- The number that is printed: of the argument as an `int` or as an `unsigned`. -/
def value : Int := if conv = .d then val.toInt else val.toNat

/-- The digits of the conversion. -/
def Conv.alphabet : Conv → List Char
  | .d | .u => "0123456789".toList
  | .o => "01234567".toList
  | .x => "0123456789abcdef".toList
  | .X => "0123456789ABCDEF".toList

/-- A number without leading zeros. Zero with the precision zero has no digit at all. -/
def numeral : List Char :=
  if value conv val = 0 then if prec = 0 then [] else ['0']
  else
    ((Nat.digits conv.alphabet.length (value conv val).natAbs).map
      fun d => conv.alphabet.getD d '?').reverse

/-- The output that the C standard prescribes. A negative width is a `-` flag, and the `0` flag
does nothing beside a precision. -/
def standard : List Char :=
  let sgn := if value conv val < 0 then ['-'] else []
  let ds := numeral conv val prec
  let ds := replicate (prec - ds.length).toNat '0' ++ ds
  let gap := width.natAbs - (sgn.length + ds.length)
  if left ∨ width < 0 then sgn ++ ds ++ replicate gap ' '
  else if zero ∧ prec < 0 then sgn ++ replicate gap '0' ++ ds
  else replicate gap ' ' ++ sgn ++ ds

/-- The flags, widths and precisions that `emit_num` gets right for a number of `len` digits, with
`sgn` characters for its sign. A precision may ask for one zero at most. To the left nothing may be
filled up, unless there is nothing to print, and before a sign nothing at all. -/
def Right (len sgn : Int) (left zero : Bool) (width prec : Int) : Prop :=
  if left ∨ width < 0 then
    prec ≤ len + 1 ∧ width.natAbs ≤ sgn + max len prec ∨ len = 0 ∧ prec ≤ 0 ∧ 0 ≤ width
  else if zero ∧ prec < 0 then sgn = 0 ∨ width ≤ sgn + len
  else if zero then
    prec ≤ len + 1 ∧ width ≤ sgn + max len prec ∨ sgn = 0 ∧ width = prec ∧ prec + len ≤ 64
  else prec ≤ len + 1 ∧ (sgn = 0 ∨ width ≤ sgn + max len prec)

instance (len sgn : Int) : Decidable (Right len sgn left zero width prec) :=
  inferInstanceAs (Decidable (ite _ _ _))

/-! ## The loops -/

/-- The second loop comes half of the way. -/
theorem zeroPad_eq (prec : Int) (buf : List Char) :
    zeroPad prec buf = buf ++ replicate ((prec - buf.length + 1) / 2).toNat '0' := by
  fun_induction zeroPad prec buf with
  | case1 prec buf hlt ih =>
    have hk : ((prec - buf.length + 1) / 2).toNat =
        ((prec - 1 - (buf ++ ['0']).length + 1) / 2).toNat + 1 := by
      rw [length_append, length_singleton]
      omega
    rw [ih, hk, replicate_succ, append_assoc]
    rfl
  | case2 prec buf hge =>
    have hk : ((prec - buf.length + 1) / 2).toNat = 0 := by omega
    rw [hk, replicate_zero, append_nil]

theorem two_le_base : 2 ≤ conv.base := by cases conv <;> decide

theorem digitLoop_eq (val : Nat) (buf : List Char) :
    digitLoop conv val buf = buf ++ (Nat.digits conv.base val).map conv.digit := by
  fun_induction digitLoop conv val buf with
  | case1 buf => simp
  | case2 val buf hne ih =>
    rw [ih, Nat.digits_def' (two_le_base conv) (Nat.pos_of_ne_zero hne), append_assoc]
    rfl

theorem length_alphabet : conv.alphabet.length = conv.base := by cases conv <;> rfl

theorem getD_alphabet {d : Nat} (h : d < conv.base) : conv.alphabet.getD d '?' = conv.digit d := by
  revert d
  cases conv <;> decide

theorem neg_iff : Neg conv val ↔ value conv val < 0 := by
  rw [Neg, value]
  split
  · next h => simp [h, BitVec.slt]
  · next h => simp [h]

/-- `val` of `emit_num` without its sign. -/
theorem toNat_magnitude :
    (if Neg conv val then -val else val).toNat = (value conv val).natAbs := by
  have hlt := val.isLt
  have hint := BitVec.toInt_eq_toNat_cond val
  by_cases hneg : Neg conv val
  · have hval := (neg_iff conv val).1 hneg
    rw [value, if_pos hneg.1] at hval ⊢
    rw [if_pos hneg, BitVec.toNat_neg]
    omega
  · have hval := mt (neg_iff conv val).2 hneg
    rw [if_neg hneg]
    by_cases hd : conv = .d
    · rw [value, if_pos hd] at hval ⊢
      omega
    · rw [value, if_neg hd]
      rfl

/-- The digits in `buf` are those of the number. -/
theorem reverse_digits : (digits conv val prec).reverse = numeral conv val prec := by
  have hmag := toNat_magnitude conv val
  rw [digits]
  generalize (if Neg conv val then -val else val) = v at hmag
  rw [digitLoop_eq, numeral]
  have hzero : v = 0 ↔ value conv val = 0 := by
    rw [← Int.natAbs_eq_zero, ← hmag]
    exact BitVec.toNat_eq
  by_cases hv : value conv val = 0
  · rw [hmag, if_pos hv, hv, Int.natAbs_zero, Nat.digits_zero, map_nil, append_nil]
    by_cases hp : prec = 0
    · rw [if_neg fun h => h.2 hp, if_pos hp]
      rfl
    · rw [if_pos ⟨hzero.2 hv, hp⟩, if_neg hp]
      rfl
  · rw [if_neg hv, if_neg fun h => hv (hzero.1 h.1), nil_append, hmag, length_alphabet]
    refine congrArg reverse (map_congr_left fun d hd => ?_)
    exact (getD_alphabet conv (Nat.digits_lt_base (two_le_base conv) hd)).symm

/-- No number comes near the size of `buf`. -/
theorem length_numeral_le : (numeral conv val prec).length ≤ 11 := by
  have hbase : 8 ≤ conv.base := by cases conv <;> decide
  have hmag : (value conv val).natAbs < 2 ^ 32 := toNat_magnitude conv val ▸ BitVec.isLt _
  rw [numeral]
  split
  · split <;> simp
  · rw [length_reverse, length_map, length_alphabet,
      Nat.digits_length_le_iff (two_le_base conv)]
    exact hmag.trans_le ((by decide : 2 ^ 32 ≤ 8 ^ 11).trans (Nat.pow_le_pow_left hbase 11))

/-! ## Padded texts -/

section

variable {F G : Nat} {xs ys : List Char}

theorem count_space {xs : List Char} (h : ' ' ∉ xs) : xs.count ' ' = 0 := count_eq_zero.2 h

/-- Blanks on both sides of texts without blanks. -/
theorem blanks_eq_iff (hx : ' ' ∉ xs) (hy : ' ' ∉ ys) :
    replicate F ' ' ++ xs = ys ++ replicate G ' ' ↔
      F = G ∧ (F = 0 ∧ xs = ys ∨ xs = [] ∧ ys = []) := by
  constructor
  · intro h
    have hcount : F = G := by
      have := congrArg (count ' ') h
      simpa [count_space hx, count_space hy] using this
    subst hcount
    cases F with
    | zero => exact ⟨rfl, .inl ⟨rfl, by simpa using h⟩⟩
    | succ F =>
      cases ys with
      | nil => exact ⟨rfl, .inr ⟨by simpa using h, rfl⟩⟩
      | cons c ys =>
        -- The first character is a blank on the left side only.
        rw [replicate_succ] at h
        exact absurd (mem_cons.2 (.inl (head_eq_of_cons_eq h))) hy
  · rintro ⟨rfl, ⟨rfl, rfl⟩ | ⟨rfl, rfl⟩⟩ <;> simp

/-- Blanks on the left of texts without blanks. -/
theorem blanks_left_iff (hx : ' ' ∉ xs) (hy : ' ' ∉ ys) :
    replicate F ' ' ++ xs = replicate G ' ' ++ ys ↔ F = G ∧ xs = ys := by
  refine ⟨fun h => ?_, fun ⟨hF, hxs⟩ => by rw [hF, hxs]⟩
  have hcount : F = G := by
    have := congrArg (count ' ') h
    simpa [count_space hx, count_space hy] using this
  subst hcount
  exact ⟨rfl, append_cancel_left h⟩

theorem zeros_eq_iff {j k : Nat} : replicate j '0' ++ xs = replicate k '0' ++ xs ↔ j = k := by
  rw [append_left_inj, replicate_left_inj]

end

/-! ## The output -/

theorem blank_not_mem_numeral : ' ' ∉ numeral conv val prec := by
  rw [numeral]
  split
  · split <;> decide
  · intro hmem
    obtain ⟨d, hd, heq⟩ := mem_map.1 (mem_reverse.1 hmem)
    have hlt := Nat.digits_lt_base (by rw [length_alphabet]; exact two_le_base conv) hd
    rw [getD_eq_getElem?_getD, getElem?_eq_getElem hlt, Option.getD_some] at heq
    have hin : ' ' ∈ conv.alphabet := heq ▸ getElem_mem hlt
    revert hin
    cases conv <;> decide

/-- What comes out of `emit_num`, with the number's digits `ds` and its sign. -/
def output (sgn ds : List Char) (left zero : Bool) (width : Int) (k : Nat) : List Char :=
  let fill := (width - (ds.length + k + sgn.length)).toNat
  (if zero && !left then replicate fill '0' ++ sgn else sgn ++ replicate fill ' ') ++
    (replicate k '0' ++ ds)

theorem emitNum_eq : emitNum conv val left zero width prec =
    output (sign conv val) (numeral conv val prec) left zero width
      ((prec - (numeral conv val prec).length + 1) / 2).toNat := by
  have hlen : (digits conv val prec).length = (numeral conv val prec).length := by
    rw [← reverse_digits, length_reverse]
  rw [emitNum, zeroPad_eq]
  simp only [length_append, length_replicate, reverse_append, reverse_replicate, reverse_digits,
    hlen, output]
  cases zero <;> cases left <;> simp

section

variable {sgn ds : List Char} {left zero : Bool} {width : Int} {k j gap : Nat}
  (hsgn : sgn = [] ∨ sgn = ['-']) (hblank : ' ' ∉ ds)

theorem blank_not_mem_zeros (hblank : ' ' ∉ ds) (j : Nat) : ' ' ∉ replicate j '0' ++ ds := by
  simp [hblank]

include hblank

/-- Against a text that is filled up on the right. -/
theorem output_left_iff (h : left = true ∨ width < 0) : output sgn ds left zero width k =
    sgn ++ (replicate j '0' ++ ds) ++ replicate gap ' ' ↔
      (width - (ds.length + k + sgn.length)).toNat = gap ∧
        (gap = 0 ∧ k = j ∨ k = 0 ∧ j = 0 ∧ ds.length = 0) := by
  have hout : output sgn ds left zero width k =
      sgn ++ (replicate (width - (ds.length + k + sgn.length)).toNat ' ' ++
        (replicate k '0' ++ ds)) := by
    rw [output]
    obtain rfl | hw := h
    · simp
    · rw [show (width - (ds.length + k + sgn.length)).toNat = 0 by omega]
      simp
  rw [hout, append_assoc, append_right_inj, blanks_eq_iff (blank_not_mem_zeros hblank k)
    (blank_not_mem_zeros hblank j), zeros_eq_iff]
  simp only [append_eq_nil_iff, replicate_eq_nil_iff, length_eq_zero_iff]
  grind

include hsgn

/-- Against a text that is filled up with blanks on the left, where `emit_num` takes blanks. -/
theorem output_blank_iff (h : (zero && !left) = false) : output sgn ds left zero width k =
    replicate gap ' ' ++ sgn ++ (replicate j '0' ++ ds) ↔
      (width - (ds.length + k + sgn.length)).toNat = gap ∧ k = j ∧
        (sgn.length = 0 ∨ gap = 0) := by
  rw [output, h, if_neg Bool.false_ne_true]
  generalize (width - (ds.length + k + sgn.length)).toNat = F
  have hleft := blanks_left_iff (F := F) (G := gap) (blank_not_mem_zeros hblank k)
    (blank_not_mem_zeros hblank j)
  rw [zeros_eq_iff] at hleft
  obtain rfl | rfl := hsgn
  · simp [hleft]
  · cases gap with
    | zero =>
      rw [replicate_zero, nil_append] at hleft
      simp [hleft]
    | succ gap => simp [replicate_succ]

/-- Against a text that is filled up with blanks on the left, where `emit_num` takes zeros. -/
theorem output_zero_iff (h : (zero && !left) = true) : output sgn ds left zero width k =
    replicate gap ' ' ++ sgn ++ (replicate j '0' ++ ds) ↔
      gap = 0 ∧ (width - (ds.length + k + sgn.length)).toNat + k = j ∧
        (sgn.length = 0 ∨ (width - (ds.length + k + sgn.length)).toNat = 0) := by
  rw [output, h, if_pos rfl]
  generalize (width - (ds.length + k + sgn.length)).toNat = F
  cases gap with
  | succ gap =>
    -- A blank is nowhere on the left side.
    have hne : ' ' ∉ replicate F '0' ++ sgn ++ (replicate k '0' ++ ds) := by
      obtain rfl | rfl := hsgn <;> simp [hblank]
    refine iff_of_false (fun heq => hne ?_) (fun h => by cases h.1)
    rw [heq, replicate_succ]
    exact mem_cons_self
  | zero =>
    obtain rfl | rfl := hsgn
    · simp only [append_nil, replicate_zero, nil_append, ← append_assoc, replicate_append_replicate]
      rw [zeros_eq_iff]
      simp
    · cases F with
      | zero => simp
      | succ F => simp [replicate_succ]

omit hblank in
/-- Against a text that is filled up with zeros behind its sign. -/
theorem output_sign_iff (h : (zero && !left) = true)
    (hgap : (width - (ds.length + k + sgn.length)).toNat = gap) : output sgn ds left zero width k =
    sgn ++ replicate gap '0' ++ (replicate k '0' ++ ds) ↔ sgn.length = 0 ∨ gap = 0 := by
  rw [output, h, if_pos rfl, hgap, append_left_inj]
  obtain rfl | rfl := hsgn
  · simp
  · cases gap with
    | zero => simp
    | succ gap => simp [replicate_succ]

end

/-- **The output is that of the standard**, and `buf` is large enough, exactly for the flags, widths
and precisions of `Right`. -/
theorem emitNum_ok_iff : (emitNum conv val left zero width prec =
      standard conv val left zero width prec ∧
    (zeroPad prec (digits conv val prec)).length ≤ 32) ↔
    Right (numeral conv val prec).length (if value conv val < 0 then 1 else 0)
      left zero width prec := by
  have hlen : (digits conv val prec).length = (numeral conv val prec).length := by
    rw [← reverse_digits, length_reverse]
  have hle := length_numeral_le conv val prec
  have hblank := blank_not_mem_numeral conv val prec
  have hsign : sign conv val = if value conv val < 0 then ['-'] else [] := by
    simp only [sign, neg_iff]
  have hsgn : (if value conv val < 0 then ['-'] else []) = [] ∨
      (if value conv val < 0 then ['-'] else []) = ['-'] := by
    split
    · exact .inr rfl
    · exact .inl rfl
  have hnum : (if value conv val < 0 then 1 else 0 : Int) =
      (if value conv val < 0 then ['-'] else []).length := by
    split <;> rfl
  rw [emitNum_eq, standard, zeroPad_eq, length_append, length_replicate, hlen, hsign, hnum]
  generalize (if value conv val < 0 then ['-'] else []) = sgn at hsgn
  generalize numeral conv val prec = ds at *
  simp only [length_append, length_replicate, Right]
  have hone : sgn.length ≤ 1 := by obtain rfl | rfl := hsgn <;> simp
  by_cases hleft : left = true ∨ width < 0
  · rw [if_pos hleft, if_pos hleft, output_left_iff hblank hleft]
    omega
  rw [if_neg hleft, if_neg hleft]
  obtain ⟨hl, hw⟩ := not_or.1 hleft
  rw [Bool.not_eq_true] at hl
  cases zero with
  | false =>
    rw [if_neg (by simp), if_neg (by simp), if_neg (by simp), output_blank_iff hsgn hblank rfl]
    omega
  | true =>
    have hpad : (true && !left) = true := by rw [hl]; rfl
    by_cases hp : prec < 0
    · rw [if_pos ⟨rfl, hp⟩, if_pos ⟨rfl, hp⟩]
      have hk : ((prec - ds.length + 1) / 2).toNat = 0 := by omega
      have hj : (prec - ds.length).toNat = 0 := by omega
      rw [hk, hj, output_sign_iff hsgn hpad (by omega)]
      omega
    · rw [if_neg fun h => hp h.2, if_neg fun h => hp h.2, if_pos rfl,
        output_zero_iff hsgn hblank hpad]
      omega

/-- `%6.3x` of 42. -/
theorem emitNum_ok_x : emitNum .x 42 false false 6 3 = standard .x 42 false false 6 3 := by
  have hnum : numeral .x 42 3 = ['2', 'a'] := by decide
  refine ((emitNum_ok_iff .x 42 false false 6 3).2 ?_).1
  rw [hnum]
  decide

/-- `%4d` of -5. -/
theorem sign_apart : emitNum .d (-5) false false 4 (-1) = ['-', ' ', ' ', '5'] ∧
    standard .d (-5) false false 4 (-1) = [' ', ' ', '-', '5'] := by
  refine ⟨?_, by decide⟩
  rw [emitNum_eq]
  decide

end UnixOs.Stdio
