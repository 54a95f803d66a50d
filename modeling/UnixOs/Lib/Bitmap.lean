import Mathlib.Logic.Function.Basic

/-!
# Bitmaps in byte buffers

A bitmap is kept in bytes, bit `i` in byte `i / 8` under the mask
`1 << (i & 7)`. `clearCount` is the number of clear bits among the first `n` that
meet a condition, and the lemmas say how it follows the change of one bit.
-/

namespace UnixOs.Bitmap

variable {buf buf' : Nat → UInt8} {i j n : Nat} {p : Nat → Bool}

/-- `1 << (i & 7)`. -/
def mask (i : Nat) : UInt8 := ⟨BitVec.twoPow 8 (i % 8)⟩

/-- Whether bit `i` is set. -/
def get (buf : Nat → UInt8) (i : Nat) : Bool := decide (buf (i / 8) &&& mask i ≠ 0)

def set (buf : Nat → UInt8) (i : Nat) : Nat → UInt8 :=
  Function.update buf (i / 8) (buf (i / 8) ||| mask i)

def clear (buf : Nat → UInt8) (i : Nat) : Nat → UInt8 :=
  Function.update buf (i / 8) (buf (i / 8) &&& ~~~ mask i)

/-- Testing with a mask is testing the bit. -/
theorem and_mask_ne_zero (x : UInt8) (i : Nat) :
    decide (x &&& mask i ≠ 0) = x.toBitVec.getLsbD (i % 8) := by
  have hlt : i % 8 < 8 := Nat.mod_lt i (by decide)
  have hand : (x &&& mask i).toBitVec = x.toBitVec &&& BitVec.twoPow 8 (i % 8) := rfl
  rw [BitVec.and_twoPow] at hand
  cases hx : x.toBitVec.getLsbD (i % 8) with
  | false =>
    rw [hx, if_neg Bool.false_ne_true] at hand
    exact decide_eq_false (not_not.2 (UInt8.toBitVec_inj.1 hand))
  | true =>
    rw [hx, if_pos rfl] at hand
    refine decide_eq_true fun h => ?_
    rw [h] at hand
    have hbit := congrArg (fun y => BitVec.getLsbD y (i % 8)) hand
    simp [hlt] at hbit

theorem get_eq : get buf i = (buf (i / 8)).toBitVec.getLsbD (i % 8) :=
  and_mask_ne_zero _ i

theorem getLsbD_mask (i j : Nat) : (mask i).toBitVec.getLsbD (j % 8) = decide (i % 8 = j % 8) := by
  have hlt : i % 8 < 8 := Nat.mod_lt i (by decide)
  show (BitVec.twoPow 8 (i % 8)).getLsbD (j % 8) = _
  rw [BitVec.getLsbD_twoPow, decide_eq_true hlt, Bool.true_and]

theorem get_set : get (set buf i) j = (decide (j = i) || get buf j) := by
  rw [get_eq, get_eq, set]
  by_cases hbyte : j / 8 = i / 8
  · rw [hbyte, Function.update_self]
    show ((buf (i / 8)).toBitVec ||| (mask i).toBitVec).getLsbD (j % 8) = _
    rw [BitVec.getLsbD_or, getLsbD_mask, Bool.or_comm]
    congr 1
    exact decide_eq_decide.2 (by omega)
  · have hne : j ≠ i := fun h => hbyte (by rw [h])
    rw [Function.update_of_ne hbyte, decide_eq_false hne, Bool.false_or]

theorem get_clear : get (clear buf i) j = (decide (j ≠ i) && get buf j) := by
  have hlt : j % 8 < 8 := Nat.mod_lt j (by decide)
  rw [get_eq, get_eq, clear]
  by_cases hbyte : j / 8 = i / 8
  · rw [hbyte, Function.update_self]
    show ((buf (i / 8)).toBitVec &&& ~~~ (mask i).toBitVec).getLsbD (j % 8) = _
    rw [BitVec.getLsbD_and, BitVec.getLsbD_not, getLsbD_mask, decide_eq_true hlt, Bool.true_and,
      Bool.and_comm, ← decide_not]
    congr 1
    exact decide_eq_decide.2 (by omega)
  · have hne : j ≠ i := fun h => hbyte (by rw [h])
    rw [Function.update_of_ne hbyte, decide_eq_true hne, Bool.true_and]

/-- Only the bytes that hold the bits matter. -/
theorem get_congr {m : Nat} (h : ∀ k < m, buf k = buf' k) (hi : i < 8 * m) :
    get buf i = get buf' i := by
  rw [get, get, h (i / 8) (by omega)]

/-! ## Counting the clear bits -/

/-- The number of clear bits among the first `n` that meet `p`. -/
def clearCount (p : Nat → Bool) (n : Nat) (buf : Nat → UInt8) : Nat :=
  (List.range n).countP fun i => p i && !get buf i

theorem clearCount_le : clearCount p n buf ≤ n := by
  have h := List.countP_le_length (p := fun i => p i && !get buf i) (l := List.range n)
  rwa [List.length_range] at h

theorem clearCount_succ : clearCount p (n + 1) buf
    = clearCount p n buf + if p n && !get buf n then 1 else 0 := by
  rw [clearCount, List.range_succ, List.countP_append, List.countP_singleton]
  rfl

theorem clearCount_congr (h : ∀ k < n, p k = true → get buf k = get buf' k) :
    clearCount p n buf = clearCount p n buf' := by
  refine List.countP_congr fun k hk => ?_
  cases hp : p k with
  | false => simp
  | true => rw [h k (List.mem_range.1 hk) hp]

section

variable (hi : i < n) (hp : p i = true)
include hi hp

/-- One clear bit more. -/
theorem clearCount_of_cleared (hold : get buf i = true)
    (hnew : get buf' i = false) (hother : ∀ k, k ≠ i → get buf' k = get buf k) :
    clearCount p n buf' = clearCount p n buf + 1 := by
  induction n with
  | zero => exact absurd hi (Nat.not_lt_zero i)
  | succ n ih =>
    rw [clearCount_succ, clearCount_succ]
    obtain rfl | hin := eq_or_ne i n
    · have hsame : clearCount p i buf' = clearCount p i buf :=
        clearCount_congr fun k hk _ => hother k (by omega)
      rw [hsame, hp, hold, hnew]
      rfl
    · rw [ih (by omega), hother n fun h => hin h.symm]
      omega

/-- One clear bit less. -/
theorem clearCount_set (hclear : get buf i = false) :
    clearCount p n buf = clearCount p n (set buf i) + 1 := by
  refine clearCount_of_cleared hi hp ?_ hclear fun k hk => ?_
  · rw [get_set, decide_eq_true rfl, Bool.true_or]
  · rw [get_set, decide_eq_false hk, Bool.false_or]

theorem clearCount_clear (hset : get buf i = true) :
    clearCount p n (clear buf i) = clearCount p n buf + 1 := by
  refine clearCount_of_cleared hi hp hset ?_ fun k hk => ?_
  · rw [get_clear, decide_eq_false (not_not.2 rfl), Bool.false_and]
  · rw [get_clear, decide_eq_true hk, Bool.true_and]

end

/-- The first clear bit below `n` that meets `p`. -/
def findClear (p : Nat → Bool) (n : Nat) (buf : Nat → UInt8) : Option Nat :=
  (List.range n).find? fun i => !get buf i && p i

theorem findClear_spec (h : findClear p n buf = some i) :
    i < n ∧ p i = true ∧ get buf i = false := by
  have hmem := List.mem_range.1 (List.mem_of_find?_eq_some h)
  have htest := List.find?_some h
  rw [Bool.and_eq_true, Bool.not_eq_true'] at htest
  exact ⟨hmem, htest.2, htest.1⟩

end UnixOs.Bitmap
