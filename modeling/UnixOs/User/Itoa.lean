import Mathlib.Algebra.Group.Nat.Defs
import Mathlib.Data.List.Induction

/-!
# Decimal numbers (itoa.c, atoi.c)

`itoa` writes the digits from the last one on and then turns them around in place. `atoi` reads
the number back, also `-2147483648`: both sides wrap around there.
-/

namespace UnixOs.Stdlib

open List

/-- The loop over the digits of `itoa` (itoa.c:17), which ends for a base above 1. -/
def digitLoop (base : Nat) (hbase : 1 < base) (v : Nat) : List UInt8 :=
  let remainder := v % base
  let c := .ofNat (if remainder < 10 then 48 + remainder else 97 + remainder - 10)
  if v / base = 0 then [c] else c :: digitLoop base hbase (v / base)
termination_by v
decreasing_by exact Nat.div_lt_self (Nat.pos_of_ne_zero (by rintro rfl; simp_all)) hbase

/-- The last loop of `itoa` (itoa.c:17). -/
def swapLoop (str : List UInt8) (p1 p2 : Nat) : List UInt8 :=
  if p1 < p2 then
    swapLoop ((str.set p1 (str.getD p2 0)).set p2 (str.getD p1 0)) (p1 + 1) (p2 - 1)
  else str
termination_by p2 - p1

/-- `itoa` (itoa.c:17): the bytes that it writes to `str`, and its result. -/
def itoa (value : BitVec 32) (base : Nat) (hbase : 1 < base) : List UInt8 × Nat :=
  let neg := value.slt 0 ∧ base = 10
  let digits := digitLoop base hbase (if neg then -value else value).toNat
  let str := (if neg then [45] else []) ++ (digits ++ [0])
  (swapLoop str (if str.head? = some 45 then 1 else 0) (str.length - 2), digits.length)

def isspaceLocal (c : UInt8) : Bool := c = 32 ∨ c = 9 ∨ c = 10

def isdigitLocal (c : UInt8) : Bool := 48 ≤ c ∧ c ≤ 57

/-- The loop over the digits of `atoi` (atoi.c:18). -/
def valueOf (digits : List UInt8) : BitVec 32 :=
  digits.foldl (fun result c => result * 10 + .ofNat 32 (c.toNat - 48)) 0

/-- `atoi` (atoi.c:18). -/
def atoi (str : List UInt8) : BitVec 32 :=
  let str := str.dropWhile isspaceLocal
  let (sign, str) := if str.head? = some 45 then (-1, str.tail)
    else if str.head? = some 43 then (1, str.tail) else (1, str)
  valueOf (str.takeWhile isdigitLocal) * sign

/-- The loop reverses the part between the two indices. -/
theorem swapLoop_append (pre xs post : List UInt8) :
    swapLoop (pre ++ (xs ++ post)) pre.length (pre.length + xs.length - 1) =
      pre ++ (xs.reverse ++ post) := by
  induction xs using bidirectionalRec generalizing pre post with
  | nil | singleton =>
    rw [swapLoop, if_neg (by simp)]
    rfl
  | cons_append a l b ih =>
    have hp2 : pre.length + (a :: (l ++ [b])).length - 1 = pre.length + (l.length + 1) := by simp
    have hnext : (pre ++ [b]).length + l.length - 1 = pre.length + l.length := by simp
    have h := ih (pre ++ [b]) (a :: post)
    rw [hnext] at h
    rw [hp2, swapLoop, if_pos (by omega)]
    simpa using h

theorem valueOf_append (ds : List UInt8) (c : UInt8) :
    valueOf (ds ++ [c]) = valueOf ds * 10 + .ofNat 32 (c.toNat - 48) := by
  rw [valueOf, foldl_append]
  rfl

/-- `ds` are the digits of `v`, the last one first, without zeros in front. -/
structure Decimal (v : Nat) (ds : List UInt8) : Prop where
  digit : ∀ c ∈ ds, isdigitLocal c
  value : valueOf ds.reverse = .ofNat 32 v
  leading : ∃ c, ds.getLast? = some c ∧ (c = 48 → ds = [48] ∧ v = 0)

/-- The digits, the least significant first, are as many as the value needs. -/
theorem digitLoop_ten (k : Nat) {v : Nat} (hv : v < 10 ^ (k + 1)) :
    Decimal v (digitLoop 10 (by decide) v) ∧ (digitLoop 10 (by decide) v).length ≤ k + 1 := by
  have hmod : v % 10 < 10 := Nat.mod_lt _ (by decide)
  have hc : (UInt8.ofNat (48 + v % 10)).toNat = 48 + v % 10 := by
    rw [UInt8.toNat_ofNat']
    omega
  rw [digitLoop, if_pos hmod]
  generalize UInt8.ofNat (48 + v % 10) = c at hc
  have hdigit : isdigitLocal c := by
    simp only [isdigitLocal, UInt8.le_iff_toNat_le, decide_eq_true_eq, hc]
    exact ⟨Nat.le_add_right .., by simp; omega⟩
  have hvalue (xs : List UInt8) (hxs : valueOf xs = .ofNat 32 (v / 10)) :
      valueOf (xs ++ [c]) = .ofNat 32 v := by
    rw [valueOf_append, hxs, show c.toNat - 48 = v % 10 by omega]
    nth_rewrite 3 [← Nat.div_add_mod' v 10]
    rw [BitVec.ofNat_add, BitVec.ofNat_mul]
    rfl
  split
  · next h =>
    refine ⟨⟨by simpa using hdigit, hvalue [] (h ▸ rfl), c, rfl, ?_⟩, Nat.le_add_left ..⟩
    rintro rfl
    replace hc : 48 = 48 + v % 10 := hc
    exact ⟨rfl, by omega⟩
  · next h =>
    obtain _ | k := k
    · omega
    obtain ⟨⟨hdigits, hrest, d, hlast, hlead⟩, hlen⟩ := digitLoop_ten k (v := v / 10) (by omega)
    refine ⟨⟨forall_mem_cons.2 ⟨hdigit, hdigits⟩, ?_, d, ?_, fun hd => absurd (hlead hd).2 h⟩,
      Nat.succ_le_succ hlen⟩
    · rw [reverse_cons]
      exact hvalue _ hrest
    · rw [getLast?_cons, hlast]
      rfl

section

variable {ds : List UInt8} (hds : ∀ c ∈ ds, isdigitLocal c)
include hds

theorem head_ne {x : UInt8} (hx : isdigitLocal x = false) (h0 : x ≠ 0) :
    (ds ++ [0]).head? ≠ some x := by
  cases ds with
  | nil => exact fun h => h0 (Option.some.inj h).symm
  | cons c ds =>
    rintro ⟨⟩
    rw [hds x mem_cons_self] at hx
    cases hx

theorem takeWhile_digits : (ds ++ [0]).takeWhile isdigitLocal = ds := by
  rw [takeWhile_append_of_pos hds]
  exact append_nil ds

theorem dropWhile_digits : (ds ++ [0]).dropWhile isspaceLocal = ds ++ [0] := by
  cases ds with
  | nil => rfl
  | cons c ds =>
    refine dropWhile_cons_of_neg fun hc => ?_
    rw [isspaceLocal, decide_eq_true_eq] at hc
    obtain rfl | rfl | rfl := hc <;> cases hds _ mem_cons_self

theorem atoi_sign (neg : Prop) [Decidable neg] :
    atoi ((if neg then [45] else []) ++ (ds ++ [0])) = if neg then -valueOf ds else valueOf ds := by
  split
  · rw [atoi, singleton_append, dropWhile_cons_of_neg (by decide), head?_cons, if_pos rfl,
      tail_cons]
    dsimp only
    rw [takeWhile_digits hds, BitVec.mul_neg]
    exact congrArg _ (BitVec.mul_one _)
  · rw [atoi, nil_append, dropWhile_digits hds, if_neg (head_ne hds rfl (by decide)),
      if_neg (head_ne hds rfl (by decide))]
    dsimp only
    rw [takeWhile_digits hds]
    exact BitVec.mul_one _

theorem swapLoop_sign (neg : Prop) [Decidable neg] {str : List UInt8}
    (hstr : str = (if neg then [45] else []) ++ (ds ++ [0])) :
    swapLoop str (if str.head? = some 45 then 1 else 0) (str.length - 2) =
      (if neg then [45] else []) ++ (ds.reverse ++ [0]) := by
  rw [← swapLoop_append]
  subst hstr
  split
  · simp
  · rw [nil_append, if_neg (head_ne hds rfl (by decide))]
    simp

end

/-- The string is the sign with the digits, it fits into 12 bytes, and `atoi` reads it back. -/
theorem atoi_itoa (n : BitVec 32) : ∃ ds,
    (itoa n 10 (by decide)).1 = (if n.slt 0 then [45] else []) ++ (ds ++ [0]) ∧
    (∀ c ∈ ds, isdigitLocal c) ∧ (ds.head? = some 48 → ds = [48]) ∧
    (itoa n 10 (by decide)).1.length ≤ 12 ∧ atoi (itoa n 10 (by decide)).1 = n := by
  obtain ⟨v, hv⟩ : ∃ v, v = if n.slt 0 then -n else n := ⟨_, rfl⟩
  obtain ⟨⟨hds, hvalue, c, hlast, hlead⟩, hlen⟩ :=
    digitLoop_ten 9 (Nat.lt_trans v.isLt (by decide))
  have hrev : ∀ c ∈ (digitLoop 10 (by decide) v.toNat).reverse, isdigitLocal c :=
    fun c hc => hds c (mem_reverse.1 hc)
  have heq : (itoa n 10 (by decide)).1 = (if n.slt 0 then [45] else []) ++
      ((digitLoop 10 (by decide) v.toNat).reverse ++ [0]) := by
    subst hv
    simp only [itoa, and_true]
    exact swapLoop_sign hds _ rfl
  rw [heq, atoi_sign hrev, hvalue, BitVec.ofNat_toNat, BitVec.setWidth_eq]
  refine ⟨_, rfl, hrev, ?_, ?_, ?_⟩
  · rw [head?_reverse, hlast]
    intro hc
    rw [(hlead (Option.some.inj hc)).1]
    rfl
  · rw [length_append, length_append, length_reverse, length_singleton]
    split <;> simp <;> omega
  · rw [hv]
    split
    · exact BitVec.neg_neg
    · rfl

end UnixOs.Stdlib
