import Mathlib.Tactic.Ring

/-!
# 64-bit division (divdi3.c)

The division helpers of the C library bring down the dividend bit by bit. The partial
remainder is at most the number brought down so far, and this has a bit less than the
dividend before the last step, so the shift loses nothing, also for divisors above `2 ^ 63`.
-/

namespace UnixOs.Divdi3

open BitVec

/-- One pass of the loop of `__divdi3` (divdi3.c:20) and of `__udivdi3` (divdi3.c:47), with the
quotient and the partial remainder. -/
def divStep (a b : BitVec 64) (i : Nat) : BitVec 64 × BitVec 64 → BitVec 64 × BitVec 64
  | (q, r) =>
    let r := r <<< 1 ||| (a >>> i &&& 1#64)
    if b ≤ r then (q ||| 1#64 <<< i, r - b) else (q, r)

/-- The loop after the top `n` bits of `a`. -/
def longDivision (a b : BitVec 64) : Nat → BitVec 64 × BitVec 64
  | 0 => (0, 0)
  | n + 1 => divStep a b (63 - n) (longDivision a b n)

/-- `__udivdi3` (divdi3.c:47). -/
def udivdi3 (a b : BitVec 64) : BitVec 64 := (longDivision a b 64).1

/-- `__umoddi3` (divdi3.c:62). -/
def umoddi3 (a b : BitVec 64) : BitVec 64 := a - udivdi3 a b * b

/-- `__divdi3` (divdi3.c:20), with negation modulo `2 ^ 64`. -/
def divdi3 (a b : BitVec 64) : BitVec 64 :=
  let (ua, neg) := if a.slt 0 then (-a, true) else (a, false)
  let (ub, neg) := if b.slt 0 then (-b, !neg) else (b, neg)
  let q := (longDivision ua ub 64).1
  if neg then -q else q

/-- `__moddi3` (divdi3.c:60). -/
def moddi3 (a b : BitVec 64) : BitVec 64 := a - divdi3 a b * b

variable {a b : BitVec 64} {i : Nat} {s : BitVec 64 × BitVec 64}

/-- All but the low `i` bits of `a` are divided by `b`. -/
def Divided (a b : BitVec 64) (i : Nat) (s : BitVec 64 × BitVec 64) : Prop :=
  ∃ k, s.1.toNat = k <<< i ∧ a.toNat / 2 ^ i = k * b.toNat + s.2.toNat ∧ s.2.toNat < b.toNat

theorem Divided.shift (h : Divided a b (i + 1) s) : 2 * s.2.toNat < 2 ^ 64 := by
  obtain ⟨k, -, hdiv, -⟩ := h
  rw [Nat.pow_succ', ← Nat.div_div_eq_div_mul] at hdiv
  have hle := Nat.div_le_self (a.toNat / 2) (2 ^ i)
  omega

/-- One bit more of the quotient. -/
theorem Divided.step (h : Divided a b (i + 1) s) (hi : i < 64) :
    Divided a b i (divStep a b i s) := by
  have hshift := h.shift
  obtain ⟨q, r⟩ := s
  obtain ⟨k, hq, hdiv, hlt⟩ := h
  dsimp only at hq hdiv hlt hshift
  rw [Nat.pow_succ, ← Nat.div_div_eq_div_mul] at hdiv
  have hbit : a.toNat / 2 ^ i % 2 < 2 ^ 1 := Nat.mod_lt _ Nat.two_pos
  have hr : (r <<< 1 ||| (a >>> i &&& 1#64)).toNat = r.toNat * 2 + a.toNat / 2 ^ i % 2 := by
    rw [toNat_or, toNat_shiftLeft, Nat.mod_eq_of_lt (by omega), toNat_and,
      toNat_ushiftRight, Nat.shiftRight_eq_div_pow, toNat_one (by decide),
      Nat.and_one_is_mod, ← Nat.shiftLeft_add_eq_or_of_lt hbit, Nat.shiftLeft_eq, Nat.pow_one]
  rw [divStep]
  generalize r <<< 1 ||| (a >>> i &&& 1#64) = r' at hr
  split
  · next hle =>
    have hpow : 2 ^ i < 2 ^ (i + 1) := Nat.pow_lt_pow_right (by decide) i.lt_succ_self
    refine ⟨2 * k + 1, ?_, ?_, ?_⟩
    · rw [toNat_or, toNat_shiftLeft, toNat_one (by decide), Nat.one_shiftLeft,
        Nat.mod_eq_of_lt (Nat.pow_lt_pow_right (by decide) hi), hq,
        ← Nat.shiftLeft_add_eq_or_of_lt hpow, Nat.shiftLeft_eq, Nat.shiftLeft_eq]
      ring
    · rw [toNat_sub_of_le hle, Nat.add_mul, Nat.mul_assoc]
      have := le_def.1 hle
      omega
    · rw [toNat_sub_of_le hle]
      omega
  · next hle =>
    refine ⟨2 * k, ?_, ?_, ?_⟩
    · rw [hq, Nat.shiftLeft_succ, Nat.shiftLeft_eq, Nat.shiftLeft_eq]
      ring
    · rw [Nat.mul_assoc]
      dsimp only
      omega
    · exact Nat.lt_of_not_le fun h => hle (le_def.2 h)

theorem divided (hb : b ≠ 0) : ∀ n ≤ 64, Divided a b (64 - n) (longDivision a b n)
  | 0, _ => by
    refine ⟨0, rfl, ?_, Nat.pos_of_ne_zero fun h => hb (eq_of_toNat_eq h)⟩
    rw [Nat.div_eq_of_lt a.isLt]
    exact (Nat.zero_mul _).symm
  | n + 1, hn => by
    have h := divided hb n (by omega)
    obtain ⟨i, hi⟩ : ∃ i, 63 - n = i := ⟨_, rfl⟩
    rw [show 64 - n = i + 1 by omega] at h
    rw [longDivision, hi, show 64 - (n + 1) = i by omega]
    exact h.step (by omega)

theorem udivdi3_eq (hb : b ≠ 0) : udivdi3 a b = a / b := by
  apply eq_of_toNat_eq
  obtain ⟨k, hq, hdiv, hlt⟩ := divided (a := a) hb 64 le_rfl
  rw [Nat.sub_self, Nat.pow_zero, Nat.div_one, Nat.add_comm, Nat.mul_comm] at hdiv
  rw [udivdi3, hq, toNat_udiv]
  exact ((Nat.div_mod_unique (Nat.zero_lt_of_lt hlt)).2 ⟨hdiv.symm, hlt⟩).1.symm

theorem divdi3_eq (hb : b ≠ 0) : divdi3 a b = a.sdiv b := by
  have hneg : -b ≠ 0 := fun h => hb (by simpa using h)
  have hu {x y : BitVec 64} (hy : y ≠ 0) : (longDivision x y 64).1 = x.udiv y := udivdi3_eq hy
  rw [divdi3, sdiv_eq]
  simp only [ofNat_eq_ofNat, slt_zero_eq_msb]
  cases a.msb <;> cases b.msb <;> simp [hu hb, hu hneg]

/-- The four helpers are exact, and no shift loses a bit of the partial remainder. -/
theorem division_exact (a b : BitVec 64) (hb : b ≠ 0) :
    (∀ n < 64, 2 * (longDivision a b n).2.toNat < 2 ^ 64) ∧
    (udivdi3 a b).toNat = a.toNat / b.toNat ∧ (umoddi3 a b).toNat = a.toNat % b.toNat ∧
    ((a = .intMin 64 → b ≠ -1) →
      (divdi3 a b).toInt = a.toInt.tdiv b.toInt ∧ (moddi3 a b).toInt = a.toInt.tmod b.toInt) := by
  refine ⟨fun n hn => ?_, ?_, ?_, fun hne => ?_⟩
  · have h := divided (a := a) hb n hn.le
    rw [show 64 - n = 63 - n + 1 by omega] at h
    exact h.shift
  · rw [udivdi3_eq hb, toNat_udiv]
  · have hle := Nat.div_mul_le_self a.toNat b.toNat
    have hsum := Nat.div_add_mod' a.toNat b.toNat
    have ha := a.isLt
    rw [umoddi3, udivdi3_eq hb, toNat_sub, toNat_mul, toNat_udiv,
      Nat.mod_eq_of_lt (hle.trans_lt ha)]
    omega
  · have hdiv : (a.sdiv b).toInt = a.toInt.tdiv b.toInt :=
      a.toInt_sdiv_of_ne_or_ne b (Decidable.not_or_of_imp hne)
    rw [moddi3, divdi3_eq hb, toInt_sub, toInt_mul, hdiv, Int.sub_bmod_bmod,
      Int.mul_comm, ← Int.tmod_def, ← toInt_srem, toInt_bmod_cancel]
    exact ⟨rfl, rfl⟩

theorem division_exact_of_min : (divdi3 (.intMin 64) 3).toInt = (BitVec.intMin 64).toInt.tdiv 3 ∧
    (moddi3 (.intMin 64) 3).toInt = (BitVec.intMin 64).toInt.tmod 3 :=
  (division_exact (.intMin 64) 3 (by decide)).2.2.2 fun _ => by decide

end UnixOs.Divdi3
