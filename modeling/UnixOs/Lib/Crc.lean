import Mathlib

/-!
# Cyclic redundancy checks

A register of `w` bits is shifted down one bit at a time; a bit that falls out adds the
generator. A message is fed bit by bit at the low end. The register after a message is
linear in it (`run_xor`), and no step loses anything if the generator has its top bit, so
two messages that differ only inside a window of `w` bits leave different registers
(`run_ne_of_burst`).
-/

namespace UnixOs.Crc

open List
open BitVec (ofBool eq_of_getLsbD_eq)

variable {w : Nat} (p : BitVec w)

/-- The register shifted down by one bit. -/
def shift (c : BitVec w) : BitVec w := (c >>> 1) ^^^ (if c.getLsbD 0 then p else 0#w)

/-- A bit of the message. -/
def feed (c : BitVec w) (b : Bool) : BitVec w := shift p (c ^^^ (ofBool b).setWidth w)

/-- A whole message. -/
def run (c : BitVec w) (bs : List Bool) : BitVec w := bs.foldl (feed p) c

variable {p} {c d : BitVec w} {bs xs ys : List Bool}

theorem getLsbD_shift (i : Nat) :
    (shift p c).getLsbD i = (c.getLsbD (i + 1) ^^ (c.getLsbD 0 && p.getLsbD i)) := by
  rw [shift, BitVec.getLsbD_xor, BitVec.getLsbD_ushiftRight, add_comm 1 i]
  cases c.getLsbD 0 <;> simp

theorem shift_xor : shift p (c ^^^ d) = shift p c ^^^ shift p d := by
  refine eq_of_getLsbD_eq fun i _ => ?_
  simp only [BitVec.getLsbD_xor, getLsbD_shift]
  cases c.getLsbD 0 <;> cases d.getLsbD 0 <;> cases c.getLsbD (i + 1) <;>
    cases d.getLsbD (i + 1) <;> cases p.getLsbD i <;> rfl

theorem getLsbD_feed (hw : 0 < w) (b : Bool) (i : Nat) :
    (feed p c b).getLsbD i = (c.getLsbD (i + 1) ^^ ((c.getLsbD 0 ^^ b) && p.getLsbD i)) := by
  rw [feed, getLsbD_shift]
  simp [hw]

theorem feed_xor (a b : Bool) : feed p (c ^^^ d) (a ^^ b) = feed p c a ^^^ feed p d b := by
  have hbit : (ofBool (a ^^ b)).setWidth w
      = (ofBool a).setWidth w ^^^ (ofBool b).setWidth w := by
    rw [← BitVec.setWidth_xor]
    cases a <;> cases b <;> rfl
  rw [feed, feed, feed, hbit, ← shift_xor]
  congr 1
  ac_rfl

/-- The remainder is linear in the start value and the bits. -/
theorem run_xor (h : xs.length = ys.length) :
    run p (c ^^^ d) (zipWith xor xs ys) = run p c xs ^^^ run p d ys := by
  induction xs generalizing c d ys with
  | nil =>
    obtain rfl := length_eq_zero_iff.1 h.symm
    rfl
  | cons x xs ih =>
    cases ys with
    | nil => exact absurd h (by simp)
    | cons y ys =>
      have htail : xs.length = ys.length := Nat.succ.inj h
      show run p (feed p (c ^^^ d) (x ^^ y)) (zipWith xor xs ys) = _
      rw [feed_xor, ih htail]
      rfl

theorem run_append : run p c (xs ++ ys) = run p (run p c xs) ys := foldl_append

/-- Zeros only shift. -/
theorem run_replicate_false (n : Nat) : run p c (replicate n false) = (shift p)^[n] c := by
  induction n generalizing c with
  | zero => rfl
  | succ n ih =>
    have hfeed : feed p c false = shift p c := by
      rw [feed, show (ofBool false).setWidth w = 0#w by simp, BitVec.xor_zero]
    show run p (feed p c false) (replicate n false) = _
    rw [hfeed, ih, Function.iterate_succ_apply]

/-- A register that a short message brings to zero is the message. -/
theorem getLsbD_of_run_eq_zero (hp : p.getLsbD (w - 1) = true) (hlen : bs.length ≤ w)
    (h : run p c bs = 0#w) (i : Nat) : c.getLsbD i = bs.getD i false := by
  induction bs generalizing c i with
  | nil =>
    rw [show c = 0#w from h]
    simp
  | cons b bs ih =>
    have hw : 0 < w := by
      rw [length_cons] at hlen
      omega
    have hnext := ih (c := feed p c b) (by rw [length_cons] at hlen; omega) h
    -- the rest of the message is shorter than the register, so nothing came in at the top
    have hlow : (c.getLsbD 0 ^^ b) = false := by
      have htop := hnext (w - 1)
      rw [getLsbD_feed hw, hp, getD_eq_default _ _ (by rw [length_cons] at hlen; omega),
        BitVec.getLsbD_of_ge _ _ (by omega)] at htop
      simpa using htop
    cases i with
    | zero => simpa using hlow
    | succ i =>
      have hbit := hnext i
      rw [getLsbD_feed hw, hlow] at hbit
      simpa using hbit

theorem run_zero_of_false (h : ∀ b ∈ bs, b = false) : run p 0#w bs = 0#w := by
  induction bs with
  | nil => rfl
  | cons b bs ih =>
    obtain rfl := h b mem_cons_self
    have hfeed : feed p 0#w false = 0#w := by
      refine eq_of_getLsbD_eq fun i _ => ?_
      rw [feed, getLsbD_shift]
      simp
    show run p (feed p 0#w false) bs = _
    rw [hfeed]
    exact ih fun b hb => h b (mem_cons_of_mem _ hb)

/-- Zeros behind a message do not bring the register to zero. -/
theorem eq_zero_of_run_false (hp : p.getLsbD (w - 1) = true) (h : ∀ b ∈ bs, b = false)
    (hrun : run p c bs = 0#w) : c = 0#w := by
  induction bs generalizing c with
  | nil => exact hrun
  | cons b bs ih =>
    obtain rfl := h b mem_cons_self
    have hfeed := ih (c := feed p c false) (fun b hb => h b (mem_cons_of_mem _ hb)) hrun
    refine eq_of_getLsbD_eq fun i hi => ?_
    have hone : run p c [false] = 0#w := hfeed
    rw [getLsbD_of_run_eq_zero hp (by rw [length_singleton]; omega) hone i]
    cases i <;> simp

/-- Messages that differ only inside a window of `w` bits. -/
theorem run_ne_of_burst (hp : p.getLsbD (w - 1) = true) (hlen : xs.length = ys.length)
    (hne : xs ≠ ys) {k : Nat} (h : ∀ i, i < k ∨ k + w ≤ i → xs.getD i false = ys.getD i false) :
    run p c xs ≠ run p c ys := by
  intro heq
  refine hne ?_
  set ds := zipWith xor xs ys with hds
  have hget : ∀ i, ds.getD i false = (xs.getD i false ^^ ys.getD i false) := by
    intro i
    simp only [hds, getD_eq_getElem?_getD, getElem?_zipWith]
    by_cases hi : i < xs.length
    · rw [getElem?_eq_getElem hi, getElem?_eq_getElem (hlen ▸ hi)]
      rfl
    · rw [getElem?_eq_none (by omega), getElem?_eq_none (by omega)]
      rfl
  have hzero : run p 0#w ds = 0#w := by
    have hrun := run_xor (p := p) (c := c) (d := c) hlen
    rwa [heq, BitVec.xor_self, BitVec.xor_self] at hrun
  have hout : ∀ i, i < k ∨ k + w ≤ i → ds.getD i false = false := by
    intro i hi
    rw [hget, h i hi, Bool.xor_self]
  have hfront : ∀ b ∈ ds.take k, b = false := by
    intro b hb
    obtain ⟨i, hi, rfl⟩ := mem_iff_getElem.1 hb
    rw [length_take] at hi
    rw [getElem_take, ← hout i (.inl (by omega)), getD_eq_getElem _ _ (by omega)]
  have hback : ∀ b ∈ (ds.drop k).drop w, b = false := by
    intro b hb
    obtain ⟨i, hi, rfl⟩ := mem_iff_getElem.1 hb
    rw [length_drop, length_drop] at hi
    rw [getElem_drop, getElem_drop, ← hout (k + (w + i)) (.inr (by omega)),
      getD_eq_getElem _ _ (by omega)]
  rw [← take_append_drop k ds, run_append, run_zero_of_false hfront,
    ← take_append_drop w (ds.drop k), run_append] at hzero
  have hmid := eq_zero_of_run_false hp hback hzero
  have hall : ∀ i, ds.getD i false = false := by
    intro i
    by_cases hi : i < k ∨ k + w ≤ i
    · exact hout i hi
    · have hbit := getLsbD_of_run_eq_zero hp (length_take_le w _) hmid (i - k)
      rw [BitVec.getLsbD_zero, getD_eq_getElem?_getD, getElem?_take_of_lt (by omega),
        getElem?_drop, ← getD_eq_getElem?_getD, show k + (i - k) = i by omega] at hbit
      exact hbit.symm
  refine ext_getElem hlen fun i hi hi' => ?_
  have hxor := hget i
  rw [hall, getD_eq_getElem _ _ hi, getD_eq_getElem _ _ hi'] at hxor
  simpa using hxor

end UnixOs.Crc
