import Mathlib.Data.List.OfFn
import Mathlib.Tactic.Ring

/-!
# Little-endian words in byte strings

On-disk records are read and written as the bytes of a C structure. The
encoder and the decoder here are the two directions of that layout, for words
of any width, and for a record that is a sequence of 32-bit words.
-/

namespace UnixOs.Bytes

open List

/-! ## One word -/

/-- The `n` low bytes of `x`, least significant first. -/
def bytesOf : Nat → Nat → List UInt8
  | 0, _ => []
  | n + 1, x => UInt8.ofNat x :: bytesOf n (x / 256)

/-- The number a byte string denotes, least significant byte first. -/
def valueOf : List UInt8 → Nat
  | [] => 0
  | b :: bs => b.toNat + 256 * valueOf bs

@[simp] theorem length_bytesOf (n x : Nat) : (bytesOf n x).length = n := by
  induction n generalizing x with
  | zero => rfl
  | succ n ih => simp [bytesOf, ih]

theorem valueOf_bytesOf (n x : Nat) : valueOf (bytesOf n x) = x % 256 ^ n := by
  induction n generalizing x with
  | zero => simp [bytesOf, valueOf, Nat.mod_one]
  | succ n ih =>
    have hlow : (UInt8.ofNat x).toNat = x % 256 := by simp
    rw [bytesOf, valueOf, ih, hlow, pow_succ, mul_comm (256 ^ n) 256, Nat.mod_mul]

/-- The bytes of a `uint32_t`. -/
def le32 (x : UInt32) : List UInt8 := bytesOf 4 x.toNat

@[simp] theorem length_le32 (x : UInt32) : (le32 x).length = 4 :=
  length_bytesOf 4 x.toNat

theorem valueOf_le32 (x : UInt32) : valueOf (le32 x) = x.toNat := by
  rw [le32, valueOf_bytesOf]
  exact Nat.mod_eq_of_lt x.toNat_lt

/-! ## Records of 32-bit words -/

/-- The bytes of consecutive `uint32_t` fields. -/
def encodeWords (ws : List UInt32) : List UInt8 := ws.flatMap le32

/-- The `i`-th `uint32_t` of a record. -/
def wordAt (bs : List UInt8) (i : Nat) : UInt32 :=
  UInt32.ofNat (valueOf ((bs.drop (4 * i)).take 4))

@[simp] theorem length_encodeWords (ws : List UInt32) :
    (encodeWords ws).length = 4 * ws.length := by
  induction ws with
  | nil => rfl
  | cons w ws ih =>
    simp only [encodeWords, flatMap_cons, length_append, length_le32, length_cons] at ih ⊢
    omega

/-- A field is read back as it was written, whatever follows the record. -/
theorem wordAt_encodeWords (ws : List UInt32) (rest : List UInt8) {i : Nat} (hi : i < ws.length) :
    wordAt (encodeWords ws ++ rest) i = ws[i] := by
  induction ws generalizing i with
  | nil => exact absurd hi (Nat.not_lt_zero i)
  | cons w ws ih =>
    rw [encodeWords, flatMap_cons, append_assoc]
    cases i with
    | zero =>
      rw [wordAt, Nat.mul_zero, drop_zero, take_left' (length_le32 w), valueOf_le32]
      exact UInt32.ofNat_toNat
    | succ i =>
      -- The first word is four bytes, so field `i + 1` is field `i` of the
      -- rest.
      have hshift : 4 * (i + 1) = (le32 w).length + 4 * i := by rw [length_le32]; omega
      rw [wordAt, hshift, drop_append, ← encodeWords]
      have hskip : List.drop ((le32 w).length + 4 * i) (le32 w) = [] :=
        drop_eq_nil_of_le (Nat.le_add_right _ _)
      rw [hskip, nil_append, Nat.add_sub_cancel_left]
      exact ih (Nat.lt_of_succ_lt_succ hi)

end UnixOs.Bytes
