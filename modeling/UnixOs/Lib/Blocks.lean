import UnixOs.Lib.BlockDevice
import UnixOs.Lib.Bytes

/-!
# Images in blocks, and C structures in memory

A medium seen as blocks of one size: `block` reads one, `putBlock` writes one.
The same type serves for a C structure in memory, whose fields are read and
written at their offsets (`half`, `word`).
-/

namespace UnixOs.BlockDevice.Image

variable {κ : Type} {m : Image κ} {bs b b' i : Nat} {buf : Nat → κ}

/-- The content of block `b`, for blocks of `bs` cells. -/
def block (m : Image κ) (bs b : Nat) : Nat → κ := fun i => m (b * bs + i)

/-- The image with block `b` replaced. Irreducible, so that states that differ in
their image are told apart without looking into it. -/
@[irreducible] def putBlock (m : Image κ) (bs b : Nat) (buf : Nat → κ) : Image κ := fun a =>
  if b * bs ≤ a ∧ a < b * bs + bs then buf (a - b * bs) else m a

theorem block_putBlock_self (hi : i < bs) : (m.putBlock bs b buf).block bs b i = buf i := by
  rw [block, putBlock, if_pos ⟨Nat.le_add_right _ _, by omega⟩, Nat.add_sub_cancel_left]

theorem putBlock_of_not {a : Nat} (h : ¬ (b * bs ≤ a ∧ a < b * bs + bs)) :
    m.putBlock bs b buf a = m a := by
  rw [putBlock, if_neg h]

theorem block_putBlock_of_ne (hb : b' ≠ b) (hi : i < bs) :
    (m.putBlock bs b buf).block bs b' i = m.block bs b' i := by
  refine putBlock_of_not ?_
  rintro ⟨hle, hlt⟩
  -- the two blocks do not meet
  obtain h | h := Nat.lt_or_gt_of_ne hb
  · have : (b' + 1) * bs ≤ b * bs := Nat.mul_le_mul_right bs h
    rw [Nat.succ_mul] at this
    omega
  · have : (b + 1) * bs ≤ b' * bs := Nat.mul_le_mul_right bs h
    rw [Nat.succ_mul] at this
    omega

/-- An entry of a table does not cross a block if its size divides the block. -/
theorem mul_mod_add_le {d n : Nat} (hd : d ∣ n) (hn : 0 < n) (k : Nat) : k * d % n + d ≤ n := by
  obtain ⟨c, rfl⟩ := hd
  have hc : 0 < c := Nat.pos_of_mul_pos_left hn
  have hlt : k % c + 1 ≤ c := Nat.mod_lt _ hc
  calc k * d % (d * c) + d = (k % c + 1) * d := by
        rw [mul_comm d c, Nat.mul_mod_mul_right, Nat.succ_mul]
    _ ≤ c * d := Nat.mul_le_mul_right _ hlt
    _ = d * c := mul_comm _ _

theorem load_store_of_disjoint {w : Write κ} {off n : Nat}
    (h : off + n ≤ w.off ∨ w.off + w.data.length ≤ off) : (m.store w).load off n = m.load off n :=
  load_congr fun i hi => store_of_not_covers fun hc => by
    have := hc.1
    have := hc.2
    omega

end UnixOs.BlockDevice.Image

namespace UnixOs.Bytes

open BlockDevice

variable {m m' : Image UInt8} {off off' : Nat}

/-- The `uint16_t` at an offset. -/
def half (m : Image UInt8) (off : Nat) : UInt16 := UInt16.ofNat (valueOf (m.load off 2))

/-- The `uint32_t` at an offset. -/
def word (m : Image UInt8) (off : Nat) : UInt32 := UInt32.ofNat (valueOf (m.load off 4))

@[irreducible] def putHalf (m : Image UInt8) (off : Nat) (x : UInt16) : Image UInt8 :=
  m.store ⟨off, bytesOf 2 x.toNat⟩

@[irreducible] def putWord (m : Image UInt8) (off : Nat) (x : UInt32) : Image UInt8 :=
  m.store ⟨off, le32 x⟩

@[simp] theorem half_putHalf_self (x : UInt16) : half (putHalf m off x) off = x := by
  have hlt : x.toNat < 256 ^ 2 := x.toNat_lt
  rw [half, putHalf, Image.load_store_self (length_bytesOf 2 _), valueOf_bytesOf,
    Nat.mod_eq_of_lt hlt]
  exact UInt16.ofNat_toNat

@[simp] theorem word_putWord_self (x : UInt32) : word (putWord m off x) off = x := by
  rw [word, putWord, Image.load_store_self (length_le32 x), valueOf_le32]
  exact UInt32.ofNat_toNat

theorem half_putHalf_of_ne {x : UInt16} (h : off + 2 ≤ off' ∨ off' + 2 ≤ off) :
    half (putHalf m off' x) off = half m off := by
  rw [half, half, putHalf, Image.load_store_of_disjoint]
  rwa [length_bytesOf]

theorem half_putWord_of_ne {x : UInt32} (h : off + 2 ≤ off' ∨ off' + 4 ≤ off) :
    half (putWord m off' x) off = half m off := by
  rw [half, half, putWord, Image.load_store_of_disjoint]
  rwa [length_le32]

theorem word_putHalf_of_ne {x : UInt16} (h : off + 4 ≤ off' ∨ off' + 2 ≤ off) :
    word (putHalf m off' x) off = word m off := by
  rw [word, word, putHalf, Image.load_store_of_disjoint]
  rwa [length_bytesOf]

theorem word_putWord_of_ne {x : UInt32} (h : off + 4 ≤ off' ∨ off' + 4 ≤ off) :
    word (putWord m off' x) off = word m off := by
  rw [word, word, putWord, Image.load_store_of_disjoint]
  rwa [length_le32]

theorem half_congr (h : ∀ i < 2, m (off + i) = m' (off' + i)) : half m off = half m' off' := by
  rw [half, half, Image.load, Image.load, List.map_congr_left fun i hi => h i (List.mem_range.1 hi)]

theorem word_congr (h : ∀ i < 4, m (off + i) = m' (off' + i)) : word m off = word m' off' := by
  rw [word, word, Image.load, Image.load, List.map_congr_left fun i hi => h i (List.mem_range.1 hi)]

end UnixOs.Bytes
