import UnixOs.Lib.BlockDevice

/-!
# Circular buffers

A queue in an array: `count` cells from `readPos` on, continued at the start of
the array. `take` and `put` copy at most two segments, one up to the end of the
array and one from its start.

- `Ring.contents`: the queue;
- `Ring.Wf`: the positions fit together;
- `Ring.take_eq`, `Ring.contents_put`: the segments are the front and the back of
  the queue.
-/

namespace UnixOs

open List

open BlockDevice

/-- An array of `size` cells with a queue in it. -/
structure Ring (κ : Type) where
  cells : Image κ
  size : Nat
  readPos : Nat
  writePos : Nat
  count : Nat

namespace Ring

variable {κ : Type} (r : Ring κ)

/-- The cell `i` places after `pos`. -/
def index (pos i : Nat) : Nat := (pos + i) % r.size

/-- The queue, first in first. -/
def contents : List κ := (range r.count).map fun i => r.cells (r.index r.readPos i)

/-- The positions of a queue of `count` cells. -/
structure Wf : Prop where
  readPos_lt : r.readPos < r.size
  count_le : r.count ≤ r.size
  writePos_eq : r.writePos = (r.readPos + r.count) % r.size

/-- The length of the segment that ends with the array. -/
def segment (pos n : Nat) : Nat := if r.size - pos > n then n else r.size - pos

/-- Copy `n` cells from the front. -/
def front (n : Nat) : List κ :=
  let first := r.segment r.readPos n
  r.cells.load r.readPos first ++ if n > first then r.cells.load 0 (n - first) else []

/-- Take `n` cells off the front. -/
def take (n : Nat) : Ring κ :=
  { r with readPos := (r.readPos + n) % r.size, count := r.count - n }

/-- Copy `xs` to the back. -/
def put (xs : List κ) : Ring κ :=
  let first := r.segment r.writePos xs.length
  let cells := r.cells.store ⟨r.writePos, xs.take first⟩
  let cells := if xs.length > first then cells.store ⟨0, xs.drop first⟩ else cells
  { r with
    cells := cells
    writePos := (r.writePos + xs.length) % r.size
    count := r.count + xs.length }

variable {r}

/-! ## Positions -/

theorem mod_of_lt_two_mul {a n : Nat} (h : a < 2 * n) : a % n = if a < n then a else a - n := by
  split
  · next hlt => exact Nat.mod_eq_of_lt hlt
  · next hge =>
    rw [Nat.mod_eq_sub_mod (Nat.not_lt.1 hge), Nat.mod_eq_of_lt]
    omega

theorem index_eq {pos i : Nat} (hpos : pos < r.size) (hi : i < r.size) :
    r.index pos i = if pos + i < r.size then pos + i else pos + i - r.size :=
  mod_of_lt_two_mul (by omega)

/-- Places count on from each other. -/
theorem index_add (pos i j : Nat) : r.index ((pos + i) % r.size) j = r.index pos (i + j) := by
  rw [index, index, Nat.mod_add_mod, Nat.add_assoc]

theorem segment_eq (pos n : Nat) : r.segment pos n = min n (r.size - pos) := by
  rw [segment]
  split <;> omega

theorem Wf.size_pos (h : r.Wf) : 0 < r.size := Nat.lt_of_le_of_lt (Nat.zero_le _) h.readPos_lt

theorem Wf.writePos_lt (h : r.Wf) : r.writePos < r.size := by
  rw [h.writePos_eq]
  exact Nat.mod_lt _ h.size_pos

@[simp] theorem length_contents : r.contents.length = r.count := by simp [contents]

theorem getElem_contents {i : Nat} (h : i < r.contents.length) :
    r.contents[i] = r.cells (r.index r.readPos i) := by simp [contents]

theorem Wf.take (h : r.Wf) {n : Nat} (hn : n ≤ r.count) : (r.take n).Wf where
  readPos_lt := Nat.mod_lt _ h.size_pos
  count_le := Nat.le_trans (Nat.sub_le ..) h.count_le
  writePos_eq := by
    show r.writePos = ((r.readPos + n) % r.size + (r.count - n)) % r.size
    rw [Nat.mod_add_mod, Nat.add_assoc, Nat.add_sub_cancel' hn]
    exact h.writePos_eq

theorem Wf.put (h : r.Wf) {xs : List κ} (hxs : r.count + xs.length ≤ r.size) :
    (r.put xs).Wf where
  readPos_lt := h.readPos_lt
  count_le := hxs
  writePos_eq := by
    show (r.writePos + xs.length) % r.size = (r.readPos + (r.count + xs.length)) % r.size
    rw [h.writePos_eq, Nat.mod_add_mod, Nat.add_assoc]

/-! ## The front -/

/-- The two segments are the places in order. -/
theorem front_eq (hpos : r.readPos < r.size) {n : Nat} (hn : n ≤ r.size) :
    r.front n = (range n).map fun i => r.cells (r.index r.readPos i) := by
  -- Up to the end of the array places are addresses, and after it they start again.
  have hlow : ∀ m, m ≤ r.size - r.readPos → r.cells.load r.readPos m
      = (range m).map fun i => r.cells (r.index r.readPos i) := by
    intro m hm
    refine map_congr_left fun i hi => ?_
    have hi := mem_range.1 hi
    rw [index_eq hpos (by omega), if_pos (by omega)]
  have hseg := r.segment_eq r.readPos n
  simp only [front]
  generalize r.segment r.readPos n = first at hseg
  have hhigh : r.cells.load 0 (n - first)
      = (range (n - first)).map fun i => r.cells (r.index r.readPos (first + i)) := by
    refine map_congr_left fun i hi => ?_
    have hi := mem_range.1 hi
    rw [index_eq hpos (by omega), if_neg (by omega)]
    congr 1
    omega
  have hsum : range n = range first ++ (range (n - first)).map (first + ·) := by
    rw [← range_add, Nat.add_sub_cancel' (by omega)]
  rw [hsum, map_append, map_map, hlow first (by omega)]
  congr 1
  split
  · exact hhigh
  · rw [show n - first = 0 by omega]
    rfl

/-- The front of the queue is copied. -/
theorem front_eq_take (h : r.Wf) {n : Nat} (hn : n ≤ r.count) : r.front n = r.contents.take n := by
  rw [front_eq h.readPos_lt (Nat.le_trans hn h.count_le), contents, ← map_take,
    take_range, Nat.min_eq_left hn]

theorem contents_take {n : Nat} : (r.take n).contents = r.contents.drop n := by
  refine ext_getElem (by simp [take]) fun i hi hi' => ?_
  rw [getElem_contents, getElem_drop, getElem_contents]
  exact congrArg r.cells (index_add r.readPos n i)

/-! ## The back -/

/-- A cell after the two segments were stored. -/
theorem cells_put (h : r.Wf) {xs : List κ} (hxs : xs.length ≤ r.size) {i : Nat} (hi : i < r.size) :
    (r.put xs).cells (r.index r.writePos i) = xs.getD i (r.cells (r.index r.writePos i)) := by
  have hpos := h.writePos_lt
  have hseg := r.segment_eq r.writePos xs.length
  rw [index_eq hpos hi]
  simp only [put]
  generalize r.segment r.writePos xs.length = first at hseg
  by_cases hlow : r.writePos + i < r.size
  · -- The first segment; the second one ends before it.
    rw [if_pos hlow]
    have hfirst : (r.cells.store ⟨r.writePos, xs.take first⟩) (r.writePos + i)
        = xs.getD i (r.cells (r.writePos + i)) := by
      rw [Image.store, if_pos (Nat.le_add_right ..)]
      simp only [Nat.add_sub_cancel_left, getD_eq_getElem?_getD]
      rw [getElem?_take]
      split
      · rfl
      · rw [getElem?_eq_none (l := xs) (by omega)]
    split
    · next hlen =>
      rw [Image.store_of_not_covers, hfirst]
      rintro ⟨-, hcov⟩
      simp only [length_drop] at hcov
      omega
    · exact hfirst
  · -- The second segment.
    rw [if_neg hlow]
    have hsame : (r.cells.store ⟨r.writePos, xs.take first⟩) (r.writePos + i - r.size)
        = r.cells (r.writePos + i - r.size) := by
      refine Image.store_of_not_covers ?_
      rintro ⟨hle, -⟩
      simp only at hle
      omega
    split
    · next hlen =>
      rw [Image.store, if_pos (Nat.zero_le _), hsame]
      simp only [Nat.sub_zero, getD_eq_getElem?_getD, getElem?_drop]
      rw [show first + (r.writePos + i - r.size) = i by omega]
    · rw [hsame, getD_eq_getElem?_getD, getElem?_eq_none (by omega)]
      rfl

/-- What is put goes to the back of the queue. -/
theorem contents_put (h : r.Wf) {xs : List κ} (hxs : r.count + xs.length ≤ r.size) :
    (r.put xs).contents = r.contents ++ xs := by
  refine ext_getElem (by simp [put]) fun i hi hi' => ?_
  rw [getElem_contents]
  rw [length_contents] at hi
  replace hi : i < r.count + xs.length := hi
  -- Place `i` of the queue, counted from the place that is written first.
  have hplace : ∀ j, r.count + j = i + r.size ∨ r.count + j = i →
      (r.put xs).index (r.put xs).readPos i = r.index r.writePos j := by
    intro j hj
    show (r.readPos + i) % r.size = (r.writePos + j) % r.size
    rw [h.writePos_eq, Nat.mod_add_mod, Nat.add_assoc]
    obtain hj | hj := hj
    · rw [hj, ← Nat.add_assoc, Nat.add_mod_right]
    · rw [hj]
  rw [getElem_append]
  split
  · next hold =>
    rw [length_contents] at hold
    rw [hplace (i + r.size - r.count) (.inl (by omega)), cells_put h (by omega) (by omega),
      getElem_contents, getD_eq_getElem?_getD, getElem?_eq_none (by omega)]
    refine congrArg r.cells ?_
    show (r.writePos + (i + r.size - r.count)) % r.size = (r.readPos + i) % r.size
    rw [h.writePos_eq, Nat.mod_add_mod,
      show r.readPos + r.count + (i + r.size - r.count) = r.readPos + i + r.size by omega,
      Nat.add_mod_right]
  · next hnew =>
    rw [length_contents] at hnew
    rw [hplace (i - r.count) (.inr (by omega)), cells_put h (by omega) (by omega)]
    simp only [length_contents]
    exact getD_eq_getElem _ _ (by omega)

end Ring

end UnixOs
