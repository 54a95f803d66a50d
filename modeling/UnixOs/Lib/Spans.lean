import Mathlib.Tactic.Common

/-!
# A range of positions cut at block boundaries

What a file system or a pager does with a range of bytes it does block by block:
each round takes the rest of the block it is in, or what is left.

- `spans`: the pieces of a range, in order;
- `InBlock`: a piece lies in the range and in one block.
-/

namespace UnixOs.Spans

/-- The positions from `pos` on, `len` of them. -/
structure Span where
  pos : Nat
  len : Nat
  deriving DecidableEq

variable (bs : Nat)

def Span.block (sp : Span) : Nat := sp.pos / bs

def Span.inoff (sp : Span) : Nat := sp.pos % bs

/-- The pieces of `n` positions from `pos` on, in at most `fuel` rounds. -/
def cut : Nat → Nat → Nat → List Span
  | 0, _, _ => []
  | fuel + 1, pos, n =>
    if n = 0 then []
    else
      let take := min (bs - pos % bs) n
      ⟨pos, take⟩ :: cut fuel (pos + take) (n - take)

/-- The pieces of a range; every round takes at least one position. -/
def spans (pos n : Nat) : List Span := cut bs n pos n

variable {bs} {fuel pos n : Nat} {sp : Span}

/-- A piece of the range, in one block. -/
structure Span.InBlock (bs pos n : Nat) (sp : Span) : Prop where
  pos_len : 0 < sp.len
  fits : sp.inoff bs + sp.len ≤ bs
  start : pos ≤ sp.pos
  stop : sp.pos + sp.len ≤ pos + n

theorem inBlock_of_mem_cut (hbs : 0 < bs) (h : sp ∈ cut bs fuel pos n) : sp.InBlock bs pos n := by
  induction fuel generalizing pos n with
  | zero => exact absurd h List.not_mem_nil
  | succ fuel ih =>
    have hmod := Nat.mod_lt pos hbs
    rw [cut] at h
    split at h
    · exact absurd h List.not_mem_nil
    · obtain rfl | h := List.mem_cons.1 h
      · exact ⟨by show 0 < min _ _; omega, by show pos % bs + min _ _ ≤ bs; omega, Nat.le_refl _,
          by show pos + min _ _ ≤ _; omega⟩
      · have hin := ih h
        exact ⟨hin.pos_len, hin.fits, by have := hin.start; omega, by have := hin.stop; omega⟩

theorem inBlock_of_mem_spans (hbs : 0 < bs) (h : sp ∈ spans bs pos n) : sp.InBlock bs pos n :=
  inBlock_of_mem_cut hbs h

/-- A piece starts in a block in front of the end of the range. -/
theorem Span.InBlock.block_lt (hin : sp.InBlock bs pos n) {k : Nat} (hend : pos + n ≤ k * bs) :
    sp.block bs < k := by
  have hlen := hin.pos_len
  have hfits := hin.fits
  have hstop := hin.stop
  exact (Nat.div_lt_iff_lt_mul (by omega)).2 (by omega)

end UnixOs.Spans
