import Mathlib.Data.Fintype.Prod

/-!
# Counting references

A system of references is a function `ptr : S → Option α` from the places a
reference can stand in to what they refer to. `refCount ptr a` is the number of
places that refer to `a`. The lemmas say how the count follows the change of
one place, and of many at once.

`CountRel` abstracts the relation a counter kept beside the references has to
their number: equality, or never less.
-/

namespace UnixOs

open Finset

variable {S α : Type} [Fintype S] [DecidableEq α]

/-- The number of places that refer to `a`. -/
def refCount (ptr : S → Option α) (a : α) : Nat :=
  (univ.filter fun s => ptr s = some a).card

namespace refCount

variable {ptr ptr' : S → Option α} {a : α} {s s' : S}

theorem pos_of_mem (h : ptr s = some a) : 0 < refCount ptr a :=
  card_pos.2 ⟨s, mem_filter.2 ⟨mem_univ s, h⟩⟩

theorem exists_of_pos (h : 0 < refCount ptr a) : ∃ s, ptr s = some a := by
  obtain ⟨s, hs⟩ := card_pos.1 h
  exact ⟨s, (mem_filter.1 hs).2⟩

theorem eq_zero_iff : refCount ptr a = 0 ↔ ∀ s, ptr s ≠ some a := by
  constructor
  · intro h s hs
    have := pos_of_mem hs
    omega
  · intro h
    by_contra hne
    obtain ⟨s, hs⟩ := exists_of_pos (Nat.pos_of_ne_zero hne)
    exact h s hs

/-- What is referred to once is referred to from one place. -/
theorem unique (h : refCount ptr a ≤ 1) (hs : ptr s = some a) (hs' : ptr s' = some a) : s = s' :=
  card_le_one.1 h s (mem_filter.2 ⟨mem_univ s, hs⟩) s' (mem_filter.2 ⟨mem_univ s', hs'⟩)

/-- What one place only refers to is referred to once. -/
theorem eq_one (hs : ptr s = some a) (huniq : ∀ s', ptr s' = some a → s' = s) :
    refCount ptr a = 1 := by
  refine le_antisymm ?_ (pos_of_mem hs)
  refine card_le_one.2 fun x hx y hy => ?_
  rw [huniq x (mem_filter.1 hx).2, huniq y (mem_filter.1 hy).2]

/-- A key that tells the places that refer to `a` apart bounds their number. -/
theorem le_card {β : Type} {t : Finset β} (key : S → β) (hkey : ∀ s, ptr s = some a → key s ∈ t)
    (hinj : ∀ s s', ptr s = some a → ptr s' = some a → key s = key s' → s = s') :
    refCount ptr a ≤ t.card := by
  refine card_le_card_of_injOn key (fun s hs => ?_) fun s hs s' hs' he => ?_
  · exact hkey s (mem_filter.1 (mem_coe.1 hs)).2
  · exact hinj s s' (mem_filter.1 (mem_coe.1 hs)).2 (mem_filter.1 (mem_coe.1 hs')).2 he

variable (ptr) in
/-- The places of a set, and the other places. -/
theorem split (p : S → Prop) [DecidablePred p] :
    refCount ptr a = refCount (fun s => if p s then none else ptr s) a
      + (univ.filter fun s => p s ∧ ptr s = some a).card := by
  have hrest : (univ.filter fun s =>
      (if p s then none else ptr s) = some a)
      = (univ.filter fun s => ptr s = some a).filter fun s => ¬ p s := by
    ext s
    by_cases hp : p s <;> simp [hp]
  have hin : (univ.filter fun s => p s ∧ ptr s = some a)
      = (univ.filter fun s => ptr s = some a).filter p := by
    ext s
    simp [and_comm]
  rw [refCount, refCount, hrest, hin, add_comm]
  exact (card_filter_add_card_filter_not p).symm

variable [DecidableEq S]

variable (ptr) in
/-- One place changes. -/
theorem update (s : S) (x : Option α) :
    refCount (Function.update ptr s x) a + (if ptr s = some a then 1 else 0)
      = refCount ptr a + (if x = some a then 1 else 0) := by
  -- Both sides count the places other than `s` and look at `s` apart.
  have hone : ∀ q : S → Option α,
      (univ.filter fun t => t = s ∧ q t = some a).card = if q s = some a then 1 else 0 := by
    intro q
    split
    · next hq =>
      rw [card_eq_one]
      exact ⟨s, by ext t; simp; rintro rfl; exact hq⟩
    · next hq =>
      rw [card_eq_zero, filter_eq_empty_iff]
      rintro t - ⟨rfl, ht⟩
      exact hq ht
  have hsame : (fun t => if t = s then none else Function.update ptr s x t)
      = fun t => if t = s then none else ptr t := by
    funext t
    by_cases ht : t = s
    · simp [ht]
    · simp [ht]
  rw [split (Function.update ptr s x) (fun t => t = s),
    split ptr (fun t => t = s), hone, hone, hsame,
    Function.update_self]
  omega

/-- A place that referred to nothing now refers to `a`. -/
theorem update_some (s : S) (b : α) (hs : ptr s = none) :
    refCount (Function.update ptr s (some b)) a = refCount ptr a + if b = a then 1 else 0 := by
  have := update ptr (a := a) s (some b)
  simpa [hs] using this

/-- A place that referred to `b` now refers to nothing. -/
theorem update_none {b : α} (hs : ptr s = some b) :
    refCount (Function.update ptr s none) a + (if b = a then 1 else 0) = refCount ptr a := by
  have := update ptr (a := a) s none
  simpa [hs] using this

variable (ptr) in
/-- Counting the places of a list without repetition. -/
theorem count_filterMap {l : List S} (hl : l.Nodup) :
    (l.filterMap ptr).count a = (univ.filter fun s => s ∈ l ∧ ptr s = some a).card := by
  have hset : (univ.filter fun s => s ∈ l ∧ ptr s = some a)
      = (l.filter fun s => ptr s = some a).toFinset := by
    ext s
    simp
  rw [hset, List.toFinset_card_of_nodup (hl.filter _), List.count,
    List.countP_filterMap, List.countP_eq_length_filter]
  congr 1
  refine List.filter_congr fun s _ => ?_
  cases ptr s with
  | none => simp
  | some b => simp [beq_eq_decide]

/-- A row of places that referred to nothing is filled. -/
theorem add_row {P F : Type} [Fintype P] [Fintype F] [DecidableEq P]
    {ptr ptr' : P × F → Option α} {c : P} (hrow : ∀ f, ptr (c, f) = none)
    (hother : ∀ p f, p ≠ c → ptr' (p, f) = ptr (p, f)) :
    refCount ptr' a = refCount ptr a + refCount (fun f => ptr' (c, f)) a := by
  have hrest : (fun s : P × F => if s.1 = c then none else ptr' s) = ptr := by
    funext s
    obtain ⟨p, f⟩ := s
    obtain rfl | hp := eq_or_ne p c
    · rw [if_pos rfl, hrow]
    · rw [if_neg hp, hother p f hp]
  rw [split ptr' (fun s => s.1 = c), hrest]
  congr 1
  refine card_bij (fun s _ => s.2) (fun s hs => ?_) (fun s hs s' hs' he => ?_)
    fun f hf => ⟨(c, f), ?_, rfl⟩
  · obtain ⟨rfl, ha⟩ := (mem_filter.1 hs).2
    exact mem_filter.2 ⟨mem_univ _, ha⟩
  · have h1 := (mem_filter.1 hs).2.1
    have h2 := (mem_filter.1 hs').2.1
    exact Prod.ext (h1.trans h2.symm) he
  · exact mem_filter.2 ⟨mem_univ _, rfl, (mem_filter.1 hf).2⟩

end refCount

/-- A relation between a number of references and the counter kept for them
that survives counting up and down together, also where the counter stops at
`limit`. -/
structure CountRel (limit : Nat) (R : Nat → Nat → Prop) : Prop where
  succ : ∀ {n c}, R (n + 1) (c + 1) ↔ R n c
  le : ∀ {n c}, R n c → n ≤ c
  one : R 1 1
  saturate : ∀ {n c}, R n c → n < limit →
    R (n + 1) (if c < limit then c + 1 else c)

theorem countRel_eq (limit : Nat) : CountRel limit (· = ·) where
  succ := Nat.succ_inj
  le h := h.le
  one := rfl
  saturate := by
    rintro n c rfl hn
    rw [if_pos hn]

theorem countRel_le (limit : Nat) : CountRel limit (· ≤ ·) where
  succ := Nat.succ_le_succ_iff
  le h := h
  one := le_refl 1
  saturate := by
    intro n c hle hn
    split <;> omega

theorem CountRel.zero {limit : Nat} {R : Nat → Nat → Prop} (h : CountRel limit R) : R 0 0 :=
  h.succ.1 h.one

end UnixOs
