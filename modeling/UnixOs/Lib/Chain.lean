import Mathlib.Logic.Function.Basic

/-!
# Null-terminated linked lists

Lists as C code keeps them: a `next` link in every node, and a head that is null
for the empty list. The links are a function `next : α → Option α`.

- `Linked next h l`: following the links from `h` visits `l` and ends;
- `walk`: the nodes visited, with a bound on their number;
- `findPrev`: the walk to the node in front of a given one;
- what pushing, popping and unlinking do to the list of nodes.
-/

namespace UnixOs.Chain

open List

universe u

variable {α : Type u} {next : α → Option α} {h : Option α} {a e x : α} {l : List α}

/-- Following `next` from `h` visits exactly `l`. -/
def Linked (next : α → Option α) : Option α → List α → Prop
  | h, [] => h = none
  | h, a :: l => h = some a ∧ Linked next (next a) l

/-- The nodes visited from `h` on, at most `fuel` of them. -/
def walk (next : α → Option α) : Nat → Option α → List α
  | 0, _ => []
  | _, none => []
  | fuel + 1, some a => a :: walk next fuel (next a)

theorem Linked.eq_nil (hl : Linked next none l) : l = [] := by
  cases l with
  | nil => rfl
  | cons a l => cases hl.1

theorem Linked.eq_cons (hl : Linked next (some a) l) :
    ∃ t, l = a :: t ∧ Linked next (next a) t := by
  cases l with
  | nil => cases hl
  | cons b t =>
    obtain ⟨hb, ht⟩ := hl
    cases hb
    exact ⟨t, rfl, ht⟩

theorem Linked.walk_eq (hl : Linked next h l) {fuel : Nat} (hfuel : l.length ≤ fuel) :
    walk next fuel h = l := by
  induction l generalizing h fuel with
  | nil =>
    cases hl
    cases fuel <;> rfl
  | cons a l ih =>
    obtain ⟨rfl, ht⟩ := hl
    cases fuel with
    | zero => cases hfuel
    | succ fuel => rw [walk, ih ht (Nat.le_of_succ_le_succ hfuel)]

/-- The list depends on the links of its own nodes only. -/
theorem Linked.congr {next' : α → Option α} (hl : Linked next h l)
    (heq : ∀ a ∈ l, next' a = next a) : Linked next' h l := by
  induction l generalizing h with
  | nil => exact hl
  | cons a l ih =>
    obtain ⟨rfl, ht⟩ := hl
    refine ⟨rfl, ?_⟩
    rw [heq a mem_cons_self]
    exact ih ht fun b hb => heq b (mem_cons_of_mem a hb)

section

variable [DecidableEq α]

theorem Linked.update (hl : Linked next h l) (ha : a ∉ l) (v : Option α) :
    Linked (Function.update next a v) h l := by
  refine hl.congr fun b hb => Function.update_of_ne ?_ ..
  rintro rfl
  exact ha hb

/-- A node is pushed in front. -/
theorem Linked.push (hl : Linked next h l) (ha : a ∉ l) :
    Linked (Function.update next a h) (some a) (a :: l) := by
  refine ⟨rfl, ?_⟩
  rw [Function.update_self]
  exact hl.update ha h

/-- A node is taken out behind another one. -/
theorem Linked.unlink {l1 l2 : List α} (hl : Linked next h (l1 ++ x :: e :: l2))
    (hnodup : (l1 ++ x :: e :: l2).Nodup) :
    Linked (Function.update next x (next e)) h (l1 ++ x :: l2) := by
  induction l1 generalizing h with
  | nil =>
    obtain ⟨rfl, he, ht⟩ := hl
    refine ⟨rfl, ?_⟩
    rw [Function.update_self]
    refine ht.update ?_ _
    intro hx
    exact (nodup_cons.1 hnodup).1 (mem_cons_of_mem e hx)
  | cons b l1 ih =>
    obtain ⟨rfl, ht⟩ := hl
    obtain ⟨hb, hrest⟩ := nodup_cons.1 hnodup
    have hne : b ≠ x := by
      rintro rfl
      exact hb (mem_append_right l1 mem_cons_self)
    refine ⟨rfl, ?_⟩
    rw [Function.update_of_ne hne]
    exact ih ht hrest

/-- The walk to the node in front of `e`, which is not the first one. It is `some none` at the
end of the list and `none` if the fuel does not suffice. -/
def findPrev (next : α → Option α) (e : α) : Nat → α → Option (Option α)
  | 0, _ => none
  | fuel + 1, x =>
    match next x with
    | none => some none
    | some y => if y = e then some (some x) else findPrev next e fuel y

/-- A node of the list is found. -/
theorem findPrev_of_mem (hl : Linked next (next x) l) (he : e ∈ l) {fuel : Nat}
    (hfuel : l.length ≤ fuel) :
    ∃ l1 y l2, findPrev next e fuel x = some (some y) ∧ x :: l = l1 ++ y :: e :: l2 := by
  induction l generalizing x fuel with
  | nil => cases he
  | cons b l ih =>
    obtain ⟨hb, ht⟩ := hl
    cases fuel with
    | zero => cases hfuel
    | succ fuel =>
      rw [findPrev, hb]
      obtain rfl | hbe := eq_or_ne b e
      · exact ⟨[], x, l, if_pos rfl, rfl⟩
      · obtain ⟨l1, y, l2, hfind, hsplit⟩ :=
          ih ht (mem_of_ne_of_mem (Ne.symm hbe) he) (Nat.le_of_succ_le_succ hfuel)
        refine ⟨x :: l1, y, l2, (if_neg hbe).trans hfind, ?_⟩
        rw [hsplit, cons_append]

/-- At a node that is not on the list the walk comes to the end. -/
theorem findPrev_of_not_mem (hl : Linked next (next x) l) (he : e ∉ l) {fuel : Nat}
    (hfuel : l.length < fuel) : findPrev next e fuel x = some none := by
  induction l generalizing x fuel with
  | nil =>
    cases fuel with
    | zero => cases hfuel
    | succ fuel =>
      have hnone : next x = none := hl
      rw [findPrev, hnone]
  | cons b l ih =>
    obtain ⟨hb, ht⟩ := hl
    cases fuel with
    | zero => cases hfuel
    | succ fuel =>
      have hbe : b ≠ e := by
        rintro rfl
        exact he mem_cons_self
      rw [findPrev, hb]
      exact (if_neg hbe).trans (ih ht (fun hm => he (mem_cons_of_mem b hm))
        (Nat.lt_of_succ_lt_succ hfuel))

end

end UnixOs.Chain
