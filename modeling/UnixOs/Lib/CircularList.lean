import Mathlib.Data.List.Nodup
import Mathlib.Logic.Function.Basic

/-!
# Circular singly linked lists

Intrusive rings as C code keeps them: a `next` field in every node, a head
pointer that is null for the empty ring, and the last node pointing back at the
head. The links are a function `next : α → Option α`, so a node that belongs
to no ring may hold any value there.

- `Path next a xs b`: following `next` from `a` visits `xs` and then `b`;
- `IsRing next head l`: `head` is the entry of a ring whose nodes are `l`,
  in order and without repetition;
- the effect of the four pointer surgeries on the node list: insertion behind
  the head, removal of the head's successor, removal behind a given
  predecessor, and rotation of the head;
- `findPrev`: the walk that looks for a node's predecessor, with the fuel that
  suffices for it, whether the node is there or not.
-/

namespace UnixOs

open Function List

namespace CircularList

universe u

variable {α : Type u} {next : α → Option α} {a b x : α} {xs ys t : List α}

/-- Following `next` from `a` visits exactly `xs` before reaching `b`. -/
def Path (next : α → Option α) : α → List α → α → Prop
  | a, [], b => next a = some b
  | a, x :: xs, b => next a = some x ∧ Path next x xs b

/-- A ring with entry `head` and nodes `l`. -/
def IsRing (next : α → Option α) (head : Option α) : List α → Prop
  | [] => head = none
  | a :: t => head = some a ∧ Path next a t a ∧ (a :: t).Nodup

theorem path_append : Path next a (xs ++ x :: ys) b ↔ Path next a xs x ∧ Path next x ys b := by
  induction xs generalizing a with
  | nil => simp [Path]
  | cons y xs ih => simp [Path, ih, and_assoc]

theorem Path.congr {next' : α → Option α} :
    ∀ {xs : List α} {a : α}, (∀ y ∈ a :: xs, next' y = next y) →
      Path next a xs b → Path next' a xs b
  | [], _, h, hp => (h _ mem_cons_self).trans hp
  | _ :: _, _, h, hp =>
    ⟨(h _ mem_cons_self).trans hp.1,
      Path.congr (fun y hy => h y (mem_cons_of_mem _ hy)) hp.2⟩

variable {l : List α} {head : Option α}

/-- The ring depends on the links of its own nodes only. -/
theorem IsRing.congr {next' : α → Option α}
    (h : ∀ y ∈ l, next' y = next y) (hr : IsRing next head l) : IsRing next' head l := by
  cases l with
  | nil => exact hr
  | cons a t => exact ⟨hr.1, hr.2.1.congr h, hr.2.2⟩

theorem IsRing.nodup (hr : IsRing next head l) : l.Nodup := by
  cases l with
  | nil => exact nodup_nil
  | cons a t => exact hr.2.2

theorem IsRing.eq_nil (hr : IsRing next none l) : l = [] := by
  cases l with
  | nil => rfl
  | cons a t => exact nomatch hr.1

theorem IsRing.eq_cons (hr : IsRing next (some a) l) :
    ∃ t, l = a :: t ∧ Path next a t a ∧ (a :: t).Nodup := by
  cases l with
  | nil => exact nomatch hr
  | cons b t =>
    obtain ⟨hab, hp, hn⟩ := hr
    cases hab
    exact ⟨t, rfl, hp, hn⟩

/-- A ring of one node is a node that points at itself. -/
theorem path_self_iff (hp : Path next a t a) (hn : (a :: t).Nodup) : next a = some a ↔ t = [] := by
  cases t with
  | nil => exact iff_of_true hp rfl
  | cons x xs =>
    refine iff_of_false (fun h => ?_) (cons_ne_nil _ _)
    have hax : a = x := Option.some.inj (h.symm.trans hp.1)
    exact (nodup_cons.mp hn).1 (hax ▸ mem_cons_self)

/-- Rotation: the head moves to its successor. -/
theorem IsRing.rotate (hr : IsRing next (some a) (a :: t)) : IsRing next (next a) (t ++ [a]) := by
  obtain ⟨-, hp, hn⟩ := hr
  cases t with
  | nil => exact ⟨hp, hp, hn⟩
  | cons x xs =>
    refine ⟨hp.1, path_append.mpr ⟨hp.2, hp.1⟩, ?_⟩
    have hperm : ([a] ++ x :: xs).Perm (x :: xs ++ [a]) := perm_append_comm
    exact hperm.nodup hn

/-! ## Reaching the nodes from the head -/

theorem Path.next_mem {y : α} :
    ∀ {xs : List α} {a : α}, Path next a xs b → x ∈ a :: xs → next x = some y →
      y ∈ xs ∨ y = b
  | [], a, hp, hx, hy => by
    obtain rfl := mem_singleton.mp hx
    exact .inr (Option.some.inj (hy.symm.trans hp))
  | z :: xs, a, hp, hx, hy => by
    obtain rfl | hx := mem_cons.mp hx
    · have hyz : y = z := Option.some.inj (hy.symm.trans hp.1)
      exact .inl (hyz ▸ mem_cons_self)
    · exact (Path.next_mem hp.2 hx hy).imp_left (mem_cons_of_mem z)

theorem Path.forall_mem {P : α → Prop} (hstep : ∀ x y, P x → next x = some y → P y) :
    ∀ {xs : List α} {a : α}, Path next a xs b → P a → ∀ x ∈ xs, P x
  | [], _, _, _, _, hx => by cases hx
  | z :: xs, a, hp, ha, x, hx => by
    have hz : P z := hstep a z ha hp.1
    obtain rfl | hx := mem_cons.mp hx
    · exact hz
    · exact Path.forall_mem hstep hp.2 hz x hx

/-- A ring is closed under its links. -/
theorem IsRing.next_mem {y : α} (hr : IsRing next head l)
    (hx : x ∈ l) (hy : next x = some y) : y ∈ l := by
  cases l with
  | nil => cases hx
  | cons a t =>
    obtain h | rfl := hr.2.1.next_mem hx hy
    · exact mem_cons_of_mem a h
    · exact mem_cons_self

/-- What holds of the head and is passed on along the links holds of every
node. -/
theorem IsRing.forall_mem {P : α → Prop}
    (hr : IsRing next head l) (hhead : ∀ a, head = some a → P a)
    (hstep : ∀ x y, P x → next x = some y → P y) : ∀ x ∈ l, P x := by
  cases l with
  | nil =>
    intro x hx
    cases hx
  | cons a t =>
    have ha : P a := hhead a hr.1
    intro x hx
    obtain rfl | hx := mem_cons.mp hx
    · exact ha
    · exact hr.2.1.forall_mem hstep ha x hx

section Surgery

variable [DecidableEq α] {p : α}

/-- A node linked to itself is a ring of its own. -/
theorem isRing_singleton (next : α → Option α) (p : α) :
    IsRing (update next p (some p)) (some p) [p] :=
  ⟨rfl, update_self .., nodup_singleton p⟩

/-- Insertion behind the head. -/
theorem IsRing.insert (hr : IsRing next (some a) (a :: t)) (hp : p ∉ a :: t) :
    IsRing (update (update next p (next a)) a (some p)) (some a) (a :: p :: t) := by
  obtain ⟨-, hpath, hn⟩ := hr
  have hpa : p ≠ a := fun h => hp (h ▸ mem_cons_self)
  have hat : a ∉ t := (nodup_cons.mp hn).1
  refine ⟨rfl, ⟨update_self .., ?_⟩, ?_⟩
  · have hnext : ∀ y ∈ t, update (update next p (next a)) a
        (some p) y = next y := by
      intro y hy
      have hya : y ≠ a := fun h => hat (h ▸ hy)
      have hyp : y ≠ p := fun h => hp (h ▸ mem_cons_of_mem _ hy)
      rw [update_of_ne hya, update_of_ne hyp]
    have hnp : update (update next p (next a)) a (some p) p
        = next a := by
      rw [update_of_ne hpa, update_self]
    cases t with
    | nil => exact hnp.trans hpath
    | cons x xs => exact ⟨hnp.trans hpath.1, hpath.2.congr hnext⟩
  · refine nodup_cons.mpr ⟨?_, nodup_cons.mpr ⟨?_, ?_⟩⟩
    · exact fun h => (mem_cons.mp h).elim (fun h => hpa h.symm) hat
    · exact fun h => hp (mem_cons_of_mem _ h)
    · exact (nodup_cons.mp hn).2

/-- Removal of a node behind its predecessor `b`, the last node of
`a :: xs`. -/
theorem IsRing.unlink (hr : IsRing next (some a) (a :: (xs ++ p :: ys)))
    (hb : (a :: xs).getLast (cons_ne_nil _ _) = b) :
    IsRing (update next b (next p)) (some a) (a :: (xs ++ ys)) := by
  obtain ⟨-, hpath, hn⟩ := hr
  obtain ⟨h1, h2⟩ := path_append.mp hpath
  have hn' : (a :: (xs ++ ys)).Nodup := hn.sublist ((sublist_cons_self p ys).append_left (a :: xs))
  refine ⟨rfl, ?_, hn'⟩
  -- splice: the path into `p` now continues with the path out of `p`
  have key : ∀ (xs : List α) (a e : α), (a :: (xs ++ ys)).Nodup →
      (a :: xs).getLast (cons_ne_nil _ _) = b → Path next a xs p →
      Path next p ys e → Path (update next b (next p)) a (xs ++ ys) e := by
    intro xs
    induction xs with
    | nil =>
      intro a e hn hb _ h2
      obtain rfl : a = b := hb
      have hout : ∀ y ∈ ys, update next a (next p) y = next y :=
        fun y hy => update_of_ne (fun (h : y = a) => (nodup_cons.mp hn).1 (h ▸ hy)) _ _
      cases ys with
      | nil => exact (update_self ..).trans h2
      | cons y zs => exact ⟨(update_self ..).trans h2.1, h2.2.congr hout⟩
    | cons x xs ih =>
      intro a e hn hb h1 h2
      rw [getLast_cons (cons_ne_nil _ _)] at hb
      have hab : a ≠ b := by
        intro h
        have hmem : b ∈ x :: xs := hb ▸ getLast_mem _
        exact (nodup_cons.mp hn).1 (h ▸ mem_append_left ys hmem)
      refine ⟨(update_of_ne hab _ _).trans h1.1, ?_⟩
      exact ih x e (nodup_cons.mp hn).2 hb h1.2 h2
  exact key xs a a hn' hb h1 h2

/-- Removal of the head's successor. -/
theorem IsRing.unlink_second (hr : IsRing next (some a) (a :: p :: t)) :
    IsRing (update next a (next p)) (some a) (a :: t) :=
  IsRing.unlink (show IsRing next (some a) (a :: ([] ++ p :: t)) from hr) rfl

/-- Removal of the head itself: its predecessor is the last node. -/
theorem IsRing.unlink_head (hr : IsRing next (some a) (a :: x :: xs))
    (hb : (x :: xs).getLast (cons_ne_nil _ _) = b) :
    IsRing (update next b (next a)) (next a) (x :: xs) := by
  have hx : next a = some x := hr.2.1.1
  have hrot : IsRing next (some x) (x :: (xs ++ a :: [])) := hx ▸ hr.rotate
  have := hrot.unlink hb
  rwa [append_nil, ← hx] at this

/-! ## Looking for a predecessor -/

/-- The walk of a removal: start at `prev`, stop at the node whose link is
`proc`, give up with `some none` when the walk is back at `head`. It is `none` if the fuel does
not suffice or a link is missing. -/
def findPrev (next : α → Option α) (head proc : α) : Nat → α → Option (Option α)
  | 0, _ => none
  | fuel + 1, prev =>
    if next prev = some proc then some (some prev)
    else match next prev with
      | none => none
      | some nx => if nx = head then some none else findPrev next head proc fuel nx

/-- The walk finds the predecessor of a node that lies ahead of it. -/
theorem findPrev_eq_some {head : α} :
    ∀ {xs : List α} {prev : α} {fuel : Nat}, Path next prev xs p →
      p ∉ xs → head ∉ xs → xs.length < fuel →
      findPrev next head p fuel prev =
        some (some ((prev :: xs).getLast (cons_ne_nil _ _)))
  | _, _, 0, _, _, _, hf => absurd hf (Nat.not_lt_zero _)
  | [], prev, fuel + 1, hp, _, _, _ => by
    rw [findPrev, if_pos (show next prev = some p from hp)]
    rfl
  | x :: xs, prev, fuel + 1, hp, hpx, hhx, hf => by
    have hne : next prev ≠ some p := by
      rw [hp.1]
      exact fun h => hpx (Option.some.inj h ▸ mem_cons_self)
    have hxh : x ≠ head := fun h => hhx (h ▸ mem_cons_self)
    rw [findPrev, if_neg hne, hp.1]
    simp only [hxh, if_false]
    rw [findPrev_eq_some hp.2 (fun h => hpx (mem_cons_of_mem _ h))
      (fun h => hhx (mem_cons_of_mem _ h)) (Nat.lt_of_succ_lt_succ hf),
      getLast_cons (cons_ne_nil _ _)]

/-- What the walk finds is a predecessor. -/
theorem findPrev_next {head : α} :
    ∀ {fuel : Nat} {prev b : α}, findPrev next head p fuel prev = some (some b) →
      next b = some p
  | 0, _, _, h => nomatch h
  | fuel + 1, prev, b, h => by
    rw [findPrev] at h
    split at h
    · rename_i hp
      exact Option.some.inj (Option.some.inj h) ▸ hp
    · split at h
      · exact nomatch h
      · split at h
        · exact nomatch Option.some.inj h
        · exact findPrev_next h

/-- The walk gives up on a node that is not on the ring. -/
theorem findPrev_eq_some_none {head : α} :
    ∀ {xs : List α} {prev : α} {fuel : Nat}, Path next prev xs head →
      p ∉ xs → p ≠ head → xs.length < fuel →
      findPrev next head p fuel prev = some none
  | _, _, 0, _, _, _, hf => absurd hf (Nat.not_lt_zero _)
  | [], prev, fuel + 1, hp, _, hph, _ => by
    have hne : next prev ≠ some p := by
      rw [show next prev = some head from hp]
      exact fun h => hph (Option.some.inj h).symm
    rw [findPrev, if_neg hne, show next prev = some head from hp]
    simp
  | x :: xs, prev, fuel + 1, hp, hpx, hph, hf => by
    have hne : next prev ≠ some p := by
      rw [hp.1]
      exact fun h => hpx (Option.some.inj h ▸ mem_cons_self)
    rw [findPrev, if_neg hne, hp.1]
    by_cases hxh : x = head
    · simp [hxh]
    · simp only [hxh, if_false]
      exact findPrev_eq_some_none hp.2 (fun h => hpx (mem_cons_of_mem _ h)) hph
        (Nat.lt_of_succ_lt_succ hf)

/-- The walk from the head of a ring comes to an end, for any node. -/
theorem IsRing.findPrev_ne_none {head : α} {fuel : Nat}
    (hr : IsRing next (some head) (head :: t)) (hf : t.length < fuel) (p : α) :
    findPrev next head p fuel head ≠ none := by
  obtain ⟨-, hpath, hnodup⟩ := hr
  obtain ⟨hhead, hrest⟩ := nodup_cons.1 hnodup
  by_cases hp : p ∈ t
  · obtain ⟨xs, ys, rfl⟩ := append_of_mem hp
    have hpxs : p ∉ xs := fun h => (nodup_append.1 hrest).2.2 p h p mem_cons_self rfl
    rw [findPrev_eq_some (path_append.1 hpath).1 hpxs (fun h => hhead (mem_append_left _ h))
      (Nat.lt_of_le_of_lt (by simp) hf)]
    exact Option.some_ne_none _
  obtain rfl | hph := eq_or_ne p head
  · rw [findPrev_eq_some hpath hhead hhead hf]
    exact Option.some_ne_none _
  · rw [findPrev_eq_some_none hpath hp hph hf]
    exact Option.some_ne_none _

end Surgery

end CircularList

end UnixOs
