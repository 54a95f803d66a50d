import Mathlib.Algebra.GroupWithZero.Nat
import Mathlib.Algebra.Order.BigOperators.Group.List
import Mathlib.Algebra.Order.Group.Nat
import Mathlib.Data.List.Basic

/-!
# Streams passed on in chunks

Items are taken from a list in chunks that fit a buffer, and of each chunk as many
are passed on as fit a second buffer, in which an item may take more room. What did
not fit there is lost.

- `fitting`: the items that fit a buffer, in order;
- `relay`: what comes through;
- `Whole`: a list whose chunks fit the second buffer as well;
- `relay_eq_iff`: these are the lists that come through;
- `serve`: chunks for buffers of different sizes; `serve_complete`: nothing is left when
  each buffer had room for the next item (`Roomy`) and there were enough of them.
-/

namespace UnixOs.Chunks

open List

universe u

variable {α : Type u} (len len' : α → Nat) (cap : Nat)

/-- The items that fit behind `w` bytes of a buffer of `cap` bytes. -/
def fitting (w : Nat) : List α → List α
  | [] => []
  | x :: xs => if cap < w + len x then [] else x :: fitting (w + len x) xs

/-- What comes through in at most `n` rounds; a round that passes nothing on is the
last. -/
def relay : Nat → List α → List α
  | 0, _ => []
  | n + 1, l =>
    let chunk := fitting len cap 0 l
    let out := fitting len' cap 0 chunk
    if out = [] then [] else out ++ relay n (l.drop chunk.length)

/-- Every chunk fits the second buffer. -/
inductive Whole : List α → Prop
  | nil : Whole []
  | chunk {c rest : List α} : c ≠ [] → fitting len cap 0 (c ++ rest) = c →
      (c.map len').sum ≤ cap → Whole rest → Whole (c ++ rest)

variable {len len' cap} {w n : Nat} {l : List α}

theorem isPrefix_fitting (w : Nat) (l : List α) : fitting len cap w l <+: l := by
  induction l generalizing w with
  | nil => exact prefix_rfl
  | cons x xs ih =>
    rw [fitting]
    split
    · exact nil_prefix
    · exact cons_prefix_cons.2 ⟨rfl, ih _⟩

theorem fitting_append_drop (l : List α) :
    fitting len cap w l ++ l.drop (fitting len cap w l).length = l := by
  have hpre : fitting len cap w l <+: l := isPrefix_fitting w l
  generalize fitting len cap w l = c at hpre
  obtain ⟨rest, rfl⟩ := hpre
  rw [drop_left]

/-- Everything fits if the sum does. -/
theorem fitting_eq_self (h : w + (l.map len).sum ≤ cap) : fitting len cap w l = l := by
  induction l generalizing w with
  | nil => rfl
  | cons x xs ih =>
    rw [map_cons, sum_cons] at h
    rw [fitting, if_neg (by omega), ih (by omega)]

theorem sum_le_of_fitting (hw : w ≤ cap) (h : fitting len cap w l = l) :
    w + (l.map len).sum ≤ cap := by
  induction l generalizing w with
  | nil => simpa using hw
  | cons x xs ih =>
    rw [fitting] at h
    split at h
    · cases h
    next hx =>
    have := ih (not_lt.1 hx) (cons.inj h).2
    rw [map_cons, sum_cons]
    omega

theorem relay_sublist (n : Nat) (l : List α) : (relay len len' cap n l).Sublist l := by
  induction n generalizing l with
  | zero => exact nil_sublist l
  | succ n ih =>
    rw [relay]
    split
    · exact nil_sublist l
    · have hout : (fitting len' cap 0 (fitting len cap 0 l)).Sublist (fitting len cap 0 l) :=
        (isPrefix_fitting 0 _).sublist
      have := hout.append (ih (l.drop (fitting len cap 0 l).length))
      rwa [fitting_append_drop] at this

theorem fitting_ne_nil_of_whole (h : Whole len len' cap l) (hl : l ≠ []) :
    fitting len cap 0 l ≠ [] ∧ ((fitting len cap 0 l).map len').sum ≤ cap ∧
      Whole len len' cap (l.drop (fitting len cap 0 l).length) := by
  cases h with
  | nil => exact absurd rfl hl
  | @chunk c rest hc hfit hsum hrest =>
    rw [hfit, drop_left]
    exact ⟨hc, hsum, hrest⟩

/-- **What comes through**: the whole list, if and only if no chunk outgrows the
second buffer. -/
theorem relay_eq_iff (hn : l.length < n) : relay len len' cap n l = l ↔ Whole len len' cap l := by
  induction n generalizing l with
  | zero => exact absurd hn (Nat.not_lt_zero _)
  | succ n ih =>
    obtain rfl | hl := eq_or_ne l []
    · exact iff_of_true (eq_nil_of_sublist_nil (relay_sublist _ _)) .nil
    have hsplit := @fitting_append_drop α len cap 0 l
    have hprefix : fitting len' cap 0 (fitting len cap 0 l) <+: fitting len cap 0 l :=
      isPrefix_fitting 0 _
    have hrest : (relay len len' cap n (l.drop (fitting len cap 0 l).length)).Sublist
        (l.drop (fitting len cap 0 l).length) := relay_sublist n _
    -- a round takes something away
    have hshort (hc : fitting len cap 0 l ≠ []) :
        (l.drop (fitting len cap 0 l).length).length < n := by
      have hpos := length_pos_iff.2 hc
      have hle : (fitting len cap 0 l).length ≤ l.length := (isPrefix_fitting 0 l).length_le
      rw [length_drop]
      omega
    constructor
    · intro h
      rw [relay] at h
      split at h
      · exact absurd h.symm hl
      next hout =>
      -- both parts are as long as they can be
      have hlen := congrArg length (h.trans hsplit.symm)
      rw [length_append, length_append] at hlen
      have hle := hprefix.length_le
      have hle' := hrest.length_le
      have hall := hprefix.eq_of_length (by omega)
      have htail := hrest.eq_of_length (by omega)
      have hc : fitting len cap 0 l ≠ [] := by
        intro hnil
        rw [hnil] at hout
        exact hout rfl
      have hwhole := (ih (hshort hc)).1 htail
      have hsum := sum_le_of_fitting (Nat.zero_le _) hall
      rw [← hsplit]
      refine .chunk hc ?_ (by omega) hwhole
      rw [hsplit]
    · intro h
      obtain ⟨hc, hsum, hwhole⟩ := fitting_ne_nil_of_whole h hl
      rw [relay, fitting_eq_self (by omega), if_neg hc, (ih (hshort hc)).2 hwhole]
      exact hsplit

/-- A part of a list that takes as much room is the whole list. -/
theorem eq_of_sublist_of_sum {l l' : List α} (h : l.Sublist l') (hpos : ∀ x ∈ l', 0 < len x)
    (hsum : (l'.map len).sum ≤ (l.map len).sum) : l = l' := by
  induction h with
  | slnil => rfl
  | @cons l1 l2 x hsub ih =>
    have hle : (l1.map len).sum ≤ (l2.map len).sum :=
      (hsub.map len).sum_le_sum fun _ _ => Nat.zero_le _
    have := hpos x mem_cons_self
    rw [map_cons, sum_cons] at hsum
    omega
  | @cons_cons l1 l2 x hsub ih =>
    rw [map_cons, map_cons, sum_cons, sum_cons] at hsum
    rw [ih (fun y hy => hpos y (mem_cons_of_mem x hy)) (by omega)]

/-! ## Buffers of different sizes -/

section Serve

variable (len : α → Nat)

/-- The chunks for a sequence of buffers. -/
def serve : List Nat → List α → List (List α)
  | [], _ => []
  | cap :: caps, l => fitting len cap 0 l :: serve caps (l.drop (fitting len cap 0 l).length)

/-- Each buffer has room for the next item. -/
def Roomy : List Nat → List α → Prop
  | [], _ => True
  | cap :: caps, l => (∀ x ∈ l.head?, len x ≤ cap) ∧
      Roomy caps (l.drop (fitting len cap 0 l).length)

variable {len} {caps : List Nat}

theorem sum_fitting_le (hw : w ≤ cap) (l : List α) :
    w + ((fitting len cap w l).map len).sum ≤ cap := by
  induction l generalizing w with
  | nil => simpa [fitting] using hw
  | cons x xs ih =>
    rw [fitting]
    split
    · simpa using hw
    · next hx =>
      have := ih (not_lt.1 hx)
      rw [map_cons, sum_cons]
      omega

/-- With room for the next item a chunk is empty only at the end. -/
theorem fitting_eq_nil_iff (h : ∀ x ∈ l.head?, len x ≤ cap) :
    fitting len cap 0 l = [] ↔ l = [] := by
  cases l with
  | nil => exact iff_of_true rfl rfl
  | cons x xs =>
    have hx : len x ≤ cap := h x rfl
    rw [fitting, if_neg (by omega)]
    exact iff_of_false nofun nofun

theorem fitting_map {β : Type u} (f : β → α) (cap w : Nat) (l : List β) :
    fitting len cap w (l.map f) = (fitting (fun x => len (f x)) cap w l).map f := by
  induction l generalizing w with
  | nil => rfl
  | cons x xs ih =>
    rw [map_cons, fitting, fitting]
    split
    · rfl
    · rw [ih, map_cons]

theorem roomy_map {β : Type u} (f : β → α) {caps : List Nat} {l : List β} :
    Roomy len caps (l.map f) ↔ Roomy (fun x => len (f x)) caps l := by
  induction caps generalizing l with
  | nil => exact Iff.rfl
  | cons cap caps ih =>
    rw [Roomy, Roomy, fitting_map, length_map, ← map_drop, ih, head?_map]
    refine and_congr_left fun _ => ⟨fun h x hx => h _ ?_, fun h y hy => ?_⟩
    · exact Option.mem_map_of_mem f hx
    · obtain ⟨x, hx, rfl⟩ := Option.map_eq_some_iff.1 hy
      exact h x hx

theorem flatten_serve_initial (caps : List Nat) (l : List α) :
    (serve len caps l).flatten <+: l := by
  induction caps generalizing l with
  | nil => exact nil_prefix
  | cons cap caps ih =>
    have h := (prefix_append_right_inj (fitting len cap 0 l)).2
      (ih (l.drop (fitting len cap 0 l).length))
    rwa [fitting_append_drop] at h

theorem serve_take (i : Nat) (caps : List Nat) (l : List α) :
    (serve len caps l).take i = serve len (caps.take i) l := by
  induction caps generalizing i l with
  | nil => rw [take_nil]; exact take_nil
  | cons cap caps ih =>
    cases i with
    | zero => rfl
    | succ i => rw [serve, take_succ_cons, take_succ_cons, serve, ih]

theorem serve_within (caps : List Nat) (l : List α) :
    List.Forall₂ (fun c cap => (c.map len).sum ≤ cap) (serve len caps l) caps := by
  induction caps generalizing l with
  | nil => exact .nil
  | cons cap caps ih =>
    refine .cons ?_ (ih _)
    have h : 0 + ((fitting len cap 0 l).map len).sum ≤ cap := sum_fitting_le (Nat.zero_le cap) l
    omega

/-- Every buffer takes at least one item, so as many buffers as items take all. -/
theorem serve_complete (h : Roomy len caps l) (hlen : l.length ≤ caps.length) :
    (serve len caps l).flatten = l := by
  induction caps generalizing l with
  | nil => rw [eq_nil_of_length_eq_zero (Nat.le_zero.1 hlen)]; rfl
  | cons cap caps ih =>
    have hsplit := @fitting_append_drop α len cap 0 l
    rw [serve, flatten_cons, ih h.2, hsplit]
    rw [length_drop]
    rw [length_cons] at hlen
    by_cases hl : l = []
    · rw [hl, length_nil]
      omega
    · have hpos := length_pos_iff.2 (mt (fitting_eq_nil_iff h.1).1 hl)
      omega

/-- A chunk is empty exactly if all items came before. -/
theorem serve_eq_nil_iff (h : Roomy len caps l) {i : Nat} (hi : i < caps.length) :
    (serve len caps l)[i]? = some [] ↔ ((serve len caps l).take i).flatten = l := by
  induction caps generalizing l i with
  | nil => exact absurd hi (Nat.not_lt_zero _)
  | cons cap caps ih =>
    cases i with
    | zero =>
      rw [serve, getElem?_cons_zero, take_zero, Option.some_inj, fitting_eq_nil_iff h.1]
      exact eq_comm
    | succ i =>
      have hsplit := @fitting_append_drop α len cap 0 l
      rw [serve, getElem?_cons_succ, ih h.2 (Nat.lt_of_succ_lt_succ hi), take_succ_cons,
        flatten_cons]
      constructor
      · intro heq
        rw [heq, hsplit]
      · intro heq
        exact append_cancel_left (heq.trans hsplit.symm)

end Serve

end UnixOs.Chunks
