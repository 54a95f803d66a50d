import Mathlib.Data.List.Basic

/-!
# Forests given by children lists

A node's children are a list, `children : α → List α`. `Reach children r` are the
nodes below `r`, and `r` itself. The lemmas say when a node is still reached
after a node `x` has been cut off, or cut off and hung somewhere else.
-/

namespace UnixOs

namespace Forest

universe u

variable {α : Type u} {children children' : α → List α} {r x p j : α}

/-- `j` is `r` or below it. -/
inductive Reach (children : α → List α) (r : α) : α → Prop
  | refl : Reach children r r
  | child {d c : α} : Reach children r d → c ∈ children d → Reach children r c

theorem Reach.trans (h : Reach children r p) (h' : Reach children p j) : Reach children r j := by
  induction h' with
  | refl => exact h
  | child _ hc ih => exact .child ih hc

/-- Nothing is below a node without children. -/
theorem Reach.of_leaf (hleaf : children r = []) (h : Reach children r j) : j = r := by
  induction h with
  | refl => rfl
  | child _ hc ih =>
    rw [ih, hleaf] at hc
    cases hc

section Cut

variable (hkeep : ∀ d c, c ≠ x → c ∈ children d → c ∈ children' d)

include hkeep

/-- What is not below `x` is reached without it. -/
theorem Reach.avoid (h : Reach children r j) (hx : ¬ Reach children x j) : Reach children' r j := by
  induction h with
  | refl => exact .refl
  | @child d c _ hc ih =>
    have hcx : c ≠ x := fun e => hx (e ▸ .refl)
    exact .child (ih fun hd => hx (.child hd hc)) (hkeep d c hcx hc)

/-- Hanging `x` below `p`, which is not below `x`, loses nobody. -/
theorem Reach.move (hp : Reach children r p) (hxp : ¬ Reach children x p) (hnew : x ∈ children' p)
    (h : Reach children r j) : Reach children' r j := by
  have hx : Reach children' r x := .child (hp.avoid hkeep hxp) hnew
  induction h with
  | refl => exact .refl
  | @child d c _ hc ih =>
    by_cases hcx : c = x
    · exact hcx ▸ hx
    · exact .child ih (hkeep d c hcx hc)

/-- Cutting a node without children off loses only this node. -/
theorem Reach.cut_leaf (hleaf : children x = []) (hj : j ≠ x) (h : Reach children r j) :
    Reach children' r j := by
  refine h.avoid hkeep fun hx => hj ?_
  exact hx.of_leaf hleaf

end Cut

/-- In a forest where the children of a node know their parent and the root is
nobody's child, a node reached from the root is not below its own children. -/
theorem Reach.acyclic {parent : α → α} (hparent : ∀ {d c}, c ∈ children d → parent c = d)
    (hroot : ∀ d, r ∉ children d) (h : Reach children r j) :
    ∀ c ∈ children j, ¬ Reach children c j := by
  induction h with
  | refl =>
    intro c hc hreach
    cases hreach with
    | refl => exact hroot _ hc
    | child _ hr => exact hroot _ hr
  | @child e d he hd ih =>
    intro c hc hreach
    -- `d` is below `c`, hence so is the parent `e` of `d`, and `c` is below `d`
    have hdc : Reach children d c := .child .refl hc
    cases hreach with
    | refl =>
      have hed : e = d := (hparent hd).symm.trans (hparent hc)
      exact ih d hd (hed ▸ .refl)
    | @child e' _ he' hd' =>
      have hee : e' = e := (hparent hd').symm.trans (hparent hd)
      exact ih d hd (hdc.trans (hee ▸ he'))

end Forest

end UnixOs
