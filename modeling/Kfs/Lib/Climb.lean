import Mathlib.Logic.Relation
import Mathlib.Data.Finset.Card
import Mathlib.Tactic.Cases

/-!
# Climbing to the root

A relation `up` from nodes to their parents, and the nodes from which the root can be reached.

* `Avoids up a x y`: `y` is reached from `x` without leaving `a`;
* `climb_of_leaf`: removing a node without children;
* `Avoids.reparent`: hanging `a` below a node that reaches the root without leaving `a` keeps every node
  below the root;
* `climb_erase`: the first step of a climb that does not come back, so that a climb over the nodes of a
  finite set takes at most as many steps as there are nodes.
-/

namespace Kfs.Lib

open Relation

variable {α : Type*} {up up' : α → α → Prop} {root a x y : α}

/-- `y` is reached from `x` without a step from `a`. -/
def Avoids (up : α → α → Prop) (a x y : α) : Prop :=
  ReflTransGen (fun u v => up u v ∧ u ≠ a) x y

/-- What climbs to the root still does so when the steps from `b` are removed, if no other node has a step
to `b`. -/
theorem climb_of_leaf {b : α} (h : ReflTransGen up x root) (hx : x ≠ b)
    (hto : ∀ u, up u b → u = b) (hup : ∀ u v, up u v → u ≠ b → up' u v) :
    ReflTransGen up' x root := by
  induction h using ReflTransGen.head_induction_on with
  | refl => exact .refl
  | @head u v hs hr ih =>
    refine .head (hup u v hs hx) (ih ?_)
    rintro rfl
    exact hx (hto u hs)

/-- **Reparenting.** -/
theorem Avoids.reparent {b : α} (hb : Avoids up a b root) (hab : up' a b)
    (hup : ∀ u v, up u v → u ≠ a → up' u v) (h : ReflTransGen up x root) :
    ReflTransGen up' x root := by
  have hb' : ReflTransGen up' b root := ReflTransGen.mono (fun u v hs => hup u v hs.1 hs.2) _ _ hb
  induction h using ReflTransGen.head_induction_on with
  | refl => exact .refl
  | @head u v hs hr ih =>
    by_cases hu : u = a
    · exact .head (hu ▸ hab) hb'
    · exact .head (hup u v hs hu) ih

/-- A climb that takes a step from `a` takes one after which it does not come back to `a`. -/
theorem climb_erase (h : ReflTransGen up x root) :
    Avoids up a x root ∨ ∃ p, up a p ∧ Avoids up a p root := by
  induction h using ReflTransGen.head_induction_on with
  | refl => exact Or.inl .refl
  | @head u v hs hr ih =>
    rcases ih with ih | ih
    · by_cases hu : u = a
      · exact Or.inr ⟨v, hu ▸ hs, ih⟩
      · exact Or.inl (.head ⟨hs, hu⟩ ih)
    · exact Or.inr ih

end Kfs.Lib
