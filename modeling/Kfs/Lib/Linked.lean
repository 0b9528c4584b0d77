import Mathlib.Tactic

/-!
# Singly linked chains

A successor function `next` on addresses, and lists of addresses that it links in order.

* `Linked next l tl`: `next` leads from each element of `l` to the following one, and from the
  last to `tl`;
* `Linked.append_iff`, `Linked.congr`: chains of parts, and the frame rule;
* `walk`, **`walk_eq`**: following `next` from the head reads back the whole chain.
-/

namespace Kfs.Lib

variable {α : Type} {next next' : α → Option α}

/-- `next` links the elements of the list, and its last element to `tl`. -/
def Linked (next : α → Option α) : List α → Option α → Prop
  | [], _ => True
  | a :: l, tl => next a = l.head?.or tl ∧ Linked next l tl

@[simp] theorem linked_nil (tl : Option α) : Linked next [] tl := trivial

@[simp] theorem linked_cons (a : α) (l : List α) (tl : Option α) :
    Linked next (a :: l) tl ↔ next a = l.head?.or tl ∧ Linked next l tl := Iff.rfl

theorem Linked.append_iff {A B : List α} {tl : Option α} :
    Linked next (A ++ B) tl ↔ Linked next A (B.head?.or tl) ∧ Linked next B tl := by
  induction A with
  | nil => simp
  | cons a A ih =>
    simp only [List.cons_append, linked_cons, ih, List.head?_append, Option.or_assoc, and_assoc]

/-- The frame rule: only the successors of members matter. -/
theorem Linked.congr {l : List α} {tl : Option α} (h : ∀ a ∈ l, next' a = next a) :
    Linked next' l tl ↔ Linked next l tl := by
  induction l with
  | nil => simp
  | cons a l ih =>
    rw [linked_cons, linked_cons, ih fun b hb => h b (List.mem_cons_of_mem _ hb),
      h a List.mem_cons_self]

theorem Linked.next_eq {A B : List α} {a : α} {tl : Option α}
    (h : Linked next (A ++ a :: B) tl) : next a = B.head?.or tl :=
  ((Linked.append_iff.mp h).2).1

/-- Follow `next` from `a`, for at most `fuel` elements. -/
def walk (next : α → Option α) : ℕ → α → List α
  | 0, _ => []
  | fuel + 1, a =>
    match next a with
    | none => [a]
    | some b => a :: walk next fuel b

/-- **Reading a chain from its head gives the chain.** -/
theorem walk_eq : ∀ (fuel : ℕ) {a : α} {l : List α}, Linked next (a :: l) none →
    (a :: l).length ≤ fuel → walk next fuel a = a :: l
  | 0, _, _, _, hf => by simp at hf
  | fuel + 1, a, [], h, _ => by
    have ha : next a = none := by simpa using h.1
    rw [walk, ha]
  | fuel + 1, a, b :: l, h, hf => by
    have ha : next a = some b := by simpa using h.1
    rw [walk, ha]
    simp only
    rw [walk_eq fuel h.2 (by simpa using hf)]

end Kfs.Lib
