import Mathlib.Data.Finset.Card
import Mathlib.Data.Finset.Dedup

/-!
# The classes that a list meets

A function sorts the elements of a list into classes. A part of a list cannot meet more classes than the list, nor
more than it has elements.

* `classes`: how many classes a list meets; `classes_eq_length_iff`: every element is in a class of its own;
* **`classes_take_iff`**: when the first elements meet as many classes as they can.
-/

namespace Kfs.Lib

variable {α β : Type} [DecidableEq β] {f : α → β} {l l' : List α} {k : ℕ}

/-- The number of classes of `f` among the elements of a list. -/
def classes (f : α → β) (l : List α) : ℕ := (l.map f).toFinset.card

theorem classes_eq_dedup (f : α → β) (l : List α) : (l.map f).dedup.length = classes f l := rfl

theorem classes_eq_length_iff : classes f l = l.length ↔ (l.map f).Nodup := by
  have hlen : (l.map f).length = l.length := List.length_map f
  rw [← hlen, classes, List.card_toFinset]
  constructor
  · intro h
    exact List.dedup_eq_self.mp ((List.dedup_sublist _).eq_of_length h)
  · intro h
    rw [List.dedup_eq_self.mpr h]

theorem classes_perm (h : l.Perm l') : classes f l = classes f l' := by
  rw [classes, classes, List.toFinset_eq_of_perm _ _ (h.map f)]

theorem classes_subset (h : l ⊆ l') : (l.map f).toFinset ⊆ (l'.map f).toFinset := by
  intro b hb
  rw [List.mem_toFinset] at hb ⊢
  exact List.map_subset f h hb

theorem classes_mono (h : l ⊆ l') : classes f l ≤ classes f l' := Finset.card_le_card (classes_subset h)

/-- A part meets all classes when every element of the whole has one of its class in the part. -/
theorem classes_eq_iff (h : l ⊆ l') : classes f l = classes f l' ↔ ∀ a ∈ l', ∃ b ∈ l, f b = f a := by
  constructor
  · intro hc a ha
    have he := Finset.eq_of_subset_of_card_le (classes_subset (f := f) h) hc.ge
    have hm : f a ∈ (l.map f).toFinset := by
      rw [he, List.mem_toFinset]
      exact List.mem_map_of_mem ha
    rw [List.mem_toFinset] at hm
    exact List.mem_map.mp hm
  · intro hcov
    refine le_antisymm (classes_mono h) (Finset.card_le_card fun b hb => ?_)
    rw [List.mem_toFinset] at hb ⊢
    obtain ⟨a, ha, rfl⟩ := List.mem_map.mp hb
    obtain ⟨b, hb, hf⟩ := hcov a ha
    exact List.mem_map.mpr ⟨b, hb, hf⟩

/-- **The first `k` elements meet as many classes as they can** when they are in classes of their own, or meet every
class. -/
theorem classes_take_iff (hk : k ≤ l.length) : classes f (l.take k) = min k (classes f l) ↔
    if k ≤ classes f l then ((l.take k).map f).Nodup else ∀ a ∈ l, ∃ b ∈ l.take k, f b = f a := by
  split_ifs with h
  · have hlen : (l.take k).length = k := List.length_take_of_le hk
    rw [min_eq_left h, ← classes_eq_length_iff, hlen]
  · rw [min_eq_right (by omega)]
    exact classes_eq_iff (List.take_subset k l)

end Kfs.Lib
