import Mathlib.Data.List.Nodup
import Mathlib.Data.List.Perm.Subperm
import Mathlib.Data.Prod.Lex
import Mathlib.Order.Basic

/-!
# The first elements of a sorted list

A list may be sorted in several ways when elements have the same key. These are the elements that may come first, in
terms of the keys alone.

* `Sorts`: a list with the same elements, sorted by a key;
* **`exists_take_pair_iff`**: when two elements can both be among the first `k`;
* **`exists_take_avoids_iff`**: when the first `k` elements can all lack a property.
-/

namespace Kfs.Lib

variable {α K : Type} [LinearOrder K] {f : α → K} {l p : List α} {a b s t : α} {k : ℕ}

/-- The elements of `l`, in an order in which the key does not decrease. -/
structure Sorts (f : α → K) (l p : List α) : Prop where
  perm : p.Perm l
  sorted : p.Pairwise fun x y => f x ≤ f y

theorem sorts_mergeSort (f : α → K) (l : List α) : Sorts f l (l.mergeSort fun x y => decide (f x ≤ f y)) where
  perm := List.mergeSort_perm _ _
  sorted := by
    have htrans : ∀ x y z : α, decide (f x ≤ f y) = true → decide (f y ≤ f z) = true → decide (f x ≤ f z) = true :=
      fun x y z hxy hyz => decide_eq_true ((of_decide_eq_true hxy).trans (of_decide_eq_true hyz))
    have htotal : ∀ x y : α, (decide (f x ≤ f y) || decide (f y ≤ f x)) = true := fun x y => by
      simpa using le_total (f x) (f y)
    exact (List.pairwise_mergeSort htrans htotal l).imp fun hxy => of_decide_eq_true hxy

namespace Sorts

/-- A list that is sorted by a key and then by a number is sorted by the key. -/
theorem of_lex {n : α → ℕ} (h : Sorts (fun x => toLex (f x, n x)) l p) : Sorts f l p where
  perm := h.perm
  sorted := h.sorted.imp fun hxy => by
    rcases Prod.Lex.le_iff.mp hxy with hlt | ⟨heq, -⟩
    · exact hlt.le
    · exact heq.le

/-- What comes first is not above what comes later. -/
theorem le (h : Sorts f l p) (ht : t ∈ p.take k) (hs : s ∈ p.drop k) : f t ≤ f s := by
  have happ := h.sorted
  rw [← List.take_append_drop k p, List.pairwise_append] at happ
  exact happ.2.2 t ht s hs

theorem mem_drop (hs : s ∈ p) (h : s ∉ p.take k) : s ∈ p.drop k := by
  rw [← List.take_append_drop k p, List.mem_append] at hs
  exact hs.resolve_left h

/-- What is below an element of the first `k` is among them. -/
theorem mem_take_of_lt (h : Sorts f l p) (hs : s ∈ p.take k) (ht : t ∈ p) (hlt : f t < f s) : t ∈ p.take k := by
  by_contra hn
  exact absurd hlt (not_lt.mpr (h.le hs (mem_drop ht hn)))

/-- An element that has no more than `k` elements up to it is among the first `k`. -/
theorem mem_take_of_countP_le (h : Sorts f l p) (hs : s ∈ l) (hk : l.countP (fun t => decide (f t ≤ f s)) ≤ k) :
    s ∈ p.take k := by
  by_contra hn
  have hdrop := mem_drop (h.perm.mem_iff.mpr hs) hn
  have hlong : k < p.length := by
    have hlen := List.length_pos_of_mem hdrop
    rw [List.length_drop] at hlen
    omega
  have hfirst : (p.take k).countP (fun t => decide (f t ≤ f s)) = k := by
    rw [List.countP_eq_length.mpr fun t ht => decide_eq_true (h.le ht hdrop)]
    exact List.length_take_of_le hlong.le
  have hrest : 0 < (p.drop k).countP (fun t => decide (f t ≤ f s)) :=
    List.countP_pos_iff.mpr ⟨s, hdrop, decide_eq_true le_rfl⟩
  rw [← h.perm.countP_eq, ← List.take_append_drop k p, List.countP_append] at hk
  omega

/-- Two elements among the first `k`, and all that are below the upper one. -/
theorem countP_add_two_le [DecidableEq α] (h : Sorts f l p) (hl : l.Nodup) (hab : a ≠ b) (ha : a ∈ p.take k)
    (hb : b ∈ p.take k) : l.countP (fun t => decide (t ≠ a ∧ f t < f b)) + 2 ≤ k := by
  rw [← h.perm.countP_eq, List.countP_eq_length_filter]
  generalize hbelow : p.filter (fun t => decide (t ≠ a ∧ f t < f b)) = below
  have hmem : ∀ t, t ∈ below ↔ t ∈ p ∧ t ≠ a ∧ f t < f b := by
    intro t
    rw [← hbelow, List.mem_filter, decide_eq_true_iff]
  have hnd : (a :: b :: below).Nodup := by
    have hbelow : below.Nodup := hbelow ▸ (h.perm.nodup_iff.mpr hl).filter _
    refine List.nodup_cons.mpr ⟨?_, List.nodup_cons.mpr ⟨?_, hbelow⟩⟩
    · rw [List.mem_cons, hmem]
      rintro (heq | ⟨-, hne, -⟩)
      · exact hab heq
      · exact hne rfl
    · rw [hmem]
      rintro ⟨-, -, hlt⟩
      exact lt_irrefl _ hlt
  have hsub : a :: b :: below ⊆ p.take k := by
    intro t ht
    rcases List.mem_cons.mp ht with rfl | ht
    · exact ha
    rcases List.mem_cons.mp ht with rfl | ht
    · exact hb
    · obtain ⟨htp, -, hlt⟩ := (hmem t).mp ht
      exact h.mem_take_of_lt hb htp hlt
  have hlen := (List.subperm_of_subset hnd hsub).length_le
  rw [List.length_cons, List.length_cons] at hlen
  exact hlen.trans (List.length_take_le k p)

end Sorts

/-- **Two elements can both be among the first `k`** exactly when they leave enough places to the elements below the
upper one. -/
theorem exists_take_pair_iff [DecidableEq α] (hl : l.Nodup) (ha : a ∈ l) (hb : b ∈ l) (hab : a ≠ b) (hf : f a ≤ f b) :
    (∃ p, Sorts f l p ∧ a ∈ p.take k ∧ b ∈ p.take k) ↔
      l.countP (fun t => decide (t ≠ a ∧ f t < f b)) + 2 ≤ k := by
  constructor
  · rintro ⟨p, hp, hap, hbp⟩
    exact hp.countP_add_two_le hl hab hap hbp
  · intro hk
    -- in doubt the two come first
    let g : α → Lex (K × ℕ) := fun t => toLex (f t, if t = a ∨ t = b then 0 else 1)
    have hp := sorts_mergeSort g l
    have hle : ∀ t, g t ≤ g b ↔ f t < f b ∨ (f t = f b ∧ (t = a ∨ t = b)) := by
      intro t
      have hgb : g b = toLex (f b, 0) := by simp [g]
      rw [hgb, Prod.Lex.toLex_le_toLex]
      by_cases ht : t = a ∨ t = b <;> simp [ht]
    have hup : l.countP (fun t => decide (g t ≤ g b)) ≤ k := by
      refine le_trans ?_ hk
      have hsub : (l.filter fun t => decide (g t ≤ g b)) ⊆
          a :: b :: l.filter fun t => decide (t ≠ a ∧ f t < f b) := by
        intro t ht
        obtain ⟨htl, htb⟩ := List.mem_filter.mp ht
        rw [decide_eq_true_iff, hle] at htb
        rw [List.mem_cons, List.mem_cons, List.mem_filter, decide_eq_true_iff]
        by_cases hta : t = a
        · exact .inl hta
        rcases htb with hlt | ⟨-, heq⟩
        · exact .inr (.inr ⟨htl, hta, hlt⟩)
        · exact .inr (.inl (heq.resolve_left hta))
      rw [List.countP_eq_length_filter, List.countP_eq_length_filter]
      exact (List.subperm_of_subset (hl.filter _) hsub).length_le
    have hga : g a ≤ g b := (hle a).mpr (hf.lt_or_eq.imp id fun heq => ⟨heq, .inl rfl⟩)
    have hdown : l.countP (fun t => decide (g t ≤ g a)) ≤ k := by
      refine le_trans (List.countP_mono_left fun t _ ht => ?_) hup
      exact decide_eq_true ((of_decide_eq_true ht).trans hga)
    exact ⟨_, hp.of_lex, hp.mem_take_of_countP_le ha hdown, hp.mem_take_of_countP_le hb hup⟩

/-- **The first `k` elements can all lack a property** exactly when each element that has it finds `k` others that lack
it and are not above. -/
theorem exists_take_avoids_iff {P : α → Prop} [DecidablePred P] (hk : k ≤ l.length) :
    (∃ p, Sorts f l p ∧ ∀ t ∈ p.take k, ¬ P t) ↔
      ∀ s ∈ l, P s → k ≤ l.countP fun t => decide (¬ P t ∧ f t ≤ f s) := by
  constructor
  · rintro ⟨p, hp, hn⟩ s hs hPs
    have hdrop := Sorts.mem_drop (hp.perm.mem_iff.mpr hs) fun h => hn s h hPs
    have hfirst : (p.take k).countP (fun t => decide (¬ P t ∧ f t ≤ f s)) = k := by
      rw [List.countP_eq_length.mpr fun t ht => decide_eq_true ⟨hn t ht, hp.le ht hdrop⟩]
      exact List.length_take_of_le (hp.perm.length_eq ▸ hk)
    calc k = (p.take k).countP (fun t => decide (¬ P t ∧ f t ≤ f s)) := hfirst.symm
      _ ≤ p.countP (fun t => decide (¬ P t ∧ f t ≤ f s)) := (List.take_sublist k p).countP_le
      _ = l.countP (fun t => decide (¬ P t ∧ f t ≤ f s)) := hp.perm.countP_eq _
  · intro h
    -- in doubt those without the property come first
    let g : α → Lex (K × ℕ) := fun t => toLex (f t, if P t then 1 else 0)
    have hp := sorts_mergeSort g l
    refine ⟨_, hp.of_lex, fun s hs hPs => ?_⟩
    generalize l.mergeSort (fun x y => decide (g x ≤ g y)) = p at hp hs
    have hlate : (p.drop k).countP (fun t => decide (¬ P t ∧ f t ≤ f s)) = 0 := by
      refine List.countP_eq_zero.mpr fun t ht => ?_
      rw [decide_eq_true_iff]
      rintro ⟨hPt, hle⟩
      have hst := hp.le hs ht
      have hgs : g s = toLex (f s, 1) := by simp [g, hPs]
      have hgt : g t = toLex (f t, 0) := by simp [g, hPt]
      rw [hgs, hgt, Prod.Lex.toLex_le_toLex] at hst
      rcases hst with hlt | ⟨-, hnum⟩
      · exact absurd hle (not_le.mpr hlt)
      · exact absurd hnum (Nat.not_succ_le_zero 0)
    have hearly : (p.take k).countP (fun t => decide (¬ P t ∧ f t ≤ f s)) < (p.take k).length := by
      refine lt_of_le_of_ne List.countP_le_length fun heq => ?_
      exact (of_decide_eq_true (List.countP_eq_length.mp heq s hs)).1 hPs
    have hlen := List.length_take_le k p
    have hmany := h s (hp.perm.mem_iff.mp (List.take_subset k p hs)) hPs
    rw [← hp.perm.countP_eq, ← List.take_append_drop k p, List.countP_append] at hmany
    omega

end Kfs.Lib
