import Mathlib.Algebra.BigOperators.Group.Finset.Basic
import Mathlib.Algebra.BigOperators.Intervals
import Mathlib.Algebra.Order.BigOperators.Group.Finset
import Mathlib.Data.List.Basic

/-!
# Pieces of a range

`Tiles start len a b l`: the pieces in the list `l` are not empty and make up the range from `a` to `b`, from left to
right; `start` and `len` tell where a piece lies.

**`filled_iff`**: pieces that lie one behind the other are filled from the left, each only in part; as many places from
the left on are filled as there are filled places at all exactly when no piece behind one that is not full has a filled
place.
-/

namespace Kfs.Lib

inductive Tiles {α : Type*} (start len : α → ℕ) : ℕ → ℕ → List α → Prop
  | nil {a : ℕ} : Tiles start len a a []
  | cons {x : α} {b : ℕ} {l : List α} (pos : 0 < len x) (rest : Tiles start len (start x + len x) b l) :
    Tiles start len (start x) b (x :: l)

namespace Tiles

variable {α : Type*} {start len : α → ℕ} {a b : ℕ} {x : α} {l : List α}

theorem le (h : Tiles start len a b l) : a ≤ b := by
  induction h with
  | nil => exact le_rfl
  | cons pos rest ih => omega

/-- Every piece lies in the range. -/
theorem mem (h : Tiles start len a b l) (hx : x ∈ l) : a ≤ start x ∧ start x + len x ≤ b ∧ 0 < len x := by
  induction h with
  | nil => exact absurd hx List.not_mem_nil
  | @cons y b l pos rest ih =>
    cases List.mem_cons.1 hx with
    | inl heq =>
      subst heq
      exact ⟨le_rfl, rest.le, pos⟩
    | inr hmem =>
      obtain ⟨hle, hrest⟩ := ih hmem
      exact ⟨by omega, hrest⟩

end Tiles

/-! ## Pieces that are filled in part -/

open Finset

variable {b l : ℕ → ℕ} {m n i j p : ℕ}

theorem sum_range_mono (h : i ≤ j) : ∑ k ∈ range i, b k ≤ ∑ k ∈ range j, b k :=
  sum_le_sum_of_subset (range_subset_range.2 h)

/-- A place before the end lies in one of the pieces. -/
theorem exists_piece (hp : p < ∑ k ∈ range n, b k) :
    ∃ i < n, ∑ k ∈ range i, b k ≤ p ∧ p < ∑ k ∈ range i, b k + b i := by
  induction n with
  | zero => exact absurd hp (Nat.not_lt_zero p)
  | succ n ih =>
    by_cases hlt : p < ∑ k ∈ range n, b k
    · obtain ⟨i, hi, h⟩ := ih hlt
      exact ⟨i, by omega, h⟩
    · rw [sum_range_succ] at hp
      exact ⟨n, by omega, not_lt.1 hlt, hp⟩

theorem filled_iff (hle : ∀ i < n, l i ≤ b i) :
    (∀ p < ∑ k ∈ range n, l k, ∃ i < n, ∑ k ∈ range i, b k ≤ p ∧ p < ∑ k ∈ range i, b k + l i) ↔
      ∀ i j, i < j → j < n → l i < b i → l j = 0 := by
  constructor
  · intro h i j hij hj hshort
    by_contra hne
    -- the first piece that is not full
    have hex : ∃ i, l i < b i := ⟨i, hshort⟩
    classical
    obtain ⟨f, hf, hfull⟩ : ∃ f, l f < b f ∧ ∀ k < f, ¬ l k < b k :=
      ⟨Nat.find hex, Nat.find_spec hex, fun k => Nat.find_min hex⟩
    have hfi : f ≤ i := not_lt.1 fun hlt => hfull i hlt hshort
    have hsame : ∑ k ∈ range f, l k = ∑ k ∈ range f, b k := by
      refine sum_congr rfl fun k hk => ?_
      have hkf := mem_range.1 hk
      exact le_antisymm (hle k (by omega)) (not_lt.1 (hfull k hkf))
    have hmore : ∑ k ∈ range f, b k + l f < ∑ k ∈ range n, l k := by
      have hfirst : ∑ k ∈ range (f + 1), l k ≤ ∑ k ∈ range j, l k := sum_range_mono (by omega)
      have hlast : ∑ k ∈ range (j + 1), l k ≤ ∑ k ∈ range n, l k := sum_range_mono (by omega)
      rw [sum_range_succ] at hfirst hlast
      omega
    obtain ⟨m, hm, hge, hlt⟩ := h _ hmore
    rcases Nat.lt_trichotomy m f with hmf | rfl | hmf
    · have hnext : ∑ k ∈ range (m + 1), b k ≤ ∑ k ∈ range f, b k := sum_range_mono hmf
      have hlm := hle m hm
      rw [sum_range_succ] at hnext
      omega
    · omega
    · have hnext : ∑ k ∈ range (f + 1), b k ≤ ∑ k ∈ range m, b k := sum_range_mono hmf
      rw [sum_range_succ] at hnext
      omega
  · intro h p hp
    have hbound : ∑ k ∈ range n, l k ≤ ∑ k ∈ range n, b k := sum_le_sum fun k hk => hle k (mem_range.1 hk)
    obtain ⟨i, hi, hge, hlt⟩ := exists_piece (hp.trans_le hbound)
    by_contra hnot
    push Not at hnot
    have hend := hnot i hi hge
    have hzero : ∀ k ∈ range n, k ∉ range (i + 1) → l k = 0 := by
      intro k hk hki
      have hlt' : i < k := by
        rw [mem_range] at hki
        omega
      exact h i k hlt' (mem_range.1 hk) (by omega)
    have hsum : ∑ k ∈ range (i + 1), l k = ∑ k ∈ range n, l k := sum_subset (range_subset_range.2 hi) hzero
    have hpart : ∑ k ∈ range i, l k ≤ ∑ k ∈ range i, b k := sum_le_sum fun k hk => hle k (by
      have := mem_range.1 hk
      omega)
    rw [sum_range_succ] at hsum
    omega

end Kfs.Lib
