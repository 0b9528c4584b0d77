import Mathlib.Data.List.GetD
import Mathlib.Tactic.Linarith

/-!
# Stores

A memory is a function of the address; a list of values is stored at an address and loaded from it.

* `store`, `store_apply`, `store_append`: two adjacent stores are one;
* `load`, `load_append`, `store_load`: what has been loaded and stored elsewhere;
* `cells`, `overwrite`, `overwrite_cells`: a store as a sequence of single ones.
-/

namespace Kfs.Lib

variable {α : Type} {f g : ℕ → α} {p q n i : ℕ} {d e : List α}

/-- The values `d` are stored from the address `p` on. -/
def store (f : ℕ → α) (p : ℕ) (d : List α) : ℕ → α := fun i => if p ≤ i then d.getD (i - p) (f i) else f i

/-- The `n` values from the address `p` on. -/
def load (f : ℕ → α) (p n : ℕ) : List α := (List.range n).map fun i => f (p + i)

theorem store_of_lt (h : i < p) : store f p d i = f i := if_neg (by omega)

theorem store_of_ge (h : p + d.length ≤ i) : store f p d i = f i := by
  rw [store, if_pos (by omega), List.getD_eq_default _ _ (by omega)]

theorem store_of_mem (h₁ : p ≤ i) (h₂ : i - p < d.length) :
    store f p d i = d[i - p] := by
  rw [store, if_pos h₁, List.getD_eq_getElem]

@[simp] theorem store_nil : store f p [] = f := by
  funext i
  rcases lt_or_ge i p with h | h
  · exact store_of_lt h
  · exact store_of_ge h

/-- Two adjacent stores are one. -/
theorem store_append : store f p (d ++ e) = store (store f p d) (p + d.length) e := by
  funext i
  rcases lt_or_ge i p with h | h
  · rw [store_of_lt h, store_of_lt (by omega), store_of_lt h]
  rcases lt_or_ge i (p + d.length) with hd | hd
  · rw [store_of_lt hd, store_of_mem h (by rw [List.length_append]; omega), store_of_mem h (by omega)]
    exact List.getElem_append_left _
  rcases lt_or_ge i (p + d.length + e.length) with he | he
  · rw [store_of_mem hd (by omega), store_of_mem h (by rw [List.length_append]; omega),
      List.getElem_append_right (by omega)]
    congr 1
    omega
  · rw [store_of_ge he, store_of_ge hd, store_of_ge (by rw [List.length_append]; omega)]

@[simp] theorem length_load : (load f p n).length = n := by simp [load]

@[simp] theorem load_zero : load f p 0 = [] := rfl

@[simp] theorem getElem_load (h : i < (load f p n).length) : (load f p n)[i] = f (p + i) := by
  simp [load]

/-- Two adjacent pieces are loaded as one. -/
theorem load_append (m : ℕ) : load f p (n + m) = load f p n ++ load f (p + n) m := by
  simp only [load, List.range_add, List.map_append, List.map_map]
  congr 1
  exact List.map_congr_left fun i _ => by simp [Nat.add_assoc]

theorem load_congr (h : ∀ i, p ≤ i → i < p + n → f i = g i) : load f p n = load g p n :=
  List.map_congr_left fun i hi => h _ (by omega) (by have := List.mem_range.1 hi; omega)

theorem eq_of_load_eq (h : load f p n = load g p n) (h₁ : p ≤ i) (h₂ : i < p + n) : f i = g i := by
  have hi := List.map_inj_left.1 h (i - p) (List.mem_range.2 (by omega))
  rwa [Nat.add_sub_cancel' h₁] at hi

theorem store_load (h₁ : p ≤ i) (h₂ : i < p + n) : store f p (load g q n) i = g (q + (i - p)) := by
  rw [store_of_mem h₁ (by rw [length_load]; omega), getElem_load]

/-! ## Sequences of single stores -/

/-- The values `d` with their addresses from `p` on. -/
def cells (p : ℕ) (d : List α) : List (ℕ × α) := d.mapIdx fun i a => (p + i, a)

/-- The memory after the stores `w`, one after another. -/
def overwrite (f : ℕ → α) (w : List (ℕ × α)) : ℕ → α := w.foldl (fun f x => Function.update f x.1 x.2) f

@[simp] theorem cells_nil : cells p ([] : List α) = [] := rfl

theorem cells_append : cells p (d ++ e) = cells p d ++ cells (p + d.length) e := by
  simp only [cells, List.mapIdx_append, Nat.add_assoc, Nat.add_comm d.length]

theorem overwrite_append (v w : List (ℕ × α)) : overwrite f (v ++ w) = overwrite (overwrite f v) w :=
  List.foldl_append

theorem store_singleton (a : α) : store f p [a] = Function.update f p a := by
  funext i
  rcases eq_or_ne i p with rfl | hne
  · rw [store_of_mem le_rfl (by simp), Function.update_self]
    simp
  · rw [Function.update_of_ne hne]
    rcases Nat.lt_or_gt_of_ne hne with h | h
    · exact store_of_lt h
    · exact store_of_ge h

/-- A store is the sequence of the stores of its values. -/
theorem overwrite_cells : overwrite f (cells p d) = store f p d := by
  induction d generalizing f p with
  | nil => simp [overwrite]
  | cons a d ih =>
    have hcells : cells p (a :: d) = (p, a) :: cells (p + 1) d :=
      cells_append (d := [a]) (e := d)
    have hstore : store f p (a :: d) = store (store f p [a]) (p + 1) d :=
      store_append (d := [a]) (e := d)
    rw [hcells, hstore, store_singleton, ← ih]
    rfl

end Kfs.Lib
