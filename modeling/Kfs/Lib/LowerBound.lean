import Mathlib.Data.List.TakeWhile
import Mathlib.Tactic.Common

/-!
# Binary search for the first element failing a predicate

* `lowerBoundAux`, `lowerBound`: the halving loop of a lower-bound search, over positions
  `[first, first + len)`, looking at one element per turn.
* `Split p l`: the elements satisfying `p` come first.
* **`lowerBound_eq`**: on a split list the search returns the length of the satisfying prefix.
-/

namespace Kfs.Lib

variable {α : Type}

/-- One search over the positions `[first, first + len)`; `fuel` bounds the number of halvings. -/
def lowerBoundAux (p : α → Bool) (l : List α) : ℕ → ℕ → ℕ → ℕ
  | 0, first, _ => first
  | _ + 1, first, 0 => first
  | fuel + 1, first, len + 1 =>
    match l[first + (len + 1) / 2]? with
    | some x =>
      if p x then
        lowerBoundAux p l fuel (first + (len + 1) / 2 + 1) (len + 1 - (len + 1) / 2 - 1)
      else lowerBoundAux p l fuel first ((len + 1) / 2)
    | none => first

/-- The position of the first element that does not satisfy `p`. -/
def lowerBound (p : α → Bool) (l : List α) : ℕ := lowerBoundAux p l l.length 0 l.length

/-- The elements satisfying `p` come before all others. -/
def Split (p : α → Bool) (l : List α) : Prop := ∀ x ∈ l.dropWhile p, p x = false

/-- A property that passes to all smaller elements splits an ordered list. -/
theorem Split.of_pairwise {r : α → α → Prop} {p : α → Bool} {l : List α} (hl : l.Pairwise r)
    (hp : ∀ a b, r a b → p b = true → p a = true) : Split p l := by
  intro x hx
  obtain ⟨y, ys, hy⟩ := List.exists_cons_of_ne_nil (List.ne_nil_of_mem hx)
  have hyp : p y = false := by
    have := List.head?_dropWhile_not p l
    rw [hy] at this
    simpa using this
  rw [hy] at hx
  rcases List.mem_cons.mp hx with rfl | hx
  · exact hyp
  · have hd := hl.sublist (List.dropWhile_sublist p)
    rw [hy, List.pairwise_cons] at hd
    by_contra hc
    rw [hp y x (hd.1 x hx) (by simpa using hc)] at hyp
    exact Bool.false_ne_true hyp.symm

theorem takeWhile_eq_filter {p : α → Bool} {l : List α} (h : Split p l) : l.takeWhile p = l.filter p := by
  conv_rhs => rw [← List.takeWhile_append_dropWhile (p := p) (l := l)]
  rw [List.filter_append, List.filter_eq_self.mpr fun x hx => List.mem_takeWhile_imp hx,
    List.filter_eq_nil_iff.mpr fun x hx => by simp [h x hx], List.append_nil]

theorem dropWhile_eq_filter {p : α → Bool} {l : List α} (h : Split p l) :
    l.dropWhile p = l.filter fun x => !p x := by
  conv_rhs => rw [← List.takeWhile_append_dropWhile (p := p) (l := l)]
  rw [List.filter_append, List.filter_eq_nil_iff.mpr fun x hx => by simpa using List.mem_takeWhile_imp hx,
    List.nil_append, List.filter_eq_self.mpr fun x hx => by simp [h x hx]]

theorem takeWhile_append_of_split {p : α → Bool} {xs ys : List α} (hx : ∀ x ∈ xs, p x = true)
    (hy : ∀ y ∈ ys, p y = false) : (xs ++ ys).takeWhile p = xs := by
  rw [List.takeWhile_append_of_pos hx]
  cases ys with
  | nil => simp
  | cons y ys => simp [hy y]

theorem dropWhile_append_of_split {p : α → Bool} {xs ys : List α} (hx : ∀ x ∈ xs, p x = true)
    (hy : ∀ y ∈ ys, p y = false) : (xs ++ ys).dropWhile p = ys := by
  rw [List.dropWhile_append_of_pos hx]
  cases ys with
  | nil => simp
  | cons y ys => simp [hy y]

theorem getElem?_append_of_split {p : α → Bool} {xs ys : List α} (hx : ∀ x ∈ xs, p x = true)
    (hy : ∀ y ∈ ys, p y = false) {i : ℕ} {a : α} (h : (xs ++ ys)[i]? = some a) :
    p a = decide (i < xs.length) := by
  by_cases hi : i < xs.length
  · rw [List.getElem?_append_left hi] at h
    rw [hx a (List.mem_of_getElem? h)]
    simp [hi]
  · rw [List.getElem?_append_right (by omega)] at h
    rw [hy a (List.mem_of_getElem? h)]
    simp [hi]

theorem lowerBoundAux_eq {p : α → Bool} {xs ys : List α} (hx : ∀ x ∈ xs, p x = true)
    (hy : ∀ y ∈ ys, p y = false) : ∀ (fuel first len : ℕ), len ≤ fuel → first ≤ xs.length →
      xs.length ≤ first + len → first + len ≤ (xs ++ ys).length →
      lowerBoundAux p (xs ++ ys) fuel first len = xs.length
  | 0, first, len, hf, h₁, h₂, _ => by
    rw [lowerBoundAux]
    omega
  | fuel + 1, first, 0, _, h₁, h₂, _ => by
    rw [lowerBoundAux]
    omega
  | fuel + 1, first, len + 1, hf, h₁, h₂, h₃ => by
    have hlt : first + (len + 1) / 2 < (xs ++ ys).length := by omega
    obtain ⟨a, ha⟩ : ∃ a, (xs ++ ys)[first + (len + 1) / 2]? = some a :=
      ⟨_, List.getElem?_eq_getElem hlt⟩
    have hp := getElem?_append_of_split hx hy ha
    rw [lowerBoundAux, ha]
    by_cases hi : first + (len + 1) / 2 < xs.length
    · simp only [hp, hi, decide_true, if_true]
      exact lowerBoundAux_eq hx hy fuel _ _ (by omega) (by omega) (by omega) (by omega)
    · simp only [hp, hi, decide_false, Bool.false_eq_true, if_false]
      exact lowerBoundAux_eq hx hy fuel _ _ (by omega) h₁ (by omega) (by omega)

/-- **The search finds the end of the satisfying prefix.** -/
theorem lowerBound_append {p : α → Bool} {xs ys : List α} (hx : ∀ x ∈ xs, p x = true)
    (hy : ∀ y ∈ ys, p y = false) : lowerBound p (xs ++ ys) = xs.length :=
  lowerBoundAux_eq hx hy _ _ _ le_rfl (by omega) (by simp) (by omega)

theorem lowerBound_eq {p : α → Bool} {l : List α} (h : Split p l) :
    lowerBound p l = (l.takeWhile p).length := by
  have hx : ∀ x ∈ l.takeWhile p, p x = true := fun x hx => List.mem_takeWhile_imp hx
  have := lowerBound_append hx h
  rwa [List.takeWhile_append_dropWhile] at this

theorem take_lowerBound {p : α → Bool} {l : List α} (h : Split p l) :
    l.take (lowerBound p l) = l.takeWhile p := by
  rw [lowerBound_eq h]
  calc l.take (l.takeWhile p).length
      = (l.takeWhile p ++ l.dropWhile p).take (l.takeWhile p).length := by
        rw [List.takeWhile_append_dropWhile]
    _ = l.takeWhile p := List.take_left

theorem drop_lowerBound {p : α → Bool} {l : List α} (h : Split p l) :
    l.drop (lowerBound p l) = l.dropWhile p := by
  rw [lowerBound_eq h]
  calc l.drop (l.takeWhile p).length
      = (l.takeWhile p ++ l.dropWhile p).drop (l.takeWhile p).length := by
        rw [List.takeWhile_append_dropWhile]
    _ = l.dropWhile p := List.drop_left

theorem lowerBoundAux_le {p : α → Bool} {l : List α} : ∀ (fuel first len : ℕ),
    first + len ≤ l.length → lowerBoundAux p l fuel first len ≤ l.length
  | 0, first, len, h => by rw [lowerBoundAux]; omega
  | fuel + 1, first, 0, h => by rw [lowerBoundAux]; omega
  | fuel + 1, first, len + 1, h => by
    rw [lowerBoundAux]
    split
    · split
      · exact lowerBoundAux_le fuel _ _ (by omega)
      · exact lowerBoundAux_le fuel _ _ (by omega)
    · omega

theorem lowerBound_le (p : α → Bool) (l : List α) : lowerBound p l ≤ l.length :=
  lowerBoundAux_le _ _ _ (by omega)

end Kfs.Lib
