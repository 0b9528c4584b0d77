import Mathlib.Order.Lattice
import Mathlib.Order.Defs.Unbundled
import Mathlib.Data.List.Basic

/-!
# The first smallest element of a list

* `minElement`: the search that keeps the element it has, unless it comes to one that compares less;
* `WeakOn`: the comparison is a strict weak order on the elements of the list;
* **`minElement_first`**: then the search ends with the first of the smallest elements, and there is one such place.
-/

namespace Kfs.Lib

variable {α : Type*}

/-- The search over the elements still to come, from `pos` on; `smallest` was at `place`. -/
def minLoop (comp : α → α → Bool) (smallest : α) (place pos : ℕ) : List α → α × ℕ
  | [] => (smallest, place)
  | x :: rest =>
    if comp x smallest then minLoop comp x pos (pos + 1) rest else minLoop comp smallest place (pos + 1) rest

/-- The element that the search ends with, and its place. -/
def minElement (comp : α → α → Bool) : List α → Option (α × ℕ)
  | [] => none
  | x :: l => some (minLoop comp x 0 1 l)

def WeakOn (comp : α → α → Bool) (l : List α) : Prop :=
  IsStrictWeakOrder {x // x ∈ l} fun x y => comp x y = true

/-- `x` is smaller than all elements before it, and not greater than any element behind it. -/
def FirstMin (comp : α → α → Bool) (l : List α) (x : α) (place : ℕ) : Prop :=
  ∃ before behind, l = before ++ x :: behind ∧ before.length = place ∧ (∀ y ∈ before, comp x y = true) ∧
    ∀ y ∈ behind, comp y x = false

variable {comp : α → α → Bool} {l before behind rest : List α} {x y z : α} {place : ℕ}

namespace WeakOn

variable (h : WeakOn comp l) (hx : x ∈ l) (hy : y ∈ l) (hz : z ∈ l)

include h

include hx hy hz

theorem trans (hxy : comp x y = true) (hyz : comp y z = true) : comp x z = true :=
  h.toIsStrictOrder.toIsTrans.trans ⟨x, hx⟩ ⟨y, hy⟩ ⟨z, hz⟩ hxy hyz

/-- Of two elements that compare less, one compares less with any third one. -/
theorem cotrans (hxz : comp x z = true) : comp x y = true ∨ comp y z = true := by
  by_contra hnot
  obtain ⟨hxy, hyz⟩ := not_or.1 hnot
  by_cases hyx : comp y x = true
  · exact hyz (h.trans hy hx hz hyx hxz)
  · by_cases hzy : comp z y = true
    · exact hxy (h.trans hx hz hy hxz hzy)
    · exact (h.incomp_trans ⟨x, hx⟩ ⟨y, hy⟩ ⟨z, hz⟩ ⟨hxy, hyx⟩ ⟨hyz, hzy⟩).1 hxz

end WeakOn

/-- A comparison of keys. -/
theorem WeakOn.of_key {β : Type*} [LinearOrder β] (key : α → β)
    (h : ∀ x ∈ l, ∀ y ∈ l, comp x y = true ↔ key x < key y) : WeakOn comp l := by
  have hkey : ∀ x y : {x // x ∈ l}, comp x y = true ↔ key x < key y := fun x y => h x x.2 y y.2
  refine { irrefl := fun x => ?_, trans := fun x y z => ?_, incomp_trans := fun x y z => ?_ }
  · rw [hkey]
    exact lt_irrefl _
  · rw [hkey, hkey, hkey]
    exact lt_trans
  · simp only [hkey, not_lt]
    exact fun hxy hyz => ⟨hyz.1.trans hxy.1, hxy.2.trans hyz.2⟩

theorem minLoop_first (h : WeakOn comp (before ++ x :: behind ++ rest)) (hbefore : ∀ y ∈ before, comp x y = true)
    (hbehind : ∀ y ∈ behind, comp y x = false) :
    let (m, place) := minLoop comp x before.length (before ++ x :: behind).length rest
    FirstMin comp (before ++ x :: behind ++ rest) m place := by
  induction rest generalizing before x behind with
  | nil => exact ⟨before, behind, List.append_nil _, rfl, hbefore, hbehind⟩
  | cons y rest ih =>
    have hmem : y ∈ before ++ x :: behind ++ y :: rest := by simp
    have hx : x ∈ before ++ x :: behind ++ y :: rest := by simp
    rw [minLoop]
    split_ifs with hless
    · have hall : ∀ z ∈ before ++ x :: behind, comp y z = true := by
        intro z hz
        have hz' : z ∈ before ++ x :: behind ++ y :: rest := List.mem_append_left _ hz
        cases List.mem_append.1 hz with
        | inl hb => exact h.trans hmem hx hz' hless (hbefore z hb)
        | inr hb =>
          cases List.mem_cons.1 hb with
          | inl heq => rw [heq, hless]
          | inr hb =>
            cases h.cotrans hmem hz' hx hless with
            | inl hyz => exact hyz
            | inr hzx =>
              rw [hbehind z hb] at hzx
              cases hzx
      have hsame : before ++ x :: behind ++ y :: rest = before ++ x :: behind ++ y :: [] ++ rest := by simp
      rw [hsame] at h ⊢
      have hnext := ih h hall fun z hz => absurd hz List.not_mem_nil
      rwa [@List.length_append _ _ [y]] at hnext
    · have hsame : before ++ x :: behind ++ y :: rest = before ++ x :: (behind ++ [y]) ++ rest := by simp
      have hlen : (before ++ x :: behind).length + 1 = (before ++ x :: (behind ++ [y])).length := by simp; omega
      rw [hsame] at h ⊢
      rw [hlen]
      refine ih h hbefore fun z hz => ?_
      cases List.mem_append.1 hz with
      | inl hb => exact hbehind z hb
      | inr hb =>
        rw [List.mem_singleton.1 hb]
        exact Bool.eq_false_iff.2 hless

theorem minElement_first (h : WeakOn comp l) (hl : l ≠ []) :
    ∃ m place, minElement comp l = some (m, place) ∧ FirstMin comp l m place := by
  cases l with
  | nil => exact absurd rfl hl
  | cons x l =>
    have hfirst := @minLoop_first _ _ [] [] l x h
      (fun y hy => absurd hy List.not_mem_nil) fun y hy => absurd hy List.not_mem_nil
    exact ⟨_, _, rfl, hfirst⟩

/-- There is one place of the first smallest element. -/
theorem FirstMin.unique {place' : ℕ} (h : FirstMin comp l x place) (h' : FirstMin comp l y place') :
    x = y ∧ place = place' := by
  obtain ⟨before, behind, hl, rfl, hbefore, hbehind⟩ := h
  obtain ⟨before', behind', hl', rfl, hbefore', hbehind'⟩ := h'
  have hboth := hl.symm.trans hl'
  cases List.append_eq_append_iff.1 hboth with
  | inl hlong =>
    obtain ⟨more, hmore, hrest⟩ := hlong
    cases more with
    | nil => simp_all
    | cons z more =>
      obtain ⟨rfl, hmore'⟩ := List.cons.inj hrest
      have hlt : comp y x = true := hbefore' x (by rw [hmore]; simp)
      rw [hbehind y (by rw [hmore']; simp)] at hlt
      cases hlt
  | inr hlong =>
    obtain ⟨more, hmore, hrest⟩ := hlong
    cases more with
    | nil => simp_all
    | cons z more =>
      obtain ⟨rfl, hmore'⟩ := List.cons.inj hrest
      have hlt : comp x y = true := hbefore y (by rw [hmore]; simp)
      rw [hbehind' x (by rw [hmore']; simp)] at hlt
      cases hlt

theorem FirstMin.mem (h : FirstMin comp l x place) : x ∈ l ∧ l[place]? = some x := by
  obtain ⟨before, behind, rfl, rfl, -, -⟩ := h
  exact ⟨by simp, by simp⟩

end Kfs.Lib
