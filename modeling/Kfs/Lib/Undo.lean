import Mathlib.Data.List.DropRight
import Mathlib.Data.List.Basic

/-!
# A stack with elements that take others away

The elements of a list are put on a stack, or take the last one off it, or do nothing.

* `Move`, `Undo.step`: what an element does;
* `Undo.pending`, `Undo.kept`: what is left of a list: the elements that it takes off what was there before, and those
  that stay; **`Undo.foldl_step`**;
* **`Undo.filter_kept_iff`**: two ways to read a list leave the same, where one puts more on the stack than the other.
-/

namespace Kfs.Lib

inductive Move
  | push
  | pop
  | skip
  deriving DecidableEq

namespace Undo

variable {α : Type*} (move more less : α → Move)

def step (s : List α) (x : α) : List α :=
  match move x with
  | .push => s ++ [x]
  | .pop => s.dropLast
  | .skip => s

/-- How many elements a list takes off the stack that it finds, if there are so many. -/
def pending : List α → ℕ
  | [] => 0
  | x :: l =>
    match move x with
    | .push => pending l - 1
    | .pop => pending l + 1
    | .skip => pending l

/-- The elements of a list that it leaves on the stack. -/
def kept : List α → List α
  | [] => []
  | x :: l => if move x = .push ∧ pending move l = 0 then x :: kept l else kept l

variable {move more less} {s l : List α} {x : α}

theorem pending_push (h : move x = .push) : pending move (x :: l) = pending move l - 1 := by
  rw [pending, h]

theorem pending_pop (h : move x = .pop) : pending move (x :: l) = pending move l + 1 := by
  rw [pending, h]

theorem pending_skip (h : move x = .skip) : pending move (x :: l) = pending move l := by
  rw [pending, h]

theorem kept_push (h : move x = .push) (hp : pending move l = 0) : kept move (x :: l) = x :: kept move l := by
  rw [kept, if_pos ⟨h, hp⟩]

theorem kept_popped (hp : pending move l ≠ 0) : kept move (x :: l) = kept move l := by
  rw [kept, if_neg fun h => hp h.2]

theorem kept_not_push (h : move x ≠ .push) : kept move (x :: l) = kept move l := by
  rw [kept, if_neg fun hx => h hx.1]

theorem rdrop_dropLast (s : List α) (n : ℕ) : s.dropLast.rdrop n = s.rdrop (n + 1) := by
  induction s using List.reverseRecOn with
  | nil => rw [List.dropLast_nil, List.rdrop_nil, List.rdrop_nil]
  | append_singleton s x ih => rw [List.dropLast_concat, List.rdrop_concat_succ]

theorem foldl_step (s l : List α) : l.foldl (step move) s = s.rdrop (pending move l) ++ kept move l := by
  induction l generalizing s with
  | nil => rw [List.foldl_nil, pending, kept, List.rdrop_zero, List.append_nil]
  | cons x l ih =>
    rw [List.foldl_cons, ih, step]
    cases hx : move x with
    | push =>
      rw [pending_push hx]
      by_cases hp : pending move l = 0
      · rw [kept_push hx hp, hp, List.rdrop_zero, List.rdrop_zero, List.append_assoc, List.singleton_append]
      · rw [kept_popped hp]
        have hn : pending move l = pending move l - 1 + 1 := by omega
        conv_lhs => rw [hn, List.rdrop_concat_succ]
    | pop =>
      rw [pending_pop hx, kept_not_push (by rw [hx]; decide), rdrop_dropLast]
    | skip =>
      rw [pending_skip hx, kept_not_push (by rw [hx]; decide)]

theorem mem_kept (h : x ∈ kept move l) : x ∈ l ∧ move x = .push := by
  induction l with
  | nil => exact absurd h List.not_mem_nil
  | cons y l ih =>
    rw [kept] at h
    split_ifs at h with hy
    · cases List.mem_cons.1 h with
      | inl heq => exact ⟨heq ▸ List.mem_cons_self, heq ▸ hy.1⟩
      | inr hmem => exact ⟨List.mem_cons_of_mem _ (ih hmem).1, (ih hmem).2⟩
    · exact ⟨List.mem_cons_of_mem _ (ih h).1, (ih h).2⟩

theorem foldl_step_nil (l : List α) : l.foldl (step move) [] = kept move l := by
  rw [foldl_step, List.rdrop_nil, List.nil_append]

/-- A list that takes nothing away leaves all that it puts on the stack. -/
theorem kept_of_no_pop (h : ∀ x ∈ l, move x ≠ .pop) : pending move l = 0 ∧ kept move l = l.filter (move · = .push) := by
  induction l with
  | nil => exact ⟨rfl, rfl⟩
  | cons x l ih =>
    obtain ⟨hzero, hrest⟩ := ih fun y hy => h y (List.mem_cons_of_mem _ hy)
    cases hx : move x with
    | push =>
      exact ⟨by rw [pending_push hx, hzero],
        by rw [kept_push hx hzero, hrest, List.filter_cons_of_pos (by simpa)]⟩
    | pop => exact absurd hx (h x List.mem_cons_self)
    | skip =>
      have hnot : move x ≠ .push := by rw [hx]; decide
      exact ⟨by rw [pending_skip hx, hzero], by rw [kept_not_push hnot, hrest, List.filter_cons_of_neg (by simpa)]⟩

/-- Nothing is taken off what was there before when no beginning of the list takes away more than it has put. -/
theorem pending_eq_zero_iff : pending move l = 0 ↔
    ∀ q, q <+: l → q.countP (move · = .pop) ≤ q.countP (move · = .push) := by
  suffices hmain : ∀ n, pending move l ≤ n ↔
      ∀ q, q <+: l → q.countP (move · = .pop) ≤ n + q.countP (move · = .push) by
    simpa only [Nat.le_zero, Nat.zero_add] using hmain 0
  induction l with
  | nil =>
    intro n
    simp [pending]
  | cons x l ih =>
    intro n
    have hcons : (∀ q, q <+: x :: l → q.countP (move · = .pop) ≤ n + q.countP (move · = .push)) ↔
        ∀ q, q <+: l → (x :: q).countP (move · = .pop) ≤ n + (x :: q).countP (move · = .push) := by
      constructor
      · exact fun h q hq => h (x :: q) (List.cons_prefix_cons.2 ⟨rfl, hq⟩)
      · intro h q hq
        cases q with
        | nil => exact Nat.zero_le _
        | cons y q =>
          obtain ⟨hy, hq⟩ := List.cons_prefix_cons.1 hq
          rw [hy]
          exact h q hq
    rw [hcons]
    cases hx : move x with
    | push =>
      rw [pending_push hx, Nat.sub_le_iff_le_add, ih]
      simp only [List.countP_cons, hx]
      simp [Nat.add_assoc, Nat.add_comm 1]
    | pop =>
      rw [pending_pop hx]
      cases n with
      | zero =>
        constructor
        · intro h
          omega
        · intro h
          have hnil := h [] List.nil_prefix
          simp [hx] at hnil
      | succ n =>
        rw [Nat.succ_le_succ_iff, ih]
        refine forall_congr' fun q => imp_congr_right fun _ => ?_
        simp only [List.countP_cons, hx]
        simp only [decide_true, reduceCtorEq, decide_false, if_true, Bool.false_eq_true, if_false]
        omega
    | skip =>
      rw [pending_skip hx, ih]
      simp [hx]

section

variable (hpop : ∀ x, more x = .pop ↔ less x = .pop) (hpush : ∀ x, less x = .push → more x = .push)

include hpop hpush

theorem pending_le : pending more l ≤ pending less l := by
  induction l with
  | nil => exact le_rfl
  | cons x l ih =>
    cases hx : less x with
    | push =>
      rw [pending_push hx, pending_push (hpush x hx)]
      omega
    | pop =>
      rw [pending_pop hx, pending_pop ((hpop x).2 hx)]
      omega
    | skip =>
      rw [pending_skip hx]
      cases hm : more x with
      | push =>
        rw [pending_push hm]
        omega
      | pop =>
        rw [(hpop x).1 hm] at hx
        cases hx
      | skip =>
        rw [pending_skip hm]
        exact ih

theorem kept_sublist : (kept less l).Sublist ((kept more l).filter (less · = .push)) := by
  induction l with
  | nil => exact List.Sublist.refl _
  | cons x l ih =>
    by_cases hx : less x = .push
    · by_cases hm : pending more l = 0
      · rw [kept_push (hpush x hx) hm, List.filter_cons_of_pos (by simpa using hx)]
        by_cases hl : pending less l = 0
        · rw [kept_push hx hl]
          exact ih.cons_cons x
        · rw [kept_popped hl]
          exact ih.cons x
      · have hl : pending less l ≠ 0 := fun h => hm (Nat.le_zero.1 (h ▸ pending_le hpop hpush))
        rw [kept_popped hm, kept_popped hl]
        exact ih
    · rw [kept_not_push hx]
      by_cases hm : more x = .push ∧ pending more l = 0
      · rw [kept_push hm.1 hm.2, List.filter_cons_of_neg (by simpa using hx)]
        exact ih
      · rw [kept, if_neg hm]
        exact ih

/-- Both ways to read a list leave the same of what both put on the stack, exactly when the way that puts less on it
takes away no element that the other one keeps. -/
theorem filter_kept_iff : (kept more l).filter (less · = .push) = kept less l ↔
    ∀ x rest, x :: rest <:+ l → less x = .push → pending more rest = 0 → pending less rest = 0 := by
  induction l with
  | nil =>
    constructor
    · intro _ x rest h
      cases List.suffix_nil.1 h
    · exact fun _ => rfl
  | cons y l ih =>
    have hcons : (∀ x rest, x :: rest <:+ y :: l → less x = .push → pending more rest = 0 → pending less rest = 0) ↔
        (less y = .push → pending more l = 0 → pending less l = 0) ∧
          ∀ x rest, x :: rest <:+ l → less x = .push → pending more rest = 0 → pending less rest = 0 := by
      constructor
      · exact fun h => ⟨h y l List.suffix_rfl, fun x rest hs => h x rest (hs.trans (List.suffix_cons y l))⟩
      · rintro ⟨hy, hl⟩ x rest hs
        cases List.suffix_cons_iff.1 hs with
        | inl heq =>
          cases heq
          exact hy
        | inr hs => exact hl x rest hs
    rw [hcons, ← ih]
    by_cases hy : less y = .push
    · by_cases hm : pending more l = 0
      · rw [kept_push (hpush y hy) hm, List.filter_cons_of_pos (by simpa using hy)]
        by_cases hl : pending less l = 0
        · rw [kept_push hy hl, List.cons_inj_right]
          exact ⟨fun h => ⟨fun _ _ => hl, h⟩, fun h => h.2⟩
        · rw [kept_popped hl]
          constructor
          · intro h
            have hle := (kept_sublist hpop hpush (l := l)).length_le
            rw [← h, List.length_cons] at hle
            omega
          · exact fun h => absurd (h.1 hy hm) hl
      · have hl : pending less l ≠ 0 := fun h => hm (Nat.le_zero.1 (h ▸ pending_le hpop hpush))
        rw [kept_popped hm, kept_popped hl]
        exact ⟨fun h => ⟨fun _ h0 => absurd h0 hm, h⟩, fun h => h.2⟩
    · rw [kept_not_push hy]
      have hsame : (kept more (y :: l)).filter (less · = .push) = (kept more l).filter (less · = .push) := by
        by_cases hm : more y = .push ∧ pending more l = 0
        · rw [kept_push hm.1 hm.2, List.filter_cons_of_neg (by simpa using hy)]
        · rw [kept, if_neg hm]
      rw [hsame]
      exact ⟨fun h => ⟨fun h0 => absurd h0 hy, h⟩, fun h => h.2⟩

end

end Undo

end Kfs.Lib
