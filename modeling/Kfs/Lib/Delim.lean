import Mathlib.Tactic
import Mathlib.Data.List.Infix

/-!
# Delimited messages

A stream of messages, each of which ends with a delimiter: where the first one ends, and what of that is known when only
a part of the stream has arrived.

* `findEnd`: the end of the first occurrence of a word;
* **`findEnd_append_iff`**: a word that is put behind a text is found there exactly when it does not occur before;
* `findEnd_take`: what a prefix of the stream tells;
* `infix_append_iff_of_disjoint`: a word does not reach over letters that it does not have.
-/

namespace Kfs.Lib

variable {α : Type} {d s t x y : List α} {a : α} {n : ℕ}

/-! ## Occurrences -/

/-- A word that does not have the letter `a` lies on one side of it. -/
theorem infix_append_cons_iff (ha : a ∉ d) : d <:+: x ++ a :: y ↔ d <:+: x ∨ d <:+: y := by
  constructor
  · rintro ⟨p, q, h⟩
    rcases List.append_eq_append_iff.mp h with ⟨u, hx, hq⟩ | ⟨u, hpd, hy⟩
    · exact Or.inl ⟨p, u, hx.symm⟩
    · rcases u with - | ⟨b, u⟩
      · exact Or.inl ⟨p, [], by simpa using hpd⟩
      · obtain ⟨rfl, rfl⟩ : a = b ∧ y = u ++ q := by simpa using hy
        rcases List.append_eq_append_iff.mp hpd with ⟨v, -, hd⟩ | ⟨v, -, hu⟩
        · exact absurd (hd ▸ List.mem_append_right v List.mem_cons_self) ha
        · rcases v with - | ⟨c, v⟩
          · exact absurd ((show a :: u = d by simpa using hu) ▸ List.mem_cons_self) ha
          · obtain ⟨-, hu⟩ := List.cons.inj hu
            exact Or.inr ⟨v, q, by simp [hu]⟩
  · rintro (h | h)
    · exact h.trans ⟨[], a :: y, rfl⟩
    · exact h.trans ⟨x ++ [a], [], by simp⟩

theorem infix_append_iff_of_disjoint (ht : t ≠ []) (hd : ∀ b ∈ t, b ∉ d) :
    d <:+: x ++ (t ++ y) ↔ d <:+: x ∨ d <:+: y := by
  induction t generalizing x with
  | nil => exact absurd rfl ht
  | cons b t ih =>
    rw [List.cons_append, infix_append_cons_iff (hd b List.mem_cons_self)]
    rcases eq_or_ne t [] with rfl | hne
    · rfl
    · have h := ih (x := []) hne fun c hc => hd c (List.mem_cons_of_mem _ hc)
      have hnil : d <:+: ([] : List α) → d <:+: y := fun h => h.trans (List.nil_infix)
      rw [List.nil_append] at h
      rw [h, or_iff_right_of_imp hnil]

/-- A word does not end with a letter that is not its last one. -/
theorem infix_concat_iff (hd : d ≠ []) (ha : d.getLast hd ≠ a) : d <:+: x ++ [a] ↔ d <:+: x := by
  rw [List.infix_concat_iff]
  refine or_iff_right fun h => absurd ?_ ha
  obtain ⟨p, hp⟩ := h
  have := congrArg List.getLast? hp
  rw [List.getLast?_append_of_ne_nil _ hd, List.getLast?_eq_some_getLast hd] at this
  simpa using this

/-! ## The first occurrence -/

variable [DecidableEq α]

/-- Where the first occurrence of `d` ends. -/
def findEnd (d : List α) : List α → Option ℕ
  | [] => none
  | a :: s => if d <+: a :: s then some d.length else (findEnd d s).map (· + 1)

theorem findEnd_cons : findEnd d (a :: s) = if d <+: a :: s then some d.length else (findEnd d s).map (· + 1) := rfl

/-- What has been found lies in the text. -/
theorem findEnd_le (h : findEnd d s = some n) : d.length ≤ n ∧ n ≤ s.length := by
  induction s generalizing n with
  | nil => cases h
  | cons a s ih =>
    rw [findEnd_cons] at h
    split_ifs at h with hp
    · obtain rfl := Option.some.inj h
      exact ⟨le_rfl, hp.length_le⟩
    · obtain ⟨m, hm, rfl⟩ := Option.map_eq_some_iff.mp h
      obtain ⟨h₁, h₂⟩ := ih hm
      exact ⟨h₁.trans (Nat.le_succ m), Nat.succ_le_succ h₂⟩

/-- What comes later changes nothing. -/
theorem findEnd_append (h : findEnd d s = some n) : findEnd d (s ++ t) = some n := by
  induction s generalizing n with
  | nil => cases h
  | cons a s ih =>
    rw [findEnd_cons] at h
    rw [List.cons_append, findEnd_cons]
    split_ifs at h with hp
    · rw [if_pos (by simpa using hp.trans (List.prefix_append (a :: s) t)), h]
    · obtain ⟨m, hm, rfl⟩ := Option.map_eq_some_iff.mp h
      have hlen := (findEnd_le hm)
      have hp' : ¬ d <+: a :: (s ++ t) := fun hp' =>
        hp (List.prefix_of_prefix_length_le hp' (List.prefix_append (a :: s) t) (by simp; omega))
      rw [if_neg hp', ih hm, Option.map_some]

theorem findEnd_eq_none_iff (hd : d ≠ []) : findEnd d s = none ↔ ¬ d <:+: s := by
  induction s with
  | nil => simp [findEnd, hd]
  | cons a s ih =>
    rw [findEnd_cons, List.infix_cons_iff]
    split_ifs with hp
    · simp [hp]
    · simp [hp, ih]

/-- What a prefix of the stream tells. -/
theorem findEnd_take (hd : d ≠ []) {k : ℕ} : findEnd d (s.take k) = some n ↔ findEnd d s = some n ∧ n ≤ k := by
  constructor
  · intro h
    have hle := (findEnd_le h).2
    rw [List.length_take] at hle
    exact ⟨by simpa using findEnd_append (t := s.drop k) h, hle.trans (min_le_left _ _)⟩
  · rintro ⟨h, hk⟩
    induction s generalizing n k with
    | nil => cases h
    | cons a s ih =>
      rw [findEnd_cons] at h
      rcases k with - | k
      · have hpos := List.length_pos_of_ne_nil hd
        have hle := (findEnd_le (findEnd_cons.trans h)).1
        omega
      · rw [List.take_succ_cons, findEnd_cons]
        split_ifs at h with hp
        · obtain rfl := Option.some.inj h
          rw [if_pos]
          have := List.IsPrefix.take hp (k + 1)
          rwa [List.take_of_length_le hk, List.take_succ_cons] at this
        · obtain ⟨m, hm, rfl⟩ := Option.map_eq_some_iff.mp h
          have hp' : ¬ d <+: a :: s.take k := fun hp' => hp (hp'.trans (by simpa using List.take_prefix k s))
          rw [if_neg hp', ih hm (Nat.le_of_succ_le_succ hk), Option.map_some]

/-- **The delimiter behind a text is the first one exactly when it does not begin in the text.** -/
theorem findEnd_append_iff (hd : d ≠ []) :
    findEnd d (s ++ d ++ t) = some (s.length + d.length) ↔ ¬ d <:+: s ++ d.dropLast := by
  have hlast : s ++ d = s ++ d.dropLast ++ [d.getLast hd] := by rw [List.append_assoc, List.dropLast_concat_getLast]
  have hlen : (s ++ d.dropLast).length + 1 = s.length + d.length := by
    have := List.length_pos_of_ne_nil hd
    simp
    omega
  constructor
  · intro h hin
    obtain ⟨n, hn⟩ := Option.ne_none_iff_exists'.mp (mt (findEnd_eq_none_iff hd).mp (not_not_intro hin))
    have hle := (findEnd_le hn).2
    have h' := findEnd_append (t := [d.getLast hd] ++ t) hn
    rw [← List.append_assoc, ← hlast, h] at h'
    have := Option.some.inj h'
    omega
  · intro hin
    have hs : d <:+: s ++ d := List.infix_append_right
    obtain ⟨n, hn⟩ := Option.ne_none_iff_exists'.mp (mt (findEnd_eq_none_iff hd).mp (not_not_intro hs))
    have hle := (findEnd_le hn).2
    have hge : s.length + d.length ≤ n := by
      by_contra hlt
      have hcut : findEnd d ((s ++ d).take n) = some n := (findEnd_take hd).mpr ⟨hn, le_rfl⟩
      rw [hlast, List.take_append_of_le_length (by omega)] at hcut
      have hnone := (findEnd_eq_none_iff hd).mpr fun h => hin (h.trans (List.take_prefix n _).isInfix)
      rw [hcut] at hnone
      cases hnone
    rw [findEnd_append hn, le_antisymm (by simpa using hle) hge]

end Kfs.Lib
