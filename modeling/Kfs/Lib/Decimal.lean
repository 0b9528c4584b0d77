import Mathlib.Tactic
import Mathlib.Data.List.TakeWhile
import Mathlib.Data.Int.Notation

/-!
# Decimal numbers and fields of a line

Printing integers the way `operator <<` does, and reading them with `strtoll`; joining fields with a
separator.

* `printInt`, `strtoll`; **`strtoll_printInt`**: what is printed is read back, to its end;
* `printInt_mem`: the characters of a printed number;
* `joinSep`, **`splitOn_joinSep`**: the fields of a line.
-/

namespace Kfs.Lib

/-! ## Numbers -/

/-- The decimal digits of `n`, after a sign when it is negative. -/
def printInt (n : ℤ) : List Char :=
  if 0 ≤ n then Nat.toDigits 10 n.toNat else '-' :: Nat.toDigits 10 (-n).toNat

/-- `isspace`. -/
def isSpace (c : Char) : Bool := c ∈ [' ', '\t', '\n', '\x0b', '\x0c', '\r']

/-- The number that a run of digits stands for. -/
def digitsValue (l : List Char) : ℤ := Nat.ofDigitChars 10 l 0

/-- The value of the digits at the start of a list and what follows them; without a digit, zero and
`whole`. -/
def strtollDigits (whole l : List Char) (sign : ℤ) : ℤ × List Char :=
  if l.takeWhile Char.isDigit = [] then (0, whole)
  else (sign * digitsValue (l.takeWhile Char.isDigit), l.dropWhile Char.isDigit)

/-- `strtoll` with base 10: the value of the longest number at the start of the list, after blanks, and
the rest of the list. -/
def strtoll (s : List Char) : ℤ × List Char :=
  match s.dropWhile isSpace with
  | '-' :: l => strtollDigits s l (-1)
  | '+' :: l => strtollDigits s l 1
  | l => strtollDigits s l 1

theorem isDigit_of_mem_toDigits {n : ℕ} {c : Char} (h : c ∈ Nat.toDigits 10 n) : c.isDigit = true :=
  Nat.isDigit_of_mem_toDigits (by decide) (by decide) h

theorem strtollDigits_toDigits (whole : List Char) (n : ℕ) (sign : ℤ) {t : List Char}
    (ht : ∀ c ∈ t.head?, c.isDigit = false) : strtollDigits whole (Nat.toDigits 10 n ++ t) sign = (sign * n, t) := by
  have hall : ∀ c ∈ Nat.toDigits 10 n, Char.isDigit c = true := fun c => isDigit_of_mem_toDigits
  have htake : t.takeWhile Char.isDigit = [] := by
    cases t with
    | nil => rfl
    | cons c t => exact List.takeWhile_cons_of_neg (by simpa using ht c rfl)
  have hdrop : t.dropWhile Char.isDigit = t := by
    cases t with
    | nil => rfl
    | cons c t => exact List.dropWhile_cons_of_neg (by simpa using ht c rfl)
  unfold strtollDigits
  rw [List.takeWhile_append_of_pos hall, List.dropWhile_append_of_pos hall, htake, hdrop, List.append_nil,
    if_neg Nat.toDigits_ne_nil, digitsValue, Nat.ofDigitChars_ten_toDigits]

theorem isDigit_ne {c d : Char} (hc : c.isDigit = true) (hd : d.isDigit = false) : c ≠ d := by
  rintro rfl
  rw [hc] at hd
  exact Bool.false_ne_true hd.symm

theorem isSpace_of_isDigit {c : Char} (hc : c.isDigit = true) : isSpace c = false := by
  unfold isSpace
  rw [decide_eq_false_iff_not]
  intro h
  have : ∀ d ∈ [' ', '\t', '\n', '\x0b', '\x0c', '\r'], Char.isDigit d = false := by simp
  rw [this c h] at hc
  exact Bool.false_ne_true hc

/-- A printed number is read back, behind blanks and up to what follows it. -/
theorem strtoll_printInt_append (n : ℤ) {b t : List Char} (hb : ∀ c ∈ b, isSpace c = true)
    (ht : ∀ c ∈ t.head?, c.isDigit = false) : strtoll (b ++ (printInt n ++ t)) = (n, t) := by
  have hskip : (b ++ (printInt n ++ t)).dropWhile isSpace = (printInt n ++ t).dropWhile isSpace :=
    List.dropWhile_append_of_pos hb
  unfold strtoll
  rw [hskip]
  unfold printInt
  split_ifs with hn
  · obtain ⟨c, l, hl⟩ := List.exists_cons_of_ne_nil (Nat.toDigits_ne_nil (b := 10) (n := n.toNat))
    have hc : c.isDigit = true := isDigit_of_mem_toDigits (hl ▸ List.mem_cons_self)
    have hcons : Nat.toDigits 10 n.toNat ++ t = c :: (l ++ t) := by rw [hl, List.cons_append]
    have hd : (Nat.toDigits 10 n.toNat ++ t).dropWhile isSpace = Nat.toDigits 10 n.toNat ++ t := by
      rw [hcons, List.dropWhile_cons_of_neg (by simp [isSpace_of_isDigit hc])]
    have hs := strtollDigits_toDigits (b ++ (Nat.toDigits 10 n.toNat ++ t)) n.toNat 1 ht
    rw [one_mul, Int.toNat_of_nonneg hn] at hs
    rw [hd]
    split
    · next h => exact absurd (List.cons.inj (hcons.symm.trans h)).1 (isDigit_ne hc (by decide))
    · next h => exact absurd (List.cons.inj (hcons.symm.trans h)).1 (isDigit_ne hc (by decide))
    · exact hs
  · have hd : ('-' :: Nat.toDigits 10 (-n).toNat ++ t).dropWhile isSpace =
        '-' :: (Nat.toDigits 10 (-n).toNat ++ t) := List.dropWhile_cons_of_neg (by decide)
    rw [hd]
    change strtollDigits _ _ _ = _
    rw [strtollDigits_toDigits _ _ _ ht, Int.toNat_of_nonneg (by omega)]
    simp

/-- **A printed number is read back, to its end.** -/
theorem strtoll_printInt (n : ℤ) : strtoll (printInt n) = (n, []) := by
  simpa using strtoll_printInt_append n (b := []) (t := []) (by simp) (by simp)

theorem printInt_ne_nil (n : ℤ) : printInt n ≠ [] := by
  unfold printInt
  split_ifs
  · exact Nat.toDigits_ne_nil
  · exact List.cons_ne_nil _ _

theorem length_printInt_le {n : ℤ} {k : ℕ} (hk : 0 < k) (h : n.natAbs < 10 ^ k) : (printInt n).length ≤ k + 1 := by
  have hdigits : (Nat.toDigits 10 n.natAbs).length ≤ k := (Nat.length_toDigits_le_iff (by decide) hk).mpr h
  unfold printInt
  split_ifs with hn
  · rw [show n.toNat = n.natAbs by omega]
    omega
  · rw [show (-n).toNat = n.natAbs by omega, List.length_cons]
    omega

theorem mem_dropWhile {p : Char → Bool} {s : List Char} {c : Char} (h : c ∈ s) (hc : p c = false) :
    c ∈ s.dropWhile p := by
  rw [← List.takeWhile_append_dropWhile (p := p) (l := s), List.mem_append] at h
  refine h.resolve_left fun ht => ?_
  rw [List.mem_takeWhile_imp ht] at hc
  exact Bool.false_ne_true hc.symm

theorem strtollDigits_rest_ne {whole l : List Char} {c : Char} (sign : ℤ) (h : c ∈ l) (hw : whole ≠ [])
    (hd : c.isDigit = false) : (strtollDigits whole l sign).2 ≠ [] := by
  unfold strtollDigits
  split_ifs
  · exact hw
  · exact List.ne_nil_of_mem (mem_dropWhile h hd)

/-- A character that is in no number is not read over. -/
theorem strtoll_rest_ne {s : List Char} {c : Char} (h : c ∈ s) (hs : isSpace c = false) (hd : c.isDigit = false)
    (hm : c ≠ '-') (hp : c ≠ '+') : (strtoll s).2 ≠ [] := by
  have hc := mem_dropWhile h hs
  have hw : s ≠ [] := List.ne_nil_of_mem h
  unfold strtoll
  split
  · next l hl =>
    rw [hl] at hc
    exact strtollDigits_rest_ne _ ((List.mem_cons.mp hc).resolve_left hm) hw hd
  · next l hl =>
    rw [hl] at hc
    exact strtollDigits_rest_ne _ ((List.mem_cons.mp hc).resolve_left hp) hw hd
  · exact strtollDigits_rest_ne _ hc hw hd

theorem printInt_mem {n : ℤ} {c : Char} (h : c ∈ printInt n) : c = '-' ∨ c.isDigit = true := by
  unfold printInt at h
  split_ifs at h
  · exact Or.inr (isDigit_of_mem_toDigits h)
  · rcases List.mem_cons.mp h with rfl | h
    · exact Or.inl rfl
    · exact Or.inr (isDigit_of_mem_toDigits h)

theorem not_mem_printInt {c : Char} (n : ℤ) (hd : c.isDigit = false) (hc : c ≠ '-') : c ∉ printInt n := by
  intro h
  rcases printInt_mem h with rfl | h
  · exact hc rfl
  · rw [hd] at h
    exact Bool.false_ne_true h

/-! ## Fields -/

/-- The fields with a separator between them. -/
def joinSep (sep : Char) (fields : List (List Char)) : List Char := [sep].intercalate fields

/-- **A joined line splits into the pieces of its fields.** -/
theorem splitOn_joinSep {sep : Char} : ∀ {fields : List (List Char)}, fields ≠ [] →
    (joinSep sep fields).splitOn sep = fields.flatMap fun f => f.splitOn sep
  | [], h => absurd rfl h
  | [f], _ => by simp [joinSep]
  | f :: g :: fields, _ => by
    have ih : (joinSep sep (g :: fields)).splitOn sep = _ := splitOn_joinSep (List.cons_ne_nil g fields)
    rw [show joinSep sep (f :: g :: fields) = f ++ sep :: joinSep sep (g :: fields) by simp [joinSep],
      List.splitOn_append_cons_self, ih]
    exact List.flatMap_cons.symm

theorem joinSep_splitOn (sep : Char) (l : List Char) : joinSep sep (l.splitOn sep) = l :=
  List.intercalate_splitOn sep

/-- No piece has the separator in it. -/
theorem not_mem_of_mem_splitOn {sep : Char} {l piece : List Char} (h : piece ∈ l.splitOn sep) : sep ∉ piece := by
  induction l generalizing piece with
  | nil =>
    rw [List.splitOn_nil, List.mem_singleton] at h
    simp [h]
  | cons c l ih =>
    rw [List.splitOn_cons_eq_if_modifyHead] at h
    split_ifs at h with hc
    · rcases List.mem_cons.mp h with rfl | h
      · simp
      · exact ih h
    · obtain ⟨p, ps, hps⟩ := List.exists_cons_of_ne_nil (List.splitOn_ne_nil sep l)
      rw [hps, List.modifyHead_cons] at h
      rcases List.mem_cons.mp h with rfl | h
      · rw [List.mem_cons, not_or]
        exact ⟨fun he => hc (by simp [he]), ih (hps ▸ List.mem_cons_self)⟩
      · exact ih (hps ▸ List.mem_cons_of_mem _ h)

theorem mem_joinSep {sep c : Char} {fields : List (List Char)} (h : c ∈ joinSep sep fields) :
    c = sep ∨ ∃ f ∈ fields, c ∈ f := by
  induction fields with
  | nil => simp [joinSep] at h
  | cons f fields ih =>
    rcases fields with - | ⟨g, fields⟩
    · exact Or.inr ⟨f, by simp, by simpa [joinSep] using h⟩
    · rw [show joinSep sep (f :: g :: fields) = f ++ sep :: joinSep sep (g :: fields) by
        simp [joinSep], List.mem_append, List.mem_cons] at h
      rcases h with h | rfl | h
      · exact Or.inr ⟨f, by simp, h⟩
      · exact Or.inl rfl
      · rcases ih h with rfl | ⟨x, hx, hc⟩
        · exact Or.inl rfl
        · exact Or.inr ⟨x, List.mem_cons_of_mem _ hx, hc⟩

end Kfs.Lib
