import Mathlib.Algebra.Order.Group.Int
import Mathlib.Data.Nat.Find
import Mathlib.Order.Monotone.Basic
import Mathlib.Tactic.Common

/-!
# Reading the header of a response

`GetResponse` peeks at the bytes that have arrived, again and again, until it comes upon a blank line, and reads the
header up to there.

* `World`: the bytes that the peer sends, and how many of them have arrived when `GetResponse` peeks;
* `scan`, `turn`, `GetResponse`: with the places of the buffer that the loop looks at;
* `Answered`: the header, or an error when there is none; `Right`;
* **`GetResponse_iff`**: when `GetResponse` returns what it should and looks only at bytes that it has received.
-/

namespace Kfs.Client.Response

/-- What comes from outside: the bytes of the peer, how many have arrived at each peek, the result of a peek when
nothing has arrived at all (0 or an error), and what is in the memory of the buffer. -/
structure World where
  stream : ℕ → UInt8
  arrived : ℕ → ℕ
  mono : Monotone arrived
  quiet : ℤ
  quiet_le : quiet ≤ 0
  memory : ℕ → UInt8

/-- The first three comparisons of the loop. -/
def Match3 (buf : ℕ → UInt8) (i : ℕ) : Prop := buf (i - 3) = 13 ∧ buf (i - 2) = 10 ∧ buf (i - 1) = 13
  deriving Decidable

/-- The places that the comparisons look at, up to the first that fails. -/
def inspected (buf : ℕ → UInt8) (i : ℕ) : List ℕ :=
  if buf (i - 3) ≠ 13 then [i - 3]
  else if buf (i - 2) ≠ 10 then [i - 3, i - 2]
  else if buf (i - 1) ≠ 13 then [i - 3, i - 2, i - 1]
  else [i - 3, i - 2, i - 1, i]

/-- The loop over `i`, with the number of its turns still to come: `delims`, and the places that it looks at. -/
def scan (buf : ℕ → UInt8) (i : ℕ) : ℕ → Option ℕ × List ℕ
  | 0 => (none, [])
  | left + 1 =>
    if Match3 buf i ∧ buf i = 10 then (some (i + 1), inspected buf i)
    else
      let (delims, places) := scan buf (i + 1) left
      (delims, inspected buf i ++ places)

variable (w : World) (bufSize : ℕ)

/-- The buffer when `nread` bytes have been peeked at. -/
def view (nread : ℕ) (j : ℕ) : UInt8 := if j < nread then w.stream j else w.memory j

/-- A turn of the outer loop: the result and `delims` if it returns, and the places that it looks at. -/
def turn (k : ℕ) : Option (ℤ × ℤ) × List ℕ :=
  let nread := min (w.arrived k) bufSize
  if nread = 0 then (some (w.quiet, -1), [])
  else
    let (delims, places) := scan (view w nread) 4 (nread + 1 - 4)
    (delims.map fun d => ((min d (w.arrived k) : ℕ), (d : ℤ)), places)

/-- The outer loop from the `k`th turn on, for as many turns as the fuel goes: the result, and the turn that returns. -/
def GetResponse : ℕ → ℕ → Option ((ℤ × ℤ) × ℕ)
  | 0, _ => none
  | fuel + 1, k =>
    match (turn w bufSize k).1 with
    | some res => some (res, k)
    | none => GetResponse fuel (k + 1)

/-! ## What it should return -/

/-- A blank line ends the line at `p`. -/
def Blank (p : ℕ) : Prop := w.stream p = 13 ∧ w.stream (p + 1) = 10 ∧ w.stream (p + 2) = 13 ∧ w.stream (p + 3) = 10

def First (p : ℕ) : Prop := Blank w p ∧ ∀ q < p, ¬ Blank w q

/-- The header with its blank line; or an error, if there is no blank line in what has arrived, and this is nothing, or
as much as the buffer takes, or all that arrives. -/
def Answered (k : ℕ) (res : ℤ × ℤ) : Prop :=
  (∃ p, First w p ∧ p + 4 ≤ min (w.arrived k) bufSize ∧ res = (↑(p + 4), ↑(p + 4))) ∨
  (∀ p, First w p → min (w.arrived k) bufSize < p + 4) ∧ res.1 ≤ 0 ∧
    (w.arrived k = 0 ∨ bufSize ≤ w.arrived k ∨ ∀ j, w.arrived j ≤ w.arrived k)

/-- `GetResponse` returns what it should, and on the way looks only at bytes that it has received. -/
def Right : Prop :=
  ∃ fuel res k, GetResponse w bufSize fuel 0 = some (res, k) ∧ Answered w bufSize k res ∧
    ∀ j ≤ k, ∀ place ∈ (turn w bufSize j).2, place < min (w.arrived j) bufSize

/-- Nothing arrives at all, or there is a first blank line that begins behind the first byte and ends within the
buffer, all of it arrives, and at no peek before that the bytes end in front of the last byte of what could be a blank
line. -/
def Readable : Prop :=
  min (w.arrived 0) bufSize = 0 ∨
  ∃ p, First w p ∧ 1 ≤ p ∧ p + 4 ≤ bufSize ∧ (∃ k, p + 4 ≤ w.arrived k) ∧
    ∀ k, 4 ≤ w.arrived k → w.arrived k < p + 4 → ¬ Match3 w.stream (w.arrived k)

section

variable {w bufSize} {buf : ℕ → UInt8} {i left d k n p : ℕ}

/-! ## One peek -/

theorem mem_inspected (h : n ∈ inspected buf i) : n ≤ i ∧ (n = i → 1 ≤ i → Match3 buf i) := by
  rw [inspected] at h
  split_ifs at h with h₁ h₂ h₃
  · simp only [List.mem_singleton] at h
    exact ⟨by omega, fun _ _ => by omega⟩
  · simp only [List.mem_cons, List.not_mem_nil, or_false] at h
    exact ⟨by omega, fun _ _ => by omega⟩
  · simp only [List.mem_cons, List.not_mem_nil, or_false] at h
    exact ⟨by omega, fun _ _ => by omega⟩
  · simp only [List.mem_cons, List.not_mem_nil, or_false] at h
    exact ⟨by omega, fun _ _ => ⟨not_not.1 h₁, not_not.1 h₂, not_not.1 h₃⟩⟩

theorem inspected_of_match (h : Match3 buf i) : i ∈ inspected buf i := by
  rw [inspected, if_neg (not_not.2 h.1), if_neg (not_not.2 h.2.1), if_neg (not_not.2 h.2.2)]
  simp

/-- The loop stops at the first place behind a blank line. -/
theorem scan_some (h : (scan buf i left).1 = some d) :
    ∃ j, d = j + 1 ∧ i ≤ j ∧ j < i + left ∧ (Match3 buf j ∧ buf j = 10) ∧
      (∀ m, i ≤ m → m < j → ¬ (Match3 buf m ∧ buf m = 10)) ∧ ∀ n ∈ (scan buf i left).2, n ≤ j := by
  induction left generalizing i with
  | zero => cases h
  | succ left ih =>
    rw [scan] at h ⊢
    split_ifs at h ⊢ with hhit
    · refine ⟨i, (Option.some.inj h).symm, le_rfl, by omega, hhit, fun m _ _ => by omega, fun n hn => ?_⟩
      exact (mem_inspected hn).1
    · obtain ⟨j, hd, hij, hlt, hj, hbefore, hplaces⟩ := ih h
      refine ⟨j, hd, by omega, by omega, hj, fun m him hmj => ?_, fun n hn => ?_⟩
      · by_cases hm : m = i
        · rw [hm]
          exact hhit
        · exact hbefore m (by omega) hmj
      · cases List.mem_append.1 hn with
        | inl hfirst => exact (mem_inspected hfirst).1.trans (by omega)
        | inr hrest => exact hplaces n hrest

/-- When the loop finds nothing it has looked at all places where the bytes before could be those of a blank line. -/
theorem scan_none (h : (scan buf i left).1 = none) :
    (∀ m, i ≤ m → m < i + left → ¬ (Match3 buf m ∧ buf m = 10)) ∧
      (∀ m, i ≤ m → m < i + left → Match3 buf m → m ∈ (scan buf i left).2) ∧
      (1 ≤ i → ∀ n ∈ (scan buf i left).2, ∃ m, i ≤ m ∧ m < i + left ∧ n ≤ m ∧ (n = m → Match3 buf m)) := by
  induction left generalizing i with
  | zero => exact ⟨fun m _ _ => by omega, fun m _ _ => by omega, fun _ n hn => absurd hn List.not_mem_nil⟩
  | succ left ih =>
    rw [scan] at h ⊢
    split_ifs at h ⊢ with hhit
    obtain ⟨hno, hall, hplaces⟩ := ih h
    refine ⟨fun m him hm => ?_, fun m him hm hmatch => ?_, fun hi n hn => ?_⟩
    · by_cases heq : m = i
      · rw [heq]
        exact hhit
      · exact hno m (by omega) (by omega)
    · by_cases heq : m = i
      · rw [heq] at hmatch ⊢
        exact List.mem_append_left _ (inspected_of_match hmatch)
      · exact List.mem_append_right _ (hall m (by omega) (by omega) hmatch)
    · cases List.mem_append.1 hn with
      | inl hfirst => exact ⟨i, le_rfl, by omega, (mem_inspected hfirst).1, fun heq => (mem_inspected hfirst).2 heq hi⟩
      | inr hrest =>
        obtain ⟨m, hm⟩ := hplaces (by omega) n hrest
        exact ⟨m, by omega, by omega, hm.2.2⟩

theorem match3_view (hi : 1 ≤ i) (hle : i ≤ n) : Match3 (view w n) i ↔ Match3 w.stream i := by
  have hview : ∀ j, j < n → view w n j = w.stream j := fun j hj => if_pos hj
  rw [Match3, Match3, hview _ (by omega), hview _ (by omega), hview _ (by omega)]

theorem hit_view (hi : 3 ≤ i) (hlt : i < n) : Match3 (view w n) i ∧ view w n i = 10 ↔ Blank w (i - 3) := by
  have hplaces : i - 3 + 1 = i - 2 ∧ i - 3 + 2 = i - 1 ∧ i - 3 + 3 = i := by omega
  rw [match3_view (by omega) hlt.le, view, if_pos hlt, Blank, Match3, hplaces.1, hplaces.2.1, hplaces.2.2]
  tauto

theorem turn_quiet (h : min (w.arrived k) bufSize = 0) : turn w bufSize k = (some (w.quiet, -1), []) := by
  rw [turn]
  exact if_pos h

theorem turn_scan (h : min (w.arrived k) bufSize ≠ 0) : turn w bufSize k =
    ((scan (view w (min (w.arrived k) bufSize)) 4 (min (w.arrived k) bufSize + 1 - 4)).1.map fun d =>
        (((min d (w.arrived k) : ℕ) : ℤ), (d : ℤ)),
      (scan (view w (min (w.arrived k) bufSize)) 4 (min (w.arrived k) bufSize + 1 - 4)).2) := by
  rw [turn]
  exact if_neg h

/-- The loop returns only at a place that looks like the end of a blank line. -/
theorem turn_some {res : ℤ × ℤ} (h0 : min (w.arrived k) bufSize ≠ 0) (h : (turn w bufSize k).1 = some res) :
    ∃ j, 4 ≤ j ∧ j ≤ min (w.arrived k) bufSize ∧ Match3 w.stream j ∧
      res = (((min (j + 1) (w.arrived k) : ℕ) : ℤ), ((j + 1 : ℕ) : ℤ)) := by
  rw [turn_scan h0, Option.map_eq_some_iff] at h
  obtain ⟨d, hscan, rfl⟩ := h
  obtain ⟨j, rfl, hj, hlt, hat, -⟩ := scan_some hscan
  exact ⟨j, hj, by omega, (match3_view (by omega) (by omega)).1 hat.1, rfl⟩

/-- A peek at which all of the first blank line is there. -/
theorem turn_header (hfirst : First w p) (hp : 1 ≤ p) (hle : p + 4 ≤ min (w.arrived k) bufSize) :
    (turn w bufSize k).1 = some (↑(p + 4), ↑(p + 4)) ∧
      ∀ place ∈ (turn w bufSize k).2, place < min (w.arrived k) bufSize := by
  rw [turn_scan (by omega)]
  have harrived : p + 4 ≤ w.arrived k := hle.trans (min_le_left _ _)
  generalize min (w.arrived k) bufSize = n at hle ⊢
  have hhit := (hit_view (w := w) (i := p + 3) (by omega) (by omega : p + 3 < n)).2 hfirst.1
  cases hscan : (scan (view w n) 4 (n + 1 - 4)).1 with
  | none => exact absurd hhit ((scan_none hscan).1 _ (by omega) (by omega))
  | some d =>
    obtain ⟨j, rfl, hj, hlt, hat, hbefore, hplaces⟩ := scan_some hscan
    have hle' : j ≤ p + 3 := not_lt.1 fun h => hbefore _ (by omega) h hhit
    have hblank := (hit_view (by omega) (by omega)).1 hat
    have heq : j = p + 3 := by
      have hnot : ¬ j - 3 < p := fun h => hfirst.2 _ h hblank
      omega
    subst heq
    refine ⟨?_, fun place hplace => ?_⟩
    · rw [Option.map_some, min_eq_left harrived]
    · have := hplaces place hplace
      omega

/-- A peek at which the first blank line is not all there, and the bytes do not end in front of its last byte. -/
theorem turn_again (hfirst : First w p) (h0 : min (w.arrived k) bufSize ≠ 0) (hlt : min (w.arrived k) bufSize < p + 4)
    (hends : 4 ≤ min (w.arrived k) bufSize → ¬ Match3 w.stream (min (w.arrived k) bufSize)) :
    (turn w bufSize k).1 = none ∧ ∀ place ∈ (turn w bufSize k).2, place < min (w.arrived k) bufSize := by
  rw [turn_scan h0]
  generalize min (w.arrived k) bufSize = n at h0 hlt hends ⊢
  cases hscan : (scan (view w n) 4 (n + 1 - 4)).1 with
  | none =>
    refine ⟨rfl, fun place hplace => ?_⟩
    obtain ⟨m, hm, hlt', hle, hmatch⟩ := (scan_none hscan).2.2 (by omega) place hplace
    by_cases heq : place = n
    · have hmn : m = n := by omega
      have hthree := hmatch (by omega)
      rw [hmn, match3_view (by omega) le_rfl] at hthree
      exact absurd hthree (hends (by omega))
    · omega
  | some d =>
    obtain ⟨j, rfl, hj, hlt', hat, -⟩ := scan_some hscan
    by_cases heq : j = n
    · subst heq
      exact absurd ((match3_view (by omega) le_rfl).1 hat.1) (hends hj)
    · have hblank := (hit_view (by omega) (by omega)).1 hat
      exact absurd hblank (hfirst.2 _ (by omega))

/-- A peek at which the bytes end in front of the last byte of what could be a blank line: the loop looks at the next
place, behind the bytes. -/
theorem turn_beyond (h4 : 4 ≤ min (w.arrived k) bufSize) (hends : Match3 w.stream (min (w.arrived k) bufSize))
    (hnone : (turn w bufSize k).1 = none) : min (w.arrived k) bufSize ∈ (turn w bufSize k).2 := by
  rw [turn_scan (by omega)] at hnone ⊢
  generalize min (w.arrived k) bufSize = n at h4 hends hnone ⊢
  exact (scan_none (Option.map_eq_none_iff.1 hnone)).2.1 n h4 (by omega) ((match3_view (by omega) le_rfl).2 hends)

/-! ## All peeks -/

theorem GetResponse_some {fuel : ℕ} {res : ℤ × ℤ} {k₀ : ℕ} (h : GetResponse w bufSize fuel k₀ = some (res, k)) :
    k₀ ≤ k ∧ (turn w bufSize k).1 = some res ∧ ∀ j, k₀ ≤ j → j < k → (turn w bufSize j).1 = none := by
  induction fuel generalizing k₀ with
  | zero => cases h
  | succ fuel ih =>
    rw [GetResponse] at h
    cases hturn : (turn w bufSize k₀).1 with
    | some res' =>
      rw [hturn] at h
      obtain ⟨rfl, rfl⟩ := Prod.mk.inj (Option.some.inj h)
      exact ⟨le_rfl, hturn, fun j _ _ => by omega⟩
    | none =>
      rw [hturn] at h
      obtain ⟨hle, hres, hbefore⟩ := ih h
      refine ⟨by omega, hres, fun j hj hjk => ?_⟩
      by_cases heq : j = k₀
      · rw [heq, hturn]
      · exact hbefore j (by omega) hjk

theorem GetResponse_of_turns {res : ℤ × ℤ} {k₀ m : ℕ} (hres : (turn w bufSize (k₀ + m)).1 = some res)
    (hbefore : ∀ j, k₀ ≤ j → j < k₀ + m → (turn w bufSize j).1 = none) :
    GetResponse w bufSize (m + 1) k₀ = some (res, k₀ + m) := by
  induction m generalizing k₀ with
  | zero =>
    rw [Nat.add_zero] at hres
    rw [GetResponse, hres]
    rfl
  | succ m ih =>
    have hsame : k₀ + (m + 1) = k₀ + 1 + m := by omega
    rw [GetResponse, hbefore k₀ le_rfl (by omega), hsame]
    rw [hsame] at hres
    exact ih hres fun j hj hlt => hbefore j (by omega) (by omega)

end

/-- **`GetResponse` returns what it should**, and looks only at bytes that it has received, exactly when the response is
`Readable`. -/
theorem GetResponse_iff (w : World) (bufSize : ℕ) : Right w bufSize ↔ Readable w bufSize := by
  by_cases h0 : min (w.arrived 0) bufSize = 0
  · refine ⟨fun _ => Or.inl h0, fun _ => ⟨1, (w.quiet, -1), 0, ?_, Or.inr ⟨fun p _ => by omega, w.quiet_le, ?_⟩, ?_⟩⟩
    · rw [GetResponse, turn_quiet h0]
    · omega
    · intro j hj place hplace
      rw [Nat.le_zero.1 hj, turn_quiet h0] at hplace
      exact absurd hplace List.not_mem_nil
  have hsome : ∀ k, min (w.arrived k) bufSize ≠ 0 := by
    intro k
    have := w.mono (Nat.zero_le k)
    omega
  constructor
  · rintro ⟨fuel, res, k, hrun, hanswered, hplaces⟩
    obtain ⟨-, hres, hbefore⟩ := GetResponse_some hrun
    obtain ⟨j, hj, -, -, rfl⟩ := turn_some (hsome k) hres
    have hpos := hsome k
    rcases hanswered with ⟨p, hfirst, hle, hd⟩ | ⟨-, hneg, -⟩
    · have hdelims : ((j + 1 : ℕ) : ℤ) = (p + 4 : ℕ) := (Prod.mk.inj hd).2
      refine Or.inr ⟨p, hfirst, by omega, by omega, ⟨k, by omega⟩, fun k' h4 hlt hends => ?_⟩
      have hk' : k' < k := by
        by_contra hge
        have := w.mono (not_lt.1 hge)
        omega
      have hmin : min (w.arrived k') bufSize = w.arrived k' := by omega
      have hmem := turn_beyond (by rw [hmin]; exact h4) (by rw [hmin]; exact hends) (hbefore k' (Nat.zero_le _) hk')
      exact absurd (hplaces k' hk'.le _ hmem) (lt_irrefl _)
    · have hzero : ((min (j + 1) (w.arrived k) : ℕ) : ℤ) ≤ 0 := hneg
      omega
  · rintro (h | ⟨p, hfirst, hp, hle, hall, hends⟩)
    · exact absurd h h0
    obtain ⟨hk, hleast⟩ : p + 4 ≤ w.arrived (Nat.find hall) ∧ ∀ j < Nat.find hall, w.arrived j < p + 4 :=
      ⟨Nat.find_spec hall, fun j hj => not_le.1 (Nat.find_min hall hj)⟩
    obtain ⟨hres, hplaces⟩ := @turn_header w bufSize _ p hfirst hp (le_min hk hle)
    have hagain : ∀ j < Nat.find hall, (turn w bufSize j).1 = none ∧
        ∀ place ∈ (turn w bufSize j).2, place < min (w.arrived j) bufSize := by
      intro j hj
      have hlt := hleast j hj
      have hmin : min (w.arrived j) bufSize = w.arrived j := by omega
      exact turn_again hfirst (hsome j) (by omega) (by rw [hmin]; exact fun h4 => hends j h4 hlt)
    have hrun := @GetResponse_of_turns w bufSize _ 0 (Nat.find hall) (by rw [Nat.zero_add]; exact hres)
      fun j _ hj => (hagain j (by omega)).1
    rw [Nat.zero_add] at hrun
    refine ⟨_, _, _, hrun, Or.inl ⟨p, hfirst, le_min hk hle, rfl⟩, fun j hj place hplace => ?_⟩
    by_cases heq : j = Nat.find hall
    · subst heq
      exact hplaces place hplace
    · exact (hagain j (by omega)).2 place hplace

/-- A peer that sends letters only, more than the buffer takes. -/
def letters : World where
  stream _ := 97
  arrived _ := 1024
  mono := monotone_const
  quiet := -110
  quiet_le := by decide
  memory _ := 0

/-- `GetResponse` does not return when the buffer is full and there is no blank line in it. -/
theorem not_right_letters : ¬ Right letters 1024 := by
  rintro ⟨fuel, res, k, hrun, -⟩
  obtain ⟨-, hres, -⟩ := GetResponse_some hrun
  have hpos : min (letters.arrived k) 1024 ≠ 0 := by
    change min 1024 1024 ≠ 0
    rw [min_self]
    omega
  obtain ⟨j, -, -, hthree, -⟩ := turn_some hpos hres
  have hletter : letters.stream (j - 3) = 97 := rfl
  rw [Match3, hletter] at hthree
  exact absurd hthree.1 (by decide)

end Kfs.Client.Response
