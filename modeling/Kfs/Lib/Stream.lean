import Mathlib.Tactic
import Mathlib.Data.List.Infix

/-!
# Messages from a stream

A reader gets a stream in pieces, keeps what it has in a buffer, and after each piece takes messages from the front of
the buffer as long as there is one.

* `drain`, `receive`: the reader, for any way `next` to find the message at the front;
* `Delimits`: `next` finds a message as soon as all of it is there, and not before;
* **`receive_stream`**: then the messages of a stream are taken one by one, however the stream comes in pieces;
* `next_of_receive`: conversely, the first of them has been found at the front;
* `receiveOne`: a reader that takes one message at most after each piece, of a writer that waits for it;
* **`received_iff`**, **`answered_iff`**: exactly the messages that `next` finds are taken;
* `foldlM_pieces`: a reader of a single text that it has to have as a whole.
-/

namespace Kfs.Lib

/-! ## A text in pieces -/

/-- A reader that keeps what it has until the text is whole: `state b` is its state when `b` has come. -/
theorem foldlM_pieces {α σ : Type} {step : σ → List α → Option σ} {state : List α → σ} {done : σ} {whole : List α}
    (hstep : ∀ b data, b ++ data <+: whole →
      (b ++ data = whole → step (state b) data = some done) ∧
        (b ++ data ≠ whole → step (state b) data = some (state (b ++ data))))
    {pieces : List (List α)} (hne : ∀ p ∈ pieces, p ≠ []) (hpieces : pieces ≠ []) {b : List α}
    (hflat : b ++ pieces.flatten = whole) : pieces.foldlM step (state b) = some done := by
  induction pieces generalizing b with
  | nil => exact absurd rfl hpieces
  | cons data pieces ih =>
    rw [List.flatten_cons, ← List.append_assoc] at hflat
    obtain ⟨hwhole, hpart⟩ := hstep b data ⟨_, hflat⟩
    rw [List.foldlM_cons]
    rcases eq_or_ne pieces [] with rfl | hmore
    · rw [List.flatten_nil, List.append_nil] at hflat
      rw [hwhole hflat]
      rfl
    · have hrest : pieces.flatten ≠ [] := by
        obtain ⟨p, pieces, rfl⟩ := List.exists_cons_of_ne_nil hmore
        have := hne p (List.mem_cons_of_mem _ List.mem_cons_self)
        simp [this]
      have hcut : b ++ data ≠ whole := by
        intro h
        rw [h] at hflat
        exact hrest (List.append_right_eq_self.mp hflat)
      rw [hpart hcut]
      exact ih (fun p hp => hne p (List.mem_cons_of_mem _ hp)) hmore hflat

/-! ## Messages one after another -/

variable {α β : Type} (next : List α → Option (β × List α))

/-- Takes messages as long as there is one, at most `n` times. -/
def drain : ℕ → List β × List α → List β × List α
  | 0, st => st
  | n + 1, st =>
    match next st.2 with
    | none => st
    | some (m, rest) => drain n (st.1 ++ [m], rest)

/-- One piece of the stream. The state is what has been taken, and the buffer. -/
def receive (st : List β × List α) (data : List α) : List β × List α :=
  drain next (st.2 ++ data).length (st.1, st.2 ++ data)

/-- `next` finds the message `m` at the front as soon as all of its text is there, and not before. -/
structure Delimits (text : β → List α) (m : β) : Prop where
  whole : ∀ rest, next (text m ++ rest) = some (m, rest)
  part : ∀ b, b <+: text m → b ≠ text m → next b = none

variable {next} {text : β → List α}

theorem drain_append (n : ℕ) (ms₀ ms : List β) (b : List α) :
    drain next n (ms₀ ++ ms, b) = (ms₀ ++ (drain next n (ms, b)).1, (drain next n (ms, b)).2) := by
  induction n generalizing ms b with
  | zero => rfl
  | succ n ih =>
    unfold drain
    cases h : next b with
    | none => rfl
    | some p => simp only [List.append_assoc, ih]

theorem receive_append (ms₀ ms : List β) (b data : List α) :
    receive next (ms₀ ++ ms, b) data = (ms₀ ++ (receive next (ms, b) data).1, (receive next (ms, b) data).2) :=
  drain_append _ _ _ _

theorem foldl_receive_append (pieces : List (List α)) (ms₀ ms : List β) (b : List α) :
    pieces.foldl (receive next) (ms₀ ++ ms, b) =
      (ms₀ ++ (pieces.foldl (receive next) (ms, b)).1, (pieces.foldl (receive next) (ms, b)).2) := by
  induction pieces generalizing ms b with
  | nil => rfl
  | cons data pieces ih =>
    rw [List.foldl_cons, List.foldl_cons, receive_append]
    exact ih _ _

/-- After a piece, the buffer begins at a message that is not there yet. -/
theorem drain_stream (hempty : next [] = none) {ms : List β} (hms : ∀ m ∈ ms, Delimits next text m ∧ text m ≠ []) :
    ∀ {n : ℕ} {taken : List β} {b rem : List α}, b.length ≤ n → b ++ rem = ms.flatMap text →
      ∃ ms₁ ms₂ b', ms = ms₁ ++ ms₂ ∧ drain next n (taken, b) = (taken ++ ms₁, b') ∧ b' ++ rem = ms₂.flatMap text ∧
        next b' = none := by
  induction ms with
  | nil =>
    intro n taken b rem _ hb
    obtain ⟨rfl, rfl⟩ := List.append_eq_nil_iff.mp hb
    refine ⟨[], [], [], rfl, ?_, rfl, hempty⟩
    cases n with
    | zero => simp [drain]
    | succ n => simp [drain, hempty]
  | cons m ms ih =>
    intro n taken b rem hn hb
    obtain ⟨hm, hne⟩ := hms m List.mem_cons_self
    have hprefix : b <+: text m ∨ text m <+: b :=
      List.prefix_or_prefix_of_prefix ⟨rem, hb⟩ ⟨ms.flatMap text, List.flatMap_cons.symm⟩
    by_cases hwhole : text m <+: b
    · obtain ⟨rest, rfl⟩ := hwhole
      have hpos := List.length_pos_of_ne_nil hne
      rw [List.length_append] at hn
      obtain ⟨k, rfl⟩ : ∃ k, n = k + 1 := Nat.exists_eq_add_one.mpr (by omega)
      rw [List.flatMap_cons, List.append_assoc, List.append_right_inj] at hb
      obtain ⟨ms₁, ms₂, b', rfl, hdrain, hb', hnone⟩ :=
        @ih (fun m hm => hms m (List.mem_cons_of_mem _ hm)) k (taken ++ [m]) rest rem (show rest.length ≤ k by omega) hb
      refine ⟨m :: ms₁, ms₂, b', rfl, ?_, hb', hnone⟩
      simp only [drain, hm.whole]
      rw [hdrain, List.append_assoc, List.singleton_append]
    · have hpart := hprefix.resolve_right hwhole
      have hnone : next b = none := hm.part b hpart fun h => hwhole (h ▸ List.prefix_rfl)
      refine ⟨[], m :: ms, b, rfl, ?_, hb, hnone⟩
      cases n with
      | zero => simp [drain]
      | succ n => simp [drain, hnone]

/-- **The messages of a stream are taken one by one.** -/
theorem receive_stream (hempty : next [] = none) {ms : List β} (hms : ∀ m ∈ ms, Delimits next text m ∧ text m ≠ [])
    {pieces : List (List α)} (hflat : pieces.flatten = ms.flatMap text) :
    pieces.foldl (receive next) ([], []) = (ms, []) := by
  have hrun : ∀ (pieces : List (List α)) (taken ms : List β) (b : List α),
      (∀ m ∈ ms, Delimits next text m ∧ text m ≠ []) → next b = none → b ++ pieces.flatten = ms.flatMap text →
        pieces.foldl (receive next) (taken, b) = (taken ++ ms, []) := by
    intro pieces
    induction pieces with
    | nil =>
      intro taken ms b hms hnone hb
      rw [List.flatten_nil, List.append_nil] at hb
      cases ms with
      | nil => simp [hb]
      | cons m ms =>
        rw [hb, List.flatMap_cons, (hms m List.mem_cons_self).1.whole] at hnone
        cases hnone
    | cons data pieces ih =>
      intro taken ms b hms _ hb
      rw [List.flatten_cons, ← List.append_assoc] at hb
      obtain ⟨ms₁, ms₂, b', rfl, hdrain, hb', hnone⟩ := @drain_stream _ _ _ _ hempty _ hms _ taken _ _ le_rfl hb
      rw [List.foldl_cons, receive, hdrain,
        ih _ ms₂ b' (fun m hm => hms m (List.mem_append_right _ hm)) hnone hb', List.append_assoc]
  exact hrun pieces [] ms [] hms hempty hflat

/-- The first message that has been taken was found at the front. -/
theorem next_of_receive {s : List α} {m : β} {ms : List β} {b : List α} (h : receive next ([], []) s = (m :: ms, b)) :
    ∃ rest, next s = some (m, rest) := by
  rw [receive, List.nil_append] at h
  rcases hn : s.length with - | n
  · rw [hn, drain] at h
    cases h
  · rw [hn, drain] at h
    cases hs : next s with
    | none =>
      simp only [hs] at h
      cases h
    | some p =>
      obtain ⟨m', rest⟩ := p
      simp only [hs] at h
      rw [List.nil_append, ← List.append_nil [m'], drain_append] at h
      exact ⟨rest, by rw [(List.cons.inj (Prod.mk.inj h).1).1]⟩

/-! ## Exactly the messages that are found -/

/-- The messages of a stream are taken one by one, however it comes in pieces. -/
def Received (next : List α → Option (β × List α)) (text : β → List α) (ms : List β) : Prop :=
  ∀ pieces : List (List α), pieces.flatten = ms.flatMap text → pieces.foldl (receive next) ([], []) = (ms, [])

/-- Where a message that is found in front of anything is delimited, exactly the delimited messages are taken. -/
theorem received_iff (hempty : next [] = none) {ms : List β} (hne : ∀ m ∈ ms, text m ≠ [])
    (hfront : ∀ m ∈ ms, ∀ rest rest', next (text m ++ rest) = some (m, rest') → Delimits next text m) :
    Received next text ms ↔ ∀ m ∈ ms, Delimits next text m := by
  constructor
  · induction ms with
    | nil => exact fun _ m hm => absurd hm List.not_mem_nil
    | cons m ms ih =>
      intro h
      have hstream := h [(m :: ms).flatMap text] (by simp)
      rw [List.foldl_cons, List.foldl_nil] at hstream
      obtain ⟨rest, hrest⟩ := next_of_receive hstream
      rw [List.flatMap_cons] at hrest
      have hm := hfront m List.mem_cons_self _ _ hrest
      have hone : ∀ m' ∈ [m], Delimits next text m' ∧ text m' ≠ [] := by
        simpa using ⟨hm, hne m List.mem_cons_self⟩
      have hfirst : [text m].foldl (receive next) ([], []) = ([m], []) := receive_stream hempty hone (by simp)
      have htail : Received next text ms := by
        intro pieces hflat
        have hall := h (text m :: pieces) (by rw [List.flatten_cons, hflat, List.flatMap_cons])
        rw [← List.singleton_append, List.foldl_append, hfirst, ← List.append_nil [m], foldl_receive_append] at hall
        obtain ⟨hms, hbuf⟩ := Prod.mk.inj hall
        exact Prod.ext (List.cons.inj hms).2 hbuf
      have hms := ih (fun m hm => hne m (List.mem_cons_of_mem _ hm))
        (fun m hm => hfront m (List.mem_cons_of_mem _ hm)) htail
      exact List.forall_mem_cons.mpr ⟨hm, hms⟩
  · exact fun h pieces hflat => receive_stream hempty (fun m hm => ⟨h m hm, hne m hm⟩) hflat

/-! ## A writer that waits -/

variable (next) in
/-- One piece of the stream, after which one message at most is taken. -/
def receiveOne (st : List β × List α) (data : List α) : List β × List α := drain next 1 (st.1, st.2 ++ data)

theorem receiveOne_of_none {st : List β × List α} {data : List α} (h : next (st.2 ++ data) = none) :
    receiveOne next st data = (st.1, st.2 ++ data) := by
  simp only [receiveOne, drain, h]

theorem receiveOne_of_some {st : List β × List α} {data rest : List α} {m : β}
    (h : next (st.2 ++ data) = some (m, rest)) : receiveOne next st data = (st.1 ++ [m], rest) := by
  simp only [receiveOne, drain, h]

/-- The pieces of one message. -/
theorem foldl_receiveOne (hempty : next [] = none) {m : β} (hm : Delimits next text m) {pieces : List (List α)}
    {taken : List β} {b : List α} (hb : b ≠ text m) (hflat : b ++ pieces.flatten = text m) :
    pieces.foldl (receiveOne next) (taken, b) = (taken ++ [m], []) := by
  induction pieces generalizing b with
  | nil => exact absurd (by simpa using hflat) hb
  | cons data pieces ih =>
    rw [List.flatten_cons, ← List.append_assoc] at hflat
    rw [List.foldl_cons]
    by_cases hwhole : b ++ data = text m
    · have hnext : next (b ++ data) = some (m, []) := by simpa [hwhole] using hm.whole []
      -- what comes behind the message is empty
      have hrest : ∀ p ∈ pieces, p = [] := by
        rw [hwhole, List.append_right_eq_self] at hflat
        exact List.flatten_eq_nil_iff.mp hflat
      rw [receiveOne_of_some hnext]
      clear ih hflat
      induction pieces with
      | nil => rfl
      | cons p pieces ih =>
        obtain rfl := hrest p List.mem_cons_self
        rw [List.foldl_cons, receiveOne_of_none hempty]
        exact ih fun p hp => hrest p (List.mem_cons_of_mem _ hp)
    · rw [receiveOne_of_none (hm.part _ ⟨_, hflat⟩ hwhole)]
      exact ih hwhole hflat

/-- Each message is taken from its own pieces. -/
def Answered (next : List α → Option (β × List α)) (text : β → List α) (ms : List β) : Prop :=
  ∀ pieces : List (List (List α)), pieces.map List.flatten = ms.map text →
    pieces.flatten.foldl (receiveOne next) ([], []) = (ms, [])

theorem answered_iff (hempty : next [] = none) {ms : List β} (hne : ∀ m ∈ ms, text m ≠ [])
    (hsplit : ∀ s m rest, next s = some (m, rest) → s = text m ++ rest)
    (hfront : ∀ m ∈ ms, next (text m) = some (m, []) → Delimits next text m) :
    Answered next text ms ↔ ∀ m ∈ ms, Delimits next text m := by
  constructor
  · induction ms using List.reverseRecOn with
    | nil => exact fun _ m hm => absurd hm List.not_mem_nil
    | append_singleton ms m ih =>
      intro h
      have hstep (pieces : List (List (List α))) (hflat : pieces.map List.flatten = ms.map text) :
          pieces.flatten.foldl (receiveOne next) ([], []) = (ms, []) ∧ next (text m) = some (m, []) := by
        have hall := h (pieces ++ [[text m]]) (by simp [hflat])
        rw [List.flatten_append, List.foldl_append] at hall
        generalize pieces.flatten.foldl (receiveOne next) ([], []) = st at hall ⊢
        obtain ⟨taken, b⟩ := st
        change receiveOne next (taken, b) (text m) = _ at hall
        cases hnext : next (b ++ text m) with
        | none =>
          rw [receiveOne_of_none hnext] at hall
          have hbuf := (List.append_eq_nil_iff.mp (Prod.mk.inj hall).2).2
          exact absurd hbuf (hne m (by simp))
        | some p =>
          obtain ⟨m', rest⟩ := p
          rw [receiveOne_of_some hnext] at hall
          obtain ⟨hms, rfl⟩ := Prod.mk.inj hall
          obtain ⟨rfl, hm⟩ := List.append_inj' hms rfl
          obtain rfl : m' = m := by simpa using hm
          have hb := hsplit _ _ _ hnext
          rw [List.append_nil, List.append_left_eq_self] at hb
          subst hb
          exact ⟨rfl, hnext⟩
      have hm := hfront m (by simp) (hstep (ms.map fun m => [text m]) (by simp [Function.comp_def])).2
      have hms := ih (fun m hm => hne m (List.mem_append_left _ hm))
        (fun m hm => hfront m (List.mem_append_left _ hm)) fun pieces hflat => (hstep pieces hflat).1
      intro m' hm'
      rcases List.mem_append.mp hm' with hm' | hm'
      · exact hms m' hm'
      · exact List.mem_singleton.mp hm' ▸ hm
  · intro h pieces
    have hrun : ∀ (ms taken : List β) (pieces : List (List (List α))), (∀ m ∈ ms, Delimits next text m ∧ text m ≠ []) →
        pieces.map List.flatten = ms.map text →
          pieces.flatten.foldl (receiveOne next) (taken, []) = (taken ++ ms, []) := by
      intro ms
      induction ms with
      | nil =>
        intro taken pieces _ hflat
        obtain rfl := List.map_eq_nil_iff.mp hflat
        simp
      | cons m ms ih =>
        intro taken pieces hms hflat
        rcases pieces with - | ⟨p, pieces⟩
        · cases hflat
        obtain ⟨hp, hflat⟩ := List.cons.inj hflat
        obtain ⟨hm, hne⟩ := hms m List.mem_cons_self
        rw [List.flatten_cons, List.foldl_append, foldl_receiveOne hempty hm hne.symm (by simpa using hp),
          ih _ _ (fun m hm => hms m (List.mem_cons_of_mem _ hm)) hflat, List.append_assoc, List.singleton_append]
    exact hrun ms [] pieces fun m hm => ⟨h m hm, hne m hm⟩

end Kfs.Lib
