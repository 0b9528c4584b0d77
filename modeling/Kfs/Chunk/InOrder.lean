import Kfs.Chunk.Sync

/-!
# The order of syncs on a connection

* `Gated`: a sync is submitted after the prepares before it have completed;
* `Spread`, `Refs`: the syncs that are held back wait for operations of the queue;
* `step_total`: the assertions of the connection hold;
* `InOrder`, **`run_inOrder`**: what clients rely on, as long as no sync is held back for a prepare behind one for
  which two syncs are held back.
-/

namespace Kfs.Chunk

open ChunkManager

variable {st st' st₁ : Cs} {op q s w : KfsOp} {id : ℕ} {now : ℕ → Bool}

/-! ## The gate -/

/-- A sync is submitted after the prepares before it have completed. -/
def Gated (st : Cs) : Prop := ∀ s ∈ st.received, s.cmd.isSync = true → ∀ l, .submitted s.id :: l <:+ st.trace →
  ∀ p ∈ st.received, p.cmd.isPrepare = true → p.id < s.id → .completed p.id ∈ l

/-- A mark of another kind. -/
theorem Gated.mark {m : Mark} (h : Gated st) (hm : ∀ id, m ≠ .submitted id) : Gated (mark st m) := by
  intro s hs hsync l hl
  rcases List.suffix_cons_iff.mp hl with he | hl
  · exact absurd (List.cons.inj he).1.symm (hm s.id)
  · exact h s hs hsync l hl

/-- Whatever completes while an operation is being submitted, the gate holds. -/
theorem execute_gate : ∀ {n : ℕ} {st st' : Cs} {op : KfsOp}, Gate st → Gated st → op ∈ st.received →
    (op.cmd.isSync = true → ∀ p ∈ st.received, p.cmd.isPrepare = true → p.id < op.id → st.completed p.id) →
    ClientSM.execute now n st op = some st' → Gate st' ∧ Gated st' ∧ Later st st' ∧
      ((st.terminating = true → ∀ q, st.ops.head? = some q → q.id ≠ op.id) → Firm st st')
  | 0, _, _, _, _, _, _, _, h => by cases h
  | n + 1, st, st', op, hg, hx, hop, hprep, h => by
    unfold ClientSM.execute at h
    dsimp only at h
    have hx₁ : Gated (mark st (.submitted op.id)) := by
      intro s hs hsync l hl
      rcases List.suffix_cons_iff.mp hl with he | hl
      · obtain ⟨he₁, rfl⟩ := List.cons.inj he
        obtain rfl : s = op := hg.eq_of_id hs hop (Mark.submitted.inj he₁)
        exact hprep hsync
      · exact hx s hs hsync l hl
    have hlater : ∀ {m}, Later st (mark st m) := ⟨rfl, rfl, rfl, fun _ h => List.mem_cons_of_mem _ h, fun _ hp _ => hp⟩
    split_ifs at h
    · have hexec : ∀ {st st' : Cs} {s : KfsOp}, Gate st → Gated st → Due st s →
          ClientSM.execute now n st s = some st' → Gate st' ∧ Gated st' ∧ Later st st' ∧ Firm st st' := by
        intro st st' s hg hx hdue h
        obtain ⟨hg', hx', hl, hf⟩ := execute_gate hg hx hdue.received (fun _ => hdue.prepares) h
        exact ⟨hg', hx', hl, hf hdue.front⟩
      obtain ⟨hg', hx', hl, hf⟩ := HandleEvent_gate (fun _ _ hx => hx) (fun hx => hx.mark fun _ => by simp) hexec
        (hg.mark.mark) (hx₁.mark fun _ => by simp) List.mem_cons_self h
      refine ⟨hg', hx', ⟨hl.received, hl.terminating, hl.nextOp, fun id hc => ?_, hl.prepares⟩, fun hfront => hf hfront⟩
      exact hl.completed id (List.mem_cons_of_mem _ (List.mem_cons_of_mem _ hc))
    · obtain rfl := Option.some.inj h
      exact ⟨hg.mark, hx₁, hlater, fun _ _ => List.prefix_rfl⟩

/-! ## The syncs that are held back -/

/-- Only for the last of them can two syncs be held back. -/
def Spread : List (KfsOp × KfsOp) → Prop
  | [] => True
  | x :: l => (∀ y ∈ l, y.1.id = x.1.id) ∨ ((∀ y ∈ l, x.1.id < y.1.id) ∧ Spread l)

/-- What is held back waits for an operation of the queue. -/
def Refs (st : Cs) : Prop := ∀ x ∈ st.mPendingOps, x.1 ∈ st.ops

theorem Spread.tail {x : KfsOp × KfsOp} : ∀ {l : List (KfsOp × KfsOp)}, Spread (x :: l) → Spread l
  | [], _ => trivial
  | y :: _, .inl h => .inl fun z hz =>
    (h z (List.mem_cons_of_mem _ hz)).trans (h y List.mem_cons_self).symm
  | _ :: _, .inr h => h.2

theorem Spread.suffix {l' : List (KfsOp × KfsOp)} : ∀ {l : List (KfsOp × KfsOp)}, Spread l → l' <:+ l → Spread l'
  | [], h, hs => by
    rw [List.suffix_nil.mp hs]
    exact h
  | _ :: _, h, hs => by
    rcases List.suffix_cons_iff.mp hs with rfl | hs
    · exact h
    · exact h.tail.suffix hs

/-- One more sync is held back, for the last prepare. -/
theorem Spread.snoc : ∀ {l : List (KfsOp × KfsOp)}, Spread l → (∀ x ∈ l, x.1.id ≤ w.id) →
    (∀ x ∈ l, x.1.id = w.id ∨ l.countP (fun y => y.1.id = x.1.id) = 1) → Spread (l ++ [(w, s)])
  | [], _, _, _ => .inl fun _ h => by cases h
  | x :: l, h, hle, hcount => by
    rcases eq_or_lt_of_le (hle x List.mem_cons_self) with he | hlt
    · -- nothing can come after the last prepare
      refine .inl fun y hy => ?_
      rcases List.mem_append.mp hy with hy | hy
      · rcases h with hsame | ⟨hlt, -⟩
        · exact hsame y hy
        · exact absurd (hle y (List.mem_cons_of_mem _ hy)) (by have := hlt y hy; omega)
      · rw [List.mem_singleton.mp hy]
        exact he.symm
    · have hone := (hcount x List.mem_cons_self).resolve_left hlt.ne
      rw [List.countP_cons_of_pos (by simp)] at hone
      have hother : ∀ y ∈ l, y.1.id ≠ x.1.id := fun y hy he => by
        have hpos : 0 < l.countP fun y => y.1.id = x.1.id := List.countP_pos_iff.mpr ⟨y, hy, by simpa using he⟩
        omega
      have hgt : ∀ y ∈ l, x.1.id < y.1.id := by
        rcases h with hsame | ⟨hlt, -⟩
        · exact fun y hy => absurd (hsame y hy) (hother y hy)
        · exact hlt
      have htail : Spread l := Spread.tail h
      refine .inr ⟨fun y hy => ?_, htail.snoc (fun y hy => hle y (List.mem_cons_of_mem _ hy)) fun y hy => ?_⟩
      · rcases List.mem_append.mp hy with hy | hy
        · exact hgt y hy
        · rw [List.mem_singleton.mp hy]
          exact hlt
      · have hy' := hcount y (List.mem_cons_of_mem _ hy)
        rwa [List.countP_cons_of_neg (by simpa using (hgt y hy).ne)] at hy'

/-- A sync that waits for the first operation of the queue comes first. -/
theorem Refs.first (h : Refs st) (hg : Gate st) (hs : Spread st.mPendingOps) {l : List KfsOp} (hops : st.ops = q :: l)
    {x : KfsOp × KfsOp} (hx : x ∈ st.mPendingOps) (hq : x.1 = q) : ∃ s pending, st.mPendingOps = (q, s) :: pending := by
  cases hpend : st.mPendingOps with
  | nil => simp [hpend] at hx
  | cons y pending =>
    obtain ⟨w, s⟩ := y
    refine ⟨s, pending, ?_⟩
    have hmem : (w, s) ∈ st.mPendingOps := by rw [hpend]; exact List.mem_cons_self
    obtain ⟨⟨hw, hwp⟩, -⟩ := hg.held _ hmem
    obtain ⟨⟨hqr, hqp⟩, -⟩ := hg.held _ hx
    rw [hq] at hqr hqp
    suffices hwq : w = q by rw [hwq]
    by_contra hne
    -- the prepare of the first sync would come after `q` in the queue and before it in the pending list
    have hlt : q.id < w.id := by
      have hwops := h _ hmem
      have horder := hg.order
      rw [hops] at hwops horder
      rcases List.mem_cons.mp hwops with he | hwops
      · exact absurd he hne
      · exact (List.pairwise_cons.mp horder).1 w hwops hqp hwp
    rw [hpend] at hx hs
    rcases List.mem_cons.mp hx with rfl | hx
    · exact hne hq
    · rcases hs with hsame | ⟨hgt, -⟩
      · have he := hsame x hx
        rw [hq] at he
        exact hlt.ne he
      · have he := hgt x hx
        rw [hq] at he
        exact absurd he (not_lt.mpr hlt.le)

/-! ## What the loops leave -/

/-- No sync is held back any more than before, and nothing comes in. -/
structure Shrinks (st st' : Cs) : Prop where
  pending : st'.mPendingOps <:+ st.mPendingOps
  size : st'.mOps.length + st'.mPendingOps.length ≤ st.mOps.length + st.mPendingOps.length

theorem Shrinks.refl : Shrinks st st := ⟨List.suffix_rfl, le_rfl⟩

theorem Shrinks.trans (h : Shrinks st st₁) (h' : Shrinks st₁ st') : Shrinks st st' :=
  ⟨h'.pending.trans h.pending, h'.size.trans h.size⟩

section Loops

variable {exec : Cs → KfsOp → Option Cs}
  (hexec : ∀ {st st' : Cs} {s : KfsOp}, exec st s = some st' → Shrinks st st')

include hexec

/-- The first sync that is held back is gone, and then more may happen. -/
theorem release_shrinks {pending : List (KfsOp × KfsOp)} {st₁ : Cs} (hpend : st.mPendingOps = (w, s) :: pending)
    (h : exec { st with mOps := st.mOps ++ [(s, false)], mPendingOps := pending } s = some st₁) :
    Shrinks st st₁ ∧ st₁.mPendingOps <:+ pending := by
  have hs := hexec h
  have hsuffix : st₁.mPendingOps <:+ pending := hs.pending
  refine ⟨⟨?_, ?_⟩, hsuffix⟩
  · rw [hpend]
    exact hsuffix.trans (List.suffix_cons _ _)
  · have hsize := hs.size
    rw [hpend]
    simp only [List.length_append, List.length_cons, List.length_nil] at hsize ⊢
    omega

theorem OpFinished_shrinks : ∀ {k : ℕ} {st st' : Cs}, ClientSM.OpFinished exec q k st = some st' →
    Shrinks st st' ∧ ∀ w s pending, st'.mPendingOps = (w, s) :: pending → w.seq ≠ q.seq
  | 0, _, _, h => by cases h
  | k + 1, st, st', h => by
    rw [ClientSM.OpFinished] at h
    cases hpend : st.mPendingOps with
    | nil =>
      simp only [hpend, Option.some.injEq] at h
      subst h
      exact ⟨.refl, fun w s pending hp => by simp [hpend] at hp⟩
    | cons pair pending =>
      obtain ⟨w, s⟩ := pair
      simp only [hpend] at h
      by_cases hseq : w.seq ≠ q.seq
      · rw [if_pos hseq] at h
        obtain rfl := Option.some.inj h
        refine ⟨.refl, fun w' s' pending' hp => ?_⟩
        rw [hpend] at hp
        obtain ⟨rfl, -⟩ := Prod.mk.inj (List.cons.inj hp).1
        exact hseq
      rw [if_neg hseq] at h
      cases he : exec { st with mOps := st.mOps ++ [(s, false)], mPendingOps := pending } s with
      | none => simp [he] at h
      | some st₁ =>
        simp only [he] at h
        obtain ⟨hs, hend⟩ := OpFinished_shrinks h
        exact ⟨(release_shrinks hexec hpend he).1.trans hs, hend⟩

/-- When all of them wait for `q` nothing is held back after `q` has finished. -/
theorem OpFinished_all {k : ℕ} (hall : ∀ x ∈ st.mPendingOps, x.1.seq = q.seq)
    (h : ClientSM.OpFinished exec q k st = some st') : st'.mPendingOps = [] := by
  obtain ⟨hs, hend⟩ := OpFinished_shrinks hexec h
  cases hpend : st'.mPendingOps with
  | nil => rfl
  | cons x pending =>
    have hmem : x ∈ st.mPendingOps := hs.pending.subset (by rw [hpend]; exact List.mem_cons_self)
    exact absurd (hall x hmem) (hend x.1 x.2 pending hpend)

theorem popDone_shrinks : ∀ {k : ℕ} {st st' : Cs}, ClientSM.popDone exec k st = some st' →
    Shrinks st st' ∧ ∀ x ops, st'.mOps = x :: ops → x.2 = false
  | 0, _, _, h => by cases h
  | k + 1, st, st', h => by
    rw [ClientSM.popDone] at h
    cases hops : st.mOps with
    | nil =>
      simp only [hops, Option.some.injEq] at h
      subst h
      exact ⟨.refl, fun x ops ho => by simp [hops] at ho⟩
    | cons x ops =>
      obtain ⟨q, d⟩ := x
      simp only [hops] at h
      by_cases hd : d = true
      · rw [if_pos hd] at h
        split at h
        · cases h
        · rename_i st₁ ho
          obtain ⟨hs₁, -⟩ := OpFinished_shrinks hexec ho
          obtain ⟨hs₂, hfront⟩ := popDone_shrinks h
          have hpop : Shrinks st { mark st (.response q.id) with mOps := ops } := by
            refine ⟨List.suffix_rfl, ?_⟩
            rw [hops]
            change ops.length + st.mPendingOps.length ≤ ops.length + 1 + st.mPendingOps.length
            omega
          exact ⟨(hpop.trans hs₁).trans hs₂, hfront⟩
      · rw [if_neg hd] at h
        obtain rfl := Option.some.inj h
        refine ⟨.refl, fun x ops' ho => ?_⟩
        rw [hops] at ho
        rw [← (List.cons.inj ho).1]
        exact Bool.not_eq_true _ ▸ hd

theorem popTerminated_shrinks : ∀ {k : ℕ} {st st' : Cs}, ClientSM.popTerminated exec k st = some st' →
    Shrinks st st' ∧ ∀ x ops, st'.mOps = x :: ops → x.2 = false
  | 0, _, _, h => by cases h
  | k + 1, st, st', h => by
    rw [ClientSM.popTerminated] at h
    cases hops : st.mOps with
    | nil =>
      simp only [hops, Option.some.injEq] at h
      subst h
      exact ⟨.refl, fun x ops ho => by simp [hops] at ho⟩
    | cons x ops =>
      obtain ⟨q, d⟩ := x
      simp only [hops] at h
      by_cases hd : d = true
      · rw [if_pos hd] at h
        split at h
        · cases h
        · rename_i st₁ ho
          obtain ⟨hs₁, -⟩ := OpFinished_shrinks hexec ho
          obtain ⟨hs₂, hfront⟩ := popTerminated_shrinks h
          have hpop : Shrinks st₁ { st₁ with mOps := st₁.mOps.tail } := by
            have htail : st₁.mOps.tail.length ≤ st₁.mOps.length := by simp
            exact ⟨List.suffix_rfl, Nat.add_le_add_right htail _⟩
          exact ⟨(hs₁.trans hpop).trans hs₂, hfront⟩
      · rw [if_neg hd] at h
        obtain rfl := Option.some.inj h
        refine ⟨.refl, fun x ops' ho => ?_⟩
        rw [hops] at ho
        rw [← (List.cons.inj ho).1]
        exact Bool.not_eq_true _ ▸ hd

/-- The head of the queue is under way between events. -/
theorem HandleEvent_shrinks (h : ClientSM.HandleEvent exec st id = some st') :
    Shrinks st st' ∧ ((∀ x ops, st.mOps = x :: ops → x.2 = false) → ∀ x ops, st'.mOps = x :: ops → x.2 = false) := by
  have hmark : Shrinks st (ClientSM.markDone st id) := ⟨List.suffix_rfl, by simp [ClientSM.markDone]⟩
  unfold ClientSM.HandleEvent at h
  cases hops : st.mOps with
  | nil => simp [hops] at h
  | cons x ops =>
    obtain ⟨front, d⟩ := x
    simp only [hops] at h
    by_cases ht : st.terminating = true
    · rw [if_pos ht] at h
      by_cases hid : front.id = id
      · rw [if_pos hid] at h
        obtain ⟨hs, hfront⟩ := popTerminated_shrinks hexec h
        exact ⟨hmark.trans hs, fun _ => hfront⟩
      · rw [if_neg hid] at h
        obtain rfl := Option.some.inj h
        refine ⟨hmark, fun hf x ops' ho => ?_⟩
        have ho' : (ClientSM.markDone st id).mOps =
          (front, d) :: (ops.map fun q => if q.1.id = id then (q.1, true) else q) := by
          simp [ClientSM.markDone, hops, hid]
        rw [ho'] at ho
        rw [← (List.cons.inj ho).1]
        exact hf _ _ rfl
    · rw [if_neg ht] at h
      obtain ⟨hs, hfront⟩ := popDone_shrinks hexec h
      exact ⟨hmark.trans hs, fun _ => hfront⟩

end Loops

theorem execute_shrinks : ∀ {n : ℕ} {st st' : Cs} {s : KfsOp}, ClientSM.execute now n st s = some st' →
    Shrinks st st'
  | 0, _, _, _, h => by cases h
  | n + 1, st, st', s, h => by
    unfold ClientSM.execute at h
    dsimp only at h
    split_ifs at h
    · have hs := (HandleEvent_shrinks execute_shrinks h).1
      exact ⟨hs.pending, hs.size⟩
    · exact Option.some.inj h ▸ ⟨List.suffix_rfl, le_rfl⟩

/-! ## The loops come to an end -/

section Total

variable {exec : Cs → KfsOp → Option Cs} {n : ℕ}
  (hshrink : ∀ {st st' : Cs} {s : KfsOp}, exec st s = some st' → Shrinks st st')
  (hexec : ∀ (st : Cs) (s : KfsOp), st.mPendingOps.length < n → st.mOps ≠ [] → ∃ st', exec st s = some st')

include hshrink hexec

theorem OpFinished_total (q : KfsOp) : ∀ (k : ℕ) (st : Cs), st.mPendingOps.length ≤ n → st.mPendingOps.length < k →
    ∃ st', ClientSM.OpFinished exec q k st = some st'
  | 0, _, _, hk => absurd hk (Nat.not_lt_zero _)
  | k + 1, st, hn, hk => by
    rw [ClientSM.OpFinished]
    cases hpend : st.mPendingOps with
    | nil => exact ⟨st, rfl⟩
    | cons pair pending =>
      obtain ⟨w, s⟩ := pair
      by_cases hseq : w.seq ≠ q.seq
      · simp [hseq]
      · rw [hpend, List.length_cons] at hn hk
        have hlt : pending.length < n := by omega
        obtain ⟨st₁, he⟩ := hexec { st with mOps := st.mOps ++ [(s, false)], mPendingOps := pending } s hlt (by simp)
        have hlen := (release_shrinks hshrink hpend he).2.length_le
        obtain ⟨st', h'⟩ := OpFinished_total q k st₁ (by omega) (by omega)
        exact ⟨st', by simp [hseq, he, h']⟩

theorem popDone_total : ∀ (k : ℕ) (st : Cs), st.mPendingOps.length ≤ n →
    st.mOps.length + st.mPendingOps.length < k → ∃ st', ClientSM.popDone exec k st = some st'
  | 0, _, _, hk => absurd hk (Nat.not_lt_zero _)
  | k + 1, st, hn, hk => by
    rw [ClientSM.popDone]
    cases hops : st.mOps with
    | nil => exact ⟨st, rfl⟩
    | cons x ops =>
      obtain ⟨q, d⟩ := x
      by_cases hd : d = true
      · obtain ⟨st₁, ho⟩ := OpFinished_total hshrink hexec q (st.mPendingOps.length + 1)
          { mark st (.response q.id) with mOps := ops } hn (Nat.lt_succ_self _)
        obtain ⟨hs, -⟩ := OpFinished_shrinks hshrink ho
        have hlen : st₁.mPendingOps.length ≤ st.mPendingOps.length := hs.pending.length_le
        have hsize : st₁.mOps.length + st₁.mPendingOps.length ≤ ops.length + st.mPendingOps.length := hs.size
        rw [hops, List.length_cons] at hk
        obtain ⟨st', h'⟩ := popDone_total k st₁ (by omega) (by omega)
        exact ⟨st', by simp only [hd, if_true, ho, h']⟩
      · exact ⟨st, by simp only [hd]; rfl⟩

theorem popTerminated_total : ∀ (k : ℕ) (st : Cs), st.mPendingOps.length ≤ n →
    st.mOps.length + st.mPendingOps.length < k → ∃ st', ClientSM.popTerminated exec k st = some st'
  | 0, _, _, hk => absurd hk (Nat.not_lt_zero _)
  | k + 1, st, hn, hk => by
    rw [ClientSM.popTerminated]
    cases hops : st.mOps with
    | nil => exact ⟨st, rfl⟩
    | cons x ops =>
      obtain ⟨q, d⟩ := x
      by_cases hd : d = true
      · obtain ⟨st₁, ho⟩ := OpFinished_total hshrink hexec q (st.mPendingOps.length + 1) st hn (Nat.lt_succ_self _)
        obtain ⟨hs, -⟩ := OpFinished_shrinks hshrink ho
        have hlen : st₁.mPendingOps.length ≤ st.mPendingOps.length := hs.pending.length_le
        have hsize : st₁.mOps.length + st₁.mPendingOps.length ≤ st.mOps.length + st.mPendingOps.length := hs.size
        have htail : st₁.mOps.tail.length = st₁.mOps.length - 1 := List.length_tail
        rw [hops, List.length_cons] at hk hsize
        have hk₁ : st₁.mOps.tail.length + st₁.mPendingOps.length < k := by omega
        obtain ⟨st', h'⟩ := popTerminated_total k { st₁ with mOps := st₁.mOps.tail } (hlen.trans hn) hk₁
        exact ⟨st', by simp only [hd, if_true, ho, h']⟩
      · exact ⟨st, by simp only [hd]; rfl⟩

theorem HandleEvent_total (hn : st.mPendingOps.length ≤ n) (hne : st.mOps ≠ []) :
    ∃ st', ClientSM.HandleEvent exec st id = some st' := by
  have hlen : (ClientSM.markDone st id).mOps.length = st.mOps.length := by simp [ClientSM.markDone]
  have hk : (ClientSM.markDone st id).mOps.length + (ClientSM.markDone st id).mPendingOps.length <
      st.mOps.length + st.mPendingOps.length + 1 := by
    rw [hlen]
    exact Nat.lt_succ_self _
  obtain ⟨st₁, h₁⟩ := popTerminated_total hshrink hexec _ (ClientSM.markDone st id) hn hk
  obtain ⟨st₂, h₂⟩ := popDone_total hshrink hexec _ (ClientSM.markDone st id) hn hk
  unfold ClientSM.HandleEvent
  cases hops : st.mOps with
  | nil => exact absurd hops hne
  | cons x ops =>
    obtain ⟨front, d⟩ := x
    rw [hops] at h₁ h₂
    dsimp only
    split_ifs
    · exact ⟨st₁, h₁⟩
    · exact ⟨_, rfl⟩
    · exact ⟨st₂, h₂⟩

end Total

theorem execute_total : ∀ (n : ℕ) (st : Cs) (s : KfsOp), st.mPendingOps.length < n → st.mOps ≠ [] →
    ∃ st', ClientSM.execute now n st s = some st'
  | 0, _, _, hn, _ => absurd hn (Nat.not_lt_zero _)
  | n + 1, st, s, hn, hne => by
    unfold ClientSM.execute
    dsimp only
    split_ifs
    · exact HandleEvent_total execute_shrinks (execute_total n) (Nat.le_of_lt_succ hn) hne
    · exact ⟨_, rfl⟩

/-! ## References -/

/-- A connection at rest: everything that is held back waits for an operation of the queue. -/
structure Rest (st : Cs) : Prop where
  gate : Gate st
  gated : Gated st
  spread : Spread st.mPendingOps
  refs : Refs st

section References

variable {n : ℕ}
  (ih : ∀ {st st' : Cs} {s : KfsOp}, Rest st → Due st s → ClientSM.execute now n st s = some st' → Refs st')

/-- What the gate says of an execution. -/
theorem execute_due (hg : Gate st) (hx : Gated st) (hdue : Due st s) (h : ClientSM.execute now n st s = some st') :
    Gate st' ∧ Gated st' ∧ Later st st' ∧ Firm st st' := by
  obtain ⟨hg', hx', hl, hf⟩ := execute_gate hg hx hdue.received (fun _ => hdue.prepares) h
  exact ⟨hg', hx', hl, hf hdue.front⟩

/-- The first sync that is held back is submitted, the others wait for operations of the queue. -/
theorem Rest.release {pending : List (KfsOp × KfsOp)} (hg : Gate st) (hx : Gated st) (hs : Spread st.mPendingOps)
    (hrefs : ∀ x ∈ pending, x.1 ∈ st.ops) (hp : Past q st) (hpend : st.mPendingOps = (w, s) :: pending)
    (hseq : w.seq = q.seq) (hfront : st.terminating = true → st.ops ≠ []) :
    Rest { st with mOps := st.mOps ++ [(s, false)], mPendingOps := pending } ∧
      Due { st with mOps := st.mOps ++ [(s, false)], mPendingOps := pending } s := by
  obtain ⟨hg₁, hdue⟩ := hg.due hp hpend hseq hfront
  rw [hpend] at hs
  refine ⟨⟨hg₁, hx, hs.tail, fun x hx => ?_⟩, hdue⟩
  rw [Cs.ops, List.map_append]
  exact List.mem_append_left _ (hrefs x hx)

include ih

theorem OpFinished_refs : ∀ {k : ℕ} {st st' : Cs}, Rest st → Past q st → (st.terminating = true → st.ops ≠ []) →
    ClientSM.OpFinished (ClientSM.execute now n) q k st = some st' → Rest st' ∧ Later st st' ∧ Firm st st'
  | 0, _, _, _, _, _, h => by cases h
  | k + 1, st, st', hr, hp, hfront, h => by
    rw [ClientSM.OpFinished] at h
    cases hpend : st.mPendingOps with
    | nil =>
      simp only [hpend, Option.some.injEq] at h
      exact h ▸ ⟨hr, .refl, .refl⟩
    | cons pair pending =>
      obtain ⟨w, s⟩ := pair
      simp only [hpend] at h
      by_cases hseq : w.seq ≠ q.seq
      · rw [if_pos hseq] at h
        exact Option.some.inj h ▸ ⟨hr, .refl, .refl⟩
      rw [if_neg hseq] at h
      have hrefs : ∀ x ∈ pending, x.1 ∈ st.ops := fun x hx => hr.refs x (by rw [hpend]; exact List.mem_cons_of_mem _ hx)
      obtain ⟨hr₁, hdue⟩ := Rest.release hr.gate hr.gated hr.spread hrefs hp hpend (not_not.mp hseq) hfront
      cases he : ClientSM.execute now n { st with mOps := st.mOps ++ [(s, false)], mPendingOps := pending } s with
      | none => simp [he] at h
      | some st₁ =>
        simp only [he] at h
        obtain ⟨hg₁, hx₁, hl₁, hf₁⟩ := execute_due hr₁.gate hr₁.gated hdue he
        have hs₁ : Spread st₁.mPendingOps := hr₁.spread.suffix (execute_shrinks he).pending
        have hpush : Later st { st with mOps := st.mOps ++ [(s, false)], mPendingOps := pending } ∧
            Firm st { st with mOps := st.mOps ++ [(s, false)], mPendingOps := pending } := Later.release hdue.isSync
        have hl := hpush.1.trans hl₁
        have hf := hpush.2.trans hpush.1 hf₁
        obtain ⟨hr₂, hl₂, hf₂⟩ :=
          OpFinished_refs ⟨hg₁, hx₁, hs₁, ih hr₁ hdue he⟩ (hp.later hl) (hf.nonempty hl hfront) h
        exact ⟨hr₂, hl.trans hl₂, hf.trans hl hf₂⟩

/-- The loop for an operation that has just left the queue: what still waits for it is submitted. -/
theorem OpFinished_left {k : ℕ} (hg : Gate st) (hx : Gated st) (hs : Spread st.mPendingOps) (hp : Past q st)
    (ht : st.terminating = false)
    (hrefs : ∀ x ∈ st.mPendingOps, x.1 ∈ st.ops ∨ (x.1 = q ∧ ∃ s pending, st.mPendingOps = (q, s) :: pending))
    (h : ClientSM.OpFinished (ClientSM.execute now n) q k st = some st') : Rest st' ∧ Later st st' := by
  have hfront : st.terminating = true → st.ops ≠ [] := fun h => by
    rw [ht] at h
    cases h
  by_cases hq : ∀ x ∈ st.mPendingOps, x.1 ∈ st.ops
  · obtain ⟨hr, hl, -⟩ := OpFinished_refs ih ⟨hg, hx, hs, hq⟩ hp hfront h
    exact ⟨hr, hl⟩
  · push Not at hq
    obtain ⟨x, hxp, hxo⟩ := hq
    obtain ⟨hxq, s, pending, hpend⟩ := (hrefs x hxp).resolve_left hxo
    have hqm : (q, s) ∈ st.mPendingOps := by rw [hpend]; exact List.mem_cons_self
    have htail : ∀ {y}, y ∈ pending → y ∈ st.mPendingOps := fun hy => by rw [hpend]; exact List.mem_cons_of_mem _ hy
    have hs' := hs
    rw [hpend] at hs'
    rcases hs' with hsame | ⟨hgt, -⟩
    · -- everything waits for `q`
      have hall : ∀ y ∈ st.mPendingOps, y.1.seq = q.seq := by
        intro y hy
        have hid : y.1.id = q.id := by
          rw [hpend] at hy
          rcases List.mem_cons.mp hy with rfl | hy
          · rfl
          · exact hsame y hy
        rw [hg.eq_of_id (hg.held y hy).1.1 hp.received hid]
      have hnil := OpFinished_all execute_shrinks hall h
      obtain ⟨hg', hx', hl, -⟩ := OpFinished_gate (fun _ _ hx => hx) execute_due hg hx hp hfront h
      exact ⟨⟨hg', hx', by rw [hnil]; trivial, fun y hy => by simp [hnil] at hy⟩, hl⟩
    · -- only the first sync waits for `q`
      have hrest : ∀ y ∈ pending, y.1 ∈ st.ops := fun y hy =>
        (hrefs y (htail hy)).resolve_right fun he => absurd (congrArg KfsOp.id he.1) (hgt y hy).ne'
      cases k with
      | zero => cases h
      | succ k =>
        rw [ClientSM.OpFinished] at h
        simp only [hpend, ne_eq, not_true_eq_false, if_false] at h
        obtain ⟨hr₁, hdue⟩ := Rest.release hg hx hs hrest hp hpend rfl hfront
        obtain ⟨hl₁, -⟩ : Later st { st with mOps := st.mOps ++ [(s, false)], mPendingOps := pending } ∧
            Firm st { st with mOps := st.mOps ++ [(s, false)], mPendingOps := pending } := Later.release hdue.isSync
        cases he : ClientSM.execute now n { st with mOps := st.mOps ++ [(s, false)], mPendingOps := pending } s with
        | none => simp [he] at h
        | some st₁ =>
          simp only [he] at h
          obtain ⟨hg₂, hx₂, hl₂, -⟩ := execute_due hr₁.gate hr₁.gated hdue he
          have hs₂ : Spread st₁.mPendingOps := hr₁.spread.suffix (execute_shrinks he).pending
          have hl := hl₁.trans hl₂
          have hfront₂ : st₁.terminating = true → st₁.ops ≠ [] := fun h => by
            rw [hl.terminating, ht] at h
            cases h
          obtain ⟨hr₃, hl₃, -⟩ := OpFinished_refs ih ⟨hg₂, hx₂, hs₂, ih hr₁ hdue he⟩ (hp.later hl) hfront₂ h
          exact ⟨hr₃, hl.trans hl₃⟩

theorem popDone_refs : ∀ {k : ℕ} {st st' : Cs}, Rest st → st.terminating = false →
    ClientSM.popDone (ClientSM.execute now n) k st = some st' → Rest st'
  | 0, _, _, _, _, h => by cases h
  | k + 1, st, st', hr, ht, h => by
    rw [ClientSM.popDone] at h
    cases hops : st.mOps with
    | nil =>
      simp only [hops, Option.some.injEq] at h
      exact h ▸ hr
    | cons x ops =>
      obtain ⟨q, d⟩ := x
      simp only [hops] at h
      by_cases hd : d = true
      · rw [if_pos hd] at h
        have hcons : st.ops = q :: ops.map Prod.fst := by simp [Cs.ops, hops]
        have hc : st.completed q.id := hr.gate.done (q, d) (by rw [hops]; exact List.mem_cons_self) hd
        obtain ⟨hg₁, hp₁⟩ := (hr.gate.mark (m := .response q.id)).pop hops (List.mem_cons_of_mem _ hc)
        have hx₁ : Gated { mark st (.response q.id) with mOps := ops } := hr.gated.mark fun _ => by simp
        have hrefs : ∀ x ∈ st.mPendingOps, x.1 ∈ ops.map Prod.fst ∨
            (x.1 = q ∧ ∃ s pending, st.mPendingOps = (q, s) :: pending) := by
          intro x hx
          have hxo := hr.refs x hx
          rw [hcons] at hxo
          rcases List.mem_cons.mp hxo with he | hxo
          · exact .inr ⟨he, hr.refs.first hr.gate hr.spread hcons hx he⟩
          · exact .inl hxo
        split at h
        · cases h
        · rename_i st₁ ho
          obtain ⟨hr₁, hl₁⟩ := OpFinished_left ih hg₁ hx₁ hr.spread hp₁ ht hrefs ho
          exact popDone_refs hr₁ (hl₁.terminating.trans ht) h
      · rw [if_neg hd] at h
        exact Option.some.inj h ▸ hr

theorem popTerminated_refs : ∀ {k : ℕ} {st st' : Cs}, Rest st → st.terminating = true →
    ClientSM.popTerminated (ClientSM.execute now n) k st = some st' → Rest st'
  | 0, _, _, _, _, h => by cases h
  | k + 1, st, st', hr, ht, h => by
    rw [ClientSM.popTerminated] at h
    cases hops : st.mOps with
    | nil =>
      simp only [hops, Option.some.injEq] at h
      exact h ▸ hr
    | cons x ops =>
      obtain ⟨q, d⟩ := x
      simp only [hops] at h
      by_cases hd : d = true
      · rw [if_pos hd] at h
        have hcons : st.ops = q :: ops.map Prod.fst := by simp [Cs.ops, hops]
        have hp := hr.gate.past hops hd
        split at h
        · cases h
        · rename_i st₁ ho
          obtain ⟨hr₁, hl₁, hf₁⟩ := OpFinished_refs ih hr hp (fun _ => by simp [hcons]) ho
          obtain ⟨d', rest, hops₁⟩ := hf₁.head ht hcons
          have hcons₁ : st₁.ops = q :: rest.map Prod.fst := by simp [Cs.ops, hops₁]
          obtain ⟨hg₂, -⟩ := hr₁.gate.pop hops₁ (hl₁.completed _ hp.completed)
          rw [hops₁, List.tail_cons] at h
          have hr₂ : Rest { st₁ with mOps := rest } := by
            refine ⟨hg₂, hr₁.gated, hr₁.spread, fun x hx => ?_⟩
            have hxo := hr₁.refs x hx
            rw [hcons₁] at hxo
            refine (List.mem_cons.mp hxo).resolve_left fun he => ?_
            -- the loop has submitted everything that waited for `q`
            obtain ⟨s, pending, hpend⟩ := hr₁.refs.first hr₁.gate hr₁.spread hcons₁ hx he
            exact (OpFinished_shrinks execute_shrinks ho).2 q s pending hpend rfl
          exact popTerminated_refs hr₂ (hl₁.terminating.trans ht) h
      · rw [if_neg hd] at h
        exact Option.some.inj h ▸ hr

theorem HandleEvent_refs (hr : Rest st) (hc : st.completed id)
    (h : ClientSM.HandleEvent (ClientSM.execute now n) st id = some st') : Rest st' := by
  have hmark : Rest (ClientSM.markDone st id) :=
    ⟨hr.gate.markDone hc, hr.gated, hr.spread, fun x hx => by
      rw [markDone_ops]
      exact hr.refs x hx⟩
  unfold ClientSM.HandleEvent at h
  split at h
  · cases h
  · dsimp only at h
    split_ifs at h with ht hid
    · exact popTerminated_refs ih hmark ht h
    · exact Option.some.inj h ▸ hmark
    · exact popDone_refs ih hmark (Bool.not_eq_true _ ▸ ht) h

end References

/-- Whatever completes while an operation is being submitted, what is held back waits for operations of the queue. -/
theorem execute_rest : ∀ {n : ℕ} {st st' : Cs} {op : KfsOp}, Rest st → op ∈ st.received →
    (op.cmd.isSync = true → ∀ p ∈ st.received, p.cmd.isPrepare = true → p.id < op.id → st.completed p.id) →
    ClientSM.execute now n st op = some st' → Rest st'
  | 0, _, _, _, _, _, _, h => by cases h
  | n + 1, st, st', op, hr, hop, hprep, h => by
    obtain ⟨hg', hx', -, -⟩ := execute_gate hr.gate hr.gated hop hprep h
    have hs' := hr.spread.suffix (execute_shrinks h).pending
    refine ⟨hg', hx', hs', ?_⟩
    have hx₁ : Gated (mark st (.submitted op.id)) := by
      have hone : ClientSM.execute (fun _ => false) 1 st op = some (mark st (.submitted op.id)) := rfl
      exact (execute_gate hr.gate hr.gated hop hprep hone).2.1
    unfold ClientSM.execute at h
    dsimp only at h
    split_ifs at h
    · have hr₁ : Rest (mark (mark st (.submitted op.id)) (.completed op.id)) :=
        ⟨hr.gate.mark.mark, hx₁.mark fun _ => by simp, hr.spread, hr.refs⟩
      refine (HandleEvent_refs (fun hr hdue h => ?_) hr₁ List.mem_cons_self h).refs
      exact (execute_rest hr hdue.received (fun _ => hdue.prepares) h).refs
    · exact Option.some.inj h ▸ hr.refs

/-! ## The steps -/

/-- Sequence numbers are distinct, and a sync is not held back for a prepare while two syncs are held back for
another one. -/
def Spaced (st : Cs) (ev : ClientSM.Event) : Bool :=
  match ev with
  | .recv seq cmd => st.terminating || ((st.received.all fun a => a.seq ≠ seq) && (!cmd.isSync ||
      match lastWrite st.mOps with
      | none => true
      | some w => st.mPendingOps.all fun x => x.1.id = w.id || st.mPendingOps.countP (fun y => y.1.id = x.1.id) = 1))
  | _ => true

/-- What holds of a connection between events. -/
structure Orderly (st : Cs) : Prop where
  rest : Rest st
  tally : Tally [] [] st
  front : ∀ x ops, st.mOps = x :: ops → x.2 = false

/-- An operation that is executed when it comes in. -/
theorem execute_orderly {n : ℕ} (hr : Rest st) (ht : Tally [op.id] [] st) (hop : op ∈ st.received)
    (hprep : op.cmd.isSync = true → ∀ p ∈ st.received, p.cmd.isPrepare = true → p.id < op.id → st.completed p.id)
    (hfront : ∀ x ops, st.mOps = x :: ops → x.2 = false) (h : ClientSM.execute now n st op = some st') :
    Orderly st' := by
  refine ⟨execute_rest hr hop hprep h, execute_tally ht hop h, ?_⟩
  cases n with
  | zero => cases h
  | succ n =>
    unfold ClientSM.execute at h
    dsimp only at h
    split_ifs at h
    · exact (HandleEvent_shrinks execute_shrinks h).2 hfront
    · exact Option.some.inj h ▸ hfront

theorem HandleClientCmd_orderly {seq : ℤ} {cmd : Cmd} (h0 : Orderly st) (hterm : st.terminating = false)
    (hs : Spaced st (.recv seq cmd) = true) {n : ℕ}
    (h : ClientSM.HandleClientCmd (ClientSM.execute now n) st seq cmd = some st') : Orderly st' := by
  obtain ⟨hr, ht, hfront⟩ := h0
  have hg := hr.gate
  simp only [Spaced, hterm, Bool.false_or, Bool.and_eq_true, List.all_eq_true, decide_eq_true_eq] at hs
  obtain ⟨hseq, hspace⟩ := hs
  have hgated : Gated (st.receive ⟨st.nextOp, seq, true, cmd⟩) := by
    intro s hs hsync l hl p hp hpp hlt
    obtain ⟨a, ha, hid⟩ := ht.known s.id (.inl (hl.subset List.mem_cons_self))
    have hlt' := hg.fresh a ha
    have hold : ∀ {x}, x ∈ (st.receive ⟨st.nextOp, seq, true, cmd⟩).received → x.id < st.nextOp → x ∈ st.received := by
      intro x hx hxid
      rcases List.mem_cons.mp hx with rfl | hx
      · exact absurd hxid (lt_irrefl _)
      · exact hx
    exact hr.gated s (hold hs (hid ▸ hlt')) hsync l hl p (hold hp (hlt.trans (hid ▸ hlt'))) hpp hlt
  unfold ClientSM.HandleClientCmd at h
  dsimp only at h
  split at h
  · rename_i w hw
    obtain rfl := Option.some.inj h
    have hsync : cmd.isSync = true := by
      by_contra hn
      simp [hn] at hw
    rw [if_pos hsync] at hw
    simp only [hsync, Bool.not_true, Bool.false_or, hw, List.all_eq_true, Bool.or_eq_true, decide_eq_true_eq] at hspace
    obtain ⟨hwm, -, hle⟩ := lastWrite_some hw hg.order
    have hpend : ∀ x ∈ st.mPendingOps, x.1.id ≤ w.id := fun x hx => hle x.1 (hr.refs x hx) (hg.held x hx).1.2
    refine ⟨⟨hg.hold rfl hseq hsync hw, ?_, hr.spread.snoc hpend hspace, fun x hx => ?_⟩, ht.hold hg rfl, hfront⟩
    · exact hgated.mark fun _ => by simp
    · rcases List.mem_append.mp hx with hx | hx
      · exact hr.refs x hx
      · rw [List.mem_singleton.mp hx]
        exact hwm
  · rename_i hw
    have hid : (⟨st.nextOp, seq, true, cmd⟩ : KfsOp).id = st.nextOp := rfl
    obtain ⟨hg', hdue⟩ := hg.push hid hseq hterm
    refine execute_orderly ⟨hg', hgated, hr.spread, fun x hx => ?_⟩ (ht.push hg rfl) List.mem_cons_self
      (fun hsync => ?_) (fun x ops hops => ?_) h
    · rw [Cs.ops, List.map_append]
      exact List.mem_append_left _ (hr.refs x hx)
    · rw [if_pos hsync] at hw
      exact (hdue hsync hw).prepares
    · cases hm : st.mOps with
      | nil =>
        simp only [hm, List.nil_append, List.cons.injEq] at hops
        rw [← hops.1]
      | cons y rest =>
        simp only [hm, List.cons_append, List.cons.injEq] at hops
        exact hops.1 ▸ hfront y rest hm

/-- **One event keeps a connection orderly.** -/
theorem step_orderly {ev : ClientSM.Event} (h0 : Orderly st) (hs : Spaced st ev = true)
    (h : ClientSM.step now st ev = some st') : Orderly st' := by
  unfold ClientSM.step at h
  cases ev with
  | recv seq cmd =>
    dsimp only at h
    split_ifs at h with hterm
    · exact Option.some.inj h ▸ h0
    · exact HandleClientCmd_orderly h0 (Bool.not_eq_true _ ▸ hterm) hs h
  | done id =>
    dsimp only at h
    split_ifs at h with hid
    · obtain ⟨x, hx, hxe⟩ := List.mem_map.mp hid
      obtain ⟨hxid, -⟩ := Prod.mk.inj hxe
      have hxo : x.1 ∈ st.ops := List.mem_map.mpr ⟨x, hx, rfl⟩
      have hsub : .submitted id ∈ st.trace := by
        have hone := h0.tally.submitted x.1 (h0.tally.queued x.1 hxo)
        have hresp := h0.tally.responses x.1.id
        have hpos : 0 < (st.ops.map KfsOp.id).count x.1.id :=
          List.count_pos_iff.mpr (List.mem_map.mpr ⟨x.1, hxo, rfl⟩)
        rw [List.count_nil] at hone
        rw [← hxid]
        exact List.count_pos_iff.mp (by omega)
      have hr : Rest (mark st (.completed id)) :=
        ⟨h0.rest.gate.mark, h0.rest.gated.mark fun _ => by simp, h0.rest.spread, h0.rest.refs⟩
      refine ⟨HandleEvent_refs (fun hr hdue h => ?_) hr List.mem_cons_self h,
        HandleEvent_tally execute_tally (h0.tally.completed hsub) h, (HandleEvent_shrinks execute_shrinks h).2 h0.front⟩
      exact (execute_rest hr hdue.received (fun _ => hdue.prepares) h).refs
    · exact Option.some.inj h ▸ h0
  | netError =>
    obtain rfl := Option.some.inj h
    obtain ⟨⟨hg, hgated, hspread, hrefs⟩, ht, hfront⟩ := h0
    exact ⟨⟨⟨hg.ids, hg.fresh, hg.seqs, hg.queued, hg.held, hg.nodup, hg.order, hg.done, hg.answered, hg.behind⟩,
      hgated,
      hspread, hrefs⟩, ⟨ht.queued, ht.waiting, ht.submitted, ht.responses, ht.sorted, ht.held, ht.first, ht.arrival,
      ht.known, ht.started, ht.live⟩, hfront⟩

/-- **No assertion of the connection fails**, whatever happens next. -/
theorem step_total (ev : ClientSM.Event) : ∃ st', ClientSM.step now st ev = some st' := by
  unfold ClientSM.step
  cases ev with
  | recv seq cmd =>
    dsimp only
    split_ifs
    · exact ⟨_, rfl⟩
    · unfold ClientSM.HandleClientCmd
      dsimp only
      split
      · exact ⟨_, rfl⟩
      · exact execute_total _ _ _ (Nat.lt_succ_self _) (by simp)
  | done id =>
    dsimp only
    split_ifs with hid
    · refine HandleEvent_total execute_shrinks (execute_total _) (Nat.le_succ _) fun hnil => ?_
      rw [show st.mOps = [] from hnil] at hid
      cases hid
    · exact ⟨_, rfl⟩
  | netError => exact ⟨_, rfl⟩

theorem start_orderly (h : Start st) : Orderly st := by
  have hops : st.ops = [] := by rw [Cs.ops, h.mOps, List.map_nil]
  refine ⟨⟨⟨?_, ?_, ?_, ?_, ?_, ?_, ?_, ?_, ?_, ?_⟩, ?_, ?_, ?_⟩, ⟨?_, ?_, ?_, ?_, ?_, ?_, ?_, ?_, ?_, ?_, ?_⟩, ?_⟩
  all_goals
    simp [Gated, Spread, Refs, Cs.heldIds, hops, h.mOps, h.mPendingOps, h.received, h.trace]

/-- What clients rely on. -/
structure InOrder (st : Cs) : Prop where
  /-- A sync is submitted after the prepares before it have completed. -/
  gate : ∀ s ∈ st.received, s.cmd.isSync = true → ∀ l, .submitted s.id :: l <:+ st.trace →
    ∀ p ∈ st.received, p.cmd.isPrepare = true → p.id < s.id → .completed p.id ∈ l
  /-- Every operation has been submitted once, or is held back. -/
  once : ∀ op ∈ st.received, st.trace.count (.submitted op.id) + st.heldIds.count op.id = 1
  /-- Nothing is held back when everything that has been submitted has completed. -/
  released : (∀ op ∈ st.received, .submitted op.id ∈ st.trace → .completed op.id ∈ st.trace) → st.mPendingOps = []
  /-- What has been held back is submitted in its order. -/
  arrival : ∀ id l, .submitted id :: l <:+ st.trace → .held id ∈ l → ∀ id', .held id' ∈ l → id' < id →
    .submitted id' ∈ l
  responses : ∀ id, st.trace.count (.response id) ≤ 1
  /-- What is held back waits for an operation of the queue. -/
  references : ∀ x ∈ st.mPendingOps, x.1 ∈ st.ops

theorem Orderly.inOrder (h : Orderly st) : InOrder st where
  gate := h.rest.gated
  once op hop := by
    have hs := h.tally.submitted op hop
    rwa [List.count_nil, Nat.add_zero] at hs
  released hall := by
    have hnil : st.mOps = [] := by
      cases hops : st.mOps with
      | nil => rfl
      | cons x ops =>
        -- the head of the queue has been submitted and has not completed
        have hx : x ∈ st.mOps := by rw [hops]; exact List.mem_cons_self
        have hxo : x.1 ∈ st.ops := List.mem_map.mpr ⟨x, hx, rfl⟩
        have hsub : .submitted x.1.id ∈ st.trace := by
          have hone := h.tally.submitted x.1 (h.tally.queued x.1 hxo)
          have hresp := h.tally.responses x.1.id
          have hpos : 0 < (st.ops.map KfsOp.id).count x.1.id :=
            List.count_pos_iff.mpr (List.mem_map.mpr ⟨x.1, hxo, rfl⟩)
          rw [List.count_nil] at hone
          exact List.count_pos_iff.mp (by omega)
        have hlive := h.tally.live x hx (by simp) (hall x.1 (h.tally.queued x.1 hxo) hsub)
        rw [h.front x ops hops] at hlive
        cases hlive
    cases hpend : st.mPendingOps with
    | nil => rfl
    | cons x pending =>
      have hx := h.rest.refs x (by rw [hpend]; exact List.mem_cons_self)
      rw [Cs.ops, hnil] at hx
      cases hx
  arrival := h.tally.arrival
  responses id := by
    have hr := h.tally.responses id
    omega
  references := h.rest.refs

/-- **Syncs are executed in order, each operation once**, and no assertion fails. -/
theorem run_inOrder {es : List ClientSM.Event} (h0 : Start st) (h : ClientSM.run Spaced now es st = some st') :
    InOrder st' ∧ ∀ ev, ∃ st'', ClientSM.step now st' ev = some st'' :=
  ⟨(ClientSM.run_invariant (P := Orderly) step_orderly (start_orderly h0) h).inOrder, step_total⟩

/-- A prepare of one byte. -/
def somePrepare : Cmd := .writePrepare ⟨7, 0, 1, [(true, 1)], 0, [[0]], 0, false, 0⟩

def someSync : Cmd := .writeSync ⟨7, [(true, 1)], 0, false, 0⟩

/-- A prepare, its sync, and both complete. -/
theorem run_inOrder_sync : ∃ st', ClientSM.run Spaced (fun _ => false)
    [.recv 1 somePrepare, .recv 2 someSync, .done 0, .done 1] (Cs.idle 0) = some st' ∧ InOrder st' := by
  have hrun : (ClientSM.run Spaced (fun _ => false) [.recv 1 somePrepare, .recv 2 someSync, .done 0, .done 1]
      (Cs.idle 0)).isSome = true := by decide +kernel
  obtain ⟨st', h⟩ := Option.isSome_iff_exists.mp hrun
  exact ⟨st', h, (run_inOrder Cs.idle_start h).1⟩

/-- Two syncs are held back for a prepare and one for the prepare after it, which completes first. The first sync
completes while it is being submitted; that takes the second prepare out of the queue while the second sync is still
held back, and nothing submits the third. -/
theorem sync_lost : ∃ st', ClientSM.run (fun _ _ => true) (fun id => id = 1)
    [.recv 1 somePrepare, .recv 2 someSync, .recv 3 someSync, .recv 4 somePrepare, .recv 5 someSync, .done 3, .done 0,
      .done 2] (Cs.idle 0) = some st' ∧ ¬ InOrder st' := by
  have hrun : (ClientSM.run (fun _ _ => true) (fun id => id = 1)
      [.recv 1 somePrepare, .recv 2 someSync, .recv 3 someSync, .recv 4 somePrepare, .recv 5 someSync, .done 3,
        .done 0, .done 2] (Cs.idle 0)).map (fun st => (st.received.map KfsOp.id, st.heldIds, st.trace)) =
      some ([4, 3, 2, 1, 0], [4], [.response 2, .completed 2, .submitted 2, .response 1, .response 3, .completed 1,
        .submitted 1, .response 0, .completed 0, .completed 3, .held 4, .submitted 3, .held 2, .held 1,
        .submitted 0]) := by decide +kernel
  obtain ⟨st', h, he⟩ := Option.map_eq_some_iff.mp hrun
  obtain ⟨hrecv, hheld, htrace⟩ := by simpa only [Prod.mk.injEq] using he
  refine ⟨st', h, fun hin => ?_⟩
  have hnil := hin.released fun op hop hsub => by
    have hid : op.id ∈ [4, 3, 2, 1, 0] := hrecv ▸ List.mem_map_of_mem hop
    rw [htrace] at hsub ⊢
    revert hsub
    generalize op.id = id at hid ⊢
    revert id
    decide
  simp [Cs.heldIds, hnil] at hheld

end Kfs.Chunk
