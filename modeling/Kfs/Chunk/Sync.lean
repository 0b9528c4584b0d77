import Kfs.Chunk.Gate

/-!
# A connection by itself

Operations come in, are submitted, and complete in any order, some of them while they are being submitted.

* `ClientSM.execute`, `ClientSM.step`, `ClientSM.run`: the connection, over a server that may do anything;
* `Tally`: what the trace says about the operations;
* **`execute_tally`**, `HandleEvent_tally`: each operation is submitted once and answered at most once, and the syncs
  that are held back are submitted in their order.
-/

namespace Kfs.Chunk

open ChunkManager

namespace ClientSM

/-- An operation is executed; `now` are the operations that complete at once. -/
def execute (now : ℕ → Bool) : ℕ → Cs → KfsOp → Option Cs
  | 0, _, _ => none
  | n + 1, st, op =>
    let st := mark st (.submitted op.id)
    if now op.id then HandleEvent (execute now n) (mark st (.completed op.id)) op.id else some st

/-- A command comes in, an operation that is under way completes, or the connection breaks. -/
inductive Event
  | recv (seq : ℤ) (cmd : Cmd)
  | done (id : ℕ)
  | netError

def step (now : ℕ → Bool) (st : Cs) (ev : Event) : Option Cs :=
  match ev with
  | .recv seq cmd =>
    if st.terminating then some st else HandleClientCmd (execute now (st.mPendingOps.length + 1)) st seq cmd
  | .done id =>
    if (id, false) ∈ st.mOps.map fun x => (x.1.id, x.2) then
      HandleEvent (execute now (st.mPendingOps.length + 1)) (mark st (.completed id)) id
    else some st
  | .netError => some { st with terminating := true }

/-- A run in which `C` holds of every step. -/
def run (C : Cs → Event → Bool) (now : ℕ → Bool) : List Event → Cs → Option Cs
  | [], st => some st
  | ev :: es, st =>
    if C st ev then
      match step now st ev with
      | none => none
      | some st => run C now es st
    else none

theorem run_invariant {C : Cs → Event → Bool} {now : ℕ → Bool} {P : Cs → Prop}
    (hstep : ∀ {st st' ev}, P st → C st ev = true → step now st ev = some st' → P st') :
    ∀ {es : List Event} {st st' : Cs}, P st → run C now es st = some st' → P st'
  | [], _, _, hP, h => Option.some.inj h ▸ hP
  | ev :: es, st, st', hP, h => by
    rw [run] at h
    by_cases hC : C st ev = true
    · rw [if_pos hC] at h
      cases hs : step now st ev with
      | none => simp [hs] at h
      | some st₁ =>
        rw [hs] at h
        exact run_invariant hstep (hstep hP hC hs) h
    · simp [hC] at h

end ClientSM

/-! ## Each operation once -/

/-- The syncs that are held back. -/
def Cs.heldIds (st : Cs) : List ℕ := st.mPendingOps.map fun q => q.2.id

/-- What the trace says about the operations that have come in; `todo` is the one that is about to be submitted, `busy`
the one that has completed and is not marked yet. -/
structure Tally (todo busy : List ℕ) (st : Cs) : Prop where
  queued : ∀ op ∈ st.ops, op ∈ st.received
  waiting : ∀ q ∈ st.mPendingOps, q.2 ∈ st.received
  submitted : ∀ op ∈ st.received, st.trace.count (.submitted op.id) + st.heldIds.count op.id + todo.count op.id = 1
  responses : ∀ id, st.trace.count (.response id) + (st.ops.map KfsOp.id).count id + st.heldIds.count id ≤ 1
  sorted : st.heldIds.Pairwise (· < ·)
  held : ∀ id, .held id ∈ st.trace → id ∈ st.heldIds ∨ id ∈ todo ∨ .submitted id ∈ st.trace
  first : ∀ t ∈ todo, .held t ∈ st.trace → ∀ id, .held id ∈ st.trace → id < t → .submitted id ∈ st.trace
  arrival : ∀ id l, .submitted id :: l <:+ st.trace → .held id ∈ l → ∀ id', .held id' ∈ l → id' < id →
    .submitted id' ∈ l
  known : ∀ id, .submitted id ∈ st.trace ∨ .held id ∈ st.trace ∨ .response id ∈ st.trace ∨ .completed id ∈ st.trace →
    ∃ op ∈ st.received, op.id = id
  started : ∀ id, .completed id ∈ st.trace → .submitted id ∈ st.trace
  live : ∀ x ∈ st.mOps, x.1.id ∉ busy → .completed x.1.id ∈ st.trace → x.2 = true

variable {st st' st₁ : Cs} {op q s : KfsOp} {id : ℕ} {todo busy : List ℕ} {now : ℕ → Bool}

/-- An operation that has been submitted completes. -/
theorem Tally.completed (h : Tally todo [] st) (hk : .submitted id ∈ st.trace) :
    Tally todo [id] (mark st (.completed id)) where
  queued := h.queued
  waiting := h.waiting
  submitted op hop := by
    have hs := h.submitted op hop
    change (Mark.completed id :: st.trace).count (.submitted op.id) + _ + _ = 1
    rwa [List.count_cons_of_ne (by simp)]
  responses id' := by
    have hr := h.responses id'
    change (Mark.completed id :: st.trace).count (.response id') + _ + _ ≤ 1
    rwa [List.count_cons_of_ne (by simp)]
  sorted := h.sorted
  held id' hid := by
    have hid' : Mark.held id' ∈ st.trace := by simpa [mark] using hid
    exact (h.held id' hid').imp_right (Or.imp_right (List.mem_cons_of_mem _))
  first t ht hht id' hid hlt := by
    have hht' : Mark.held t ∈ st.trace := by simpa [mark] using hht
    have hid' : Mark.held id' ∈ st.trace := by simpa [mark] using hid
    exact List.mem_cons_of_mem _ (h.first t ht hht' id' hid' hlt)
  arrival id' l hl := by
    rcases List.suffix_cons_iff.mp hl with he | hl
    · cases he
    · exact h.arrival id' l hl
  known id' hid := by
    by_cases he : id' = id
    · exact he ▸ h.known id (.inl hk)
    · refine h.known id' ?_
      simpa [mark, he] using hid
  started id' hid := by
    rcases List.mem_cons.mp hid with he | hid
    · exact List.mem_cons_of_mem _ (Mark.completed.inj he ▸ hk)
    · exact List.mem_cons_of_mem _ (h.started id' hid)
  live x hx hb hc := by
    rcases List.mem_cons.mp hc with he | hc
    · exact absurd (List.mem_singleton.mpr (Mark.completed.inj he)) hb
    · exact h.live x hx (by simp) hc

/-- The operation that was about to be submitted is submitted. -/
theorem Tally.submit (h : Tally [id] [] st) (hk : ∃ op ∈ st.received, op.id = id) :
    Tally [] [] (mark st (.submitted id)) where
  queued := h.queued
  waiting := h.waiting
  submitted op hop := by
    have hs := h.submitted op hop
    change (Mark.submitted id :: st.trace).count (.submitted op.id) + st.heldIds.count op.id + 0 = 1
    rw [List.count_cons] at hs ⊢
    simp only [List.count_nil, beq_iff_eq, Mark.submitted.injEq] at hs ⊢
    omega
  responses id' := by
    have hr := h.responses id'
    change (Mark.submitted id :: st.trace).count (.response id') + _ + _ ≤ 1
    rwa [List.count_cons_of_ne (by simp)]
  sorted := h.sorted
  held id' hid := by
    have hid' : Mark.held id' ∈ st.trace := by simpa [mark] using hid
    rcases h.held id' hid' with hh | hh | hh
    · exact .inl hh
    · exact .inr (.inr (List.mem_singleton.mp hh ▸ List.mem_cons_self))
    · exact .inr (.inr (List.mem_cons_of_mem _ hh))
  first t ht := by cases ht
  arrival id' l hl hhl id'' hid'' hlt := by
    rcases List.suffix_cons_iff.mp hl with he | hl
    · obtain ⟨he₁, rfl⟩ := List.cons.inj he
      obtain rfl : id' = id := Mark.submitted.inj he₁
      exact h.first id' (List.mem_singleton.mpr rfl) hhl id'' hid'' hlt
    · exact h.arrival id' l hl hhl id'' hid'' hlt
  known id' hid := by
    by_cases he : id' = id
    · exact he ▸ hk
    · refine h.known id' ?_
      simpa [mark, he] using hid
  started id' hid := by
    have hid' : Mark.completed id' ∈ st.trace := by simpa [mark] using hid
    exact List.mem_cons_of_mem _ (h.started id' hid')
  live x hx hb hc := h.live x hx hb (by simpa [mark] using hc)

/-- The first sync that is held back goes into the queue. -/
theorem Tally.release {w : KfsOp} {pending : List (KfsOp × KfsOp)} (h : Tally [] [] st)
    (hpend : st.mPendingOps = (w, s) :: pending) :
    Tally [s.id] [] { st with mOps := st.mOps ++ [(s, false)], mPendingOps := pending } := by
  have hheld : st.heldIds = s.id :: pending.map fun q => q.2.id := by simp [Cs.heldIds, hpend]
  have hsorted := h.sorted
  rw [hheld] at hsorted
  have hs : s ∈ st.received := h.waiting (w, s) (by rw [hpend]; exact List.mem_cons_self)
  refine ⟨fun op hop => ?_, fun q hq => h.waiting q (by rw [hpend]; exact List.mem_cons_of_mem _ hq), fun op hop => ?_,
    fun id => ?_, (List.pairwise_cons.mp hsorted).2, fun id hid => ?_, fun t ht _ id hid hlt => ?_, h.arrival, h.known,
    h.started, fun x hx hb hc => ?_⟩
  · rw [Cs.ops, List.map_append] at hop
    rcases List.mem_append.mp hop with hop | hop
    · exact h.queued op hop
    · obtain rfl : op = s := by simpa using hop
      exact hs
  · have hs := h.submitted op hop
    rw [hheld, List.count_cons] at hs
    change st.trace.count _ + (pending.map fun q => q.2.id).count op.id + [s.id].count op.id = 1
    rw [List.count_cons]
    simp only [List.count_nil] at hs ⊢
    omega
  · have hr := h.responses id
    rw [hheld, List.count_cons] at hr
    change st.trace.count _ + ((st.mOps ++ [(s, false)]).map Prod.fst |>.map KfsOp.id).count id +
      (pending.map fun q => q.2.id).count id ≤ 1
    rw [List.map_append, List.map_append, List.count_append]
    simp only [List.map_cons, List.map_nil, List.count_cons, List.count_nil]
    unfold Cs.ops at hr
    omega
  · rcases h.held id hid with hh | hh | hh
    · rw [hheld] at hh
      rcases List.mem_cons.mp hh with rfl | hh
      · exact .inr (.inl (List.mem_singleton.mpr rfl))
      · exact .inl hh
    · cases hh
    · exact .inr (.inr hh)
  · rw [List.mem_singleton.mp ht] at hlt
    rcases h.held id hid with hh | hh | hh
    · rw [hheld] at hh
      rcases List.mem_cons.mp hh with rfl | hh
      · exact absurd hlt (lt_irrefl _)
      · exact absurd ((List.pairwise_cons.mp hsorted).1 id hh) (not_lt.mpr hlt.le)
    · cases hh
    · exact hh
  · rcases List.mem_append.mp hx with hx | hx
    · exact h.live x hx hb hc
    · rw [List.mem_singleton.mp hx] at hc
      have hsub : 0 < st.trace.count (.submitted s.id) := List.count_pos_iff.mpr (h.started _ hc)
      have hone := h.submitted s hs
      rw [hheld, List.count_cons_self] at hone
      omega

/-- The operation at the head of the queue is answered. -/
theorem Tally.respond {d : Bool} {ops : List (KfsOp × Bool)} (h : Tally [] [] st) (hops : st.mOps = (q, d) :: ops) :
    Tally [] [] { mark st (.response q.id) with mOps := ops } := by
  have hcons : st.ops = q :: ops.map Prod.fst := by simp [Cs.ops, hops]
  have hq : q ∈ st.received := h.queued q (by rw [hcons]; exact List.mem_cons_self)
  refine ⟨fun op hop => h.queued op (by rw [hcons]; exact List.mem_cons_of_mem _ hop), h.waiting, fun op hop => ?_,
    fun id => ?_, h.sorted, fun id hid => ?_, fun t ht => by (cases ht), fun id l hl => ?_, fun id hid => ?_,
    fun id hid => ?_, fun x hx hb hc => ?_⟩
  · have hs := h.submitted op hop
    change (Mark.response q.id :: st.trace).count (.submitted op.id) + _ + _ = 1
    rwa [List.count_cons_of_ne (by simp)]
  · have hr := h.responses id
    rw [hcons, List.map_cons, List.count_cons] at hr
    change (Mark.response q.id :: st.trace).count (.response id) + ((ops.map Prod.fst).map KfsOp.id).count id +
      st.heldIds.count id ≤ 1
    rw [List.count_cons]
    simp only [beq_iff_eq, Mark.response.injEq] at hr ⊢
    omega
  · have hid' : Mark.held id ∈ st.trace := by simpa [mark] using hid
    exact (h.held id hid').imp_right (Or.imp_right (List.mem_cons_of_mem _))
  · rcases List.suffix_cons_iff.mp hl with he | hl
    · cases he
    · exact h.arrival id l hl
  · by_cases he : id = q.id
    · exact ⟨q, hq, he.symm⟩
    · refine h.known id ?_
      simpa [mark, he] using hid
  · have hid' : Mark.completed id ∈ st.trace := by simpa [mark] using hid
    exact List.mem_cons_of_mem _ (h.started id hid')
  · refine h.live x ?_ hb (by simpa [mark] using hc)
    rw [hops]
    exact List.mem_cons_of_mem _ hx

/-- Operations leave the queue, or are marked as done. -/
theorem Tally.queue {mOps : List (KfsOp × Bool)} (h : Tally todo busy st)
    (hops : (mOps.map Prod.fst).Sublist st.ops)
    (hlive : ∀ x ∈ mOps, .completed x.1.id ∈ st.trace → x.2 = true) : Tally todo [] { st with mOps := mOps } where
  queued op hop := h.queued op (hops.subset hop)
  waiting := h.waiting
  submitted := h.submitted
  responses id := by
    have hr := h.responses id
    have hle : ((mOps.map Prod.fst).map KfsOp.id).count id ≤ (st.ops.map KfsOp.id).count id :=
      (hops.map KfsOp.id).count_le id
    change st.trace.count _ + ((mOps.map Prod.fst).map KfsOp.id).count id + st.heldIds.count id ≤ 1
    omega
  sorted := h.sorted
  held := h.held
  first := h.first
  arrival := h.arrival
  known := h.known
  started := h.started
  live x hx _ := hlive x hx

theorem Tally.tail (h : Tally [] [] st) : Tally [] [] { st with mOps := st.mOps.tail } := by
  refine h.queue ?_ fun x hx => h.live x (List.mem_of_mem_tail hx) (by simp)
  rw [List.map_tail]
  exact List.tail_sublist _

theorem Tally.markDone (h : Tally todo [id] st) : Tally todo [] (ClientSM.markDone st id) := by
  refine h.queue ?_ fun x hx hc => ?_
  · change (ClientSM.markDone st id).ops.Sublist st.ops
    rw [markDone_ops]
  · obtain ⟨y, hy, rfl⟩ := List.mem_map.mp hx
    split_ifs at hc ⊢ with hid
    · rfl
    · exact h.live y hy (by simpa using hid) hc

/-! ### Commands -/

section Receive

variable (h : Tally [] [] st) (hg : Gate st) (hid : op.id = st.nextOp)

include h hg hid

/-- The trace knows nothing of an operation that has just come in. -/
theorem Tally.unknown : .submitted op.id ∉ st.trace ∧ .held op.id ∉ st.trace ∧ .response op.id ∉ st.trace ∧
    .completed op.id ∉ st.trace := by
  have hno : ¬ ∃ a ∈ st.received, a.id = op.id := fun ⟨a, ha, he⟩ => absurd (hg.fresh a ha) (by omega)
  simpa only [not_or] using mt (h.known op.id) hno

theorem Tally.new_counts : st.trace.count (.submitted op.id) = 0 ∧ st.trace.count (.response op.id) = 0 ∧
    (st.ops.map KfsOp.id).count op.id = 0 ∧ st.heldIds.count op.id = 0 := by
  obtain ⟨hs, -, hr, -⟩ := h.unknown hg hid
  have hnew := hg.id_new hid
  rw [List.mem_append, not_or] at hnew
  exact ⟨List.count_eq_zero_of_not_mem hs, List.count_eq_zero_of_not_mem hr, List.count_eq_zero_of_not_mem hnew.1,
    List.count_eq_zero_of_not_mem hnew.2⟩

/-- A sync is held back. -/
theorem Tally.hold {w : KfsOp} :
    Tally [] [] { mark (st.receive op) (.held op.id) with mPendingOps := st.mPendingOps ++ [(w, op)] } := by
  obtain ⟨hsub, -, -, hcomp⟩ := h.unknown hg hid
  obtain ⟨hsub0, hresp0, hops0, hheld0⟩ := h.new_counts hg hid
  have hheld : Cs.heldIds { mark (st.receive op) (.held op.id) with mPendingOps := st.mPendingOps ++ [(w, op)] } =
      st.heldIds ++ [op.id] := by simp [Cs.heldIds]
  have hcons : ∀ {m}, m ∈ st.trace → m ∈ Mark.held op.id :: st.trace := fun hm => List.mem_cons_of_mem _ hm
  refine ⟨fun a ha => List.mem_cons_of_mem _ (h.queued a ha), ?_, ?_, ?_, ?_, ?_,
    fun t ht => by (cases ht), ?_, ?_, ?_, ?_⟩
  · intro x hx
    rcases List.mem_append.mp hx with hx | hx
    · exact List.mem_cons_of_mem _ (h.waiting x hx)
    · rw [List.mem_singleton.mp hx]
      exact List.mem_cons_self
  · intro a ha
    rw [hheld, List.count_append]
    change (Mark.held op.id :: st.trace).count (.submitted a.id) + _ + _ = 1
    rw [List.count_cons_of_ne (by simp)]
    rcases List.mem_cons.mp ha with rfl | ha
    · simp [hsub0, hheld0]
    · have hs := h.submitted a ha
      have hne : op.id ≠ a.id := fun he => absurd (hg.fresh a ha) (by omega)
      rw [List.count_cons_of_ne hne]
      simpa using hs
  · intro id
    rw [hheld, List.count_append]
    change (Mark.held op.id :: st.trace).count (.response id) + (st.ops.map KfsOp.id).count id + _ ≤ 1
    rw [List.count_cons_of_ne (by simp)]
    by_cases he : op.id = id
    · subst he
      rw [hresp0, hops0, hheld0]
      simp
    · rw [List.count_cons_of_ne he]
      simpa using h.responses id
  · rw [hheld]
    refine List.pairwise_append.mpr ⟨h.sorted, List.pairwise_singleton _ _, fun a ha b hb => ?_⟩
    obtain ⟨x, hx, rfl⟩ := List.mem_map.mp ha
    rw [List.mem_singleton.mp hb, hid]
    exact hg.fresh x.2 (h.waiting x hx)
  · intro id hi
    rw [hheld]
    rcases List.mem_cons.mp hi with he | hi
    · exact .inl (List.mem_append_right _ (List.mem_singleton.mpr (Mark.held.inj he)))
    · exact (h.held id hi).imp (List.mem_append_left _) (Or.imp_right hcons)
  · intro id l hl
    rcases List.suffix_cons_iff.mp hl with he | hl
    · cases he
    · exact h.arrival id l hl
  · intro id hi
    by_cases he : id = op.id
    · exact ⟨op, List.mem_cons_self, he.symm⟩
    · obtain ⟨a, ha, hae⟩ := h.known id (by simpa [mark, Cs.receive, he] using hi)
      exact ⟨a, List.mem_cons_of_mem _ ha, hae⟩
  · intro id hi
    exact hcons (h.started id (by simpa [mark, Cs.receive] using hi))
  · exact fun x hx hb hc => h.live x hx hb (by simpa [mark, Cs.receive] using hc)

/-- An operation goes into the queue, to be submitted. -/
theorem Tally.push : Tally [op.id] [] { st.receive op with mOps := st.mOps ++ [(op, false)] } := by
  obtain ⟨hsub, hhold, -, hcomp⟩ := h.unknown hg hid
  obtain ⟨hsub0, hresp0, hops0, hheld0⟩ := h.new_counts hg hid
  have hops : Cs.ops { st.receive op with mOps := st.mOps ++ [(op, false)] } = st.ops ++ [op] := by
    simp [Cs.ops]
  refine ⟨?_, fun x hx => List.mem_cons_of_mem _ (h.waiting x hx),
    ?_, ?_, h.sorted, ?_, ?_, h.arrival, ?_, h.started, ?_⟩
  · intro a ha
    rw [hops] at ha
    rcases List.mem_append.mp ha with ha | ha
    · exact List.mem_cons_of_mem _ (h.queued a ha)
    · exact List.mem_singleton.mp ha ▸ List.mem_cons_self
  · intro a ha
    change st.trace.count (.submitted a.id) + st.heldIds.count a.id + _ = 1
    rcases List.mem_cons.mp ha with rfl | ha
    · simp [hsub0, hheld0]
    · have hne : op.id ≠ a.id := fun he => absurd (hg.fresh a ha) (by omega)
      rw [List.count_cons_of_ne hne]
      exact h.submitted a ha
  · intro id
    rw [hops, List.map_append, List.count_append]
    change st.trace.count (.response id) + ((st.ops.map KfsOp.id).count id + [op.id].count id) + st.heldIds.count id ≤ 1
    by_cases he : op.id = id
    · subst he
      rw [hresp0, hops0, hheld0]
      simp
    · rw [List.count_cons_of_ne he]
      simpa using h.responses id
  · intro id hi
    exact (h.held id hi).imp_right fun hh => .inr (hh.resolve_left (by simp))
  · intro t ht hht
    rw [List.mem_singleton.mp ht] at hht
    exact absurd hht hhold
  · intro id hi
    obtain ⟨a, ha, hae⟩ := h.known id hi
    exact ⟨a, List.mem_cons_of_mem _ ha, hae⟩
  · intro x hx hb hc
    rcases List.mem_append.mp hx with hx | hx
    · exact h.live x hx hb hc
    · rw [List.mem_singleton.mp hx] at hc
      exact absurd hc hcomp

end Receive

/-! ### The loops -/

section Loops

variable {exec : Cs → KfsOp → Option Cs}
  (hexec : ∀ {st st' : Cs} {s : KfsOp}, Tally [s.id] [] st → s ∈ st.received → exec st s = some st' → Tally [] [] st')

include hexec

theorem OpFinished_tally : ∀ {k : ℕ} {st st' : Cs}, Tally [] [] st → ClientSM.OpFinished exec q k st = some st' →
    Tally [] [] st'
  | 0, _, _, _, h => by cases h
  | k + 1, st, st', ht, h => by
    rw [ClientSM.OpFinished] at h
    cases hpend : st.mPendingOps with
    | nil =>
      simp only [hpend, Option.some.injEq] at h
      exact h ▸ ht
    | cons pair pending =>
      obtain ⟨w, s⟩ := pair
      simp only [hpend] at h
      by_cases hseq : w.seq ≠ q.seq
      · rw [if_pos hseq] at h
        exact Option.some.inj h ▸ ht
      rw [if_neg hseq] at h
      have hs : s ∈ st.received := ht.waiting (w, s) (by rw [hpend]; exact List.mem_cons_self)
      cases he : exec { st with mOps := st.mOps ++ [(s, false)], mPendingOps := pending } s with
      | none => simp [he] at h
      | some st₁ =>
        simp only [he] at h
        exact OpFinished_tally (hexec (ht.release hpend) hs he) h

theorem popDone_tally :
    ∀ {k : ℕ} {st st' : Cs}, Tally [] [] st → ClientSM.popDone exec k st = some st' → Tally [] [] st'
  | 0, _, _, _, h => by cases h
  | k + 1, st, st', ht, h => by
    rw [ClientSM.popDone] at h
    cases hops : st.mOps with
    | nil =>
      simp only [hops, Option.some.injEq] at h
      exact h ▸ ht
    | cons x ops =>
      obtain ⟨q, d⟩ := x
      simp only [hops] at h
      split_ifs at h
      · split at h
        · cases h
        · rename_i st₁ ho
          exact popDone_tally (OpFinished_tally hexec (ht.respond hops) ho) h
      · exact Option.some.inj h ▸ ht

theorem popTerminated_tally : ∀ {k : ℕ} {st st' : Cs}, Tally [] [] st →
    ClientSM.popTerminated exec k st = some st' → Tally [] [] st'
  | 0, _, _, _, h => by cases h
  | k + 1, st, st', ht, h => by
    rw [ClientSM.popTerminated] at h
    cases hops : st.mOps with
    | nil =>
      simp only [hops, Option.some.injEq] at h
      exact h ▸ ht
    | cons x ops =>
      obtain ⟨q, d⟩ := x
      simp only [hops] at h
      split_ifs at h
      · split at h
        · cases h
        · rename_i st₁ ho
          have ht₁ := OpFinished_tally hexec ht ho
          exact popTerminated_tally ht₁.tail h
      · exact Option.some.inj h ▸ ht

theorem HandleEvent_tally (ht : Tally [] [id] st) (h : ClientSM.HandleEvent exec st id = some st') :
    Tally [] [] st' := by
  have hmark : Tally [] [] (ClientSM.markDone st id) := ht.markDone
  unfold ClientSM.HandleEvent at h
  split at h
  · cases h
  · dsimp only at h
    split_ifs at h
    · exact popTerminated_tally hexec hmark h
    · exact Option.some.inj h ▸ hmark
    · exact popDone_tally hexec hmark h

end Loops

/-- An operation is submitted once, whatever completes while that happens. -/
theorem execute_tally : ∀ {n : ℕ} {st st' : Cs} {s : KfsOp}, Tally [s.id] [] st → s ∈ st.received →
    ClientSM.execute now n st s = some st' → Tally [] [] st'
  | 0, _, _, _, _, _, h => by cases h
  | n + 1, st, st', s, ht, hs, h => by
    unfold ClientSM.execute at h
    dsimp only at h
    have hsub : Tally [] [] (mark st (.submitted s.id)) := ht.submit ⟨s, hs, rfl⟩
    split_ifs at h
    · exact HandleEvent_tally execute_tally (hsub.completed List.mem_cons_self) h
    · exact Option.some.inj h ▸ hsub

end Kfs.Chunk
