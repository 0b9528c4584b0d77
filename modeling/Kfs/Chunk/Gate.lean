import Mathlib.Data.List.Nodup
import Kfs.Chunk.Client

/-!
# The gate of a client connection

A sync is executed only after the prepares that came before it. The queue of the operations that are under way and the
queue of the syncs that are held back are tied together by an invariant that every loop of the connection keeps, for
whatever the execution of a sync does.

* `Gate`: what the two queues say about each other and about what has come in;
* `Due`: a sync can be executed, all prepares before it have completed;
* `Later`, `Firm`: what can happen to the queues in between;
* **`OpFinished_gate`**, **`HandleEvent_gate`**: syncs are executed only when they are due.
-/

namespace Kfs.Chunk

open ChunkManager

/-- The operation has completed. -/
def Cs.completed (st : Cs) (id : ℕ) : Prop := .completed id ∈ st.trace

/-- The operations under way, in their order. -/
def Cs.ops (st : Cs) : List KfsOp := st.mOps.map Prod.fst

/-- The two queues of a connection. -/
structure Gate (st : Cs) : Prop where
  ids : st.received.Pairwise fun a b => b.id < a.id
  fresh : ∀ op ∈ st.received, op.id < st.nextOp
  seqs : st.received.Pairwise fun a b => a.seq ≠ b.seq
  queued : ∀ op ∈ st.ops, op ∈ st.received
  held : ∀ q ∈ st.mPendingOps, (q.1 ∈ st.received ∧ q.1.cmd.isPrepare = true) ∧
    q.2 ∈ st.received ∧ q.2.cmd.isSync = true
  nodup : (st.ops.map KfsOp.id ++ st.mPendingOps.map fun q => q.2.id).Nodup
  order : st.ops.Pairwise fun a b => a.cmd.isPrepare = true → b.cmd.isPrepare = true → a.id < b.id
  done : ∀ q ∈ st.mOps, q.2 = true → st.completed q.1.id
  answered : ∀ p ∈ st.received, p.cmd.isPrepare = true → p ∈ st.ops ∨ st.completed p.id
  behind : ∀ q ∈ st.mPendingOps, ∀ p ∈ st.ops, p.cmd.isPrepare = true → p.id < q.2.id → p.id ≤ q.1.id

/-- A sync that can be executed. -/
structure Due (st : Cs) (s : KfsOp) : Prop where
  received : s ∈ st.received
  isSync : s.cmd.isSync = true
  queued : s ∈ st.ops
  prepares : ∀ p ∈ st.received, p.cmd.isPrepare = true → p.id < s.id → st.completed p.id
  front : st.terminating = true → ∀ q, st.ops.head? = some q → q.id ≠ s.id

/-- Operations come in and complete, prepares leave the queue. -/
structure Later (st st' : Cs) : Prop where
  received : st'.received = st.received
  terminating : st'.terminating = st.terminating
  nextOp : st'.nextOp = st.nextOp
  completed : ∀ id, st.completed id → st'.completed id
  prepares : ∀ p ∈ st'.ops, p.cmd.isPrepare = true → p ∈ st.ops

/-- While the connection goes down nothing leaves the queue. -/
def Firm (st st' : Cs) : Prop := st.terminating = true → st.ops <+: st'.ops

/-- An operation that is done, with no prepare before it left in the queue. -/
structure Past (q : KfsOp) (st : Cs) : Prop where
  received : q ∈ st.received
  completed : st.completed q.id
  first : ∀ p ∈ st.ops, q.cmd.isPrepare = true → p.cmd.isPrepare = true → q.id ≤ p.id

variable {st st' st₁ : Cs} {op q s : KfsOp} {id : ℕ}

theorem Later.refl : Later st st := ⟨rfl, rfl, rfl, fun _ h => h, fun _ h _ => h⟩

theorem Later.trans (h : Later st st₁) (h' : Later st₁ st') : Later st st' where
  received := h'.received.trans h.received
  terminating := h'.terminating.trans h.terminating
  nextOp := h'.nextOp.trans h.nextOp
  completed id hc := h'.completed id (h.completed id hc)
  prepares p hp hpp := h.prepares p (h'.prepares p hp hpp) hpp

theorem Firm.refl : Firm st st := fun _ => List.prefix_rfl

theorem Firm.trans (h : Firm st st₁) (hl : Later st st₁) (h' : Firm st₁ st') : Firm st st' :=
  fun ht => (h ht).trans (h' (hl.terminating.trans ht))

theorem Past.later (h : Past q st) (hl : Later st st') : Past q st' where
  received := hl.received ▸ h.received
  completed := hl.completed _ h.completed
  first p hp hq hpp := h.first p (hl.prepares p hp hpp) hq hpp

/-- A queue that nothing leaves stays in use. -/
theorem Firm.nonempty (h : Firm st st') (hl : Later st st') (hne : st.terminating = true → st.ops ≠ []) :
    st'.terminating = true → st'.ops ≠ [] := fun ht hnil => by
  have ht' : st.terminating = true := hl.terminating ▸ ht
  have hpre := h ht'
  rw [hnil] at hpre
  exact hne ht' (List.prefix_nil.mp hpre)

/-- A sync goes into the queue. -/
theorem Later.release {pending : List (KfsOp × KfsOp)} (hs : s.cmd.isSync = true) :
    Later st { st with mOps := st.mOps ++ [(s, false)], mPendingOps := pending } ∧
      Firm st { st with mOps := st.mOps ++ [(s, false)], mPendingOps := pending } := by
  refine ⟨⟨rfl, rfl, rfl, fun _ h => h, fun p hp hpp => ?_⟩, fun _ => ?_⟩
  · rw [Cs.ops, List.map_append] at hp
    rcases List.mem_append.mp hp with hp | hp
    · exact hp
    · obtain rfl : p = s := by simpa using hp
      revert hs hpp
      cases p.cmd <;> simp [Cmd.isSync, Cmd.isPrepare]
  · rw [Cs.ops, Cs.ops, List.map_append]
    exact List.prefix_append _ _

/-- An operation of the connection is known by its id. -/
theorem Gate.eq_of_id (h : Gate st) {a b : KfsOp} (ha : a ∈ st.received) (hb : b ∈ st.received) (he : a.id = b.id) :
    a = b := by
  have hnodup : (st.received.map KfsOp.id).Nodup := List.pairwise_map.mpr (h.ids.imp fun hlt => hlt.ne')
  exact List.inj_on_of_nodup_map hnodup ha hb he

/-- And by its sequence number. -/
theorem Gate.eq_of_seq (h : Gate st) {a b : KfsOp} (ha : a ∈ st.received) (hb : b ∈ st.received) (he : a.seq = b.seq) :
    a = b := by
  have hnodup : (st.received.map KfsOp.seq).Nodup := List.pairwise_map.mpr h.seqs
  exact List.inj_on_of_nodup_map hnodup ha hb he

/-- The syncs that wait for an operation that is done are due. -/
theorem Gate.due (h : Gate st) {w : KfsOp} {pending : List (KfsOp × KfsOp)} (hp : Past q st)
    (hpend : st.mPendingOps = (w, s) :: pending) (hseq : w.seq = q.seq)
    (hfront : st.terminating = true → st.ops ≠ []) :
    Gate { st with mOps := st.mOps ++ [(s, false)], mPendingOps := pending } ∧
      Due { st with mOps := st.mOps ++ [(s, false)], mPendingOps := pending } s := by
  have hmem : (w, s) ∈ st.mPendingOps := by rw [hpend]; exact List.mem_cons_self
  have htail : ∀ {x}, x ∈ pending → x ∈ st.mPendingOps := fun hx => by rw [hpend]; exact List.mem_cons_of_mem _ hx
  obtain ⟨⟨hw, hwp⟩, hs, hsync⟩ := h.held _ hmem
  obtain rfl : w = q := h.eq_of_seq hw hp.received hseq
  have hops : Cs.ops { st with mOps := st.mOps ++ [(s, false)], mPendingOps := pending } = st.ops ++ [s] := by
    simp [Cs.ops]
  have hnot : s.cmd.isPrepare = false := by
    revert hsync
    cases s.cmd <;> simp [Cmd.isSync, Cmd.isPrepare]
  have hnodup := h.nodup
  rw [hpend, List.map_cons] at hnodup
  refine ⟨⟨h.ids, h.fresh, h.seqs, ?_, fun x hx => h.held x (htail hx), ?_, ?_, ?_, ?_, ?_⟩, hs, hsync, ?_, ?_, ?_⟩
  · intro op hop
    rw [hops] at hop
    rcases List.mem_append.mp hop with hop | hop
    · exact h.queued op hop
    · exact List.mem_singleton.mp hop ▸ hs
  · rw [hops]
    simpa using hnodup
  · rw [hops]
    refine List.pairwise_append.mpr ⟨h.order, List.pairwise_singleton _ _, fun a _ b hb _ hbp => ?_⟩
    rw [List.mem_singleton.mp hb, hnot] at hbp
    cases hbp
  · intro x hx hd
    rcases List.mem_append.mp hx with hx | hx
    · exact h.done x hx hd
    · rw [List.mem_singleton.mp hx] at hd
      cases hd
  · intro p hpr hpp
    rw [hops]
    exact (h.answered p hpr hpp).imp (List.mem_append_left _) fun hc => hc
  · intro x hx p hpm hpp hlt
    rw [hops] at hpm
    rcases List.mem_append.mp hpm with hpm | hpm
    · exact h.behind x (htail hx) p hpm hpp hlt
    · rw [List.mem_singleton.mp hpm, hnot] at hpp
      cases hpp
  · rw [hops]
    exact List.mem_append_right _ (List.mem_singleton.mpr rfl)
  · intro p hpr hpp hlt
    rcases h.answered p hpr hpp with hin | hc
    · have hle := h.behind _ hmem p hin hpp hlt
      have hge := hp.first p hin hwp hpp
      have he : p = w := h.eq_of_id hpr hw (le_antisymm hle hge)
      rw [he]
      exact hp.completed
    · exact hc
  · intro ht x hx
    rw [hops] at hx
    obtain ⟨y, l, hl⟩ := List.exists_cons_of_ne_nil (hfront ht)
    rw [hl] at hx hnodup
    obtain rfl : y = x := Option.some.inj hx
    rintro he
    simp [he] at hnodup

/-- The operation at the head of the queue is taken off when it is done. -/
theorem Gate.pop (h : Gate st) {d : Bool} {ops : List (KfsOp × Bool)} (hops : st.mOps = (q, d) :: ops)
    (hd : st.completed q.id) : Gate { st with mOps := ops } ∧ Past q { st with mOps := ops } := by
  have hcons : st.ops = q :: ops.map Prod.fst := by simp [Cs.ops, hops]
  have htail : ∀ {p}, p ∈ ops.map Prod.fst → p ∈ st.ops := fun hp => by rw [hcons]; exact List.mem_cons_of_mem _ hp
  have horder := h.order
  have hnodup := h.nodup
  rw [hcons] at horder hnodup
  have hq : q ∈ st.received := h.queued q (by rw [hcons]; exact List.mem_cons_self)
  refine ⟨⟨h.ids, h.fresh, h.seqs, fun p hp => h.queued p (htail hp), h.held, ?_, ?_, ?_, ?_, ?_⟩, hq, hd, ?_⟩
  · exact (List.nodup_cons.mp hnodup).2
  · exact (List.pairwise_cons.mp horder).2
  · exact fun x hx => h.done x (by rw [hops]; exact List.mem_cons_of_mem _ hx)
  · intro p hp hpp
    rcases h.answered p hp hpp with hin | hc
    · rw [hcons] at hin
      rcases List.mem_cons.mp hin with rfl | hin
      · exact .inr hd
      · exact .inl hin
    · exact .inr hc
  · exact fun x hx p hp => h.behind x hx p (htail hp)
  · exact fun p hp hqp hpp => ((List.pairwise_cons.mp horder).1 p hp hqp hpp).le

/-- The operation at the head of the queue is done. -/
theorem Gate.past (h : Gate st) {d : Bool} {ops : List (KfsOp × Bool)} (hops : st.mOps = (q, d) :: ops)
    (hd : d = true) : Past q st := by
  have hcons : st.ops = q :: ops.map Prod.fst := by simp [Cs.ops, hops]
  refine ⟨h.queued q (by rw [hcons]; exact List.mem_cons_self),
    h.done (q, d) (by rw [hops]; exact List.mem_cons_self) hd,
    fun p hp hqp hpp => ?_⟩
  have horder := h.order
  rw [hcons] at hp horder
  rcases List.mem_cons.mp hp with rfl | hp
  · exact le_rfl
  · exact ((List.pairwise_cons.mp horder).1 p hp hqp hpp).le

/-- The head of the queue stays where it is while the connection goes down. -/
theorem Firm.head (h : Firm st st') (ht : st.terminating = true) {ops : List KfsOp} (hops : st.ops = q :: ops) :
    ∃ d rest, st'.mOps = (q, d) :: rest := by
  obtain ⟨l, hl⟩ := h ht
  rw [hops, Cs.ops, List.cons_append] at hl
  obtain ⟨x, rest, hrest, hx, -⟩ := List.map_eq_cons_iff.mp hl.symm
  exact ⟨x.2, rest, by rw [hrest, ← hx]⟩

theorem Gate.mark (h : Gate st) {m : Mark} : Gate (mark st m) :=
  { h with
    done := fun x hx hd => List.mem_cons_of_mem _ (h.done x hx hd)
    answered := fun p hp hpp => (h.answered p hp hpp).imp_right fun hc => List.mem_cons_of_mem _ hc }

theorem markDone_ops : (ClientSM.markDone st id).ops = st.ops := by
  unfold Cs.ops ClientSM.markDone
  rw [List.map_map]
  refine List.map_congr_left fun x _ => ?_
  dsimp only [Function.comp]
  split_ifs <;> rfl

theorem Gate.markDone (h : Gate st) (hc : st.completed id) : Gate (ClientSM.markDone st id) where
  ids := h.ids
  fresh := h.fresh
  seqs := h.seqs
  queued op hop := h.queued op (markDone_ops ▸ hop)
  held := h.held
  nodup := by
    rw [markDone_ops]
    exact h.nodup
  order := by
    rw [markDone_ops]
    exact h.order
  done x hx hd := by
    obtain ⟨y, hy, rfl⟩ := List.mem_map.mp hx
    split_ifs at hd ⊢ with hid
    · rw [hid]
      exact hc
    · exact h.done y hy hd
  answered p hp hpp := by
    rw [markDone_ops]
    exact h.answered p hp hpp
  behind x hx p hp := h.behind x hx p (markDone_ops ▸ hp)

theorem markDone_later : Later st (ClientSM.markDone st id) :=
  ⟨rfl, rfl, rfl, fun _ h => h, fun _ hp _ => markDone_ops ▸ hp⟩

/-! ## The loops of the connection -/

section Loops

variable {exec : Cs → KfsOp → Option Cs} {X : Cs → Prop}
  (hqueues : ∀ {st : Cs} (mOps : List (KfsOp × Bool)) (mPendingOps : List (KfsOp × KfsOp)), X st →
    X { st with mOps := mOps, mPendingOps := mPendingOps })
  (hresponse : ∀ {st : Cs} {id : ℕ}, X st → X (mark st (.response id)))
  (hexec : ∀ {st st' : Cs} {s : KfsOp}, Gate st → X st → Due st s → exec st s = some st' →
    Gate st' ∧ X st' ∧ Later st st' ∧ Firm st st')

include hqueues hexec

/-- The loop that submits what has been waiting for `q`. -/
theorem OpFinished_gate : ∀ {k : ℕ} {st st' : Cs}, Gate st → X st → Past q st →
    (st.terminating = true → st.ops ≠ []) → ClientSM.OpFinished exec q k st = some st' →
    Gate st' ∧ X st' ∧ Later st st' ∧ Firm st st'
  | 0, _, _, _, _, _, _, h => by cases h
  | k + 1, st, st', hg, hx, hp, hfront, h => by
    rw [ClientSM.OpFinished] at h
    cases hpend : st.mPendingOps with
    | nil =>
      simp only [hpend, Option.some.injEq] at h
      exact h ▸ ⟨hg, hx, .refl, .refl⟩
    | cons pair pending =>
      obtain ⟨w, s⟩ := pair
      simp only [hpend] at h
      by_cases hseq : w.seq ≠ q.seq
      · rw [if_pos hseq] at h
        exact Option.some.inj h ▸ ⟨hg, hx, .refl, .refl⟩
      rw [if_neg hseq] at h
      obtain ⟨hg₁, hdue⟩ := hg.due hp hpend (not_not.mp hseq) hfront
      have hx₁ : X { st with mOps := st.mOps ++ [(s, false)], mPendingOps := pending } := hqueues _ _ hx
      obtain ⟨hl₁, hf₁⟩ : Later st { st with mOps := st.mOps ++ [(s, false)], mPendingOps := pending } ∧
          Firm st { st with mOps := st.mOps ++ [(s, false)], mPendingOps := pending } := Later.release hdue.isSync
      cases he : exec { st with mOps := st.mOps ++ [(s, false)], mPendingOps := pending } s with
      | none => simp [he] at h
      | some st₂ =>
        simp only [he] at h
        obtain ⟨hg₂, hx₂, hl₂, hf₂⟩ := hexec hg₁ hx₁ hdue he
        have hl := hl₁.trans hl₂
        have hf := hf₁.trans hl₁ hf₂
        obtain ⟨hg₃, hx₃, hl₃, hf₃⟩ := OpFinished_gate hg₂ hx₂ (hp.later hl) (hf.nonempty hl hfront) h
        exact ⟨hg₃, hx₃, hl.trans hl₃, hf.trans hl hf₃⟩

include hresponse

theorem popDone_gate : ∀ {k : ℕ} {st st' : Cs}, Gate st → X st → st.terminating = false →
    ClientSM.popDone exec k st = some st' → Gate st' ∧ X st' ∧ Later st st'
  | 0, _, _, _, _, _, h => by cases h
  | k + 1, st, st', hg, hx, ht, h => by
    rw [ClientSM.popDone] at h
    cases hops : st.mOps with
    | nil =>
      simp only [hops, Option.some.injEq] at h
      exact h ▸ ⟨hg, hx, .refl⟩
    | cons x ops =>
      obtain ⟨q, done⟩ := x
      simp only [hops] at h
      by_cases hd : done = true
      · rw [if_pos hd] at h
        have hc : st.completed q.id := hg.done (q, done) (by rw [hops]; exact List.mem_cons_self) hd
        obtain ⟨hg₁, hp₁⟩ := (hg.mark (m := .response q.id)).pop hops (List.mem_cons_of_mem _ hc)
        have hx₁ : X { mark st (.response q.id) with mOps := ops } :=
          hqueues _ st.mPendingOps (hresponse hx)
        have hl₁ : Later st { mark st (.response q.id) with mOps := ops } := by
          refine ⟨rfl, rfl, rfl, fun _ h => List.mem_cons_of_mem _ h, fun p hp _ => ?_⟩
          rw [Cs.ops, hops]
          exact List.mem_cons_of_mem _ hp
        have hf : st.terminating = true → Cs.ops { mark st (.response q.id) with mOps := ops } ≠ [] := fun h => by
          rw [ht] at h
          cases h
        cases ho : ClientSM.OpFinished exec q (st.mPendingOps.length + 1)
          { mark st (.response q.id) with mOps := ops } with
        | none => simp [ho] at h
        | some st₂ =>
          simp only [ho] at h
          obtain ⟨hg₂, hx₂, hl₂, -⟩ := OpFinished_gate hqueues hexec hg₁ hx₁ hp₁ hf ho
          have hl := hl₁.trans hl₂
          obtain ⟨hg₃, hx₃, hl₃⟩ := popDone_gate hg₂ hx₂ (hl.terminating.trans ht) h
          exact ⟨hg₃, hx₃, hl.trans hl₃⟩
      · rw [if_neg hd] at h
        exact Option.some.inj h ▸ ⟨hg, hx, .refl⟩

omit hresponse in
/-- The loop of the connection that goes down: the head leaves the queue after what waits for it has been
submitted. -/
theorem popTerminated_gate : ∀ {k : ℕ} {st st' : Cs}, Gate st → X st → st.terminating = true →
    ClientSM.popTerminated exec k st = some st' → Gate st' ∧ X st' ∧ Later st st'
  | 0, _, _, _, _, _, h => by cases h
  | k + 1, st, st', hg, hx, ht, h => by
    rw [ClientSM.popTerminated] at h
    cases hops : st.mOps with
    | nil =>
      simp only [hops, Option.some.injEq] at h
      exact h ▸ ⟨hg, hx, .refl⟩
    | cons x ops =>
      obtain ⟨q, done⟩ := x
      simp only [hops] at h
      by_cases hd : done = true
      · rw [if_pos hd] at h
        have hc : st.completed q.id := hg.done (q, done) (by rw [hops]; exact List.mem_cons_self) hd
        have hcons : st.ops = q :: ops.map Prod.fst := by simp [Cs.ops, hops]
        have hp : Past q st := hg.past hops hd
        cases ho : ClientSM.OpFinished exec q (st.mPendingOps.length + 1) st with
        | none => simp [ho] at h
        | some st₁ =>
          simp only [ho] at h
          have hne : st.terminating = true → st.ops ≠ [] := fun _ => by simp [hcons]
          obtain ⟨hg₁, hx₁, hl₁, hf₁⟩ := OpFinished_gate hqueues hexec hg hx hp hne ho
          -- the head has stayed where it is
          obtain ⟨d, rest, hops₁⟩ := hf₁.head ht hcons
          obtain ⟨hg₂, -⟩ := hg₁.pop hops₁ (hl₁.completed _ hc)
          rw [hops₁, List.tail_cons] at h
          have hx₂ : X { st₁ with mOps := rest } := hqueues _ st₁.mPendingOps hx₁
          obtain ⟨hg₃, hx₃, hl₃⟩ := popTerminated_gate hg₂ hx₂ (hl₁.terminating.trans ht) h
          have hl₂ : Later st₁ { st₁ with mOps := rest } := by
            refine ⟨rfl, rfl, rfl, fun _ h => h, fun p hp _ => ?_⟩
            rw [Cs.ops, hops₁]
            exact List.mem_cons_of_mem _ hp
          exact ⟨hg₃, hx₃, (hl₁.trans hl₂).trans hl₃⟩
      · rw [if_neg hd] at h
        exact Option.some.inj h ▸ ⟨hg, hx, .refl⟩

/-- **An operation has completed**: what was waiting for it is executed when it is due. While the connection goes down
only the head leaves the queue. -/
theorem HandleEvent_gate (hg : Gate st) (hx : X st) (hc : st.completed id)
    (h : ClientSM.HandleEvent exec st id = some st') : Gate st' ∧ X st' ∧ Later st st' ∧
      ((st.terminating = true → ∀ q, st.ops.head? = some q → q.id ≠ id) → Firm st st') := by
  have hg₁ : Gate (ClientSM.markDone st id) := hg.markDone hc
  have hx₁ : X (ClientSM.markDone st id) := hqueues _ st.mPendingOps hx
  have hl₁ : Later st (ClientSM.markDone st id) := markDone_later
  unfold ClientSM.HandleEvent at h
  cases hops : st.mOps with
  | nil => simp [hops] at h
  | cons x ops =>
    obtain ⟨front, d⟩ := x
    simp only [hops] at h
    by_cases ht : st.terminating = true
    · rw [if_pos ht] at h
      by_cases hid : front.id = id
      · rw [if_pos hid] at h
        obtain ⟨hg₂, hx₂, hl₂⟩ := popTerminated_gate hqueues hexec hg₁ hx₁ ht h
        refine ⟨hg₂, hx₂, hl₁.trans hl₂, fun hn => absurd hid ?_⟩
        exact hn ht front (by simp [Cs.ops, hops])
      · rw [if_neg hid] at h
        obtain rfl := Option.some.inj h
        exact ⟨hg₁, hx₁, hl₁, fun _ _ => markDone_ops ▸ List.prefix_rfl⟩
    · rw [if_neg ht] at h
      obtain ⟨hg₂, hx₂, hl₂⟩ := popDone_gate hqueues hresponse hexec hg₁ hx₁ (Bool.not_eq_true _ ▸ ht) h
      exact ⟨hg₂, hx₂, hl₁.trans hl₂, fun _ ht' => absurd ht' ht⟩

end Loops

/-! ## Commands -/

/-- An operation that has come in. -/
def Cs.receive (st : Cs) (op : KfsOp) : Cs := { st with nextOp := st.nextOp + 1, received := op :: st.received }

theorem lastWrite_none : ∀ {l : List (KfsOp × Bool)}, lastWrite l = none → ∀ x ∈ l, x.1.cmd.isPrepare = false
  | [], _, _, hx => by cases hx
  | (a, d) :: l, h, x, hx => by
    rw [lastWrite] at h
    cases hl : lastWrite l with
    | some w => simp [hl] at h
    | none =>
      simp only [hl] at h
      split_ifs at h with ha
      rcases List.mem_cons.mp hx with rfl | hx
      · simpa using ha
      · exact lastWrite_none hl x hx

theorem lastWrite_some : ∀ {l : List (KfsOp × Bool)} {w : KfsOp}, lastWrite l = some w →
    (l.map Prod.fst).Pairwise (fun a b => a.cmd.isPrepare = true → b.cmd.isPrepare = true → a.id < b.id) →
    w ∈ l.map Prod.fst ∧ w.cmd.isPrepare = true ∧ ∀ p ∈ l.map Prod.fst, p.cmd.isPrepare = true → p.id ≤ w.id
  | [], _, h, _ => by cases h
  | (a, d) :: l, w, h, horder => by
    rw [lastWrite] at h
    rw [List.map_cons] at horder ⊢
    obtain ⟨hhead, htail⟩ := List.pairwise_cons.mp horder
    cases hl : lastWrite l with
    | some w' =>
      simp only [hl, Option.some.injEq] at h
      subst h
      obtain ⟨hmem, hw, hle⟩ := lastWrite_some hl htail
      refine ⟨List.mem_cons_of_mem _ hmem, hw, fun p hp hpp => ?_⟩
      rcases List.mem_cons.mp hp with rfl | hp
      · exact (hhead w' hmem hpp hw).le
      · exact hle p hp hpp
    | none =>
      simp only [hl] at h
      split_ifs at h with ha
      obtain rfl := Option.some.inj h
      refine ⟨List.mem_cons_self, ha, fun p hp hpp => ?_⟩
      rcases List.mem_cons.mp hp with rfl | hp
      · exact le_rfl
      · obtain ⟨x, hx, rfl⟩ := List.mem_map.mp hp
        rw [lastWrite_none hl x hx] at hpp
        cases hpp

section Receive

variable (h : Gate st) (hid : op.id = st.nextOp) (hseq : ∀ a ∈ st.received, a.seq ≠ op.seq)

include h hid hseq

theorem Gate.received_cons : (op :: st.received).Pairwise (fun a b => b.id < a.id) ∧
    (∀ a ∈ op :: st.received, a.id < st.nextOp + 1) ∧ (op :: st.received).Pairwise fun a b => a.seq ≠ b.seq := by
  refine ⟨List.pairwise_cons.mpr ⟨fun a ha => hid ▸ h.fresh a ha, h.ids⟩, fun a ha => ?_,
    List.pairwise_cons.mpr ⟨fun a ha => (hseq a ha).symm, h.seqs⟩⟩
  rcases List.mem_cons.mp ha with rfl | ha
  · rw [hid]
    exact Nat.lt_succ_self _
  · exact Nat.lt_succ_of_lt (h.fresh a ha)

omit hseq in
theorem Gate.id_new : op.id ∉ st.ops.map KfsOp.id ++ st.mPendingOps.map fun q => q.2.id := by
  intro hm
  rcases List.mem_append.mp hm with hm | hm
  · obtain ⟨a, ha, he⟩ := List.mem_map.mp hm
    exact absurd (h.fresh a (h.queued a ha)) (by omega)
  · obtain ⟨a, ha, he⟩ := List.mem_map.mp hm
    exact absurd (h.fresh a.2 (h.held a ha).2.1) (by omega)

/-- A sync is held back for the last prepare. -/
theorem Gate.hold {w : KfsOp} (hsync : op.cmd.isSync = true) (hw : lastWrite st.mOps = some w) :
    Gate { ChunkManager.mark (st.receive op) (.held op.id) with mPendingOps := st.mPendingOps ++ [(w, op)] } := by
  obtain ⟨hids, hfresh, hseqs⟩ := h.received_cons hid hseq
  obtain ⟨hmem, hwp, hle⟩ := lastWrite_some hw h.order
  have hnew := h.id_new hid
  refine ⟨hids, hfresh, hseqs, fun a ha => List.mem_cons_of_mem _ (h.queued a ha), ?_, ?_, h.order,
    fun x hx hd => List.mem_cons_of_mem _ (h.done x hx hd), ?_, ?_⟩
  · intro x hx
    rcases List.mem_append.mp hx with hx | hx
    · obtain ⟨⟨hx₁, hx₂⟩, hx₃, hx₄⟩ := h.held x hx
      exact ⟨⟨List.mem_cons_of_mem _ hx₁, hx₂⟩, List.mem_cons_of_mem _ hx₃, hx₄⟩
    · rw [List.mem_singleton.mp hx]
      exact ⟨⟨List.mem_cons_of_mem _ (h.queued w hmem), hwp⟩, List.mem_cons_self, hsync⟩
  · change (st.ops.map KfsOp.id ++ (st.mPendingOps ++ [(w, op)]).map fun q => q.2.id).Nodup
    rw [List.map_append, ← List.append_assoc]
    exact List.nodup_append.mpr ⟨h.nodup, List.nodup_singleton _, fun a ha b hb he => by
      obtain rfl : a = op.id := he.trans (List.mem_singleton.mp hb)
      exact hnew ha⟩
  · intro p hp hpp
    rcases List.mem_cons.mp hp with rfl | hp
    · revert hsync hpp
      cases p.cmd <;> simp [Cmd.isSync, Cmd.isPrepare]
    · exact (h.answered p hp hpp).imp_right fun hc => List.mem_cons_of_mem _ hc
  · intro x hx p hp hpp hlt
    rcases List.mem_append.mp hx with hx | hx
    · exact h.behind x hx p hp hpp hlt
    · rw [List.mem_singleton.mp hx]
      exact hle p hp hpp

/-- An operation goes into the queue and is executed; a sync is due if there is no prepare in the queue. -/
theorem Gate.push (ht : st.terminating = false) :
    Gate { st.receive op with mOps := st.mOps ++ [(op, false)] } ∧
      (op.cmd.isSync = true → lastWrite st.mOps = none →
        Due { st.receive op with mOps := st.mOps ++ [(op, false)] } op) := by
  obtain ⟨hids, hfresh, hseqs⟩ := h.received_cons hid hseq
  have hnew := h.id_new hid
  have hops : Cs.ops { st.receive op with mOps := st.mOps ++ [(op, false)] } = st.ops ++ [op] := by
    simp [Cs.ops]
  have hlast : op ∈ st.ops ++ [op] := List.mem_append_right _ (List.mem_singleton.mpr rfl)
  refine ⟨⟨hids, hfresh, hseqs, ?_, ?_, ?_, ?_, ?_, ?_, ?_⟩,
    fun hsync hnone => ⟨List.mem_cons_self, hsync, hops ▸ hlast, ?_, ?_⟩⟩
  · intro a ha
    rw [hops] at ha
    rcases List.mem_append.mp ha with ha | ha
    · exact List.mem_cons_of_mem _ (h.queued a ha)
    · exact List.mem_singleton.mp ha ▸ List.mem_cons_self
  · intro x hx
    obtain ⟨⟨hx₁, hx₂⟩, hx₃, hx₄⟩ := h.held x hx
    exact ⟨⟨List.mem_cons_of_mem _ hx₁, hx₂⟩, List.mem_cons_of_mem _ hx₃, hx₄⟩
  · rw [hops, List.map_append]
    change ((st.ops.map KfsOp.id ++ [op.id]) ++ st.mPendingOps.map fun q => q.2.id).Nodup
    rw [List.append_assoc]
    exact (List.perm_middle.nodup_iff).mpr (List.nodup_cons.mpr ⟨hnew, h.nodup⟩)
  · rw [hops]
    refine List.pairwise_append.mpr ⟨h.order, List.pairwise_singleton _ _, fun a ha b hb _ _ => ?_⟩
    rw [List.mem_singleton.mp hb, hid]
    exact h.fresh a (h.queued a ha)
  · intro x hx hd
    rcases List.mem_append.mp hx with hx | hx
    · exact h.done x hx hd
    · rw [List.mem_singleton.mp hx] at hd
      cases hd
  · intro p hp hpp
    rw [hops]
    rcases List.mem_cons.mp hp with rfl | hp
    · exact .inl hlast
    · exact (h.answered p hp hpp).imp_left (List.mem_append_left _)
  · intro x hx p hp hpp hlt
    rw [hops] at hp
    rcases List.mem_append.mp hp with hp | hp
    · exact h.behind x hx p hp hpp hlt
    · have hx' := h.fresh x.2 (h.held x hx).2.1
      rw [List.mem_singleton.mp hp] at hlt
      omega
  · intro p hp hpp _
    rcases List.mem_cons.mp hp with rfl | hp
    · revert hsync hpp
      cases p.cmd <;> simp [Cmd.isSync, Cmd.isPrepare]
    · rcases h.answered p hp hpp with hin | hc
      · obtain ⟨x, hx, rfl⟩ := List.mem_map.mp hin
        rw [lastWrite_none hnone x hx] at hpp
        cases hpp
      · exact hc
  · intro ht'
    change st.terminating = true at ht'
    rw [ht] at ht'
    cases ht'

end Receive

end Kfs.Chunk
