import Mathlib.Algebra.BigOperators.Group.Finset.Basic
import Kfs.Layout.FanIn

/-!
# Where the RPCs of an allocation are

* `Placed`: each RPC is in one queue, or has been resumed once; `Placed.step`;
* `Tallied`: `numServerReplies` counts the RPCs resumed; `Tallied.step`;
* `Faithful`: the status of an allocation is that of its RPCs; `Faithful.step`, when no RPC has failed before
  `GetChunkWriteLease` returns.
-/

namespace Kfs

namespace FanIn

variable {st st' : FanIn} {s : ServerId} {r : ℕ} {v : ℤ} {x : ChunkRpc} {xs : List ChunkRpc} {e : FanEv}

/-! ## Where the RPCs are -/

/-- What waits at `s`. -/
def queue (st : FanIn) (s : ServerId) : List ChunkRpc :=
  (st.servers s).mPendingReqs ++ (st.servers s).mDispatchedReqs

/-- How often the RPC has been resumed at `s`. -/
def ended (st : FanIn) (s : ServerId) (k : ℕ × ℕ) : ℕ :=
  st.resumed.countP fun p => decide (p.1 = s) && p.2.1.isFor k

/-- The number of RPCs that have been queued for the allocation. -/
def sent (st : FanIn) (r : ℕ) : ℕ :=
  match st.layout with
  | some (r', _, k) => if r' = r then k else (st.allocs r).servers.length
  | none => (st.allocs r).servers.length

/-- The RPC for `k` has been queued, at `s`. -/
def Queued (st : FanIn) (s : ServerId) (k : ℕ × ℕ) : Prop :=
  (st.allocs k.1).servers[k.2]? = some s ∧ k.2 < st.sent k.1

instance (st : FanIn) (s : ServerId) (k : ℕ × ℕ) : Decidable (st.Queued s k) :=
  inferInstanceAs (Decidable (_ ∧ _))

/-- Each RPC that has been queued is in one place. -/
structure Placed (st : FanIn) : Prop where
  one : ∀ s k, (st.queue s).countP (ChunkRpc.isFor k) + st.ended s k = if st.Queued s k then 1 else 0
  apart : ∀ s, ((st.queue s).map ChunkRpc.opSeqno).Nodup
  below : ∀ s, ∀ x ∈ st.queue s, x.opSeqno < (st.servers s).mSeqNo
  live : ∀ s, (st.servers s).mNetConnection = false → (st.servers s).mDispatchedReqs = []
  listed : ∀ s, s ∉ st.mChunkServers → ∀ x ∈ (st.servers s).mPendingReqs, x.req = none
  choice : ∀ r call k, st.layout = some (r, call, k) → ∀ s ∈ (st.allocs r).servers, s ∈ st.mChunkServers

theorem Queued.congr {k : ℕ × ℕ} (hl : st'.layout = st.layout)
    (ha : ∀ r, (st'.allocs r).servers = (st.allocs r).servers) : st'.Queued s k ↔ st.Queued s k := by
  unfold Queued sent
  rw [hl, ha]

/-- RPCs move within the queues of `s`, or are taken out and resumed. -/
theorem Placed.shuffle (h : Placed st) (v : ℤ) (xs : List ChunkRpc)
    (helse : ∀ s', s' ≠ s → st'.servers s' = st.servers s')
    (hpend : (st'.servers s).mPendingReqs ⊆ (st.servers s).mPendingReqs)
    (hperm : (st'.queue s ++ xs).Perm (st.queue s)) (hseq : (st'.servers s).mSeqNo = (st.servers s).mSeqNo)
    (hlive : (st'.servers s).mNetConnection = false → (st'.servers s).mDispatchedReqs = [])
    (hlist : st'.mChunkServers = st.mChunkServers ∨
      (st.layout = none ∧ st'.mChunkServers = st.mChunkServers.erase s ∧ (st'.servers s).mPendingReqs = []))
    (hlay : st'.layout = st.layout) (ha : ∀ r, (st'.allocs r).servers = (st.allocs r).servers)
    (hres : st'.resumed = st.resumed ++ xs.map fun x => (s, x, v)) : Placed st' := by
  have hsub : ∀ x ∈ st'.queue s, x ∈ st.queue s := fun x hx => hperm.subset (List.mem_append_left _ hx)
  have hq : ∀ s', s' ≠ s → st'.queue s' = st.queue s' := by
    intro s' hne
    unfold queue
    rw [helse s' hne]
  refine ⟨?_, ?_, ?_, ?_, ?_, ?_⟩
  · intro s' k
    rw [if_congr (Queued.congr hlay ha) rfl rfl, ← h.one s' k, ended, hres, List.countP_append, ended]
    by_cases hs : s' = s
    · subst hs
      rw [← hperm.countP_eq, List.countP_append, List.countP_map]
      simp only [Function.comp_def, decide_true, Bool.true_and]
      change _ + (_ + xs.countP (ChunkRpc.isFor k)) = _
      omega
    · have hne : ¬ s = s' := fun heq => hs heq.symm
      rw [hq s' hs, List.countP_map]
      simp [Function.comp_def, hne]
  · intro s'
    by_cases hs : s' = s
    · subst hs
      have hnd := (hperm.map ChunkRpc.opSeqno).nodup_iff.mpr (h.apart s')
      rw [List.map_append] at hnd
      exact List.Nodup.of_append_left hnd
    · rw [hq s' hs]
      exact h.apart s'
  · intro s' x hx
    by_cases hs : s' = s
    · subst hs
      rw [hseq]
      exact h.below s' x (hsub x hx)
    · rw [hq s' hs] at hx
      rw [helse s' hs]
      exact h.below s' x hx
  · intro s' hc
    by_cases hs : s' = s
    · subst hs
      exact hlive hc
    · rw [helse s' hs] at hc ⊢
      exact h.live s' hc
  · intro s' hm x hx
    rcases hlist with heq | ⟨-, heq, hnil⟩
    · rw [heq] at hm
      by_cases hs : s' = s
      · subst hs
        exact h.listed s' hm x (hpend hx)
      · rw [helse s' hs] at hx
        exact h.listed s' hm x hx
    · rw [heq] at hm
      by_cases hs : s' = s
      · subst hs
        rw [hnil] at hx
        cases hx
      · rw [helse s' hs] at hx
        exact h.listed s' (fun hm' => hm ((List.mem_erase_of_ne hs).mpr hm')) x hx
  · intro r call k hl s' hs
    rw [ha] at hs
    rw [hlay] at hl
    rcases hlist with heq | ⟨hnone, -⟩
    · rw [heq]
      exact h.choice r call k hl s' hs
    · rw [hnone] at hl
      cases hl

theorem Placed.drain (h : Placed st) (hd : Drains s v xs st st') : Placed st' := by
  refine h.shuffle v xs hd.elsewhere hd.pending.subset hd.moved hd.seqNo ?_ hd.listed hd.layout hd.places hd.resumed
  intro hc
  rcases hd.shut with heq | hnil
  · rw [heq] at hc
    exact List.sublist_nil.mp (h.live s hc ▸ hd.dispatched)
  · exact hnil

/-- The RPC `x` is put at the end of what is pending at `s`. -/
def push (st : FanIn) (s : ServerId) (req : Option (ℕ × ℕ)) : FanIn :=
  st.setServer s { st.servers s with
    mSeqNo := (st.servers s).mSeqNo + 1
    mPendingReqs := (st.servers s).mPendingReqs ++ [⟨(st.servers s).mSeqNo, req⟩] }

theorem push_self (st : FanIn) (s : ServerId) (req : Option (ℕ × ℕ)) :
    (st.push s req).servers s = { st.servers s with
      mSeqNo := (st.servers s).mSeqNo + 1
      mPendingReqs := (st.servers s).mPendingReqs ++ [⟨(st.servers s).mSeqNo, req⟩] } :=
  Function.update_self _ _ _

theorem push_of_ne (req : Option (ℕ × ℕ)) {s' : ServerId} (h : s' ≠ s) :
    (st.push s req).servers s' = st.servers s' :=
  Function.update_of_ne h _ _

/-- A queue grows by an RPC with the next number. -/
theorem queue_push (st : FanIn) (s : ServerId) (req : Option (ℕ × ℕ)) :
    ((st.push s req).queue s).Perm (⟨(st.servers s).mSeqNo, req⟩ :: st.queue s) := by
  unfold queue
  rw [push_self, List.append_assoc]
  exact List.perm_middle

/-- `Placed` after an RPC has been queued, when the books say so. -/
theorem Placed.push (h : Placed st) (req : Option (ℕ × ℕ))
    (hserv : st'.servers = (st.push s req).servers) (hlist : st'.mChunkServers = st.mChunkServers)
    (hres : st'.resumed = st.resumed) (ha : ∀ r, (st'.allocs r).servers = (st.allocs r).servers)
    (hat : req ≠ none → s ∈ st.mChunkServers)
    (hone : ∀ s' k, (if st'.Queued s' k then 1 else 0) =
      (if st.Queued s' k then 1 else 0) + if s' = s ∧ req = some k then 1 else 0)
    (hlay : ∀ r call k, st'.layout = some (r, call, k) → ∃ k', st.layout = some (r, call, k')) : Placed st' := by
  have hq : ∀ s', st'.queue s' = (st.push s req).queue s' := by
    intro s'
    unfold queue
    rw [hserv]
  have hne : ∀ s', s' ≠ s → (st.push s req).queue s' = st.queue s' := by
    intro s' hs
    unfold queue
    rw [push_of_ne req hs]
  refine ⟨?_, ?_, ?_, ?_, ?_, ?_⟩
  · intro s' k
    have hend : st'.ended s' k = st.ended s' k := by
      unfold ended
      rw [hres]
    rw [hone, ← h.one s' k, hq, hend]
    by_cases hs : s' = s
    · subst hs
      rw [(queue_push st s' req).countP_eq, List.countP_cons]
      simp only [ChunkRpc.isFor, decide_eq_true_eq, true_and]
      omega
    · rw [hne s' hs]
      simp [hs]
  · intro s'
    rw [hq]
    by_cases hs : s' = s
    · subst hs
      rw [((queue_push st s' req).map ChunkRpc.opSeqno).nodup_iff, List.map_cons, List.nodup_cons]
      refine ⟨?_, h.apart s'⟩
      intro hm
      obtain ⟨x, hx, heq⟩ := List.mem_map.mp hm
      have hlt := h.below s' x hx
      rw [heq] at hlt
      exact lt_irrefl _ hlt
    · rw [hne s' hs]
      exact h.apart s'
  · intro s' x hx
    rw [hq] at hx
    rw [hserv]
    by_cases hs : s' = s
    · subst hs
      rw [push_self]
      rcases List.mem_cons.mp ((queue_push st s' req).subset hx) with rfl | hx
      · exact Int.lt_succ _
      · exact (h.below s' x hx).trans (Int.lt_succ _)
    · rw [hne s' hs] at hx
      rw [push_of_ne req hs]
      exact h.below s' x hx
  · intro s' hc
    rw [hserv] at hc ⊢
    by_cases hs : s' = s
    · subst hs
      rw [push_self] at hc ⊢
      exact h.live s' hc
    · rw [push_of_ne req hs] at hc ⊢
      exact h.live s' hc
  · intro s' hm x hx
    rw [hlist] at hm
    rw [hserv] at hx
    by_cases hs : s' = s
    · subst hs
      rw [push_self] at hx
      rcases List.mem_append.mp hx with hx | hx
      · exact h.listed s' hm x hx
      · obtain rfl := List.mem_singleton.mp hx
        by_contra hreq
        exact hm (hat hreq)
    · rw [push_of_ne req hs] at hx
      exact h.listed s' hm x hx
  · intro r call k hl s' hs
    rw [ha] at hs
    rw [hlist]
    obtain ⟨k', hl'⟩ := hlay r call k hl
    exact h.choice r call k' hl' s' hs

/-- Nothing is queued or resumed. -/
theorem Placed.of_frame (h : Placed st) (hserv : st'.servers = st.servers) (hres : st'.resumed = st.resumed)
    (hsub : ∀ s ∈ st.mChunkServers, s ∈ st'.mChunkServers)
    (hone : ∀ s k, st'.Queued s k ↔ st.Queued s k)
    (hch : ∀ r call k, st'.layout = some (r, call, k) → ∀ s ∈ (st'.allocs r).servers, s ∈ st'.mChunkServers) :
    Placed st' where
  one s k := by
    rw [if_congr (hone s k) rfl rfl, ← h.one s k, queue, hserv, ended, hres]
    rfl
  apart s := by
    rw [queue, hserv]
    exact h.apart s
  below s x hx := by
    rw [queue, hserv] at hx
    rw [hserv]
    exact h.below s x hx
  live s := by
    rw [hserv]
    exact h.live s
  listed s hm := by
    rw [hserv]
    exact h.listed s fun hm' => hm (hsub s hm')
  choice := hch

theorem Placed.step (h : Placed st) (hs : st.step e = some st') : Placed st' := by
  rcases step_cases hs with ⟨s, rfl, -, rfl⟩ | ⟨r, call, servers, rfl, hl, hnil, -, hsub, rfl⟩ |
    ⟨r, call, k, s, rfl, hl, hk, rfl⟩ | ⟨r, call, k, rfl, hl, hk, rfl⟩ | ⟨s, rfl, rfl⟩ | ⟨s, rfl, hc, rfl⟩ |
    ⟨s, v, xs, -, hd⟩ | ⟨rfl, -⟩
  · refine h.of_frame rfl rfl (fun s' hm => List.mem_append_left _ hm) (fun _ _ => Iff.rfl) ?_
    exact fun r call k hl s' hm => List.mem_append_left _ (h.choice r call k hl s' hm)
  · refine h.of_frame rfl rfl (fun _ hm => hm) ?_ ?_
    · -- nothing of the allocation had been queued, and nothing is yet
      intro s k
      unfold Queued sent
      by_cases hr : k.1 = r
      · subst hr
        simp [hnil, setAlloc]
      · have hr' : r ≠ k.1 := fun heq => hr heq.symm
        simp [hl, setAlloc, hr, hr']
    · intro r' call' k' hl' s hm
      obtain ⟨rfl, -⟩ := Prod.mk.inj (Option.some.inj hl')
      exact hsub s (by simpa [setAlloc] using hm)
  · have hlt : k < (st.allocs r).servers.length := (List.getElem?_eq_some_iff.mp hk).1
    refine h.push (some (r, k)) rfl rfl rfl (fun _ => rfl) ?_ ?_ ?_
    · exact fun _ => h.choice r call k hl s (List.mem_of_getElem? hk)
    · rintro s' ⟨r', i⟩
      by_cases hr : r' = r
      · subst hr
        have h₁ : Queued { st.AllocateChunk s r' k with layout := some (r', call, k + 1) } s' (r', i) ↔
            (st.allocs r').servers[i]? = some s' ∧ i < k + 1 := by
          simp [Queued, sent, AllocateChunk, setServer]
        have h₂ : st.Queued s' (r', i) ↔ (st.allocs r').servers[i]? = some s' ∧ i < k := by
          simp [Queued, sent, hl]
        rw [if_congr h₁ rfl rfl, if_congr h₂ rfl rfl]
        by_cases hi : i = k
        · subst hi
          by_cases hss : s' = s
          · simp [hk, hss]
          · have hss' : ¬ s = s' := fun heq => hss heq.symm
            simp [hk, hss, hss']
        · have hi' : ¬ k = i := fun heq => hi heq.symm
          have hlt' : i < k + 1 ↔ i < k := by omega
          simp [hi', hlt']
      · have hr' : ¬ r = r' := fun heq => hr heq.symm
        simp [Queued, sent, hl, hr', AllocateChunk, setServer]
    · intro r' call' k' hl'
      obtain ⟨rfl, heq⟩ := Prod.mk.inj (Option.some.inj hl')
      obtain ⟨rfl, -⟩ := Prod.mk.inj heq
      exact ⟨k, hl⟩
  · refine h.of_frame rfl rfl (fun _ hm => hm) ?_ (fun _ _ _ hl' => by cases hl')
    rintro s ⟨r', i⟩
    have hbound : (st.allocs r').servers[i]? = some s → i < (st.allocs r').servers.length :=
      fun heq => (List.getElem?_eq_some_iff.mp heq).1
    by_cases hr : r' = r
    · subst hr
      simp only [Queued, sent, hl, setAlloc, Function.update_self, if_true]
      exact and_congr_right fun heq => iff_of_true (hbound heq) ((hbound heq).trans_le hk)
    · have hr' : ¬ r = r' := fun heq => hr heq.symm
      simp [Queued, sent, hl, hr', hr, setAlloc]
  · refine h.push none rfl rfl rfl (fun _ => rfl) (fun hne => absurd rfl hne) ?_ ?_
    · intro s' k
      simp only [reduceCtorEq, and_false, if_false, Nat.add_zero]
      rfl
    · exact fun r call k hl => ⟨k, hl⟩
  · refine h.shuffle 0 [] (fun s' hne => Function.update_of_ne hne _ _) ?_ ?_ ?_ ?_ (Or.inl rfl) rfl
      (fun _ => rfl) (by simp [setServer])
    · rw [setServer_self]
      exact List.nil_subset _
    · rw [queue, setServer_self, List.append_nil, List.nil_append]
      exact List.perm_append_comm
    · rw [setServer_self]
    · rw [setServer_self, hc]
      exact fun hf => by cases hf
  · exact h.drain hd
  · exact h

/-! ## Counting -/

/-- An RPC that has been resumed had been queued. -/
theorem Placed.queued_of_resumed (h : Placed st) {p : ServerId × ChunkRpc × ℤ} {k : ℕ × ℕ} (hp : p ∈ st.resumed)
    (hk : p.2.1.req = some k) : st.Queued p.1 k := by
  by_contra hq
  have hone := h.one p.1 k
  rw [if_neg hq] at hone
  have hpos : 0 < st.ended p.1 k := List.countP_pos_iff.mpr ⟨p, hp, by simp [ChunkRpc.isFor, hk]⟩
  omega

/-- No RPC is resumed twice. -/
theorem Placed.resumed_le_one (h : Placed st) (k : ℕ × ℕ) :
    (st.resumed.countP fun p => p.2.1.isFor k) ≤ 1 := by
  cases hs : (st.allocs k.1).servers[k.2]? with
  | none =>
    have hzero : (st.resumed.countP fun p => p.2.1.isFor k) = 0 := by
      refine List.countP_eq_zero.mpr fun p hp hk => ?_
      have hq := (h.queued_of_resumed hp (by simpa [ChunkRpc.isFor] using hk)).1
      rw [hs] at hq
      cases hq
    omega
  | some s =>
    have hsame : (st.resumed.countP fun p => p.2.1.isFor k) = st.ended s k := by
      refine List.countP_congr fun p hp => ?_
      simp only [Bool.and_eq_true, decide_eq_true_eq]
      refine ⟨fun hk => ⟨?_, hk⟩, fun hk => hk.2⟩
      have hq := (h.queued_of_resumed hp (by simpa [ChunkRpc.isFor] using hk)).1
      exact Option.some.inj (hq.symm.trans hs)
    have hone := h.one s k
    split_ifs at hone <;> omega

theorem of_iff {r : ℕ} : x.of r = true ↔ ∃ i, x.req = some (r, i) := by
  cases hx : x.req with
  | none => simp [ChunkRpc.of, hx]
  | some k =>
    obtain ⟨r', i⟩ := k
    simp [ChunkRpc.of, hx]

/-- The RPCs of an allocation, counted by the places of their servers. -/
theorem countP_of_eq_sum (r n : ℕ) : ∀ ps : List (ServerId × ChunkRpc × ℤ),
    (∀ p ∈ ps, ∀ i, p.2.1.req = some (r, i) → i < n) →
    (ps.countP fun p => p.2.1.of r) = ∑ i ∈ Finset.range n, ps.countP fun p => p.2.1.isFor (r, i)
  | [], _ => by simp
  | p :: ps, h => by
    have ih := countP_of_eq_sum r n ps fun q hq => h q (List.mem_cons_of_mem _ hq)
    simp only [List.countP_cons, Finset.sum_add_distrib, ← ih, Nat.add_left_cancel_iff]
    by_cases hof : p.2.1.of r = true
    · obtain ⟨j, hj⟩ := of_iff.mp hof
      have hlt : j < n := h p List.mem_cons_self j hj
      simp [hof, ChunkRpc.isFor, hj, hlt]
    · have hno : ∀ i, p.2.1.req ≠ some (r, i) := fun i hi => hof (of_iff.mpr ⟨i, hi⟩)
      simp [hof, ChunkRpc.isFor, hno]

theorem Placed.count_of (h : Placed st) (r : ℕ) :
    (st.resumed.countP fun p => p.2.1.of r) =
      ∑ i ∈ Finset.range (st.allocs r).servers.length, st.resumed.countP fun p => p.2.1.isFor (r, i) := by
  refine countP_of_eq_sum r _ _ fun p hp i hi => ?_
  exact (List.getElem?_eq_some_iff.mp (h.queued_of_resumed hp hi).1).1

theorem Placed.count_le (h : Placed st) (r : ℕ) :
    (st.resumed.countP fun p => p.2.1.of r) ≤ (st.allocs r).servers.length := by
  rw [h.count_of]
  calc ∑ i ∈ Finset.range (st.allocs r).servers.length, st.resumed.countP (fun p => p.2.1.isFor (r, i))
      ≤ ∑ _i ∈ Finset.range (st.allocs r).servers.length, 1 :=
        Finset.sum_le_sum fun i _ => h.resumed_le_one (r, i)
    _ = (st.allocs r).servers.length := by simp

theorem Tallied.step (h : Tallied st) (hp : Placed st) (hs : st.step e = some st') : Tallied st' := by
  rcases step_cases hs with ⟨s, rfl, -, rfl⟩ | ⟨r, call, servers, rfl, hl, hnil, hne, hsub, rfl⟩ |
    ⟨r, call, k, s, rfl, hl, hk, rfl⟩ | ⟨r, call, k, rfl, hl, hk, rfl⟩ | ⟨s, rfl, rfl⟩ | ⟨s, rfl, hc, rfl⟩ |
    ⟨s, v, xs, -, hd⟩ | ⟨rfl, -⟩
  · exact ⟨h.replies, h.done, h.once⟩
  · -- none of its RPCs has been resumed
    have hzero : (st.allocs r).numServerReplies = 0 := by
      have hle := hp.count_le r
      rw [hnil, ← h.replies r] at hle
      exact Nat.le_zero.mp hle
    have hnot : (st.allocs r).layoutDone = false := by
      rw [h.done r, hnil]
      rfl
    refine ⟨fun r' => ?_, fun r' => ?_, fun r' => ?_⟩
    all_goals by_cases hr : r' = r
    · subst hr
      simpa [setAlloc] using h.replies r'
    · simpa [setAlloc, hr] using h.replies r'
    · subst hr
      simp [setAlloc, hnot, hzero, hne]
    · simpa [setAlloc, hr] using h.done r'
    · subst hr
      simpa [setAlloc] using h.once r'
    · simpa [setAlloc, hr] using h.once r'
  · exact ⟨h.replies, h.done, h.once⟩
  · refine h.of_frame rfl rfl fun r' => ?_
    by_cases hr : r' = r
    · subst hr
      simp [setAlloc]
    · simp [setAlloc, hr]
  · exact ⟨h.replies, h.done, h.once⟩
  · exact ⟨h.replies, h.done, h.once⟩
  · exact hd.tallied h
  · exact h

/-- No RPC of the allocation has failed when `GetChunkWriteLease` returns. -/
def Undisturbed (st : FanIn) : FanEv → Prop
  | .ret => ∀ r k, st.layout = some (r, .GetChunkWriteLease, k) → ∀ p ∈ st.resumed, p.2.1.of r = true → p.2.2 = 0
  | _ => True

theorem Faithful.step (h : Faithful st) (hp : Placed st) (hu : st.Undisturbed e) (hs : st.step e = some st') :
    Faithful st' := by
  rcases step_cases hs with ⟨s, rfl, -, rfl⟩ | ⟨r, call, servers, rfl, hl, hnil, hne, hsub, rfl⟩ |
    ⟨r, call, k, s, rfl, hl, hk, rfl⟩ | ⟨r, call, k, rfl, hl, hk, rfl⟩ | ⟨s, rfl, rfl⟩ | ⟨s, rfl, hc, rfl⟩ |
    ⟨s, v, xs, -, hd⟩ | ⟨rfl, -⟩
  · exact ⟨h.leasing, h.told⟩
  · have hnone : ∀ p ∈ st.resumed, p.2.1.of r = true → p.2.2 = 0 := by
      intro p hm hof
      obtain ⟨i, hi⟩ := of_iff.mp hof
      have hq := (hp.queued_of_resumed hm hi).1
      simp [hnil] at hq
    refine ⟨?_, ?_⟩
    · intro r' k hl'
      obtain ⟨rfl, heq⟩ := Prod.mk.inj (Option.some.inj hl')
      obtain ⟨rfl, -⟩ := Prod.mk.inj heq
      simp [setAlloc, EEXIST]
    · intro r' hl'
      by_cases hr : r' = r
      · subst hr
        cases call with
        | AllocateChunk => simpa [setAlloc] using hnone
        | GetChunkWriteLease => exact absurd rfl (hl' 0)
      · have hold := h.told r' (by simp [hl])
        simpa [setAlloc, hr] using hold
  · refine ⟨?_, ?_⟩
    · intro r' k' hl'
      obtain ⟨rfl, heq⟩ := Prod.mk.inj (Option.some.inj hl')
      obtain ⟨rfl, -⟩ := Prod.mk.inj heq
      exact h.leasing r k hl
    · intro r' hl'
      refine h.told r' ?_
      intro k' hl''
      rw [hl] at hl''
      obtain ⟨rfl, heq⟩ := Prod.mk.inj (Option.some.inj hl'')
      obtain ⟨rfl, -⟩ := Prod.mk.inj heq
      exact hl' _ rfl
  · refine ⟨fun _ _ hl' => (by cases hl'), fun r' _ => ?_⟩
    by_cases hr : r' = r
    · subst hr
      cases call with
      | AllocateChunk =>
        have hold := h.told r' (by simp [hl])
        simpa [setAlloc] using hold
      | GetChunkWriteLease =>
        have hall := hu r' k hl
        simpa [setAlloc] using hall
    · have hold := h.told r' (by
        intro k' hl'
        rw [hl] at hl'
        exact hr (Prod.mk.inj (Option.some.inj hl')).1.symm)
      simpa [setAlloc, hr] using hold
  · exact ⟨h.leasing, h.told⟩
  · exact ⟨h.leasing, h.told⟩
  · exact hd.faithful h
  · exact h

end FanIn

end Kfs
