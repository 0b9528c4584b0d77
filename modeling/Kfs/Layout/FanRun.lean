import Kfs.Layout.FanPlaces

/-!
# Runs of the fan-in

* the steps that bring an RPC on: `dispatch_step`, `answer_step`;
* `FanRun`, `FanRun.Fair`;
* **`fan_in_complete`**: every RPC is resumed once and the allocation submitted once, with the status of its RPCs.
-/

namespace Kfs

namespace FanIn

variable {st st' : FanIn} {s : ServerId} {r : ℕ} {v : ℤ} {x : ChunkRpc} {xs : List ChunkRpc} {e : FanEv}

/-! ## Progress -/

/-- The RPC has come back. -/
def Back (s : ServerId) (x : ChunkRpc) (st : FanIn) : Prop := ∃ v, (s, x, v) ∈ st.resumed

theorem resumed_step (hs : st.step e = some st') : st.resumed <+: st'.resumed := by
  rcases step_cases hs with ⟨s, rfl, -, rfl⟩ | ⟨r, call, servers, rfl, -, -, -, -, rfl⟩ |
    ⟨r, call, k, s, rfl, -, -, rfl⟩ | ⟨r, call, k, rfl, -, -, rfl⟩ | ⟨s, rfl, rfl⟩ | ⟨s, rfl, -, rfl⟩ |
    ⟨s, v, xs, -, hd⟩ | ⟨rfl, -⟩
  case inr.inr.inr.inr.inr.inr.inl =>
    rw [hd.resumed]
    exact List.prefix_append _ _
  all_goals exact List.prefix_rfl

theorem Back.step (h : Back s x st) (hs : st.step e = some st') : Back s x st' := by
  obtain ⟨v, hv⟩ := h
  exact ⟨v, (resumed_step hs).subset hv⟩

/-- An RPC leaves the queues only to be resumed. -/
theorem queue_step (hx : x ∈ st.queue s) (hs : st.step e = some st') : x ∈ st'.queue s ∨ Back s x st' := by
  have hpush : ∀ s' req, x ∈ (st.push s' req).queue s := by
    intro s' req
    by_cases heq : s = s'
    · subst heq
      exact (queue_push st s req).symm.subset (List.mem_cons_of_mem _ hx)
    · unfold queue
      rw [push_of_ne req heq]
      exact hx
  rcases step_cases hs with ⟨s', rfl, -, rfl⟩ | ⟨r, call, servers, rfl, -, -, -, -, rfl⟩ |
    ⟨r, call, k, s', rfl, -, -, rfl⟩ | ⟨r, call, k, rfl, -, -, rfl⟩ | ⟨s', rfl, rfl⟩ | ⟨s', rfl, -, rfl⟩ |
    ⟨s', v, xs, -, hd⟩ | ⟨rfl, -⟩
  · exact Or.inl hx
  · exact Or.inl hx
  · exact Or.inl (hpush s' (some (r, k)))
  · exact Or.inl hx
  · exact Or.inl (hpush s' none)
  · by_cases heq : s = s'
    · subst heq
      refine Or.inl ?_
      rw [queue, setServer_self, List.nil_append]
      exact List.perm_append_comm.subset hx
    · refine Or.inl ?_
      rwa [queue, setServer_of_ne _ _ heq]
  · by_cases heq : s = s'
    · subst heq
      rcases List.mem_append.mp (hd.moved.symm.subset hx) with hx | hx
      · exact Or.inl hx
      · refine Or.inr ⟨v, ?_⟩
        rw [hd.resumed]
        exact List.mem_append_right _ (List.mem_map_of_mem hx)
    · refine Or.inl ?_
      rwa [queue, hd.elsewhere s heq]
  · exact Or.inl hx

/-- An RPC that has been sent is not sent again. -/
theorem dispatched_step (hp : Placed st) (hx : x ∈ (st.servers s).mDispatchedReqs) (hs : st.step e = some st') :
    x ∈ (st'.servers s).mDispatchedReqs ∨ Back s x st' := by
  have hpush : ∀ s' req, x ∈ ((st.push s' req).servers s).mDispatchedReqs := by
    intro s' req
    by_cases heq : s = s'
    · subst heq
      rw [push_self]
      exact hx
    · rw [push_of_ne req heq]
      exact hx
  rcases step_cases hs with ⟨s', rfl, -, rfl⟩ | ⟨r, call, servers, rfl, -, -, -, -, rfl⟩ |
    ⟨r, call, k, s', rfl, -, -, rfl⟩ | ⟨r, call, k, rfl, -, -, rfl⟩ | ⟨s', rfl, rfl⟩ | ⟨s', rfl, -, rfl⟩ |
    ⟨s', v, xs, -, hd⟩ | ⟨rfl, -⟩
  · exact Or.inl hx
  · exact Or.inl hx
  · exact Or.inl (hpush s' (some (r, k)))
  · exact Or.inl hx
  · exact Or.inl (hpush s' none)
  · refine Or.inl ?_
    by_cases heq : s = s'
    · subst heq
      rw [setServer_self]
      exact List.mem_append_left _ hx
    · rwa [setServer_of_ne _ _ heq]
  · by_cases heq : s = s'
    · subst heq
      rcases List.mem_append.mp (hd.moved.symm.subset (List.mem_append_right _ hx)) with hx' | hx'
      · rcases List.mem_append.mp hx' with hpend | hdisp
        · -- it would be pending as well
          exfalso
          have hnd := hp.apart s
          rw [queue, List.map_append] at hnd
          exact List.disjoint_of_nodup_append hnd (List.mem_map_of_mem (hd.pending.subset hpend))
            (List.mem_map_of_mem hx)
        · exact Or.inl hdisp
      · refine Or.inr ⟨v, ?_⟩
        rw [hd.resumed]
        exact List.mem_append_right _ (List.mem_map_of_mem hx')
    · refine Or.inl ?_
      rwa [hd.elsewhere s heq]
  · exact Or.inl hx

/-- `Dispatch` leaves nothing pending. -/
theorem dispatch_step (hp : Placed st) (hx : x ∈ st.queue s) (hs : st.step (.dispatch s) = some st') :
    x ∈ (st'.servers s).mDispatchedReqs ∨ Back s x st' := by
  rcases List.mem_append.mp hx with hpend | hdisp
  swap
  · exact dispatched_step hp hdisp hs
  rcases step_cases hs with ⟨s', h, -⟩ | ⟨r, call, servers, h, -⟩ | ⟨r, call, k, s', h, -⟩ | ⟨r, call, k, h, -⟩ |
    ⟨s', h, -⟩ | ⟨s', h, -, rfl⟩ | ⟨s', v, xs, ht, hd⟩ | ⟨-, ⟨s', cseq, v, h, -⟩ | ⟨s', h⟩⟩
  case inr.inr.inr.inr.inr.inl =>
    obtain rfl : s = s' := by injection h
    refine Or.inl ?_
    rw [setServer_self]
    exact List.mem_append_right _ hpend
  case inr.inr.inr.inr.inr.inr.inl =>
    cases ht
    refine Or.inr ⟨- EIO, ?_⟩
    rw [hd.resumed]
    exact List.mem_append_right _ (List.mem_map_of_mem hpend)
  all_goals cases h

/-- A sent RPC is resumed by its reply, or by the error of the connection. -/
theorem answer_step (hp : Placed st) (hx : x ∈ (st.servers s).mDispatchedReqs)
    (he : e = .netError s ∨ ∃ v, e = .reply s x.opSeqno v) (hs : st.step e = some st') : Back s x st' := by
  rcases step_cases hs with ⟨s', h, -⟩ | ⟨r, call, servers, h, -⟩ | ⟨r, call, k, s', h, -⟩ | ⟨r, call, k, h, -⟩ |
    ⟨s', h, -⟩ | ⟨s', h, -, rfl⟩ | ⟨s', v, xs, ht, hd⟩ | ⟨-, ⟨s', cseq, v, h, hno⟩ | ⟨s', h⟩⟩
  case inr.inr.inr.inr.inr.inr.inl =>
    have hmem : s' = s ∧ x ∈ xs := by
      cases ht with
      | netError s' =>
        rcases he with he | ⟨v, he⟩
        · injection he with he
          subst he
          exact ⟨rfl, hx⟩
        · cases he
      | reply s' v y hy =>
        rcases he with he | ⟨v', he⟩
        · cases he
        · injection he with hss hseq
          subst hss
          refine ⟨rfl, List.mem_singleton.mpr ?_⟩
          have hnd := (List.nodup_append.mp (List.map_append ▸ hp.apart s')).2.1
          exact List.inj_on_of_nodup_map hnd hx hy hseq.symm
      | dispatch s' hc =>
        rcases he with he | ⟨v, he⟩
        · cases he
        · cases he
      | bye s' =>
        rcases he with he | ⟨v, he⟩
        · cases he
        · cases he
    obtain ⟨rfl, hm⟩ := hmem
    refine ⟨v, ?_⟩
    rw [hd.resumed]
    exact List.mem_append_right _ (List.mem_map_of_mem hm)
  case inr.inr.inr.inr.inr.inr.inr.inl =>
    rcases he with he | ⟨v', he⟩
    · rw [he] at h
      cases h
    · rw [he] at h
      injection h with hss hseq
      subst hss
      exact absurd hseq (hno x hx)
  all_goals
    rcases he with he | ⟨v', he⟩
    · rw [he] at h
      cases h
    · rw [he] at h
      cases h

/-- The servers of an allocation are chosen once. -/
theorem servers_step (h : (st.allocs r).servers ≠ []) (hidle : ∀ call k, st.layout ≠ some (r, call, k))
    (hs : st.step e = some st') :
    (st'.allocs r).servers = (st.allocs r).servers ∧ ∀ call k, st'.layout ≠ some (r, call, k) := by
  rcases step_cases hs with ⟨s, rfl, -, rfl⟩ | ⟨r', call, servers, rfl, -, hnil, -, -, rfl⟩ |
    ⟨r', call, k, s, rfl, hl, -, rfl⟩ | ⟨r', call, k, rfl, hl, -, rfl⟩ | ⟨s, rfl, rfl⟩ | ⟨s, rfl, -, rfl⟩ |
    ⟨s, v, xs, -, hd⟩ | ⟨rfl, -⟩
  · exact ⟨rfl, hidle⟩
  · have hne : r ≠ r' := fun heq => h (heq ▸ hnil)
    refine ⟨by simp [setAlloc, hne], fun call' k hl => hne ?_⟩
    exact (Prod.mk.inj (Option.some.inj hl)).1.symm
  · refine ⟨rfl, fun call' k' hl' => ?_⟩
    obtain ⟨rfl, -⟩ := Prod.mk.inj (Option.some.inj hl')
    exact hidle call k hl
  · refine ⟨?_, fun _ _ hl' => by cases hl'⟩
    by_cases heq : r = r'
    · subst heq
      simp [setAlloc]
    · simp [setAlloc, heq]
  · exact ⟨rfl, hidle⟩
  · exact ⟨rfl, hidle⟩
  · exact ⟨hd.places r, by rw [hd.layout]; exact hidle⟩
  · exact ⟨rfl, hidle⟩

/-- A metaserver that has just been started. -/
def Fresh (st : FanIn) : Prop :=
  (∀ r, st.allocs r = ⟨0, false, false, [], 0⟩) ∧
    (∀ s, (st.servers s).mPendingReqs = [] ∧ (st.servers s).mDispatchedReqs = []) ∧
    st.layout = none ∧ st.submitted = [] ∧ st.resumed = []

theorem Fresh.placed (h : Fresh st) : Placed st := by
  obtain ⟨ha, hq, hl, -, hr⟩ := h
  refine ⟨?_, ?_, ?_, fun s _ => (hq s).2, ?_, ?_⟩
  · intro s k
    simp [queue, hq s, ended, hr, Queued, ha]
  · intro s
    simp [queue, hq s]
  · intro s x hx
    simp [queue, hq s] at hx
  · intro s _ x hx
    simp [hq s] at hx
  · intro r call k hl'
    rw [hl] at hl'
    cases hl'

theorem Fresh.tallied (h : Fresh st) : Tallied st := by
  obtain ⟨ha, -, -, hs, hr⟩ := h
  refine ⟨fun r => ?_, fun r => ?_, fun r => ?_⟩
  · simp [ha, hr]
  · simp [ha]
  · simp [ha, hs]

theorem Fresh.faithful (h : Fresh st) : Faithful st := by
  obtain ⟨ha, -, hl, -, hr⟩ := h
  refine ⟨fun r k hl' => ?_, fun r _ => ?_⟩
  · rw [hl] at hl'
    cases hl'
  · simp [ha, hr]

end FanIn

/-! ## Runs -/

/-- A run that goes on for ever; at a time without an event nothing happens. -/
structure FanRun where
  st : ℕ → FanIn
  ev : ℕ → Option FanEv
  next : ∀ t, match ev t with
    | some e => (st t).step e = some (st (t + 1))
    | none => st (t + 1) = st t

namespace FanRun

open FanIn

variable {ρ : FanRun} {t t' r : ℕ} {s : ServerId} {x : ChunkRpc}

/-- What waits for a listed server is dispatched, and a server that an RPC was sent to answers it, or its connection
breaks. -/
structure Fair (ρ : FanRun) : Prop where
  dispatch : ∀ t s, s ∈ (ρ.st t).mChunkServers → ∃ t' ≥ t, ρ.ev t' = some (.dispatch s) ∨
    s ∉ (ρ.st t').mChunkServers ∨ ((ρ.st t').servers s).mPendingReqs = []
  answer : ∀ t s, ∀ x ∈ ((ρ.st t).servers s).mDispatchedReqs, ∃ t' ≥ t, ρ.ev t' = some (.netError s) ∨
    (∃ v, ρ.ev t' = some (.reply s x.opSeqno v)) ∨ x ∉ ((ρ.st t').servers s).mDispatchedReqs

/-- What every step keeps is kept for ever. -/
theorem keep {P : FanIn → Prop} (ρ : FanRun)
    (hP : ∀ t e, ρ.ev t = some e → P (ρ.st t) → (ρ.st t).step e = some (ρ.st (t + 1)) → P (ρ.st (t + 1)))
    (h : P (ρ.st t)) (hle : t ≤ t') : P (ρ.st t') := by
  induction t', hle using Nat.le_induction with
  | base => exact h
  | succ t' _ ih =>
    have hn := ρ.next t'
    cases he : ρ.ev t' with
    | none =>
      rw [he] at hn
      rwa [hn]
    | some e =>
      rw [he] at hn
      exact hP t' e he ih hn

theorem placed (h₀ : Fresh (ρ.st 0)) (t : ℕ) : Placed (ρ.st t) :=
  ρ.keep (fun _ _ _ h hs => h.step hs) h₀.placed (Nat.zero_le t)

theorem tallied (h₀ : Fresh (ρ.st 0)) (t : ℕ) : Tallied (ρ.st t) :=
  (ρ.keep (P := fun st => Placed st ∧ Tallied st) (fun _ _ _ h hs => ⟨h.1.step hs, h.2.step h.1 hs⟩)
    ⟨h₀.placed, h₀.tallied⟩ (Nat.zero_le t)).2

theorem faithful (h₀ : Fresh (ρ.st 0)) (hu : ∀ t e, ρ.ev t = some e → (ρ.st t).Undisturbed e) (t : ℕ) :
    Faithful (ρ.st t) :=
  (ρ.keep (P := fun st => Placed st ∧ Faithful st)
    (fun t e he h hs => ⟨h.1.step hs, h.2.step h.1 (hu t e he) hs⟩) ⟨h₀.placed, h₀.faithful⟩ (Nat.zero_le t)).2

theorem back_later (h : Back s x (ρ.st t)) (hle : t ≤ t') : Back s x (ρ.st t') :=
  ρ.keep (fun _ _ _ h hs => h.step hs) h hle

theorem queue_later (h : x ∈ (ρ.st t).queue s) (hle : t ≤ t') : x ∈ (ρ.st t').queue s ∨ Back s x (ρ.st t') :=
  ρ.keep (P := fun st => x ∈ st.queue s ∨ Back s x st)
    (fun _ _ _ h hs => h.elim (fun hx => queue_step hx hs) fun hb => Or.inr (hb.step hs)) (Or.inl h) hle

theorem dispatched_later (h₀ : Fresh (ρ.st 0)) (h : x ∈ ((ρ.st t).servers s).mDispatchedReqs) (hle : t ≤ t') :
    x ∈ ((ρ.st t').servers s).mDispatchedReqs ∨ Back s x (ρ.st t') :=
  ρ.keep (P := fun st => x ∈ (st.servers s).mDispatchedReqs ∨ Back s x st)
    (fun t _ _ h hs => h.elim (fun hx => dispatched_step (placed h₀ t) hx hs) fun hb => Or.inr (hb.step hs))
    (Or.inl h) hle

/-- The state after a time with an event. -/
theorem step_of_ev {e : FanEv} (h : ρ.ev t = some e) : (ρ.st t).step e = some (ρ.st (t + 1)) := by
  have hn := ρ.next t
  rwa [h] at hn

/-- A sent RPC comes back. -/
theorem Fair.back_of_dispatched (hf : ρ.Fair) (h₀ : Fresh (ρ.st 0))
    (h : x ∈ ((ρ.st t).servers s).mDispatchedReqs) : ∃ t' ≥ t, Back s x (ρ.st t') := by
  obtain ⟨t', hle, hev⟩ := hf.answer t s x h
  rcases dispatched_later h₀ h hle with hx | hb
  swap
  · exact ⟨t', hle, hb⟩
  rcases hev with he | ⟨v, he⟩ | hno
  · exact ⟨t' + 1, by omega, answer_step (placed h₀ t') hx (Or.inl rfl) (step_of_ev he)⟩
  · exact ⟨t' + 1, by omega, answer_step (placed h₀ t') hx (Or.inr ⟨v, rfl⟩) (step_of_ev he)⟩
  · exact absurd hx hno

/-- **An RPC of an allocation comes back**, whatever happens to its server. -/
theorem Fair.back_of_queue (hf : ρ.Fair) (h₀ : Fresh (ρ.st 0)) (hreq : x.req ≠ none) (h : x ∈ (ρ.st t).queue s) :
    ∃ t' ≥ t, Back s x (ρ.st t') := by
  -- first it is sent, unless it comes back at once
  obtain ⟨t₁, hle₁, h₁⟩ : ∃ t₁ ≥ t, x ∈ ((ρ.st t₁).servers s).mDispatchedReqs ∨ Back s x (ρ.st t₁) := by
    by_cases hm : s ∈ (ρ.st t).mChunkServers
    · obtain ⟨t', hle, hev⟩ := hf.dispatch t s hm
      rcases queue_later h hle with hx | hb
      swap
      · exact ⟨t', hle, Or.inr hb⟩
      rcases hev with he | hgone | hnil
      · exact ⟨t' + 1, by omega, dispatch_step (placed h₀ t') hx (step_of_ev he)⟩
      · refine ⟨t', hle, Or.inl ((List.mem_append.mp hx).resolve_left fun hp => ?_)⟩
        exact hreq ((placed h₀ t').listed s hgone x hp)
      · refine ⟨t', hle, Or.inl ((List.mem_append.mp hx).resolve_left fun hp => ?_)⟩
        rw [hnil] at hp
        cases hp
    · refine ⟨t, le_rfl, Or.inl ((List.mem_append.mp h).resolve_left fun hp => ?_)⟩
      exact hreq ((placed h₀ t).listed s hm x hp)
  rcases h₁ with hx | hb
  · obtain ⟨t₂, hle₂, hb⟩ := hf.back_of_dispatched h₀ hx
    exact ⟨t₂, hle₁.trans hle₂, hb⟩
  · exact ⟨t₁, hle₁, hb⟩

/-- The RPC for the `i`-th server comes back. -/
theorem Fair.back_of_queued (hf : ρ.Fair) (h₀ : Fresh (ρ.st 0)) {k : ℕ × ℕ} (h : (ρ.st t).Queued s k) :
    ∃ t' ≥ t, ∃ x, x.req = some k ∧ Back s x (ρ.st t') := by
  have hone := (placed h₀ t).one s k
  rw [if_pos h] at hone
  by_cases hq : ∃ x ∈ (ρ.st t).queue s, x.req = some k
  · obtain ⟨x, hx, hk⟩ := hq
    obtain ⟨t', hle, hb⟩ := hf.back_of_queue h₀ (by simp [hk]) hx
    exact ⟨t', hle, x, hk, hb⟩
  · have hzero : ((ρ.st t).queue s).countP (ChunkRpc.isFor k) = 0 :=
      List.countP_eq_zero.mpr fun x hx hk => hq ⟨x, hx, by simpa [ChunkRpc.isFor] using hk⟩
    have hpos : 0 < (ρ.st t).ended s k := by omega
    obtain ⟨⟨s', x, v⟩, hp, heq⟩ := List.countP_pos_iff.mp hpos
    simp only [Bool.and_eq_true, decide_eq_true_eq, ChunkRpc.isFor] at heq
    obtain ⟨rfl, hk⟩ := heq
    exact ⟨t, le_rfl, x, hk, v, hp⟩

end FanRun

namespace FanIn

/-- At no time has anything been done twice for the allocation. -/
structure AtMostOnce (st : FanIn) (r : ℕ) : Prop where
  each : ∀ i, (st.resumed.countP fun p => p.2.1.isFor (r, i)) ≤ 1
  replies : (st.allocs r).numServerReplies ≤ (st.allocs r).servers.length
  submitted : st.submitted.count r = if (st.allocs r).layoutDone then 1 else 0
  done : (st.allocs r).layoutDone = true ↔
    0 < (st.allocs r).servers.length ∧ (st.allocs r).numServerReplies = (st.allocs r).servers.length

/-- The fan-in of the allocation is over. -/
structure Complete (st : FanIn) (r : ℕ) : Prop where
  each : ∀ i < (st.allocs r).servers.length, (st.resumed.countP fun p => p.2.1.isFor (r, i)) = 1
  replies : (st.allocs r).numServerReplies = (st.allocs r).servers.length
  submitted : st.submitted.count r = 1
  done : (st.allocs r).layoutDone = true
  status : (st.allocs r).status = 0 ↔ ∀ p ∈ st.resumed, p.2.1.of r = true → p.2.2 = 0

theorem Placed.atMostOnce (h : Placed st) (ht : Tallied st) (r : ℕ) : AtMostOnce st r := by
  have hle := h.count_le r
  rw [← ht.replies r] at hle
  refine ⟨fun i => h.resumed_le_one (r, i), hle, ht.once r, ?_⟩
  rw [ht.done r, decide_eq_true_iff]
  omega

/-- When every RPC has come back. -/
theorem Placed.complete (h : Placed st) (ht : Tallied st) (hf : Faithful st) (hne : (st.allocs r).servers ≠ [])
    (hidle : ∀ call k, st.layout ≠ some (r, call, k))
    (hall : ∀ i < (st.allocs r).servers.length, ∃ s x, x.req = some (r, i) ∧ Back s x st) : Complete st r := by
  have heach : ∀ i < (st.allocs r).servers.length, (st.resumed.countP fun p => p.2.1.isFor (r, i)) = 1 := by
    intro i hi
    obtain ⟨s, x, hx, v, hv⟩ := hall i hi
    have hpos : 0 < st.resumed.countP fun p => p.2.1.isFor (r, i) :=
      List.countP_pos_iff.mpr ⟨_, hv, by simp [ChunkRpc.isFor, hx]⟩
    have hle := h.resumed_le_one (r, i)
    omega
  have hcount : (st.allocs r).numServerReplies = (st.allocs r).servers.length := by
    rw [ht.replies r, h.count_of]
    calc ∑ i ∈ Finset.range (st.allocs r).servers.length, st.resumed.countP (fun p => p.2.1.isFor (r, i))
        = ∑ _i ∈ Finset.range (st.allocs r).servers.length, 1 :=
          Finset.sum_congr rfl fun i hi => heach i (Finset.mem_range.mp hi)
      _ = (st.allocs r).servers.length := by simp
  have hdone : (st.allocs r).layoutDone = true := by
    rw [ht.done r, hcount]
    simpa using List.length_pos_iff.mpr hne
  refine ⟨heach, hcount, ?_, hdone, hf.told r fun k => hidle _ k⟩
  rw [ht.once r, hdone]
  rfl

end FanIn

namespace FanRun

open FanIn

/-- **The fan-in of an allocation.** In a run in which no RPC of an allocation fails before the `GetChunkWriteLease`
that sent it has returned: nothing is ever done twice, and once the RPCs of the allocation have been queued, there
comes a time from which on each of them has been resumed exactly once, the allocation has been submitted exactly once
with `layoutDone`, and its status is zero if and only if that of all RPCs was. -/
theorem fan_in_complete (ρ : FanRun) (h₀ : Fresh (ρ.st 0)) (hu : ∀ t e, ρ.ev t = some e → (ρ.st t).Undisturbed e)
    (r : ℕ) :
    (∀ t, AtMostOnce (ρ.st t) r) ∧
      (ρ.Fair → ∀ t, ((ρ.st t).allocs r).servers ≠ [] → (∀ call k, (ρ.st t).layout ≠ some (r, call, k)) →
        ∃ t' ≥ t, ∀ t'' ≥ t', Complete (ρ.st t'') r) := by
  refine ⟨fun t => (placed h₀ t).atMostOnce (tallied h₀ t) r, ?_⟩
  intro hf t hne hidle
  have hkeep : ∀ t' ≥ t, ((ρ.st t').allocs r).servers = ((ρ.st t).allocs r).servers ∧
      ∀ call k, (ρ.st t').layout ≠ some (r, call, k) := by
    intro t' hle
    refine ρ.keep (P := fun st => (st.allocs r).servers = ((ρ.st t).allocs r).servers ∧
      ∀ call k, st.layout ≠ some (r, call, k)) ?_ ⟨rfl, hidle⟩ hle
    intro t₁ e _ h hs
    have hnext := servers_step (h.1 ▸ hne) h.2 hs
    exact ⟨hnext.1.trans h.1, hnext.2⟩
  -- the RPCs come back one after another
  have hback : ∀ n ≤ ((ρ.st t).allocs r).servers.length,
      ∃ t' ≥ t, ∀ i < n, ∃ s x, x.req = some (r, i) ∧ Back s x (ρ.st t') := by
    intro n
    induction n with
    | zero => exact fun _ => ⟨t, le_rfl, fun i hi => absurd hi (Nat.not_lt_zero i)⟩
    | succ n ih =>
      intro hn
      obtain ⟨t₁, hle₁, h₁⟩ := ih (by omega)
      have hq : (ρ.st t).Queued (((ρ.st t).allocs r).servers[n]) (r, n) := by
        refine ⟨List.getElem?_eq_getElem hn, ?_⟩
        unfold sent
        split
        · rename_i r' call k hl
          rw [if_neg fun heq : r' = r => hidle call k (heq ▸ hl)]
          exact hn
        · exact hn
      obtain ⟨t₂, hle₂, x, hx, hb⟩ := hf.back_of_queued h₀ hq
      refine ⟨max t₁ t₂, le_max_of_le_left hle₁, ?_⟩
      intro i hi
      rcases Nat.lt_succ_iff_lt_or_eq.mp hi with hi | rfl
      · obtain ⟨s, y, hy, hb⟩ := h₁ i hi
        exact ⟨s, y, hy, back_later hb (le_max_left _ _)⟩
      · exact ⟨_, x, hx, back_later hb (le_max_right _ _)⟩
  obtain ⟨t', hle, hall⟩ := hback _ le_rfl
  refine ⟨t', hle, fun t'' hle' => ?_⟩
  obtain ⟨hsv, hidle'⟩ := hkeep t'' (hle.trans hle')
  refine (placed h₀ t'').complete (tallied h₀ t'') (faithful h₀ hu t'') (hsv ▸ hne) hidle' ?_
  rw [hsv]
  intro i hi
  obtain ⟨s, x, hx, hb⟩ := hall i hi
  exact ⟨s, x, hx, back_later hb hle'⟩

/-- The run through a list of events, in which nothing happens after the last one. -/
def states (st : FanIn) : List FanEv → ℕ → FanIn
  | [], _ => st
  | _ :: _, 0 => st
  | e :: es, t + 1 => states ((st.step e).getD st) es t

/-- Each event of the list can take place. -/
def enabled (st : FanIn) : List FanEv → Bool
  | [] => true
  | e :: es => (st.step e).isSome && enabled ((st.step e).getD st) es

theorem states_zero (st : FanIn) (es : List FanEv) : states st es 0 = st := by
  cases es <;> rfl

theorem states_next : ∀ (es : List FanEv) (st : FanIn), enabled st es = true → ∀ t, match es[t]? with
    | some e => (states st es t).step e = some (states st es (t + 1))
    | none => states st es (t + 1) = states st es t
  | [], _, _, _ => rfl
  | e :: es, st, h, 0 => by
    rw [enabled, Bool.and_eq_true] at h
    obtain ⟨st', hst'⟩ := Option.isSome_iff_exists.mp h.1
    simp [states, hst', states_zero]
  | e :: es, st, h, t + 1 => by
    rw [enabled, Bool.and_eq_true] at h
    exact states_next es _ h.2 t

def ofList (st : FanIn) (es : List FanEv) (h : enabled st es = true) : FanRun :=
  ⟨states st es, fun t => es[t]?, states_next es st h⟩

theorem states_later : ∀ (es : List FanEv) (st : FanIn) (t : ℕ), es.length ≤ t →
    states st es t = states st es es.length
  | [], _, _, _ => rfl
  | _ :: _, _, 0, h => absurd h (Nat.not_succ_le_zero _)
  | _ :: es, _, t + 1, h => states_later es _ t (Nat.le_of_succ_le_succ h)

/-- A run that ends with empty queues is fair. -/
theorem fair_ofList {st : FanIn} {es : List FanEv} (h : enabled st es = true)
    (hidle : ∀ s, ((states st es es.length).servers s).mPendingReqs = [] ∧
      ((states st es es.length).servers s).mDispatchedReqs = []) : (ofList st es h).Fair := by
  have hend : ∀ t, (ofList st es h).st (max t es.length) = states st es es.length :=
    fun t => states_later es st _ (le_max_right _ _)
  refine ⟨fun t s _ => ⟨max t es.length, le_max_left _ _, Or.inr (Or.inr ?_)⟩,
    fun t s x _ => ⟨max t es.length, le_max_left _ _, Or.inr (Or.inr ?_)⟩⟩
  · rw [hend]
    exact (hidle s).1
  · rw [hend, (hidle s).2]
    exact List.not_mem_nil

/-- The metaserver at its start. -/
def started : FanIn :=
  ⟨fun _ => ⟨0, false, false, [], 0⟩, fun _ => ⟨1, true, [], []⟩, [], none, [], []⟩

/-- A new lease on a chunk with two servers; the second one dies before the RPC is sent to it. -/
def lateDeath : List FanEv :=
  [.hello 0, .hello 1, .layout 0 .GetChunkWriteLease [0, 1], .queue, .queue, .ret, .netError 1, .dispatch 0,
    .dispatch 1, .reply 0 1 0, .bye 1]

def lateRun : FanRun := ofList started lateDeath (by decide +kernel)

theorem lateRun_complete : lateRun.Fair ∧ (∃ t, Complete (lateRun.st t) 0) ∧
    ((lateRun.st 11).allocs 0).status = - EIO := by
  have hfair : lateRun.Fair := by
    refine fair_ofList _ fun s => ?_
    match s with
    | 0 => exact ⟨rfl, rfl⟩
    | 1 => exact ⟨rfl, rfl⟩
    | s + 2 => exact ⟨rfl, rfl⟩
  have hu : ∀ t e, lateRun.ev t = some e → (lateRun.st t).Undisturbed e := by
    intro t e he
    match t, he with
    | 5, he =>
      -- nothing has been resumed when the call returns
      obtain rfl := Option.some.inj he
      intro r k _ p hp
      cases hp
    | 0, he | 1, he | 2, he | 3, he | 4, he | 6, he | 7, he | 8, he | 9, he | 10, he =>
      obtain rfl := Option.some.inj he
      trivial
    | t + 11, he => cases he
  have hall := (fan_in_complete lateRun ⟨fun _ => rfl, fun _ => ⟨rfl, rfl⟩, rfl, rfl, rfl⟩ hu 0).2 hfair 6
    (by decide +kernel) (fun _ _ hl => by cases hl)
  obtain ⟨t', -, hall⟩ := hall
  exact ⟨hfair, ⟨t', hall t' le_rfl⟩, by decide +kernel⟩

/-- The second server dies while `GetChunkWriteLease` is still at work. -/
def earlyDeath : List FanEv :=
  [.hello 0, .hello 1, .layout 0 .GetChunkWriteLease [0, 1], .queue, .queue, .netError 1, .dispatch 1, .ret,
    .dispatch 0, .reply 0 1 0, .bye 1]

def earlyRun : FanRun := ofList started earlyDeath (by decide +kernel)

/-- Its RPC fails, and the allocation is submitted with status 0. -/
theorem earlyRun_not_complete : earlyRun.Fair ∧ ((earlyRun.st 11).allocs 0).layoutDone = true ∧
    ((earlyRun.st 11).allocs 0).status = 0 ∧ ∀ t ≥ 11, ¬ Complete (earlyRun.st t) 0 := by
  refine ⟨?_, by decide +kernel, by decide +kernel, ?_⟩
  · refine fair_ofList _ fun s => ?_
    match s with
    | 0 => exact ⟨rfl, rfl⟩
    | 1 => exact ⟨rfl, rfl⟩
    | s + 2 => exact ⟨rfl, rfl⟩
  · intro t ht hc
    have hend : earlyRun.st t = earlyRun.st 11 := states_later earlyDeath started t ht
    rw [hend] at hc
    have hzero := hc.status.mp (by decide +kernel) (1, ⟨1, some (0, 1)⟩, - EIO) (by decide +kernel) (by decide)
    exact absurd hzero (by decide)

end FanRun

end Kfs
