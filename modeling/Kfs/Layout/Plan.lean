import Kfs.Layout.Returns

/-!
# The rebalance plan

Each server keeps the chunks that are to be moved to it. A chunk leaves these lists when its replication to the server
ends, when it is corrupt there, or when the server has no space left, but not when the map loses it; then
`ExecuteRebalancePlan` uses an entry that is not there, where the other searches look first.

* `Starts`: the replications that the execution of the plan starts;
* `Planned`: the chunks of the plans are in the map;
* `planStep`: no chunk is planned that is not in the map, or leaves it while a server has it in its plan;
* **`plan_tolerates`**: what holds along every run of such steps.
-/

namespace Kfs

namespace Placement

variable {st st' st₁ : Placement} {e : PlaceEv} {c chunkId : ℤ} {v : ChunkPlacementInfo} {s server : ServerId}
  {L : List ServerId}

/-! ## What the plan starts -/

variable {plan : ServerId → List ℤ} {news news₁ news₂ : List ChunkReplicate}

/-- The replications `news` are started, one at most of each chunk: each of a chunk that has none, to a server that
is to get it and does not have it. -/
structure Starts (plan : ServerId → List ℤ) (st st' : Placement) (news : List ChunkReplicate) : Prop where
  ops : st'.ops = st.ops ++ news
  entries : ∀ c v', st'.entry c = some v' → ∃ v, st.entry c = some v ∧ v'.chunkServers = v.chunkServers ∧
    v'.ongoingReplications = v.ongoingReplications + news.countP fun o => decide (o.chunkId = c)
  new : ∀ o ∈ news, o.chunkId ∈ plan o.server ∧
    ∃ v, st.entry o.chunkId = some v ∧ v.ongoingReplications ≤ 0 ∧ o.server ∉ v.chunkServers
  once : (news.map ChunkReplicate.chunkId).Nodup

/-- No counter of replications is negative. -/
def NonNeg (st : Placement) : Prop := ∀ c v, st.entry c = some v → 0 ≤ v.ongoingReplications

theorem Counted.nonNeg (h : Counted st) : NonNeg st := by
  intro c v hv
  rw [h c v hv]
  exact Int.natCast_nonneg _

theorem Starts.nil (he : st'.entry = st.entry) (ho : st'.ops = st.ops) : Starts plan st st' [] := by
  refine ⟨by simp [ho], fun c v hv => ⟨v, he ▸ hv, rfl, by simp⟩, by simp, by simp⟩

theorem Starts.nonNeg (h : Starts plan st st' news) (hn : NonNeg st) : NonNeg st' := by
  intro c v' hv'
  obtain ⟨v, hv, -, heq⟩ := h.entries c v' hv'
  have := hn c v hv
  omega

/-- A chunk of which a replication was started is passed over. -/
theorem Starts.trans (hn : NonNeg st) (h₁ : Starts plan st st₁ news₁) (h₂ : Starts plan st₁ st' news₂) :
    Starts plan st st' (news₁ ++ news₂) := by
  -- a chunk that is started later was not started before
  have hnew : ∀ o ∈ news₂, (∀ o₁ ∈ news₁, o₁.chunkId ≠ o.chunkId) ∧
      ∃ v, st.entry o.chunkId = some v ∧ v.ongoingReplications ≤ 0 ∧ o.server ∉ v.chunkServers := by
    intro o ho
    obtain ⟨-, v₁, hv₁, hrest, hout⟩ := h₂.new o ho
    obtain ⟨v, hv, hs, heq⟩ := h₁.entries _ v₁ hv₁
    have hpos := hn _ v hv
    have hzero : news₁.countP (fun o' => decide (o'.chunkId = o.chunkId)) = 0 := by omega
    refine ⟨fun o₁ ho₁ hc => ?_, v, hv, by omega, hs ▸ hout⟩
    exact (List.countP_eq_zero.mp hzero o₁ ho₁) (decide_eq_true hc)
  refine ⟨?_, fun c v' hv' => ?_, fun o ho => ?_, ?_⟩
  · rw [h₂.ops, h₁.ops, List.append_assoc]
  · obtain ⟨v₁, hv₁, hs₂, ho₂⟩ := h₂.entries c v' hv'
    obtain ⟨v, hv, hs₁, ho₁⟩ := h₁.entries c v₁ hv₁
    refine ⟨v, hv, hs₂.trans hs₁, ?_⟩
    rw [ho₂, ho₁, List.countP_append]
    push_cast
    ring
  · rcases List.mem_append.mp ho with ho | ho
    · exact h₁.new o ho
    · exact ⟨(h₂.new o ho).1, (hnew o ho).2⟩
  · rw [List.map_append]
    refine List.Nodup.append h₁.once h₂.once fun c hc₁ hc₂ => ?_
    obtain ⟨o₁, ho₁, rfl⟩ := List.mem_map.mp hc₁
    obtain ⟨o, ho, heq⟩ := List.mem_map.mp hc₂
    exact (hnew o ho).1 o₁ ho₁ heq.symm

/-- One copy to one server. -/
theorem ReplicateChunkToServers_starts (hv : st.entry chunkId = some v) (hrest : ¬ v.ongoingReplications > 0)
    (hp : chunkId ∈ plan server) (h : st.ReplicateChunkToServers chunkId v 1 [server] = some st') :
    ∃ news, Starts plan st st' news := by
  unfold ReplicateChunkToServers at h
  split_ifs at h with hany
  obtain ⟨⟨k, st₁⟩, h₁, h₂⟩ := Option.bind_eq_some_iff.mp h
  obtain ⟨news, rfl, hs⟩ := ReplicateChunkTo_sent h₁
  dsimp only at h₂
  split_ifs at h₂ with hpos
  swap
  · obtain rfl := Option.some.inj h₂
    obtain rfl : news = [] := List.eq_nil_of_length_eq_zero (by omega)
    exact ⟨[], .nil hs.entry (by simpa using hs.ops)⟩
  obtain rfl := Option.some.inj h₂
  have hlen : news.length ≤ 1 := by simpa using hs.servers.length_le
  refine ⟨news, hs.ops, fun c w hw => ?_, fun o ho => ?_, ?_⟩
  · rw [addOngoing, setEntry_entry] at hw
    change Function.update st₁.entry chunkId _ c = some w at hw
    rw [hs.entry] at hw
    by_cases hc : c = chunkId
    · subst hc
      rw [Function.update_self] at hw
      obtain rfl := Option.some.inj hw
      have hall : news.countP (fun o => decide (o.chunkId = c)) = news.length :=
        List.countP_eq_length.mpr fun o ho => decide_eq_true (hs.new o ho).1
      exact ⟨v, hv, rfl, by rw [hall]⟩
    · rw [Function.update_of_ne hc] at hw
      have hnone : news.countP (fun o => decide (o.chunkId = c)) = 0 := by
        refine List.countP_eq_zero.mpr fun o ho hoc => hc ?_
        exact (of_decide_eq_true hoc).symm.trans (hs.new o ho).1
      exact ⟨w, hw, rfl, by rw [hnone, Nat.cast_zero, add_zero]⟩
  · obtain ⟨hid, -, hout⟩ := hs.new o ho
    have hserver : o.server = server := by simpa using hs.servers.subset (List.mem_map_of_mem ho)
    rw [hid, hserver]
    exact ⟨hp, v, hv, not_lt.mp hrest, hserver ▸ hout⟩
  · exact nodup_of_length_le_one (by simpa using hlen)

theorem planLoop_starts {w : ℤ → Visit} : ∀ {cids : List ℤ} {st st' : Placement}, NonNeg st →
    cids ⊆ plan server → planLoop w server cids st = some st' → ∃ news, Starts plan st st' news
  | [], st, st', _, _, h => by
    obtain rfl := Option.some.inj h
    exact ⟨[], .nil rfl rfl⟩
  | cid :: cids, st, st', hn, hp, h => by
    obtain ⟨hcid, hcids⟩ := List.cons_subset.mp hp
    rw [planLoop] at h
    split_ifs at h with hbusy
    · obtain rfl := Option.some.inj h
      exact ⟨[], .nil rfl rfl⟩
    split at h
    · cases h
    rename_i v hv
    split_ifs at h with hskip
    · exact planLoop_starts hn hcids h
    obtain ⟨st₁, h₁, h₂⟩ := Option.bind_eq_some_iff.mp h
    obtain ⟨news₁, hs₁⟩ := ReplicateChunkToServers_starts hv (fun hp => hskip (.inl hp)) hcid h₁
    obtain ⟨news₂, hs₂⟩ := planLoop_starts (hs₁.nonNeg hn) hcids h₂
    exact ⟨_, hs₁.trans hn hs₂⟩

theorem ExecuteRebalancePlanOn_starts {w : ℤ → Visit} (hn : NonNeg st)
    (hp : (st.info server).mChunksToMove ⊆ plan server) (h : st.ExecuteRebalancePlanOn w server = some st') :
    ∃ news, Starts plan st st' news := by
  unfold ExecuteRebalancePlanOn at h
  dsimp only at h
  split_ifs at h with hfull
  · obtain rfl := Option.some.inj h
    exact ⟨[], .nil rfl rfl⟩
  · exact planLoop_starts hn hp h

theorem planExecutors_starts {w : ServerId → ℤ → Visit} : ∀ {ss : List ServerId} {st st' : Placement}, ss ⊆ L →
    PlanOk L st → NonNeg st → (∀ s, (st.info s).mChunksToMove ⊆ plan s) →
    ss.foldlM (planExecutor w) st = some st' → ∃ news, Starts plan st st' news
  | [], st, st', _, _, _, _, h => by
    obtain rfl : st = st' := by simpa using h
    exact ⟨[], .nil rfl rfl⟩
  | s :: ss, st, st', hss, hp, hn, hsub, h => by
    obtain ⟨hs, hss⟩ := List.cons_subset.mp hss
    rw [List.foldlM_cons] at h
    obtain ⟨st₁, h₁, h₂⟩ := Option.bind_eq_some_iff.mp h
    obtain ⟨st₂, he, hk⟩ := planExecutor_total w hs hp
    obtain rfl : st₁ = st₂ := Option.some.inj (h₁.symm.trans he)
    obtain ⟨news₁, hs₁⟩ : ∃ news, Starts plan st st₁ news := by
      unfold planExecutor at h₁
      split_ifs at h₁ with hskip
      · obtain rfl := Option.some.inj h₁
        exact ⟨[], .nil rfl rfl⟩
      · exact ExecuteRebalancePlanOn_starts hn (hsub s) h₁
    obtain ⟨news₂, hs₂⟩ := planExecutors_starts hss (hp.keeps hk) (hs₁.nonNeg hn)
      (fun x c hc => hsub x (hk.toMove x hc)) h₂
    exact ⟨_, hs₁.trans hn hs₂⟩

theorem ExecuteRebalancePlan_starts {w : ServerId → ℤ → Visit} (hp : PlanOk st.live st) (hn : NonNeg st)
    (h : st.ExecuteRebalancePlan w = some st') :
    ∃ news, Starts (fun s => (st.info s).mChunksToMove) st st' news := by
  unfold ExecuteRebalancePlan at h
  split_ifs at h with hplan
  · obtain rfl := Option.some.inj h
    exact ⟨[], .nil rfl rfl⟩
  · obtain ⟨st₁, h₁, h₂⟩ := Option.bind_eq_some_iff.mp h
    have hss : st.cl.lm.mChunkServers ⊆ st.live := fun s hs => mem_live.mpr (.inl hs)
    obtain ⟨news, hs⟩ : ∃ news, Starts (fun s => (st.info s).mChunksToMove) st st₁ news :=
      planExecutors_starts hss hp hn (fun _ => List.Subset.refl _) h₁
    split_ifs at h₂ with hdone
    · obtain rfl := Option.some.inj h₂
      exact ⟨news, hs.ops, hs.entries, hs.new, hs.once⟩
    · obtain rfl := Option.some.inj h₂
      exact ⟨news, hs⟩

/-! ## The chunks of the plans -/

/-- What the steps keep that take no chunk out of the map, load no plan and are no HELLO. -/
structure Retains (st st' : Placement) : Prop where
  live : st'.live ⊆ st.live
  hello : st'.mHelloDone = st.mHelloDone
  entries : ∀ c, (st.entry c).isSome = true → (st'.entry c).isSome = true
  toMove : ∀ s, (st'.info s).mChunksToMove ⊆ (st.info s).mChunksToMove

theorem Retains.refl (st : Placement) : Retains st st :=
  ⟨List.Subset.refl _, rfl, fun _ h => h, fun _ => List.Subset.refl _⟩

theorem Retains.trans (h₁ : Retains st st₁) (h₂ : Retains st₁ st') : Retains st st' :=
  ⟨fun _ h => h₁.live (h₂.live h), h₂.hello.trans h₁.hello, fun c h => h₂.entries c (h₁.entries c h),
    fun s _ h => h₁.toMove s (h₂.toMove s h)⟩

theorem Keeps.retains (h : Keeps st.live st st') : Retains st st' :=
  ⟨h.live (List.Subset.refl _), h.same.hello, h.entries, h.toMove⟩

/-- The map, the plans and the servers are as they were. -/
theorem Retains.of_frame (hlm : st'.cl.lm = st.cl.lm)
    (hm : ∀ s, (st'.info s).mChunksToMove = (st.info s).mChunksToMove) (hh : st'.mHelloDone = st.mHelloDone)
    (hr : st'.mRacks = st.mRacks) (ho : st'.ops = st.ops) : Retains st st' := by
  refine ⟨?_, hh, fun c hc => ?_, fun s => ?_⟩
  · unfold Placement.live
    rw [hlm, hr, ho]
    exact List.Subset.refl _
  · unfold entry
    rw [hlm]
    exact hc
  · rw [hm]
    exact List.Subset.refl _

/-- The map is replaced by one with the same servers and at least its chunks. -/
theorem Retains.layout {lm : LayoutManager} (hs : lm.mChunkServers = st.cl.lm.mChunkServers)
    (he : ∀ c, (st.cl.lm.mChunkToServerMap c).isSome = true → (lm.mChunkToServerMap c).isSome = true) :
    Retains st (st.setLayout lm) := by
  refine ⟨?_, rfl, he, fun _ => List.Subset.refl _⟩
  have hl : (st.setLayout lm).live = st.live := by
    unfold Placement.live
    change lm.mChunkServers ++ _ ++ _ = _
    rw [hs]
    rfl
  rw [hl]
  exact List.Subset.refl _

/-- The entry of one chunk is written. -/
theorem set_retains (st : Placement) (i chunkId : ℤ) (v : ChunkPlacementInfo) :
    Retains st (st.setLayout ({ st.cl.lm with mLeaseId := i }.set chunkId v)) := by
  refine .layout rfl fun c hc => ?_
  by_cases heq : c = chunkId
  · subst heq
    rw [LayoutManager.set_self]
    rfl
  · rw [LayoutManager.set_of_ne _ heq]
    exact hc

theorem ServerDown_retains (st : Placement) (s : ServerId) : Retains st (st.ServerDown s) := by
  unfold ServerDown
  by_cases hm : s ∈ st.cl.lm.mChunkServers
  swap
  · rw [if_pos hm]
    exact .refl st
  rw [if_neg (not_not.mpr hm)]
  have hlm : (st.cl.ServerDown s).lm = st.cl.lm.ServerDown s := Cluster.ServerDown_lm st.cl s
  refine ⟨fun x hx => ?_, rfl, fun c hc => ?_, fun _ => List.Subset.refl _⟩
  · refine mem_live.mpr ((mem_live.mp hx).imp (fun hx => ?_) (Or.imp_left fun hx => ?_))
    · change x ∈ (st.cl.ServerDown s).lm.mChunkServers at hx
      rw [hlm, LayoutManager.ServerDown, if_pos hm] at hx
      exact List.mem_of_mem_erase hx
    · obtain ⟨k', hk', hx⟩ := hx
      obtain ⟨k, hk, rfl⟩ := List.mem_map.mp hk'
      refine ⟨k, hk, ?_⟩
      split_ifs at hx
      · exact List.mem_of_mem_erase hx
      · exact hx
  · change ((st.cl.ServerDown s).lm.mChunkToServerMap c).isSome = true
    rw [hlm, LayoutManager.ServerDown, if_pos hm]
    exact (Option.isSome_map).trans hc

theorem RetireServer_retains (st : Placement) (loc : ServerLocation) (downtime now : ℤ) :
    Retains st (st.RetireServer loc downtime now) := by
  unfold RetireServer
  split
  · exact .refl st
  · rename_i s _
    have hk : Keeps st.live st (st.setInfo s { st.info s with mIsRetiring := true }) :=
      setInfo_keeps (List.Subset.refl _)
    dsimp only
    split_ifs
    · have hlm := (Cluster.RetireServer_frame st.cl loc downtime now).1
      exact hk.retains.trans (.of_frame hlm (fun _ => rfl) rfl rfl rfl)
    · exact hk.retains.trans (.of_frame rfl (fun _ => rfl) rfl rfl rfl)

theorem ChunkCorrupt_retains (st : Placement) (server : ServerId) (fid chunkId : ℤ) :
    Retains st (st.ChunkCorrupt server fid chunkId) := by
  unfold ChunkCorrupt
  split
  · exact .refl st
  · rename_i v hv
    split_ifs with hfid
    · exact .refl st
    have hlm : st.cl.lm.ChunkCorrupt server fid chunkId = st.cl.lm.set chunkId
        { v with chunkServers := v.chunkServers.filter fun s => decide (s ≠ server) } := by
      rw [LayoutManager.ChunkCorrupt, show st.cl.lm.mChunkToServerMap chunkId = some v from hv]
      exact if_neg hfid
    have hr : Retains st
        ((st.setLayout (st.cl.lm.ChunkCorrupt server fid chunkId)).ChangeChunkReplication chunkId) := by
      rw [hlm]
      exact (set_retains st st.cl.lm.mLeaseId chunkId _).trans (.of_frame rfl (fun _ => rfl) rfl rfl rfl)
    dsimp only
    refine hr.trans (Keeps.retains (setInfo_keeps ?_))
    exact fun c hc => List.mem_of_mem_filter hc

theorem AllocateChunk_retains (st : Placement) (chunkId fid : ℤ) (n : ℕ) (clientHost : Str) (w : Visit)
    (hr : Rostered st) : Retains st (st.AllocateChunk chunkId fid n clientHost w).2.2 := by
  unfold AllocateChunk
  split_ifs with hn
  · exact .refl st
  have hre := (hr.allocateServers_spec clientHost w (Nat.pos_of_ne_zero hn)).1
  generalize st.allocateServers n clientHost w = p at hre ⊢
  obtain ⟨servers, st₁⟩ := p
  dsimp only at hre ⊢
  have h₁ : Retains st st₁ := hre.keeps.retains
  rcases AllocateChunk_spec st₁.cl.lm chunkId fid n servers w.clock with ⟨status, hneg, he⟩ | ⟨m, rest, hs, he⟩
  · rw [he]
    dsimp only
    rw [if_pos hneg.ne]
    exact h₁
  · rw [he]
    dsimp only
    rw [if_neg (not_not.mpr rfl)]
    have h₂ := set_retains st₁ (st₁.cl.lm.mLeaseId + 1) chunkId
      ⟨fid, 0, servers, [⟨.write, st₁.cl.lm.mLeaseId, some m, w.clock 0 + LEASE_INTERVAL_SECS⟩]⟩
    refine h₁.trans (h₂.trans ?_)
    split_ifs
    · exact .of_frame rfl (fun _ => rfl) rfl rfl rfl
    · exact .of_frame rfl (fun _ => rfl) rfl rfl rfl

theorem LeaseRenew_retains (st : Placement) (chunkId : ℤ) (leaseType : LeaseType) (leaseId : ℤ) (t : ℕ → ℤ) :
    Retains st (st.LeaseRenew chunkId leaseType leaseId t) := by
  have hset : Retains st (st.setLayout (st.cl.lm.LeaseRenew chunkId leaseType leaseId t).2) := by
    rcases LeaseRenew_spec st.cl.lm chunkId leaseType leaseId t with
      ⟨-, -, he⟩ | ⟨-, ⟨status, -, he⟩ | ⟨v, l, -, -, -, he⟩⟩
    · rw [he]
      exact set_retains st _ chunkId _
    · rw [he]
      exact .refl st
    · rw [he]
      exact set_retains st st.cl.lm.mLeaseId chunkId _
  unfold LeaseRenew
  dsimp only
  split_ifs
  · exact hset.trans (.of_frame rfl (fun _ => rfl) rfl rfl rfl)
  · exact hset

/-- A HELLO adds its server, and takes no chunk out of the map. -/
theorem AddNewServer_retains {r : Hello} {rackId : ℤ} {totalSpace usedSpace : ℕ} {now : ℤ}
    (h : st.AddNewServer r rackId totalSpace usedSpace now = some st') :
    (∀ s ∈ st'.live, s ∈ st.live ∨ s = r.server) ∧
      st'.mHelloDone = Function.update st.mHelloDone r.server true ∧
      (∀ c, (st.entry c).isSome = true → (st'.entry c).isSome = true) ∧
      ∀ s, (st'.info s).mChunksToMove = (st.info s).mChunksToMove := by
  unfold AddNewServer at h
  dsimp only at h
  obtain ⟨cl, hcl, h⟩ := Option.bind_eq_some_iff.mp h
  -- the map and the list of servers
  have hmap : (∀ c, (st.entry c).isSome = true → (cl.lm.mChunkToServerMap c).isSome = true) ∧
      ∀ s ∈ cl.lm.mChunkServers, s ∈ st.cl.lm.mChunkServers ∨ s = r.server := by
    rcases Cluster.AddNewServer_cases hcl with ⟨-, rfl⟩ | ⟨-, cl₀, rfl, ⟨-, rfl⟩ | ⟨-, cl₁, -, hext, -, rfl⟩⟩
    · exact ⟨fun _ h => h, fun _ h => .inl h⟩
    · exact ⟨fun _ h => h, fun _ h => .inl h⟩
    · refine ⟨fun c hc => ?_, fun s hs => ?_⟩
      · obtain ⟨v, hv⟩ := Option.isSome_iff_exists.mp hc
        obtain ⟨v', hv', -⟩ := hext.copies c v hv
        exact Option.isSome_iff_exists.mpr ⟨v', hv'⟩
      · change s ∈ cl₁.lm.mChunkServers ++ [r.server] at hs
        rw [hext.servers] at hs
        exact (List.mem_append.mp hs).imp_right List.mem_singleton.mp
  have hmove : ∀ i : ServerInfo, i.mChunksToMove = (st.info r.server).mChunksToMove →
      ∀ s, ((st.setInfo r.server i).info s).mChunksToMove = (st.info s).mChunksToMove := by
    intro i hi s
    by_cases hs : s = r.server
    · subst hs
      simpa [setInfo] using hi
    · simp [setInfo, hs]
  -- the racks
  have hlive : ∀ racks : List RackInfo,
      (∀ k ∈ racks, ∀ s ∈ k.mServers, s = r.server ∨ ∃ k' ∈ st.mRacks, s ∈ k'.mServers) →
      ∀ s, (s ∈ cl.lm.mChunkServers ∨ (∃ k ∈ racks, s ∈ k.mServers) ∨ ∃ o ∈ st.ops, o.server = s) →
        s ∈ st.live ∨ s = r.server := by
    intro racks hracks s hs
    rcases hs with hs | ⟨k, hk, hs⟩ | hs
    · exact (hmap.2 s hs).imp_left fun h => mem_live.mpr (.inl h)
    · rcases hracks k hk s hs with heq | hs
      · exact .inr heq
      · exact .inl (mem_live.mpr (.inr (.inl hs)))
    · exact .inl (mem_live.mpr (.inr (.inr hs)))
  have hkeep : ∀ k ∈ st.mRacks, ∀ s ∈ k.mServers, s = r.server ∨ ∃ k' ∈ st.mRacks, s ∈ k'.mServers :=
    fun k hk s hs => .inr ⟨k, hk, hs⟩
  by_cases hd : st.cl.down r.server = true
  · rw [if_pos hd] at h
    obtain rfl := Option.some.inj h
    exact ⟨fun s hs => .inl hs, rfl, fun _ h => h, fun _ => rfl⟩
  rw [if_neg hd] at h
  split_ifs at h with hin hany
  · obtain rfl := Option.some.inj h
    refine ⟨fun s hs => hlive _ ?_ s (mem_live.mp hs), rfl, hmap.1, hmove _ rfl⟩
    intro k hk s hs
    obtain ⟨k', hk', rfl⟩ := List.mem_map.mp hk
    split_ifs at hs
    · exact (List.mem_append.mp hs).symm.imp List.mem_singleton.mp fun hs => ⟨k', hk', hs⟩
    · exact .inr ⟨k', hk', hs⟩
  · obtain rfl := Option.some.inj h
    refine ⟨fun s hs => hlive _ ?_ s (mem_live.mp hs), rfl, hmap.1, hmove _ rfl⟩
    intro k hk s hs
    rcases List.mem_append.mp hk with hk | hk
    · exact hkeep k hk s hs
    · rw [List.mem_singleton.mp hk] at hs
      exact .inl (List.mem_singleton.mp hs)
  · obtain rfl := Option.some.inj h
    exact ⟨fun s hs => hlive _ hkeep s (mem_live.mp hs), rfl, hmap.1, hmove _ rfl⟩

/-! ## Steps -/

/-- The chunks that are to be moved to a server are in the map, and a server that is not known yet has none. -/
structure Planned (st : Placement) : Prop where
  tracked : Tracked st
  chunks : PlanOk st.live st
  unborn : ∀ s, st.mHelloDone s = false → (st.info s).mChunksToMove = []

/-- No server that replications may go to has the chunk in its plan. -/
def unplanned (st : Placement) (c : ℤ) : Bool := st.live.all fun s => decide (c ∉ (st.info s).mChunksToMove)

/-- A plan names chunks of the map, no chunk leaves the map while a server has it in its plan, and no entry is created
for a chunk that is being replicated. -/
def planStep (st : Placement) : PlaceEv → Bool
  | .plan moves => moves.all fun p => !st.cl.connected p.1 || (st.entry p.2).isSome
  | .delete chunkId => (st.entry chunkId).all (fun v => v.chunkServers.isEmpty) || st.unplanned chunkId
  | .remove chunkId => st.unplanned chunkId
  | e => st.freshStep e

theorem planStep_fresh (hc : st.planStep e = true) : st.freshStep e = true := by
  cases e with
  | allocate | renew => exact hc
  | _ => rfl

theorem PlanOk.retains (h : PlanOk st.live st) (hr : Retains st st') : PlanOk st'.live st' :=
  fun s hs c hc => hr.entries c (h s (hr.live hs) c (hr.toMove s hc))

theorem PlanOk.erase (h : PlanOk st.live st) (hc : st.unplanned chunkId = true) :
    PlanOk (st.setLayout (st.cl.lm.erase chunkId)).live (st.setLayout (st.cl.lm.erase chunkId)) := by
  intro s hs c hm
  have hs' : s ∈ st.live := hs
  have hne : c ≠ chunkId := by
    rintro rfl
    exact of_decide_eq_true (List.all_eq_true.mp hc s hs') hm
  change ((st.cl.lm.erase chunkId).mChunkToServerMap c).isSome = true
  rw [LayoutManager.erase_of_ne hne]
  exact h s hs' c hm

/-- A chunk of the map is planned, for a server that is listed. -/
theorem addToMove_planned {p : ServerLocation × ℤ} (hr : Rostered st) (h : PlanOk st.live st)
    (hu : ∀ s, st.mHelloDone s = false → (st.info s).mChunksToMove = [])
    (hp : st.cl.connected p.1 = true → (st.entry p.2).isSome = true) :
    (st.addToMove p).cl = st.cl ∧ PlanOk (st.addToMove p).live (st.addToMove p) ∧
      ∀ s, (st.addToMove p).mHelloDone s = false → ((st.addToMove p).info s).mChunksToMove = [] := by
  unfold addToMove
  split
  · exact ⟨rfl, h, hu⟩
  rename_i x hf
  have hx : x ∈ st.cl.lm.mChunkServers := List.mem_of_find?_eq_some hf
  have hsome : (st.entry p.2).isSome = true :=
    hp (List.any_eq_true.mpr ⟨x, hx, by simpa using List.find?_some hf⟩)
  dsimp only
  split_ifs with hin
  · exact ⟨rfl, h, hu⟩
  refine ⟨rfl, fun s hs c hc => ?_, fun s hs => ?_⟩
  · by_cases hsx : s = x
    · subst hsx
      simp only [setInfo, Function.update_self, List.mem_orderedInsert] at hc
      rcases hc with rfl | hc
      · exact hsome
      · exact h s hs c hc
    · simp only [setInfo, Function.update_of_ne hsx] at hc
      exact h s hs c hc
  · have hne : s ≠ x := by
      rintro rfl
      exact Bool.false_ne_true (Eq.trans hs.symm (hr.hello s hx))
    simp only [setInfo, Function.update_of_ne hne]
    exact hu s hs

theorem foldl_addToMove_planned : ∀ {moves : List (ServerLocation × ℤ)} {st : Placement}, Rostered st →
    PlanOk st.live st → (∀ s, st.mHelloDone s = false → (st.info s).mChunksToMove = []) →
    (∀ p ∈ moves, st.cl.connected p.1 = true → (st.entry p.2).isSome = true) →
    PlanOk (moves.foldl addToMove st).live (moves.foldl addToMove st) ∧
      ∀ s, (moves.foldl addToMove st).mHelloDone s = false → ((moves.foldl addToMove st).info s).mChunksToMove = []
  | [], st, _, h, hu, _ => ⟨h, hu⟩
  | p :: moves, st, hr, h, hu, hp => by
    obtain ⟨hp₁, hps⟩ := List.forall_mem_cons.mp hp
    obtain ⟨hcl, h', hu'⟩ := addToMove_planned hr h hu hp₁
    rw [List.foldl_cons]
    refine foldl_addToMove_planned ((addToMove_quiet st p).rostered hr) h' hu' fun q hq => ?_
    unfold entry
    rw [hcl]
    exact hps q hq

/-- The steps that only keep. -/
theorem Planned.retains (h : Planned st) (hr : Retains st st') :
    PlanOk st'.live st' ∧ ∀ s, st'.mHelloDone s = false → (st'.info s).mChunksToMove = [] := by
  refine ⟨h.chunks.retains hr, fun s hs => ?_⟩
  rw [hr.hello] at hs
  exact List.eq_nil_of_subset_nil (h.unborn s hs ▸ hr.toMove s)

/-- A replication that is under way can be processed. -/
theorem Planned.done {i : ℕ} {req : ChunkReplicate} (h : Planned st) (hi : st.ops[i]? = some req)
    (status fid chunkVersion : ℤ) (w : Work) :
    ∃ st', { st with ops := st.ops.eraseIdx i }.ChunkReplicationDone req status fid chunkVersion w = some st' ∧
      Retains st st' := by
  have hreq : req ∈ st.ops := List.mem_of_getElem? hi
  have hlive : ({ st with ops := st.ops.eraseIdx i } : Placement).live ⊆ st.live := by
    intro s hs
    refine mem_live.mpr ((mem_live.mp hs).imp_right (Or.imp_right fun hs => ?_))
    obtain ⟨o, ho, heq⟩ := hs
    exact ⟨o, List.mem_of_mem_eraseIdx ho, heq⟩
  obtain ⟨st', he, hk⟩ := @ChunkReplicationDone_total { st with ops := st.ops.eraseIdx i } st.live req status fid
    chunkVersion w (h.tracked.booked.positive hreq) (mem_live.mpr (.inr (.inr ⟨req, hreq, rfl⟩))) h.chunks
  exact ⟨st', he, hk.live hlive, hk.same.hello, hk.entries, hk.toMove⟩

theorem Planned.step (h : Planned st) (hc : st.planStep e = true) (hs : st.step e = some st') : Planned st' := by
  have ht := h.tracked.step (planStep_fresh hc) hs
  have hros := h.tracked.booked.rostered
  suffices hplan : PlanOk st'.live st' ∧ ∀ s, st'.mHelloDone s = false → (st'.info s).mChunksToMove = [] from
    ⟨ht, hplan.1, hplan.2⟩
  cases e with
  | load s totalSpace usedSpace numChunkWrites heartbeatSkipped =>
    obtain rfl := Option.some.inj hs
    have hk : Keeps st.live st (st.setInfo s { st.info s with
        mTotalSpace := totalSpace, mUsedSpace := usedSpace, mNumChunkWrites := numChunkWrites
        mHeartbeatSkipped := heartbeatSkipped }) := setInfo_keeps (List.Subset.refl _)
    exact h.retains hk.retains
  | netError s =>
    obtain rfl := Option.some.inj hs
    have hk : Keeps st.live st (st.setInfo s { st.info s with mTotalSpace := 0, mUsedSpace := 0 }) :=
      setInfo_keeps (List.Subset.refl _)
    exact h.retains (hk.retains.trans (.of_frame rfl (fun _ => rfl) rfl rfl rfl))
  | hello r rackId totalSpace usedSpace now =>
    rw [Placement.step] at hs
    split_ifs at hs with hd
    obtain ⟨hl, hh, he, hm⟩ := AddNewServer_retains hs
    have hnil : (st.info r.server).mChunksToMove = [] := h.unborn r.server (by simpa using hd)
    refine ⟨fun s hs c hc => ?_, fun s hs => ?_⟩
    · rw [hm] at hc
      rcases hl s hs with hs | rfl
      · exact he c (h.chunks s hs c hc)
      · rw [hnil] at hc
        cases hc
    · rw [hm]
      rw [hh] at hs
      by_cases heq : s = r.server
      · rw [heq]
        exact hnil
      · rw [Function.update_of_ne heq] at hs
        exact h.unborn s hs
  | bye s =>
    obtain rfl := Option.some.inj hs
    exact h.retains (ServerDown_retains st s)
  | retire loc downtime now =>
    obtain rfl := Option.some.inj hs
    exact h.retains (RetireServer_retains st loc downtime now)
  | plan moves =>
    obtain rfl := Option.some.inj hs
    refine foldl_addToMove_planned hros h.chunks h.unborn fun p hp hcon => ?_
    simpa [hcon] using List.all_eq_true.mp hc p hp
  | rebalancing on =>
    obtain rfl := Option.some.inj hs
    exact h.retains (.of_frame rfl (fun _ => rfl) rfl rfl rfl)
  | tree leaves =>
    obtain rfl := Option.some.inj hs
    exact h.retains (.of_frame rfl (fun _ => rfl) rfl rfl rfl)
  | change chunkId =>
    obtain rfl := Option.some.inj hs
    exact h.retains (.of_frame rfl (fun _ => rfl) rfl rfl rfl)
  | allocate chunkId fid n clientHost w =>
    obtain rfl := Option.some.inj hs
    exact h.retains (AllocateChunk_retains st chunkId fid n clientHost w hros)
  | writeLease chunkId hasSpace t =>
    obtain rfl := Option.some.inj hs
    refine h.retains ?_
    rcases GetChunkWriteLease_spec st.cl.lm chunkId hasSpace t with
      ⟨r, -, -, he⟩ | ⟨v, m, rest, -, -, -, -, -, ⟨-, he⟩ | ⟨k, he⟩⟩
    · rw [he]
      exact .refl st
    · rw [he]
      exact .refl st
    · rw [he]
      exact set_retains st _ chunkId _
  | readLease chunkId t =>
    obtain rfl := Option.some.inj hs
    refine h.retains ?_
    rcases GetChunkReadLease_spec st.cl.lm chunkId t with ⟨r, -, he⟩ | ⟨v, -, he⟩
    · rw [he]
      exact .refl st
    · rw [he]
      exact set_retains st _ chunkId _
  | renew chunkId leaseType leaseId t =>
    obtain rfl := Option.some.inj hs
    exact h.retains (LeaseRenew_retains st chunkId leaseType leaseId t)
  | leaseCleanup t =>
    obtain rfl := Option.some.inj hs
    exact h.retains (.layout rfl fun c hc => (Option.isSome_map).trans hc)
  | delete chunkId =>
    obtain rfl := Option.some.inj hs
    refine ⟨?_, h.unborn⟩
    unfold LayoutManager.DeleteChunk
    split
    · exact h.chunks
    · rename_i v hv
      split_ifs with hnone
      · exact h.chunks
      · refine h.chunks.erase ?_
        simpa [planStep, show st.entry chunkId = some v from hv, hnone] using hc
  | remove chunkId =>
    obtain rfl := Option.some.inj hs
    exact ⟨h.chunks.erase hc, h.unborn⟩
  | corrupt server fid chunkId =>
    obtain rfl := Option.some.inj hs
    exact h.retains (ChunkCorrupt_retains st server fid chunkId)
  | check r =>
    obtain ⟨st₁, he, hk⟩ := ChunkReplicationChecker_total r hros (List.Subset.refl st.live) h.chunks
    obtain rfl : st' = st₁ := Option.some.inj (hs.symm.trans he)
    exact h.retains hk.retains
  | done i status fid chunkVersion w =>
    rw [Placement.step] at hs
    split at hs
    · cases hs
    · rename_i req hi
      obtain ⟨st₁, he, hr⟩ := h.done hi status fid chunkVersion w
      obtain rfl : st' = st₁ := Option.some.inj (hs.symm.trans he)
      exact h.retains hr

/-! ## Runs -/

/-- What is started is planned, one replication at most of a chunk, and none of it is under way. -/
def StartsAlone (st st' : Placement) : Prop :=
  ∃ news, Starts (fun s => (st.info s).mChunksToMove) st st' news ∧ ∀ o ∈ news, st.opsOf o.chunkId = []

/-- The plan can be executed: its chunks are in the map, neither the checker nor the end of a replication runs into one
that is not, what is started is started alone, and only chunks that exist keep the plan from being complete. -/
structure PlanSafe (st : Placement) : Prop where
  found : ∀ s ∈ st.live, ∀ c ∈ (st.info s).mChunksToMove, (st.entry c).isSome = true
  check : ∀ r, ∃ st', st.step (.check r) = some st'
  done : ∀ i < st.ops.length, ∀ status fid chunkVersion w,
    ∃ st', st.step (.done i status fid chunkVersion w) = some st'
  server : ∀ w, ∀ s ∈ st.live, ∃ st', st.ExecuteRebalancePlanOn w s = some st' ∧ StartsAlone st st'
  all : ∀ w, ∃ st', st.ExecuteRebalancePlan w = some st' ∧ StartsAlone st st' ∧
    (st'.mIsExecutingRebalancePlan = true →
      ∃ s ∈ st'.cl.lm.mChunkServers, ∃ c ∈ (st'.info s).mChunksToMove, (st'.entry c).isSome = true)

theorem Planned.alone (h : Planned st) (hs : ∃ news, Starts (fun s => (st.info s).mChunksToMove) st st' news) :
    StartsAlone st st' := by
  obtain ⟨news, hs⟩ := hs
  refine ⟨news, hs, fun o ho => ?_⟩
  obtain ⟨-, v, hv, hrest, -⟩ := hs.new o ho
  exact h.tracked.opsOf_nil hv hrest

/-- The plan is complete unless a server has a chunk left to move. -/
theorem ExecuteRebalancePlan_left {w : ServerId → ℤ → Visit} (h : st.ExecuteRebalancePlan w = some st')
    (he : st'.mIsExecutingRebalancePlan = true) :
    ∃ s ∈ st'.cl.lm.mChunkServers, ∃ c, c ∈ (st'.info s).mChunksToMove := by
  unfold ExecuteRebalancePlan at h
  split_ifs at h with hplan
  · obtain rfl := Option.some.inj h
    rw [he] at hplan
    cases hplan
  obtain ⟨st₁, -, h₂⟩ := Option.bind_eq_some_iff.mp h
  split_ifs at h₂ with hdone
  · obtain rfl := Option.some.inj h₂
    cases he
  · obtain rfl := Option.some.inj h₂
    obtain ⟨s, hs, hne⟩ : ∃ s ∈ st₁.cl.lm.mChunkServers, ¬ (st₁.info s).mChunksToMove = [] := by simpa using hdone
    exact ⟨s, hs, List.exists_mem_of_ne_nil _ hne⟩

theorem Planned.safe (h : Planned st) : PlanSafe st := by
  have hn : NonNeg st := h.tracked.counted.nonNeg
  refine ⟨h.chunks, fun r => ?_, fun i hi status fid chunkVersion w => ?_, fun w s hs => ?_, fun w => ?_⟩
  · obtain ⟨st', he, -⟩ :=
      ChunkReplicationChecker_total r h.tracked.booked.rostered (List.Subset.refl st.live) h.chunks
    exact ⟨st', he⟩
  · have hreq := List.getElem?_eq_getElem hi
    obtain ⟨st', he, -⟩ := h.done hreq status fid chunkVersion w
    refine ⟨st', ?_⟩
    rw [Placement.step, hreq]
    exact he
  · obtain ⟨st', he, -⟩ := ExecuteRebalancePlanOn_total w hs h.chunks
    exact ⟨st', he, h.alone (ExecuteRebalancePlanOn_starts hn (List.Subset.refl _) he)⟩
  · obtain ⟨st', he, hk⟩ := ExecuteRebalancePlan_total w (List.Subset.refl st.live) h.chunks
    refine ⟨st', he, h.alone (ExecuteRebalancePlan_starts h.chunks hn he), fun hex => ?_⟩
    obtain ⟨s, hs, c, hc⟩ := ExecuteRebalancePlan_left he hex
    have hlive : s ∈ st'.live := mem_live.mpr (.inl hs)
    exact ⟨s, hs, c, hc, h.chunks.retains hk.retains s hlive c hc⟩

theorem Start.planned (h : st.Start) (hp : ∀ s, (st.info s).mChunksToMove = []) : Planned st := by
  refine ⟨h.tracked, fun s _ c hc => ?_, fun s _ => hp s⟩
  rw [hp] at hc
  cases hc

/-- **The plan can be executed** along every run in which only chunks of the map are planned, no chunk leaves the map
while a server has it in its plan, and no entry is created for a chunk that is being replicated. -/
theorem plan_tolerates {st₀ : Placement} {es : List PlaceEv} (h₀ : st₀.Start)
    (hp : ∀ s, (st₀.info s).mChunksToMove = []) (hr : run planStep es st₀ = some st) : PlanSafe st := by
  have h : Planned st := run_invariant (fun h hc hs => h.step hc hs) (h₀.planned hp) hr
  exact h.safe

/-- Server 0 has chunk 7, which is to be moved to server 1; the checker starts a copy. -/
def planRun : List PlaceEv :=
  [joins 0 30000 0 [⟨3, 7, 1⟩], joins 1 30001 0 [], .plan [(⟨['h'], 30001⟩, 7)], checks []]

theorem plan_tolerates_planRun : ∃ st, run planStep planRun restarted = some st ∧ PlanSafe st ∧
    (st.opsOf 7).map ChunkReplicate.server = [1] := by
  have hall : (run planStep planRun restarted).map (fun st => (st.opsOf 7).map ChunkReplicate.server) = some [1] := by
    decide +kernel
  obtain ⟨st, hr, h7⟩ := Option.map_eq_some_iff.mp hall
  exact ⟨st, hr, plan_tolerates restarted_start (fun _ => rfl) hr, h7⟩

/-- **A planned chunk is deleted**: it stays in the plan of server 1, and the checker uses an entry that is not
there. -/
theorem deletedRun_not_safe : restarted.Start ∧ (∀ s, (restarted.info s).mChunksToMove = []) ∧
    ∃ st, run (fun _ _ => true) [joins 0 30000 0 [⟨3, 7, 1⟩], joins 1 30001 0 [],
        .plan [(⟨['h'], 30001⟩, 7)], .tree [], .delete 7] restarted = some st ∧
      st.entry 7 = none ∧ 7 ∈ (st.info 1).mChunksToMove ∧ st.step (checks []) = none ∧ ¬ PlanSafe st := by
  refine ⟨restarted_start, fun _ => rfl, ?_⟩
  have hall : (run (fun _ _ => true) [joins 0 30000 0 [⟨3, 7, 1⟩], joins 1 30001 0 [],
        .plan [(⟨['h'], 30001⟩, 7)], .tree [], .delete 7] restarted).map (fun st =>
      ((st.entry 7).isNone, decide (7 ∈ (st.info 1).mChunksToMove), (st.step (checks [])).isNone)) =
        some (true, true, true) := by decide +kernel
  obtain ⟨st, hr, h7⟩ := Option.map_eq_some_iff.mp hall
  simp only [Prod.mk.injEq, Option.isNone_iff_eq_none, decide_eq_true_eq] at h7
  refine ⟨st, hr, h7.1, h7.2.1, h7.2.2, fun hs => ?_⟩
  obtain ⟨st', he⟩ := hs.check ⟨200, [], fun _ => still, fun _ _ => still, [], fun _ => still⟩
  have hnone : st.step (checks []) = some st' := he
  rw [h7.2.2] at hnone
  cases hnone

end Placement

end Kfs
