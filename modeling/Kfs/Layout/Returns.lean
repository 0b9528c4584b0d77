import Kfs.Layout.Replicas

/-!
# The searches return

The searches for replication work assert that a server that is to get a chunk does not have it, and
`ExecuteRebalancePlan` takes each chunk of a plan to be in the map. The servers that the searches offer do not have
the chunk; so they return as long as the chunks of the plans are in the map.

* `live`: the servers that replications may go to;
* `Keeps`: what a part of a step keeps of the map, the plans and these servers;
* **`ChunkReplicationChecker_total`**, **`ChunkReplicationDone_total`**: the two functions that execute the plan
  return.
-/

namespace Kfs

namespace Placement

variable {st st' st₁ : Placement} {c chunkId : ℤ} {v : ChunkPlacementInfo} {s server : ServerId}
  {hosts cs L : List ServerId}

/-! ## Servers that replications go to -/

/-- The servers that are listed, that are on a rack, or that a replication is under way to. -/
def live (st : Placement) : List ServerId :=
  st.cl.lm.mChunkServers ++ st.mRacks.flatMap RackInfo.mServers ++ st.ops.map ChunkReplicate.server

theorem mem_live : s ∈ st.live ↔
    s ∈ st.cl.lm.mChunkServers ∨ (∃ k ∈ st.mRacks, s ∈ k.mServers) ∨ ∃ o ∈ st.ops, o.server = s := by
  simp only [live, List.mem_append, List.mem_flatMap, List.mem_map, or_assoc]

/-- What a part of a step keeps: no chunk leaves the map, none is added to a plan, and replications are started to
servers of `L` only. -/
structure Keeps (L : List ServerId) (st st' : Placement) : Prop where
  same : Same st st'
  entries : ∀ c, (st.entry c).isSome = true → (st'.entry c).isSome = true
  toMove : ∀ s, (st'.info s).mChunksToMove ⊆ (st.info s).mChunksToMove
  ops : ∀ o ∈ st'.ops, o ∈ st.ops ∨ o.server ∈ L

theorem Keeps.refl (L : List ServerId) (st : Placement) : Keeps L st st :=
  ⟨.refl st, fun _ h => h, fun _ => List.Subset.refl _, fun _ h => .inl h⟩

theorem Keeps.trans (h₁ : Keeps L st st₁) (h₂ : Keeps L st₁ st') : Keeps L st st' := by
  refine ⟨h₁.same.trans h₂.same, fun c hc => h₂.entries c (h₁.entries c hc),
    fun s _ hm => h₁.toMove s (h₂.toMove s hm), fun o ho => ?_⟩
  rcases h₂.ops o ho with ho | ho
  · exact h₁.ops o ho
  · exact .inr ho

theorem Keeps.live (h : Keeps L st st') (hL : st.live ⊆ L) : st'.live ⊆ L := by
  intro s hs
  rcases mem_live.mp hs with hs | ⟨k, hk, hs⟩ | ⟨o, ho, rfl⟩
  · rw [h.same.servers] at hs
    exact hL (mem_live.mpr (.inl hs))
  · exact hL (mem_live.mpr (.inr (.inl ⟨k, h.same.racks.mem_iff.mp hk, hs⟩)))
  · rcases h.ops o ho with ho | ho
    · exact hL (mem_live.mpr (.inr (.inr ⟨o, ho, rfl⟩)))
    · exact ho

/-- The chunks that are to be moved to one of the servers are in the map. -/
def PlanOk (L : List ServerId) (st : Placement) : Prop :=
  ∀ s ∈ L, ∀ c ∈ (st.info s).mChunksToMove, (st.entry c).isSome = true

theorem PlanOk.keeps (h : PlanOk L st) (hk : Keeps L st st') : PlanOk L st' :=
  fun s hs c hc => hk.entries c (h s hs c (hk.toMove s hc))

/-- The map, the plans and the servers are as they were. -/
theorem Keeps.of_frame (hlm : st'.cl.lm = st.cl.lm) (hi : st'.info = st.info) (hh : st'.mHelloDone = st.mHelloDone)
    (he : st'.epoch = st.epoch) (hr : st'.mRacks = st.mRacks) (ho : st'.ops = st.ops) : Keeps L st st' := by
  refine ⟨⟨by rw [hlm], hh, he, by rw [hr]⟩, fun c hc => ?_, fun s => ?_, fun o h => ?_⟩
  · unfold entry
    rw [hlm]
    exact hc
  · rw [hi]
    exact List.Subset.refl _
  · rw [ho] at h
    exact .inl h

/-- The entry of one chunk is written, the rest stays. -/
theorem setEntry_keeps (L : List ServerId) (st : Placement) (c : ℤ) (v : ChunkPlacementInfo) :
    Keeps L st (st.setEntry c v) := by
  refine ⟨⟨rfl, rfl, rfl, List.Perm.refl _⟩, fun x hx => ?_, fun _ => List.Subset.refl _, fun _ h => .inl h⟩
  rw [setEntry_entry]
  by_cases hc : x = c
  · rw [hc, Function.update_self]
    rfl
  · rwa [Function.update_of_ne hc]

theorem setInfo_keeps {i : ServerInfo} (h : i.mChunksToMove ⊆ (st.info s).mChunksToMove) :
    Keeps L st (st.setInfo s i) := by
  refine ⟨⟨rfl, rfl, rfl, List.Perm.refl _⟩, fun _ h => h, fun x => ?_, fun _ h => .inl h⟩
  by_cases hx : x = s
  · subst hx
    simpa [setInfo] using h
  · simp [setInfo, hx]

theorem Reordered.keeps (h : Reordered st st') : Keeps L st st' := by
  obtain ⟨racks, hp, rfl⟩ := h
  exact ⟨⟨rfl, rfl, rfl, hp⟩, fun _ h => h, fun _ => List.Subset.refl _, fun _ h => .inl h⟩

theorem enqueue_keeps {d x : ServerId} {loc : ServerLocation} (hx : x ∈ L) :
    Keeps L st ((st.UpdateReplicationReadLoad d 1).enqueue x chunkId loc) := by
  have h₁ : Keeps L st (st.UpdateReplicationReadLoad d 1) := setInfo_keeps (List.Subset.refl _)
  generalize st.UpdateReplicationReadLoad d 1 = st₁ at h₁
  have h₂ : Keeps L st₁ (st₁.setInfo x { st₁.info x with
      mNumChunkWriteReplications := (st₁.info x).mNumChunkWriteReplications + 1 }) := setInfo_keeps (List.Subset.refl _)
  refine h₁.trans ⟨⟨rfl, rfl, rfl, List.Perm.refl _⟩, h₂.entries, h₂.toMove, fun o ho => ?_⟩
  rcases List.mem_append.mp ho with ho | ho
  · exact .inl ho
  · right
    obtain rfl := List.mem_singleton.mp ho
    exact hx

/-! ## Starting replications -/

/-- With candidates that do not have the chunk, `ReplicateChunk` returns. -/
theorem ReplicateChunkTo_total : ∀ {cs : List ServerId} {st : Placement}, (∀ s ∈ cs, s ∉ hosts ∧ s ∈ L) →
    ∃ n st', ReplicateChunkTo chunkId hosts cs st = some (n, st') ∧ Keeps L st st'
  | [], st, _ => ⟨0, st, rfl, .refl L st⟩
  | x :: cs, st, h => by
    obtain ⟨hx, hcs⟩ := List.forall_mem_cons.mp h
    rw [ReplicateChunkTo]
    split_ifs with hbusy hhost
    · exact ReplicateChunkTo_total hcs
    · exact absurd hhost hx.1
    · split
      · exact ReplicateChunkTo_total hcs
      · rename_i d _
        have hk : Keeps L st ((st.UpdateReplicationReadLoad d 1).enqueue x chunkId (st.cl.location d)) :=
          enqueue_keeps hx.2
        obtain ⟨n, st', he, hk'⟩ := @ReplicateChunkTo_total cs
          ((st.UpdateReplicationReadLoad d 1).enqueue x chunkId (st.cl.location d)) hcs
        rw [he]
        exact ⟨n + 1, st', rfl, hk.trans hk'⟩

theorem addOngoing_keeps {n : ℕ} (h : Keeps L st st') : Keeps L st (st'.addOngoing chunkId v n) :=
  h.trans (setEntry_keeps L st' chunkId _)

theorem ReplicateChunk_total {k : ℕ} (w : Visit) (hr : Rostered st) (hL : st.live ⊆ L) (hk : 0 < k)
    (chunkId : ℤ) (v : ChunkPlacementInfo) :
    ∃ n st', st.ReplicateChunk chunkId v k w = some (n, st') ∧ Keeps L st st' := by
  obtain ⟨-, -, -, hmem⟩ := hr.replicateServers_spec v.chunkServers w hk
  obtain ⟨hre, hoff⟩ := @replicateServers_offered st v.chunkServers w k
  unfold ReplicateChunk
  generalize st.replicateServers v.chunkServers k w = p at hre hmem hoff
  obtain ⟨candidates, st₁⟩ := p
  dsimp only at hre hmem hoff ⊢
  have hc : ∀ s ∈ candidates.take k, s ∉ v.chunkServers ∧ s ∈ L := by
    intro s hs
    have hs' := (List.take_sublist k candidates).subset hs
    obtain ⟨st₂, rack, σ, hre₂, hf⟩ := hoff s hs'
    have hlive : s ∈ st₂.live := mem_live.mpr ((mem_FindCandidateServers hf).1.imp_right Or.inl)
    exact ⟨(hmem s hs').2.2, (Reordered.keeps hre₂).live hL hlive⟩
  obtain ⟨n, st', he, hk'⟩ := @ReplicateChunkTo_total chunkId v.chunkServers L (candidates.take k) st₁ hc
  exact ⟨n, st', he, hre.keeps.trans hk'⟩

theorem ReplicateChunkToServers_total {n : ℕ} (h : ∀ s ∈ cs, s ∉ v.chunkServers ∧ s ∈ L) :
    ∃ st', st.ReplicateChunkToServers chunkId v n cs = some st' ∧ Keeps L st st' := by
  unfold ReplicateChunkToServers
  have hany : ¬ (cs.any fun s => decide (s ∈ v.chunkServers)) = true := by
    simpa using fun s hs => (h s hs).1
  rw [if_neg hany]
  obtain ⟨k, st₁, he, hk⟩ := @ReplicateChunkTo_total chunkId v.chunkServers L (cs.take n) st
    fun s hs => h s ((List.take_sublist n cs).subset hs)
  rw [he]
  dsimp only [Option.bind_eq_bind, Option.bind_some]
  split_ifs with hpos
  · exact ⟨_, rfl, addOngoing_keeps (hk.trans (.of_frame rfl rfl rfl rfl rfl rfl))⟩
  · exact ⟨st₁, rfl, hk⟩

theorem replicateOrDelete_total {extra : ℤ} (w : Visit) (hr : Rostered st) (hL : st.live ⊆ L) (c : ℤ)
    (v : ChunkPlacementInfo) : ∃ st', st.replicateOrDelete c v extra w = some st' ∧ Keeps L st st' := by
  unfold replicateOrDelete
  split_ifs with hpos hzero
  · obtain ⟨n, st', he, hk⟩ := ReplicateChunk_total w hr hL (show 0 < extra.toNat by omega) c v
    rw [he]
    exact ⟨_, rfl, addOngoing_keeps hk⟩
  · exact ⟨st, rfl, .refl L st⟩
  · refine ⟨_, rfl, ?_⟩
    unfold DeleteAddlChunkReplicas
    split_ifs
    · exact .refl L st
    · exact setEntry_keeps L st c _

/-! ## The loops -/

theorem checkLoop_total (w : ℤ → Visit) : ∀ (cids : List ℤ) (n : ℕ) (del : List ℤ) {st : Placement}, Rostered st →
    st.live ⊆ L → ∃ del' st', checkLoop w cids n del st = some (del', st') ∧ Keeps L st st'
  | [], n, del, st, _, _ => ⟨del, st, rfl, .refl L st⟩
  | c :: cids, n, del, st, hr, hL => by
    rw [checkLoop]
    split_ifs with hcand
    swap
    · exact checkLoop_total w cids n del hr hL
    split
    · exact checkLoop_total w cids n _ hr hL
    rename_i v hv
    split_ifs with hrest
    · exact checkLoop_total w cids n del hr hL
    split
    · exact checkLoop_total w cids n del hr hL
    rename_i extra _
    obtain ⟨st₁, he, hk⟩ := @replicateOrDelete_total st L extra (w c) hr hL c v
    rw [he]
    dsimp only
    by_cases hmany : ((if extra > 0 then n + 1 else n : ℕ) : ℤ) >
        st₁.cl.lm.mChunkServers.length * MAX_CONCURRENT_WRITE_REPLICATIONS_PER_NODE
    · rw [if_pos hmany]
      exact ⟨_, st₁, rfl, hk⟩
    · rw [if_neg hmany]
      obtain ⟨del', st', he', hk'⟩ := @checkLoop_total w cids (if extra > 0 then n + 1 else n)
        (if extra > 0 then del else c :: del) st₁ (hr.same hk.same) (hk.live hL)
      exact ⟨del', st', he', hk.trans hk'⟩

theorem planLoop_total (w : ℤ → Visit) (hs : server ∈ L) : ∀ {cids : List ℤ} {st : Placement},
    (∀ c ∈ cids, (st.entry c).isSome = true) → ∃ st', planLoop w server cids st = some st' ∧ Keeps L st st'
  | [], st, _ => ⟨st, rfl, .refl L st⟩
  | cid :: cids, st, h => by
    obtain ⟨hcid, hcids⟩ := List.forall_mem_cons.mp h
    rw [planLoop]
    split_ifs with hbusy
    · exact ⟨st, rfl, .refl L st⟩
    split
    · rename_i hv
      rw [hv] at hcid
      cases hcid
    rename_i v hv
    split_ifs with hskip
    · exact planLoop_total w hs hcids
    · have hnot : ∀ s ∈ [server], s ∉ v.chunkServers ∧ s ∈ L := by
        simpa [hs] using fun hm => hskip (.inr (.inr hm))
      obtain ⟨st₁, he, hk⟩ := @ReplicateChunkToServers_total st cid v [server] L 1 hnot
      rw [he]
      obtain ⟨st', he', hk'⟩ := @planLoop_total w hs cids st₁ fun c hc => hk.entries c (hcids c hc)
      exact ⟨st', he', hk.trans hk'⟩

/-- The chunks of the plan are looked up in the map, and found. -/
theorem ExecuteRebalancePlanOn_total (w : ℤ → Visit) (hs : server ∈ L) (hp : PlanOk L st) :
    ∃ st', st.ExecuteRebalancePlanOn w server = some st' ∧ Keeps L st st' := by
  unfold ExecuteRebalancePlanOn
  dsimp only
  split_ifs with hfull
  · exact ⟨_, rfl, setInfo_keeps (List.nil_subset _)⟩
  · exact planLoop_total w hs (hp server hs)

theorem planExecutor_total (w : ServerId → ℤ → Visit) (hs : server ∈ L) (hp : PlanOk L st) :
    ∃ st', st.planExecutor w server = some st' ∧ Keeps L st st' := by
  unfold planExecutor
  split_ifs with hskip
  · exact ⟨st, rfl, .refl L st⟩
  · exact ExecuteRebalancePlanOn_total (w server) hs hp

theorem planExecutors_total (w : ServerId → ℤ → Visit) : ∀ {ss : List ServerId} {st : Placement}, ss ⊆ L →
    PlanOk L st → ∃ st', ss.foldlM (planExecutor w) st = some st' ∧ Keeps L st st'
  | [], st, _, _ => ⟨st, rfl, .refl L st⟩
  | s :: ss, st, hss, hp => by
    obtain ⟨hs, hss⟩ := List.cons_subset.mp hss
    obtain ⟨st₁, he, hk⟩ := planExecutor_total w hs hp
    obtain ⟨st', he', hk'⟩ := planExecutors_total w hss (hp.keeps hk)
    refine ⟨st', ?_, hk.trans hk'⟩
    rw [List.foldlM_cons, he]
    exact he'

theorem ExecuteRebalancePlan_total (w : ServerId → ℤ → Visit) (hL : st.live ⊆ L) (hp : PlanOk L st) :
    ∃ st', st.ExecuteRebalancePlan w = some st' ∧ Keeps L st st' := by
  unfold ExecuteRebalancePlan
  split_ifs with hplan
  · exact ⟨st, rfl, .refl L st⟩
  · have hss : st.cl.lm.mChunkServers ⊆ L := fun s hs => hL (mem_live.mpr (.inl hs))
    obtain ⟨st₁, he, hk⟩ := planExecutors_total w hss hp
    rw [he]
    dsimp only [Option.bind_eq_bind, Option.bind_some]
    split_ifs with hdone
    · exact ⟨_, rfl, hk.trans (.of_frame rfl rfl rfl rfl rfl rfl)⟩
    · exact ⟨st₁, rfl, hk⟩

/-! ## Rebalancing -/

theorem mem_intraRack {non : List ServerId} {σ : ℕ → Shuffle ServerId} : ∀ (ss : List ServerId) (i : ℕ)
    (cands : List ServerId), s ∈ st.FindIntraRackRebalanceCandidates non hosts σ i ss cands → s ∈ cands ∨ s ∉ hosts
  | [], i, cands, h => by
    rw [FindIntraRackRebalanceCandidates] at h
    exact .inl h
  | x :: ss, i, cands, h => by
    rw [FindIntraRackRebalanceCandidates] at h
    split_ifs at h with hload
    · exact mem_intraRack ss (i + 1) cands h
    dsimp only at h
    refine (mem_intraRack ss (i + 1) _ h).elim (fun h => ?_) .inr
    rcases List.mem_append.mp h with h | h
    · exact .inl h
    · exact .inr (mem_candidatesOf (List.mem_of_find?_eq_some (Option.mem_toList.mp h))).2.2.2

/-- A server that a chunk could move to does not have it. -/
theorem mem_rebalanceCandidates {non : List ServerId} {w : Visit} (h : s ∈ st.rebalanceCandidates non hosts w) :
    s ∉ hosts := by
  unfold rebalanceCandidates at h
  split at h
  · have hf := Option.mem_toList.mp h
    unfold FindInterRackRebalanceCandidate at hf
    dsimp only at hf
    split_ifs at hf with hone
    · exact (mem_candidatesOf (List.mem_of_find?_eq_some hf)).2.2.2
  · exact (mem_intraRack hosts 0 [] h).resolve_left List.not_mem_nil

theorem rebalanceLoop_total {non : List ServerId} (w : ℤ → Visit) (hn : non ⊆ L) : ∀ (cids : List ℤ) {st : Placement},
    ∃ st', rebalanceLoop w non cids st = some st' ∧ Keeps L st st'
  | [], st => ⟨st, rfl, .refl L st⟩
  | c :: cids, st => by
    rw [rebalanceLoop]
    dsimp only
    split_ifs with hbusy
    · exact ⟨st, rfl, .refl L st⟩
    split
    · exact rebalanceLoop_total w hn cids
    rename_i v hv
    split_ifs with hrest
    · exact rebalanceLoop_total w hn cids
    split
    · exact rebalanceLoop_total w hn cids
    split_ifs with hskip
    · exact rebalanceLoop_total w hn cids
    · have hc := rebalanceCandidates_spec st non v.chunkServers (w c)
      obtain ⟨st₁, he, hk⟩ := @ReplicateChunkToServers_total st c v
        (st.rebalanceCandidates non v.chunkServers (w c)) L
        (min (st.rebalanceCandidates non v.chunkServers (w c)).length v.chunkServers.length)
        fun s hs => ⟨mem_rebalanceCandidates hs, hn (hc.2 hs)⟩
      rw [he]
      obtain ⟨st', he', hk'⟩ := @rebalanceLoop_total non w hn cids st₁
      exact ⟨st', he', hk.trans hk'⟩

theorem RebalanceServers_total (r : Round) (hL : st.live ⊆ L) (hp : PlanOk L st) :
    ∃ st', st.RebalanceServers r = some st' ∧ Keeps L st st' := by
  unfold RebalanceServers
  split_ifs with hrec
  · exact ⟨st, rfl, .refl L st⟩
  obtain ⟨st₁, he, hk⟩ := ExecuteRebalancePlan_total r.plan hL hp
  rw [he]
  dsimp only [Option.bind_eq_bind, Option.bind_some]
  split_ifs with hon hload
  · exact ⟨st₁, rfl, hk⟩
  · exact ⟨st₁, rfl, hk⟩
  · have hn : (List.filter (fun s => decide ((st₁.info s).GetSpaceUtilization < MIN_SERVER_SPACE_UTIL_THRESHOLD))
        (List.filter (fun s => !(st₁.info s).mIsRetiring) st₁.cl.lm.mChunkServers)) ⊆ L := by
      intro s hs
      refine hk.live hL (mem_live.mpr (.inl ?_))
      exact List.mem_of_mem_filter (List.mem_of_mem_filter hs)
    obtain ⟨st', he', hk'⟩ := @rebalanceLoop_total L _ r.move hn r.moved st₁
    exact ⟨st', he', hk.trans hk'⟩

/-- **The checker returns** as long as the chunks of the plan are in the map. -/
theorem ChunkReplicationChecker_total (r : Round) (hr : Rostered st) (hL : st.live ⊆ L) (hp : PlanOk L st) :
    ∃ st', st.ChunkReplicationChecker r = some st' ∧ Keeps L st st' := by
  unfold ChunkReplicationChecker
  split_ifs with hrec
  · exact ⟨st, rfl, .refl L st⟩
  have hk₀ : Keeps L st { st with cl := st.cl.CheckHibernatingServersStatus r.now } :=
    .of_frame rfl rfl rfl rfl rfl rfl
  obtain ⟨del, st₁, he, hk⟩ := checkLoop_total r.check r.checked 0 [] (hr.same hk₀.same) (hk₀.live hL)
  dsimp only
  rw [he]
  dsimp only [Option.bind_eq_bind, Option.bind_some]
  have hk₁ : Keeps L st { st₁ with cl := { st₁.cl with
      mChunkReplicationCandidates := fun x => st₁.cl.mChunkReplicationCandidates x && decide (x ∉ del) } } :=
    (hk₀.trans hk).trans (.of_frame rfl rfl rfl rfl rfl rfl)
  obtain ⟨st', he', hk'⟩ := RebalanceServers_total r (hk₁.live hL) (hp.keeps hk₁)
  exact ⟨st', he', hk₁.trans hk'⟩

/-! ## More work for a server -/

theorem workLoop_total (w : ℤ → Visit) (hs : server ∈ L) : ∀ (cids : List ℤ) {st : Placement},
    ∃ st', workLoop w server cids st = some st' ∧ Keeps L st st'
  | [], st => ⟨st, rfl, .refl L st⟩
  | c :: cids, st => by
    rw [workLoop]
    split_ifs with hcand
    swap
    · exact workLoop_total w hs cids
    split
    · exact workLoop_total w hs cids
    rename_i v hv
    split_ifs with hrest
    · exact workLoop_total w hs cids
    split
    · exact workLoop_total w hs cids
    rename_i extra _
    split_ifs with hrack
    · exact workLoop_total w hs cids
    obtain ⟨st₁, he, hk⟩ : ∃ st₁, st.replicateOn c v extra server = some st₁ ∧ Keeps L st st₁ := by
      unfold replicateOn
      split_ifs with hpos
      · have hnot : ∀ s ∈ [server], s ∉ v.chunkServers ∧ s ∈ L := by
          simpa [hs] using fun hm => hrest (.inr hm)
        obtain ⟨n, st₁, he, hk⟩ := @ReplicateChunkTo_total c v.chunkServers L [server] st hnot
        rw [he]
        exact ⟨_, rfl, addOngoing_keeps hk⟩
      · exact ⟨st, rfl, .refl L st⟩
    rw [he]
    dsimp only
    split_ifs with hbusy
    · exact ⟨st₁, rfl, hk⟩
    · obtain ⟨st', he', hk'⟩ := @workLoop_total w hs cids st₁
      exact ⟨st', he', hk.trans hk'⟩

theorem FindReplicationWorkForServer_total (w : Work) (hs : server ∈ L) (hp : PlanOk L st) :
    ∃ st', st.FindReplicationWorkForServer server w = some st' ∧ Keeps L st st' := by
  unfold FindReplicationWorkForServer
  split_ifs with hret
  · exact ⟨st, rfl, .refl L st⟩
  obtain ⟨st₁, he, hk⟩ := @workLoop_total server L w.visit hs w.visited st
  rw [he]
  obtain ⟨st', he', hk'⟩ := ExecuteRebalancePlanOn_total w.plan hs (hp.keeps hk)
  exact ⟨st', he', hk.trans hk'⟩

/-- The counter of the server does not go negative. -/
theorem ReplicateChunkDone_total (hw : 0 < st.writeReplications server) (chunkId : ℤ) :
    ∃ st', st.ReplicateChunkDone server chunkId = some st' ∧ Keeps L st st' := by
  have hnot : ¬ (st.info server).mNumChunkWriteReplications - 1 < 0 := by
    unfold writeReplications at hw
    omega
  unfold ReplicateChunkDone
  dsimp only
  rw [if_neg hnot]
  refine ⟨_, rfl, ?_⟩
  apply setInfo_keeps
  exact fun c hc => List.mem_of_mem_filter hc

/-- What follows the change of the entry. -/
theorem ReplicateChunkDone_source {st₁ : Placement} {req : ChunkReplicate} (hk₁ : Keeps L st st₁)
    (hw : 0 < st₁.writeReplications req.server) :
    ∃ st', (st₁.ReplicateChunkDone req.server req.chunkId).bind (fun st₂ =>
      match st₂.cl.lm.mChunkServers.find? fun s => decide (st₂.cl.location s = req.srcLocation) with
      | none => some st₂
      | some source => some (st₂.UpdateReplicationReadLoad source (-1))) = some st' ∧ Keeps L st st' := by
  obtain ⟨st₂, he, hk₂⟩ := @ReplicateChunkDone_total st₁ req.server L hw req.chunkId
  rw [he, Option.bind_some]
  split
  · exact ⟨st₂, rfl, hk₁.trans hk₂⟩
  · exact ⟨_, rfl, (hk₁.trans hk₂).trans (setInfo_keeps (List.Subset.refl _))⟩

theorem replicationOver_total {req : ChunkReplicate} (hw : 0 < st.writeReplications req.server) :
    ∃ st', st.replicationOver req = some st' ∧ Keeps L st st' := by
  unfold replicationOver
  dsimp only
  cases hv : st.entry req.chunkId with
  | none => exact ReplicateChunkDone_source (.refl L st) hw
  | some v => exact ReplicateChunkDone_source (setEntry_keeps L st _ _) hw

/-- **The end of a replication is processed** as long as the chunks of the plan are in the map. -/
theorem ChunkReplicationDone_total {req : ChunkReplicate} (status fid chunkVersion : ℤ) (w : Work)
    (hw : 0 < st.writeReplications req.server) (hs : req.server ∈ L) (hp : PlanOk L st) :
    ∃ st', st.ChunkReplicationDone req status fid chunkVersion w = some st' ∧ Keeps L st st' := by
  unfold ChunkReplicationDone
  obtain ⟨st₁, he, hk⟩ := @replicationOver_total st L req hw
  rw [he]
  dsimp only [Option.bind_eq_bind, Option.bind_some]
  by_cases hst : status ≠ 0
  · rw [if_pos hst]
    exact ⟨st₁, rfl, hk⟩
  rw [if_neg hst]
  split
  · exact ⟨st₁, rfl, hk⟩
  rename_i mci _
  by_cases hver : mci.chunkVersion ≠ chunkVersion
  · rw [if_pos hver]
    exact ⟨st₁, rfl, hk⟩
  rw [if_neg hver]
  -- what follows the change of the entry
  have hrest : ∀ st₂ : Placement, Keeps L st st₂ →
      ∃ st', (if (st₂.info req.server).mNumChunkWriteReplications ≤ 1 then
        st₂.FindReplicationWorkForServer req.server w else some st₂) = some st' ∧ Keeps L st st' := by
    intro st₂ hk₂
    split_ifs
    · obtain ⟨st', he', hk'⟩ := FindReplicationWorkForServer_total w hs (hp.keeps hk₂)
      exact ⟨st', he', hk₂.trans hk'⟩
    · exact ⟨st₂, rfl, hk₂⟩
  cases hu : st₁.cl.lm.UpdateChunkToServerMapping req.chunkId req.server with
  | none => exact hrest st₁ hk
  | some lm =>
    obtain ⟨v, -, rfl⟩ := Option.map_eq_some_iff.mp hu
    exact hrest _ (hk.trans (setEntry_keeps L st₁ _ _))

end Placement

end Kfs
