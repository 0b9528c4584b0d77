import Kfs.Layout.Moves

/-!
# Copies are only added

What the searches for replication work do with one chunk, apart from `DeleteAddlChunkReplicas`: the servers of its
entry stay, and the requests for it go to servers that do not have it and are not retiring.

* `Fills`: the relation between the states before and after;
* `ExecuteRebalancePlan_fills`, `RebalanceServers_fills`, `FindReplicationWorkForServer_fills`: the functions keep it.
-/

namespace Kfs

namespace Placement

/-- Of a chunk only `ongoingReplications` changes, and it is to be copied to servers that do not have it and are not
retiring. -/
structure Fills (c : ℤ) (st st' : Placement) : Prop where
  still : Still st st'
  entry : ∀ v, st.entry c = some v → ∃ n, st'.entry c = some { v with ongoingReplications := n }
  ops : ∃ news, st'.ops = st.ops ++ news ∧ ∀ o ∈ news, o.chunkId = c → (st.info o.server).mIsRetiring = false ∧
    ∀ v, st.entry c = some v → o.server ∉ v.chunkServers

variable {st st' st₁ : Placement} {c chunkId : ℤ} {v : ChunkPlacementInfo} {s server : ServerId}
  {hosts cs : List ServerId}

theorem Fills.of_still (h : Still st st') (he : st'.entry = st.entry) (ho : st'.ops = st.ops) : Fills c st st' := by
  refine ⟨h, fun v hv => ⟨v.ongoingReplications, ?_⟩, [], by simp [ho], by simp⟩
  rw [he, hv]

theorem Fills.refl (c : ℤ) (st : Placement) : Fills c st st := .of_still (.refl st) rfl rfl

theorem Fills.trans (h₁ : Fills c st st₁) (h₂ : Fills c st₁ st') : Fills c st st' := by
  obtain ⟨news₁, ho₁, hn₁⟩ := h₁.ops
  obtain ⟨news₂, ho₂, hn₂⟩ := h₂.ops
  refine ⟨h₁.still.trans h₂.still, fun v hv => ?_, news₁ ++ news₂, ?_, fun o ho hc => ?_⟩
  · obtain ⟨n, hn⟩ := h₁.entry v hv
    obtain ⟨m, hm⟩ := h₂.entry _ hn
    exact ⟨m, hm⟩
  · rw [ho₂, ho₁, List.append_assoc]
  · rcases List.mem_append.mp ho with ho | ho
    · exact hn₁ o ho hc
    · obtain ⟨hret, hhost⟩ := hn₂ o ho hc
      refine ⟨(h₁.still.retiring _).symm.trans hret, fun v hv => ?_⟩
      obtain ⟨n, hn⟩ := h₁.entry v hv
      exact hhost { v with ongoingReplications := n } hn

/-! ## Parts of a step -/

theorem setInfo_fills {i : ServerInfo} (h : i.mIsRetiring = (st.info s).mIsRetiring) : Fills c st (st.setInfo s i) :=
  .of_still (setInfo_still h) rfl rfl

/-- The requests of `ReplicateChunk`, added to the entry that they were sent for. -/
theorem ReplicateChunkTo_fills {n : ℕ} (hv : st.entry chunkId = some v)
    (hret : ∀ s ∈ cs, (st.info s).mIsRetiring = false)
    (h : ReplicateChunkTo chunkId v.chunkServers cs st = some (n, st')) (c : ℤ) :
    Fills c st (st'.addOngoing chunkId v n) := by
  have hstill := ReplicateChunkTo_still h
  obtain ⟨news, -, hs⟩ := ReplicateChunkTo_sent h
  refine ⟨⟨hstill.leaves, hstill.retiring, hstill.candidates⟩, fun w hw => ?_, news, hs.ops, fun o ho hc => ?_⟩
  · rw [addOngoing, setEntry_entry, hs.entry]
    by_cases he : c = chunkId
    · subst he
      obtain rfl : v = w := Option.some.inj (hv.symm.trans hw)
      exact ⟨_, by rw [Function.update_self]⟩
    · exact ⟨w.ongoingReplications, by rw [Function.update_of_ne he, hw]⟩
  · obtain ⟨hid, -, hhost⟩ := hs.new o ho
    refine ⟨hret _ (hs.servers.subset (List.mem_map_of_mem ho)), fun w hw => ?_⟩
    obtain rfl : v = w := Option.some.inj (hv.symm.trans (hid.symm.trans hc ▸ hw))
    exact hhost

/-! ## The searches -/

/-- A server that the search for more copies finds is not retiring. -/
theorem mem_replicateServers {w : Visit} {n : ℕ} (h : s ∈ (st.replicateServers hosts n w).1) :
    (st.info s).mIsRetiring = false := by
  obtain ⟨st₁, rack, σ, hre, hf⟩ := (replicateServers_offered w n).2 s h
  have hcand := (mem_FindCandidateServers hf).2
  simp only [ServerInfo.IsCandidateServer, Bool.not_eq_true', Bool.or_eq_false_iff] at hcand
  rw [← hre.still.retiring]
  exact hcand.2

theorem ReplicateChunk_fills {n k : ℕ} {w : Visit} (hv : st.entry chunkId = some v)
    (h : st.ReplicateChunk chunkId v k w = some (n, st')) (c : ℤ) : Fills c st (st'.addOngoing chunkId v n) := by
  have hre := (@replicateServers_offered st v.chunkServers w k).1
  have hmem : ∀ s ∈ (st.replicateServers v.chunkServers k w).1, (st.info s).mIsRetiring = false :=
    fun s hs => mem_replicateServers hs
  unfold ReplicateChunk at h
  generalize st.replicateServers v.chunkServers k w = p at h hre hmem
  obtain ⟨candidates, st₁⟩ := p
  dsimp only at h hre hmem
  have hsub : (candidates.take k).Sublist candidates := List.take_sublist k candidates
  have hstill := hre.still
  obtain ⟨racks, -, rfl⟩ := hre
  have h₁ : Fills c st { st with mRacks := racks } := .of_still hstill rfl rfl
  have hv₁ : ({ st with mRacks := racks } : Placement).entry chunkId = some v := hv
  exact h₁.trans (ReplicateChunkTo_fills hv₁ (fun s hs => hmem s (hsub.subset hs)) h c)

theorem ReplicateChunkToServers_fills {n : ℕ} (hv : st.entry chunkId = some v)
    (hret : ∀ s ∈ cs, (st.info s).mIsRetiring = false)
    (h : st.ReplicateChunkToServers chunkId v n cs = some st') (c : ℤ) : Fills c st st' := by
  unfold ReplicateChunkToServers at h
  split_ifs at h with hany
  obtain ⟨⟨k, st₁⟩, h₁, h₂⟩ := Option.bind_eq_some_iff.mp h
  have hfills := ReplicateChunkTo_fills hv (fun s hs => hret s ((List.take_sublist n cs).subset hs)) h₁ c
  dsimp only at h₂
  split_ifs at h₂ with hpos
  · obtain rfl := Option.some.inj h₂
    refine ⟨⟨hfills.still.leaves, hfills.still.retiring, fun x hx => ?_⟩, hfills.entry, hfills.ops⟩
    have := hfills.still.candidates x hx
    exact Bool.or_eq_true_iff.mpr (.inr this)
  · obtain rfl := Option.some.inj h₂
    have hstill := ReplicateChunkTo_still h₁
    obtain ⟨news, hn, hs⟩ := ReplicateChunkTo_sent h₁
    obtain rfl : news = [] := List.eq_nil_of_length_eq_zero (by omega)
    exact .of_still hstill hs.entry (by simpa using hs.ops)

/-! ## The rebalance plan -/

theorem planLoop_fills {w : ℤ → Visit} (c : ℤ) : ∀ {cids : List ℤ} {st st' : Placement},
    (st.info server).mIsRetiring = false → planLoop w server cids st = some st' → Fills c st st'
  | [], st, st', _, h => by
    obtain rfl := Option.some.inj h
    exact .refl c st
  | cid :: cids, st, st', hret, h => by
    rw [planLoop] at h
    split_ifs at h with hbusy
    · obtain rfl := Option.some.inj h
      exact .refl c st
    split at h
    · cases h
    rename_i v hv
    split_ifs at h with hskip
    · exact planLoop_fills c hret h
    obtain ⟨st₁, h₁, h₂⟩ := Option.bind_eq_some_iff.mp h
    have hf : Fills c st st₁ := ReplicateChunkToServers_fills hv (by simpa using hret) h₁ c
    exact hf.trans (planLoop_fills c ((hf.still.retiring server).trans hret) h₂)

theorem ExecuteRebalancePlanOn_fills {w : ℤ → Visit} (hret : (st.info server).mIsRetiring = false)
    (h : st.ExecuteRebalancePlanOn w server = some st') (c : ℤ) : Fills c st st' := by
  unfold ExecuteRebalancePlanOn at h
  dsimp only at h
  split_ifs at h with hfull
  · obtain rfl := Option.some.inj h
    exact setInfo_fills rfl
  · exact planLoop_fills c hret h

theorem planExecutor_fills {w : ServerId → ℤ → Visit} (c : ℤ) : ∀ {ss : List ServerId} {st st' : Placement},
    ss.foldlM (planExecutor w) st = some st' → Fills c st st'
  | [], st, st', h => by
    obtain rfl : st = st' := by simpa using h
    exact .refl c st
  | s :: ss, st, st', h => by
    rw [List.foldlM_cons] at h
    obtain ⟨st₁, h₁, h₂⟩ := Option.bind_eq_some_iff.mp h
    have hf : Fills c st st₁ := by
      unfold planExecutor at h₁
      split_ifs at h₁ with hskip
      · obtain rfl := Option.some.inj h₁
        exact .refl c st
      · simp only [Bool.or_eq_true, not_or, Bool.not_eq_true] at hskip
        exact ExecuteRebalancePlanOn_fills hskip.1 h₁ c
    exact hf.trans (planExecutor_fills c h₂)

theorem ExecuteRebalancePlan_fills {w : ServerId → ℤ → Visit} (h : st.ExecuteRebalancePlan w = some st') (c : ℤ) :
    Fills c st st' := by
  unfold ExecuteRebalancePlan at h
  split_ifs at h with hplan
  · obtain rfl := Option.some.inj h
    exact .refl c st
  · obtain ⟨st₁, h₁, h₂⟩ := Option.bind_eq_some_iff.mp h
    have hf := planExecutor_fills c h₁
    split_ifs at h₂ with hdone
    · obtain rfl := Option.some.inj h₂
      exact hf.trans (.of_still ⟨rfl, fun _ => rfl, fun _ hc => hc⟩ rfl rfl)
    · obtain rfl := Option.some.inj h₂
      exact hf

/-! ## Rebalancing -/

theorem rebalanceLoop_fills {w : ℤ → Visit} {non : List ServerId} (c : ℤ) : ∀ {cids : List ℤ} {st st' : Placement},
    (∀ s ∈ non, (st.info s).mIsRetiring = false) → rebalanceLoop w non cids st = some st' → Fills c st st'
  | [], st, st', _, h => by
    obtain rfl := Option.some.inj h
    exact .refl c st
  | cid :: cids, st, st', hret, h => by
    rw [rebalanceLoop] at h
    dsimp only at h
    split_ifs at h with hbusy
    · obtain rfl := Option.some.inj h
      exact .refl c st
    split at h
    · exact rebalanceLoop_fills c hret h
    rename_i v hv
    split_ifs at h with hrest
    · exact rebalanceLoop_fills c hret h
    split at h
    · exact rebalanceLoop_fills c hret h
    split_ifs at h with hskip
    · exact rebalanceLoop_fills c hret h
    obtain ⟨st₁, h₁, h₂⟩ := Option.bind_eq_some_iff.mp h
    have hc := rebalanceCandidates_spec st non v.chunkServers (w cid)
    have hf : Fills c st st₁ := ReplicateChunkToServers_fills hv (fun s hs => hret s (hc.2 hs)) h₁ c
    exact hf.trans (rebalanceLoop_fills c (fun s hs => (hf.still.retiring s).trans (hret s hs)) h₂)

theorem RebalanceServers_fills {r : Round} (h : st.RebalanceServers r = some st') (c : ℤ) : Fills c st st' := by
  unfold RebalanceServers at h
  split_ifs at h with hrec
  · obtain rfl := Option.some.inj h
    exact .refl c st
  obtain ⟨st₁, h₁, h₂⟩ := Option.bind_eq_some_iff.mp h
  refine (ExecuteRebalancePlan_fills h₁ c).trans ?_
  dsimp only at h₂
  split_ifs at h₂ with hon hload
  · obtain rfl := Option.some.inj h₂
    exact .refl c _
  · obtain rfl := Option.some.inj h₂
    exact .refl c _
  · refine rebalanceLoop_fills c (fun s hs => ?_) h₂
    simpa using (List.mem_filter.mp (List.mem_of_mem_filter hs)).2

/-! ## More work for a server -/

theorem workLoop_fills {w : ℤ → Visit} (c : ℤ) : ∀ {cids : List ℤ} {st st' : Placement},
    (st.info server).mIsRetiring = false → workLoop w server cids st = some st' → Fills c st st'
  | [], st, st', _, h => by
    obtain rfl := Option.some.inj h
    exact .refl c st
  | cid :: cids, st, st', hret, h => by
    rw [workLoop] at h
    split_ifs at h with hcand
    swap
    · exact workLoop_fills c hret h
    split at h
    · exact workLoop_fills c hret h
    rename_i v hv
    split_ifs at h with hrest
    · exact workLoop_fills c hret h
    split at h
    · exact workLoop_fills c hret h
    split_ifs at h with hrack
    · exact workLoop_fills c hret h
    split at h
    · cases h
    rename_i st₁ h₁
    have hf : Fills c st st₁ := by
      unfold replicateOn at h₁
      split_ifs at h₁ with hpos
      · obtain ⟨⟨k, st₂⟩, h₂, rfl⟩ := Option.map_eq_some_iff.mp h₁
        exact ReplicateChunkTo_fills hv (by simpa using hret) h₂ c
      · obtain rfl := Option.some.inj h₁
        exact .refl c st
    split_ifs at h with hbusy
    · obtain rfl := Option.some.inj h
      exact hf
    · exact hf.trans (workLoop_fills c ((hf.still.retiring server).trans hret) h)

theorem FindReplicationWorkForServer_fills {w : Work} (h : st.FindReplicationWorkForServer server w = some st')
    (c : ℤ) : Fills c st st' := by
  unfold FindReplicationWorkForServer at h
  split_ifs at h with hret
  · obtain rfl := Option.some.inj h
    exact .refl c st
  obtain ⟨st₁, h₁, h₂⟩ := Option.bind_eq_some_iff.mp h
  rw [Bool.not_eq_true] at hret
  have hf := workLoop_fills c hret h₁
  exact hf.trans (ExecuteRebalancePlanOn_fills ((hf.still.retiring server).trans hret) h₂ c)

end Placement

end Kfs
