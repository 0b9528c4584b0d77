import Kfs.Layout.LeaseIds
import Kfs.Layout.Moves

/-!
# The steps of placement

What each step of `Placement.step` can do to the map, the racks and the replications under way.

* `Quiet`: a step that starts and ends no replication and creates no entry;
* `Creates`, `Joins`, `Over`: a new entry, a HELLO, and the bookkeeping at the end of a replication;
* **`step_cases`**: a step is one of these, or makes moves.
-/

namespace Kfs

namespace LayoutManager

variable {lm lm' : LayoutManager} {c chunkId i : ℤ} {v v' : ChunkPlacementInfo}

/-- The entries of `lm'` are entries of `lm` with the same replications and no more servers. -/
structure Fewer (lm lm' : LayoutManager) : Prop where
  servers : lm'.mChunkServers = lm.mChunkServers
  entries : ∀ c v', lm'.mChunkToServerMap c = some v' → ∃ v, lm.mChunkToServerMap c = some v ∧
    v'.ongoingReplications = v.ongoingReplications ∧ v'.chunkServers.Subperm v.chunkServers

theorem Fewer.refl (lm : LayoutManager) : Fewer lm lm :=
  ⟨rfl, fun _ v hv => ⟨v, hv, rfl, List.Subperm.refl _⟩⟩

/-- The entry of one chunk is written. -/
theorem Fewer.set (hv : lm.mChunkToServerMap chunkId = some v) (ho : v'.ongoingReplications = v.ongoingReplications)
    (hs : v'.chunkServers.Subperm v.chunkServers) : Fewer lm ({ lm with mLeaseId := i }.set chunkId v') := by
  refine ⟨rfl, fun c w hw => ?_⟩
  by_cases hc : c = chunkId
  · subst hc
    obtain rfl : v' = w := by simpa using hw
    exact ⟨v, hv, ho, hs⟩
  · rw [set_of_ne _ hc] at hw
    exact ⟨w, hw, rfl, List.Subperm.refl _⟩

theorem Fewer.erase (lm : LayoutManager) (chunkId : ℤ) : Fewer lm (lm.erase chunkId) := by
  refine ⟨rfl, fun c w hw => ?_⟩
  by_cases hc : c = chunkId
  · subst hc
    simp at hw
  · rw [erase_of_ne hc] at hw
    exact ⟨w, hw, rfl, List.Subperm.refl _⟩

theorem GetChunkWriteLease_fewer (lm : LayoutManager) (chunkId : ℤ) (hasSpace : ServerId → Bool) (t : ℕ → ℤ) :
    Fewer lm (lm.GetChunkWriteLease chunkId hasSpace t).2 := by
  rcases GetChunkWriteLease_spec lm chunkId hasSpace t with
    ⟨r, -, -, he⟩ | ⟨v, m, rest, hv, -, -, -, -, ⟨-, he⟩ | ⟨k, he⟩⟩
  · rw [he]
    exact Fewer.refl lm
  · rw [he]
    exact Fewer.refl lm
  · rw [he]
    exact Fewer.set hv rfl (List.Subperm.refl _)

theorem GetChunkReadLease_fewer (lm : LayoutManager) (chunkId : ℤ) (t : ℕ → ℤ) :
    Fewer lm (lm.GetChunkReadLease chunkId t).2.2 := by
  rcases GetChunkReadLease_spec lm chunkId t with ⟨r, -, he⟩ | ⟨v, hv, he⟩
  · rw [he]
    exact Fewer.refl lm
  · rw [he]
    exact Fewer.set hv rfl (List.Subperm.refl _)

theorem LeaseCleanup_fewer (lm : LayoutManager) (t : ℕ → ℤ) : Fewer lm (lm.LeaseCleanup t) := by
  refine ⟨rfl, fun c w hw => ?_⟩
  obtain ⟨v, hv, rfl⟩ := Option.map_eq_some_iff.mp hw
  exact ⟨v, hv, rfl, List.Subperm.refl _⟩

theorem DeleteChunk_fewer (lm : LayoutManager) (chunkId : ℤ) : Fewer lm (lm.DeleteChunk chunkId).2 := by
  unfold DeleteChunk
  split
  · exact Fewer.refl lm
  · split_ifs
    · exact Fewer.refl lm
    · exact Fewer.erase lm chunkId

theorem ChunkCorrupt_fewer (lm : LayoutManager) (server : ServerId) (fid chunkId : ℤ) :
    Fewer lm (lm.ChunkCorrupt server fid chunkId) := by
  unfold ChunkCorrupt
  split
  · exact Fewer.refl lm
  · rename_i v hv
    split_ifs
    · exact Fewer.refl lm
    · exact Fewer.set hv rfl List.filter_sublist.subperm

end LayoutManager

/-- The steps that start or end no replication, create no entry and add no server to one. -/
def PlaceEv.isQuiet : PlaceEv → Bool
  | .hello _ _ _ _ _ | .allocate _ _ _ _ _ | .renew _ _ _ _ | .check _ | .done _ _ _ _ _ => false
  | _ => true

namespace Placement

open LayoutManager (Fewer)

variable {st st' : Placement} {e : PlaceEv} {c chunkId : ℤ} {v : ChunkPlacementInfo} {s : ServerId}

/-! ## Quiet steps -/

/-- No replication is started or ended, and no entry is created or gets a server. -/
structure Quiet (st st' : Placement) : Prop where
  entries : ∀ c v', st'.entry c = some v' → ∃ v, st.entry c = some v ∧
    v'.ongoingReplications = v.ongoingReplications ∧ v'.chunkServers.Subperm v.chunkServers
  ops : st'.ops = st.ops
  epoch : st'.epoch = st.epoch
  writes : st'.writeReplications = st.writeReplications
  hello : st'.mHelloDone = st.mHelloDone
  rostered : Rostered st → Rostered st'

theorem Quiet.refl (st : Placement) : Quiet st st :=
  ⟨fun _ v hv => ⟨v, hv, rfl, List.Subperm.refl _⟩, rfl, rfl, rfl, rfl, fun h => h⟩

/-- The map is replaced, the rest of the layout stays. -/
theorem Quiet.layout {lm : LayoutManager} (h : Fewer st.cl.lm lm) : Quiet st (st.setLayout lm) :=
  ⟨h.entries, rfl, rfl, rfl, rfl, fun hr => hr.same ⟨h.servers, rfl, rfl, List.Perm.refl _⟩⟩

/-- A step that keeps the map and the servers. -/
theorem Quiet.of_same (hs : Same st st') (hm : st'.entry = st.entry) (ho : st'.ops = st.ops)
    (hw : st'.writeReplications = st.writeReplications) : Quiet st st' := by
  refine ⟨fun c v hv => ⟨v, ?_, rfl, List.Subperm.refl _⟩, ho, hs.epoch, hw, hs.hello, fun hr => hr.same hs⟩
  rwa [hm] at hv

theorem Quiet.trans {st₁ : Placement} (h₁ : Quiet st st₁) (h₂ : Quiet st₁ st') : Quiet st st' := by
  refine ⟨fun c v' hv' => ?_, h₂.ops.trans h₁.ops, h₂.epoch.trans h₁.epoch, h₂.writes.trans h₁.writes,
    h₂.hello.trans h₁.hello, fun hr => h₂.rostered (h₁.rostered hr)⟩
  obtain ⟨v₁, hv₁, ho₁, hs₁⟩ := h₂.entries c v' hv'
  obtain ⟨v, hv, ho, hs⟩ := h₁.entries c v₁ hv₁
  exact ⟨v, hv, ho₁.trans ho, hs₁.trans hs⟩

theorem setInfo_quiet {i : ServerInfo} (h : i.mNumChunkWriteReplications = st.writeReplications s) :
    Quiet st (st.setInfo s i) :=
  .of_same ⟨rfl, rfl, rfl, List.Perm.refl _⟩ rfl rfl (writeReplications_setInfo h)

theorem ChangeChunkReplication_quiet (st : Placement) (chunkId : ℤ) : Quiet st (st.ChangeChunkReplication chunkId) :=
  .of_same ⟨rfl, rfl, rfl, List.Perm.refl _⟩ rfl rfl rfl

theorem map_rackIds (racks : List RackInfo) (p : RackInfo → Prop) [DecidablePred p] (f : RackInfo → List ServerId) :
    (racks.map fun k => if p k then { k with mServers := f k } else k).map RackInfo.mRackId =
      racks.map RackInfo.mRackId := by
  rw [List.map_map]
  refine List.map_congr_left fun k _ => ?_
  simp only [Function.comp_apply]
  split_ifs <;> rfl

theorem ServerDown_quiet (st : Placement) (s : ServerId) : Quiet st (st.ServerDown s) := by
  unfold ServerDown
  by_cases hm : s ∈ st.cl.lm.mChunkServers
  swap
  · rw [if_pos hm]
    exact Quiet.refl st
  rw [if_neg (not_not.mpr hm)]
  have hlm : (st.cl.ServerDown s).lm = st.cl.lm.ServerDown s := Cluster.ServerDown_lm st.cl s
  have hdown : (st.cl.lm.ServerDown s).mChunkServers = st.cl.lm.mChunkServers.erase s := by
    rw [LayoutManager.ServerDown, if_pos hm]
  refine ⟨fun c v' hv' => ?_, rfl, rfl, rfl, rfl, fun hr => ?_⟩
  · change (st.cl.ServerDown s).lm.mChunkToServerMap c = some v' at hv'
    rw [hlm, LayoutManager.ServerDown, if_pos hm] at hv'
    obtain ⟨v, hv, rfl⟩ := Option.map_eq_some_iff.mp hv'
    exact ⟨v, hv, rfl, List.filter_sublist.subperm⟩
  · have hsub : ∀ r ∈ st.mRacks.map (fun k => if k.mRackId = (st.info s).mRackId then
        { k with mServers := k.mServers.erase s } else k), ∃ k ∈ st.mRacks, r.mServers.Sublist k.mServers := by
      intro r hrm
      obtain ⟨k, hk, rfl⟩ := List.mem_map.mp hrm
      refine ⟨k, hk, ?_⟩
      split_ifs
      · exact List.erase_sublist
      · exact List.Sublist.refl _
    refine ⟨?_, ?_, ?_, ?_, ?_⟩
    · change (st.cl.ServerDown s).lm.mChunkServers.Nodup
      rw [hlm, hdown]
      exact hr.servers.erase s
    · have hids := map_rackIds st.mRacks (fun k => k.mRackId = (st.info s).mRackId) fun k => k.mServers.erase s
      exact hids ▸ hr.racks
    · intro r hrm
      obtain ⟨k, hk, hle⟩ := hsub r hrm
      exact (hr.onRack k hk).sublist hle
    · intro x hx
      change x ∈ (st.cl.ServerDown s).lm.mChunkServers at hx
      rw [hlm, hdown] at hx
      exact hr.hello x (List.mem_of_mem_erase hx)
    · intro r hrm x hx
      obtain ⟨k, hk, hle⟩ := hsub r hrm
      exact hr.helloRack k hk x (hle.subset hx)

theorem RetireServer_quiet (st : Placement) (loc : ServerLocation) (downtime now : ℤ) :
    Quiet st (st.RetireServer loc downtime now) := by
  unfold RetireServer
  split
  · exact Quiet.refl st
  · rename_i s _
    have hq : Quiet st (st.setInfo s { st.info s with mIsRetiring := true }) := setInfo_quiet rfl
    dsimp only
    split_ifs
    · have hlm := (Cluster.RetireServer_frame st.cl loc downtime now).1
      refine hq.trans (.of_same ⟨?_, rfl, rfl, List.Perm.refl _⟩ ?_ rfl rfl)
      · exact congrArg LayoutManager.mChunkServers hlm
      · exact congrArg LayoutManager.mChunkToServerMap hlm
    · exact hq.trans (.of_same ⟨rfl, rfl, rfl, List.Perm.refl _⟩ rfl rfl rfl)

theorem addToMove_quiet (st : Placement) (p : ServerLocation × ℤ) : Quiet st (st.addToMove p) := by
  unfold addToMove
  split
  · exact Quiet.refl st
  · dsimp only
    split_ifs
    · exact Quiet.refl st
    · apply setInfo_quiet
      rfl

theorem LoadRebalancePlan_quiet (moves : List (ServerLocation × ℤ)) (st : Placement) :
    Quiet st (st.LoadRebalancePlan moves) := by
  have hfold : ∀ (moves : List (ServerLocation × ℤ)) (st : Placement), Quiet st (moves.foldl addToMove st) := by
    intro moves
    induction moves with
    | nil => exact fun st => Quiet.refl st
    | cons p moves ih => exact fun st => (addToMove_quiet st p).trans (ih _)
  exact (hfold moves st).trans (.of_same ⟨rfl, rfl, rfl, List.Perm.refl _⟩ rfl rfl rfl)

theorem ChunkCorrupt_quiet (st : Placement) (server : ServerId) (fid chunkId : ℤ) :
    Quiet st (st.ChunkCorrupt server fid chunkId) := by
  unfold ChunkCorrupt
  split
  · exact Quiet.refl st
  · split_ifs
    · exact Quiet.refl st
    · have hq := Quiet.layout (LayoutManager.ChunkCorrupt_fewer st.cl.lm server fid chunkId)
      refine (hq.trans (ChangeChunkReplication_quiet _ chunkId)).trans ?_
      dsimp only
      apply setInfo_quiet
      rfl

theorem step_quiet (he : e.isQuiet = true) (h : st.step e = some st') : Quiet st st' := by
  cases e with
  | load s totalSpace usedSpace numChunkWrites heartbeatSkipped =>
    obtain rfl := Option.some.inj h
    apply setInfo_quiet
    rfl
  | netError s =>
    obtain rfl := Option.some.inj h
    have hq : Quiet st (st.setInfo s { st.info s with mTotalSpace := 0, mUsedSpace := 0 }) := setInfo_quiet rfl
    exact hq.trans (.of_same ⟨rfl, rfl, rfl, List.Perm.refl _⟩ rfl rfl rfl)
  | bye s =>
    obtain rfl := Option.some.inj h
    exact ServerDown_quiet st s
  | retire loc downtime now =>
    obtain rfl := Option.some.inj h
    exact RetireServer_quiet st loc downtime now
  | plan moves =>
    obtain rfl := Option.some.inj h
    exact LoadRebalancePlan_quiet moves st
  | rebalancing on =>
    obtain rfl := Option.some.inj h
    exact .of_same ⟨rfl, rfl, rfl, List.Perm.refl _⟩ rfl rfl rfl
  | tree leaves =>
    obtain rfl := Option.some.inj h
    exact .of_same ⟨rfl, rfl, rfl, List.Perm.refl _⟩ rfl rfl rfl
  | change chunkId =>
    obtain rfl := Option.some.inj h
    exact ChangeChunkReplication_quiet st chunkId
  | writeLease chunkId hasSpace t =>
    obtain rfl := Option.some.inj h
    exact Quiet.layout (LayoutManager.GetChunkWriteLease_fewer _ _ hasSpace t)
  | readLease chunkId t =>
    obtain rfl := Option.some.inj h
    exact Quiet.layout (LayoutManager.GetChunkReadLease_fewer _ _ t)
  | leaseCleanup t =>
    obtain rfl := Option.some.inj h
    exact Quiet.layout (LayoutManager.LeaseCleanup_fewer _ t)
  | delete chunkId =>
    obtain rfl := Option.some.inj h
    exact Quiet.layout (LayoutManager.DeleteChunk_fewer _ chunkId)
  | remove chunkId =>
    obtain rfl := Option.some.inj h
    exact Quiet.layout (LayoutManager.Fewer.erase _ chunkId)
  | corrupt server fid chunkId =>
    obtain rfl := Option.some.inj h
    exact ChunkCorrupt_quiet st server fid chunkId
  | hello | allocate | renew | check | done => cases he

/-! ## New entries -/

/-- A step that writes a new entry without replications. -/
structure Creates (c : ℤ) (v : ChunkPlacementInfo) (st st' : Placement) : Prop where
  map : st'.entry = Function.update st.entry c (some v)
  idle : v.ongoingReplications = 0
  ops : st'.ops = st.ops
  epoch : st'.epoch = Function.update st.epoch c (st.epoch c + 1)
  writes : st'.writeReplications = st.writeReplications
  hello : st'.mHelloDone = st.mHelloDone
  rostered : Rostered st → Rostered st'

/-- `AllocateChunk` fails, or creates an entry with the servers that were picked. -/
theorem AllocateChunk_cases (st : Placement) (chunkId fid : ℤ) (n : ℕ) (clientHost : Str) (w : Visit)
    (hr : Rostered st) :
    Quiet st (st.AllocateChunk chunkId fid n clientHost w).2.2 ∨
      ∃ v, v.chunkServers = (st.allocateServers n clientHost w).1 ∧ 0 < n ∧
        Creates chunkId v st (st.AllocateChunk chunkId fid n clientHost w).2.2 := by
  unfold AllocateChunk
  split_ifs with hn
  · exact Or.inl (Quiet.refl st)
  have hpos : 0 < n := Nat.pos_of_ne_zero hn
  have hre := (hr.allocateServers_spec clientHost w hpos).1
  generalize st.allocateServers n clientHost w = p at hre ⊢
  obtain ⟨servers, st₁⟩ := p
  obtain ⟨racks, hp, rfl⟩ := hre
  dsimp only
  rcases AllocateChunk_spec st.cl.lm chunkId fid n servers w.clock with ⟨status, hneg, he⟩ | ⟨m, rest, hs, he⟩
  · rw [he]
    dsimp only
    rw [if_pos hneg.ne]
    exact Or.inl (.of_same ⟨rfl, rfl, rfl, hp⟩ rfl rfl rfl)
  · rw [he]
    dsimp only
    rw [if_neg (not_not.mpr rfl)]
    refine Or.inr ⟨⟨fid, 0, servers, [⟨.write, st.cl.lm.mLeaseId, some m, w.clock 0 + LEASE_INTERVAL_SECS⟩]⟩, rfl,
      hpos, ?_⟩
    split_ifs
    all_goals exact ⟨rfl, rfl, rfl, rfl, rfl, rfl, fun hr => ⟨hr.servers, (hp.map _).nodup_iff.mpr hr.racks,
      fun r hm => hr.onRack r (hp.mem_iff.mp hm), hr.hello, fun r hm => hr.helloRack r (hp.mem_iff.mp hm)⟩⟩

/-- `LeaseRenew` creates an entry during recovery. -/
theorem LeaseRenew_cases (st : Placement) (chunkId : ℤ) (leaseType : LeaseType) (leaseId : ℤ) (t : ℕ → ℤ) :
    Quiet st (st.LeaseRenew chunkId leaseType leaseId t) ∨
      ∃ v, v.chunkServers = [] ∧ st.entry chunkId = none ∧
        Creates chunkId v st (st.LeaseRenew chunkId leaseType leaseId t) := by
  unfold LeaseRenew
  rcases LeaseRenew_spec st.cl.lm chunkId leaseType leaseId t with ⟨hv, -, he⟩
    | ⟨-, ⟨status, -, he⟩ | ⟨v, l, hv, -, -, he⟩⟩
  · rw [he]
    have hnew : (st.entry chunkId).isNone = true := by
      rw [show st.entry chunkId = none from hv]
      rfl
    refine Or.inr ⟨{ ChunkPlacementInfo.new with
      chunkLeases := [⟨leaseType, leaseId, none, t 1 + LEASE_INTERVAL_SECS⟩] }, rfl, hv, ?_⟩
    dsimp only
    rw [if_pos ⟨hnew, by simp [setLayout, entry, LayoutManager.set]⟩]
    exact ⟨rfl, rfl, rfl, rfl, rfl, rfl, fun hr => ⟨hr.servers, hr.racks, hr.onRack, hr.hello, hr.helloRack⟩⟩
  · rw [he]
    dsimp only
    have hq : ¬ ((st.entry chunkId).isNone = true ∧ ((st.setLayout st.cl.lm).entry chunkId).isSome = true) := by
      rintro ⟨h₁, h₂⟩
      change (st.entry chunkId).isSome = true at h₂
      simp_all
    rw [if_neg hq]
    exact Or.inl (Quiet.layout (LayoutManager.Fewer.refl _))
  · rw [he]
    dsimp only
    have hq : ¬ ((st.entry chunkId).isNone = true) := by
      rw [show st.entry chunkId = some v from hv]
      simp
    rw [if_neg fun h => hq h.1]
    exact Or.inl (Quiet.layout (LayoutManager.Fewer.set hv rfl (List.Subperm.refl _)))

/-! ## HELLO -/

/-- The copies that a server reports are appended to the entries. -/
theorem addChunks_appends {server : ServerId} : ∀ {cs : List ChunkInfo} {cl cl' : Cluster},
    cs.foldlM (Cluster.addChunk server) cl = some cl' → cl'.lm.mChunkServers = cl.lm.mChunkServers ∧
      ∀ c v', cl'.lm.mChunkToServerMap c = some v' → ∃ v k, cl.lm.mChunkToServerMap c = some v ∧
        v'.ongoingReplications = v.ongoingReplications ∧ k ≤ (cs.map ChunkInfo.chunkId).count c ∧
        v'.chunkServers = v.chunkServers ++ List.replicate k server
  | [], cl, cl', h => by
    obtain rfl : cl = cl' := by simpa using h
    exact ⟨rfl, fun c v hv => ⟨v, 0, hv, rfl, Nat.zero_le _, by simp⟩⟩
  | x :: cs, cl, cl', h => by
    rw [List.foldlM_cons] at h
    obtain ⟨cl₁, h₁, h₂⟩ := Option.bind_eq_some_iff.mp h
    obtain ⟨hs₂, he₂⟩ := addChunks_appends h₂
    have hone : cl₁.lm.mChunkServers = cl.lm.mChunkServers ∧
        ∀ c v', cl₁.lm.mChunkToServerMap c = some v' → ∃ v k, cl.lm.mChunkToServerMap c = some v ∧
          v'.ongoingReplications = v.ongoingReplications ∧ k ≤ (if x.chunkId = c then 1 else 0) ∧
          v'.chunkServers = v.chunkServers ++ List.replicate k server := by
      unfold Cluster.addChunk at h₁
      split_ifs at h₁ with hstale
      swap
      · obtain rfl := Option.some.inj h₁
        exact ⟨rfl, fun c v hv => ⟨v, 0, hv, rfl, Nat.zero_le _, by simp⟩⟩
      split at h₁
      swap
      · cases h₁
      rename_i lm fa hu hf
      obtain rfl := Option.some.inj h₁
      obtain ⟨w, hw, rfl⟩ := Option.map_eq_some_iff.mp hu
      refine ⟨rfl, fun c v' hv' => ?_⟩
      by_cases hc : c = x.chunkId
      · subst hc
        obtain rfl := Option.some.inj ((LayoutManager.set_self _).symm.trans hv')
        exact ⟨w, 1, hw, rfl, by simp, rfl⟩
      · exact ⟨v', 0, (LayoutManager.set_of_ne _ hc).symm.trans hv', rfl, Nat.zero_le _, by simp⟩
    refine ⟨hs₂.trans hone.1, fun c v' hv' => ?_⟩
    obtain ⟨v₁, k₂, hv₁, ho₂, hk₂, heq₂⟩ := he₂ c v' hv'
    obtain ⟨v, k₁, hv, ho₁, hk₁, heq₁⟩ := hone.2 c v₁ hv₁
    refine ⟨v, k₁ + k₂, hv, ho₂.trans ho₁, ?_, ?_⟩
    · rw [List.map_cons, List.count_cons]
      simp only [beq_iff_eq]
      omega
    · rw [heq₂, heq₁, List.append_assoc, ← List.replicate_add]

/-- What a HELLO does. -/
structure Joins (r : Hello) (st st' : Placement) : Prop where
  entries : ∀ c v', st'.entry c = some v' → ∃ v k, st.entry c = some v ∧
    v'.ongoingReplications = v.ongoingReplications ∧ k ≤ (r.chunks.map ChunkInfo.chunkId).count c ∧
    v'.chunkServers = v.chunkServers ++ List.replicate k r.server
  ops : st'.ops = st.ops
  epoch : st'.epoch = st.epoch
  writes : st'.writeReplications = st.writeReplications
  hello : st'.mHelloDone = Function.update st.mHelloDone r.server true
  rostered : Rostered st'

/-- The racks with the new server. -/
theorem Rostered.join {r : Hello} (hr : Rostered st) (hnew : st.mHelloDone r.server = false)
    (hello : st'.mHelloDone = Function.update st.mHelloDone r.server true)
    (hcl : st'.cl.lm.mChunkServers = st.cl.lm.mChunkServers ++ [r.server] ∨
      st'.cl.lm.mChunkServers = st.cl.lm.mChunkServers)
    (hids : (st'.mRacks.map RackInfo.mRackId).Nodup)
    (hracks : ∀ k ∈ st'.mRacks, k.mServers = [r.server] ∨
      ∃ k' ∈ st.mRacks, k.mServers = k'.mServers ∨ k.mServers = k'.mServers ++ [r.server]) : Rostered st' := by
  have hself : st'.mHelloDone r.server = true := by
    rw [hello]
    exact Function.update_self _ _ _
  have hold : ∀ s, st.mHelloDone s = true → st'.mHelloDone s = true := by
    intro s hs
    by_cases heq : s = r.server
    · rwa [heq]
    · rwa [hello, Function.update_of_ne heq]
  have hfresh : ∀ l : List ServerId, (∀ s ∈ l, st.mHelloDone s = true) → r.server ∉ l := by
    intro l hl hm
    exact Bool.false_ne_true (hnew.symm.trans (hl _ hm))
  have happ : ∀ l : List ServerId, l.Nodup → (∀ s ∈ l, st.mHelloDone s = true) → (l ++ [r.server]).Nodup := by
    intro l hn hl
    exact List.Nodup.append hn (List.nodup_singleton _) (List.disjoint_singleton.mpr (hfresh l hl))
  have hall : ∀ l : List ServerId, (∀ s ∈ l, st.mHelloDone s = true) → ∀ s ∈ l ++ [r.server],
      st'.mHelloDone s = true := by
    intro l hl s hs
    rcases List.mem_append.mp hs with hs | hs
    · exact hold s (hl s hs)
    · rw [List.mem_singleton.mp hs]
      exact hself
  refine ⟨?_, hids, ?_, ?_, ?_⟩
  · rcases hcl with heq | heq
    · rw [heq]
      exact happ _ hr.servers hr.hello
    · rw [heq]
      exact hr.servers
  · intro k hk
    rcases hracks k hk with heq | ⟨k', hk', heq | heq⟩
    · rw [heq]
      exact List.nodup_singleton _
    · rw [heq]
      exact hr.onRack k' hk'
    · rw [heq]
      exact happ _ (hr.onRack k' hk') (hr.helloRack k' hk')
  · rcases hcl with heq | heq
    · rw [heq]
      exact hall _ hr.hello
    · rw [heq]
      exact fun s hs => hold s (hr.hello s hs)
  · intro k hk
    rcases hracks k hk with heq | ⟨k', hk', heq | heq⟩
    · rw [heq]
      intro s hs
      rw [List.mem_singleton.mp hs]
      exact hself
    · rw [heq]
      exact fun s hs => hold s (hr.helloRack k' hk' s hs)
    · rw [heq]
      exact hall _ (hr.helloRack k' hk')

theorem AddNewServer_joins {r : Hello} {rackId : ℤ} {totalSpace usedSpace : ℕ} {now : ℤ} (hr : Rostered st)
    (hnew : st.mHelloDone r.server = false)
    (h : st.AddNewServer r rackId totalSpace usedSpace now = some st') : Joins r st st' := by
  unfold AddNewServer at h
  dsimp only at h
  obtain ⟨cl, hcl, h⟩ := Option.bind_eq_some_iff.mp h
  have hkeep : ∀ c v', st.entry c = some v' → ∃ v k, st.entry c = some v ∧
      v'.ongoingReplications = v.ongoingReplications ∧ k ≤ (r.chunks.map ChunkInfo.chunkId).count c ∧
      v'.chunkServers = v.chunkServers ++ List.replicate k r.server :=
    fun c v hv => ⟨v, 0, hv, rfl, Nat.zero_le _, by simp⟩
  rcases Cluster.AddNewServer_cases hcl with ⟨hd, rfl⟩ | ⟨hd, cl₀, rfl, hcase⟩
  · -- the connection is down, and only the HELLO is noted
    rw [if_pos hd] at h
    obtain rfl := Option.some.inj h
    refine ⟨hkeep, rfl, rfl, rfl, rfl, ?_⟩
    exact hr.join hnew rfl (Or.inr rfl) hr.racks fun k hk => Or.inr ⟨k, hk, Or.inl rfl⟩
  rw [if_neg (by simp [hd])] at h
  have hwr : ∀ i : ServerInfo, i.mNumChunkWriteReplications = st.writeReplications r.server →
      (st.setInfo r.server i).writeReplications = st.writeReplications := fun i hi => writeReplications_setInfo hi
  rcases hcase with ⟨-, rfl⟩ | ⟨-, cl₁, hfold, -, -, heq⟩
  · -- the location is taken, and the object stays out of the lists
    have hout : r.server ∉ st.cl.lm.mChunkServers := fun hm => Bool.false_ne_true (hnew.symm.trans (hr.hello _ hm))
    rw [if_neg hout] at h
    obtain rfl := Option.some.inj h
    refine ⟨hkeep, rfl, rfl, hwr _ rfl, rfl, ?_⟩
    exact hr.join hnew rfl (Or.inr rfl) hr.racks fun k hk => Or.inr ⟨k, hk, Or.inl rfl⟩
  · obtain ⟨hs, hent⟩ := addChunks_appends hfold
    have hlm : cl.lm = { cl₁.lm with mChunkServers := cl₁.lm.mChunkServers ++ [r.server] } := congrArg Cluster.lm heq
    have hlist : cl.lm.mChunkServers = st.cl.lm.mChunkServers ++ [r.server] := by
      rw [hlm]
      exact congrArg (· ++ [r.server]) hs
    have hent : ∀ c v', cl.lm.mChunkToServerMap c = some v' → ∃ v k, st.entry c = some v ∧
        v'.ongoingReplications = v.ongoingReplications ∧ k ≤ (r.chunks.map ChunkInfo.chunkId).count c ∧
        v'.chunkServers = v.chunkServers ++ List.replicate k r.server := by
      intro c v' hv'
      rw [hlm] at hv'
      exact hent c v' hv'
    have hin : r.server ∈ cl.lm.mChunkServers := by
      rw [hlist]
      exact List.mem_append_right _ (List.mem_singleton_self _)
    rw [if_pos hin] at h
    split_ifs at h with hany
    · obtain rfl := Option.some.inj h
      refine ⟨hent, rfl, rfl, hwr _ rfl, rfl, hr.join hnew rfl (Or.inl hlist) ?_ ?_⟩
      · have hids := map_rackIds st.mRacks (fun k => k.mRackId = rackId) fun k => k.mServers ++ [r.server]
        exact hids ▸ hr.racks
      · intro k hk
        obtain ⟨k', hk', rfl⟩ := List.mem_map.mp hk
        refine Or.inr ⟨k', hk', ?_⟩
        split_ifs
        · exact Or.inr rfl
        · exact Or.inl rfl
    · obtain rfl := Option.some.inj h
      refine ⟨hent, rfl, rfl, hwr _ rfl, rfl, hr.join hnew rfl (Or.inl hlist) ?_ ?_⟩
      · rw [List.map_append]
        refine List.Nodup.append hr.racks (List.nodup_singleton _) (List.disjoint_singleton.mpr fun hm => hany ?_)
        obtain ⟨k, hk, heq⟩ := List.mem_map.mp hm
        exact List.any_eq_true.mpr ⟨k, hk, decide_eq_true heq⟩
      · intro k hk
        rcases List.mem_append.mp hk with hk | hk
        · exact Or.inr ⟨k, hk, Or.inl rfl⟩
        · exact Or.inl (by rw [List.mem_singleton.mp hk])

/-! ## The end of a replication -/

/-- The bookkeeping at the end of a replication. -/
structure Over (req : ChunkReplicate) (st st' : Placement) : Prop where
  same : Same st st'
  ops : st'.ops = st.ops
  map : ∀ c, st'.entry c = if c = req.chunkId then (st.entry c).map finished else st.entry c
  writes : ∀ s, st'.writeReplications s = st.writeReplications s - if req.server = s then 1 else 0

theorem replicationOver_over {req : ChunkReplicate} (h : st.replicationOver req = some st') : Over req st st' := by
  unfold replicationOver at h
  dsimp only at h
  obtain ⟨st₂, h₂, h⟩ := Option.bind_eq_some_iff.mp h
  -- the entry, the server and the source are written one after the other
  have h₁ : ∀ st₁ : Placement, st₁.info = st.info → st₁.ReplicateChunkDone req.server req.chunkId = some st₂ →
      Same st₁ st₂ ∧ st₂.ops = st₁.ops ∧ st₂.entry = st₁.entry ∧
        ∀ s, st₂.writeReplications s = st.writeReplications s - if req.server = s then 1 else 0 := by
    intro st₁ hinfo hd
    unfold ReplicateChunkDone at hd
    dsimp only at hd
    split_ifs at hd with hneg
    obtain rfl := Option.some.inj hd
    refine ⟨⟨rfl, rfl, rfl, List.Perm.refl _⟩, rfl, rfl, fun s => ?_⟩
    by_cases hs : req.server = s
    · subst hs
      simp [writeReplications, setInfo, hinfo]
    · simp [writeReplications, setInfo, hinfo, hs, Ne.symm hs]
  have hover : Over req st st₂ := by
    cases hv : st.entry req.chunkId with
    | none =>
      rw [hv] at h₂
      obtain ⟨hs, ho, hm, hw⟩ := h₁ st rfl h₂
      refine ⟨hs, ho, fun c => ?_, hw⟩
      rw [hm]
      split_ifs with hc
      · rw [hc, hv]
        rfl
      · rfl
    | some v =>
      rw [hv] at h₂
      obtain ⟨hs, ho, hm, hw⟩ := h₁ (st.setEntry req.chunkId (finished v)) rfl h₂
      refine ⟨(show Same st (st.setEntry req.chunkId (finished v)) from ⟨rfl, rfl, rfl, List.Perm.refl _⟩).trans hs,
        ho, fun c => ?_, hw⟩
      rw [hm, setEntry_entry]
      split_ifs with hc
      · rw [hc, hv, Function.update_self]
        rfl
      · rw [Function.update_of_ne hc]
  split at h
  · obtain rfl := Option.some.inj h
    exact hover
  · rename_i source _
    obtain rfl := Option.some.inj h
    have hw : (st₂.UpdateReplicationReadLoad source (-1)).writeReplications = st₂.writeReplications :=
      writeReplications_setInfo rfl
    refine ⟨hover.same.trans ⟨rfl, rfl, rfl, List.Perm.refl _⟩, hover.ops, hover.map, fun s => ?_⟩
    rw [hw]
    exact hover.writes s

/-- After the bookkeeping of a replication its server may be added to the entry, and then moves are made. -/
theorem ChunkReplicationDone_cases {req : ChunkReplicate} {status fid chunkVersion : ℤ} {w : Work} (ok : Prop)
    (h : st.ChunkReplicationDone req status fid chunkVersion w = some st') (hs : st.mHelloDone req.server = true) :
    ∃ st₁, Over req st st₁ ∧ (st' = st₁ ∨ (st₁.entry req.chunkId = none ∧ Moves ok st₁ st') ∨
      ∃ v, st₁.entry req.chunkId = some v ∧ Moves ok
        (st₁.setEntry req.chunkId { v with chunkServers := v.chunkServers ++ [req.server] }) st') := by
  unfold ChunkReplicationDone at h
  obtain ⟨st₁, h₁, h⟩ := Option.bind_eq_some_iff.mp h
  have hover := replicationOver_over h₁
  refine ⟨st₁, hover, ?_⟩
  have hs₁ : st₁.mHelloDone req.server = true := by rwa [hover.same.hello]
  split_ifs at h with hst
  · exact Or.inl (Option.some.inj h).symm
  split at h
  · exact Or.inl (Option.some.inj h).symm
  split_ifs at h with hver
  · exact Or.inl (Option.some.inj h).symm
  -- what follows makes moves, whatever the map
  have hmoves : ∀ st₂ : Placement, st₂.mHelloDone req.server = true →
      (if (st₂.info req.server).mNumChunkWriteReplications ≤ 1 then
        st₂.FindReplicationWorkForServer req.server w else some st₂) = some st' → Moves ok st₂ st' := by
    intro st₂ hs₂ h₂
    split_ifs at h₂
    · exact FindReplicationWorkForServer_moves hs₂ h₂
    · obtain rfl := Option.some.inj h₂
      exact Moves.refl ok st₂
  dsimp only at h
  cases hv : st₁.entry req.chunkId with
  | none =>
    have hu : st₁.cl.lm.UpdateChunkToServerMapping req.chunkId req.server = none := by
      rw [LayoutManager.UpdateChunkToServerMapping, show st₁.cl.lm.mChunkToServerMap req.chunkId = none from hv]
      rfl
    rw [hu] at h
    exact Or.inr (Or.inl ⟨rfl, hmoves st₁ hs₁ h⟩)
  | some v =>
    have hu : st₁.cl.lm.UpdateChunkToServerMapping req.chunkId req.server = some (st₁.cl.lm.set req.chunkId
        { v with chunkServers := v.chunkServers ++ [req.server] }) := by
      rw [LayoutManager.UpdateChunkToServerMapping, show st₁.cl.lm.mChunkToServerMap req.chunkId = some v from hv]
      rfl
    rw [hu] at h
    exact Or.inr (Or.inr ⟨v, rfl, hmoves _ hs₁ h⟩)

/-! ## All steps -/

/-- A move that starts no replication is quiet. -/
theorem Move.quiet_or_start {ok : Prop} (h : Move ok st st') :
    Quiet st st' ∨ ∃ (c : ℤ) (v v' : ChunkPlacementInfo) (news : List ChunkReplicate), Same st st' ∧
      st.entry c = some v ∧ v.ongoingReplications ≤ 0 ∧ st'.entry = Function.update st.entry c (some v') ∧
      v'.ongoingReplications = v.ongoingReplications + news.length ∧ v'.chunkServers = v.chunkServers ∧
      st'.ops = st.ops ++ news ∧
      (∀ s, st'.writeReplications s = st.writeReplications s + news.countP fun o => decide (o.server = s)) ∧
      (∀ o ∈ news, o.chunkId = c ∧ o.epoch = st.epoch c ∧ o.server ∉ v.chunkServers ∧
        st.mHelloDone o.server = true) ∧
      (ok → (news.map ChunkReplicate.server).Nodup) := by
  cases h with
  | idle same map ops writes => exact Or.inl (.of_same same map ops writes)
  | @entry c v v' same found map ongoing servers ops writes =>
    refine Or.inl ⟨fun x w hw => ?_, ops, same.epoch, writes, same.hello, fun hr => hr.same same⟩
    rw [map] at hw
    by_cases heq : x = c
    · subst heq
      rw [Function.update_self] at hw
      obtain rfl := Option.some.inj hw
      exact ⟨v, found, ongoing, servers⟩
    · rw [Function.update_of_ne heq] at hw
      exact ⟨w, hw, rfl, List.Subperm.refl _⟩
  | start same found rest map ongoing servers ops writes new nodup =>
    exact Or.inr ⟨_, _, _, _, same, found, rest, map, ongoing, servers, ops, writes, new, nodup⟩

/-- What a step does that is not quiet. -/
theorem step_cases (hr : Rostered st) (h : st.step e = some st') :
    Quiet st st' ∨ (∃ r, st.mHelloDone r.server = false ∧ Joins r st st') ∨ (∃ c v, Creates c v st st') ∨
      Moves False st st' ∨
      ∃ i req status fid chunkVersion w, e = .done i status fid chunkVersion w ∧ st.ops[i]? = some req ∧
        { st with ops := st.ops.eraseIdx i }.ChunkReplicationDone req status fid chunkVersion w = some st' := by
  cases he : e.isQuiet with
  | true => exact Or.inl (step_quiet he h)
  | false =>
    cases e with
    | hello r rackId totalSpace usedSpace now =>
      rw [step] at h
      split_ifs at h with hd
      have hnew : st.mHelloDone r.server = false := by simpa using hd
      exact Or.inr (Or.inl ⟨r, hnew, AddNewServer_joins hr hnew h⟩)
    | allocate chunkId fid n clientHost w =>
      obtain rfl := Option.some.inj h
      rcases AllocateChunk_cases st chunkId fid n clientHost w hr with hq | ⟨v, -, -, hc⟩
      · exact Or.inl hq
      · exact Or.inr (Or.inr (Or.inl ⟨chunkId, v, hc⟩))
    | renew chunkId leaseType leaseId t =>
      obtain rfl := Option.some.inj h
      rcases LeaseRenew_cases st chunkId leaseType leaseId t with hq | ⟨v, -, -, hc⟩
      · exact Or.inl hq
      · exact Or.inr (Or.inr (Or.inl ⟨chunkId, v, hc⟩))
    | check r => exact Or.inr (Or.inr (Or.inr (Or.inl (ChunkReplicationChecker_moves hr False.elim h))))
    | done i status fid chunkVersion w =>
      rw [step] at h
      split at h
      · cases h
      · rename_i req hi
        exact Or.inr (Or.inr (Or.inr (Or.inr ⟨i, req, status, fid, chunkVersion, w, rfl, hi, h⟩)))
    | _ => cases he

end Placement

end Kfs
