import Mathlib.Logic.Relation
import Mathlib.Data.List.Count
import Kfs.Layout.Replicate

/-!
# What replication does to the map

The loops of the checker, of rebalancing and of the search for more work start replications and drop copies. Here
what they do is cut into moves, so that an invariant of the map is checked on three of them.

* `Same`: what no move changes;
* `Move`, `Moves`: nothing, a change of one entry, or the start of replications of an idle chunk;
* `ChunkReplicationChecker_moves`, `FindReplicationWorkForServer_moves`: the functions make moves.
-/

namespace Kfs

namespace Placement

/-- The replications that are under way to a server, as its object counts them. -/
def writeReplications (st : Placement) (s : ServerId) : ℤ := (st.info s).mNumChunkWriteReplications

/-- The servers, the epochs and, up to their order, the racks are the same. -/
structure Same (st st' : Placement) : Prop where
  servers : st'.cl.lm.mChunkServers = st.cl.lm.mChunkServers
  hello : st'.mHelloDone = st.mHelloDone
  epoch : st'.epoch = st.epoch
  racks : st'.mRacks.Perm st.mRacks

/-- The tree, the retiring servers and the candidates are kept. -/
structure Still (st st' : Placement) : Prop where
  leaves : st'.cl.leaves = st.cl.leaves
  retiring : ∀ s, (st'.info s).mIsRetiring = (st.info s).mIsRetiring
  candidates : ∀ c, st.cl.mChunkReplicationCandidates c = true → st'.cl.mChunkReplicationCandidates c = true

variable {st st' st₁ : Placement} {c chunkId : ℤ} {v : ChunkPlacementInfo} {ok : Prop} {s server : ServerId}
  {hosts cs : List ServerId}

theorem Same.refl (st : Placement) : Same st st := ⟨rfl, rfl, rfl, List.Perm.refl _⟩

theorem Same.trans (h₁ : Same st st₁) (h₂ : Same st₁ st') : Same st st' :=
  ⟨h₂.servers.trans h₁.servers, h₂.hello.trans h₁.hello, h₂.epoch.trans h₁.epoch, h₂.racks.trans h₁.racks⟩

theorem Still.refl (st : Placement) : Still st st := ⟨rfl, fun _ => rfl, fun _ h => h⟩

theorem Still.trans (h₁ : Still st st₁) (h₂ : Still st₁ st') : Still st st' :=
  ⟨h₂.leaves.trans h₁.leaves, fun s => (h₂.retiring s).trans (h₁.retiring s),
    fun c hc => h₂.candidates c (h₁.candidates c hc)⟩

theorem Rostered.same (h : Rostered st) (hs : Same st st') : Rostered st' := by
  refine ⟨?_, ?_, ?_, ?_, ?_⟩
  · rw [hs.servers]
    exact h.servers
  · exact (hs.racks.map _).nodup_iff.mpr h.racks
  · exact fun r hr => h.onRack r (hs.racks.mem_iff.mp hr)
  · rw [hs.servers, hs.hello]
    exact h.hello
  · rw [hs.hello]
    exact fun r hr => h.helloRack r (hs.racks.mem_iff.mp hr)

/-- There is at most one rack, or no rack has a negative id. -/
def RacksApart (st : Placement) : Prop := st.mRacks.length ≤ 1 ∨ ∀ r ∈ st.mRacks, 0 ≤ r.mRackId

instance (st : Placement) : Decidable st.RacksApart := inferInstanceAs (Decidable (_ ∨ _))

theorem RacksApart.same (h : st.RacksApart) (hs : Same st st') : st'.RacksApart := by
  rcases h with hl | hp
  · exact Or.inl (hs.racks.length_eq.trans_le hl)
  · exact Or.inr fun r hr => hp r (hs.racks.mem_iff.mp hr)

/-- At most one more copy of the chunk is asked for. -/
def LacksFew (st : Placement) (c : ℤ) (t : ℕ → ℤ) : Prop :=
  ∀ v ∈ st.entry c, ∀ extra ∈ st.CanReplicateChunkNow c v t, extra ≤ 1

instance (st : Placement) (c : ℤ) (t : ℕ → ℤ) : Decidable (st.LacksFew c t) :=
  inferInstanceAs (Decidable (∀ v ∈ st.entry c, ∀ extra ∈ st.CanReplicateChunkNow c v t, extra ≤ 1))

/-- The racks are apart, or the checker asks for one copy at most of each of the chunks. -/
def ChecksApart (st : Placement) (w : ℤ → Visit) (cids : List ℤ) : Prop :=
  st.RacksApart ∨ cids.Nodup ∧ ∀ c ∈ cids, st.LacksFew c (w c).clock

instance (st : Placement) (w : ℤ → Visit) (cids : List ℤ) : Decidable (st.ChecksApart w cids) :=
  inferInstanceAs (Decidable (_ ∨ _))

theorem LacksFew.still {t : ℕ → ℤ} (h : st.LacksFew c t) (hs : Still st st') (he : st'.entry c = st.entry c) :
    st'.LacksFew c t := by
  intro v hv extra hextra
  rw [he] at hv
  refine h v hv extra ?_
  unfold CanReplicateChunkNow at hextra ⊢
  simpa only [hs.leaves, hs.retiring] using hextra

/-! ## Moves -/

/-- A part of a step: nothing happens to the map, the entry of one chunk loses servers, or replications of a chunk
that has none are started, of servers that do not have it. If `ok` holds, no server is sent two of them. -/
inductive Move (ok : Prop) (st st' : Placement) : Prop
  | idle (same : Same st st') (map : st'.entry = st.entry) (ops : st'.ops = st.ops)
      (writes : st'.writeReplications = st.writeReplications)
  | entry {c : ℤ} {v v' : ChunkPlacementInfo} (same : Same st st') (found : st.entry c = some v)
      (map : st'.entry = Function.update st.entry c (some v'))
      (ongoing : v'.ongoingReplications = v.ongoingReplications)
      (servers : v'.chunkServers.Subperm v.chunkServers) (ops : st'.ops = st.ops)
      (writes : st'.writeReplications = st.writeReplications)
  | start {c : ℤ} {v v' : ChunkPlacementInfo} {news : List ChunkReplicate} (same : Same st st')
      (found : st.entry c = some v) (rest : v.ongoingReplications ≤ 0)
      (map : st'.entry = Function.update st.entry c (some v'))
      (ongoing : v'.ongoingReplications = v.ongoingReplications + news.length)
      (servers : v'.chunkServers = v.chunkServers) (ops : st'.ops = st.ops ++ news)
      (writes : ∀ s, st'.writeReplications s = st.writeReplications s + news.countP fun o => decide (o.server = s))
      (new : ∀ o ∈ news, o.chunkId = c ∧ o.epoch = st.epoch c ∧ o.server ∉ v.chunkServers ∧
        st.mHelloDone o.server = true)
      (nodup : ok → (news.map ChunkReplicate.server).Nodup)

def Moves (ok : Prop) : Placement → Placement → Prop := Relation.ReflTransGen (Move ok)

theorem Move.same (h : Move ok st st') : Same st st' := by
  cases h with
  | idle same => exact same
  | entry same => exact same
  | start same => exact same

theorem Moves.same (h : Moves ok st st') : Same st st' := by
  induction h with
  | refl => exact Same.refl st
  | tail _ hm ih => exact ih.trans hm.same

theorem Moves.refl (ok : Prop) (st : Placement) : Moves ok st st := Relation.ReflTransGen.refl

theorem Moves.trans (h₁ : Moves ok st st₁) (h₂ : Moves ok st₁ st') : Moves ok st st' :=
  Relation.ReflTransGen.trans h₁ h₂

theorem Move.moves (h : Move ok st st') : Moves ok st st' := Relation.ReflTransGen.single h

/-- **Invariants of the map**: what the moves keep along `Same` states. -/
theorem Moves.invariant {I : Placement → Prop} (hstep : ∀ {a b}, Move ok a b → I a → I b) (h : Moves ok st st')
    (h₀ : I st) : I st' := by
  induction h with
  | refl => exact h₀
  | tail _ hm ih => exact hstep hm ih

/-! ## The state -/

theorem setEntry_entry (st : Placement) (c : ℤ) (v : ChunkPlacementInfo) :
    (st.setEntry c v).entry = Function.update st.entry c (some v) := rfl

theorem writeReplications_setInfo {i : ServerInfo}
    (h : i.mNumChunkWriteReplications = st.writeReplications s) :
    (st.setInfo s i).writeReplications = st.writeReplications := by
  funext x
  by_cases hx : x = s
  · subst hx
    simpa [writeReplications, setInfo] using h
  · simp [writeReplications, setInfo, hx]

theorem Reordered.move (h : Reordered st st') : Move ok st st' := by
  obtain ⟨racks, hp, rfl⟩ := h
  exact .idle ⟨rfl, rfl, rfl, hp⟩ rfl rfl rfl

theorem setInfo_move {i : ServerInfo} (h : i.mNumChunkWriteReplications = st.writeReplications s) :
    Move ok st (st.setInfo s i) :=
  .idle ⟨rfl, rfl, rfl, List.Perm.refl _⟩ rfl rfl (writeReplications_setInfo h)

theorem setInfo_still {i : ServerInfo} (h : i.mIsRetiring = (st.info s).mIsRetiring) : Still st (st.setInfo s i) := by
  refine ⟨rfl, fun x => ?_, fun _ hc => hc⟩
  by_cases hx : x = s
  · subst hx
    simpa [setInfo] using h
  · simp [setInfo, hx]

theorem Reordered.still (h : Reordered st st') : Still st st' := by
  obtain ⟨racks, -, rfl⟩ := h
  exact ⟨rfl, fun _ => rfl, fun _ hc => hc⟩

theorem enqueue_still (d x : ServerId) (loc : ServerLocation) :
    Still st ((st.UpdateReplicationReadLoad d 1).enqueue x chunkId loc) := by
  have h₁ : Still st (st.UpdateReplicationReadLoad d 1) := setInfo_still rfl
  have h₂ : Still (st.UpdateReplicationReadLoad d 1) ((st.UpdateReplicationReadLoad d 1).enqueue x chunkId loc) := by
    have hs := @setInfo_still (st.UpdateReplicationReadLoad d 1) x { (st.UpdateReplicationReadLoad d 1).info x with
      mNumChunkWriteReplications := ((st.UpdateReplicationReadLoad d 1).info x).mNumChunkWriteReplications + 1 } rfl
    exact ⟨hs.leaves, hs.retiring, hs.candidates⟩
  exact h₁.trans h₂

/-! ## Starting replications -/

/-- The requests that `ReplicateChunk` enqueues. -/
structure Sent (chunkId : ℤ) (hosts cs : List ServerId) (news : List ChunkReplicate) (st st' : Placement) :
    Prop where
  lm : st'.cl.lm = st.cl.lm
  racks : st'.mRacks = st.mRacks
  hello : st'.mHelloDone = st.mHelloDone
  epoch : st'.epoch = st.epoch
  ops : st'.ops = st.ops ++ news
  writes : ∀ s, st'.writeReplications s = st.writeReplications s + news.countP fun o => decide (o.server = s)
  servers : (news.map ChunkReplicate.server).Sublist cs
  new : ∀ o ∈ news, o.chunkId = chunkId ∧ o.epoch = st.epoch chunkId ∧ o.server ∉ hosts

theorem enqueue_writes (st : Placement) (d x : ServerId) (chunkId : ℤ) (loc : ServerLocation) (s : ServerId) :
    ((st.UpdateReplicationReadLoad d 1).enqueue x chunkId loc).writeReplications s =
      st.writeReplications s + if x = s then 1 else 0 := by
  have hload : (st.UpdateReplicationReadLoad d 1).writeReplications = st.writeReplications :=
    writeReplications_setInfo rfl
  by_cases hx : x = s
  · subst hx
    rw [if_pos rfl, ← hload]
    simp [writeReplications, enqueue, setInfo]
  · rw [if_neg hx, add_zero, ← hload]
    simp [writeReplications, enqueue, setInfo, Ne.symm hx]

theorem ReplicateChunkTo_sent : ∀ {cs : List ServerId} {st st' : Placement} {n : ℕ},
    ReplicateChunkTo chunkId hosts cs st = some (n, st') → ∃ news, news.length = n ∧ Sent chunkId hosts cs news st st'
  | [], st, st', n, h => by
    obtain ⟨rfl, rfl⟩ := Prod.mk.inj (Option.some.inj h)
    exact ⟨[], rfl, rfl, rfl, rfl, rfl, by simp, by simp, List.Sublist.refl _, by simp⟩
  | x :: cs, st, st', n, h => by
    rw [ReplicateChunkTo] at h
    split_ifs at h with hbusy hhost
    · obtain ⟨news, hn, hs⟩ := ReplicateChunkTo_sent h
      exact ⟨news, hn, { hs with servers := hs.servers.cons x }⟩
    · split at h
      · obtain ⟨news, hn, hs⟩ := ReplicateChunkTo_sent h
        exact ⟨news, hn, { hs with servers := hs.servers.cons x }⟩
      · rename_i d _
        obtain ⟨⟨m, st₁⟩, h₁, h₂⟩ := Option.bind_eq_some_iff.mp h
        obtain ⟨rfl, rfl⟩ := Prod.mk.inj (Option.some.inj h₂)
        obtain ⟨news, rfl, hs⟩ := ReplicateChunkTo_sent h₁
        refine ⟨⟨x, chunkId, st.cl.location d, st.epoch chunkId⟩ :: news, rfl, hs.lm, hs.racks, hs.hello, hs.epoch, ?_,
          ?_, hs.servers.cons_cons x, ?_⟩
        · rw [hs.ops]
          simp [enqueue, UpdateReplicationReadLoad, setInfo]
        · intro s
          rw [hs.writes, enqueue_writes, List.countP_cons]
          by_cases hx : x = s
          · simp [hx]
            omega
          · simp [hx]
        · intro o ho
          rcases List.mem_cons.mp ho with rfl | ho
          · exact ⟨rfl, rfl, hhost⟩
          · exact hs.new o ho

theorem ReplicateChunkTo_still : ∀ {cs : List ServerId} {st st' : Placement} {n : ℕ},
    ReplicateChunkTo chunkId hosts cs st = some (n, st') → Still st st'
  | [], st, st', n, h => by
    obtain ⟨-, rfl⟩ := Prod.mk.inj (Option.some.inj h)
    exact .refl st
  | x :: cs, st, st', n, h => by
    rw [ReplicateChunkTo] at h
    split_ifs at h with hbusy hhost
    · exact ReplicateChunkTo_still h
    · split at h
      · exact ReplicateChunkTo_still h
      · rename_i d _
        obtain ⟨⟨m, st₁⟩, h₁, h₂⟩ := Option.bind_eq_some_iff.mp h
        obtain ⟨-, rfl⟩ := Prod.mk.inj (Option.some.inj h₂)
        exact (enqueue_still d x _).trans (ReplicateChunkTo_still h₁)

variable {news : List ChunkReplicate}

theorem Sent.same (h : Sent chunkId hosts cs news st st') : Same st st' :=
  ⟨by rw [h.lm], h.hello, h.epoch, by rw [h.racks]⟩

theorem Sent.entry (h : Sent chunkId hosts cs news st st') : st'.entry = st.entry := by
  unfold Placement.entry
  rw [h.lm]

/-- Without a request nothing happens to the map. -/
theorem Sent.idle (h : Sent chunkId hosts cs [] st st') : Move ok st st' :=
  .idle h.same h.entry (by simpa using h.ops) (by funext s; simpa using h.writes s)

/-- The requests are added to the entry that they were sent for. -/
theorem Sent.move (h : Sent chunkId v.chunkServers cs news st st') (hv : st.entry chunkId = some v)
    (hrest : ¬ v.ongoingReplications > 0) (hhello : ∀ s ∈ cs, st.mHelloDone s = true) (hnd : ok → cs.Nodup) :
    Move ok st (st'.addOngoing chunkId v news.length) := by
  have hmap : (st'.addOngoing chunkId v news.length).entry = Function.update st.entry chunkId
      (some { v with ongoingReplications := v.ongoingReplications + news.length }) := by
    rw [addOngoing, setEntry_entry, h.entry]
  refine .start ?_ hv (not_lt.mp hrest) hmap rfl rfl h.ops h.writes ?_ fun hok => (hnd hok).sublist h.servers
  · exact h.same.trans ⟨rfl, rfl, rfl, List.Perm.refl _⟩
  · intro o ho
    obtain ⟨h₁, h₂, h₃⟩ := h.new o ho
    exact ⟨h₁, h₂, h₃, hhello _ (h.servers.subset (List.mem_map_of_mem ho))⟩

/-- `ReplicateChunk` on a chunk that has no replication under way. -/
theorem ReplicateChunk_moves {n k : ℕ} {w : Visit} (hr : Rostered st) (hok : ok → st.Apart k) (hk : 0 < k)
    (hv : st.entry chunkId = some v) (hrest : ¬ v.ongoingReplications > 0)
    (h : st.ReplicateChunk chunkId v k w = some (n, st')) : Moves ok st (st'.addOngoing chunkId v n) := by
  obtain ⟨hre, -, hnd, hmem⟩ := hr.replicateServers_spec v.chunkServers w hk
  unfold ReplicateChunk at h
  generalize st.replicateServers v.chunkServers k w = p at h hre hnd hmem
  obtain ⟨candidates, st₁⟩ := p
  dsimp only at h hre hnd hmem
  obtain ⟨news, rfl, hs⟩ := ReplicateChunkTo_sent h
  have hsub : (candidates.take k).Sublist candidates := List.take_sublist k candidates
  have hmove : Move ok st st₁ := hre.move
  have hv₁ : st₁.entry chunkId = some v := by
    obtain ⟨racks, -, rfl⟩ := hre
    exact hv
  have hhello : ∀ s ∈ candidates.take k, st₁.mHelloDone s = true := by
    intro s hm
    rw [hmove.same.hello]
    exact (hmem s (hsub.subset hm)).1
  refine hmove.moves.trans (hs.move hv₁ hrest hhello fun ho => ?_).moves
  exact (hnd (hok ho)).sublist hsub

theorem ReplicateChunkToServers_moves {n : ℕ} (hv : st.entry chunkId = some v)
    (hrest : ¬ v.ongoingReplications > 0) (hhello : ∀ s ∈ cs, st.mHelloDone s = true) (hnd : cs.Nodup)
    (h : st.ReplicateChunkToServers chunkId v n cs = some st') : Moves ok st st' := by
  unfold ReplicateChunkToServers at h
  split_ifs at h with hany
  obtain ⟨⟨k, st₁⟩, h₁, h₂⟩ := Option.bind_eq_some_iff.mp h
  obtain ⟨news, rfl, hs⟩ := ReplicateChunkTo_sent h₁
  have hsub : (cs.take n).Sublist cs := List.take_sublist n cs
  dsimp only at h₂
  split_ifs at h₂ with hpos
  · obtain rfl := Option.some.inj h₂
    have hs' : Sent chunkId v.chunkServers (cs.take n) news st (st₁.ChangeChunkReplication chunkId) :=
      ⟨hs.lm, hs.racks, hs.hello, hs.epoch, hs.ops, hs.writes, hs.servers, hs.new⟩
    exact (hs'.move hv hrest (fun s hm => hhello s (hsub.subset hm)) fun _ => hnd.sublist hsub).moves
  · obtain rfl := Option.some.inj h₂
    obtain rfl : news = [] := List.eq_nil_of_length_eq_zero (by omega)
    exact hs.idle.moves

/-! ## Dropping copies -/

theorem onePerRack_sublist (st : Placement) : ∀ (ss : List ServerId) (racks : List ℤ),
    (st.onePerRack ss racks).Sublist ss
  | [], _ => List.Sublist.refl _
  | s :: ss, racks => by
    rw [onePerRack]
    by_cases hm : (st.info s).mRackId ∉ racks
    · rw [if_pos hm]
      exact (onePerRack_sublist st ss _).cons_cons s
    · rw [if_neg hm]
      exact (onePerRack_sublist st ss racks).cons s

theorem SortServersByUtilization_perm (st : Placement) (servers : List ServerId) (σ : Shuffle ServerId) :
    (st.SortServersByUtilization servers σ).Perm servers :=
  (List.mergeSort_perm _ _).trans (σ.perm servers)

theorem DeleteAddlChunkReplicas_moves {n : ℕ} {w : Visit} (hv : st.entry chunkId = some v) :
    Moves ok st (st.DeleteAddlChunkReplicas chunkId v n w) := by
  unfold DeleteAddlChunkReplicas
  split_ifs with hret
  · exact Moves.refl ok st
  dsimp only
  have hp := SortServersByUtilization_perm st v.chunkServers (w.servers 0)
  refine Move.moves (.entry ⟨rfl, rfl, rfl, List.Perm.refl _⟩ hv (setEntry_entry st chunkId _) rfl ?_ rfl rfl)
  dsimp only
  split_ifs
  · exact (onePerRack_sublist st _ []).subperm.trans hp.subperm
  · exact (List.take_sublist _ _).subperm.trans hp.subperm

theorem replicateOrDelete_moves {extra : ℤ} {w : Visit} (hr : Rostered st) (hok : ok → extra ≤ 1 ∨ st.RacksApart)
    (hv : st.entry chunkId = some v) (hrest : ¬ v.ongoingReplications > 0)
    (h : st.replicateOrDelete chunkId v extra w = some st') : Moves ok st st' := by
  unfold replicateOrDelete at h
  split_ifs at h with hpos hzero
  · obtain ⟨⟨k, st₁⟩, h₁, rfl⟩ := Option.map_eq_some_iff.mp h
    refine ReplicateChunk_moves hr (fun ho => (hok ho).imp_left fun hle => ?_) (by omega) hv hrest h₁
    omega
  · obtain rfl := Option.some.inj h
    exact Moves.refl ok st
  · obtain rfl := Option.some.inj h
    exact DeleteAddlChunkReplicas_moves hv

/-- The other chunks are left as they are. -/
theorem replicateOrDelete_other_same {extra : ℤ} {w : Visit} (hne : c ≠ chunkId)
    (h : st.replicateOrDelete chunkId v extra w = some st') : Still st st' ∧ st'.entry c = st.entry c := by
  unfold replicateOrDelete at h
  split_ifs at h with hpos hzero
  · obtain ⟨⟨k, st₂⟩, h₁, rfl⟩ := Option.map_eq_some_iff.mp h
    have hre := (@replicateServers_offered st v.chunkServers w extra.toNat).1
    unfold ReplicateChunk at h₁
    generalize st.replicateServers v.chunkServers extra.toNat w = p at h₁ hre
    obtain ⟨candidates, st₁⟩ := p
    dsimp only at h₁ hre
    obtain ⟨news, -, hs⟩ := ReplicateChunkTo_sent h₁
    have hstill := hre.still.trans (ReplicateChunkTo_still h₁)
    refine ⟨⟨hstill.leaves, hstill.retiring, hstill.candidates⟩, ?_⟩
    obtain ⟨racks, -, rfl⟩ := hre
    dsimp only
    rw [addOngoing, setEntry_entry, Function.update_of_ne hne, hs.entry]
    rfl
  · obtain rfl := Option.some.inj h
    exact ⟨.refl st, rfl⟩
  · obtain rfl := Option.some.inj h
    unfold DeleteAddlChunkReplicas
    split_ifs
    · exact ⟨.refl st, rfl⟩
    · refine ⟨⟨rfl, fun _ => rfl, fun _ hc => hc⟩, ?_⟩
      dsimp only
      rw [setEntry_entry, Function.update_of_ne hne]

/-! ## The loops -/

theorem ChecksApart.tail {w : ℤ → Visit} {cids : List ℤ} (h : st.ChecksApart w (c :: cids)) : st.ChecksApart w cids :=
  h.imp_right fun hfew => ⟨(List.nodup_cons.mp hfew.1).2, fun x hx => hfew.2 x (List.mem_cons_of_mem c hx)⟩

theorem ChecksApart.turn {w : ℤ → Visit} {cids : List ℤ} {extra : ℤ} (h : st.ChecksApart w (c :: cids))
    (hm : Same st st') (h₁ : st.replicateOrDelete c v extra (w c) = some st') : st'.ChecksApart w cids := by
  refine h.imp (fun hracks => hracks.same hm) fun hfew => ?_
  obtain ⟨hnot, hnodup⟩ := List.nodup_cons.mp hfew.1
  refine ⟨hnodup, fun x hx => ?_⟩
  have hne : x ≠ c := fun heq => hnot (heq ▸ hx)
  obtain ⟨hstill, hentry⟩ := replicateOrDelete_other_same hne h₁
  exact (hfew.2 x (List.mem_cons_of_mem c hx)).still hstill hentry

theorem checkLoop_moves {w : ℤ → Visit} {del' : List ℤ} : ∀ {cids : List ℤ} {n : ℕ} {del : List ℤ} {st st' : Placement},
    Rostered st → (ok → st.ChecksApart w cids) → checkLoop w cids n del st = some (del', st') → Moves ok st st'
  | [], n, del, st, st', _, _, h => by
    obtain ⟨-, rfl⟩ := Prod.mk.inj (Option.some.inj h)
    exact Moves.refl ok st
  | c :: cids, n, del, st, st', hr, hok, h => by
    rw [checkLoop] at h
    split_ifs at h with hcand
    swap
    · exact checkLoop_moves hr (fun ho => (hok ho).tail) h
    split at h
    · exact checkLoop_moves hr (fun ho => (hok ho).tail) h
    rename_i v hv
    split_ifs at h with hrest
    · exact checkLoop_moves hr (fun ho => (hok ho).tail) h
    split at h
    · exact checkLoop_moves hr (fun ho => (hok ho).tail) h
    rename_i extra he
    split at h
    · cases h
    rename_i st₁ h₁
    have hfew : ok → extra ≤ 1 ∨ st.RacksApart := fun ho =>
      (hok ho).symm.imp_left fun hfew => hfew.2 c List.mem_cons_self v hv extra he
    have hm : Moves ok st st₁ := replicateOrDelete_moves hr hfew hv hrest h₁
    dsimp only at h
    by_cases hmany : ((if extra > 0 then n + 1 else n : ℕ) : ℤ) >
        st₁.cl.lm.mChunkServers.length * MAX_CONCURRENT_WRITE_REPLICATIONS_PER_NODE
    · rw [if_pos hmany] at h
      obtain ⟨-, rfl⟩ := Prod.mk.inj (Option.some.inj h)
      exact hm
    · rw [if_neg hmany] at h
      exact hm.trans (checkLoop_moves (hr.same hm.same) (fun ho => (hok ho).turn hm.same h₁) h)

theorem planLoop_moves {w : ℤ → Visit} : ∀ {cids : List ℤ} {st st' : Placement}, st.mHelloDone server = true →
    planLoop w server cids st = some st' → Moves ok st st'
  | [], st, st', _, h => by
    obtain rfl := Option.some.inj h
    exact Moves.refl ok st
  | cid :: cids, st, st', hs, h => by
    rw [planLoop] at h
    split_ifs at h with hbusy
    · obtain rfl := Option.some.inj h
      exact Moves.refl ok st
    split at h
    · cases h
    rename_i v hv
    split_ifs at h with hskip
    · exact planLoop_moves hs h
    obtain ⟨st₁, h₁, h₂⟩ := Option.bind_eq_some_iff.mp h
    have hm : Moves ok st st₁ := ReplicateChunkToServers_moves hv (fun hp => hskip (Or.inl hp)) (by simpa using hs)
      (List.nodup_singleton server) h₁
    have hs₁ : st₁.mHelloDone server = true := by rwa [hm.same.hello]
    exact hm.trans (planLoop_moves hs₁ h₂)

theorem ExecuteRebalancePlanOn_moves {w : ℤ → Visit} (hs : st.mHelloDone server = true)
    (h : st.ExecuteRebalancePlanOn w server = some st') : Moves ok st st' := by
  unfold ExecuteRebalancePlanOn at h
  dsimp only at h
  split_ifs at h with hfull
  · obtain rfl := Option.some.inj h
    have hmove : Move ok st (st.setInfo server { st.info server with mChunksToMove := [] }) := by
      apply setInfo_move
      rfl
    exact hmove.moves
  · exact planLoop_moves hs h

theorem planExecutor_moves {w : ServerId → ℤ → Visit} : ∀ {ss : List ServerId} {st st' : Placement},
    (∀ s ∈ ss, st.mHelloDone s = true) → ss.foldlM (planExecutor w) st = some st' → Moves ok st st'
  | [], st, st', _, h => by
    obtain rfl : st = st' := by simpa using h
    exact Moves.refl ok st
  | s :: ss, st, st', hs, h => by
    rw [List.foldlM_cons] at h
    obtain ⟨st₁, h₁, h₂⟩ := Option.bind_eq_some_iff.mp h
    have hm : Moves ok st st₁ := by
      unfold planExecutor at h₁
      split_ifs at h₁ with hskip
      · obtain rfl := Option.some.inj h₁
        exact Moves.refl ok st
      · exact ExecuteRebalancePlanOn_moves (hs s List.mem_cons_self) h₁
    refine hm.trans (planExecutor_moves (fun x hx => ?_) h₂)
    rw [hm.same.hello]
    exact hs x (List.mem_cons_of_mem _ hx)

theorem ExecuteRebalancePlan_moves {w : ServerId → ℤ → Visit} (hr : Rostered st)
    (h : st.ExecuteRebalancePlan w = some st') : Moves ok st st' := by
  unfold ExecuteRebalancePlan at h
  split_ifs at h with hplan
  · obtain rfl := Option.some.inj h
    exact Moves.refl ok st
  · obtain ⟨st₁, h₁, h₂⟩ := Option.bind_eq_some_iff.mp h
    have hm : Moves ok st st₁ := planExecutor_moves hr.hello h₁
    split_ifs at h₂ with hdone
    · obtain rfl := Option.some.inj h₂
      exact hm.trans (Move.moves (.idle ⟨rfl, rfl, rfl, List.Perm.refl _⟩ rfl rfl rfl))
    · obtain rfl := Option.some.inj h₂
      exact hm

/-! ## Rebalancing -/

theorem intraRack_spec {non : List ServerId} {σ : ℕ → Shuffle ServerId} : ∀ (ss : List ServerId) (i : ℕ)
    (cands : List ServerId), cands.Nodup → cands ⊆ non →
      (st.FindIntraRackRebalanceCandidates non hosts σ i ss cands).Nodup ∧
        st.FindIntraRackRebalanceCandidates non hosts σ i ss cands ⊆ non
  | [], i, cands, hn, hs => by
    rw [FindIntraRackRebalanceCandidates]
    exact ⟨hn, hs⟩
  | s :: ss, i, cands, hn, hs => by
    rw [FindIntraRackRebalanceCandidates]
    split_ifs with hload
    · exact intraRack_spec ss (i + 1) cands hn hs
    dsimp only
    cases hf : (st.FindCandidateServersOf non hosts (st.info s).mRackId (σ i)).find? fun x => decide (x ∉ cands) with
    | none =>
      rw [Option.toList_none, List.append_nil]
      exact intraRack_spec ss (i + 1) cands hn hs
    | some x =>
      have hx : x ∉ cands := by simpa using List.find?_some hf
      have hmem := (mem_candidatesOf (List.mem_of_find?_eq_some hf)).1
      refine intraRack_spec ss (i + 1) _ ?_ ?_
      · rw [Option.toList_some]
        exact List.Nodup.append hn (List.nodup_singleton x) (List.disjoint_singleton.mpr hx)
      · rw [Option.toList_some]
        exact List.append_subset.mpr ⟨hs, List.cons_subset.mpr ⟨hmem, List.nil_subset _⟩⟩

/-- The servers that a chunk could move to are not loaded, and none is listed twice. -/
theorem rebalanceCandidates_spec (st : Placement) (non hosts : List ServerId) (w : Visit) :
    (st.rebalanceCandidates non hosts w).Nodup ∧ st.rebalanceCandidates non hosts w ⊆ non := by
  unfold rebalanceCandidates
  split
  · cases hf : st.FindInterRackRebalanceCandidate non hosts (w.servers hosts.length) with
    | none => exact ⟨List.nodup_nil, List.nil_subset _⟩
    | some x =>
      refine ⟨List.nodup_singleton x, ?_⟩
      unfold FindInterRackRebalanceCandidate at hf
      dsimp only at hf
      split_ifs at hf with hone
      exact List.cons_subset.mpr ⟨(mem_candidatesOf (List.mem_of_find?_eq_some hf)).1, List.nil_subset _⟩
  · exact intraRack_spec hosts 0 [] List.nodup_nil (List.nil_subset _)

theorem rebalanceLoop_moves {w : ℤ → Visit} {non : List ServerId} : ∀ {cids : List ℤ} {st st' : Placement},
    (∀ s ∈ non, st.mHelloDone s = true) → rebalanceLoop w non cids st = some st' → Moves ok st st'
  | [], st, st', _, h => by
    obtain rfl := Option.some.inj h
    exact Moves.refl ok st
  | c :: cids, st, st', hs, h => by
    rw [rebalanceLoop] at h
    dsimp only at h
    split_ifs at h with hbusy
    · obtain rfl := Option.some.inj h
      exact Moves.refl ok st
    split at h
    · exact rebalanceLoop_moves hs h
    rename_i v hv
    split_ifs at h with hrest
    · exact rebalanceLoop_moves hs h
    split at h
    · exact rebalanceLoop_moves hs h
    split_ifs at h with hskip
    · exact rebalanceLoop_moves hs h
    obtain ⟨st₁, h₁, h₂⟩ := Option.bind_eq_some_iff.mp h
    have hc := rebalanceCandidates_spec st non v.chunkServers (w c)
    have hm : Moves ok st st₁ := ReplicateChunkToServers_moves hv hrest (fun s hm => hs s (hc.2 hm)) hc.1 h₁
    refine hm.trans (rebalanceLoop_moves (fun s hm' => ?_) h₂)
    rw [hm.same.hello]
    exact hs s hm'

theorem RebalanceServers_moves {r : Round} (hr : Rostered st) (h : st.RebalanceServers r = some st') :
    Moves ok st st' := by
  unfold RebalanceServers at h
  split_ifs at h with hrec
  · obtain rfl := Option.some.inj h
    exact Moves.refl ok st
  obtain ⟨st₁, h₁, h₂⟩ := Option.bind_eq_some_iff.mp h
  have hm : Moves ok st st₁ := ExecuteRebalancePlan_moves hr h₁
  refine hm.trans ?_
  dsimp only at h₂
  split_ifs at h₂ with hon hload
  · obtain rfl := Option.some.inj h₂
    exact Moves.refl ok _
  · obtain rfl := Option.some.inj h₂
    exact Moves.refl ok _
  · refine rebalanceLoop_moves (fun s hs => ?_) h₂
    exact (hr.same hm.same).hello s (List.mem_of_mem_filter (List.mem_of_mem_filter hs))

/-- **The checker makes moves.** -/
theorem ChunkReplicationChecker_moves {r : Round} (hr : Rostered st) (hok : ok → st.ChecksApart r.check r.checked)
    (h : st.ChunkReplicationChecker r = some st') : Moves ok st st' := by
  unfold ChunkReplicationChecker at h
  split_ifs at h with hrec
  · obtain rfl := Option.some.inj h
    exact Moves.refl ok st
  obtain ⟨⟨del, st₁⟩, h₁, h₂⟩ := Option.bind_eq_some_iff.mp h
  have hm₀ : Moves ok st { st with cl := st.cl.CheckHibernatingServersStatus r.now } :=
    Move.moves (.idle ⟨rfl, rfl, rfl, List.Perm.refl _⟩ rfl rfl rfl)
  have hm₁ := hm₀.trans (checkLoop_moves (hr.same hm₀.same) hok h₁)
  refine hm₁.trans (Moves.trans ?_ (RebalanceServers_moves ?_ h₂))
  · exact Move.moves (.idle ⟨rfl, rfl, rfl, List.Perm.refl _⟩ rfl rfl rfl)
  · exact (hr.same hm₁.same).same ⟨rfl, rfl, rfl, List.Perm.refl _⟩

/-! ## More work for a server -/

theorem workLoop_moves {w : ℤ → Visit} : ∀ {cids : List ℤ} {st st' : Placement}, st.mHelloDone server = true →
    workLoop w server cids st = some st' → Moves ok st st'
  | [], st, st', _, h => by
    obtain rfl := Option.some.inj h
    exact Moves.refl ok st
  | c :: cids, st, st', hs, h => by
    rw [workLoop] at h
    split_ifs at h with hcand
    swap
    · exact workLoop_moves hs h
    split at h
    · exact workLoop_moves hs h
    rename_i v hv
    split_ifs at h with hrest
    · exact workLoop_moves hs h
    split at h
    · exact workLoop_moves hs h
    split_ifs at h with hrack
    · exact workLoop_moves hs h
    split at h
    · cases h
    rename_i st₁ h₁
    have hm : Moves ok st st₁ := by
      unfold replicateOn at h₁
      split_ifs at h₁ with hpos
      · obtain ⟨⟨k, st₂⟩, h₂, rfl⟩ := Option.map_eq_some_iff.mp h₁
        obtain ⟨news, rfl, hsent⟩ := ReplicateChunkTo_sent h₂
        exact (hsent.move hv (fun hp => hrest (Or.inl hp)) (by simpa using hs)
          fun _ => List.nodup_singleton server).moves
      · obtain rfl := Option.some.inj h₁
        exact Moves.refl ok st
    split_ifs at h with hbusy
    · obtain rfl := Option.some.inj h
      exact hm
    · have hs₁ : st₁.mHelloDone server = true := by rwa [hm.same.hello]
      exact hm.trans (workLoop_moves hs₁ h)

/-- **The search for more work makes moves.** -/
theorem FindReplicationWorkForServer_moves {w : Work} (hs : st.mHelloDone server = true)
    (h : st.FindReplicationWorkForServer server w = some st') : Moves ok st st' := by
  unfold FindReplicationWorkForServer at h
  split_ifs at h with hret
  · obtain rfl := Option.some.inj h
    exact Moves.refl ok st
  obtain ⟨st₁, h₁, h₂⟩ := Option.bind_eq_some_iff.mp h
  have hm : Moves ok st st₁ := workLoop_moves hs h₁
  have hs₁ : st₁.mHelloDone server = true := by rwa [hm.same.hello]
  exact hm.trans (ExecuteRebalancePlanOn_moves hs₁ h₂)

end Placement

end Kfs
