import Kfs.Layout.PlaceSteps

/-!
# Replication accounting

`ongoingReplications` of an entry of the map and `mNumChunkWriteReplications` of a server against the replications
that are under way. `ChunkReplicationDone` takes one off the entry that the chunk has when the reply is processed;
an entry that was created after the request was enqueued is charged for it too, and kept from going negative.

* `Booked`, `Counted`: the counters of the servers and of the entries are right;
* `ownCharge`: an entry is not charged for an older request while one of its own is under way;
* **`replications_counted`**: along every run whose steps meet `ownCharge` the counters are right; those of the
  servers are right along every run.
-/

namespace Kfs

namespace Placement

variable {st st' : Placement} {e : PlaceEv} {c chunkId : ℤ} {v : ChunkPlacementInfo} {s : ServerId}

/-! ## Counting -/

/-- The replication is one of the chunk, enqueued since its entry was created. -/
def own (st : Placement) (c : ℤ) (o : ChunkReplicate) : Bool := decide (o.chunkId = c ∧ o.epoch = st.epoch c)

/-- The books of the servers. -/
structure Booked (st : Placement) : Prop where
  rostered : Rostered st
  servers : ∀ s, st.writeReplications s = st.ops.countP fun o => decide (o.server = s)
  epochs : ∀ o ∈ st.ops, o.epoch ≤ st.epoch o.chunkId
  hello : ∀ o ∈ st.ops, st.mHelloDone o.server = true

/-- `ongoingReplications` of every entry is the number of its own replications that are under way. -/
def Counted (st : Placement) : Prop :=
  ∀ c v, st.entry c = some v → v.ongoingReplications = st.ops.countP (st.own c)

theorem Booked.quiet (h : Booked st) (hq : Quiet st st') : Booked st' where
  rostered := hq.rostered h.rostered
  servers := by
    rw [hq.writes, hq.ops]
    exact h.servers
  epochs := by
    rw [hq.ops, hq.epoch]
    exact h.epochs
  hello := by
    rw [hq.ops, hq.hello]
    exact h.hello

theorem own_congr (h : st'.epoch = st.epoch) : st'.own = st.own := by
  funext c o
  simp only [own, h]

theorem Counted.quiet (h : Counted st) (hq : Quiet st st') : Counted st' := by
  intro c v' hv'
  obtain ⟨v, hv, ho, -⟩ := hq.entries c v' hv'
  rw [ho, h c v hv, hq.ops, own_congr hq.epoch]

theorem Booked.creates (h : Booked st) (hc : Creates chunkId v st st') : Booked st' where
  rostered := hc.rostered h.rostered
  servers := by
    rw [hc.writes, hc.ops]
    exact h.servers
  epochs := by
    rw [hc.ops, hc.epoch]
    intro o ho
    have hle := h.epochs o ho
    by_cases heq : o.chunkId = chunkId
    · rw [heq, Function.update_self]
      rw [heq] at hle
      omega
    · rwa [Function.update_of_ne heq]
  hello := by
    rw [hc.ops, hc.hello]
    exact h.hello

/-- A new entry has no replications of its own. -/
theorem Counted.creates (h : Counted st) (hb : Booked st) (hc : Creates chunkId v st st') : Counted st' := by
  intro c w hw
  rw [hc.map] at hw
  rw [hc.ops]
  by_cases heq : c = chunkId
  · subst heq
    rw [Function.update_self] at hw
    obtain rfl := Option.some.inj hw
    rw [hc.idle, eq_comm, Nat.cast_eq_zero, List.countP_eq_zero]
    intro o ho
    simp only [own, decide_eq_true_eq, hc.epoch, Function.update_self, not_and]
    rintro rfl
    have hle := hb.epochs o ho
    omega
  · rw [Function.update_of_ne heq] at hw
    rw [h c w hw]
    congr 1
    refine List.countP_congr fun o _ => ?_
    simp only [own, hc.epoch, Function.update_of_ne heq]

theorem Booked.joins {r : Hello} (h : Booked st) (hj : Joins r st st') : Booked st' where
  rostered := hj.rostered
  servers := by
    rw [hj.writes, hj.ops]
    exact h.servers
  epochs := by
    rw [hj.ops, hj.epoch]
    exact h.epochs
  hello := by
    rw [hj.ops, hj.hello]
    intro o ho
    by_cases heq : o.server = r.server
    · rw [heq, Function.update_self]
    · rw [Function.update_of_ne heq]
      exact h.hello o ho

theorem Counted.joins {r : Hello} (h : Counted st) (hj : Joins r st st') : Counted st' := by
  intro c v' hv'
  obtain ⟨v, k, hv, ho, -⟩ := hj.entries c v' hv'
  rw [ho, h c v hv, hj.ops, own_congr hj.epoch]

theorem Booked.move {ok : Prop} (hm : Move ok st st') (h : Booked st) : Booked st' := by
  rcases hm.quiet_or_start with hq | ⟨c, v, v', news, same, -, -, -, -, -, ops, writes, new, -⟩
  · exact h.quiet hq
  refine ⟨h.rostered.same same, fun s => ?_, ?_, ?_⟩
  · rw [writes, h.servers, ops, List.countP_append]
    push_cast
    rfl
  · rw [ops, same.epoch]
    intro o ho
    rcases List.mem_append.mp ho with ho | ho
    · exact h.epochs o ho
    · obtain ⟨h₁, h₂, -⟩ := new o ho
      rw [h₂, h₁]
  · rw [ops, same.hello]
    intro o ho
    rcases List.mem_append.mp ho with ho | ho
    · exact h.hello o ho
    · exact (new o ho).2.2.2

/-- Replications that are started are counted for their own entry. -/
theorem Counted.move {ok : Prop} (hm : Move ok st st') (h : Counted st) : Counted st' := by
  rcases hm.quiet_or_start with hq | ⟨c, v, v', news, same, found, -, map, ongoing, -, ops, -, new, -⟩
  · exact h.quiet hq
  intro x w hw
  rw [map] at hw
  rw [ops, own_congr same.epoch, List.countP_append]
  by_cases heq : x = c
  · subst heq
    rw [Function.update_self] at hw
    obtain rfl := Option.some.inj hw
    have hall : news.countP (st.own x) = news.length := by
      rw [List.countP_eq_length]
      intro o ho
      exact decide_eq_true ⟨(new o ho).1, (new o ho).2.1⟩
    rw [ongoing, h x v found, hall]
    push_cast
    rfl
  · rw [Function.update_of_ne heq] at hw
    have hnone : news.countP (st.own x) = 0 := by
      rw [List.countP_eq_zero]
      intro o ho
      simp only [own, decide_eq_true_eq, (new o ho).1, not_and]
      exact fun hc => absurd hc.symm heq
    rw [h x w hw, hnone, add_zero]

/-! ## Processing a replication -/

variable {i : ℕ} {req : ChunkReplicate}

theorem eraseIdx_perm (h : st.ops[i]? = some req) : st.ops.Perm (req :: st.ops.eraseIdx i) := by
  obtain ⟨hi, rfl⟩ := List.getElem?_eq_some_iff.mp h
  exact (List.getElem_cons_eraseIdx_perm hi).symm

/-- The replication is counted at its server until it is processed, so that the assertion holds. -/
theorem Booked.positive (h : Booked st) (hm : req ∈ st.ops) : 0 < st.writeReplications req.server := by
  rw [h.servers]
  have hpos : 0 < st.ops.countP fun o => decide (o.server = req.server) :=
    List.countP_pos_iff.mpr ⟨req, hm, decide_eq_true rfl⟩
  exact_mod_cast hpos

theorem Booked.finish (h : Booked st) (hi : st.ops[i]? = some req)
    (ho : Over req { st with ops := st.ops.eraseIdx i } st') : Booked st' := by
  have hp := eraseIdx_perm hi
  have hsub : ∀ o ∈ st.ops.eraseIdx i, o ∈ st.ops := fun o hm => hp.mem_iff.mpr (List.mem_cons_of_mem _ hm)
  have hr : Rostered { st with ops := st.ops.eraseIdx i } := h.rostered.same ⟨rfl, rfl, rfl, List.Perm.refl _⟩
  refine ⟨hr.same ho.same, fun s => ?_, ?_, ?_⟩
  · rw [ho.writes, ho.ops]
    change st.writeReplications s - _ = _
    rw [h.servers, hp.countP_eq, List.countP_cons]
    simp only [decide_eq_true_eq]
    push_cast
    omega
  · rw [ho.ops, ho.same.epoch]
    exact fun o hm => h.epochs o (hsub o hm)
  · rw [ho.ops, ho.same.hello]
    exact fun o hm => h.hello o (hsub o hm)

/-- The entry of the chunk is its own, or has no replication under way. -/
def OwnCharge (st : Placement) (req : ChunkReplicate) : Prop :=
  ∀ v, st.entry req.chunkId = some v → req.epoch = st.epoch req.chunkId ∨ v.ongoingReplications = 0

/-- An entry is charged for its own replications. -/
theorem Counted.finish (h : Counted st) (hi : st.ops[i]? = some req) (hc : st.OwnCharge req)
    (ho : Over req { st with ops := st.ops.eraseIdx i } st') : Counted st' := by
  have hp := eraseIdx_perm hi
  have hown : st'.own = st.own := own_congr ho.same.epoch
  intro c w hw
  rw [ho.map] at hw
  rw [ho.ops, hown]
  have hcount : st.ops.countP (st.own c) = (st.ops.eraseIdx i).countP (st.own c) + if st.own c req then 1 else 0 := by
    rw [hp.countP_eq, List.countP_cons]
  split_ifs at hw with heq
  · subst heq
    obtain ⟨v, hv, rfl⟩ := Option.map_eq_some_iff.mp hw
    have hv' : st.entry req.chunkId = some v := hv
    have hn := h _ v hv'
    rcases hc v hv' with hcur | hzero
    · have hme : st.own req.chunkId req = true := decide_eq_true ⟨rfl, hcur⟩
      rw [hme, if_pos rfl] at hcount
      simp only [finished]
      split_ifs <;> omega
    · have hle : ((st.ops.eraseIdx i).countP (st.own req.chunkId) : ℤ) = 0 := by omega
      simp only [finished, hzero]
      rw [hle]
      rfl
  · have hnot : st.own c req = false := decide_eq_false fun hh => heq hh.1.symm
    rw [hnot] at hcount
    rw [h c w hw, hcount]
    rfl

/-! ## Runs -/

theorem Start.booked (h : st.Start) : Booked st := by
  refine ⟨h.rostered, fun s => ?_, ?_, ?_⟩
  · rw [h.ops]
    exact h.writes s
  · simp [h.ops]
  · simp [h.ops]

theorem Start.counted (h : st.Start) : Counted st := by
  intro c v hv
  rw [h.ops]
  exact (h.entries c v hv).1

/-- The server of a replication is added to the entry. -/
theorem setEntry_booked {v' : ChunkPlacementInfo} (h : Booked st) : Booked (st.setEntry c v') :=
  ⟨h.rostered.same ⟨rfl, rfl, rfl, List.Perm.refl _⟩, h.servers, h.epochs, h.hello⟩

theorem setEntry_counted {v' : ChunkPlacementInfo} (h : Counted st) (hv : st.entry c = some v)
    (ho : v'.ongoingReplications = v.ongoingReplications) : Counted (st.setEntry c v') := by
  intro x w hw
  rw [setEntry_entry] at hw
  by_cases heq : x = c
  · subst heq
    rw [Function.update_self] at hw
    obtain rfl := Option.some.inj hw
    rw [ho]
    exact h x v hv
  · rw [Function.update_of_ne heq] at hw
    exact h x w hw

theorem Booked.step (h : Booked st) (hs : st.step e = some st') : Booked st' := by
  rcases step_cases h.rostered hs with hq | ⟨r, -, hj⟩ | ⟨c, v, hc⟩ | hm |
    ⟨i, req, status, fid, chunkVersion, w, -, hi, hd⟩
  · exact h.quiet hq
  · exact h.joins hj
  · exact h.creates hc
  · exact hm.invariant Booked.move h
  · have hreq : st.mHelloDone req.server = true := h.hello req (List.mem_of_getElem? hi)
    obtain ⟨st₁, ho, rfl | ⟨-, hm⟩ | ⟨v, -, hm⟩⟩ := ChunkReplicationDone_cases False hd hreq
    · exact h.finish hi ho
    · exact hm.invariant Booked.move (h.finish hi ho)
    · exact hm.invariant Booked.move (setEntry_booked (h.finish hi ho))

/-- No entry is charged for an older replication while one of its own is under way. -/
def ownCharge (st : Placement) : PlaceEv → Bool
  | .done i _ _ _ _ => (st.ops[i]?).all fun req => (st.entry req.chunkId).all fun v =>
      decide (req.epoch = st.epoch req.chunkId) || decide (v.ongoingReplications = 0)
  | _ => true

theorem Counted.step (h : Counted st) (hb : Booked st) (hc : st.ownCharge e = true) (hs : st.step e = some st') :
    Counted st' := by
  rcases step_cases hb.rostered hs with hq | ⟨r, -, hj⟩ | ⟨c, v, hcr⟩ | hm |
    ⟨i, req, status, fid, chunkVersion, w, rfl, hi, hd⟩
  · exact h.quiet hq
  · exact h.joins hj
  · exact h.creates hb hcr
  · exact hm.invariant Counted.move h
  · have hreq : st.mHelloDone req.server = true := hb.hello req (List.mem_of_getElem? hi)
    have hown : st.OwnCharge req := by
      intro v hv
      simpa [ownCharge, hi, hv] using hc
    obtain ⟨st₁, ho, rfl | ⟨-, hm⟩ | ⟨v, hv, hm⟩⟩ := ChunkReplicationDone_cases False hd hreq
    · exact h.finish hi hown ho
    · exact hm.invariant Counted.move (h.finish hi hown ho)
    · exact hm.invariant Counted.move (setEntry_counted (h.finish hi hown ho) hv rfl)

/-- **Replications are counted**: in every run the counter of a server is the number of replications that are under
way to it, so that the assertion of `ReplicateChunkDone` holds, and `ongoingReplications` of an entry is the number
of its own if no entry is charged for an older replication while one of its own is under way. -/
theorem replications_counted {C : Placement → PlaceEv → Bool} {st₀ : Placement} {es : List PlaceEv} (h₀ : st₀.Start)
    (hr : run C es st₀ = some st) :
    (∀ s, (st.info s).mNumChunkWriteReplications = st.ops.countP fun o => decide (o.server = s)) ∧
      (∀ o ∈ st.ops, 0 ≤ (st.info o.server).mNumChunkWriteReplications - 1) ∧
      ((∀ st e, C st e = true → st.ownCharge e = true) → ∀ c v, st.entry c = some v →
        v.ongoingReplications = st.ops.countP (st.own c)) := by
  have hb : Booked st := run_invariant (fun h _ hs => h.step hs) h₀.booked hr
  refine ⟨hb.servers, fun o ho => ?_, fun hC => ?_⟩
  · have hpos := hb.positive ho
    unfold writeReplications at hpos
    omega
  · have hboth := @run_invariant C (fun st => Booked st ∧ Counted st)
      (fun h hc hs => ⟨h.1.step hs, h.2.step h.1 (hC _ _ hc) hs⟩) es st₀ st ⟨h₀.booked, h₀.counted⟩ hr
    exact hboth.2

/-! ## A replication that outlives its entry -/

/-- Shuffles that leave a vector as it is, at time 200. -/
def still : Visit := ⟨fun _ => 200, fun _ => Shuffle.id _, fun _ => Shuffle.id _⟩

/-- A metaserver that needs two servers and has none; file 3 has two replicas of chunk 7. -/
def restarted : Placement where
  cl := { Cluster.oneChunk with
    lm := { Cluster.oneChunk.lm with mMinChunkserversToExitRecovery := 2 }
    leaves := [.fattr (MetaFattr.new ⟨⟨0, 0⟩, fun _ => false⟩ .file 3 2), .chunkinfo ⟨3, 0, 7, 1⟩] }
  info := fun _ => ⟨-1, 0, 0, 0, 0, 0, false, false, []⟩
  mHelloDone := fun _ => false
  mRacks := []
  ops := []
  epoch := fun _ => 0
  mIsRebalancingEnabled := false
  mIsExecutingRebalancePlan := false

theorem restarted_start : restarted.Start := by
  refine ⟨fun c v hv => ?_, rfl, rfl, rfl, fun _ => rfl⟩
  by_cases hc : c = 7
  · subst hc
    obtain rfl := Option.some.inj hv
    exact ⟨rfl, rfl⟩
  · simp [entry, restarted, Cluster.oneChunk, hc] at hv

/-- An empty server at port `port` of host `h`, or one that has the chunks. -/
def joins (s : ServerId) (port rackId : ℤ) (chunks : List ChunkInfo) : PlaceEv :=
  .hello ⟨s, ⟨['h'], port⟩, chunks⟩ rackId (100 * 67108864) 0 1

/-- A check of the chunks. -/
def checks (chunks : List ℤ) : PlaceEv := .check ⟨200, chunks, fun _ => still, fun _ _ => still, [], fun _ => still⟩

/-- Server 0 has chunk 7, and a copy to server 1 is started; server 1 goes down. -/
def copyRun : List PlaceEv :=
  [joins 0 30000 0 [⟨3, 7, 1⟩], joins 1 30001 0 [], .change 7, checks [7], .netError 1, .bye 1,
    .done 0 (-5) 0 0 ⟨[], fun _ => still, fun _ => still⟩]

theorem copyRun_counted : ∃ st, run ownCharge copyRun restarted = some st ∧
    ∀ c v, st.entry c = some v → v.ongoingReplications = st.ops.countP (st.own c) := by
  obtain ⟨st, hr⟩ := Option.isSome_iff_exists.mp
    (show (run ownCharge copyRun restarted).isSome = true by decide +kernel)
  exact ⟨st, hr, (replications_counted restarted_start hr).2.2 fun _ _ h => h⟩

/-- While the copy of chunk 7 to server 1 is under way the chunk is truncated away, and an allocation that was under
way puts it back into the tree. Server 0 restarts as server 2; in between a lease is renewed, which makes a new
entry. The plan then moves the chunk to server 3, and the first copy ends. -/
def orphanRun : List PlaceEv :=
  [joins 0 30000 0 [⟨3, 7, 1⟩], joins 1 30001 0 [], .change 7, checks [7], .tree [], .delete 7,
    .tree restarted.cl.leaves, .netError 0, .bye 0, .renew 7 .read 1 (fun _ => 200), joins 2 30000 0 [⟨3, 7, 1⟩],
    joins 3 30003 0 [], .plan [(⟨['h'], 30003⟩, 7)], checks [],
    .done 0 (-5) 0 0 ⟨[], fun _ => still, fun _ => still⟩]

/-- **The end of the first copy is charged to the new entry**, which has a copy of its own under way. -/
theorem orphanRun_not_counted : restarted.Start ∧
    (run (fun _ _ => true) orphanRun restarted).map (fun st =>
      ((st.entry 7).map ChunkPlacementInfo.ongoingReplications, st.ops.countP (st.own 7))) = some (some 0, 1) :=
  ⟨restarted_start, by decide +kernel⟩

end Placement

end Kfs
