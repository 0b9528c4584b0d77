import Kfs.Layout.Placement
import Kfs.Layout.WriteLoad

/-!
# A refused write lease

`GetChunkWriteLease` cleans up the leases of a copy of the entry before it looks for space on the servers. When there
is none the copy is dropped, and the entry keeps its leases; the counters and the queues of the servers keep what the
clean-up did.

* `Grants`: the layout manager, the objects of the servers and their queues;
* `LeaseCleanup_pending`: every write lease that is cleaned up leaves a request at the first server of the chunk;
* `GetChunkWriteLease_layout`: what the layout manager sees of it;
* **`refusal_harmless_iff`**: exactly when a refusal changes nothing.
-/

namespace Kfs

/-- The requests that the layout manager queues for a chunk server here. -/
inductive ServerRpc
  | size (fid chunkId : ℤ)
  | allocate (chunkId chunkVersion leaseId : ℤ)
  deriving DecidableEq

/-- The layout manager, the objects of the chunk servers and `mPendingReqs` of each. -/
structure Grants where
  lm : LayoutManager
  info : ServerId → ServerInfo
  mPendingReqs : ServerId → List ServerRpc
  chunkVersionInc : ℤ

namespace Grants

/-! ## The servers -/

def Enqueue (st : Grants) (s : ServerId) (r : ServerRpc) : Grants :=
  { st with mPendingReqs := Function.update st.mPendingReqs s (st.mPendingReqs s ++ [r]) }

def UpdateNumChunkWrites (amount : ℤ) (st : Grants) (s : ServerId) : Grants :=
  let i := st.info s
  let n := i.mNumChunkWrites + amount
  { st with info := Function.update st.info s { i with mNumChunkWrites := if n < 0 then 0 else n } }

def GetChunkSize (st : Grants) (s : ServerId) (fid chunkId : ℤ) : Grants := st.Enqueue s (.size fid chunkId)

/-- `ChunkServer::AllocateChunk`. -/
def AllocateChunk (st : Grants) (s : ServerId) (chunkId chunkVersion leaseId : ℤ) : Grants :=
  (UpdateNumChunkWrites 1 st s).Enqueue s (.allocate chunkId chunkVersion leaseId)

/-- `GetChunkToServerMapping`. -/
def servers (st : Grants) (chunkId : ℤ) : List ServerId :=
  ((st.lm.mChunkToServerMap chunkId).map ChunkPlacementInfo.chunkServers).getD []

/-- `DecChunkWriteCount` on a lease. -/
def DecChunkWriteCount (fid chunkId : ℤ) (st : Grants) (l : LeaseInfo) : Grants :=
  if l.leaseType ≠ .write then st
  else
    let dec := (st.servers chunkId).foldl (UpdateNumChunkWrites (-1)) st
    match st.servers chunkId with
    | [] => dec
    | s :: _ => dec.GetChunkSize s fid chunkId

/-- `LeaseCleanup(chunkId, v)`, without the leases of `v`. -/
def LeaseCleanup (st : Grants) (chunkId : ℤ) (v : ChunkPlacementInfo) : Grants :=
  v.chunkLeases.foldl (DecChunkWriteCount v.fid chunkId) st

/-! ## The lease -/

/-- The end of `GetChunkWriteLease`: a lease for the first server, and an allocation for each. -/
def issue (st : Grants) (chunkId chunkVersion : ℤ) (v : ChunkPlacementInfo) (master : ServerId)
    (others : List ServerId) (now : ℤ) : Grants :=
  let lease : LeaseInfo := ⟨.write, st.lm.mLeaseId, some master, now + LEASE_INTERVAL_SECS⟩
  let lm := { st.lm with mLeaseId := st.lm.mLeaseId + 1 }.set chunkId { v with chunkLeases := [lease] }
  let version := chunkVersion + st.chunkVersionInc
  others.foldl (fun st s => st.AllocateChunk s chunkId version (-1))
    ({ st with lm := lm }.AllocateChunk master chunkId version lease.leaseId)

/-- `GetChunkWriteLease`. The space is looked for with the counters that the clean-up has left. -/
def GetChunkWriteLease (st : Grants) (chunkId chunkVersion : ℤ) (t : ℕ → ℤ) : LayoutManager.WriteLease × Grants :=
  if st.lm.InRecovery (t 0) then (⟨-EBUSY, false, [], none⟩, st)
  else
    match st.lm.mChunkToServerMap chunkId with
    | none => (⟨-EINVAL, false, [], none⟩, st)
    | some v =>
      match v.chunkServers with
      | [] => (⟨-EDATAUNAVAIL, false, [], none⟩, st)
      | master :: others =>
        let n := v.chunkLeases.length
        match findLease LeaseInfo.IsValidWriteLease t 1 v.chunkLeases with
        | some lease => (⟨0, false, v.chunkServers, lease.chunkServer⟩, st)
        | none =>
          match findLease LeaseInfo.IsValidLease t (1 + n) v.chunkLeases with
          | some _ => (⟨-EBUSY, false, [], none⟩, st)
          | none =>
            let st := st.LeaseCleanup chunkId v
            if v.chunkServers.any fun s => decide ((st.info s).GetAvailSpace < CHUNKSIZE) then
              (⟨-ENOSPC, false, v.chunkServers, none⟩, st)
            else
              (⟨0, true, v.chunkServers, some master⟩,
                st.issue chunkId chunkVersion v master others (t (1 + n + n)))

/-! ## The property -/

/-- The map, the counters and the queues are as before. -/
structure Same (st st' : Grants) : Prop where
  map : st'.lm.mChunkToServerMap = st.lm.mChunkToServerMap
  writes : ∀ s, (st'.info s).mNumChunkWrites = (st.info s).mNumChunkWrites
  pending : st'.mPendingReqs = st.mPendingReqs

/-- A refusal changes nothing, and neither does the next attempt, which has the same result. -/
def RefusalHarmless (st : Grants) (chunkId chunkVersion : ℤ) (t : ℕ → ℤ) : Prop :=
  let r := st.GetChunkWriteLease chunkId chunkVersion t
  r.1.status < 0 → Same st r.2 ∧ (r.2.GetChunkWriteLease chunkId chunkVersion t).1 = r.1 ∧
    Same r.2 (r.2.GetChunkWriteLease chunkId chunkVersion t).2

/-- The server is not in recovery, and the entry of the chunk has servers and no valid lease. -/
structure Lapsed (st : Grants) (chunkId : ℤ) (t : ℕ → ℤ) (v : ChunkPlacementInfo) : Prop where
  recovered : st.lm.InRecovery (t 0) = false
  entry : st.lm.mChunkToServerMap chunkId = some v
  hosted : v.chunkServers ≠ []
  write : findLease LeaseInfo.IsValidWriteLease t 1 v.chunkLeases = none
  valid : findLease LeaseInfo.IsValidLease t (1 + v.chunkLeases.length) v.chunkLeases = none

/-- An expired write lease is given up, and a server still has no space for a chunk. -/
def GivenUp (st : Grants) (chunkId : ℤ) (t : ℕ → ℤ) : Prop :=
  ∃ v, st.Lapsed chunkId t v ∧ (∃ l ∈ v.chunkLeases, l.leaseType = .write) ∧
    ∃ s ∈ v.chunkServers, ((st.LeaseCleanup chunkId v).info s).GetAvailSpace < CHUNKSIZE

variable {st : Grants} {chunkId chunkVersion fid : ℤ} {t : ℕ → ℤ} {v : ChunkPlacementInfo} {s : ServerId}

theorem Same.refl (st : Grants) : Same st st := ⟨rfl, fun _ => rfl, rfl⟩

/-! ## The clean-up -/

theorem foldl_update_frame (a : ℤ) : ∀ (servers : List ServerId) (st : Grants),
    (servers.foldl (UpdateNumChunkWrites a) st).lm = st.lm ∧
      (servers.foldl (UpdateNumChunkWrites a) st).mPendingReqs = st.mPendingReqs
  | [], _ => ⟨rfl, rfl⟩
  | s :: servers, st => foldl_update_frame a servers (UpdateNumChunkWrites a st s)

/-- A write lease leaves a request for the size of the chunk at the first server. -/
theorem DecChunkWriteCount_write {l : LeaseInfo} {others : List ServerId} (hs : st.servers chunkId = s :: others)
    (hl : l.leaseType = .write) : (DecChunkWriteCount fid chunkId st l).lm = st.lm ∧
      (DecChunkWriteCount fid chunkId st l).mPendingReqs =
        Function.update st.mPendingReqs s (st.mPendingReqs s ++ [.size fid chunkId]) := by
  obtain ⟨hlm, hp⟩ := foldl_update_frame (-1) (st.servers chunkId) st
  rw [DecChunkWriteCount, if_neg (not_not.mpr hl)]
  rw [hs] at hlm hp ⊢
  refine ⟨hlm, ?_⟩
  simp only [GetChunkSize, Enqueue, hp]

theorem DecChunkWriteCount_read {l : LeaseInfo} (hl : l.leaseType ≠ .write) :
    DecChunkWriteCount fid chunkId st l = st := if_pos hl

/-- **Every write lease that is cleaned up leaves a request at the first server of the chunk.** -/
theorem LeaseCleanup_pending {others : List ServerId} (hs : st.servers chunkId = s :: others) :
    (st.LeaseCleanup chunkId v).lm = st.lm ∧ (st.LeaseCleanup chunkId v).mPendingReqs s =
      st.mPendingReqs s ++ List.replicate (v.chunkLeases.countP LeaseInfo.isWrite) (.size v.fid chunkId) := by
  unfold LeaseCleanup
  induction v.chunkLeases generalizing st with
  | nil => simp
  | cons l ls ih =>
    rw [List.foldl_cons, List.countP_cons]
    by_cases hl : l.leaseType = .write
    · have hwrite := @DecChunkWriteCount_write st chunkId v.fid s l others hs hl
      obtain ⟨hlm, hp⟩ := hwrite
      have hs' : (DecChunkWriteCount v.fid chunkId st l).servers chunkId = s :: others := by
        rw [servers, hlm]
        exact hs
      obtain ⟨hlm', hp'⟩ := ih hs'
      refine ⟨hlm'.trans hlm, ?_⟩
      rw [hp', hp, Function.update_self, List.append_assoc]
      simp [LeaseInfo.isWrite, hl, List.replicate_succ]
    · rw [DecChunkWriteCount_read hl]
      simpa [LeaseInfo.isWrite, hl] using ih hs

/-- Without a write lease there is nothing to clean up at the servers. -/
theorem LeaseCleanup_read (h : ∀ l ∈ v.chunkLeases, l.leaseType ≠ .write) : st.LeaseCleanup chunkId v = st := by
  unfold LeaseCleanup
  generalize v.chunkLeases = ls at h
  induction ls with
  | nil => rfl
  | cons l ls ih =>
    rw [List.foldl_cons, DecChunkWriteCount_read (h l List.mem_cons_self)]
    exact ih fun l' hm => h l' (List.mem_cons_of_mem l hm)

/-! ## The outcomes -/

/-- An attempt that does not come to the clean-up leaves the state alone. -/
theorem GetChunkWriteLease_same (h : ∀ v, ¬ st.Lapsed chunkId t v) :
    (st.GetChunkWriteLease chunkId chunkVersion t).2 = st := by
  unfold GetChunkWriteLease
  by_cases hrec : st.lm.InRecovery (t 0) = true
  · rw [if_pos hrec]
  rw [if_neg hrec]
  rcases hv : st.lm.mChunkToServerMap chunkId with - | v
  · rfl
  dsimp only
  rcases hs : v.chunkServers with - | ⟨master, others⟩
  · rfl
  rcases hw : findLease LeaseInfo.IsValidWriteLease t 1 v.chunkLeases with - | lease
  · rcases hl : findLease LeaseInfo.IsValidLease t (1 + v.chunkLeases.length) v.chunkLeases with - | lease
    · exact absurd ⟨Bool.not_eq_true _ ▸ hrec, hv, by simp [hs], hw, hl⟩ (h v)
    · rfl
  · rfl

/-- An attempt that comes to the clean-up. -/
theorem GetChunkWriteLease_lapsed (h : st.Lapsed chunkId t v) (chunkVersion : ℤ) :
    (∃ s ∈ v.chunkServers, ((st.LeaseCleanup chunkId v).info s).GetAvailSpace < CHUNKSIZE) ∧
        st.GetChunkWriteLease chunkId chunkVersion t =
          (⟨-ENOSPC, false, v.chunkServers, none⟩, st.LeaseCleanup chunkId v) ∨
      (¬ ∃ s ∈ v.chunkServers, ((st.LeaseCleanup chunkId v).info s).GetAvailSpace < CHUNKSIZE) ∧
        (st.GetChunkWriteLease chunkId chunkVersion t).1.status = 0 := by
  obtain ⟨hrec, hv, hs, hw, hl⟩ := h
  obtain ⟨master, others, hs⟩ := List.exists_cons_of_ne_nil hs
  unfold GetChunkWriteLease
  simp only [hrec, hv, hs, hw, hl, Bool.false_eq_true, if_false, List.any_eq_true, decide_eq_true_eq]
  by_cases hspace : ∃ s ∈ master :: others, ((st.LeaseCleanup chunkId v).info s).GetAvailSpace < CHUNKSIZE
  · exact .inl ⟨hspace, if_pos hspace⟩
  · exact .inr ⟨hspace, by rw [if_neg hspace]⟩

theorem foldl_allocate_lm (chunkId version leaseId : ℤ) : ∀ (servers : List ServerId) (st : Grants),
    (servers.foldl (fun st s => st.AllocateChunk s chunkId version leaseId) st).lm = st.lm
  | [], _ => rfl
  | s :: servers, st => foldl_allocate_lm chunkId version leaseId servers (st.AllocateChunk s chunkId version leaseId)

/-- The servers that have space for a chunk when the leases of an entry are cleaned up. -/
def hasSpace (st : Grants) (chunkId : ℤ) (s : ServerId) : Bool :=
  (st.lm.mChunkToServerMap chunkId).all fun v =>
    !decide (((st.LeaseCleanup chunkId v).info s).GetAvailSpace < CHUNKSIZE)

/-- To the layout manager an attempt is `GetChunkWriteLease` with the space after the clean-up. -/
theorem GetChunkWriteLease_layout (st : Grants) (chunkId chunkVersion : ℤ) (t : ℕ → ℤ) :
    ((st.GetChunkWriteLease chunkId chunkVersion t).1, (st.GetChunkWriteLease chunkId chunkVersion t).2.lm) =
      st.lm.GetChunkWriteLease chunkId (st.hasSpace chunkId) t := by
  unfold GetChunkWriteLease LayoutManager.GetChunkWriteLease
  by_cases hrec : st.lm.InRecovery (t 0) = true
  · simp only [hrec, if_true]
  simp only [if_neg hrec]
  rcases hv : st.lm.mChunkToServerMap chunkId with - | ⟨fid, n, - | ⟨master, others⟩, leases⟩
  · rfl
  · rfl
  dsimp only
  rcases hw : findLease LeaseInfo.IsValidWriteLease t 1 leases with - | lease
  swap
  · rfl
  rcases hl : findLease LeaseInfo.IsValidLease t (1 + leases.length) leases with - | lease
  swap
  · rfl
  have hlm : (st.LeaseCleanup chunkId ⟨fid, n, master :: others, leases⟩).lm = st.lm :=
    (LeaseCleanup_pending (by simp [servers, hv] : st.servers chunkId = master :: others)).1
  have hspace : (master :: others).any (fun s => decide (((st.LeaseCleanup chunkId
      ⟨fid, n, master :: others, leases⟩).info s).GetAvailSpace < CHUNKSIZE)) =
      !(master :: others).all (st.hasSpace chunkId) := by
    rw [List.not_all_eq_any_not]
    congr 1
    funext s
    simp [hasSpace, hv]
  simp only [hspace]
  rcases (master :: others).all (st.hasSpace chunkId)
  · simp [hlm]
  · simp only [Bool.not_true, Bool.false_eq_true, if_false, not_true_eq_false]
    rw [issue, foldl_allocate_lm]
    change (_, _) = (_, _)
    rw [← hlm]
    rfl

/-- **A refusal changes nothing exactly when no expired write lease is given up for it.** -/
theorem refusal_harmless_iff (st : Grants) (chunkId chunkVersion : ℤ) (t : ℕ → ℤ) :
    st.RefusalHarmless chunkId chunkVersion t ↔ ¬ st.GivenUp chunkId t := by
  have hsame (h : (st.GetChunkWriteLease chunkId chunkVersion t).2 = st) :
      st.RefusalHarmless chunkId chunkVersion t := by
    intro _
    rw [h, h]
    exact ⟨.refl st, rfl, .refl st⟩
  by_cases hlapsed : ∃ v, st.Lapsed chunkId t v
  · obtain ⟨v, hv⟩ := hlapsed
    have huniq : ∀ w, st.Lapsed chunkId t w → w = v := fun w hw => Option.some.inj (hw.entry.symm.trans hv.entry)
    rcases GetChunkWriteLease_lapsed hv chunkVersion with ⟨hspace, hr⟩ | ⟨hspace, hr⟩
    · by_cases hwrite : ∃ l ∈ v.chunkLeases, l.leaseType = .write
      · -- the request that the clean-up has queued stays
        refine iff_of_false (fun hh => ?_) (not_not.mpr ⟨v, hv, hwrite, hspace⟩)
        obtain ⟨s, others, hs⟩ := List.exists_cons_of_ne_nil hv.hosted
        have hmap : st.servers chunkId = s :: others := by simp [servers, hv.entry, hs]
        have hneg : (st.GetChunkWriteLease chunkId chunkVersion t).1.status < 0 := by
          rw [hr]
          change -ENOSPC < 0
          decide
        have hp := congrFun (hh hneg).1.pending s
        rw [hr] at hp
        change (st.LeaseCleanup chunkId v).mPendingReqs s = st.mPendingReqs s at hp
        rw [(LeaseCleanup_pending hmap).2, List.append_right_eq_self, List.replicate_eq_nil_iff,
          List.countP_eq_zero] at hp
        obtain ⟨l, hl, hty⟩ := hwrite
        exact hp l hl (decide_eq_true hty)
      · have hread : ∀ l ∈ v.chunkLeases, l.leaseType ≠ .write := fun l hl hty => hwrite ⟨l, hl, hty⟩
        refine iff_of_true (hsame ?_) ?_
        · rw [hr]
          exact LeaseCleanup_read hread
        · rintro ⟨w, hw, hty, -⟩
          obtain rfl := huniq w hw
          exact hwrite hty
    · refine iff_of_true (fun hneg => ?_) ?_
      · rw [hr] at hneg
        exact absurd hneg (lt_irrefl 0)
      · rintro ⟨w, hw, -, hsp⟩
        obtain rfl := huniq w hw
        exact hspace hsp
  · refine iff_of_true (hsame (GetChunkWriteLease_same fun v hv => hlapsed ⟨v, hv⟩)) ?_
    rintro ⟨v, hv, -⟩
    exact hlapsed ⟨v, hv⟩

/-- One server with space for two chunks, on which three writes are counted; its write lease on chunk 7 has expired. -/
def crowded : Grants where
  lm := ⟨fun c => if c = 7 then some ⟨5, 0, [1], [⟨.write, 1, some 1, 10⟩]⟩ else none, 2, [1], 0, 1⟩
  info _ := ⟨0, 2 * CHUNKSIZE.toNat, 0, 3, 0, 0, false, false, []⟩
  mPendingReqs _ := []
  chunkVersionInc := 1

/-- The first attempt is refused and takes a write off the count, so that the second attempt is granted. -/
theorem crowded_not_harmless :
    let first := crowded.GetChunkWriteLease 7 1 fun _ => 1000
    first.1.status = -ENOSPC ∧ (first.2.info 1).mNumChunkWrites = 2 ∧ first.2.mPendingReqs 1 = [.size 5 7] ∧
      (first.2.GetChunkWriteLease 7 1 fun _ => 1000).1.status = 0 ∧
      ¬ crowded.RefusalHarmless 7 1 (fun _ => 1000) := by
  refine ⟨by decide +kernel, by decide +kernel, by decide +kernel, by decide +kernel, fun h => ?_⟩
  have hw := (h (by decide +kernel)).1.writes 1
  exact absurd hw (by decide +kernel)

end Grants

end Kfs
