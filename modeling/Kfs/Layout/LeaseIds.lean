import Kfs.Layout.Leases

/-!
# Lease ids

`mLeaseId` counts the leases that the layout manager issues; it starts again with every start of the server.
During recovery `LeaseRenew` takes over leases from before the crash, with the ids they have, and moves the
counter past an id only when the id is above it.

* `issues`, `accepts`: the lease that an operation issues or takes over;
* `IdRun`: runs with the ids so far;
* `Distinct`: the leases so far have ids of their own; `Distinct.step`;
* **`lease_ids_distinct`**: it holds along every run that takes over no id that is the next one, or one already
  issued.
-/

namespace Kfs

namespace LayoutManager

/-- The id of the lease that the operation issues. -/
def issues (lm : LayoutManager) (t : ℕ → ℤ) : LayoutEv → Option ℤ
  | .AllocateChunk chunkId fid n servers =>
    if (lm.AllocateChunk chunkId fid n servers t).1 = 0 then some lm.mLeaseId else none
  | .GetChunkWriteLease chunkId hasSpace =>
    if (lm.GetChunkWriteLease chunkId hasSpace t).1.isNewLease then some lm.mLeaseId else none
  | .GetChunkReadLease chunkId =>
    if (lm.GetChunkReadLease chunkId t).1 = 0 then some (lm.GetChunkReadLease chunkId t).2.1 else none
  | _ => none

/-- The id of a lease that `LeaseRenew` has not seen before and takes over. -/
def accepts (lm : LayoutManager) (t : ℕ → ℤ) : LayoutEv → Option ℤ
  | .LeaseRenew chunkId _ leaseId =>
    if lm.mChunkToServerMap chunkId = none ∧ lm.InRecovery (t 0) = true then some leaseId else none
  | _ => none

end LayoutManager

/-- A run of operations that all meet a condition, with the ids of the leases issued and taken over so far. -/
inductive IdRun (C : LayoutManager → List ℤ → (ℕ → ℤ) → LayoutEv → Prop) (lm₀ : LayoutManager) (now₀ : ℤ) :
    LayoutManager → ℤ → List ℤ → List ℤ → Prop
  | nil : IdRun C lm₀ now₀ lm₀ now₀ [] []
  | step {lm now stop issued accepted} (e : LayoutEv) (c : Clock now stop) :
      IdRun C lm₀ now₀ lm now issued accepted → C lm issued c.read e →
      IdRun C lm₀ now₀ (lm.apply c.read e) stop ((lm.issues c.read e).toList ++ issued)
        ((lm.accepts c.read e).toList ++ accepted)

/-- No lease that was issued has the id of another lease. -/
structure Distinct (issued accepted : List ℤ) : Prop where
  nodup : issued.Nodup
  apart : ∀ i ∈ accepted, i ∉ issued

/-- A lease that is taken over has neither the id that is issued next nor one that has been issued. -/
def OldId (lm : LayoutManager) (issued : List ℤ) (t : ℕ → ℤ) (e : LayoutEv) : Prop :=
  ∀ i ∈ lm.accepts t e, i ≠ lm.mLeaseId ∧ i ∉ issued

variable {lm lm₀ : LayoutManager} {now now₀ : ℤ} {t : ℕ → ℤ} {e : LayoutEv} {issued accepted : List ℤ}

/-! ## The counter -/

/-- `AllocateChunk` fails, or places the chunk and issues a lease to the first server. -/
theorem AllocateChunk_spec (lm : LayoutManager) (chunkId fid n : ℤ) (servers : List ServerId) (t : ℕ → ℤ) :
    (∃ st, st < 0 ∧ lm.AllocateChunk chunkId fid n servers t = (st, lm)) ∨
      ∃ master rest, servers = master :: rest ∧ lm.AllocateChunk chunkId fid n servers t =
        (0, { lm with mLeaseId := lm.mLeaseId + 1 }.set chunkId
          ⟨fid, 0, servers, [⟨.write, lm.mLeaseId, some master, t 0 + LEASE_INTERVAL_SECS⟩]⟩) := by
  unfold LayoutManager.AllocateChunk
  split_ifs
  · exact Or.inl ⟨-EINVAL, by decide, rfl⟩
  · cases servers with
    | nil => exact Or.inl ⟨-ENOSPC, by decide, rfl⟩
    | cons master rest => exact Or.inr ⟨master, rest, rfl, rfl⟩

/-- `GetChunkWriteLease` answers without a new lease, gives the leases of its copy up and finds no space, or
issues a lease in place of the leases of the chunk. -/
theorem GetChunkWriteLease_spec (lm : LayoutManager) (chunkId : ℤ) (hasSpace : ServerId → Bool) (t : ℕ → ℤ) :
    (∃ r : LayoutManager.WriteLease, r.isNewLease = false ∧ r.status ≠ -ENOSPC ∧
        lm.GetChunkWriteLease chunkId hasSpace t = (r, lm)) ∨
      ∃ v master rest, lm.mChunkToServerMap chunkId = some v ∧ v.chunkServers = master :: rest ∧
        lm.InRecovery (t 0) = false ∧ findLease LeaseInfo.IsValidWriteLease t 1 v.chunkLeases = none ∧
        findLease LeaseInfo.IsValidLease t (1 + v.chunkLeases.length) v.chunkLeases = none ∧
        ((v.chunkServers.all hasSpace = false ∧ lm.GetChunkWriteLease chunkId hasSpace t =
            (⟨-ENOSPC, false, v.chunkServers, none⟩, lm)) ∨
          ∃ k, lm.GetChunkWriteLease chunkId hasSpace t = (⟨0, true, v.chunkServers, some master⟩,
            { lm with mLeaseId := lm.mLeaseId + 1 }.set chunkId
              { v with chunkLeases := [⟨.write, lm.mLeaseId, some master, t k + LEASE_INTERVAL_SECS⟩] })) := by
  unfold LayoutManager.GetChunkWriteLease
  by_cases hr : lm.InRecovery (t 0) = true
  · exact Or.inl ⟨⟨-EBUSY, false, [], none⟩, rfl, by decide, by simp [hr]⟩
  rcases hv : lm.mChunkToServerMap chunkId with - | v
  · exact Or.inl ⟨⟨-EINVAL, false, [], none⟩, rfl, by decide, by simp [hr]⟩
  rcases hs : v.chunkServers with - | ⟨master, rest⟩
  · exact Or.inl ⟨⟨-EDATAUNAVAIL, false, [], none⟩, rfl, by decide, by simp [hr, hs]⟩
  rcases hw : findLease LeaseInfo.IsValidWriteLease t 1 v.chunkLeases with - | l
  swap
  · exact Or.inl ⟨⟨0, false, master :: rest, l.chunkServer⟩, rfl, show (0 : ℤ) ≠ -ENOSPC by decide,
      by simp [hr, hs, hw]⟩
  rcases hl : findLease LeaseInfo.IsValidLease t (1 + v.chunkLeases.length) v.chunkLeases with - | l
  swap
  · exact Or.inl ⟨⟨-EBUSY, false, [], none⟩, rfl, by decide, by simp [hr, hs, hw, hl]⟩
  refine Or.inr ⟨v, master, rest, rfl, hs, by simpa using hr, hw, hl, ?_⟩
  by_cases hsp : (master :: rest).all hasSpace = true
  · right
    refine ⟨1 + v.chunkLeases.length + v.chunkLeases.length, ?_⟩
    simp only [hr, hs, hw, hl, hsp, if_false, not_true_eq_false, Bool.false_eq_true]
  · left
    simp only [hr, hs, hw, hl, hsp, if_false, if_true, not_false_eq_true, Bool.false_eq_true, and_self]

/-- `GetChunkReadLease` fails, or adds a lease. -/
theorem GetChunkReadLease_spec (lm : LayoutManager) (chunkId : ℤ) (t : ℕ → ℤ) :
    (∃ st, st < 0 ∧ lm.GetChunkReadLease chunkId t = (st, 0, lm)) ∨
      ∃ v, lm.mChunkToServerMap chunkId = some v ∧ lm.GetChunkReadLease chunkId t =
        (0, lm.mLeaseId, { lm with mLeaseId := lm.mLeaseId + 1 }.set chunkId { v with
          chunkLeases := v.chunkLeases ++ [(⟨.read, lm.mLeaseId, none, t 1 + LEASE_INTERVAL_SECS⟩ : LeaseInfo)] }) := by
  unfold LayoutManager.GetChunkReadLease
  split_ifs
  · exact Or.inl ⟨-EBUSY, by decide, rfl⟩
  · cases lm.mChunkToServerMap chunkId with
    | none => exact Or.inl ⟨-EINVAL, by decide, rfl⟩
    | some v => exact Or.inr ⟨v, rfl, rfl⟩

/-- `LeaseRenew` takes a lease over, changes nothing, or renews a lease. -/
theorem LeaseRenew_spec (lm : LayoutManager) (chunkId : ℤ) (leaseType : LeaseType) (leaseId : ℤ) (t : ℕ → ℤ) :
    (lm.mChunkToServerMap chunkId = none ∧ lm.InRecovery (t 0) = true ∧
        (lm.LeaseRenew chunkId leaseType leaseId t) =
          (0, { lm with mLeaseId := if leaseId > lm.mLeaseId then leaseId + 1 else lm.mLeaseId }.set chunkId
            { ChunkPlacementInfo.new with
              chunkLeases := [⟨leaseType, leaseId, none, t 1 + LEASE_INTERVAL_SECS⟩] })) ∨
      (¬ (lm.mChunkToServerMap chunkId = none ∧ lm.InRecovery (t 0) = true) ∧
        ((∃ st, st < 0 ∧ lm.LeaseRenew chunkId leaseType leaseId t = (st, lm)) ∨
          ∃ v l, lm.mChunkToServerMap chunkId = some v ∧
            v.chunkLeases.find? (fun l => decide (l.leaseId = leaseId)) = some l ∧ t 0 ≤ l.expires ∧
            lm.LeaseRenew chunkId leaseType leaseId t = (0, lm.set chunkId { v with
              chunkLeases := LayoutManager.renewLease leaseId (t 0 + LEASE_INTERVAL_SECS) v.chunkLeases }))) := by
  unfold LayoutManager.LeaseRenew
  rcases hv : lm.mChunkToServerMap chunkId with - | v
  · by_cases hr : lm.InRecovery (t 0) = true
    · exact Or.inl ⟨rfl, hr, by simp [hr]⟩
    · exact Or.inr ⟨fun h => hr h.2, Or.inl ⟨-EINVAL, by decide, by simp [hr]⟩⟩
  · refine Or.inr ⟨by simp, ?_⟩
    rcases hl : v.chunkLeases.find? (fun l => decide (l.leaseId = leaseId)) with - | l
    · exact Or.inl ⟨-EINVAL, by decide, by simp [hl]⟩
    by_cases hexp : t 0 > l.expires
    · exact Or.inl ⟨-ELEASEEXPIRED, by decide, by simp [hl, hexp]⟩
    · exact Or.inr ⟨v, l, rfl, hl, by omega, by simp [hl, hexp]⟩

/-- **What an operation does to the counter**: nothing, it issues the lease with that id, or it takes a lease
over and moves past it only when it is above. -/
theorem apply_leaseId (lm : LayoutManager) (t : ℕ → ℤ) (e : LayoutEv) :
    (lm.issues t e = none ∧ lm.accepts t e = none ∧ (lm.apply t e).mLeaseId = lm.mLeaseId) ∨
      (lm.issues t e = some lm.mLeaseId ∧ lm.accepts t e = none ∧
        (lm.apply t e).mLeaseId = lm.mLeaseId + 1) ∨
      ∃ i, lm.issues t e = none ∧ lm.accepts t e = some i ∧
        (lm.apply t e).mLeaseId = if i > lm.mLeaseId then i + 1 else lm.mLeaseId := by
  cases e with
  | AllocateChunk chunkId fid n servers =>
    simp only [LayoutManager.apply, LayoutManager.issues, LayoutManager.accepts]
    rcases AllocateChunk_spec lm chunkId fid n servers t with ⟨st, hst, he⟩ | ⟨master, rest, -, he⟩
    · exact Or.inl ⟨by rw [he, if_neg hst.ne], trivial, by rw [he]⟩
    · exact Or.inr (Or.inl ⟨by rw [he, if_pos rfl], trivial, by rw [he]; rfl⟩)
  | GetChunkWriteLease chunkId hasSpace =>
    simp only [LayoutManager.apply, LayoutManager.issues, LayoutManager.accepts]
    rcases GetChunkWriteLease_spec lm chunkId hasSpace t with
      ⟨r, hn, -, he⟩ | ⟨v, master, rest, -, -, -, -, -, ⟨-, he⟩ | ⟨k, he⟩⟩
    · exact Or.inl ⟨by rw [he, hn]; rfl, trivial, by rw [he]⟩
    · exact Or.inl ⟨by rw [he]; rfl, trivial, by rw [he]⟩
    · exact Or.inr (Or.inl ⟨by rw [he, if_pos rfl], trivial, by rw [he]; rfl⟩)
  | GetChunkReadLease chunkId =>
    simp only [LayoutManager.apply, LayoutManager.issues, LayoutManager.accepts]
    rcases GetChunkReadLease_spec lm chunkId t with ⟨st, hst, he⟩ | ⟨v, -, he⟩
    · exact Or.inl ⟨by rw [he, if_neg hst.ne], trivial, by rw [he]⟩
    · exact Or.inr (Or.inl ⟨by rw [he, if_pos rfl], trivial, by rw [he]; rfl⟩)
  | LeaseRenew chunkId leaseType leaseId =>
    simp only [LayoutManager.apply, LayoutManager.issues, LayoutManager.accepts]
    rcases LeaseRenew_spec lm chunkId leaseType leaseId t with
      ⟨hv, hr, he⟩ | ⟨hn, ⟨st, -, he⟩ | ⟨v, l, -, -, -, he⟩⟩
    · exact Or.inr (Or.inr ⟨leaseId, trivial, if_pos ⟨hv, hr⟩, by rw [he]; rfl⟩)
    · exact Or.inl ⟨trivial, if_neg hn, by rw [he]⟩
    · exact Or.inl ⟨trivial, if_neg hn, by rw [he]; rfl⟩
  | LeaseCleanup => exact Or.inl ⟨rfl, rfl, rfl⟩
  | ServerDown server =>
    refine Or.inl ⟨rfl, rfl, ?_⟩
    simp only [LayoutManager.apply, LayoutManager.ServerDown]
    split_ifs <;> rfl
  | join server => exact Or.inl ⟨rfl, rfl, rfl⟩
  | UpdateChunkToServerMapping chunkId server =>
    refine Or.inl ⟨rfl, rfl, ?_⟩
    simp only [LayoutManager.apply, LayoutManager.UpdateChunkToServerMapping]
    cases lm.mChunkToServerMap chunkId <;> rfl
  | AddChunkToServerMapping chunkId fid => exact Or.inl ⟨rfl, rfl, rfl⟩
  | RemoveChunkToServerMapping chunkId => exact Or.inl ⟨rfl, rfl, rfl⟩
  | DeleteChunk chunkId =>
    refine Or.inl ⟨rfl, rfl, ?_⟩
    simp only [LayoutManager.apply, LayoutManager.DeleteChunk]
    split
    · rfl
    · split_ifs <;> rfl
  | ChunkCorrupt server fid chunkId =>
    refine Or.inl ⟨rfl, rfl, ?_⟩
    simp only [LayoutManager.apply, LayoutManager.ChunkCorrupt]
    split
    · rfl
    · split_ifs <;> rfl

/-! ## Runs -/

/-- The ids are distinct, and all of them are below the counter. -/
structure IdsBelow (lm : LayoutManager) (issued accepted : List ℤ) : Prop extends Distinct issued accepted where
  issued_lt : ∀ i ∈ issued, i < lm.mLeaseId
  accepted_lt : ∀ i ∈ accepted, i < lm.mLeaseId

theorem IdsBelow.step (h : IdsBelow lm issued accepted) (hC : OldId lm issued t e) :
    IdsBelow (lm.apply t e) ((lm.issues t e).toList ++ issued) ((lm.accepts t e).toList ++ accepted) := by
  rcases apply_leaseId lm t e with ⟨hi, ha, hl⟩ | ⟨hi, ha, hl⟩ | ⟨i, hi, ha, hl⟩
  · rw [hi, ha]
    exact ⟨⟨h.nodup, h.apart⟩, fun i hm => hl ▸ h.issued_lt i hm, fun i hm => hl ▸ h.accepted_lt i hm⟩
  · -- the new id is above all others
    rw [hi, ha, Option.toList_some, Option.toList_none, List.nil_append, List.singleton_append]
    refine ⟨⟨List.nodup_cons.mpr ⟨fun hm => ?_, h.nodup⟩, fun i hm hc => ?_⟩, fun i hm => ?_, fun i hm => ?_⟩
    · exact absurd (h.issued_lt _ hm) (lt_irrefl _)
    · rcases List.mem_cons.mp hc with rfl | hc
      · exact absurd (h.accepted_lt _ hm) (lt_irrefl _)
      · exact h.apart i hm hc
    · rw [hl]
      rcases List.mem_cons.mp hm with rfl | hm
      · exact lt_add_one _
      · have := h.issued_lt i hm
        omega
    · have := h.accepted_lt i hm
      omega
  · obtain ⟨hne, hni⟩ := hC i (Option.mem_def.mpr ha)
    have hle : lm.mLeaseId ≤ (lm.apply t e).mLeaseId := by
      rw [hl]
      split_ifs <;> omega
    rw [hi, ha, Option.toList_some, Option.toList_none, List.nil_append, List.singleton_append]
    refine ⟨⟨h.nodup, fun j hm => ?_⟩, fun j hm => (h.issued_lt j hm).trans_le hle, fun j hm => ?_⟩
    · rcases List.mem_cons.mp hm with rfl | hm
      · exact hni
      · exact h.apart j hm
    · rcases List.mem_cons.mp hm with rfl | hm
      · rw [hl]
        split_ifs <;> omega
      · exact (h.accepted_lt j hm).trans_le hle

/-- **No lease is issued with the id of another lease** of the same run, in any run in which no lease that is
taken over has the next id, or one that has been issued. -/
theorem lease_ids_distinct (hr : IdRun OldId lm₀ now₀ lm now issued accepted) :
    Distinct issued accepted := by
  suffices h : IdsBelow lm issued accepted from h.toDistinct
  induction hr with
  | nil => exact ⟨⟨List.nodup_nil, by simp⟩, by simp, by simp⟩
  | step e c _ hC ih => exact ih.step hC

/-- Recovery takes the lease 7 over, and a chunk is allocated. -/
theorem recovered_ids_distinct : ∃ lm, IdRun OldId LayoutManager.fresh 0 lm 2 [8] [7] ∧ Distinct [8] [7] := by
  have hr : IdRun OldId LayoutManager.fresh 0 _ 2 [8] [7] :=
    .step (.AllocateChunk 5 3 1 [0]) (Clock.still 1 2 (by decide))
      (.step (.LeaseRenew 4 .write 7) (Clock.still 0 1 (by decide)) .nil (by simp [OldId, LayoutManager.accepts,
        LayoutManager.fresh])) (by simp [OldId, LayoutManager.accepts])
  exact ⟨_, hr, lease_ids_distinct hr⟩

/-- Recovery takes a lease over whose id is the next one; the allocation after it issues that id again. -/
theorem nextId_not_distinct : ∃ lm, IdRun (fun _ _ _ _ => True) LayoutManager.fresh 0 lm 2 [1] [1] ∧
    ¬ Distinct [1] [1] := by
  have hr : IdRun (fun _ _ _ _ => True) LayoutManager.fresh 0 _ 2 [1] [1] :=
    .step (.AllocateChunk 5 3 1 [0]) (Clock.still 1 2 (by decide))
      (.step (.LeaseRenew 4 .write 1) (Clock.still 0 1 (by decide)) .nil trivial) trivial
  exact ⟨_, hr, fun h => h.apart 1 (by simp) (by simp)⟩

end Kfs
