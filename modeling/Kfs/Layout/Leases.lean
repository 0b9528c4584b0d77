import Kfs.Layout.Model

/-!
# Write leases are exclusive

* `LayoutEv`, `LayoutRun`: any order of the operations of the layout manager, under a clock that does not go
  back;
* `Exclusive`: no chunk has two valid write leases; every operation keeps it (`apply_exclusive`);
* **`write_lease_exclusive`**: it holds along every run, and a write lease is issued only on a chunk without a
  valid lease.
-/

namespace Kfs

/-! ## Runs -/

inductive LayoutEv
  | AllocateChunk (chunkId fid numReplicas : ℤ) (servers : List ServerId)
  | GetChunkWriteLease (chunkId : ℤ) (hasSpace : ServerId → Bool)
  | GetChunkReadLease (chunkId : ℤ)
  | LeaseRenew (chunkId : ℤ) (leaseType : LeaseType) (leaseId : ℤ)
  | LeaseCleanup
  | ServerDown (server : ServerId)
  /-- a server has joined -/
  | join (server : ServerId)
  /-- a server has a copy of a chunk -/
  | UpdateChunkToServerMapping (chunkId : ℤ) (server : ServerId)
  | AddChunkToServerMapping (chunkId fid : ℤ)
  | RemoveChunkToServerMapping (chunkId : ℤ)
  | DeleteChunk (chunkId : ℤ)
  | ChunkCorrupt (server : ServerId) (fid chunkId : ℤ)

def LayoutManager.apply (lm : LayoutManager) (t : ℕ → ℤ) : LayoutEv → LayoutManager
  | .AllocateChunk chunkId fid n servers => (lm.AllocateChunk chunkId fid n servers t).2
  | .GetChunkWriteLease chunkId hasSpace => (lm.GetChunkWriteLease chunkId hasSpace t).2
  | .GetChunkReadLease chunkId => (lm.GetChunkReadLease chunkId t).2.2
  | .LeaseRenew chunkId leaseType leaseId => (lm.LeaseRenew chunkId leaseType leaseId t).2
  | .LeaseCleanup => lm.LeaseCleanup t
  | .ServerDown server => lm.ServerDown server
  | .join server => { lm with mChunkServers := lm.mChunkServers ++ [server] }
  | .UpdateChunkToServerMapping chunkId server => (lm.UpdateChunkToServerMapping chunkId server).getD lm
  | .AddChunkToServerMapping chunkId fid => lm.AddChunkToServerMapping chunkId fid
  | .RemoveChunkToServerMapping chunkId => lm.RemoveChunkToServerMapping chunkId
  | .DeleteChunk chunkId => (lm.DeleteChunk chunkId).2
  | .ChunkCorrupt server fid chunkId => lm.ChunkCorrupt server fid chunkId

/-- A run of the layout manager, with the clock before and after it. -/
inductive LayoutRun (lm₀ : LayoutManager) (now₀ : ℤ) : LayoutManager → ℤ → Prop
  | nil : LayoutRun lm₀ now₀ lm₀ now₀
  | step {lm now stop} (e : LayoutEv) (c : Clock now stop) : LayoutRun lm₀ now₀ lm now →
      LayoutRun lm₀ now₀ (lm.apply c.read e) stop

/-! ## The invariant -/

/-- No chunk has two write leases that are valid now. -/
def Exclusive (lm : LayoutManager) (now : ℤ) : Prop :=
  ∀ c v, lm.mChunkToServerMap c = some v → v.chunkLeases.countP (·.IsValidWriteLease now) ≤ 1

variable {lm : LayoutManager} {now stop : ℤ} {ls : List LeaseInfo}

theorem isValidLease_mono {l : LeaseInfo} (h : now ≤ stop) (hv : l.IsValidLease stop = true) :
    l.IsValidLease now = true := by
  simp only [LeaseInfo.IsValidLease, decide_eq_true_eq] at hv ⊢
  omega

theorem isValidWriteLease_mono {l : LeaseInfo} (h : now ≤ stop) (hv : l.IsValidWriteLease stop = true) :
    l.IsValidWriteLease now = true := by
  simp only [LeaseInfo.IsValidWriteLease, Bool.and_eq_true] at hv ⊢
  exact ⟨hv.1, isValidLease_mono h hv.2⟩

/-- Leases only run out as time passes. -/
theorem countP_valid_le (h : now ≤ stop) (ls : List LeaseInfo) :
    ls.countP (·.IsValidWriteLease stop) ≤ ls.countP (·.IsValidWriteLease now) :=
  List.countP_mono_left fun _ _ hv => isValidWriteLease_mono h hv

/-- A renewal of a lease that is valid makes no further lease valid. -/
theorem countP_renewLease {leaseId : ℤ} {l : LeaseInfo} {e : ℤ} (h : now ≤ stop) :
    ∀ {ls : List LeaseInfo}, ls.find? (fun l => decide (l.leaseId = leaseId)) = some l →
      l.IsValidLease now = true →
      (LayoutManager.renewLease leaseId e ls).countP (·.IsValidWriteLease stop) ≤
        ls.countP (·.IsValidWriteLease now)
  | [], hf, _ => by simp at hf
  | x :: ls, hf, hv => by
    rw [LayoutManager.renewLease]
    by_cases hx : x.leaseId = leaseId
    · obtain rfl : x = l := by simpa [hx] using hf
      have hle := countP_valid_le h ls
      rw [if_pos hx, List.countP_cons, List.countP_cons]
      by_cases hw : x.leaseType = .write
      · have h₁ : x.IsValidWriteLease now = true := by simp [LeaseInfo.IsValidWriteLease, hw, hv]
        rw [if_pos h₁]
        split_ifs <;> omega
      · have h₁ : LeaseInfo.IsValidWriteLease stop { x with expires := e } = false := by
          simp [LeaseInfo.IsValidWriteLease, hw]
        rw [h₁]
        simp only [Bool.false_eq_true, if_false]
        omega
    · rw [List.find?_cons_of_neg (by simpa using hx)] at hf
      have ih := countP_renewLease (e := e) h hf hv
      have hle : (if x.IsValidWriteLease stop = true then 1 else 0) ≤
          (if x.IsValidWriteLease now = true then 1 else 0) := by
        split_ifs with h₁ h₂
        · exact le_rfl
        · exact absurd (isValidWriteLease_mono h h₁) h₂
        · exact Nat.zero_le 1
        · exact le_rfl
      rw [if_neg hx, List.countP_cons, List.countP_cons]
      omega

namespace Exclusive

/-- Time passes. -/
theorem later (h : Exclusive lm now) (hle : now ≤ stop) : Exclusive lm stop := fun c v hv =>
  (countP_valid_le hle v.chunkLeases).trans (h c v hv)

/-- The map is changed entry by entry, and no entry gets more valid write leases. -/
theorem of_map {lm' : LayoutManager} (h : Exclusive lm now)
    (hm : ∀ c v', lm'.mChunkToServerMap c = some v' → ∃ v, lm.mChunkToServerMap c = some v ∧
      v'.chunkLeases.countP (·.IsValidWriteLease now) ≤ v.chunkLeases.countP (·.IsValidWriteLease now)) :
    Exclusive lm' now := by
  intro c v' hv'
  obtain ⟨v, hv, hle⟩ := hm c v' hv'
  exact hle.trans (h c v hv)

theorem set (h : Exclusive lm now) {chunkId : ℤ} {v : ChunkPlacementInfo}
    (hv : v.chunkLeases.countP (·.IsValidWriteLease now) ≤ 1) : Exclusive (lm.set chunkId v) now := by
  intro c w hw
  by_cases hc : c = chunkId
  · subst hc
    obtain rfl : v = w := by simpa using hw
    exact hv
  · exact h c w (by simpa [hc] using hw)

theorem erase (h : Exclusive lm now) (chunkId : ℤ) : Exclusive (lm.erase chunkId) now := by
  intro c w hw
  by_cases hc : c = chunkId
  · simp [hc] at hw
  · exact h c w (by simpa [hc] using hw)

end Exclusive

theorem countP_single_le {p : LeaseInfo → Bool} (l : LeaseInfo) : [l].countP p ≤ 1 := List.countP_le_length

/-- **Every operation of the layout manager keeps write leases exclusive.** -/
theorem apply_exclusive (h : Exclusive lm now) (c : Clock now stop) (e : LayoutEv) :
    Exclusive (lm.apply c.read e) stop := by
  have h' := h.later c.le
  cases e with
  | AllocateChunk chunkId fid n servers =>
    simp only [LayoutManager.apply, LayoutManager.AllocateChunk]
    split_ifs
    · exact h'
    · cases servers with
      | nil => exact h'
      | cons master servers =>
        have h₁ : Exclusive { lm with mLeaseId := lm.mLeaseId + 1 } stop := h'
        exact h₁.set (countP_single_le _)
  | GetChunkWriteLease chunkId hasSpace =>
    simp only [LayoutManager.apply, LayoutManager.GetChunkWriteLease]
    split_ifs
    · exact h'
    · split
      · exact h'
      · split
        · exact h'
        · split
          · exact h'
          · split
            · exact h'
            · split
              · exact h'
              · have h₁ : Exclusive { lm with mLeaseId := lm.mLeaseId + 1 } stop := h'
                exact h₁.set (countP_single_le _)
  | GetChunkReadLease chunkId =>
    simp only [LayoutManager.apply, LayoutManager.GetChunkReadLease]
    split_ifs
    · exact h'
    · split
      · exact h'
      · rename_i v hv
        have h₁ : Exclusive { lm with mLeaseId := lm.mLeaseId + 1 } stop := h'
        refine h₁.set ?_
        simpa [LeaseInfo.IsValidWriteLease] using h' chunkId v hv
  | LeaseRenew chunkId leaseType leaseId =>
    simp only [LayoutManager.apply, LayoutManager.LeaseRenew]
    split
    · split
      · refine Exclusive.set ?_ (countP_single_le _)
        exact h'
      · exact h'
    · rename_i v hv
      split
      · exact h'
      · rename_i l hl
        split_ifs with hexp
        · exact h'
        · -- the lease is valid at the reading, when at most one write lease is
          have hvalid : l.IsValidLease (c.read 0) = true := by
            simp only [LeaseInfo.IsValidLease, decide_eq_true_eq]
            omega
          refine h'.set ?_
          have hle := countP_renewLease (e := c.read 0 + LEASE_INTERVAL_SECS) (c.before 0) hl hvalid
          exact hle.trans (h.later c.after chunkId v hv)
  | LeaseCleanup =>
    refine h'.of_map fun chunkId v' hv' => ?_
    obtain ⟨v, hv, rfl⟩ := Option.map_eq_some_iff.mp hv'
    exact ⟨v, hv, List.Sublist.countP_le List.filter_sublist⟩
  | ServerDown server =>
    simp only [LayoutManager.apply, LayoutManager.ServerDown]
    split_ifs
    · refine h'.of_map fun chunkId v' hv' => ?_
      obtain ⟨v, hv, rfl⟩ := Option.map_eq_some_iff.mp hv'
      exact ⟨v, hv, le_rfl⟩
    · exact h'
  | join server => exact h'
  | UpdateChunkToServerMapping chunkId server =>
    simp only [LayoutManager.apply, LayoutManager.UpdateChunkToServerMapping]
    cases hv : lm.mChunkToServerMap chunkId with
    | none => exact h'
    | some v => exact h'.set (h' chunkId v hv)
  | AddChunkToServerMapping chunkId fid => exact h'.set (Nat.zero_le 1)
  | RemoveChunkToServerMapping chunkId => exact h'.erase chunkId
  | DeleteChunk chunkId =>
    simp only [LayoutManager.apply, LayoutManager.DeleteChunk]
    split
    · exact h'
    · split_ifs
      · exact h'
      · exact h'.erase chunkId
  | ChunkCorrupt server fid chunkId =>
    simp only [LayoutManager.apply, LayoutManager.ChunkCorrupt]
    split
    · exact h'
    · rename_i v hv
      split_ifs
      · exact h'
      · exact h'.set (h' chunkId v hv)

/-! ## New write leases -/

/-- A lease that was not valid when the scan came to it is not valid after the scan. -/
theorem findLease_none {t : ℕ → ℤ} (ht : Monotone t) : ∀ {ls : List LeaseInfo} {k : ℕ},
    findLease LeaseInfo.IsValidLease t k ls = none → ∀ l ∈ ls, l.IsValidLease (t (k + ls.length)) = false
  | [], _, _ => by simp
  | x :: ls, k, hf => by
    rw [findLease] at hf
    split_ifs at hf with hx
    intro l hl
    have hlen : k + (x :: ls).length = k + 1 + ls.length := by
      rw [List.length_cons]
      omega
    rcases List.mem_cons.mp hl with rfl | hl
    · by_contra hv
      rw [Bool.not_eq_false] at hv
      exact hx (isValidLease_mono (ht (Nat.le_add_right k _)) hv)
    · rw [hlen]
      exact findLease_none ht hf l hl

/-- `GetChunkWriteLease` issues a lease only on a chunk without a lease that is valid when the new one
begins. -/
theorem newLease_none_valid {chunkId : ℤ} {hasSpace : ServerId → Bool} {t : ℕ → ℤ} (ht : Monotone t)
    (h : (lm.GetChunkWriteLease chunkId hasSpace t).1.isNewLease = true) :
    ∃ v, lm.mChunkToServerMap chunkId = some v ∧
      ∀ l ∈ v.chunkLeases, l.IsValidLease (t (1 + v.chunkLeases.length + v.chunkLeases.length)) = false := by
  unfold LayoutManager.GetChunkWriteLease at h
  split_ifs at h
  split at h
  · cases h
  · rename_i v hv
    refine ⟨v, hv, ?_⟩
    dsimp only at h
    split at h
    · cases h
    · split at h
      · cases h
      · split at h
        · cases h
        · rename_i hf
          exact findLease_none ht hf

/-- **Write leases are exclusive**: along every run of the layout manager no chunk ever has two valid write
leases, and a new write lease is issued only on a chunk that has no valid lease of any type at that time. -/
theorem write_lease_exclusive {lm₀ : LayoutManager} {now₀ : ℤ}
    (h₀ : ∀ c v, lm₀.mChunkToServerMap c = some v → v.chunkLeases = []) (hr : LayoutRun lm₀ now₀ lm now) :
    (∀ c v, lm.mChunkToServerMap c = some v → v.chunkLeases.countP (·.IsValidWriteLease now) ≤ 1) ∧
      ∀ (stop : ℤ) (c : Clock now stop) (chunkId : ℤ) (hasSpace : ServerId → Bool),
        (lm.GetChunkWriteLease chunkId hasSpace c.read).1.isNewLease = true →
        ∃ v, lm.mChunkToServerMap chunkId = some v ∧ ∀ l ∈ v.chunkLeases,
          l.IsValidLease (c.read (1 + v.chunkLeases.length + v.chunkLeases.length)) = false := by
  refine ⟨?_, fun stop c chunkId hasSpace h => newLease_none_valid c.mono h⟩
  change Exclusive lm now
  induction hr with
  | nil =>
    intro c v hv
    simp [h₀ c v hv]
  | step e c _ ih => exact apply_exclusive ih c e

/-- A layout manager that has just started, out of recovery from time 61 on. -/
def LayoutManager.fresh : LayoutManager := ⟨fun _ => none, 1, [], 0, 0⟩

/-- Chunk 7 is written to, and leased for reading and again for writing when the first lease has run out. -/
def leaseRun : LayoutManager :=
  ((LayoutManager.fresh.apply (fun _ => 100) (.AllocateChunk 7 3 1 [0])).apply (fun _ => 130)
    (.GetChunkReadLease 7)).apply (fun _ => 161) (.LeaseRenew 7 .read 2)

theorem leaseRun_exclusive : ∃ v, leaseRun.mChunkToServerMap 7 = some v ∧ v.chunkLeases.length = 2 ∧
    v.chunkLeases.countP (·.IsValidWriteLease 161) ≤ 1 := by
  have hr₁ : LayoutRun LayoutManager.fresh 100 _ 100 :=
    .step (.AllocateChunk 7 3 1 [0]) (Clock.still 100 100 le_rfl) .nil
  have hr₂ : LayoutRun LayoutManager.fresh 100 _ 130 :=
    .step (.GetChunkReadLease 7) (Clock.still 100 130 (by decide)) hr₁
  have hr : LayoutRun LayoutManager.fresh 100 leaseRun 161 :=
    .step (.LeaseRenew 7 .read 2) (Clock.still 130 161 (by decide)) hr₂
  obtain ⟨v, hv, hlen⟩ : ∃ v, leaseRun.mChunkToServerMap 7 = some v ∧ v.chunkLeases.length = 2 :=
    ⟨_, rfl, rfl⟩
  exact ⟨v, hv, hlen, (write_lease_exclusive (by simp [LayoutManager.fresh]) hr).1 7 v hv⟩

end Kfs
