import Kfs.Lib.Classes
import Kfs.Lib.Least
import Kfs.Layout.Moves

/-!
# The copies that are discarded

`DeleteAddlChunkReplicas` with the requests that it sends. It keeps a copy on each rack when there are as many racks as
copies to keep, and otherwise the copies on the servers with the most space, wherever they are.

* `splitPerRack`, `discardAddlChunkReplicas`: the copies that are kept, and those that are discarded;
* `splitCopies_split`: every copy is kept, or discarded by one request;
* `SpreadByLoad`, **`discard_spread_iff`**: exactly when the copies that are kept are on as many racks as they can be.
-/

namespace Kfs

open Lib

namespace Placement

/-- The loop over the servers that keeps one copy on each rack, with the copies that it discards. -/
def splitPerRack (st : Placement) : List ServerId → List ℤ → List ServerId × List ServerId
  | [], _ => ([], [])
  | s :: ss, chosenRacks =>
    if (st.info s).mRackId ∉ chosenRacks then
      let (kept, copiesToDiscard) := splitPerRack st ss ((st.info s).mRackId :: chosenRacks)
      (s :: kept, copiesToDiscard)
    else
      let (kept, copiesToDiscard) := splitPerRack st ss chosenRacks
      (kept, s :: copiesToDiscard)

/-- The copies that are kept and those that are discarded, of the servers in the order of their load. -/
def splitCopies (st : Placement) (servers : List ServerId) (numReplicas : ℕ) : List ServerId × List ServerId :=
  if (st.racksOf false servers).dedup.length = numReplicas then st.splitPerRack servers []
  else (servers.take numReplicas, servers.drop numReplicas)

/-- `DeleteAddlChunkReplicas`, with the servers that `ChunkDeletor` sends a request to. -/
def discardAddlChunkReplicas (st : Placement) (chunkId : ℤ) (clli : ChunkPlacementInfo) (extraReplicas : ℕ)
    (w : Visit) : Placement × List ServerId :=
  if clli.chunkServers.any fun s => (st.info s).mIsRetiring then (st, [])
  else
    let servers := st.SortServersByUtilization clli.chunkServers (w.servers 0)
    let (kept, copiesToDiscard) := st.splitCopies servers (clli.chunkServers.length - extraReplicas)
    (st.setEntry chunkId { clli with chunkServers := kept }, copiesToDiscard)

/-- The racks that servers are on, counted. -/
def numRacks (st : Placement) (servers : List ServerId) : ℕ := classes (fun s => (st.info s).mRackId) servers

/-- The servers of the entry and those that are sent a request are the servers of the chunk, one for each copy, and the
servers of the entry are on as many racks as they can be. -/
def KeepsSpread (st : Placement) (chunkId : ℤ) (clli : ChunkPlacementInfo) (extraReplicas : ℕ) (w : Visit) : Prop :=
  let n := clli.chunkServers.length
  let (st', copiesToDiscard) := st.discardAddlChunkReplicas chunkId clli extraReplicas w
  ∃ v, st'.entry chunkId = some v ∧ v.chunkServers.length = n - extraReplicas ∧
    copiesToDiscard.length = extraReplicas ∧ (v.chunkServers ++ copiesToDiscard).Perm clli.chunkServers ∧
    st.numRacks v.chunkServers = min (n - extraReplicas) (st.numRacks clli.chunkServers)

/-- The loads of the servers spread the `k` least loaded ones, when there are fewer racks than `k`, and when there are
more. -/
structure SpreadByLoad (st : Placement) (servers : List ServerId) (k : ℕ) : Prop where
  /-- Every rack has a server with fewer than `k` servers of other racks up to its load. -/
  fewer : st.numRacks servers < k → ∀ r ∈ servers, ∃ s ∈ servers, (st.info s).mRackId = (st.info r).mRackId ∧
    (servers.countP fun t => decide ((st.info t).mRackId ≠ (st.info r).mRackId ∧
      (st.info t).GetSpaceUtilization ≤ (st.info s).GetSpaceUtilization)) < k
  /-- Of two servers on one rack the upper one has `k - 1` others below it. -/
  more : k < st.numRacks servers → ∀ a ∈ servers, ∀ b ∈ servers, a ≠ b → (st.info a).mRackId = (st.info b).mRackId →
    (st.info a).GetSpaceUtilization ≤ (st.info b).GetSpaceUtilization →
    k < (servers.countP fun t =>
      decide (t ≠ a ∧ (st.info t).GetSpaceUtilization < (st.info b).GetSpaceUtilization)) + 2

variable {st : Placement} {chunkId : ℤ} {clli : ChunkPlacementInfo} {extraReplicas : ℕ} {w : Visit}

/-! ## One copy on each rack -/

theorem splitPerRack_fst (st : Placement) : ∀ (ss : List ServerId) (racks : List ℤ),
    (st.splitPerRack ss racks).1 = st.onePerRack ss racks
  | [], _ => rfl
  | s :: ss, racks => by
    rw [splitPerRack, onePerRack]
    split_ifs
    · exact splitPerRack_fst st ss racks
    · exact congrArg (s :: ·) (splitPerRack_fst st ss _)

theorem splitPerRack_perm (st : Placement) : ∀ (ss : List ServerId) (racks : List ℤ),
    ((st.splitPerRack ss racks).1 ++ (st.splitPerRack ss racks).2).Perm ss
  | [], _ => List.Perm.refl _
  | s :: ss, racks => by
    rw [splitPerRack]
    split_ifs
    · exact List.perm_middle.trans ((splitPerRack_perm st ss racks).cons s)
    · exact (splitPerRack_perm st ss _).cons s

/-- The racks of the copies that are kept are those that were not chosen before. -/
theorem onePerRack_racks (st : Placement) : ∀ (ss : List ServerId) (racks : List ℤ),
    ((st.onePerRack ss racks).map fun s => (st.info s).mRackId).Nodup ∧
      ∀ r, r ∈ (st.onePerRack ss racks).map (fun s => (st.info s).mRackId) ↔
        r ∈ ss.map (fun s => (st.info s).mRackId) ∧ r ∉ racks
  | [], _ => ⟨List.nodup_nil, by simp [onePerRack]⟩
  | s :: ss, racks => by
    rw [onePerRack]
    split_ifs with hs
    · obtain ⟨hnd, hmem⟩ := onePerRack_racks st ss racks
      refine ⟨hnd, fun r => ?_⟩
      rw [hmem, List.map_cons, List.mem_cons]
      constructor
      · rintro ⟨hr, hn⟩
        exact ⟨.inr hr, hn⟩
      · rintro ⟨rfl | hr, hn⟩
        · exact absurd hs hn
        · exact ⟨hr, hn⟩
    · obtain ⟨hnd, hmem⟩ := onePerRack_racks st ss ((st.info s).mRackId :: racks)
      refine ⟨?_, fun r => ?_⟩
      · rw [List.map_cons, List.nodup_cons]
        exact ⟨fun h => ((hmem _).mp h).2 List.mem_cons_self, hnd⟩
      · rw [List.map_cons, List.map_cons, List.mem_cons, hmem, List.mem_cons, List.mem_cons]
        by_cases hr : r = (st.info s).mRackId
        · simp [hr, hs]
        · simp [hr]

theorem onePerRack_numRacks (st : Placement) (ss : List ServerId) : st.numRacks (st.onePerRack ss []) = st.numRacks ss ∧
    (st.onePerRack ss []).length = st.numRacks ss := by
  obtain ⟨hnd, hmem⟩ := onePerRack_racks st ss []
  have heq : st.numRacks (st.onePerRack ss []) = st.numRacks ss := by
    refine (classes_eq_iff (onePerRack_sublist st ss []).subset).mpr fun s hs => ?_
    exact List.mem_map.mp ((hmem _).mpr ⟨List.mem_map_of_mem hs, List.not_mem_nil⟩)
  exact ⟨heq, (classes_eq_length_iff.mpr hnd).symm.trans heq⟩

/-! ## The copies -/

theorem numRacks_eq (st : Placement) (ss : List ServerId) : (st.racksOf false ss).dedup.length = st.numRacks ss := by
  simp only [racksOf, Bool.false_and, Bool.not_false, List.filter_true]
  exact classes_eq_dedup _ ss

/-- The entry is what `DeleteAddlChunkReplicas` makes it. -/
theorem discardAddlChunkReplicas_fst : (st.discardAddlChunkReplicas chunkId clli extraReplicas w).1 =
    st.DeleteAddlChunkReplicas chunkId clli extraReplicas w := by
  unfold discardAddlChunkReplicas DeleteAddlChunkReplicas
  split_ifs
  · rfl
  · dsimp only
    unfold splitCopies
    split_ifs
    · rw [← splitPerRack_fst]
    · rfl

/-- **Every copy is kept, or discarded by one request**, and as many are kept as are asked for. -/
theorem splitCopies_split (st : Placement) {servers : List ServerId} {k : ℕ} (hk : k ≤ servers.length) :
    (st.splitCopies servers k).1.length = k ∧
      ((st.splitCopies servers k).1 ++ (st.splitCopies servers k).2).Perm servers := by
  unfold splitCopies
  rw [numRacks_eq]
  split_ifs with h
  · refine ⟨?_, splitPerRack_perm st servers []⟩
    rw [splitPerRack_fst, (onePerRack_numRacks st servers).2, h]
  · refine ⟨List.length_take_of_le hk, ?_⟩
    rw [List.take_append_drop]

/-- The racks of the copies that are kept. -/
theorem splitCopies_numRacks (st : Placement) {servers : List ServerId} {k : ℕ} (hk : k ≤ servers.length) :
    st.numRacks (st.splitCopies servers k).1 = min k (st.numRacks servers) ↔ st.numRacks servers = k ∨
      if k ≤ st.numRacks servers then ((servers.take k).map fun s => (st.info s).mRackId).Nodup
      else ∀ s ∈ servers, ∃ s' ∈ servers.take k, (st.info s').mRackId = (st.info s).mRackId := by
  unfold splitCopies
  rw [numRacks_eq]
  by_cases h : st.numRacks servers = k
  · rw [if_pos h, splitPerRack_fst, (onePerRack_numRacks st servers).1]
    exact iff_of_true (by omega) (.inl h)
  · rw [if_neg h]
    have htake := classes_take_iff (f := fun s => (st.info s).mRackId) hk
    exact htake.trans ⟨.inr, fun hc => hc.resolve_left h⟩

/-- The racks of the copies that are kept after a visit. -/
theorem keepsSpread_iff (hret : ∀ s ∈ clli.chunkServers, (st.info s).mIsRetiring = false)
    (he : extraReplicas < clli.chunkServers.length) {k : ℕ} (hk : clli.chunkServers.length - extraReplicas = k) :
    st.KeepsSpread chunkId clli extraReplicas w ↔ st.numRacks clli.chunkServers = k ∨
      if k ≤ st.numRacks clli.chunkServers then
        (((st.SortServersByUtilization clli.chunkServers (w.servers 0)).take k).map fun s =>
          (st.info s).mRackId).Nodup
      else ∀ r ∈ clli.chunkServers, ∃ s ∈ (st.SortServersByUtilization clli.chunkServers (w.servers 0)).take k,
        (st.info s).mRackId = (st.info r).mRackId := by
  have hperm := SortServersByUtilization_perm st clli.chunkServers (w.servers 0)
  have hracks : st.numRacks (st.SortServersByUtilization clli.chunkServers (w.servers 0)) =
      st.numRacks clli.chunkServers := classes_perm hperm
  have hnot : ¬ (clli.chunkServers.any fun s => (st.info s).mIsRetiring) = true := by simpa using hret
  unfold KeepsSpread discardAddlChunkReplicas
  rw [if_neg hnot, hk]
  dsimp only
  generalize st.SortServersByUtilization clli.chunkServers (w.servers 0) = servers at hperm hracks ⊢
  have hlen := hperm.length_eq
  have hle : k ≤ servers.length := by omega
  obtain ⟨hkept, hsplit⟩ := splitCopies_split st hle
  have hiff := splitCopies_numRacks st hle
  rw [hracks] at hiff
  have hcov : (∀ s ∈ servers, ∃ s' ∈ servers.take k, (st.info s').mRackId = (st.info s).mRackId) ↔
      ∀ s ∈ clli.chunkServers, ∃ s' ∈ servers.take k, (st.info s').mRackId = (st.info s).mRackId :=
    ⟨fun h s hs => h s (hperm.mem_iff.mpr hs), fun h s hs => h s (hperm.mem_iff.mp hs)⟩
  rw [hcov] at hiff
  refine Iff.trans ?_ hiff
  generalize st.splitCopies servers k = split at hkept hsplit ⊢
  have hdiscard : split.2.length = extraReplicas := by
    have := hsplit.length_eq
    rw [List.length_append] at this
    omega
  constructor
  · rintro ⟨v, hv, -, -, -, hr⟩
    rw [setEntry_entry, Function.update_self] at hv
    obtain rfl := Option.some.inj hv
    exact hk ▸ hr
  · intro hr
    exact ⟨_, by rw [setEntry_entry, Function.update_self], hk ▸ hkept, hdiscard, hsplit.trans hperm, hk ▸ hr⟩

/-! ## The order of the loads -/

/-- The sort may leave the servers in any order in which the load does not decrease. -/
theorem forall_visit_iff {servers : List ServerId} {C : List ServerId → Prop} :
    (∀ w : Visit, C (st.SortServersByUtilization servers (w.servers 0))) ↔
      ∀ p, Sorts (fun s => (st.info s).GetSpaceUtilization) servers p → C p := by
  constructor
  · intro h p hp
    let σ : Shuffle ServerId :=
      ⟨fun l => if l = servers then p else l, fun l => by
        split_ifs with hl
        · exact hl ▸ hp.perm
        · exact List.Perm.refl l⟩
    have hsort : st.SortServersByUtilization servers σ = p := by
      have hσ : σ.shuffle servers = p := if_pos rfl
      rw [SortServersByUtilization, hσ]
      exact List.mergeSort_of_pairwise (hp.sorted.imp decide_eq_true)
    exact hsort ▸ h ⟨fun _ => 0, fun _ => Shuffle.id _, fun _ => σ⟩
  · intro h w
    have hs := sorts_mergeSort (fun s => (st.info s).GetSpaceUtilization) ((w.servers 0).shuffle servers)
    exact h _ ⟨hs.perm.trans ((w.servers 0).perm servers), hs.sorted⟩

theorem forall_nodup_iff {servers : List ServerId} (hnd : servers.Nodup) {k : ℕ} :
    (∀ p, Sorts (fun s => (st.info s).GetSpaceUtilization) servers p →
      ((p.take k).map fun s => (st.info s).mRackId).Nodup) ↔
    ∀ a ∈ servers, ∀ b ∈ servers, a ≠ b → (st.info a).mRackId = (st.info b).mRackId →
      (st.info a).GetSpaceUtilization ≤ (st.info b).GetSpaceUtilization →
      k < (servers.countP fun t =>
        decide (t ≠ a ∧ (st.info t).GetSpaceUtilization < (st.info b).GetSpaceUtilization)) + 2 := by
  constructor
  · intro h a ha b hb hab hrack hload
    by_contra hk
    obtain ⟨p, hp, hap, hbp⟩ := (exists_take_pair_iff hnd ha hb hab hload).mpr (not_lt.mp hk)
    have hpk : (p.take k).Nodup := (hp.perm.nodup_iff.mpr hnd).sublist (List.take_sublist k p)
    exact hab ((List.nodup_map_iff_inj_on hpk).mp (h p hp) a hap b hbp hrack)
  · intro h p hp
    have hpk : (p.take k).Nodup := (hp.perm.nodup_iff.mpr hnd).sublist (List.take_sublist k p)
    have hmem : ∀ {s}, s ∈ p.take k → s ∈ servers := fun hs => hp.perm.mem_iff.mp (List.take_subset k p hs)
    refine (List.nodup_map_iff_inj_on hpk).mpr fun a ha b hb hrack => ?_
    by_contra hab
    rcases le_total (st.info a).GetSpaceUtilization (st.info b).GetSpaceUtilization with hload | hload
    · exact absurd (hp.countP_add_two_le hnd hab ha hb) (not_le.mpr (h a (hmem ha) b (hmem hb) hab hrack hload))
    · have hba := Ne.symm hab
      exact absurd (hp.countP_add_two_le hnd hba hb ha)
        (not_le.mpr (h b (hmem hb) a (hmem ha) hba hrack.symm hload))

theorem forall_cover_iff {servers : List ServerId} {k : ℕ} (hk : k ≤ servers.length) :
    (∀ p, Sorts (fun s => (st.info s).GetSpaceUtilization) servers p →
      ∀ r ∈ servers, ∃ s ∈ p.take k, (st.info s).mRackId = (st.info r).mRackId) ↔
    ∀ r ∈ servers, ∃ s ∈ servers, (st.info s).mRackId = (st.info r).mRackId ∧
      (servers.countP fun t => decide ((st.info t).mRackId ≠ (st.info r).mRackId ∧
        (st.info t).GetSpaceUtilization ≤ (st.info s).GetSpaceUtilization)) < k := by
  have havoid : ∀ r, (∃ p, Sorts (fun s => (st.info s).GetSpaceUtilization) servers p ∧
      ∀ t ∈ p.take k, ¬ (st.info t).mRackId = (st.info r).mRackId) ↔
      ∀ s ∈ servers, (st.info s).mRackId = (st.info r).mRackId →
        k ≤ servers.countP fun t => decide ((st.info t).mRackId ≠ (st.info r).mRackId ∧
          (st.info t).GetSpaceUtilization ≤ (st.info s).GetSpaceUtilization) :=
    fun r => exists_take_avoids_iff hk
  constructor
  · intro h r hr
    by_contra hn
    push Not at hn
    obtain ⟨p, hp, hmiss⟩ := (havoid r).mpr hn
    obtain ⟨s, hs, hrack⟩ := h p hp r hr
    exact hmiss s hs hrack
  · intro h p hp r hr
    by_contra hn
    push Not at hn
    obtain ⟨s, hs, hrack, hlt⟩ := h r hr
    exact absurd ((havoid r).mp ⟨p, hp, hn⟩ s hs hrack) (not_le.mpr hlt)

/-- **The copies that are kept are on as many racks as they can be**, in whatever order the sort leaves servers of one
load, exactly when there are as many racks as copies to keep, or the loads spread the least loaded servers. -/
theorem discard_spread_iff (hnd : clli.chunkServers.Nodup)
    (hret : ∀ s ∈ clli.chunkServers, (st.info s).mIsRetiring = false)
    (he : extraReplicas < clli.chunkServers.length) :
    (∀ w, st.KeepsSpread chunkId clli extraReplicas w) ↔
      st.SpreadByLoad clli.chunkServers (clli.chunkServers.length - extraReplicas) := by
  generalize hk : clli.chunkServers.length - extraReplicas = k
  simp only [keepsSpread_iff hret he hk]
  rcases lt_trichotomy (st.numRacks clli.chunkServers) k with hlt | heq | hgt
  · have hvisit : (∀ w : Visit, ∀ r ∈ clli.chunkServers,
        ∃ s ∈ (st.SortServersByUtilization clli.chunkServers (w.servers 0)).take k,
          (st.info s).mRackId = (st.info r).mRackId) ↔ _ :=
      forall_visit_iff.trans (forall_cover_iff (by omega))
    simp only [hlt.ne, false_or, if_neg (not_le.mpr hlt)]
    exact hvisit.trans ⟨fun h => ⟨fun _ => h, fun hgt => absurd hgt hlt.asymm⟩, fun h => h.fewer hlt⟩
  · exact iff_of_true (fun w => .inl heq) ⟨fun hlt => absurd heq hlt.ne, fun hgt => absurd heq hgt.ne'⟩
  · have hvisit : (∀ w : Visit, (((st.SortServersByUtilization clli.chunkServers (w.servers 0)).take k).map fun s =>
        (st.info s).mRackId).Nodup) ↔ _ :=
      forall_visit_iff.trans (forall_nodup_iff hnd)
    simp only [hgt.ne', false_or, if_pos hgt.le]
    exact hvisit.trans ⟨fun h => ⟨fun hlt => absurd hlt hgt.asymm, fun _ => h⟩, fun h => h.more hgt⟩

/-- Four copies of chunk 7, three of them on the first rack; `mUsedSpace` is that of the fourth server. -/
def lopsided (mUsedSpace : ℕ) : Placement where
  cl := ⟨⟨fun c => if c = 7 then some ⟨5, 0, [1, 2, 3, 4], []⟩ else none, 1, [1, 2, 3, 4], 0, 1⟩, [], fun _ => ⟨[], 0⟩,
    fun _ => false, [], fun _ => false⟩
  info s := ⟨if s = 4 then 1 else 0, 100, if s = 4 then mUsedSpace else 10, 0, 0, 0, false, false, []⟩
  mHelloDone _ := true
  mRacks := []
  ops := []
  epoch _ := 0
  mIsRebalancingEnabled := false
  mIsExecutingRebalancePlan := false

/-- The servers of chunk 7. -/
def fourCopies : ChunkPlacementInfo := ⟨5, 0, [1, 2, 3, 4], []⟩

/-- Three copies are kept, and the one on a rack of its own is on the server with the most space. -/
theorem discard_spread_lopsided :
    (lopsided 5).numRacks [1, 2, 3, 4] = 2 ∧ ∀ w, (lopsided 5).KeepsSpread 7 fourCopies 1 w :=
  ⟨by decide +kernel, (discard_spread_iff (by decide) (by decide +kernel) (by decide)).mpr
    ⟨fun _ => by decide +kernel, fun h => absurd h (by decide +kernel)⟩⟩

/-- A visit in which the servers stay in their order. -/
def inOrder : Visit := ⟨fun _ => 200, fun _ => Shuffle.id _, fun _ => Shuffle.id _⟩

theorem lopsided_sorted : (lopsided 50).SortServersByUtilization [1, 2, 3, 4] (Shuffle.id _) = [1, 2, 3, 4] :=
  List.mergeSort_of_pairwise (by decide +kernel)

theorem lopsided_discards :
    (lopsided 50).discardAddlChunkReplicas 7 fourCopies 1 inOrder =
      ((lopsided 50).setEntry 7 { fourCopies with chunkServers := [1, 2, 3] }, [4]) := by
  have hsplit : (lopsided 50).splitCopies [1, 2, 3, 4] 3 = ([1, 2, 3], [4]) := by decide +kernel
  have hret : ¬ (fourCopies.chunkServers.any fun s => ((lopsided 50).info s).mIsRetiring) = true := by
    decide +kernel
  have hsorted : (lopsided 50).SortServersByUtilization fourCopies.chunkServers (inOrder.servers 0) = [1, 2, 3, 4] :=
    lopsided_sorted
  have hk : fourCopies.chunkServers.length - 1 = 3 := rfl
  rw [discardAddlChunkReplicas, if_neg hret]
  dsimp only
  rw [hsorted, hk, hsplit]

/-- Of four copies on two racks three are kept, and they are all on one rack. -/
theorem lopsided_not_spread :
    ((lopsided 50).discardAddlChunkReplicas 7 fourCopies 1 inOrder).2 = [4] ∧
      (lopsided 50).numRacks [1, 2, 3, 4] = 2 ∧ (lopsided 50).numRacks [1, 2, 3] = 1 ∧
      ¬ (lopsided 50).KeepsSpread 7 fourCopies 1 inOrder := by
  refine ⟨congrArg Prod.snd lopsided_discards, by decide +kernel, by decide +kernel, ?_⟩
  unfold KeepsSpread
  rw [lopsided_discards]
  rintro ⟨v, hv, -, -, -, hr⟩
  obtain rfl := Option.some.inj hv
  exact absurd hr (by decide +kernel)

end Placement

end Kfs
