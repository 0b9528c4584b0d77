import Kfs.Layout.Discard
import Kfs.Layout.Fills
import Kfs.Layout.Hibernate

/-!
# The number of copies

`CanReplicateChunkNow` says how many copies of a chunk are missing, and `ChunkReplicationChecker` copies the chunk,
drops it from the candidates or deletes copies of it according to the sign.

* `extraCopies`, `CanReplicateChunkNow_eq`: the number, from the copies, the retiring ones and the replicas of the file;
* `Settles`, `ChunkReplicationChecker_settles`: what a step of the checker does with a chunk;
* `ChunkReplicationDone_adds`: a copy that succeeds is added to the entry;
* **`replication_target`**: the step, and the copies after the requests of the step have succeeded.
-/

namespace Kfs

namespace Placement

/-- The copies that are missing when `h` servers have a chunk of a file with `r` replicas and `t` of them are
retiring. -/
def extraCopies (r h t : ℤ) : ℤ := if 0 < t then max 0 (r - (h - t)) else r - h

/-- The servers of an entry that are retiring. -/
def retiring (st : Placement) (v : ChunkPlacementInfo) : ℕ := v.chunkServers.countP fun s => (st.info s).mIsRetiring

/-- The servers with a copy that are not retiring, each counted once. -/
def copies (st : Placement) (v : ChunkPlacementInfo) : ℕ :=
  (v.chunkServers.filter fun s => !(st.info s).mIsRetiring).dedup.length

/-- The chunk is a chunk of a file with `r` replicas, and some servers have it, each of them once. -/
structure Chunked (st : Placement) (c : ℤ) (v : ChunkPlacementInfo) (r : ℤ) : Prop where
  entry : st.entry c = some v
  file : ∃ fa, getFattr st.cl.leaves v.fid = some fa ∧ fa.numReplicas = r
  chunk : ∃ m ∈ getalloc st.cl.leaves v.fid, m.chunkId = c
  hosted : v.chunkServers ≠ []
  distinct : v.chunkServers.Nodup
  pos : 0 < r
  short : r < 2 ^ 15

variable {st st' st₁ : Placement} {c r : ℤ} {v v' : ChunkPlacementInfo} {t : ℕ → ℤ} {s : ServerId}

/-- With distinct servers the copies are those that are not on retiring servers. -/
theorem copies_eq (h : v.chunkServers.Nodup) : (st.copies v : ℤ) = v.chunkServers.length - st.retiring v := by
  have hd : (v.chunkServers.filter fun s => !(st.info s).mIsRetiring).dedup =
      v.chunkServers.filter fun s => !(st.info s).mIsRetiring := (h.filter _).dedup
  rw [copies, hd, retiring, ← List.countP_eq_length_filter]
  have hsum := List.length_eq_countP_add_countP (fun s => (st.info s).mIsRetiring) (l := v.chunkServers)
  have hnot : (v.chunkServers.countP fun s => !(st.info s).mIsRetiring) =
      v.chunkServers.countP fun s => decide ¬ (st.info s).mIsRetiring = true := by
    refine List.countP_congr fun s _ => ?_
    simp
  omega

theorem Chunked.found (h : st.Chunked c v r) : ∃ fa mci, getFattr st.cl.leaves v.fid = some fa ∧ fa.numReplicas = r ∧
    (getalloc st.cl.leaves v.fid).find? (fun m => decide (m.chunkId = c)) = some mci := by
  obtain ⟨fa, hfa, hr⟩ := h.file
  obtain ⟨m, hm, hid⟩ := h.chunk
  have hsome : ((getalloc st.cl.leaves v.fid).find? fun m => decide (m.chunkId = c)).isSome = true :=
    List.find?_isSome.mpr ⟨m, hm, decide_eq_true hid⟩
  obtain ⟨mci, hmci⟩ := Option.isSome_iff_exists.mp hsome
  exact ⟨fa, mci, hfa, hr, hmci⟩

theorem findLease_none {p : ℤ → LeaseInfo → Bool} : ∀ {ls : List LeaseInfo} (k : ℕ),
    (∀ l ∈ ls, ∀ i, p (t i) l = false) → findLease p t k ls = none
  | [], _, _ => rfl
  | l :: ls, k, h => by
    rw [findLease, if_neg (Bool.eq_false_iff.mp (h l List.mem_cons_self k))]
    exact findLease_none (k + 1) fun l' hm => h l' (List.mem_cons_of_mem l hm)

/-- **The arithmetic of `CanReplicateChunkNow`**, when it answers. -/
theorem CanReplicateChunkNow_some (hd : st.Chunked c v r) {extra : ℤ} (h : st.CanReplicateChunkNow c v t = some extra) :
    extra = extraCopies r v.chunkServers.length (st.retiring v) := by
  obtain ⟨fa, mci, hfa, rfl, hmci⟩ := hd.found
  have hpos := hd.pos
  have hshort := hd.short
  unfold CanReplicateChunkNow at h
  rw [if_neg hd.hosted] at h
  simp only [hfa, hmci] at h
  have hmod : fa.numReplicas % 2 ^ 32 = fa.numReplicas := Int.emod_eq_of_lt hpos.le (by omega)
  rw [hmod] at h
  change _ = extraCopies fa.numReplicas v.chunkServers.length (st.retiring v)
  unfold extraCopies
  change (if _ then none else if (st.retiring v : ℤ) > 0 then
    if (v.chunkServers.length : ℤ) - st.retiring v < fa.numReplicas then
      some ((st.retiring v : ℤ) + (fa.numReplicas - v.chunkServers.length)) else some 0
    else _) = some extra at h
  split_ifs at h with h₁ h₂ h₃ h₄
  · have := Option.some.inj h
    rw [if_pos h₂, max_eq_right (by omega)]
    omega
  · have := Option.some.inj h
    rw [if_pos h₂, max_eq_left (by omega)]
    omega
  · have := Option.some.inj h
    rw [if_neg h₂]
    omega

/-- Without a valid lease it answers. -/
theorem CanReplicateChunkNow_eq (hd : st.Chunked c v r) (hl : ∀ l ∈ v.chunkLeases, ∀ i, l.IsValidLease (t i) = false) :
    st.CanReplicateChunkNow c v t = some (extraCopies r v.chunkServers.length (st.retiring v)) := by
  have hw : ∀ l ∈ v.chunkLeases, ∀ i, l.IsValidWriteLease (t i) = false := by
    intro l hm i
    rw [LeaseInfo.IsValidWriteLease, hl l hm i, Bool.and_false]
  have hsome : (st.CanReplicateChunkNow c v t).isSome = true := by
    obtain ⟨fa, mci, hfa, -, hmci⟩ := hd.found
    unfold CanReplicateChunkNow
    rw [findLease_none 0 hw, findLease_none v.chunkLeases.length hl, if_neg hd.hosted]
    simp only [hfa, hmci, Option.isSome_none, Bool.false_eq_true, if_false, and_false]
    split_ifs
    all_goals rfl
  obtain ⟨extra, he⟩ := Option.isSome_iff_exists.mp hsome
  rw [he, CanReplicateChunkNow_some hd he]

/-! ## A step of the checker -/

/-- There are enough copies, and without a retiring server not more than enough. -/
def Supplied (st : Placement) (r : ℤ) (v : ChunkPlacementInfo) : Prop :=
  r ≤ v.chunkServers.length - st.retiring v ∧ (st.retiring v = 0 → (v.chunkServers.length : ℤ) = r)

/-- From `st` to `st'` nothing is dropped of a chunk, unless there are more than `r` copies and no server of it is
retiring: then `r` copies stay. The chunk stays a candidate, unless there are enough copies. Requests go to servers that
have no copy and are not retiring. -/
structure Settles (c r : ℤ) (st : Placement) (v : ChunkPlacementInfo) (st' : Placement) (v' : ChunkPlacementInfo) :
    Prop where
  leaves : st'.cl.leaves = st.cl.leaves
  retiring : ∀ s, (st'.info s).mIsRetiring = (st.info s).mIsRetiring
  candidate : st.cl.mChunkReplicationCandidates c = true →
    st'.cl.mChunkReplicationCandidates c = true ∨ st'.Supplied r v'
  entry : st'.entry c = some v'
  fid : v'.fid = v.fid
  servers : v'.chunkServers = v.chunkServers ∨ st.retiring v = 0 ∧ r < v.chunkServers.length ∧
    v'.chunkServers.Subperm v.chunkServers ∧ (v'.chunkServers.length : ℤ) = r
  ops : ∃ news, st'.ops = st.ops ++ news ∧ ∀ o ∈ news, o.chunkId = c →
    (st.info o.server).mIsRetiring = false ∧ o.server ∉ v'.chunkServers

theorem retiring_congr (h : ∀ s, (st'.info s).mIsRetiring = (st.info s).mIsRetiring)
    (hs : v'.chunkServers = v.chunkServers) : st'.retiring v' = st.retiring v := by
  unfold retiring
  rw [hs]
  exact List.countP_congr fun s _ => by rw [h]

theorem Settles.subperm (h : Settles c r st v st' v') : v'.chunkServers.Subperm v.chunkServers := by
  rcases h.servers with hs | ⟨-, -, hs, -⟩
  · rw [hs]
  · exact hs

/-- What is supplied stays so. -/
theorem Supplied.settles (hs : st.Supplied r v) (h : Settles c r st v st' v') : st'.Supplied r v' := by
  have hsame : v'.chunkServers = v.chunkServers := by
    refine h.servers.resolve_right fun ⟨ht, hlt, _⟩ => ?_
    have := hs.2 ht
    omega
  unfold Supplied
  rw [retiring_congr h.retiring hsame, hsame]
  exact hs

theorem Settles.trans {v₁ : ChunkPlacementInfo} (h₁ : Settles c r st v st₁ v₁) (h₂ : Settles c r st₁ v₁ st' v') :
    Settles c r st v st' v' := by
  refine ⟨h₂.leaves.trans h₁.leaves, fun s => (h₂.retiring s).trans (h₁.retiring s), fun hc => ?_, h₂.entry,
    h₂.fid.trans h₁.fid, ?_, ?_⟩
  · rcases h₁.candidate hc with hc | hsup
    · exact h₂.candidate hc
    · exact .inr (hsup.settles h₂)
  · rcases h₁.servers with hs₁ | ⟨ht, hlt, hsub, hlen⟩
    · have hret := retiring_congr h₁.retiring hs₁
      have hdrop := h₂.servers
      rwa [hret, hs₁] at hdrop
    · -- no copy is dropped when there are `r`
      have hs₂ : v'.chunkServers = v₁.chunkServers := h₂.servers.resolve_right fun ⟨_, hlt', _⟩ => by omega
      exact .inr ⟨ht, hlt, hs₂ ▸ hsub, hs₂ ▸ hlen⟩
  · obtain ⟨news₁, ho₁, hn₁⟩ := h₁.ops
    obtain ⟨news₂, ho₂, hn₂⟩ := h₂.ops
    refine ⟨news₁ ++ news₂, by rw [ho₂, ho₁, List.append_assoc], fun o ho hc => ?_⟩
    rcases List.mem_append.mp ho with ho | ho
    · obtain ⟨hret, hhost⟩ := hn₁ o ho hc
      exact ⟨hret, fun hm => hhost (h₂.subperm.subset hm)⟩
    · obtain ⟨hret, hhost⟩ := hn₂ o ho hc
      exact ⟨(h₁.retiring _).symm.trans hret, hhost⟩

theorem Fills.settles (h : Fills c st st') (hv : st.entry c = some v) : ∃ v', Settles c r st v st' v' := by
  obtain ⟨n, hn⟩ := h.entry v hv
  obtain ⟨news, ho, hnew⟩ := h.ops
  exact ⟨_, h.still.leaves, h.still.retiring, fun hc => .inl (h.still.candidates c hc), hn, rfl, .inl rfl, news, ho,
    fun o hm hc => ⟨(hnew o hm hc).1, (hnew o hm hc).2 v hv⟩⟩

/-- The chunk is still a chunk of its file, and has a copy. -/
theorem Chunked.settles (hd : st.Chunked c v r) (h : Settles c r st v st' v') : st'.Chunked c v' r where
  entry := h.entry
  file := by
    rw [h.leaves, h.fid]
    exact hd.file
  chunk := by
    rw [h.leaves, h.fid]
    exact hd.chunk
  hosted := by
    rcases h.servers with hs | ⟨-, -, -, hlen⟩
    · rw [hs]
      exact hd.hosted
    · intro hnil
      have := hd.pos
      simp [hnil] at hlen
      omega
  distinct := by
    obtain ⟨l, hp, hl⟩ := h.subperm
    exact hp.nodup_iff.mp (hd.distinct.sublist hl)
  pos := hd.pos
  short := hd.short

/-! ## The loop -/

theorem DeleteAddlChunkReplicas_settles {n : ℕ} {w : Visit} (hr : 0 < r) (ht : st.retiring v = 0)
    (hn : (v.chunkServers.length : ℤ) - n = r) (hpos : 0 < n) :
    ∃ v', Settles c r st v (st.DeleteAddlChunkReplicas c v n w) v' ∧
      (st.DeleteAddlChunkReplicas c v n w).Supplied r v' := by
  have hnot : ¬ (v.chunkServers.any fun s => (st.info s).mIsRetiring) = true := by
    rw [List.any_eq_true]
    rintro ⟨s, hs, hret⟩
    exact absurd hret (by simpa using List.countP_eq_zero.mp ht s hs)
  have hperm := SortServersByUtilization_perm st v.chunkServers (w.servers 0)
  have hk : v.chunkServers.length - n ≤ (st.SortServersByUtilization v.chunkServers (w.servers 0)).length := by
    rw [hperm.length_eq]
    omega
  obtain ⟨hlen, hsplit⟩ := splitCopies_split st hk
  rw [← discardAddlChunkReplicas_fst, discardAddlChunkReplicas, if_neg hnot]
  dsimp only
  generalize st.splitCopies (st.SortServersByUtilization v.chunkServers (w.servers 0)) (v.chunkServers.length - n) = p
    at hlen hsplit ⊢
  obtain ⟨kept, discarded⟩ := p
  dsimp only at hlen hsplit ⊢
  have hsub : kept.Subperm v.chunkServers :=
    (List.sublist_append_left kept discarded).subperm.trans (hsplit.trans hperm).subperm
  have hret : (st.setEntry c { v with chunkServers := kept }).retiring { v with chunkServers := kept } = 0 := by
    refine List.countP_eq_zero.mpr fun s hs => ?_
    exact List.countP_eq_zero.mp ht s (hsub.subset hs)
  refine ⟨{ v with chunkServers := kept }, ⟨rfl, fun _ => rfl, .inl, ?_, rfl, ?_, [], ?_, by simp⟩, ?_, ?_⟩
  · rw [setEntry_entry, Function.update_self]
  · exact .inr ⟨ht, by omega, hsub, by dsimp only; omega⟩
  · exact (List.append_nil _).symm
  · rw [hret]
    dsimp only
    omega
  · intro _
    dsimp only
    omega

/-- What the checker does with a chunk that it reaches. -/
theorem replicateOrDelete_settles {extra : ℤ} {w : Visit} (hd : st.Chunked c v r)
    (he : extra = extraCopies r v.chunkServers.length (st.retiring v))
    (h : st.replicateOrDelete c v extra w = some st') :
    ∃ v', Settles c r st v st' v' ∧ (¬ extra > 0 → st'.Supplied r v') := by
  have hpos := hd.pos
  unfold extraCopies at he
  unfold replicateOrDelete at h
  split_ifs at h with hp hz
  · obtain ⟨⟨k, st₁⟩, h₁, rfl⟩ := Option.map_eq_some_iff.mp h
    obtain ⟨v', hs⟩ := (ReplicateChunk_fills hd.entry h₁ c).settles hd.entry
    exact ⟨v', hs, fun hn => absurd hp hn⟩
  · obtain rfl := Option.some.inj h
    obtain ⟨v', hs⟩ := (Fills.refl c st).settles (r := r) hd.entry
    refine ⟨v', hs, fun _ => Supplied.settles ⟨?_, fun ht => ?_⟩ hs⟩
    · split_ifs at he with ht <;> omega
    · rw [if_neg (by omega)] at he
      omega
  · obtain rfl := Option.some.inj h
    have ht : st.retiring v = 0 := by
      by_contra hne
      rw [if_pos (by omega)] at he
      omega
    rw [if_neg (by omega)] at he
    obtain ⟨v', hs, hsup⟩ := @DeleteAddlChunkReplicas_settles st c r v (-extra).toNat w hpos ht (by omega) (by omega)
    exact ⟨v', hs, fun _ => hsup⟩

/-- And with the other chunks. -/
theorem replicateOrDelete_other {extra : ℤ} {w : Visit} {cid : ℤ} {u : ChunkPlacementInfo} (hne : c ≠ cid)
    (hu : st.entry cid = some u) (h : st.replicateOrDelete cid u extra w = some st') : Fills c st st' := by
  unfold replicateOrDelete at h
  split_ifs at h with hp hz
  · obtain ⟨⟨k, st₁⟩, h₁, rfl⟩ := Option.map_eq_some_iff.mp h
    exact ReplicateChunk_fills hu h₁ c
  · obtain rfl := Option.some.inj h
    exact .refl c st
  · obtain rfl := Option.some.inj h
    unfold DeleteAddlChunkReplicas
    split_ifs
    · exact .refl c st
    · refine ⟨⟨rfl, fun _ => rfl, fun _ hc => hc⟩, fun v hv => ⟨v.ongoingReplications, ?_⟩, [], ?_, by simp⟩
      · dsimp only
        rw [setEntry_entry, Function.update_of_ne hne, hv]
      · exact (List.append_nil _).symm

/-- One turn of the loop, whatever chunk it is at. -/
theorem checkTurn_settles {extra : ℤ} {w : Visit} {cid : ℤ} {u : ChunkPlacementInfo} (hd : st.Chunked c v r)
    (hu : st.entry cid = some u) (he : st.CanReplicateChunkNow cid u w.clock = some extra)
    (h : st.replicateOrDelete cid u extra w = some st') :
    ∃ v', Settles c r st v st' v' ∧ (cid = c → ¬ extra > 0 → st'.Supplied r v') := by
  by_cases hc : cid = c
  · subst hc
    obtain rfl : v = u := Option.some.inj (hd.entry.symm.trans hu)
    obtain ⟨v', hs, hsup⟩ := replicateOrDelete_settles hd (CanReplicateChunkNow_some hd he) h
    exact ⟨v', hs, fun _ => hsup⟩
  · obtain ⟨v', hs⟩ := (replicateOrDelete_other (fun h => hc h.symm) hu h).settles hd.entry
    exact ⟨v', hs, fun h => absurd h hc⟩

/-- The loop takes a chunk out of the candidates only when there are enough copies. -/
theorem checkLoop_settles {w : ℤ → Visit} {del' : List ℤ} : ∀ {cids : List ℤ} {n : ℕ} {del : List ℤ}
    {st st' : Placement} {v : ChunkPlacementInfo}, st.Chunked c v r → checkLoop w cids n del st = some (del', st') →
      ∃ v', Settles c r st v st' v' ∧ (c ∈ del' → c ∈ del ∨ st'.Supplied r v')
  | [], n, del, st, st', v, hd, h => by
    obtain ⟨rfl, rfl⟩ := Prod.mk.inj (Option.some.inj h)
    obtain ⟨v', hs⟩ := (Fills.refl c st).settles hd.entry
    exact ⟨v', hs, .inl⟩
  | cid :: cids, n, del, st, st', v, hd, h => by
    rw [checkLoop] at h
    split_ifs at h with hcand
    swap
    · exact checkLoop_settles hd h
    split at h
    · -- the chunk has an entry, so that it is not the one that is dropped
      rename_i hnone
      obtain ⟨v', hs, hdel⟩ := checkLoop_settles hd h
      refine ⟨v', hs, fun hm => (hdel hm).imp_left fun hm => ?_⟩
      rcases List.mem_cons.mp hm with rfl | hm
      · exact absurd (hd.entry.symm.trans hnone) (by simp)
      · exact hm
    rename_i u hu
    split_ifs at h with hrest
    · exact checkLoop_settles hd h
    split at h
    · exact checkLoop_settles hd h
    rename_i extra he
    split at h
    · cases h
    rename_i st₁ h₁
    obtain ⟨v₁, hs₁, hsup⟩ := checkTurn_settles hd hu he h₁
    have hdel : c ∈ (if extra > 0 then del else cid :: del) → c ∈ del ∨ st₁.Supplied r v₁ := by
      split_ifs with hpos
      · exact .inl
      · intro hm
        rcases List.mem_cons.mp hm with rfl | hm
        · exact .inr (hsup rfl hpos)
        · exact .inl hm
    dsimp only at h
    by_cases hmany : ((if extra > 0 then n + 1 else n : ℕ) : ℤ) >
        st₁.cl.lm.mChunkServers.length * MAX_CONCURRENT_WRITE_REPLICATIONS_PER_NODE
    · rw [if_pos hmany] at h
      obtain ⟨rfl, rfl⟩ := Prod.mk.inj (Option.some.inj h)
      exact ⟨v₁, hs₁, hdel⟩
    · rw [if_neg hmany] at h
      obtain ⟨v', hs, hdel'⟩ := checkLoop_settles (hd.settles hs₁) h
      refine ⟨v', hs₁.trans hs, fun hm => ?_⟩
      rcases hdel' hm with hm | hsup'
      · exact (hdel hm).imp_right fun hs' => hs'.settles hs
      · exact .inr hsup'

/-- **What a step of the checker does with a chunk.** -/
theorem ChunkReplicationChecker_settles {round : Round} (hd : st.Chunked c v r)
    (h : st.ChunkReplicationChecker round = some st') : ∃ v', Settles c r st v st' v' := by
  unfold ChunkReplicationChecker at h
  split_ifs at h with hrec
  · obtain rfl := Option.some.inj h
    exact (Fills.refl c st).settles hd.entry
  obtain ⟨⟨del, st₁⟩, h₁, h₂⟩ := Option.bind_eq_some_iff.mp h
  have hf₀ : Fills c st { st with cl := st.cl.CheckHibernatingServersStatus round.now } := by
    refine .of_still ⟨rfl, fun _ => rfl, fun x hx => ?_⟩ rfl rfl
    have hloop := congrArg Prod.snd (Cluster.checkLoop_eq st.cl round.now st.cl.mHibernatingServers
      st.cl.mChunkReplicationCandidates)
    refine (congrFun hloop x).trans ?_
    simp [hx]
  obtain ⟨v₀, hs₀⟩ := hf₀.settles (r := r) hd.entry
  obtain ⟨v₁, hs₁, hdel⟩ := checkLoop_settles (hd.settles hs₀) h₁
  have hs₂ : Settles c r st₁ v₁ { st₁ with cl := { st₁.cl with
      mChunkReplicationCandidates := fun x => st₁.cl.mChunkReplicationCandidates x && decide (x ∉ del) } } v₁ := by
    refine ⟨rfl, fun _ => rfl, fun hc => ?_, hs₁.entry, rfl, .inl rfl, [], (List.append_nil _).symm, by simp⟩
    by_cases hm : c ∈ del
    · exact .inr ((hdel hm).resolve_left List.not_mem_nil)
    · exact .inl (Bool.and_eq_true_iff.mpr ⟨hc, decide_eq_true hm⟩)
  obtain ⟨v', hs₃⟩ := (RebalanceServers_fills h₂ c).settles (r := r) hs₂.entry
  exact ⟨v', ((hs₀.trans hs₁).trans hs₂).trans hs₃⟩

/-! ## The copies that succeed -/

/-- The replications end well, one after the other; each server reports the file and the version of the chunk. -/
def succeedAll (fid chunkVersion : ℤ) : List (ChunkReplicate × Work) → Placement → Option Placement
  | [], st => some st
  | (o, w) :: os, st => (st.ChunkReplicationDone o 0 fid chunkVersion w).bind (succeedAll fid chunkVersion os)

/-- The bookkeeping at the end of a replication leaves the servers of the chunk alone. -/
theorem replicationOver_spec {req : ChunkReplicate} (hv : st.entry req.chunkId = some v)
    (h : st.replicationOver req = some st') : st'.entry req.chunkId = some (finished v) ∧
      st'.cl.leaves = st.cl.leaves ∧ ∀ s, (st'.info s).mIsRetiring = (st.info s).mIsRetiring := by
  unfold replicationOver at h
  simp only [hv] at h
  obtain ⟨st₁, h₁, h₂⟩ := Option.bind_eq_some_iff.mp h
  have hs₁ : st₁.entry = (st.setEntry req.chunkId (finished v)).entry ∧
      Still (st.setEntry req.chunkId (finished v)) st₁ := by
    unfold ReplicateChunkDone at h₁
    dsimp only at h₁
    split_ifs at h₁
    obtain rfl := Option.some.inj h₁
    exact ⟨rfl, setInfo_still rfl⟩
  have hs₂ : st'.entry = st₁.entry ∧ Still st₁ st' := by
    split at h₂
    · obtain rfl := Option.some.inj h₂
      exact ⟨rfl, .refl st₁⟩
    · obtain rfl := Option.some.inj h₂
      exact ⟨rfl, setInfo_still rfl⟩
  refine ⟨?_, hs₂.2.leaves.trans hs₁.2.leaves, fun s => (hs₂.2.retiring s).trans (hs₁.2.retiring s)⟩
  rw [hs₂.1, hs₁.1, setEntry_entry, Function.update_self]

/-- **A copy that succeeds is added to the entry.** -/
theorem ChunkReplicationDone_adds {req : ChunkReplicate} {mci : MetaChunkInfo} {w : Work}
    (hv : st.entry req.chunkId = some v)
    (hm : (getalloc st.cl.leaves v.fid).find? (fun m => decide (m.chunkId = req.chunkId)) = some mci)
    (h : st.ChunkReplicationDone req 0 v.fid mci.chunkVersion w = some st') :
    ∃ v', st'.entry req.chunkId = some v' ∧ v'.fid = v.fid ∧ v'.chunkServers = v.chunkServers ++ [req.server] ∧
      st'.cl.leaves = st.cl.leaves ∧ ∀ s, (st'.info s).mIsRetiring = (st.info s).mIsRetiring := by
  unfold ChunkReplicationDone at h
  obtain ⟨st₁, h₁, h₂⟩ := Option.bind_eq_some_iff.mp h
  obtain ⟨he, hleaves, hret⟩ := replicationOver_spec hv h₁
  have hmap : st₁.cl.lm.mChunkToServerMap req.chunkId = some (finished v) := he
  rw [if_neg (not_not.mpr rfl)] at h₂
  simp only [hleaves, hm, ne_eq, not_true_eq_false, if_false, LayoutManager.UpdateChunkToServerMapping, hmap,
    Option.map_some] at h₂
  have hadded : (st₁.setLayout (st₁.cl.lm.set req.chunkId
      { finished v with chunkServers := (finished v).chunkServers ++ [req.server] })).entry req.chunkId =
      some { finished v with chunkServers := (finished v).chunkServers ++ [req.server] } :=
    LayoutManager.set_self _
  split_ifs at h₂ with hmore
  · have hf := FindReplicationWorkForServer_fills h₂ req.chunkId
    obtain ⟨n, hn⟩ := hf.entry _ hadded
    exact ⟨_, hn, rfl, rfl, hf.still.leaves.trans hleaves, fun s => (hf.still.retiring s).trans (hret s)⟩
  · obtain rfl := Option.some.inj h₂
    exact ⟨_, hadded, rfl, rfl, hleaves, hret⟩

theorem succeedAll_adds {mci : MetaChunkInfo} : ∀ {os : List (ChunkReplicate × Work)} {st st' : Placement}
    {v : ChunkPlacementInfo}, (∀ o ∈ os, o.1.chunkId = c) → st.entry c = some v →
      (getalloc st.cl.leaves v.fid).find? (fun m => decide (m.chunkId = c)) = some mci →
      succeedAll v.fid mci.chunkVersion os st = some st' →
      ∃ v', st'.entry c = some v' ∧ v'.chunkServers = v.chunkServers ++ os.map (fun o => o.1.server) ∧
        ∀ s, (st'.info s).mIsRetiring = (st.info s).mIsRetiring
  | [], st, st', v, _, hv, _, h => by
    obtain rfl := Option.some.inj h
    exact ⟨v, hv, by simp, fun _ => rfl⟩
  | (o, w) :: os, st, st', v, hos, hv, hm, h => by
    rw [succeedAll] at h
    obtain ⟨st₁, h₁, h₂⟩ := Option.bind_eq_some_iff.mp h
    have hoc : o.chunkId = c := hos (o, w) List.mem_cons_self
    rw [← hoc] at hv hm
    obtain ⟨v₁, he₁, hfid, hservers, hleaves, hret⟩ := ChunkReplicationDone_adds hv hm h₁
    rw [← hfid] at h₂
    rw [← hfid, ← hleaves, hoc] at hm
    rw [hoc] at he₁
    obtain ⟨v', he', hs', hret'⟩ := succeedAll_adds (fun o' hm' => hos o' (List.mem_cons_of_mem _ hm')) he₁ hm h₂
    refine ⟨v', he', ?_, fun s => (hret' s).trans (hret s)⟩
    rw [hs', hservers, List.map_cons, List.append_assoc]
    rfl

/-- New servers that are not retiring are copies, each counted once. -/
theorem copies_append {targets : List ServerId} (hret : ∀ s, (st'.info s).mIsRetiring = (st.info s).mIsRetiring)
    (hs : v'.chunkServers = v.chunkServers ++ targets)
    (hnew : ∀ s ∈ targets, (st.info s).mIsRetiring = false ∧ s ∉ v.chunkServers) :
    st'.copies v' = st.copies v + targets.dedup.length := by
  have hfilter : targets.filter (fun s => !(st.info s).mIsRetiring) = targets :=
    List.filter_eq_self.mpr fun s hm => by simp [(hnew s hm).1]
  have hdisj : (v.chunkServers.filter fun s => !(st.info s).mIsRetiring).Disjoint targets :=
    fun s hm ht => (hnew s ht).2 (List.mem_of_mem_filter hm)
  have hcard := Finset.card_union_of_disjoint (List.disjoint_toFinset_iff_disjoint.mpr hdisj)
  unfold copies
  simp only [hret, hs, List.filter_append, hfilter]
  rw [← List.card_toFinset, ← List.card_toFinset, ← List.card_toFinset, List.toFinset_append]
  exact hcard

/-! ## The step -/

/-- What is promised of a step of the checker from `st` to `st'` for a chunk with the entry `v`. -/
structure StepPromise (c r : ℤ) (st : Placement) (v : ChunkPlacementInfo) (st' : Placement) : Prop where
  step : ∃ v' news, st'.entry c = some v' ∧ st'.ops = st.ops ++ news ∧
    -- what is deleted
    ((v.chunkServers.length : ℤ) - st.retiring v ≤ r → v'.chunkServers = v.chunkServers) ∧
    v'.chunkServers.Subperm v.chunkServers ∧ min (v.chunkServers.length : ℤ) r ≤ v'.chunkServers.length ∧
    -- when the chunk is done with
    (st.cl.mChunkReplicationCandidates c = true → st'.cl.mChunkReplicationCandidates c = false → st'.Supplied r v') ∧
    -- what is copied
    ∀ (os : List (ChunkReplicate × Work)) (mci : MetaChunkInfo) (st'' : Placement),
      (os.map Prod.fst).Perm (news.filter fun o => decide (o.chunkId = c)) →
      (getalloc st'.cl.leaves v'.fid).find? (fun m => decide (m.chunkId = c)) = some mci →
      succeedAll v'.fid mci.chunkVersion os st' = some st'' →
      ∃ v'', st''.entry c = some v'' ∧
        st''.copies v'' = st'.copies v' + (os.map fun o => o.1.server).dedup.length ∧
        (extraCopies r v.chunkServers.length (st.retiring v) ≤ (os.map fun o => o.1.server).dedup.length →
          r ≤ st''.copies v'')

theorem Settles.promise (hd : st.Chunked c v r) (h : Settles c r st v st' v') : StepPromise c r st v st' := by
  obtain ⟨news, hops, hnew⟩ := h.ops
  have hd' := hd.settles h
  have hcopies : ((st'.copies v' : ℕ) : ℤ) = v'.chunkServers.length - st'.retiring v' := copies_eq hd'.distinct
  refine ⟨v', news, h.entry, hops, fun hle => ?_, h.subperm, ?_, fun hc hn => ?_, ?_⟩
  · refine h.servers.resolve_right fun ⟨ht, hlt, _⟩ => ?_
    omega
  · rcases h.servers with hs | ⟨-, -, -, hlen⟩
    · rw [hs]
      exact min_le_left _ _
    · rw [hlen]
      exact min_le_right _ _
  · refine (h.candidate hc).resolve_left fun hc' => ?_
    exact Bool.false_ne_true (hn.symm.trans hc')
  · intro os mci st'' hperm hm hall
    have hmem : ∀ o ∈ os, o.1 ∈ news ∧ o.1.chunkId = c := by
      intro o ho
      have := hperm.mem_iff.mp (List.mem_map_of_mem ho)
      rw [List.mem_filter, decide_eq_true_eq] at this
      exact this
    obtain ⟨v'', he, hservers, hret⟩ := succeedAll_adds (fun o ho => (hmem o ho).2) h.entry hm hall
    have hadd : st''.copies v'' = st'.copies v' + (os.map fun o => o.1.server).dedup.length := by
      refine copies_append hret hservers fun s hs => ?_
      obtain ⟨o, ho, rfl⟩ := List.mem_map.mp hs
      obtain ⟨hn, hc⟩ := hmem o ho
      obtain ⟨hret₀, hhost⟩ := hnew o.1 hn hc
      exact ⟨(h.retiring _).trans hret₀, hhost⟩
    refine ⟨v'', he, hadd, fun hextra => ?_⟩
    rw [hadd, Nat.cast_add]
    generalize (os.map fun o => o.1.server).dedup.length = k at hextra ⊢
    rcases h.servers with hs | ⟨ht, hlt, -, hlen⟩
    · rw [hcopies, retiring_congr h.retiring hs, hs]
      unfold extraCopies at hextra
      split_ifs at hextra with ht
      · have := le_max_right 0 (r - ((v.chunkServers.length : ℤ) - st.retiring v))
        omega
      · omega
    · have ht' : st'.retiring v' = 0 := by
        refine List.countP_eq_zero.mpr fun s hs => ?_
        rw [h.retiring]
        exact List.countP_eq_zero.mp ht s (h.subperm.subset hs)
      omega

/-- **The target of the replication.** -/
theorem replication_target (hd : st.Chunked c v r) :
    (∀ t, (∀ l ∈ v.chunkLeases, ∀ i, l.IsValidLease (t i) = false) →
      st.CanReplicateChunkNow c v t = some (extraCopies r v.chunkServers.length (st.retiring v))) ∧
    ∀ round st', st.ChunkReplicationChecker round = some st' → StepPromise c r st v st' := by
  refine ⟨fun t hl => CanReplicateChunkNow_eq hd hl, fun round st' h => ?_⟩
  obtain ⟨v', hs⟩ := ChunkReplicationChecker_settles hd h
  exact hs.promise hd

/-- File 3 has two replicas; chunk 7 is on the only server there is. -/
def lonely : Placement where
  cl :=
    { lm := ⟨fun c => if c = 7 then some ⟨3, 0, [0], []⟩ else none, 1, [0], 0, 1⟩
      leaves := [.fattr (MetaFattr.new ⟨⟨0, 0⟩, fun _ => false⟩ .file 3 2), .chunkinfo ⟨3, 0, 7, 1⟩]
      location := fun _ => ⟨['h'], 30000⟩
      down := fun _ => false
      mHibernatingServers := []
      mChunkReplicationCandidates := fun c => decide (c = 7) }
  info _ := ⟨0, 100 * 67108864, 0, 0, 0, 0, false, false, []⟩
  mHelloDone _ := true
  mRacks := [⟨0, [0]⟩]
  ops := []
  epoch _ := 1
  mIsRebalancingEnabled := false
  mIsExecutingRebalancePlan := false

/-- The chunk could be copied to a second server, on a rack of its own. -/
def paired : Placement :=
  { lonely with
    cl := { lonely.cl with lm := { lonely.cl.lm with mChunkServers := [0, 1] } }
    info := fun s => { lonely.info s with mRackId := if s = 1 then 1 else 0 }
    mRacks := [⟨0, [0]⟩, ⟨1, [1]⟩] }

theorem paired_chunked : paired.Chunked 7 ⟨3, 0, [0], []⟩ 2 :=
  ⟨by decide, ⟨_, rfl, rfl⟩, ⟨⟨3, 0, 7, 1⟩, by decide, rfl⟩, by decide, by decide, by decide, by decide⟩

/-- A round of the checker that reaches the chunk. -/
def firstRound : Round := ⟨1000, [7], fun _ => inOrder, fun _ _ => inOrder, [], fun _ => inOrder⟩

theorem replication_target_paired :
    paired.CanReplicateChunkNow 7 ⟨3, 0, [0], []⟩ (fun _ => 1000) = some 1 ∧
    ∃ st', paired.ChunkReplicationChecker firstRound = some st' ∧ st'.ops.map (fun o => o.server) = [1] ∧
      StepPromise 7 2 paired ⟨3, 0, [0], []⟩ st' := by
  have htarget := replication_target paired_chunked
  obtain ⟨st', hst, hops⟩ : ∃ st', paired.ChunkReplicationChecker firstRound = some st' ∧
      st'.ops.map (fun o => o.server) = [1] :=
    Option.map_eq_some_iff.mp (by decide +kernel :
      (paired.ChunkReplicationChecker firstRound).map (fun st' => st'.ops.map fun o => o.server) = some [1])
  have hextra : extraCopies 2 1 (paired.retiring ⟨3, 0, [0], []⟩) = 1 := by decide +kernel
  refine ⟨?_, st', hst, hops, htarget.2 firstRound st' hst⟩
  rw [← hextra]
  exact htarget.1 _ (by simp)

/-- A copy is missing, but there is no server to ask for it: all requests of the step succeed, and there is one copy. -/
theorem lonely_one_copy : lonely.CanReplicateChunkNow 7 ⟨3, 0, [0], []⟩ (fun _ => 1000) = some 1 ∧
    ∃ st', lonely.ChunkReplicationChecker firstRound = some st' ∧ st'.ops = [] ∧
      ∃ v', st'.entry 7 = some v' ∧ st'.copies v' = 1 := by
  refine ⟨by decide +kernel, ?_⟩
  have hall : (lonely.ChunkReplicationChecker firstRound).map (fun st' =>
      (st'.ops, (st'.entry 7).map fun v' => st'.copies v')) = some ([], some 1) := by decide +kernel
  obtain ⟨st', hst, he⟩ := Option.map_eq_some_iff.mp hall
  obtain ⟨hops, hv⟩ := Prod.mk.inj he
  obtain ⟨v', hv', hc⟩ := Option.map_eq_some_iff.mp hv
  exact ⟨st', hst, hops, v', hv', hc⟩

end Placement

end Kfs
