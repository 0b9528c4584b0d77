import Kfs.Layout.Accounts

/-!
# Replicas on distinct servers

The servers of a chunk are appended without a look at those that it has: by a HELLO, by an allocation, and at the end
of a replication. That no server is listed twice is the work of the searches, which offer a server once if the racks
are apart, and of `ongoingReplications`, which keeps a chunk from being replicated twice at a time.

* `Tracked`: the counters are right, and the replications of a chunk were all started for its entry;
* `holders`: the servers that have a chunk or are getting it;
* `Distinct`: no server is a holder twice;
* `apartStep`: the racks are apart when more than one server is searched, a HELLO reports a chunk once, and no entry is
  created for a chunk while it is being replicated;
* **`replicas_distinct`**: along every run of such steps no chunk is listed twice on a server.
-/

namespace Kfs

namespace Placement

variable {st st' st₁ : Placement} {e : PlaceEv} {c chunkId : ℤ} {v v' : ChunkPlacementInfo} {s : ServerId}

/-- The replications of the chunk that are under way. -/
def opsOf (st : Placement) (c : ℤ) : List ChunkReplicate := st.ops.filter fun o => decide (o.chunkId = c)

/-- The servers of an entry, and those that a replication of its chunk is under way to. -/
def holders (st : Placement) (c : ℤ) (v : ChunkPlacementInfo) : List ServerId :=
  v.chunkServers ++ (st.opsOf c).map ChunkReplicate.server

/-- The counters are right, and the replications of a chunk were all started for its entry. -/
structure Tracked (st : Placement) : Prop where
  booked : Booked st
  counted : Counted st
  current : ∀ o ∈ st.ops, (st.entry o.chunkId).isSome = true → o.epoch = st.epoch o.chunkId

/-- No server is a holder of a chunk twice, and the replications of a chunk were all started for its entry. -/
structure Distinct (st : Placement) : Prop where
  booked : Booked st
  counted : Counted st
  current : ∀ o ∈ st.ops, (st.entry o.chunkId).isSome = true → o.epoch = st.epoch o.chunkId
  known : ∀ c v, st.entry c = some v → ∀ s ∈ v.chunkServers, st.mHelloDone s = true
  nodup : ∀ c v, st.entry c = some v → (st.holders c v).Nodup

theorem mem_opsOf {o : ChunkReplicate} : o ∈ st.opsOf c ↔ o ∈ st.ops ∧ o.chunkId = c := by
  simp [opsOf]

/-- A chunk without ongoing replications has none under way. -/
theorem Tracked.opsOf_nil (h : Tracked st) (hv : st.entry c = some v) (hz : v.ongoingReplications ≤ 0) :
    st.opsOf c = [] := by
  have hn := h.counted c v hv
  have hzero : st.ops.countP (st.own c) = 0 := by omega
  rw [List.countP_eq_zero] at hzero
  refine List.filter_eq_nil_iff.mpr fun o ho hc => hzero o ho ?_
  obtain rfl : o.chunkId = c := by simpa using hc
  exact decide_eq_true ⟨rfl, h.current o ho (by simp [hv])⟩

/-- The entries that are left had replications of their own. -/
theorem Tracked.current_of (h : Tracked st) (he : ∀ c, (st'.entry c).isSome = true → (st.entry c).isSome = true)
    (hep : st'.epoch = st.epoch) (ho : st'.ops ⊆ st.ops) :
    ∀ o ∈ st'.ops, (st'.entry o.chunkId).isSome = true → o.epoch = st'.epoch o.chunkId := by
  rw [hep]
  exact fun o hm hsome => h.current o (ho hm) (he _ hsome)

theorem Tracked.quiet (h : Tracked st) (hq : Quiet st st') : Tracked st' where
  booked := h.booked.quiet hq
  counted := h.counted.quiet hq
  current := by
    refine h.current_of (fun c hsome => ?_) hq.epoch (by rw [hq.ops]; exact List.Subset.refl _)
    obtain ⟨v', hv'⟩ := Option.isSome_iff_exists.mp hsome
    obtain ⟨v, hv, -⟩ := hq.entries c v' hv'
    simp [hv]

theorem Tracked.joins {r : Hello} (h : Tracked st) (hj : Joins r st st') : Tracked st' where
  booked := h.booked.joins hj
  counted := h.counted.joins hj
  current := by
    refine h.current_of (fun c hsome => ?_) hj.epoch (by rw [hj.ops]; exact List.Subset.refl _)
    obtain ⟨v', hv'⟩ := Option.isSome_iff_exists.mp hsome
    obtain ⟨v, k, hv, -⟩ := hj.entries c v' hv'
    simp [hv]

/-- A new entry of a chunk that is not being replicated. -/
theorem Tracked.creates (h : Tracked st) (hc : Creates chunkId v st st') (hnone : st.opsOf chunkId = []) :
    Tracked st' where
  booked := h.booked.creates hc
  counted := h.counted.creates h.booked hc
  current := by
    rw [hc.ops, hc.epoch, hc.map]
    intro o ho hsome
    have hne : o.chunkId ≠ chunkId := by
      intro heq
      have hm : o ∈ st.opsOf chunkId := mem_opsOf.mpr ⟨ho, heq⟩
      rw [hnone] at hm
      exact List.not_mem_nil hm
    rw [Function.update_of_ne hne] at hsome ⊢
    exact h.current o ho hsome

theorem Tracked.move {ok : Prop} (hm : Move ok st st') (h : Tracked st) : Tracked st' := by
  rcases hm.quiet_or_start with hq | ⟨c, v, v', news, same, found, -, map, -, -, ops, -, new, -⟩
  · exact h.quiet hq
  refine ⟨h.booked.move hm, h.counted.move hm, ?_⟩
  rw [ops, same.epoch, map]
  intro o ho hsome
  rcases List.mem_append.mp ho with ho | ho
  · by_cases heq : o.chunkId = c
    · exact h.current o ho (by simp [heq, found])
    · rw [Function.update_of_ne heq] at hsome
      exact h.current o ho hsome
  · obtain ⟨h₁, h₂, -⟩ := new o ho
    rw [h₂, h₁]

/-- The entries keep their replications when one is taken out. -/
theorem Tracked.finish {i : ℕ} {req : ChunkReplicate} (h : Tracked st) (hi : st.ops[i]? = some req)
    (ho : Over req { st with ops := st.ops.eraseIdx i } st') : Tracked st' where
  booked := h.booked.finish hi ho
  counted := by
    refine h.counted.finish hi (fun v hv => Or.inl ?_) ho
    exact h.current req (List.mem_of_getElem? hi) (by simp [hv])
  current := by
    refine h.current_of (fun c hsome => ?_) ho.same.epoch ?_
    · rw [ho.map] at hsome
      split_ifs at hsome with heq
      · rw [Option.isSome_map] at hsome
        exact hsome
      · exact hsome
    · rw [ho.ops]
      exact fun o hm => List.mem_of_mem_eraseIdx hm

theorem Tracked.setEntry {v' : ChunkPlacementInfo} (h : Tracked st) (hv : st.entry c = some v)
    (ho : v'.ongoingReplications = v.ongoingReplications) : Tracked (st.setEntry c v') where
  booked := setEntry_booked h.booked
  counted := setEntry_counted h.counted hv ho
  current := by
    refine h.current_of (fun x hsome => ?_) rfl (List.Subset.refl _)
    rw [setEntry_entry] at hsome
    by_cases heq : x = c
    · simp [heq, hv]
    · rwa [Function.update_of_ne heq] at hsome

/-- No entry is created for a chunk that is being replicated. -/
def freshStep (st : Placement) : PlaceEv → Bool
  | .allocate chunkId _ _ _ _ => (st.opsOf chunkId).isEmpty
  | .renew chunkId _ _ _ => (st.entry chunkId).isSome || (st.opsOf chunkId).isEmpty
  | _ => true

theorem Tracked.step (h : Tracked st) (hc : st.freshStep e = true) (hs : st.step e = some st') : Tracked st' := by
  have hr := h.booked.rostered
  cases he : e.isQuiet with
  | true => exact h.quiet (step_quiet he hs)
  | false =>
    cases e with
    | hello r rackId totalSpace usedSpace now =>
      rw [Placement.step] at hs
      split_ifs at hs with hd
      have hnew : st.mHelloDone r.server = false := by simpa using hd
      exact h.joins (AddNewServer_joins hr hnew hs)
    | allocate chunkId fid n clientHost w =>
      obtain rfl := Option.some.inj hs
      rcases AllocateChunk_cases st chunkId fid n clientHost w hr with hq | ⟨v, -, -, hcr⟩
      · exact h.quiet hq
      · exact h.creates hcr (by simpa [freshStep] using hc)
    | renew chunkId leaseType leaseId t =>
      obtain rfl := Option.some.inj hs
      rcases LeaseRenew_cases st chunkId leaseType leaseId t with hq | ⟨v, -, hv, hcr⟩
      · exact h.quiet hq
      · exact h.creates hcr (by simpa [freshStep, hv] using hc)
    | check r => exact (ChunkReplicationChecker_moves hr False.elim hs).invariant Tracked.move h
    | done i status fid chunkVersion w =>
      rw [Placement.step] at hs
      split at hs
      · cases hs
      · rename_i req hi
        have hreq : st.mHelloDone req.server = true := h.booked.hello req (List.mem_of_getElem? hi)
        obtain ⟨st₁, ho, hcase⟩ := ChunkReplicationDone_cases False hs hreq
        have h₁ := h.finish hi ho
        rcases hcase with rfl | ⟨-, hm⟩ | ⟨v, hv, hm⟩
        · exact h₁
        · exact hm.invariant Tracked.move h₁
        · exact hm.invariant Tracked.move (h₁.setEntry hv rfl)
    | _ => cases he

theorem Start.tracked (h : st.Start) : Tracked st := ⟨h.booked, h.counted, by simp [h.ops]⟩

/-! ## Distinct holders -/

theorem Distinct.tracked (h : Distinct st) : Tracked st := ⟨h.booked, h.counted, h.current⟩

/-- A holder has said HELLO. -/
theorem Distinct.hello (h : Distinct st) (hv : st.entry c = some v) (hs : s ∈ st.holders c v) :
    st.mHelloDone s = true := by
  rcases List.mem_append.mp hs with hs | hs
  · exact h.known c v hv s hs
  · obtain ⟨o, ho, rfl⟩ := List.mem_map.mp hs
    exact h.booked.hello o (mem_opsOf.mp ho).1

theorem Distinct.quiet (h : Distinct st) (hq : Quiet st st') : Distinct st' where
  booked := h.booked.quiet hq
  counted := h.counted.quiet hq
  current := (h.tracked.quiet hq).current
  known := by
    rw [hq.hello]
    intro c v' hv' s hs
    obtain ⟨v, hv, -, hsub⟩ := hq.entries c v' hv'
    exact h.known c v hv s (hsub.subset hs)
  nodup := by
    intro c v' hv'
    obtain ⟨v, hv, -, hsub⟩ := hq.entries c v' hv'
    have hops : st'.opsOf c = st.opsOf c := by rw [opsOf, hq.ops, opsOf]
    have hall := h.nodup c v hv
    unfold holders at hall ⊢
    rw [hops]
    obtain ⟨l, hp, hl⟩ := hsub
    refine (hp.append_right _).nodup_iff.mp ?_
    exact hall.sublist (hl.append (List.Sublist.refl _))

/-- A HELLO that reports each chunk once. -/
theorem Distinct.joins {r : Hello} (h : Distinct st) (hj : Joins r st st') (hnew : st.mHelloDone r.server = false)
    (honce : (r.chunks.map ChunkInfo.chunkId).Nodup) : Distinct st' where
  booked := h.booked.joins hj
  counted := h.counted.joins hj
  current := (h.tracked.joins hj).current
  known := by
    rw [hj.hello]
    intro c v' hv' s hs
    obtain ⟨v, k, hv, -, -, heq⟩ := hj.entries c v' hv'
    by_cases hself : s = r.server
    · rw [hself, Function.update_self]
    · rw [Function.update_of_ne hself]
      rw [heq] at hs
      rcases List.mem_append.mp hs with hs | hs
      · exact h.known c v hv s hs
      · exact absurd (List.eq_of_mem_replicate hs) hself
  nodup := by
    intro c v' hv'
    obtain ⟨v, k, hv, -, hk, heq⟩ := hj.entries c v' hv'
    have hops : st'.opsOf c = st.opsOf c := by rw [opsOf, hj.ops, opsOf]
    have hk1 : k ≤ 1 := hk.trans (List.nodup_iff_count_le_one.mp honce c)
    have hall := h.nodup c v hv
    have hout : r.server ∉ st.holders c v := fun hm => Bool.false_ne_true (hnew.symm.trans (h.hello hv hm))
    unfold holders at hall hout ⊢
    rw [hops, heq]
    have hp : (v.chunkServers ++ List.replicate k r.server ++ (st.opsOf c).map ChunkReplicate.server).Perm
        (List.replicate k r.server ++ (v.chunkServers ++ (st.opsOf c).map ChunkReplicate.server)) := by
      rw [← List.append_assoc]
      exact List.perm_append_comm.append_right _
    refine hp.nodup_iff.mpr (List.Nodup.append (nodup_of_length_le_one (by simpa using hk1)) hall ?_)
    intro s hs hm
    exact hout (List.eq_of_mem_replicate hs ▸ hm)

/-- A new entry of a chunk that is not being replicated. -/
theorem Distinct.creates (h : Distinct st) (hc : Creates chunkId v st st') (hnone : st.opsOf chunkId = [])
    (hn : v.chunkServers.Nodup) (hk : ∀ s ∈ v.chunkServers, st.mHelloDone s = true) : Distinct st' where
  booked := h.booked.creates hc
  counted := h.counted.creates h.booked hc
  current := (h.tracked.creates hc hnone).current
  known := by
    rw [hc.hello, hc.map]
    intro c w hw
    by_cases heq : c = chunkId
    · subst heq
      rw [Function.update_self] at hw
      obtain rfl := Option.some.inj hw
      exact hk
    · rw [Function.update_of_ne heq] at hw
      exact h.known c w hw
  nodup := by
    rw [hc.map]
    intro c w hw
    have hops : st'.opsOf c = st.opsOf c := by rw [opsOf, hc.ops, opsOf]
    unfold holders
    rw [hops]
    by_cases heq : c = chunkId
    · subst heq
      rw [Function.update_self] at hw
      obtain rfl := Option.some.inj hw
      rw [hnone, List.map_nil, List.append_nil]
      exact hn
    · rw [Function.update_of_ne heq] at hw
      exact h.nodup c w hw

/-- Replications are started of a chunk that has none, and of servers that do not have it. -/
theorem Distinct.move {ok : Prop} (hok : ok) (hm : Move ok st st') (h : Distinct st) : Distinct st' := by
  rcases hm.quiet_or_start with hq | ⟨c, v, v', news, same, found, rest, map, -, servers, ops, -, new, nodup⟩
  · exact h.quiet hq
  have hentry : ∀ x w, st'.entry x = some w → (x = c ∧ w = v') ∨ (x ≠ c ∧ st.entry x = some w) := by
    intro x w hw
    rw [map] at hw
    by_cases heq : x = c
    · subst heq
      rw [Function.update_self] at hw
      exact Or.inl ⟨rfl, (Option.some.inj hw).symm⟩
    · rw [Function.update_of_ne heq] at hw
      exact Or.inr ⟨heq, hw⟩
  have hnews : ∀ x, news.filter (fun o => decide (o.chunkId = x)) = if x = c then news else [] := by
    intro x
    split_ifs with heq
    · exact List.filter_eq_self.mpr fun o ho => decide_eq_true ((new o ho).1.trans heq.symm)
    · exact List.filter_eq_nil_iff.mpr fun o ho hx => heq ((of_decide_eq_true hx).symm.trans (new o ho).1)
  refine ⟨h.booked.move hm, h.counted.move hm, (h.tracked.move hm).current, ?_, ?_⟩
  · rw [same.hello]
    intro x w hw s hs
    rcases hentry x w hw with ⟨rfl, rfl⟩ | ⟨-, hw⟩
    · rw [servers] at hs
      exact h.known x v found s hs
    · exact h.known x w hw s hs
  · intro x w hw
    unfold holders opsOf
    rw [ops, List.filter_append, hnews]
    rcases hentry x w hw with ⟨rfl, rfl⟩ | ⟨hne, hw⟩
    · have hnil : st.ops.filter (fun o => decide (o.chunkId = x)) = [] := h.tracked.opsOf_nil found rest
      have hv := (List.nodup_append'.mp (h.nodup x v found)).1
      rw [if_pos rfl, hnil, List.nil_append, servers]
      refine List.Nodup.append hv (nodup hok) ?_
      intro s hs hn
      obtain ⟨o, ho, rfl⟩ := List.mem_map.mp hn
      exact (new o ho).2.2.1 hs
    · rw [if_neg hne, List.append_nil]
      exact h.nodup x w hw

/-! ## The end of a replication -/

variable {i : ℕ} {req : ChunkReplicate}

/-- A replication that is taken out leaves the other holders, and its own server is none of them. -/
theorem Distinct.finish (h : Distinct st) (hi : st.ops[i]? = some req)
    (ho : Over req { st with ops := st.ops.eraseIdx i } st') :
    Distinct st' ∧ ∀ v, st'.entry req.chunkId = some v → req.server ∉ st'.holders req.chunkId v := by
  have hp := eraseIdx_perm hi
  -- the servers of the entries are the same
  have hentry : ∀ c v', st'.entry c = some v' → ∃ v, st.entry c = some v ∧ v'.chunkServers = v.chunkServers := by
    intro c v' hv'
    rw [ho.map] at hv'
    split_ifs at hv' with heq
    · obtain ⟨v, hv, rfl⟩ := Option.map_eq_some_iff.mp hv'
      exact ⟨v, hv, rfl⟩
    · exact ⟨v', hv', rfl⟩
  have hops : ∀ c, (st.opsOf c).Perm (if c = req.chunkId then req :: st'.opsOf c else st'.opsOf c) := by
    intro c
    have hf := hp.filter fun o => decide (o.chunkId = c)
    rw [List.filter_cons] at hf
    have hst : st'.opsOf c = (st.ops.eraseIdx i).filter fun o => decide (o.chunkId = c) := by rw [opsOf, ho.ops]
    rw [hst, opsOf]
    by_cases heq : c = req.chunkId
    · subst heq
      simpa using hf
    · simpa [heq, Ne.symm heq] using hf
  have ht := h.tracked.finish hi ho
  refine ⟨⟨ht.booked, ht.counted, ht.current, ?_, ?_⟩, ?_⟩
  · rw [ho.same.hello]
    intro c v' hv' s hs
    obtain ⟨v, hv, heq⟩ := hentry c v' hv'
    exact h.known c v hv s (heq ▸ hs)
  · intro c v' hv'
    obtain ⟨v, hv, heq⟩ := hentry c v' hv'
    have hall := h.nodup c v hv
    have hperm := hops c
    unfold holders at hall ⊢
    rw [heq]
    have hn := (((hperm.map ChunkReplicate.server).append_left v.chunkServers).nodup_iff).mp hall
    split_ifs at hn with hc
    · rw [List.map_cons] at hn
      exact hn.sublist ((List.Sublist.refl _).append (List.sublist_cons_self _ _))
    · exact hn
  · intro v' hv'
    obtain ⟨v, hv, heq⟩ := hentry _ v' hv'
    have hall := h.nodup _ v hv
    have hperm := hops req.chunkId
    rw [if_pos rfl] at hperm
    unfold holders at hall ⊢
    rw [heq]
    have hn := (((hperm.map ChunkReplicate.server).append_left v.chunkServers).nodup_iff).mp hall
    rw [List.map_cons] at hn
    exact (List.nodup_middle.mp hn).notMem

/-- A server that is no holder is added to an entry. -/
theorem Distinct.append (h : Distinct st) (hv : st.entry c = some v) (hs : s ∉ st.holders c v)
    (hello : st.mHelloDone s = true) :
    Distinct (st.setEntry c { v with chunkServers := v.chunkServers ++ [s] }) := by
  have hentry : ∀ x w, (st.setEntry c { v with chunkServers := v.chunkServers ++ [s] }).entry x = some w →
      (x = c ∧ w.chunkServers = v.chunkServers ++ [s]) ∨ (x ≠ c ∧ st.entry x = some w) := by
    intro x w hw
    rw [setEntry_entry] at hw
    by_cases heq : x = c
    · subst heq
      rw [Function.update_self] at hw
      exact Or.inl ⟨rfl, by rw [← Option.some.inj hw]⟩
    · rw [Function.update_of_ne heq] at hw
      exact Or.inr ⟨heq, hw⟩
  have ht : Tracked (st.setEntry c { v with chunkServers := v.chunkServers ++ [s] }) := h.tracked.setEntry hv rfl
  refine ⟨ht.booked, ht.counted, ht.current, ?_, ?_⟩
  · intro x w hw y hy
    rcases hentry x w hw with ⟨rfl, heq⟩ | ⟨-, hw⟩
    · rw [heq] at hy
      rcases List.mem_append.mp hy with hy | hy
      · exact h.known x v hv y hy
      · rw [List.mem_singleton.mp hy]
        exact hello
    · exact h.known x w hw y hy
  · intro x w hw
    rcases hentry x w hw with ⟨rfl, heq⟩ | ⟨-, hw⟩
    · change (w.chunkServers ++ (st.opsOf x).map ChunkReplicate.server).Nodup
      rw [heq, List.append_assoc]
      exact List.nodup_middle.mpr (List.nodup_cons.mpr ⟨hs, h.nodup x v hv⟩)
    · exact h.nodup x w hw

/-! ## Runs -/

theorem Start.distinct (h : st.Start) : Distinct st := by
  refine ⟨h.booked, h.counted, ?_, ?_, ?_⟩
  · simp [h.ops]
  · intro c v hv
    simp [(h.entries c v hv).2]
  · intro c v hv
    simp [holders, opsOf, h.ops, (h.entries c v hv).2]

/-- The racks are apart when more than one server is searched, a HELLO reports a chunk once, and no entry is created for
a chunk while it is being replicated. -/
def apartStep (st : Placement) : PlaceEv → Bool
  | .hello r _ _ _ _ => decide (r.chunks.map ChunkInfo.chunkId).Nodup
  | .allocate chunkId _ numReplicas _ _ => decide (st.Apart numReplicas) && (st.opsOf chunkId).isEmpty
  | .renew chunkId _ _ _ => (st.entry chunkId).isSome || (st.opsOf chunkId).isEmpty
  | .check r => decide (st.ChecksApart r.check r.checked)
  | _ => true

theorem Distinct.step (h : Distinct st) (hc : st.apartStep e = true) (hs : st.step e = some st') : Distinct st' := by
  have hr := h.booked.rostered
  cases he : e.isQuiet with
  | true => exact h.quiet (step_quiet he hs)
  | false =>
    cases e with
    | hello r rackId totalSpace usedSpace now =>
      rw [Placement.step] at hs
      split_ifs at hs with hd
      have hnew : st.mHelloDone r.server = false := by simpa using hd
      exact h.joins (AddNewServer_joins hr hnew hs) hnew (of_decide_eq_true hc)
    | allocate chunkId fid n clientHost w =>
      obtain rfl := Option.some.inj hs
      obtain ⟨ha, hnone⟩ : st.Apart n ∧ st.opsOf chunkId = [] := by simpa [apartStep] using hc
      rcases AllocateChunk_cases st chunkId fid n clientHost w hr with hq | ⟨v, heq, hpos, hcr⟩
      · exact h.quiet hq
      · obtain ⟨-, -, hn, hmem⟩ := hr.allocateServers_spec clientHost w hpos
        refine h.creates hcr hnone ?_ ?_
        · rw [heq]
          exact hn ha
        · rw [heq]
          exact fun s hs => (hmem s hs).1
    | renew chunkId leaseType leaseId t =>
      obtain rfl := Option.some.inj hs
      rcases LeaseRenew_cases st chunkId leaseType leaseId t with hq | ⟨v, hnil, hv, hcr⟩
      · exact h.quiet hq
      · have hnone : st.opsOf chunkId = [] := by simpa [apartStep, hv] using hc
        exact h.creates hcr hnone (by simp [hnil]) (by simp [hnil])
    | check r =>
      have ha : st.ChecksApart r.check r.checked := of_decide_eq_true hc
      exact (ChunkReplicationChecker_moves hr (fun _ => ha) hs).invariant (Distinct.move ha) h
    | done i status fid chunkVersion w =>
      rw [Placement.step] at hs
      split at hs
      · cases hs
      · rename_i req hi
        have hreq : st.mHelloDone req.server = true := h.booked.hello req (List.mem_of_getElem? hi)
        obtain ⟨st₁, ho, hcase⟩ := ChunkReplicationDone_cases True hs hreq
        obtain ⟨h₁, hout⟩ := h.finish hi ho
        have hreq₁ : st₁.mHelloDone req.server = true := by
          rw [ho.same.hello]
          exact hreq
        rcases hcase with rfl | ⟨-, hm⟩ | ⟨v, hv, hm⟩
        · exact h₁
        · exact hm.invariant (Distinct.move trivial) h₁
        · exact hm.invariant (Distinct.move trivial) (h₁.append hv (hout v hv) hreq₁)
    | _ => cases he

/-- What `AllocateChunk` answers, if it is asked for replicas. -/
theorem AllocateChunk_answer {n : ℕ} (hn : 0 < n) (fid : ℤ) (clientHost : Str) (w : Visit) :
    ((st.AllocateChunk chunkId fid n clientHost w).1 = -ENOSPC ∨
      ((st.AllocateChunk chunkId fid n clientHost w).1 = 0 ∧
        0 < (st.AllocateChunk chunkId fid n clientHost w).2.1.length)) ∧
    (st.AllocateChunk chunkId fid n clientHost w).2.1 = (st.allocateServers n clientHost w).1 := by
  unfold AllocateChunk
  rw [if_neg hn.ne']
  generalize st.allocateServers n clientHost w = p
  obtain ⟨servers, st₁⟩ := p
  dsimp only
  have hn' : (n : ℤ) ≠ 0 := by exact_mod_cast hn.ne'
  cases servers with
  | nil =>
    have he : st₁.cl.lm.AllocateChunk chunkId fid n [] w.clock = (-ENOSPC, st₁.cl.lm) := by
      rw [LayoutManager.AllocateChunk, if_neg hn']
    rw [he]
    dsimp only
    rw [if_pos (by decide)]
    exact ⟨Or.inl rfl, rfl⟩
  | cons m rest =>
    have he : (st₁.cl.lm.AllocateChunk chunkId fid n (m :: rest) w.clock).1 = 0 := by
      rw [LayoutManager.AllocateChunk, if_neg hn']
    generalize st₁.cl.lm.AllocateChunk chunkId fid n (m :: rest) w.clock = q at he
    obtain ⟨status, lm⟩ := q
    obtain rfl : status = 0 := he
    dsimp only
    rw [if_neg (not_not.mpr rfl)]
    exact ⟨Or.inr ⟨rfl, Nat.succ_pos _⟩, rfl⟩

/-- A candidate is not retiring and has room for a chunk. -/
theorem candidate_room {i : ServerInfo} (h : i.IsCandidateServer = true) :
    i.mIsRetiring = false ∧ CHUNKSIZE ≤ i.GetAvailSpace := by
  simp only [ServerInfo.IsCandidateServer, Bool.not_eq_true', Bool.or_eq_false_iff, decide_eq_false_iff_not,
    not_lt] at h
  exact ⟨h.2, h.1.1⟩

/-- The requests of `ReplicateChunk`. -/
theorem ReplicateChunk_sent {n k : ℕ} {w : Visit} (hr : Rostered st) (hn : 0 < n)
    (h : st.ReplicateChunk chunkId v n w = some (k, st')) :
    ∃ news, st'.ops = st.ops ++ news ∧ news.length = k ∧ k ≤ n ∧
      (st.Apart n → (news.map ChunkReplicate.server).Nodup) ∧
      ∀ o ∈ news, o.chunkId = chunkId ∧ o.server ∉ v.chunkServers := by
  obtain ⟨hre, hlen, hnd, -⟩ := hr.replicateServers_spec v.chunkServers w hn
  unfold ReplicateChunk at h
  generalize st.replicateServers v.chunkServers n w = p at h hre hlen hnd
  obtain ⟨candidates, st₁⟩ := p
  dsimp only at h hre hlen hnd
  obtain ⟨news, rfl, hs⟩ := ReplicateChunkTo_sent h
  have hsub : (news.map ChunkReplicate.server).Sublist candidates := hs.servers.trans (List.take_sublist n _)
  obtain ⟨racks, -, rfl⟩ := hre
  refine ⟨news, hs.ops, rfl, ?_, fun ha => (hnd ha).sublist hsub, fun o ho => ?_⟩
  · simpa using hsub.length_le.trans hlen
  · exact ⟨(hs.new o ho).1, (hs.new o ho).2.2⟩

/-- **Replicas are on distinct servers**: along every run in which the racks are apart when more than one server is
searched, a HELLO reports a chunk once, and no entry is created for a chunk that is being replicated, no server is
listed twice for a chunk, and the servers that an allocation or a replication picks next are distinct. -/
theorem replicas_distinct {st₀ : Placement} {es : List PlaceEv} (h₀ : st₀.Start)
    (hr : run apartStep es st₀ = some st) :
    (∀ c v, st.entry c = some v → v.chunkServers.Nodup) ∧
      (∀ (chunkId fid : ℤ) (n : ℕ) (clientHost : Str) (w : Visit), 0 < n →
        let (status, servers, _) := st.AllocateChunk chunkId fid n clientHost w
        (status = -ENOSPC ∨ status = 0 ∧ 1 ≤ servers.length) ∧ servers.length ≤ n ∧
          (∀ s ∈ servers, (st.info s).mIsRetiring = false ∧ CHUNKSIZE ≤ (st.info s).GetAvailSpace) ∧
          (st.Apart n → servers.Nodup)) ∧
      ∀ (chunkId : ℤ) (v : ChunkPlacementInfo) (n k : ℕ) (w : Visit) (st' : Placement), 0 < n →
        st.ReplicateChunk chunkId v n w = some (k, st') →
        ∃ news, st'.ops = st.ops ++ news ∧ news.length = k ∧ k ≤ n ∧
          (st.Apart n → (news.map ChunkReplicate.server).Nodup) ∧
          ∀ o ∈ news, o.chunkId = chunkId ∧ o.server ∉ v.chunkServers := by
  have hd : Distinct st := run_invariant (fun h hc hs => h.step hc hs) h₀.distinct hr
  have hros := hd.booked.rostered
  refine ⟨?_, ?_, ?_⟩
  · exact fun c v hv => (List.nodup_append'.mp (hd.nodup c v hv)).1
  · intro chunkId fid n clientHost w hn
    obtain ⟨hstatus, heq⟩ := @AllocateChunk_answer st chunkId n hn fid clientHost w
    obtain ⟨-, hlen, hnd, hmem⟩ := hros.allocateServers_spec clientHost w hn
    rw [← heq] at hlen hnd hmem
    exact ⟨hstatus, hlen, fun s hs => candidate_room (hmem s hs).2, hnd⟩
  · exact fun chunkId v n k w st' hn h => ReplicateChunk_sent hros hn h

/-- Two racks, a chunk on both of them, and a second copy of chunk 7. -/
def apartRun : List PlaceEv :=
  [joins 0 30000 0 [⟨3, 7, 1⟩], joins 1 30001 1 [], .allocate 9 3 2 ['c'] still, .change 7, checks [7],
    .done 0 0 3 1 ⟨[], fun _ => still, fun _ => still⟩]

theorem apartRun_distinct : ∃ st, run apartStep apartRun restarted = some st ∧
    (st.entry 7).map ChunkPlacementInfo.chunkServers = some [0, 1] ∧
    ∀ c v, st.entry c = some v → v.chunkServers.Nodup := by
  obtain ⟨st, hr, h7⟩ : ∃ st, run apartStep apartRun restarted = some st ∧
      (st.entry 7).map ChunkPlacementInfo.chunkServers = some [0, 1] := by
    have hall : ((run apartStep apartRun restarted).bind fun st =>
        (st.entry 7).map ChunkPlacementInfo.chunkServers) = some [0, 1] := by decide +kernel
    obtain ⟨st, hr, h7⟩ := Option.bind_eq_some_iff.mp hall
    exact ⟨st, hr, h7⟩
  exact ⟨st, hr, h7, (replicas_distinct restarted_start hr).1⟩

/-- Server 1 is on rack 0; the rack of server 0 is not known. -/
def unknownRun : List PlaceEv :=
  [joins 1 30001 0 [], joins 0 30000 (-1) [], .allocate 9 3 2 ['c'] still]

/-- **Rack -1 offers the servers of rack 0 again**: an allocation with two replicas places both on one server. -/
theorem unknownRun_not_distinct : restarted.Start ∧
    (run (fun _ _ => true) unknownRun restarted).bind (fun st =>
      (st.entry 9).map ChunkPlacementInfo.chunkServers) = some [1, 1] :=
  ⟨restarted_start, by decide +kernel⟩

end Placement

end Kfs
