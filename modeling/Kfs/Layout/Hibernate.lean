import Kfs.Layout.Servers

/-!
# Hibernated servers

`RetireServer` with a down-time promises that the chunks of the server are left alone until it is to be back.
The record of the promise is made while the server is still connected, and `CheckHibernatingServersStatus`
takes a connected server for one that has come back.

* `Promise`: what the metaserver has promised, whatever its records say; `promisesAfter`;
* `Cluster.Keeps`: what a step must do to keep the promises;
* `Cluster.Quiet`: no check is made while a server with a record is connected;
* **`hibernation_kept`**: in a run of quiet steps every step keeps every promise.
-/

namespace Kfs

/-- A server is to be back at `sleepEndTime`; `hosted` is what it had when it went to sleep, once it has. -/
structure Promise where
  location : ServerLocation
  sleepEndTime : ℤ
  hosted : Option (ℤ → Prop)

/-- The server goes to sleep with its chunks. -/
def Promise.sleep (loc : ServerLocation) (hosted : ℤ → Prop) (p : Promise) : Promise :=
  match p.hosted with
  | none => if p.location = loc then { p with hosted := some hosted } else p
  | some _ => p

/-- The server is awake, or is still to sleep in `cl`. -/
def Promise.stands (cl : Cluster) (now : ℤ) (p : Promise) : Bool :=
  p.hosted.isNone || (!cl.connected p.location && decide (now < p.sleepEndTime))

namespace Cluster

variable {cl cl' : Cluster} {ps : List Promise} {now : ℤ}

/-! ## Promises -/

/-- The promises after a step from `cl` to `cl'`. A promise ends at the check that finds the server back, or
its time over. -/
def promisesAfter (cl cl' : Cluster) (ps : List Promise) : ClusterEv → List Promise
  | .retire loc downtime now => if cl.connected loc then ps ++ [⟨loc, now + downtime, none⟩] else ps
  | .bye server _ =>
    if server ∈ cl.lm.mChunkServers then ps.map (Promise.sleep (cl.location server) (Hosts cl server)) else ps
  | .hello r now =>
    if cl.down r.server = false ∧ cl.connected r.location = false then ps.filter (Promise.stands cl' now) else ps
  | .check now => ps.filter (Promise.stands cl' now)
  | _ => ps

/-- A check puts the chunks of the servers that are late among the candidates, and no others but `extra`. -/
def ChecksRightly (cl cl' : Cluster) (ps : List Promise) (now : ℤ) (extra : ℤ → Prop) : Prop :=
  (∀ p ∈ ps, ∀ hosted, p.hosted = some hosted → cl'.connected p.location = false → p.sleepEndTime ≤ now →
      ∀ c, hosted c → cl'.mChunkReplicationCandidates c = true) ∧
    ∀ c, cl'.mChunkReplicationCandidates c = true → cl.mChunkReplicationCandidates c = true ∨ extra c ∨
      ∃ p ∈ ps, p.hosted.isSome = true ∧ p.sleepEndTime ≤ now

/-- The step keeps the promises: a server that goes to sleep before its time is over brings no chunk among the
candidates, and a check acts on the servers that are late, and on no others. -/
def Keeps (cl cl' : Cluster) (ps : List Promise) : ClusterEv → Prop
  | .bye server now =>
    ∀ p ∈ ps, server ∈ cl.lm.mChunkServers → p.location = cl.location server → now < p.sleepEndTime →
      cl'.mChunkReplicationCandidates = cl.mChunkReplicationCandidates
  | .hello r now =>
    cl.down r.server = false → cl.connected r.location = false →
      ChecksRightly cl cl' ps now fun c => ∃ i ∈ r.chunks, i.chunkId = c
  | .check now => ChecksRightly cl cl' ps now fun _ => False
  | _ => True

/-- No check finds a server connected that has a record, and no second record is made for a server. -/
def Quiet (cl : Cluster) : ClusterEv → Prop
  | .retire loc _ _ => ∀ h ∈ cl.mHibernatingServers, h.location ≠ loc
  | .hello r _ => cl.down r.server = false → cl.connected r.location = false →
      ∀ h ∈ cl.mHibernatingServers, cl.connected h.location = false
  | .check _ => ∀ h ∈ cl.mHibernatingServers, cl.connected h.location = false
  | _ => True

instance Quiet.decide (cl : Cluster) : (e : ClusterEv) → Decidable (cl.Quiet e)
  | .retire loc _ _ => inferInstanceAs (Decidable (∀ h ∈ cl.mHibernatingServers, h.location ≠ loc))
  | .hello r _ => inferInstanceAs (Decidable (cl.down r.server = false → cl.connected r.location = false →
      ∀ h ∈ cl.mHibernatingServers, cl.connected h.location = false))
  | .check _ => inferInstanceAs (Decidable (∀ h ∈ cl.mHibernatingServers, cl.connected h.location = false))
  | .netError _ | .bye _ _ | .replicate _ | .place _ => isTrue trivial

/-! ## The records and the promises -/

/-- The records are those of the promises, one for each location. -/
structure Recorded (cl : Cluster) (ps : List Promise) : Prop where
  one : (cl.mHibernatingServers.map HibernatingServerInfo.location).Nodup
  record : ∀ p ∈ ps, ∃ h ∈ cl.mHibernatingServers, h.location = p.location ∧
    h.sleepEndTime = p.sleepEndTime ∧ ∀ hosted, p.hosted = some hosted → ∀ c, hosted c → h.blocks c = true
  promise : ∀ h ∈ cl.mHibernatingServers, ∃ p ∈ ps, p.location = h.location ∧ p.sleepEndTime = h.sleepEndTime
  awake : ∀ p ∈ ps, p.hosted = none → cl.connected p.location = true
  asleep : ∀ p ∈ ps, p.hosted.isSome = true → cl.connected p.location = false

/-- The check as a whole: the records that stay, and the chunks that are added. -/
theorem checkLoop_eq (cl : Cluster) (now : ℤ) : ∀ (hs : List HibernatingServerInfo) (cand : ℤ → Bool),
    cl.checkLoop now hs cand =
      (hs.filter fun h => !cl.connected h.location && decide (now < h.sleepEndTime),
        fun c => cand c || hs.any fun h =>
          !cl.connected h.location && !decide (now < h.sleepEndTime) && h.blocks c)
  | [], cand => by simp [checkLoop]
  | h :: hs, cand => by
    unfold checkLoop
    cases hc : cl.connected h.location with
    | true => simp [checkLoop_eq cl now hs, hc]
    | false =>
      by_cases hn : now < h.sleepEndTime
      · simp [checkLoop_eq cl now hs, hc, hn]
      · simp [checkLoop_eq cl now hs, hc, hn, Bool.or_assoc]

/-- Note the chunks in the record of the location. -/
def mark (loc : ServerLocation) (keys : ℤ → Bool) (h : HibernatingServerInfo) : HibernatingServerInfo :=
  if h.location = loc then { h with blocks := fun x => h.blocks x || keys x } else h

theorem mark_location (loc : ServerLocation) (keys : ℤ → Bool) (h : HibernatingServerInfo) :
    (mark loc keys h).location = h.location ∧ (mark loc keys h).sleepEndTime = h.sleepEndTime := by
  unfold mark
  split_ifs <;> exact ⟨rfl, rfl⟩

theorem mark_blocks {loc : ServerLocation} {keys : ℤ → Bool} {h : HibernatingServerInfo} {c : ℤ}
    (hb : h.blocks c = true ∨ (h.location = loc ∧ keys c = true)) : (mark loc keys h).blocks c = true := by
  unfold mark
  split_ifs with hl
  · rcases hb with hb | ⟨-, hb⟩
    · simp [hb]
    · simp [hb]
  · exact hb.resolve_right fun hk => hl hk.1

/-- With one record for each location, `recordBlocks` marks the record of the location. -/
theorem recordBlocks_eq {loc : ServerLocation} {keys : ℤ → Bool} : ∀ {hs : List HibernatingServerInfo},
    (hs.map HibernatingServerInfo.location).Nodup →
    recordBlocks loc keys hs =
      if ∃ h ∈ hs, h.location = loc then some (hs.map (mark loc keys)) else none
  | [], _ => by simp [recordBlocks]
  | h :: hs, hnd => by
    rw [List.map_cons, List.nodup_cons] at hnd
    rw [recordBlocks]
    by_cases hl : h.location = loc
    · -- no other record has this location
      have hrest : hs.map (mark loc keys) = hs := by
        conv_rhs => rw [← List.map_id hs]
        refine List.map_congr_left fun x hx => if_neg fun hx' => hnd.1 ?_
        rw [hl, ← hx']
        exact List.mem_map_of_mem hx
      simp [hl, hrest, mark]
    · rw [if_neg hl, recordBlocks_eq hnd.2]
      by_cases hex : ∃ x ∈ hs, x.location = loc
      · simp [hl, hex, mark]
      · simp [hl, hex]

theorem Recorded.of_frame (h : Recorded cl ps) (hh : cl'.mHibernatingServers = cl.mHibernatingServers)
    (hc : ∀ loc, cl'.connected loc = cl.connected loc) : Recorded cl' ps where
  one := hh ▸ h.one
  record p hp := hh ▸ h.record p hp
  promise x hx := h.promise x (hh ▸ hx)
  awake p hp hn := (hc _).trans (h.awake p hp hn)
  asleep p hp hs := (hc _).trans (h.asleep p hp hs)

/-- A check, with `cl₁` as it is before it: no server with a record that is still awake is connected. -/
theorem Recorded.check {extra : ℤ → Prop} (h : Recorded cl ps) (now : ℤ) (cl₁ : Cluster)
    (hh : cl₁.mHibernatingServers = cl.mHibernatingServers)
    (hcand : ∀ c, cl₁.mChunkReplicationCandidates c = true → cl.mChunkReplicationCandidates c = true ∨ extra c)
    (hall : ∀ p ∈ ps, p.hosted.isSome = true) :
    ChecksRightly cl (cl₁.CheckHibernatingServersStatus now) ps now extra ∧
      Recorded (cl₁.CheckHibernatingServersStatus now)
        (ps.filter (Promise.stands (cl₁.CheckHibernatingServersStatus now) now)) := by
  have hcl : ∀ loc, (cl₁.CheckHibernatingServersStatus now).connected loc = cl₁.connected loc := fun _ => rfl
  have hrec : (cl₁.CheckHibernatingServersStatus now).mHibernatingServers =
      cl.mHibernatingServers.filter fun h => !cl₁.connected h.location && decide (now < h.sleepEndTime) := by
    rw [← hh]
    exact congrArg Prod.fst (checkLoop_eq cl₁ now _ _)
  have hc : ∀ c, (cl₁.CheckHibernatingServersStatus now).mChunkReplicationCandidates c =
      (cl₁.mChunkReplicationCandidates c || cl.mHibernatingServers.any fun h =>
        !cl₁.connected h.location && !decide (now < h.sleepEndTime) && h.blocks c) := by
    intro c
    rw [← hh]
    exact congrFun (congrArg Prod.snd (checkLoop_eq cl₁ now _ _)) c
  -- a promise of a sleeping server stands as long as its record stays
  have hstands : ∀ p ∈ ps, Promise.stands (cl₁.CheckHibernatingServersStatus now) now p =
      (!cl₁.connected p.location && decide (now < p.sleepEndTime)) := by
    intro p hp
    obtain ⟨hosted, hpo⟩ := Option.isSome_iff_exists.mp (hall p hp)
    simp [Promise.stands, hcl, hpo]
  refine ⟨⟨?_, ?_⟩, ?_⟩
  · intro p hp hosted hpo hconn hle c hcc
    obtain ⟨r, hr, hloc, hend, hb⟩ := h.record p hp
    rw [hcl] at hconn
    rw [hc, Bool.or_eq_true, List.any_eq_true]
    refine Or.inr ⟨r, hr, ?_⟩
    simp [hloc, hend, hconn, hb hosted hpo c hcc, hle]
  · intro c hcc
    rw [hc, Bool.or_eq_true, List.any_eq_true] at hcc
    rcases hcc with hcc | ⟨r, hr, hcc⟩
    · exact (hcand c hcc).imp_right Or.inl
    · simp only [Bool.and_eq_true, Bool.not_eq_true', decide_eq_false_iff_not, not_lt] at hcc
      obtain ⟨p, hp, -, hend⟩ := h.promise r hr
      exact Or.inr (Or.inr ⟨p, hp, hall p hp, hend.trans_le hcc.1.2⟩)
  · refine ⟨?_, ?_, ?_, ?_, ?_⟩
    · rw [hrec]
      exact h.one.sublist (List.filter_sublist.map _)
    · intro p hp
      obtain ⟨hp, hst⟩ := List.mem_filter.mp hp
      obtain ⟨r, hr, hloc, hend, hb⟩ := h.record p hp
      rw [hstands p hp] at hst
      refine ⟨r, ?_, hloc, hend, hb⟩
      rw [hrec]
      exact List.mem_filter.mpr ⟨hr, by rwa [hloc, hend]⟩
    · intro r hr
      rw [hrec] at hr
      obtain ⟨hr, hst⟩ := List.mem_filter.mp hr
      obtain ⟨p, hp, hloc, hend⟩ := h.promise r hr
      refine ⟨p, List.mem_filter.mpr ⟨hp, ?_⟩, hloc, hend⟩
      rwa [hstands p hp, hloc, hend]
    · intro p hp hn
      have := hall p (List.mem_of_mem_filter hp)
      rw [hn] at this
      cases this
    · intro p hp _
      obtain ⟨hp, hst⟩ := List.mem_filter.mp hp
      rw [hstands p hp] at hst
      simp only [Bool.and_eq_true, Bool.not_eq_true'] at hst
      exact hst.1

/-! ## Steps -/

variable {e : ClusterEv} {seen : List ServerId}

theorem connected_iff {loc : ServerLocation} :
    cl.connected loc = true ↔ ∃ s ∈ cl.lm.mChunkServers, cl.location s = loc := by
  simp [connected]

/-- With one server for each location, the location of a server that is gone is free. -/
theorem OneEach.connected_serverDown (h : OneEach cl seen) {server : ServerId} (hm : server ∈ cl.lm.mChunkServers)
    (loc : ServerLocation) :
    (cl.ServerDown server).connected loc = (cl.connected loc && !decide (loc = cl.location server)) := by
  have hlist : (cl.ServerDown server).lm.mChunkServers = cl.lm.mChunkServers.erase server := by
    rw [ServerDown_lm, LayoutManager.ServerDown, if_pos hm]
  have hnd : cl.lm.mChunkServers.Nodup := List.Nodup.of_map _ h.one
  rw [Bool.eq_iff_iff, connected_iff, Bool.and_eq_true, connected_iff, hlist, (ServerDown_location cl server).1]
  simp only [Bool.not_eq_true', decide_eq_false_iff_not]
  constructor
  · rintro ⟨s, hs, rfl⟩
    obtain ⟨hne, hs⟩ := (List.Nodup.mem_erase_iff hnd).mp hs
    exact ⟨⟨s, hs, rfl⟩, fun heq => hne (List.inj_on_of_nodup_map h.one hs hm heq)⟩
  · rintro ⟨⟨s, hs, rfl⟩, hne⟩
    exact ⟨s, (List.Nodup.mem_erase_iff hnd).mpr ⟨fun heq => hne (heq ▸ rfl), hs⟩, rfl⟩

theorem sleep_location (loc : ServerLocation) (hosted : ℤ → Prop) (p : Promise) :
    (p.sleep loc hosted).location = p.location ∧ (p.sleep loc hosted).sleepEndTime = p.sleepEndTime := by
  unfold Promise.sleep
  split
  · split_ifs <;> exact ⟨rfl, rfl⟩
  · exact ⟨rfl, rfl⟩

/-- The server of the location falls asleep, and no other. -/
theorem sleep_hosted (loc : ServerLocation) (hosted : ℤ → Prop) (p : Promise) :
    (p.sleep loc hosted).hosted = p.hosted ∧ ¬ (p.hosted = none ∧ p.location = loc) ∨
      (p.sleep loc hosted).hosted = some hosted ∧ p.hosted = none ∧ p.location = loc := by
  unfold Promise.sleep
  split
  · rename_i hn
    split_ifs with hl
    · exact Or.inr ⟨rfl, hn, hl⟩
    · exact Or.inl ⟨rfl, fun h => hl h.2⟩
  · rename_i hs
    exact Or.inl ⟨rfl, fun h => by simp [h.1] at hs⟩

theorem Hosts.keys {server : ServerId} {c : ℤ} (h : Hosts cl server c) : cl.keys c = true := by
  obtain ⟨v, hv, -⟩ := h
  simp [Cluster.keys, hv]

theorem Recorded.bye (h : Recorded cl ps) (h₁ : OneEach cl seen) {server : ServerId}
    (hm : server ∈ cl.lm.mChunkServers) :
    Keeps cl (cl.ServerDown server) ps (.bye server now) ∧
      Recorded (cl.ServerDown server) (ps.map (Promise.sleep (cl.location server) (Hosts cl server))) := by
  have hconn := h₁.connected_serverDown hm
  have hrec : (cl.ServerDown server).mHibernatingServers =
      cl.mHibernatingServers.map (mark (cl.location server) cl.keys) ∧
      ((∃ r ∈ cl.mHibernatingServers, r.location = cl.location server) →
        (cl.ServerDown server).mChunkReplicationCandidates = cl.mChunkReplicationCandidates) := by
    rw [ServerDown, if_neg (not_not.mpr hm), recordBlocks_eq h.one]
    by_cases hex : ∃ r ∈ cl.mHibernatingServers, r.location = cl.location server
    · rw [if_pos hex]
      exact ⟨rfl, fun _ => rfl⟩
    · rw [if_neg hex]
      refine ⟨?_, fun h => absurd h hex⟩
      conv_lhs => rw [← List.map_id cl.mHibernatingServers]
      refine List.map_congr_left fun r hr => ?_
      exact (if_neg fun hl => hex ⟨r, hr, hl⟩).symm
  refine ⟨?_, ?_, ?_, ?_, ?_, ?_⟩
  · intro p hp _ hloc _
    obtain ⟨r, hr, hrl, -⟩ := h.record p hp
    exact hrec.2 ⟨r, hr, hrl.trans hloc⟩
  · rw [hrec.1, List.map_map]
    have hsame : (HibernatingServerInfo.location ∘ mark (cl.location server) cl.keys) =
        HibernatingServerInfo.location := funext fun r => (mark_location _ _ r).1
    rw [hsame]
    exact h.one
  · intro p' hp'
    obtain ⟨p, hp, rfl⟩ := List.mem_map.mp hp'
    obtain ⟨r, hr, hloc, hend, hb⟩ := h.record p hp
    obtain ⟨hl', he'⟩ := sleep_location (cl.location server) (Hosts cl server) p
    obtain ⟨hml, hme⟩ := mark_location (cl.location server) cl.keys r
    refine ⟨mark (cl.location server) cl.keys r, ?_, by rw [hml, hl', hloc], by rw [hme, he', hend], ?_⟩
    · rw [hrec.1]
      exact List.mem_map_of_mem hr
    · intro hosted hpo c hc
      rcases sleep_hosted (cl.location server) (Hosts cl server) p with ⟨heq, -⟩ | ⟨heq, -, hpl⟩
      · exact mark_blocks (Or.inl (hb hosted (heq ▸ hpo) c hc))
      · rw [heq] at hpo
        obtain rfl := Option.some.inj hpo
        exact mark_blocks (Or.inr ⟨hloc.trans hpl, hc.keys⟩)
  · intro r' hr'
    rw [hrec.1] at hr'
    obtain ⟨r, hr, rfl⟩ := List.mem_map.mp hr'
    obtain ⟨p, hp, hloc, hend⟩ := h.promise r hr
    obtain ⟨hl', he'⟩ := sleep_location (cl.location server) (Hosts cl server) p
    obtain ⟨hml, hme⟩ := mark_location (cl.location server) cl.keys r
    exact ⟨_, List.mem_map_of_mem hp, by rw [hl', hml, hloc], by rw [he', hme, hend]⟩
  · intro p' hp' hn
    obtain ⟨p, hp, rfl⟩ := List.mem_map.mp hp'
    rw [(sleep_location _ _ p).1, hconn]
    rcases sleep_hosted (cl.location server) (Hosts cl server) p with ⟨heq, hnot⟩ | ⟨heq, -⟩
    · have hnone : p.hosted = none := heq ▸ hn
      have hne : p.location ≠ cl.location server := fun hl => hnot ⟨hnone, hl⟩
      simp [h.awake p hp hnone, hne]
    · rw [heq] at hn
      cases hn
  · intro p' hp' hs
    obtain ⟨p, hp, rfl⟩ := List.mem_map.mp hp'
    rw [(sleep_location _ _ p).1, hconn]
    rcases sleep_hosted (cl.location server) (Hosts cl server) p with ⟨heq, -⟩ | ⟨-, -, hpl⟩
    · simp [h.asleep p hp (heq ▸ hs)]
    · simp [hpl]

theorem Recorded.retire (h : Recorded cl ps) {loc : ServerLocation} {downtime : ℤ} (hc : cl.connected loc = true)
    (hq : ∀ r ∈ cl.mHibernatingServers, r.location ≠ loc) :
    Recorded (cl.RetireServer loc downtime now) (ps ++ [⟨loc, now + downtime, none⟩]) := by
  have heq : cl.RetireServer loc downtime now = { cl with
      mHibernatingServers := cl.mHibernatingServers ++ [⟨loc, fun _ => false, now + downtime⟩] } := if_pos hc
  rw [heq]
  refine ⟨?_, ?_, ?_, ?_, ?_⟩
  · rw [List.map_append]
    refine List.Nodup.append h.one (List.nodup_singleton _) ?_
    intro x hx hx'
    obtain ⟨r, hr, rfl⟩ := List.mem_map.mp hx
    exact hq r hr (by simpa using hx')
  · intro p hp
    rcases List.mem_append.mp hp with hp | hp
    · obtain ⟨r, hr, hrest⟩ := h.record p hp
      exact ⟨r, List.mem_append_left _ hr, hrest⟩
    · obtain rfl := List.mem_singleton.mp hp
      exact ⟨_, List.mem_append_right _ (List.mem_singleton_self _), rfl, rfl, by simp⟩
  · intro r hr
    rcases List.mem_append.mp hr with hr | hr
    · obtain ⟨p, hp, hrest⟩ := h.promise r hr
      exact ⟨p, List.mem_append_left _ hp, hrest⟩
    · obtain rfl := List.mem_singleton.mp hr
      exact ⟨_, List.mem_append_right _ (List.mem_singleton_self _), rfl, rfl⟩
  · intro p hp hn
    rcases List.mem_append.mp hp with hp | hp
    · exact h.awake p hp hn
    · obtain rfl := List.mem_singleton.mp hp
      exact hc
  · intro p hp hs
    rcases List.mem_append.mp hp with hp | hp
    · exact h.asleep p hp hs
    · obtain rfl := List.mem_singleton.mp hp
      cases hs

/-- In a quiet check no server with a promise is awake. -/
theorem Recorded.all_asleep (h : Recorded cl ps)
    (hq : ∀ r ∈ cl.mHibernatingServers, cl.connected r.location = false) : ∀ p ∈ ps, p.hosted.isSome = true := by
  intro p hp
  rw [Option.isSome_iff_ne_none]
  intro hn
  obtain ⟨r, hr, hloc, -⟩ := h.record p hp
  have hf := hq r hr
  rw [hloc, h.awake p hp hn] at hf
  cases hf

/-- A chunk that becomes a candidate in the loop over a HELLO is one of the HELLO. -/
theorem addChunks_candidates {server : ServerId} : ∀ {cs : List ChunkInfo} {cl : Cluster},
    cs.foldlM (addChunk server) cl = some cl' → ∀ c, cl'.mChunkReplicationCandidates c = true →
    cl.mChunkReplicationCandidates c = true ∨ ∃ i ∈ cs, i.chunkId = c
  | [], cl, h => by
    obtain rfl : cl = cl' := by simpa using h
    exact fun c hc => Or.inl hc
  | i :: cs, cl, h => by
    rw [List.foldlM_cons] at h
    obtain ⟨cl₁, h₁, h₂⟩ := Option.bind_eq_some_iff.mp h
    intro c hc
    rcases addChunks_candidates h₂ c hc with hc | ⟨j, hj, rfl⟩
    · unfold addChunk at h₁
      split_ifs at h₁
      · split at h₁
        swap
        · cases h₁
        obtain rfl := Option.some.inj h₁
        simp only [Bool.or_eq_true, beq_iff_eq] at hc
        rcases hc with rfl | hc
        · exact Or.inr ⟨i, List.mem_cons_self, rfl⟩
        · exact Or.inl hc
      · obtain rfl := Option.some.inj h₁
        exact Or.inl hc
    · exact Or.inr ⟨j, List.mem_cons_of_mem _ hj, rfl⟩

/-- **A quiet step keeps the promises**, and the records stay those of the promises. -/
theorem Recorded.step (h : Recorded cl ps) (h₁ : OneEach cl seen) (hnew : ∀ s, e.hello? = some s → s ∉ seen)
    (hq : cl.Quiet e) (hs : cl.step e = some cl') :
    Keeps cl cl' ps e ∧ Recorded cl' (promisesAfter cl cl' ps e) := by
  cases e with
  | netError server =>
    obtain rfl := Option.some.inj hs
    exact ⟨trivial, h.of_frame rfl fun _ => rfl⟩
  | hello r now =>
    have hunseen : r.server ∉ cl.lm.mChunkServers := fun hm => hnew r.server rfl (h₁.known hm)
    have hconn := connected_update hunseen r.location
    rcases AddNewServer_cases hs with ⟨hd, rfl⟩ | ⟨hd, cl₀, rfl, ⟨hc, rfl⟩ | ⟨hc, cl₁, hf, he, -, rfl⟩⟩
    · refine ⟨fun hd' => absurd (hd.symm.trans hd') (by decide), ?_⟩
      rwa [promisesAfter, if_neg (by simp [hd])]
    · rw [hconn] at hc
      refine ⟨fun _ hc' => absurd (hc.symm.trans hc') (by decide), ?_⟩
      rw [promisesAfter, if_neg (by simp [hc])]
      exact h.of_frame rfl hconn
    · rw [hconn] at hc
      have hasleep := h.all_asleep (hq hd hc)
      rw [promisesAfter, if_pos ⟨hd, hc⟩]
      have hcand := addChunks_candidates hf
      have hboth := h.check now
        { cl₁ with lm := { cl₁.lm with mChunkServers := cl₁.lm.mChunkServers ++ [r.server] } }
        he.hibernating hcand hasleep
      exact ⟨fun _ _ => hboth.1, hboth.2⟩
  | bye server now =>
    obtain rfl := Option.some.inj hs
    by_cases hm : server ∈ cl.lm.mChunkServers
    · rw [promisesAfter, if_pos hm]
      exact h.bye h₁ hm
    · rw [promisesAfter, if_neg hm, show cl.ServerDown server = cl from if_pos hm]
      exact ⟨fun _ _ hm' => absurd hm' hm, h⟩
  | retire loc downtime now =>
    obtain rfl := Option.some.inj hs
    refine ⟨trivial, ?_⟩
    cases hc : cl.connected loc with
    | true =>
      rw [promisesAfter, if_pos hc]
      exact h.retire hc hq
    | false =>
      rw [promisesAfter, if_neg (by simp [hc]), show cl.RetireServer loc downtime now = cl from if_neg (by simp [hc])]
      exact h
  | check now =>
    obtain rfl := Option.some.inj hs
    exact h.check now cl rfl (fun c hc => Or.inl hc) (h.all_asleep hq)
  | replicate done =>
    obtain rfl := Option.some.inj hs
    exact ⟨trivial, h.of_frame rfl fun _ => rfl⟩
  | place m =>
    obtain rfl := Option.some.inj hs
    exact ⟨trivial, h.of_frame rfl fun _ => rfl⟩

/-! ## Runs -/

/-- Every step of the run keeps the promises made before it. -/
def KeptAlong (cl : Cluster) (ps : List Promise) : List ClusterEv → Prop
  | [] => True
  | e :: es =>
    match cl.step e with
    | some cl' => Keeps cl cl' ps e ∧ cl'.KeptAlong (promisesAfter cl cl' ps e) es
    | none => True

def QuietAlong (cl : Cluster) : List ClusterEv → Prop
  | [] => True
  | e :: es =>
    cl.Quiet e ∧
      match cl.step e with
      | some cl' => cl'.QuietAlong es
      | none => True

theorem Recorded.run : ∀ {es : List ClusterEv} {cl : Cluster} {ps : List Promise} {seen : List ServerId},
    Recorded cl ps → OneEach cl seen → (seen ++ es.filterMap ClusterEv.hello?).Nodup → cl.QuietAlong es →
    cl.KeptAlong ps es
  | [], _, _, _, _, _, _, _ => trivial
  | e :: es, cl, ps, seen, h, h₁, hnd, ⟨hq, hqs⟩ => by
    unfold KeptAlong
    cases hs : cl.step e with
    | none => trivial
    | some cl' =>
      rw [hs] at hqs
      have hsplit := hello_cons seen e es
      rw [hsplit] at hnd
      have hnew : ∀ s, e.hello? = some s → s ∉ seen := by
        intro s heq hm
        exact List.disjoint_of_nodup_append (List.Nodup.of_append_left hnd) hm (by simp [heq])
      obtain ⟨hk, hr⟩ := h.step h₁ hnew hq hs
      exact ⟨hk, hr.run (h₁.step hnew hs) hnd hqs⟩

/-- **The hibernation promise** is kept along every run from a cluster without servers in which no check falls
between `RetireServer` and the BYE of the server, and no server gets a second record. Every object says HELLO
once. -/
theorem hibernation_kept {es : List ClusterEv} (h₀ : cl.lm.mChunkServers = []) (hh : cl.mHibernatingServers = [])
    (honce : (es.filterMap ClusterEv.hello?).Nodup) (hq : cl.QuietAlong es) : cl.KeptAlong [] es := by
  have hrec : Recorded cl [] := ⟨by simp [hh], by simp, by simp [hh], by simp, by simp⟩
  have hone : OneEach cl [] := ⟨by simp [h₀], by simp [h₀]⟩
  exact hrec.run hone (by simpa using honce) hq

/-- A server goes to sleep for 100 seconds and does not come back. -/
def sleepRun : List ClusterEv :=
  [.hello (helloOf 0) 1, .replicate fun _ => true, .retire ⟨['h'], 30000⟩ 100 2, .bye 0 4, .check 50, .check 200]

theorem sleepRun_kept : oneChunk.KeptAlong [] sleepRun ∧
    (oneChunk.run sleepRun).map (fun cl => cl.mChunkReplicationCandidates 7) = some true := by
  refine ⟨hibernation_kept rfl rfl (by decide) ?_, by decide +kernel⟩
  refine ⟨?_, trivial, ?_, trivial, ?_, ?_, trivial⟩
  all_goals decide +kernel

/-- The checker runs between `RetireServer` and the BYE. -/
def checkedRun : List ClusterEv :=
  [.hello (helloOf 0) 1, .replicate fun _ => true, .retire ⟨['h'], 30000⟩ 100 2, .check 3, .bye 0 4]

/-- The check takes the server for one that is back; when it goes down two seconds later, chunk 7 becomes a
candidate at once. -/
theorem checkedRun_not_kept : ¬ oneChunk.KeptAlong [] checkedRun := by
  rintro ⟨-, -, -, -, hbye, -⟩
  have h7 := congrFun (hbye ⟨⟨['h'], 30000⟩, 102, none⟩ (List.mem_singleton_self _) (List.mem_singleton_self _) rfl
    (by decide)) 7
  exact absurd h7 (by decide +kernel)

end Cluster

end Kfs
