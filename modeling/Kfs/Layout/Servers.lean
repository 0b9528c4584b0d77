import Kfs.Layout.Model

/-!
# Chunk servers that join and leave

`AddNewServer`, `ServerDown`, `RetireServer` with a down-time and `CheckHibernatingServersStatus` of
`LayoutManager.cc`. A `ChunkServer` object stands for one connection; a chunk server that restarts has a new
object at the old location, and the HELLO of the new connection and the BYE of the old one reach the request
processor in any order.

* `Cluster`, `Cluster.step`, `Cluster.run`;
* `AddNewServer_cases`: a HELLO of a live connection is accepted if and only if no server of its location is
  listed;
* **`settled_iff`**: the new connection ends up as the one server of its location, with its chunks, if and only
  if the older one had been removed when its HELLO was processed.
-/

namespace Kfs

structure ServerLocation where
  hostname : Str
  port : ℤ
  deriving DecidableEq

/-- A chunk as a server reports it. -/
structure ChunkInfo where
  fileId : ℤ
  chunkId : ℤ
  chunkVersion : ℤ
  deriving DecidableEq

/-- `MetaHello`. -/
structure Hello where
  server : ServerId
  location : ServerLocation
  chunks : List ChunkInfo
  deriving DecidableEq

/-- `HibernatingServerInfo_t`. -/
structure HibernatingServerInfo where
  location : ServerLocation
  blocks : ℤ → Bool
  sleepEndTime : ℤ

/-- The layout manager with the objects of the chunk servers; `leaves` is the tree. -/
structure Cluster where
  lm : LayoutManager
  leaves : List Meta
  location : ServerId → ServerLocation
  down : ServerId → Bool
  mHibernatingServers : List HibernatingServerInfo
  mChunkReplicationCandidates : ℤ → Bool

namespace Cluster

/-! ## Operations -/

/-- The keys of `mChunkToServerMap`. -/
def keys (cl : Cluster) (c : ℤ) : Bool := (cl.lm.mChunkToServerMap c).isSome

/-- Some connected server is at the location. -/
def connected (cl : Cluster) (loc : ServerLocation) : Bool :=
  cl.lm.mChunkServers.any fun s => decide (cl.location s = loc)

/-- The tree's entry for a reported chunk that is not stale. -/
def nonStale (cl : Cluster) (c : ChunkInfo) : Bool :=
  ((getalloc cl.leaves c.fileId).find? fun m => decide (m.chunkId = c.chunkId)).any fun m =>
    decide (m.chunkVersion ≤ c.chunkVersion)

/-- One turn of the loop over the reported chunks. The assertion and the attributes of the file must hold
good for a chunk that is not stale. -/
def addChunk (server : ServerId) (cl : Cluster) (c : ChunkInfo) : Option Cluster :=
  if cl.nonStale c then
    match cl.lm.UpdateChunkToServerMapping c.chunkId server, getFattr cl.leaves c.fileId with
    | some lm, some _ => some { cl with
        lm := lm
        mChunkReplicationCandidates := fun x => x == c.chunkId || cl.mChunkReplicationCandidates x }
    | _, _ => none
  else some cl

/-- The hibernated servers that are over with: back, or not back in time. -/
def checkLoop (cl : Cluster) (now : ℤ) : List HibernatingServerInfo → (ℤ → Bool) →
    List HibernatingServerInfo × (ℤ → Bool)
  | [], cand => ([], cand)
  | h :: hs, cand =>
    if ¬ cl.connected h.location ∧ now < h.sleepEndTime then
      let (hs, cand) := cl.checkLoop now hs cand
      (h :: hs, cand)
    else if cl.connected h.location then cl.checkLoop now hs cand
    else cl.checkLoop now hs fun x => cand x || h.blocks x

/-- The loop of the source starts over after each record that it erases; what it does to a record does
not depend on the others. -/
def CheckHibernatingServersStatus (cl : Cluster) (now : ℤ) : Cluster :=
  let (hs, cand) := cl.checkLoop now cl.mHibernatingServers cl.mChunkReplicationCandidates
  { cl with mHibernatingServers := hs, mChunkReplicationCandidates := cand }

/-- Accept a server, unless its connection is down or its location is taken; `none` is a failed
assertion. -/
def AddNewServer (cl : Cluster) (r : Hello) (now : ℤ) : Option Cluster :=
  if cl.down r.server then some cl
  else
    let cl := { cl with location := Function.update cl.location r.server r.location }
    if cl.connected r.location then some cl
    else do
      let cl ← r.chunks.foldlM (addChunk r.server) cl
      some ({ cl with lm := { cl.lm with mChunkServers := cl.lm.mChunkServers ++ [r.server] }
            }.CheckHibernatingServersStatus now)

/-- Put the blocks into the first record for the location. -/
def recordBlocks (loc : ServerLocation) (keys : ℤ → Bool) :
    List HibernatingServerInfo → Option (List HibernatingServerInfo)
  | [] => none
  | h :: hs =>
    if h.location = loc then some ({ h with blocks := fun x => h.blocks x || keys x } :: hs)
    else (recordBlocks loc keys hs).map (h :: ·)

/-- `MapPurger` notes every chunk of the map, for later if the server is hibernating. -/
def ServerDown (cl : Cluster) (server : ServerId) : Cluster :=
  if server ∉ cl.lm.mChunkServers then cl
  else
    match recordBlocks (cl.location server) cl.keys cl.mHibernatingServers with
    | some hs => { cl with lm := cl.lm.ServerDown server, mHibernatingServers := hs }
    | none => { cl with
        lm := cl.lm.ServerDown server
        mChunkReplicationCandidates := fun x => cl.mChunkReplicationCandidates x || cl.keys x }

/-- `RetireServer` with a positive down-time. -/
def RetireServer (cl : Cluster) (loc : ServerLocation) (downtime now : ℤ) : Cluster :=
  if cl.connected loc then
    { cl with mHibernatingServers := cl.mHibernatingServers ++ [⟨loc, fun _ => false, now + downtime⟩] }
  else cl

end Cluster

/-! ## Runs -/

inductive ClusterEv
  /-- the connection breaks; its BYE is processed later -/
  | netError (server : ServerId)
  | hello (r : Hello) (now : ℤ)
  | bye (server : ServerId) (now : ℤ)
  | retire (loc : ServerLocation) (downtime now : ℤ)
  /-- `ChunkReplicationChecker` looks at the hibernated servers -/
  | check (now : ℤ)
  /-- `ChunkReplicationChecker` takes chunks from the candidates -/
  | replicate (done : ℤ → Bool)
  /-- the placement of chunks changes -/
  | place (m : CSMap)

/-- The object whose HELLO is processed in the step. -/
def ClusterEv.hello? : ClusterEv → Option ServerId
  | .hello r _ => some r.server
  | _ => none

/-- The step is not about the object `server`, and does not change the placement of chunks. -/
def ClusterEv.Leaves (server : ServerId) : ClusterEv → Prop
  | .hello r _ => r.server ≠ server
  | .bye s _ => s ≠ server
  | .place _ => False
  | _ => True

namespace Cluster

/-- One step; `none` when an assertion fails. -/
def step (cl : Cluster) : ClusterEv → Option Cluster
  | .netError server => some { cl with down := Function.update cl.down server true }
  | .hello r now => cl.AddNewServer r now
  | .bye server _ => some (cl.ServerDown server)
  | .retire loc downtime now => some (cl.RetireServer loc downtime now)
  | .check now => some (cl.CheckHibernatingServersStatus now)
  | .replicate done => some { cl with
      mChunkReplicationCandidates := fun x => cl.mChunkReplicationCandidates x && !done x }
  | .place m => some { cl with lm := { cl.lm with mChunkToServerMap := m } }

def run (cl : Cluster) : List ClusterEv → Option Cluster
  | [] => some cl
  | e :: es => (cl.step e).bind fun cl => cl.run es

/-! ## Joining -/

variable {cl cl' : Cluster} {server : ServerId} {r : Hello} {now : ℤ}

/-- `cl'` has every copy that `cl` has, and the same servers. -/
structure Extends (cl cl' : Cluster) : Prop where
  servers : cl'.lm.mChunkServers = cl.lm.mChunkServers
  location : cl'.location = cl.location
  leaves : cl'.leaves = cl.leaves
  hibernating : cl'.mHibernatingServers = cl.mHibernatingServers
  copies : ∀ c v, cl.lm.mChunkToServerMap c = some v →
    ∃ v', cl'.lm.mChunkToServerMap c = some v' ∧ v.chunkServers ⊆ v'.chunkServers

theorem Extends.refl (cl : Cluster) : Extends cl cl :=
  ⟨rfl, rfl, rfl, rfl, fun _ v hv => ⟨v, hv, fun _ hs => hs⟩⟩

theorem Extends.trans {cl₁ : Cluster} (h₁ : Extends cl cl₁) (h₂ : Extends cl₁ cl') : Extends cl cl' where
  servers := h₂.servers.trans h₁.servers
  location := h₂.location.trans h₁.location
  leaves := h₂.leaves.trans h₁.leaves
  hibernating := h₂.hibernating.trans h₁.hibernating
  copies c v hv := by
    obtain ⟨v₁, hv₁, hs₁⟩ := h₁.copies c v hv
    obtain ⟨v₂, hv₂, hs₂⟩ := h₂.copies c v₁ hv₁
    exact ⟨v₂, hv₂, fun _ hs => hs₂ (hs₁ hs)⟩

/-- The server has a copy of the chunk. -/
def Hosts (cl : Cluster) (server : ServerId) (chunkId : ℤ) : Prop :=
  ∃ v, cl.lm.mChunkToServerMap chunkId = some v ∧ server ∈ v.chunkServers

theorem Hosts.extend {chunkId : ℤ} (h : Hosts cl server chunkId) (he : Extends cl cl') :
    Hosts cl' server chunkId := by
  obtain ⟨v, hv, hs⟩ := h
  obtain ⟨v', hv', hsub⟩ := he.copies chunkId v hv
  exact ⟨v', hv', hsub hs⟩

theorem addChunk_spec {c : ChunkInfo} (h : addChunk server cl c = some cl') :
    Extends cl cl' ∧ (cl.nonStale c = true → Hosts cl' server c.chunkId) := by
  unfold addChunk at h
  split_ifs at h with hn
  · split at h
    swap
    · cases h
    rename_i lm fa hu hf
    obtain rfl := Option.some.inj h
    obtain ⟨v, hv, rfl⟩ := Option.map_eq_some_iff.mp hu
    refine ⟨⟨rfl, rfl, rfl, rfl, ?_⟩, fun _ => ?_⟩
    · intro x w hw
      by_cases hx : x = c.chunkId
      · subst hx
        obtain rfl : v = w := by simpa [hv] using hw
        exact ⟨_, LayoutManager.set_self _, List.subset_append_left _ _⟩
      · exact ⟨w, (LayoutManager.set_of_ne _ hx).trans hw, fun _ hs => hs⟩
    · exact ⟨_, LayoutManager.set_self _, List.mem_append_right _ (List.mem_singleton_self server)⟩
  · obtain rfl := Option.some.inj h
    exact ⟨.refl cl, fun hn' => absurd hn' hn⟩

theorem nonStale_congr (h : cl'.leaves = cl.leaves) (c : ChunkInfo) : cl'.nonStale c = cl.nonStale c := by
  unfold nonStale
  rw [h]

/-- The loop over the chunks of a HELLO. -/
theorem addChunks_spec : ∀ {cs : List ChunkInfo} {cl : Cluster}, cs.foldlM (addChunk server) cl = some cl' →
    Extends cl cl' ∧ ∀ c ∈ cs, cl.nonStale c = true → Hosts cl' server c.chunkId
  | [], cl, h => by
    obtain rfl : cl = cl' := by simpa using h
    exact ⟨.refl cl, by simp⟩
  | c :: cs, cl, h => by
    rw [List.foldlM_cons] at h
    obtain ⟨cl₁, h₁, h₂⟩ := Option.bind_eq_some_iff.mp h
    obtain ⟨he₁, hh₁⟩ := addChunk_spec h₁
    obtain ⟨he₂, hh₂⟩ := addChunks_spec h₂
    refine ⟨he₁.trans he₂, ?_⟩
    intro d hd hn
    rcases List.mem_cons.mp hd with rfl | hd
    · exact (hh₁ hn).extend he₂
    · exact hh₂ d hd (by rwa [nonStale_congr he₁.leaves])

/-- **A HELLO** is ignored when its connection is down or its location is taken, and accepted otherwise. -/
theorem AddNewServer_cases (h : cl.AddNewServer r now = some cl') :
    (cl.down r.server = true ∧ cl' = cl) ∨
      (cl.down r.server = false ∧
        ∃ cl₀, cl₀ = { cl with location := Function.update cl.location r.server r.location } ∧
          ((cl₀.connected r.location = true ∧ cl' = cl₀) ∨
            (cl₀.connected r.location = false ∧ ∃ cl₁, r.chunks.foldlM (addChunk r.server) cl₀ = some cl₁ ∧
              Extends cl₀ cl₁ ∧
              (∀ c ∈ r.chunks, cl₀.nonStale c = true → Hosts cl₁ r.server c.chunkId) ∧
              cl' = CheckHibernatingServersStatus
                { cl₁ with lm := { cl₁.lm with mChunkServers := cl₁.lm.mChunkServers ++ [r.server] } } now))) := by
  unfold AddNewServer at h
  cases hd : cl.down r.server with
  | true => exact Or.inl ⟨rfl, by simpa [hd] using h.symm⟩
  | false =>
    refine Or.inr ⟨rfl, _, rfl, ?_⟩
    simp only [hd, Bool.false_eq_true, if_false] at h
    split_ifs at h with hc
    · exact Or.inl ⟨hc, (Option.some.inj h).symm⟩
    · obtain ⟨cl₁, h₁, h₂⟩ := Option.bind_eq_some_iff.mp h
      obtain ⟨he, hh⟩ := addChunks_spec h₁
      exact Or.inr ⟨by simpa using hc, cl₁, h₁, he, hh, (Option.some.inj h₂).symm⟩

/-! ## One server for each location -/

variable {e : ClusterEv} {seen : List ServerId}

/-- The listed servers have said HELLO, and no two of them are at one location. -/
structure OneEach (cl : Cluster) (seen : List ServerId) : Prop where
  known : cl.lm.mChunkServers ⊆ seen
  one : (cl.lm.mChunkServers.map cl.location).Nodup

theorem ServerDown_lm (cl : Cluster) (server : ServerId) : (cl.ServerDown server).lm = cl.lm.ServerDown server := by
  unfold ServerDown LayoutManager.ServerDown
  split_ifs with h
  · split <;> rfl
  · rfl

theorem ServerDown_location (cl : Cluster) (server : ServerId) :
    (cl.ServerDown server).location = cl.location ∧ (cl.ServerDown server).leaves = cl.leaves := by
  unfold ServerDown
  split_ifs
  · split <;> exact ⟨rfl, rfl⟩
  · exact ⟨rfl, rfl⟩

theorem RetireServer_frame (cl : Cluster) (loc : ServerLocation) (downtime now : ℤ) :
    (cl.RetireServer loc downtime now).lm = cl.lm ∧
      (cl.RetireServer loc downtime now).location = cl.location ∧
      (cl.RetireServer loc downtime now).leaves = cl.leaves := by
  unfold RetireServer
  split_ifs <;> exact ⟨rfl, rfl, rfl⟩

/-- What a step does to the list of servers and their locations. -/
theorem step_servers (h : cl.step e = some cl') :
    (cl'.lm.mChunkServers.Sublist cl.lm.mChunkServers ∨
      ∃ r now, e = .hello r now ∧ cl'.lm.mChunkServers = cl.lm.mChunkServers ++ [r.server] ∧
        cl'.location r.server = r.location ∧
        ∀ s ∈ cl.lm.mChunkServers, Function.update cl.location r.server r.location s ≠ r.location) ∧
      ∀ s, e.hello? ≠ some s → cl'.location s = cl.location s := by
  cases e with
  | netError server =>
    obtain rfl := Option.some.inj h
    exact ⟨Or.inl (List.Sublist.refl _), fun _ _ => rfl⟩
  | hello r now =>
    rcases AddNewServer_cases h with ⟨-, rfl⟩ | ⟨-, cl₀, rfl, ⟨-, rfl⟩ | ⟨hc, cl₁, -, he, -, rfl⟩⟩
    · exact ⟨Or.inl (List.Sublist.refl _), fun _ _ => rfl⟩
    · refine ⟨Or.inl (List.Sublist.refl _), fun s hs => ?_⟩
      exact Function.update_of_ne (by rintro rfl; exact hs rfl) _ _
    · refine ⟨Or.inr ⟨r, now, rfl, ?_, ?_, ?_⟩, fun s hs => ?_⟩
      · change cl₁.lm.mChunkServers ++ [r.server] = _
        rw [he.servers]
      · change cl₁.location r.server = r.location
        rw [he.location]
        exact Function.update_self _ _ _
      · intro s hs heq
        rw [connected, List.any_eq_false] at hc
        exact hc s hs (decide_eq_true heq)
      · change cl₁.location s = cl.location s
        rw [he.location]
        exact Function.update_of_ne (by rintro rfl; exact hs rfl) _ _
  | bye server now =>
    obtain rfl := Option.some.inj h
    refine ⟨Or.inl ?_, fun s _ => by rw [(ServerDown_location cl server).1]⟩
    rw [ServerDown_lm]
    unfold LayoutManager.ServerDown
    split_ifs
    · exact List.erase_sublist
    · exact List.Sublist.refl _
  | retire loc downtime now =>
    obtain rfl := Option.some.inj h
    obtain ⟨h₁, h₂, -⟩ := RetireServer_frame cl loc downtime now
    exact ⟨Or.inl (by rw [h₁]), fun s _ => by rw [h₂]⟩
  | check now =>
    obtain rfl := Option.some.inj h
    exact ⟨Or.inl (List.Sublist.refl _), fun _ _ => rfl⟩
  | replicate done =>
    obtain rfl := Option.some.inj h
    exact ⟨Or.inl (List.Sublist.refl _), fun _ _ => rfl⟩
  | place m =>
    obtain rfl := Option.some.inj h
    exact ⟨Or.inl (List.Sublist.refl _), fun _ _ => rfl⟩

/-- A HELLO of a new object keeps one server for each location. -/
theorem OneEach.step (h : OneEach cl seen) (hnew : ∀ s, e.hello? = some s → s ∉ seen)
    (hs : cl.step e = some cl') : OneEach cl' (seen ++ e.hello?.toList) := by
  obtain ⟨hlist, hloc⟩ := step_servers hs
  -- the servers that were listed before keep their locations
  have hold : ∀ s ∈ cl.lm.mChunkServers, cl'.location s = cl.location s := by
    intro s hm
    exact hloc s fun heq => hnew s heq (h.known hm)
  rcases hlist with hsub | ⟨r, now, rfl, hl, hat, hfree⟩
  · refine ⟨fun s hm => List.mem_append_left _ (h.known (hsub.subset hm)), ?_⟩
    rw [List.map_congr_left fun s hm => hold s (hsub.subset hm)]
    exact h.one.sublist (hsub.map _)
  · refine ⟨?_, ?_⟩
    · intro s hm
      rw [hl] at hm
      rcases List.mem_append.mp hm with hm | hm
      · exact List.mem_append_left _ (h.known hm)
      · exact List.mem_append_right _ (by simpa [ClusterEv.hello?] using hm)
    · rw [hl, List.map_append, List.map_congr_left hold, List.map_singleton, hat]
      refine List.Nodup.append h.one (List.nodup_singleton _) ?_
      intro loc hm hloc'
      obtain ⟨s, hs, rfl⟩ := List.mem_map.mp hm
      have hne : s ≠ r.server := fun heq => hnew r.server rfl (heq ▸ h.known hs)
      exact hfree s hs ((Function.update_of_ne hne _ _).trans (List.mem_singleton.mp hloc'))

/-- The location of an object that is not listed does not matter. -/
theorem connected_update (h : server ∉ cl.lm.mChunkServers) (loc' loc : ServerLocation) :
    Cluster.connected { cl with location := Function.update cl.location server loc' } loc = cl.connected loc := by
  rw [Bool.eq_iff_iff, connected, connected, List.any_eq_true, List.any_eq_true]
  refine exists_congr fun s => and_congr_right fun hm => ?_
  have hne : s ≠ server := fun heq => h (heq ▸ hm)
  simp only [decide_eq_true_eq, Function.update_of_ne hne]

/-- A server is listed only through its own HELLO. -/
theorem step_absent (ha : server ∉ cl.lm.mChunkServers) (hne : e.hello? ≠ some server)
    (hs : cl.step e = some cl') : server ∉ cl'.lm.mChunkServers := by
  rcases (step_servers hs).1 with hsub | ⟨r, now, rfl, hl, -⟩
  · exact fun hm => ha (hsub.subset hm)
  · rw [hl]
    intro hm
    rcases List.mem_append.mp hm with hm | hm
    · exact ha hm
    · exact hne (congrArg some (List.mem_singleton.mp hm).symm)

/-! ## The new connection -/

/-- The object of `r` is the one server of its location, and has the chunks of `r` that are not stale. -/
def Settled (cl : Cluster) (r : Hello) : Prop :=
  cl.lm.mChunkServers.filter (fun s => decide (cl.location s = r.location)) = [r.server] ∧
    ∀ c ∈ r.chunks, cl.nonStale c = true → Hosts cl r.server c.chunkId

/-- The state of an accepted HELLO as long as its connection lives. -/
structure Accepted (cl : Cluster) (r : Hello) : Prop where
  listed : r.server ∈ cl.lm.mChunkServers
  location : cl.location r.server = r.location
  hosts : ∀ c ∈ r.chunks, cl.nonStale c = true → Hosts cl r.server c.chunkId

theorem Hosts.serverDown {chunkId : ℤ} {s : ServerId} (h : Hosts cl server chunkId) (hne : server ≠ s) :
    Hosts (cl.ServerDown s) server chunkId := by
  obtain ⟨v, hv, hm⟩ := h
  unfold Hosts
  rw [ServerDown_lm]
  unfold LayoutManager.ServerDown
  split_ifs
  · refine ⟨_, (congrArg _ hv).trans (Option.map_some _ _), ?_⟩
    exact List.mem_filter.mpr ⟨hm, decide_eq_true hne⟩
  · exact ⟨v, hv, hm⟩

theorem Accepted.of_frame (h : Accepted cl r) (hlm : cl'.lm = cl.lm) (hloc : cl'.location = cl.location)
    (hl : cl'.leaves = cl.leaves) : Accepted cl' r := by
  refine ⟨hlm ▸ h.listed, hloc ▸ h.location, ?_⟩
  intro c hc hn
  unfold Hosts
  rw [hlm]
  exact h.hosts c hc (by rwa [nonStale_congr hl] at hn)

theorem Accepted.step (h : Accepted cl r) (hn : e.Leaves r.server) (hs : cl.step e = some cl') : Accepted cl' r := by
  cases e with
  | netError s =>
    obtain rfl := Option.some.inj hs
    exact h.of_frame rfl rfl rfl
  | hello r' now =>
    have hne : r.server ≠ r'.server := fun heq => hn heq.symm
    have hupd : Function.update cl.location r'.server r'.location r.server = r.location :=
      (Function.update_of_ne hne _ _).trans h.location
    rcases AddNewServer_cases hs with ⟨-, rfl⟩ | ⟨-, cl₀, rfl, ⟨-, rfl⟩ | ⟨-, cl₁, -, he, -, rfl⟩⟩
    · exact h
    · exact ⟨h.listed, hupd, h.hosts⟩
    · have hlist : r.server ∈ cl₁.lm.mChunkServers := by
        rw [he.servers]
        exact h.listed
      refine ⟨List.mem_append_left _ hlist, ?_, ?_⟩
      · change cl₁.location r.server = r.location
        rw [he.location]
        exact hupd
      · intro c hc hnon
        have hnon' : cl.nonStale c = true :=
          (@nonStale_congr cl cl₁ he.leaves c).symm.trans hnon
        have hold : Hosts { cl with location := Function.update cl.location r'.server r'.location } r.server
            c.chunkId := h.hosts c hc hnon'
        have hh := hold.extend he
        exact hh
  | bye s now =>
    obtain rfl := Option.some.inj hs
    have hne : r.server ≠ s := fun heq => hn heq.symm
    obtain ⟨hloc, hl⟩ := ServerDown_location cl s
    refine ⟨?_, by rw [hloc]; exact h.location, ?_⟩
    · rw [ServerDown_lm]
      unfold LayoutManager.ServerDown
      split_ifs
      · exact (List.mem_erase_of_ne hne).mpr h.listed
      · exact h.listed
    · intro c hc hnon
      exact (h.hosts c hc (by rwa [nonStale_congr hl] at hnon)).serverDown hne
  | retire loc downtime now =>
    obtain rfl := Option.some.inj hs
    obtain ⟨h₁, h₂, h₃⟩ := RetireServer_frame cl loc downtime now
    exact h.of_frame h₁ h₂ h₃
  | check now =>
    obtain rfl := Option.some.inj hs
    exact h.of_frame rfl rfl rfl
  | replicate done =>
    obtain rfl := Option.some.inj hs
    exact h.of_frame rfl rfl rfl
  | place m => exact hn.elim

theorem Accepted.settled (h : Accepted cl r) (h₁ : OneEach cl seen) : Settled cl r := by
  refine ⟨?_, h.hosts⟩
  have hnd : (cl.lm.mChunkServers.filter fun s => decide (cl.location s = r.location)).Nodup :=
    (List.Nodup.of_map _ h₁.one).filter _
  have hmem : ∀ s, s ∈ cl.lm.mChunkServers.filter (fun s => decide (cl.location s = r.location)) ↔
      s = r.server := by
    intro s
    rw [List.mem_filter, decide_eq_true_eq]
    constructor
    · rintro ⟨hs, hloc⟩
      exact List.inj_on_of_nodup_map h₁.one hs h.listed (hloc.trans h.location.symm)
    · rintro rfl
      exact ⟨h.listed, h.location⟩
  rcases hl : cl.lm.mChunkServers.filter (fun s => decide (cl.location s = r.location)) with - | ⟨x, xs⟩
  · rw [hl] at hmem
    simpa using (hmem r.server).mpr rfl
  · rw [hl] at hmem hnd
    have hx : x = r.server := (hmem x).mp List.mem_cons_self
    have hxs : xs = [] := by
      refine List.eq_nil_iff_forall_not_mem.mpr fun y hy => ?_
      have hy' : y = r.server := (hmem y).mp (List.mem_cons_of_mem _ hy)
      exact (List.nodup_cons.mp hnd).1 (hx.trans hy'.symm ▸ hy)
    rw [hx, hxs]

/-! ## Runs of joining and leaving -/

theorem run_append : ∀ (es₁ es₂ : List ClusterEv) (cl : Cluster),
    cl.run (es₁ ++ es₂) = (cl.run es₁).bind fun cl₁ => cl₁.run es₂
  | [], _, _ => rfl
  | e :: es₁, es₂, cl => by
    rw [List.cons_append, Cluster.run, Cluster.run, Option.bind_assoc]
    exact congrArg _ (funext fun cl₁ => run_append es₁ es₂ cl₁)

theorem hello_cons (seen : List ServerId) (e : ClusterEv) (es : List ClusterEv) :
    seen ++ (e :: es).filterMap ClusterEv.hello? =
      seen ++ e.hello?.toList ++ es.filterMap ClusterEv.hello? := by
  cases he : e.hello? <;> simp [he]

theorem OneEach.run : ∀ {es : List ClusterEv} {cl : Cluster} {seen : List ServerId}, OneEach cl seen →
    (seen ++ es.filterMap ClusterEv.hello?).Nodup → cl.run es = some cl' →
    OneEach cl' (seen ++ es.filterMap ClusterEv.hello?)
  | [], cl, seen, h, _, hr => by
    obtain rfl : cl = cl' := by simpa [Cluster.run] using hr
    simpa using h
  | e :: es, cl, seen, h, hnd, hr => by
    obtain ⟨cl₁, hs, hr⟩ := Option.bind_eq_some_iff.mp hr
    rw [hello_cons] at hnd ⊢
    refine (h.step ?_ hs).run hnd hr
    intro s heq hm
    have hd := List.disjoint_of_nodup_append (List.Nodup.of_append_left hnd)
    exact hd hm (by simp [heq])

theorem Accepted.run : ∀ {es : List ClusterEv} {cl : Cluster}, Accepted cl r → (∀ e ∈ es, e.Leaves r.server) →
    cl.run es = some cl' → Accepted cl' r
  | [], cl, h, _, hr => by
    obtain rfl : cl = cl' := by simpa [Cluster.run] using hr
    exact h
  | e :: es, cl, h, hn, hr => by
    obtain ⟨cl₁, hs, hr⟩ := Option.bind_eq_some_iff.mp hr
    exact (h.step (hn e List.mem_cons_self) hs).run (fun e' he => hn e' (List.mem_cons_of_mem _ he)) hr

theorem hello_ne_of_leaves (h : e.Leaves server) : e.hello? ≠ some server := by
  cases e with
  | hello r now => exact fun heq => h (Option.some.inj heq)
  | _ => simp [ClusterEv.hello?]

theorem run_absent : ∀ {es : List ClusterEv} {cl : Cluster}, server ∉ cl.lm.mChunkServers →
    (∀ e ∈ es, e.Leaves server) → cl.run es = some cl' → server ∉ cl'.lm.mChunkServers
  | [], cl, h, _, hr => by
    obtain rfl : cl = cl' := by simpa [Cluster.run] using hr
    exact h
  | e :: es, cl, h, hn, hr => by
    obtain ⟨cl₁, hs, hr⟩ := Option.bind_eq_some_iff.mp hr
    exact run_absent (step_absent h (hello_ne_of_leaves (hn e List.mem_cons_self)) hs)
      (fun e' he => hn e' (List.mem_cons_of_mem _ he)) hr

/-- **A restarted chunk server is settled if and only if its old connection was gone when its HELLO was
processed.** The run goes from a cluster without servers through `es₁` to the HELLO of `r`, and on through `es₂`
while the connection of `r` lives; every object says HELLO once. -/
theorem settled_iff {cl₀ cl₁ : Cluster} {es₁ es₂ : List ClusterEv} (h₀ : cl₀.lm.mChunkServers = [])
    (hr₁ : cl₀.run es₁ = some cl₁) (hup : cl₁.down r.server = false)
    (hr : cl₁.run (.hello r now :: es₂) = some cl)
    (honce : ((es₁ ++ .hello r now :: es₂).filterMap ClusterEv.hello?).Nodup)
    (hlive : ∀ e ∈ es₂, e.Leaves r.server) :
    Settled cl r ↔ cl₁.connected r.location = false := by
  have hstart : OneEach cl₀ [] := ⟨by simp [h₀], by simp [h₀]⟩
  rw [List.filterMap_append] at honce
  have h₁ := hstart.run (by simpa using List.Nodup.of_append_left honce) hr₁
  have hend := h₁.run (by simpa using honce) hr
  rw [List.nil_append] at h₁
  -- the object is new, so that the listed servers keep their locations when it says HELLO
  have hunseen : r.server ∉ cl₁.lm.mChunkServers := by
    intro hm
    have hd := List.disjoint_of_nodup_append honce
    exact hd (h₁.known hm) (by simp [ClusterEv.hello?])
  have hconn := connected_update hunseen r.location r.location
  obtain ⟨cl₂, hs, hr₂⟩ := Option.bind_eq_some_iff.mp hr
  rcases AddNewServer_cases hs with ⟨hdown, -⟩ | ⟨-, cl₃, rfl, ⟨hc, rfl⟩ | ⟨hc, cl₄, -, he, hh, rfl⟩⟩
  · rw [hup] at hdown
    cases hdown
  · -- the location is taken: the object is never listed
    rw [hconn] at hc
    rw [hc]
    refine iff_of_false ?_ (by simp)
    rintro ⟨hf, -⟩
    have habs : r.server ∉ cl.lm.mChunkServers := by
      refine run_absent ?_ hlive hr₂
      exact hunseen
    have hm : r.server ∈ cl.lm.mChunkServers.filter fun s => decide (cl.location s = r.location) := by
      rw [hf]
      exact List.mem_singleton_self _
    exact habs (List.mem_of_mem_filter hm)
  · rw [hconn] at hc
    refine iff_of_true ?_ hc
    refine (Accepted.run (r := r) ⟨List.mem_append_right _ (List.mem_singleton_self _), ?_, ?_⟩ hlive hr₂).settled hend
    · change cl₄.location r.server = r.location
      rw [he.location]
      exact Function.update_self _ _ _
    · intro c hc hn
      have hn' : cl₁.nonStale c = true := (@nonStale_congr cl₁ cl₄ he.leaves c).symm.trans hn
      have hhosts := hh c hc hn'
      exact hhosts

/-- A cluster without servers that knows chunk 7 of file 3. -/
def oneChunk : Cluster where
  lm := ⟨fun c => if c = 7 then some { ChunkPlacementInfo.new with fid := 3 } else none, 1, [], 0, 1⟩
  leaves := [.fattr (MetaFattr.new ⟨⟨0, 0⟩, fun _ => false⟩ .file 3 1), .chunkinfo ⟨3, 0, 7, 1⟩]
  location := fun _ => ⟨[], 0⟩
  down := fun _ => false
  mHibernatingServers := []
  mChunkReplicationCandidates := fun _ => false

/-- The HELLO of a connection from one chunk server, which has chunk 7. -/
def helloOf (server : ServerId) : Hello := ⟨server, ⟨['h'], 30000⟩, [⟨3, 7, 1⟩]⟩

/-- The chunk server restarts, and the BYE of its old connection is processed first. -/
theorem byeFirst_settled : ∃ cl, oneChunk.run [.hello (helloOf 0) 1, .netError 0, .bye 0 2, .hello (helloOf 1) 3] =
    some cl ∧ Settled cl (helloOf 1) := by
  obtain ⟨cl₁, hr₁, hup, hc⟩ : ∃ cl₁, oneChunk.run [.hello (helloOf 0) 1, .netError 0, .bye 0 2] = some cl₁ ∧
      cl₁.down 1 = false ∧ cl₁.connected (helloOf 1).location = false := ⟨_, rfl, rfl, rfl⟩
  obtain ⟨cl, hr⟩ : ∃ cl, oneChunk.run ([.hello (helloOf 0) 1, .netError 0, .bye 0 2] ++ [.hello (helloOf 1) 3]) =
      some cl := ⟨_, rfl⟩
  refine ⟨cl, hr, ?_⟩
  rw [run_append, hr₁, Option.bind_some] at hr
  exact (settled_iff rfl hr₁ hup hr (by decide) (by simp)).mpr hc

/-- The chunk server restarts, and the HELLO of its new connection is processed first: it is taken for a
duplicate, and the metaserver knows no server at the location. -/
theorem helloFirst_not_settled : ∃ cl,
    oneChunk.run [.hello (helloOf 0) 1, .netError 0, .hello (helloOf 1) 2, .bye 0 3] = some cl ∧
      cl.down 1 = false ∧ cl.lm.mChunkServers = [] ∧ ¬ Settled cl (helloOf 1) := by
  refine ⟨_, rfl, rfl, rfl, ?_⟩
  rintro ⟨hf, -⟩
  cases hf

end Cluster

end Kfs
