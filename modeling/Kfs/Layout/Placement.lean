import Mathlib.Data.List.Perm.Basic
import Mathlib.Data.List.Nodup
import Mathlib.Data.Rat.Defs
import Mathlib.Algebra.Order.Ring.Rat
import Kfs.Layout.Servers

/-!
# The choice of servers for a chunk

`FindCandidateRacks` and `FindCandidateServers` of `LayoutManager.cc`, and the loops over the racks in
`AllocateChunk` and `ReplicateChunk`. `random_shuffle` may answer with any permutation.

* `toFloat`: the numbers of a `float`;
* `ServerInfo`, `RackInfo`, `ChunkReplicate`, `Placement`;
* `FindCandidateRacks`, `FindCandidateServers`, `rackLoop`, `allocateServers`, `replicateServers`;
* `Apart`: no rack but the only one has a negative id;
* `allocateServers_spec`, `replicateServers_spec`: what the two searches find.
-/

namespace Kfs

/-! ## The space that is used -/

/-- The integer next to `x`; the even one if there are two. -/
def roundEven (x : ℚ) : ℤ :=
  let n := ⌊x⌋
  if x - n < 1 / 2 ∨ (x - n = 1 / 2 ∧ n % 2 = 0) then n else n + 1

/-- `2 ^ binaryExponent x ≤ |x| < 2 ^ (binaryExponent x + 1)`. -/
def binaryExponent (x : ℚ) : ℤ :=
  let e : ℤ := x.num.natAbs.log2 - x.den.log2
  if 2 ^ e ≤ |x| then e else e - 1

/-- The `float` next to `x`, which has 24 binary digits. The loads of servers are far from the ends of its range. -/
def toFloat (x : ℚ) : ℚ :=
  if x = 0 then 0
  else
    let ulp : ℚ := 2 ^ (binaryExponent x - 23)
    roundEven (x / ulp) * ulp

/-- Loads that differ by little tie. -/
example : toFloat 500000001 = toFloat 500000000 := by decide +kernel

def MAX_CONCURRENT_WRITE_REPLICATIONS_PER_NODE : ℤ := 5
def MAX_CONCURRENT_READ_REPLICATIONS_PER_NODE : ℤ := 10
def MIN_SERVER_SPACE_UTIL_THRESHOLD : ℚ := toFloat (3 / 10)
def MAX_SERVER_SPACE_UTIL_THRESHOLD : ℚ := toFloat (9 / 10)

/-- `ChunkServer`, with the fields that placement reads. -/
structure ServerInfo where
  mRackId : ℤ
  mTotalSpace : ℕ
  mUsedSpace : ℕ
  mNumChunkWrites : ℤ
  mNumChunkWriteReplications : ℤ
  mNumChunkReadReplications : ℤ
  mHeartbeatSkipped : Bool
  mIsRetiring : Bool
  mChunksToMove : List ℤ
  deriving DecidableEq

namespace ServerInfo

def GetAvailSpace (c : ServerInfo) : ℤ :=
  let mAllocSpace : ℤ := c.mUsedSpace + (c.mNumChunkWriteReplications + c.mNumChunkWrites) * CHUNKSIZE
  if mAllocSpace ≥ c.mTotalSpace then 0 else c.mTotalSpace - mAllocSpace

def GetSpaceUtilization (c : ServerInfo) : ℚ :=
  if c.mTotalSpace = 0 then 0 else toFloat (toFloat c.mUsedSpace / toFloat c.mTotalSpace)

def IsResponsiveServer (c : ServerInfo) : Bool := !c.mHeartbeatSkipped

/-- One of no space, non-responsive or retiring excludes a server. -/
def IsCandidateServer (c : ServerInfo) : Bool :=
  !(decide (c.GetAvailSpace < CHUNKSIZE) || !c.IsResponsiveServer || c.mIsRetiring)

end ServerInfo

structure RackInfo where
  mRackId : ℤ
  mServers : List ServerId
  deriving DecidableEq

/-- A `MetaChunkReplicate` that was enqueued and is not processed yet. `epoch` tells the entries of the map apart
that the chunk had one after the other. -/
structure ChunkReplicate where
  server : ServerId
  chunkId : ℤ
  srcLocation : ServerLocation
  epoch : ℕ
  deriving DecidableEq

/-- The layout manager with its racks, the objects of the servers and the replications under way. `epoch` counts
the entries that were created for a chunk. -/
structure Placement where
  cl : Cluster
  info : ServerId → ServerInfo
  mHelloDone : ServerId → Bool
  mRacks : List RackInfo
  ops : List ChunkReplicate
  epoch : ℤ → ℕ
  mIsRebalancingEnabled : Bool
  mIsExecutingRebalancePlan : Bool

/-- A call of `random_shuffle`. -/
structure Shuffle (α : Type) where
  shuffle : List α → List α
  perm : ∀ l, (shuffle l).Perm l

/-- The vector stays as it is. -/
def Shuffle.id (α : Type) : Shuffle α := ⟨fun l => l, fun l => List.Perm.refl l⟩

/-- The readings of the clock and the calls of `random_shuffle` while one chunk is looked at. -/
structure Visit where
  clock : ℕ → ℤ
  racks : ℕ → Shuffle RackInfo
  servers : ℕ → Shuffle ServerId

namespace Placement

/-! ## Candidates -/

/-- Shuffle the racks and list the ids of those that are not excluded. -/
def FindCandidateRacks (st : Placement) (excludes : List ℤ) (σ : Shuffle RackInfo) : List ℤ × Placement :=
  let mRacks := σ.shuffle st.mRacks
  ((mRacks.map RackInfo.mRackId).filter fun r => decide (r ∉ excludes), { st with mRacks := mRacks })

/-- The servers of `sources` that are on the rack, unless its id is negative, can take a chunk and are not
excluded. -/
def FindCandidateServersOf (st : Placement) (sources excludes : List ServerId) (rackId : ℤ)
    (σ : Shuffle ServerId) : List ServerId :=
  σ.shuffle <| sources.filter fun s =>
    !(decide (0 ≤ rackId) && decide ((st.info s).mRackId ≠ rackId)) && (st.info s).IsCandidateServer &&
      decide (s ∉ excludes) && decide ((st.info s).GetSpaceUtilization ≤ MAX_SERVER_SPACE_UTIL_THRESHOLD)

/-- A rack with a positive id is looked up; the candidates are searched among all servers otherwise. -/
def FindCandidateServers (st : Placement) (excludes : List ServerId) (rackId : ℤ) (σ : Shuffle ServerId) :
    List ServerId :=
  if st.cl.lm.mChunkServers = [] then []
  else if 0 < rackId then
    match st.mRacks.find? fun r => decide (r.mRackId = rackId) with
    | some r => st.FindCandidateServersOf r.mServers excludes rackId σ
    | none => st.FindCandidateServersOf st.cl.lm.mChunkServers excludes rackId σ
  else st.FindCandidateServersOf st.cl.lm.mChunkServers excludes rackId σ

/-- The loop over the candidates of a rack: take them as long as fewer than `numServersPerRack` are taken from
the rack and fewer than `numReplicas` in all. -/
def takeFrom (numReplicas numServersPerRack : ℕ) (localserver : Option ServerId) :
    ℕ → List ServerId → List ServerId → List ServerId
  | _, [], servers => servers
  | n, c :: cs, servers =>
    if numServersPerRack ≤ n then servers
    else if numReplicas ≤ servers.length then servers
    else if some c ≠ localserver then
      takeFrom numReplicas numServersPerRack localserver (n + 1) cs (servers ++ [c])
    else takeFrom numReplicas numServersPerRack localserver n cs servers

/-- The loop over the racks, which `AllocateChunk` and `ReplicateChunk` share; only the former has a local
server. -/
def rackLoop (st : Placement) (numReplicas numServersPerRack : ℕ) (localserver : Option ServerId)
    (excludes : List ServerId) (σ : ℕ → Shuffle ServerId) : ℕ → List ℤ → List ServerId → List ServerId
  | _, [], servers => servers
  | idx, rack :: racks, servers =>
    if numReplicas ≤ servers.length then servers
    else
      let candidates := st.FindCandidateServers excludes rack (σ idx)
      let n := if localserver.any fun s => decide (rack = (st.info s).mRackId) then 1 else 0
      rackLoop st numReplicas numServersPerRack localserver excludes σ (idx + 1) racks
        (takeFrom numReplicas numServersPerRack localserver n candidates servers)

/-- `numReplicas / racks.size()`, rounded up. -/
def serversPerRack (numReplicas racks : ℕ) : ℕ :=
  numReplicas / racks + if numReplicas % racks ≠ 0 then 1 else 0

/-- The server on the machine of the client, if it can take a chunk. -/
def localServer (st : Placement) (clientHost : Str) : Option ServerId :=
  (st.cl.lm.mChunkServers.find? fun s => decide ((st.cl.location s).hostname = clientHost)).filter
    fun s => (st.info s).IsCandidateServer

/-- The servers that `AllocateChunk` picks. -/
def allocateServers (st : Placement) (numReplicas : ℕ) (clientHost : Str) (w : Visit) :
    List ServerId × Placement :=
  let (racks, st) := st.FindCandidateRacks [] (w.racks 0)
  if racks = [] then ([], st)
  else
    let localserver := st.localServer clientHost
    (st.rackLoop numReplicas (serversPerRack numReplicas racks.length) localserver [] w.servers 0 racks
      localserver.toList, st)

/-- The racks of the servers, less those of retiring ones. -/
def racksOf (st : Placement) (excludeRetiring : Bool) (servers : List ServerId) : List ℤ :=
  (servers.filter fun s => !(excludeRetiring && (st.info s).mIsRetiring)).map fun s => (st.info s).mRackId

/-- The servers that `ReplicateChunk` picks for `extraReplicas` more copies: on racks without a copy, or wherever
there is no such rack. -/
def replicateServers (st : Placement) (hosts : List ServerId) (extraReplicas : ℕ) (w : Visit) :
    List ServerId × Placement :=
  let (racks, st) := st.FindCandidateRacks (st.racksOf true hosts) (w.racks 0)
  let (racks, st) := if racks = [] then st.FindCandidateRacks [] (w.racks 1) else (racks, st)
  if racks = [] then ([], st)
  else
    (st.rackLoop extraReplicas (serversPerRack extraReplicas racks.length) none hosts w.servers 0 racks [], st)

/-! ## What the searches find -/

variable {st st' : Placement} {N P n : ℕ} {loc : Option ServerId} {excludes servers cs : List ServerId} {rack : ℤ}
  {racks : List ℤ} {s : ServerId}

theorem mem_candidatesOf {sources : List ServerId} {σ : Shuffle ServerId}
    (h : s ∈ st.FindCandidateServersOf sources excludes rack σ) :
    s ∈ sources ∧ (0 ≤ rack → (st.info s).mRackId = rack) ∧ (st.info s).IsCandidateServer = true ∧ s ∉ excludes := by
  have hm := (σ.perm _).mem_iff.mp h
  rw [List.mem_filter] at hm
  obtain ⟨hs, hp⟩ := hm
  simp only [Bool.and_eq_true, Bool.not_eq_true', Bool.and_eq_false_iff, decide_eq_false_iff_not,
    decide_eq_true_eq, not_not] at hp
  refine ⟨hs, fun hr => ?_, hp.1.1.2, hp.1.2⟩
  rcases hp.1.1.1 with hn | heq
  · exact absurd hr hn
  · exact heq

/-- The racks as they are kept: one for each id, no server twice on a rack or in the list of servers, and all of
them have said HELLO. -/
structure Rostered (st : Placement) : Prop where
  servers : st.cl.lm.mChunkServers.Nodup
  racks : (st.mRacks.map RackInfo.mRackId).Nodup
  onRack : ∀ r ∈ st.mRacks, r.mServers.Nodup
  hello : ∀ s ∈ st.cl.lm.mChunkServers, st.mHelloDone s = true
  helloRack : ∀ r ∈ st.mRacks, ∀ s ∈ r.mServers, st.mHelloDone s = true

/-- `st'` is `st` with its racks in another order. -/
def Reordered (st st' : Placement) : Prop :=
  ∃ racks, racks.Perm st.mRacks ∧ st' = { st with mRacks := racks }

theorem Reordered.trans {st₁ : Placement} (h₁ : Reordered st st₁) (h₂ : Reordered st₁ st') : Reordered st st' := by
  obtain ⟨l₁, hp₁, rfl⟩ := h₁
  obtain ⟨l₂, hp₂, rfl⟩ := h₂
  exact ⟨l₂, hp₂.trans hp₁, rfl⟩

theorem Rostered.reordered (h : Rostered st) (hr : Reordered st st') : Rostered st' := by
  obtain ⟨l, hp, rfl⟩ := hr
  refine ⟨h.servers, ?_, ?_, h.hello, ?_⟩
  · exact (hp.map _).nodup_iff.mpr h.racks
  · exact fun r hr => h.onRack r (hp.mem_iff.mp hr)
  · exact fun r hr => h.helloRack r (hp.mem_iff.mp hr)

theorem FindCandidateRacks_spec (st : Placement) (out : List ℤ) (σ : Shuffle RackInfo) :
    Reordered st (st.FindCandidateRacks out σ).2 ∧
      (st.FindCandidateRacks out σ).1 =
        ((st.FindCandidateRacks out σ).2.mRacks.map RackInfo.mRackId).filter fun r => decide (r ∉ out) :=
  ⟨⟨_, σ.perm _, rfl⟩, rfl⟩

/-- Where the candidates of a rack are searched, no server is listed twice. -/
theorem Rostered.sources (h : Rostered st) (excludes : List ServerId) (rack : ℤ) (σ : Shuffle ServerId) :
    ∃ l : List ServerId, l.Nodup ∧ (∀ s ∈ l, st.mHelloDone s = true) ∧
      st.FindCandidateServers excludes rack σ = st.FindCandidateServersOf l excludes rack σ := by
  unfold FindCandidateServers
  split_ifs with h₁ h₂
  · refine ⟨[], List.nodup_nil, fun s hs => absurd hs List.not_mem_nil, ?_⟩
    exact (List.eq_nil_of_length_eq_zero (σ.perm []).length_eq).symm
  · split
    · rename_i r hf
      have hr := List.mem_of_find?_eq_some hf
      exact ⟨r.mServers, h.onRack r hr, h.helloRack r hr, rfl⟩
    · exact ⟨_, h.servers, h.hello, rfl⟩
  · exact ⟨_, h.servers, h.hello, rfl⟩

theorem Rostered.candidates_nodup (h : Rostered st) (excludes : List ServerId) (rack : ℤ) (σ : Shuffle ServerId) :
    (st.FindCandidateServers excludes rack σ).Nodup := by
  obtain ⟨l, hl, -, heq⟩ := h.sources excludes rack σ
  rw [heq]
  exact (σ.perm _).nodup_iff.mpr (hl.filter _)

/-- A candidate can take a chunk, is not excluded, and is on the rack if its id is not negative. -/
theorem Rostered.candidate (h : Rostered st) {σ : Shuffle ServerId}
    (hs : s ∈ st.FindCandidateServers excludes rack σ) :
    st.mHelloDone s = true ∧ (0 ≤ rack → (st.info s).mRackId = rack) ∧ (st.info s).IsCandidateServer = true ∧
      s ∉ excludes := by
  obtain ⟨l, -, hl, heq⟩ := h.sources excludes rack σ
  rw [heq] at hs
  obtain ⟨hm, hrest⟩ := mem_candidatesOf hs
  exact ⟨hl s hm, hrest⟩

/-- The loop over the candidates of one rack appends some of them. -/
theorem takeFrom_spec (N P : ℕ) (loc : Option ServerId) : ∀ (cs : List ServerId) (n : ℕ) (servers : List ServerId),
    ∃ l, takeFrom N P loc n cs servers = servers ++ l ∧ l.Sublist cs ∧ (∀ s ∈ l, some s ≠ loc) ∧
      (servers.length ≤ N → (servers ++ l).length ≤ N)
  | [], n, servers => ⟨[], by simp [takeFrom], List.Sublist.refl _, by simp, by simp⟩
  | c :: cs, n, servers => by
    rw [takeFrom]
    split_ifs with h₁ h₂ h₃
    · exact ⟨[], by simp, List.nil_sublist _, by simp, by simp⟩
    · exact ⟨[], by simp, List.nil_sublist _, by simp, by simp⟩
    · obtain ⟨l, heq, hsub, hne, hlen⟩ := takeFrom_spec N P loc cs (n + 1) (servers ++ [c])
      refine ⟨c :: l, by simpa using heq, hsub.cons_cons c, ?_, fun _ => ?_⟩
      · intro s hs
        rcases List.mem_cons.mp hs with rfl | hs
        · exact h₃
        · exact hne s hs
      · have hle : (servers ++ [c]).length ≤ N := by simp; omega
        simpa using hlen hle
    · obtain ⟨l, heq, hsub, hrest⟩ := takeFrom_spec N P loc cs n servers
      exact ⟨l, heq, hsub.cons c, hrest⟩

/-- The loop over the racks appends candidates, and no more than are asked for. -/
theorem Rostered.rackLoop_spec (h : Rostered st) (N P : ℕ) (loc : Option ServerId) (excludes : List ServerId)
    (σ : ℕ → Shuffle ServerId) : ∀ (racks : List ℤ) (idx : ℕ) (servers : List ServerId),
      ∃ l, st.rackLoop N P loc excludes σ idx racks servers = servers ++ l ∧
        (∀ s ∈ l, st.mHelloDone s = true ∧ (st.info s).IsCandidateServer = true ∧ s ∉ excludes) ∧
        (servers.length ≤ N → (servers ++ l).length ≤ N)
  | [], idx, servers => ⟨[], by simp [rackLoop], by simp, by simp⟩
  | rack :: racks, idx, servers => by
    rw [rackLoop]
    by_cases hfull : N ≤ servers.length
    · rw [if_pos hfull]
      exact ⟨[], by simp, by simp, by simp⟩
    · rw [if_neg hfull]
      dsimp only
      obtain ⟨l₁, heq₁, hsub₁, -, hlen₁⟩ := takeFrom_spec N P loc (st.FindCandidateServers excludes rack (σ idx))
        (if loc.any fun s => decide (rack = (st.info s).mRackId) then 1 else 0) servers
      rw [heq₁]
      obtain ⟨l₂, heq₂, hmem₂, hlen₂⟩ := h.rackLoop_spec N P loc excludes σ racks (idx + 1) (servers ++ l₁)
      refine ⟨l₁ ++ l₂, by rw [heq₂, List.append_assoc], ?_, fun hle => ?_⟩
      · intro s hs
        rcases List.mem_append.mp hs with hs | hs
        · obtain ⟨hd, -, hc, hx⟩ := h.candidate (hsub₁.subset hs)
          exact ⟨hd, hc, hx⟩
        · exact hmem₂ s hs
      · rw [← List.append_assoc]
        exact hlen₂ (hlen₁ hle)

/-- The racks offer no server twice. -/
def Disjoint (st : Placement) (excludes : List ServerId) (racks : List ℤ) : Prop :=
  racks.Pairwise fun a b => ∀ σ σ' s, s ∈ st.FindCandidateServers excludes a σ →
    s ∉ st.FindCandidateServers excludes b σ'

/-- From racks that offer no server twice the loop takes no server twice. -/
theorem Rostered.rackLoop_nodup (h : Rostered st) {σ : ℕ → Shuffle ServerId} :
    ∀ (racks : List ℤ) (idx : ℕ) (servers : List ServerId), st.Disjoint excludes racks → servers.Nodup →
      (∀ s ∈ servers, some s = loc ∨ ∀ r ∈ racks, ∀ σ', s ∉ st.FindCandidateServers excludes r σ') →
      (st.rackLoop N P loc excludes σ idx racks servers).Nodup
  | [], idx, servers, _, hn, _ => by simpa [rackLoop] using hn
  | rack :: racks, idx, servers, hd, hn, hold => by
    rw [rackLoop]
    by_cases hfull : N ≤ servers.length
    · rw [if_pos hfull]
      exact hn
    · rw [if_neg hfull]
      dsimp only
      obtain ⟨l, heq, hsub, hloc, -⟩ := takeFrom_spec N P loc (st.FindCandidateServers excludes rack (σ idx))
        (if loc.any fun s => decide (rack = (st.info s).mRackId) then 1 else 0) servers
      rw [heq]
      obtain ⟨hd₁, hd₂⟩ := List.pairwise_cons.mp hd
      refine h.rackLoop_nodup racks (idx + 1) (servers ++ l) hd₂ ?_ ?_
      · refine List.Nodup.append hn ((h.candidates_nodup _ _ _).sublist hsub) ?_
        intro s hs hl
        rcases hold s hs with heq | hnot
        · exact hloc s hl heq
        · exact hnot rack List.mem_cons_self (σ idx) (hsub.subset hl)
      · intro s hs
        rcases List.mem_append.mp hs with hs | hs
        · exact (hold s hs).imp_right fun hnot r hr => hnot r (List.mem_cons_of_mem _ hr)
        · exact Or.inr fun r hr σ' => hd₁ r hr (σ idx) σ' s (hsub.subset hs)

/-- At most one server is asked for, there is at most one rack, or no rack has a negative id: a negative id stands
for every server. -/
def Apart (st : Placement) (numReplicas : ℕ) : Prop :=
  numReplicas ≤ 1 ∨ st.mRacks.length ≤ 1 ∨ ∀ r ∈ st.mRacks, 0 ≤ r.mRackId

instance (st : Placement) (numReplicas : ℕ) : Decidable (st.Apart numReplicas) :=
  inferInstanceAs (Decidable (_ ∨ _ ∨ _))

theorem Apart.reordered (h : st.Apart N) (hr : Reordered st st') : st'.Apart N := by
  obtain ⟨l, hp, rfl⟩ := hr
  refine h.imp_right (Or.imp (fun hl => ?_) fun hl r hr => ?_)
  · exact hp.length_eq.trans_le hl
  · exact hl r (hp.mem_iff.mp hr)

theorem Rostered.disjoint (h : Rostered st) (out : List ℤ)
    (ha : st.mRacks.length ≤ 1 ∨ ∀ r ∈ st.mRacks, 0 ≤ r.mRackId) :
    st.Disjoint excludes ((st.mRacks.map RackInfo.mRackId).filter fun r => decide (r ∉ out)) := by
  have hsub : ((st.mRacks.map RackInfo.mRackId).filter fun r => decide (r ∉ out)).Sublist
    (st.mRacks.map RackInfo.mRackId) := List.filter_sublist
  rcases ha with hl | hpos
  · have hle := hsub.length_le
    rw [List.length_map] at hle
    match heq : (st.mRacks.map RackInfo.mRackId).filter fun r => decide (r ∉ out) with
    | [] => exact List.Pairwise.nil
    | [r] => exact List.pairwise_singleton _ _
    | a :: b :: l =>
      rw [heq] at hle
      simp only [List.length_cons] at hle
      omega
  · -- a candidate is on the rack that offers it
    refine List.Pairwise.imp_of_mem ?_ (h.racks.sublist hsub)
    intro a b ha hb hne σ σ' s hs hs'
    have hp : ∀ x ∈ st.mRacks.map RackInfo.mRackId, 0 ≤ x := by
      intro x hx
      obtain ⟨r, hr, rfl⟩ := List.mem_map.mp hx
      exact hpos r hr
    have h₁ := (h.candidate hs).2.1 (hp a (hsub.subset ha))
    have h₂ := (h.candidate hs').2.1 (hp b (hsub.subset hb))
    exact hne (h₁.symm.trans h₂)

theorem nodup_of_length_le_one {α : Type} {l : List α} (h : l.length ≤ 1) : l.Nodup := by
  match l with
  | [] => exact List.nodup_nil
  | [a] => exact List.nodup_singleton a
  | a :: b :: l =>
    simp only [List.length_cons] at h
    omega

/-- The racks that a search leaves, and what the loop then takes from them. -/
theorem Rostered.search (h : Rostered st) (out : List ℤ) (P : ℕ) (σ : ℕ → Shuffle ServerId) (hN : 0 < N)
    (hloc : ∀ s ∈ loc, st.mHelloDone s = true ∧ (st.info s).IsCandidateServer = true ∧ s ∉ excludes) :
    let racks := (st.mRacks.map RackInfo.mRackId).filter fun r => decide (r ∉ out)
    let l := st.rackLoop N P loc excludes σ 0 racks loc.toList
    l.length ≤ N ∧ (st.Apart N → l.Nodup) ∧
      ∀ s ∈ l, st.mHelloDone s = true ∧ (st.info s).IsCandidateServer = true ∧ s ∉ excludes := by
  intro racks l
  obtain ⟨l', heq, hmem, hlen⟩ := h.rackLoop_spec N P loc excludes σ racks 0 loc.toList
  have hle : l.length ≤ N := by
    rw [show l = loc.toList ++ l' from heq]
    apply hlen
    cases loc
    · exact Nat.zero_le _
    · exact hN
  refine ⟨hle, fun ha => ?_, ?_⟩
  · rcases ha with hone | ha
    · exact nodup_of_length_le_one (hle.trans hone)
    · refine h.rackLoop_nodup racks 0 loc.toList (h.disjoint out ha) ?_ ?_
      · cases loc
        · exact List.nodup_nil
        · exact List.nodup_singleton _
      · exact fun s hs => Or.inl (Option.mem_toList.mp hs).symm
  · intro s hs
    rw [show l = loc.toList ++ l' from heq] at hs
    rcases List.mem_append.mp hs with hs | hs
    · exact hloc s (Option.mem_toList.mp hs)
    · exact hmem s hs

/-- **The servers for a new chunk**: at most as many as there are replicas, all of them can take a chunk, and no
server twice if the racks are apart. -/
theorem Rostered.allocateServers_spec (h : Rostered st) (clientHost : Str) (w : Visit) (hN : 0 < N) :
    Reordered st (st.allocateServers N clientHost w).2 ∧
      (st.allocateServers N clientHost w).1.length ≤ N ∧
      (st.Apart N → (st.allocateServers N clientHost w).1.Nodup) ∧
      ∀ s ∈ (st.allocateServers N clientHost w).1,
        st.mHelloDone s = true ∧ (st.info s).IsCandidateServer = true := by
  obtain ⟨hre, hracks⟩ := FindCandidateRacks_spec st [] (w.racks 0)
  unfold allocateServers
  generalize st.FindCandidateRacks [] (w.racks 0) = p at hre hracks
  obtain ⟨racks, st₁⟩ := p
  dsimp only at hre hracks ⊢
  split_ifs with hnil
  · exact ⟨hre, Nat.zero_le _, fun _ => List.nodup_nil, by simp⟩
  have h₁ := h.reordered hre
  have hloc : ∀ s ∈ st₁.localServer clientHost,
      st₁.mHelloDone s = true ∧ (st₁.info s).IsCandidateServer = true ∧ s ∉ ([] : List ServerId) := by
    intro s hs
    obtain ⟨hf, hc⟩ := Option.filter_eq_some_iff.mp hs
    exact ⟨h₁.hello s (List.mem_of_find?_eq_some hf), hc, List.not_mem_nil⟩
  obtain ⟨hlen, hnd, hmem⟩ := h₁.search [] (serversPerRack N racks.length) w.servers hN hloc
  rw [← hracks] at hlen hnd hmem
  refine ⟨hre, hlen, fun ha => hnd (ha.reordered hre), fun s hs => ?_⟩
  obtain ⟨l, -, rfl⟩ := hre
  exact ⟨(hmem s hs).1, (hmem s hs).2.1⟩

/-- A candidate is one of the servers, listed or on a rack, and can take a chunk. -/
theorem mem_FindCandidateServers {σ : Shuffle ServerId} (h : s ∈ st.FindCandidateServers excludes rack σ) :
    (s ∈ st.cl.lm.mChunkServers ∨ ∃ k ∈ st.mRacks, s ∈ k.mServers) ∧ (st.info s).IsCandidateServer = true := by
  unfold FindCandidateServers at h
  split_ifs at h with hnone hpos
  · simp at h
  · split at h
    · rename_i k hk
      obtain ⟨hm, -, hc, -⟩ := mem_candidatesOf h
      exact ⟨Or.inr ⟨k, List.mem_of_find?_eq_some hk, hm⟩, hc⟩
    · obtain ⟨hm, -, hc, -⟩ := mem_candidatesOf h
      exact ⟨Or.inl hm, hc⟩
  · obtain ⟨hm, -, hc, -⟩ := mem_candidatesOf h
    exact ⟨Or.inl hm, hc⟩

/-- What the loop over the racks takes was offered by one of them. -/
theorem rackLoop_offered {σ : ℕ → Shuffle ServerId} : ∀ {racks : List ℤ} {idx : ℕ} {servers : List ServerId},
    s ∈ st.rackLoop N P loc excludes σ idx racks servers →
      s ∈ servers ∨ ∃ rack σ', s ∈ st.FindCandidateServers excludes rack σ'
  | [], _, _, h => Or.inl (by simpa [rackLoop] using h)
  | rack :: racks, idx, servers, h => by
    rw [rackLoop] at h
    by_cases hfull : N ≤ servers.length
    · rw [if_pos hfull] at h
      exact Or.inl h
    rw [if_neg hfull] at h
    dsimp only at h
    obtain ⟨l, heq, hsub, -, -⟩ := takeFrom_spec N P loc (st.FindCandidateServers excludes rack (σ idx))
      (if loc.any fun s => decide (rack = (st.info s).mRackId) then 1 else 0) servers
    rw [heq] at h
    refine (rackLoop_offered h).elim (fun h => ?_) Or.inr
    rcases List.mem_append.mp h with h | h
    · exact Or.inl h
    · exact Or.inr ⟨rack, σ idx, hsub.subset h⟩

/-- Both ways to list the racks leave a state and the ids that are not excluded in it. -/
theorem listRacks_spec (st : Placement) (hosts : List ServerId) (w : Visit) :
    ∃ (out racks : List ℤ) (st₁ : Placement), Reordered st st₁ ∧
      racks = (st₁.mRacks.map RackInfo.mRackId).filter (fun r => decide (r ∉ out)) ∧
      (let (racks, st) := st.FindCandidateRacks (st.racksOf true hosts) (w.racks 0)
        if racks = [] then st.FindCandidateRacks [] (w.racks 1) else (racks, st)) = (racks, st₁) := by
  obtain ⟨hre₁, heq₁⟩ := FindCandidateRacks_spec st (st.racksOf true hosts) (w.racks 0)
  generalize st.FindCandidateRacks (st.racksOf true hosts) (w.racks 0) = p at hre₁ heq₁
  obtain ⟨racks, st₁⟩ := p
  dsimp only at hre₁ heq₁ ⊢
  split_ifs with hnil
  · obtain ⟨hre₂, heq₂⟩ := FindCandidateRacks_spec st₁ [] (w.racks 1)
    exact ⟨[], _, _, hre₁.trans hre₂, heq₂, rfl⟩
  · exact ⟨_, racks, st₁, hre₁, heq₁, rfl⟩

/-- The servers for more copies were offered by racks. -/
theorem replicateServers_offered (w : Visit) (n : ℕ) : Reordered st (st.replicateServers excludes n w).2 ∧
    ∀ s ∈ (st.replicateServers excludes n w).1, ∃ st₁ rack σ, Reordered st st₁ ∧
      s ∈ st₁.FindCandidateServers excludes rack σ := by
  obtain ⟨-, racks, st₁, hre, -, hsearch⟩ := listRacks_spec st excludes w
  unfold replicateServers
  dsimp only at hsearch ⊢
  rw [hsearch]
  dsimp only
  split_ifs with hnil
  · exact ⟨hre, by simp⟩
  · refine ⟨hre, fun s hs => ?_⟩
    obtain ⟨rack, σ, h⟩ := (rackLoop_offered hs).resolve_left List.not_mem_nil
    exact ⟨st₁, rack, σ, hre, h⟩

/-- **The servers for more copies**: at most as many as are asked for, none of them has the chunk, and no server
twice if the racks are apart. -/
theorem Rostered.replicateServers_spec (h : Rostered st) (hosts : List ServerId) (w : Visit) (hN : 0 < N) :
    Reordered st (st.replicateServers hosts N w).2 ∧
      (st.replicateServers hosts N w).1.length ≤ N ∧
      (st.Apart N → (st.replicateServers hosts N w).1.Nodup) ∧
      ∀ s ∈ (st.replicateServers hosts N w).1,
        st.mHelloDone s = true ∧ (st.info s).IsCandidateServer = true ∧ s ∉ hosts := by
  obtain ⟨out, racks, st₁, hre, heq, hsearch⟩ := listRacks_spec st hosts w
  have h₁ := h.reordered hre
  unfold replicateServers
  dsimp only at hsearch ⊢
  rw [hsearch]
  dsimp only
  split_ifs with hnil
  · exact ⟨hre, Nat.zero_le _, fun _ => List.nodup_nil, by simp⟩
  obtain ⟨hlen, hnd, hmem⟩ := @search st₁ N none hosts h₁ out (serversPerRack N racks.length)
    w.servers hN (by simp)
  rw [← heq] at hlen hnd hmem
  refine ⟨hre, hlen, fun ha => hnd (ha.reordered hre), fun s hs => ?_⟩
  obtain ⟨l, -, rfl⟩ := hre
  exact hmem s hs

end Placement

end Kfs
