import Mathlib.Data.List.Dedup
import Mathlib.Data.List.Sort
import Kfs.Layout.Placement

/-!
# Replication of chunks

`ChunkReplicationChecker`, `RebalanceServers`, `ExecuteRebalancePlan`, `FindReplicationWorkForServer` and
`ChunkReplicationDone` of `LayoutManager.cc`, with the requests that create, change and erase the entries of
`mChunkToServerMap`. The chunks that a loop reaches before its time is up are an argument of it, and so are the
readings of the clock and the shuffles.

A replication that was enqueued is in `ops` until `ChunkReplicationDone` processes it; the reply of the server, an
error of its connection and its removal end it with any status.

* `CanReplicateChunkNow`, `ReplicateChunkTo`, `ReplicateChunk`, `ReplicateChunkToServers`,
  `DeleteAddlChunkReplicas`;
* the loops `checkLoop`, `workLoop`, `planLoop`, `rebalanceLoop` and the functions around them;
* `PlaceEv`, `Placement.step`, `Placement.run`.
-/

namespace Kfs

namespace Placement

/-! ## State -/

/-- The entry of a chunk in `mChunkToServerMap`. -/
def entry (st : Placement) (c : ℤ) : Option ChunkPlacementInfo := st.cl.lm.mChunkToServerMap c

def setLayout (st : Placement) (lm : LayoutManager) : Placement := { st with cl := { st.cl with lm := lm } }

def setEntry (st : Placement) (c : ℤ) (v : ChunkPlacementInfo) : Placement := st.setLayout (st.cl.lm.set c v)

def setInfo (st : Placement) (s : ServerId) (i : ServerInfo) : Placement :=
  { st with info := Function.update st.info s i }

/-- `ChangeChunkReplication`. -/
def ChangeChunkReplication (st : Placement) (c : ℤ) : Placement :=
  { st with cl := { st.cl with
      mChunkReplicationCandidates := fun x => x == c || st.cl.mChunkReplicationCandidates x } }

def UpdateReplicationReadLoad (st : Placement) (s : ServerId) (count : ℤ) : Placement :=
  let n := (st.info s).mNumChunkReadReplications + count
  st.setInfo s { st.info s with mNumChunkReadReplications := if n < 0 then 0 else n }

/-- `ChunkServer::ReplicateChunk`: enqueue the request. -/
def enqueue (st : Placement) (c : ServerId) (chunkId : ℤ) (loc : ServerLocation) : Placement :=
  let i := st.info c
  { st.setInfo c { i with mNumChunkWriteReplications := i.mNumChunkWriteReplications + 1 } with
    ops := st.ops ++ [⟨c, chunkId, loc, st.epoch chunkId⟩] }

/-! ## Starting replications -/

/-- Whether the chunk can be replicated now, and then how many copies are missing. -/
def CanReplicateChunkNow (st : Placement) (chunkId : ℤ) (c : ChunkPlacementInfo) (t : ℕ → ℤ) : Option ℤ :=
  if (findLease LeaseInfo.IsValidWriteLease t 0 c.chunkLeases).isSome then none
  else if c.chunkServers = [] then some 0
  else
    match getFattr st.cl.leaves c.fid with
    | none => some 0
    | some fa =>
      match (getalloc st.cl.leaves c.fid).find? fun m => decide (m.chunkId = chunkId) with
      | none => some 0
      | some _ =>
        let size : ℤ := c.chunkServers.length
        let numRetiringServers : ℤ := c.chunkServers.countP fun s => (st.info s).mIsRetiring
        if numRetiringServers > 0 then
          if size - numRetiringServers < fa.numReplicas % 2 ^ 32 then
            some (numRetiringServers + (fa.numReplicas - size))
          else some 0
        else
          let extraReplicas := fa.numReplicas - size
          -- there is no deletion while someone reads
          if extraReplicas < 0 ∧ (findLease LeaseInfo.IsValidLease t c.chunkLeases.length c.chunkLeases).isSome then
            none
          else some extraReplicas

/-- Where to copy the chunk from: a retiring server if it can, or the first that has bandwidth. -/
def dataServer (st : Placement) (hosts : List ServerId) : Option ServerId :=
  let idle := fun s => decide ((st.info s).mNumChunkReadReplications < MAX_CONCURRENT_READ_REPLICATIONS_PER_NODE)
  match (hosts.find? fun s => (st.info s).mIsRetiring).filter
      fun s => idle s && (st.info s).IsResponsiveServer with
  | some s => some s
  | none => hosts.find? idle

/-- `ReplicateChunk` with its candidates, cut to the copies that are asked for: the number of requests that were
sent; `none` when a candidate has the chunk. -/
def ReplicateChunkTo (chunkId : ℤ) (hosts : List ServerId) : List ServerId → Placement → Option (ℕ × Placement)
  | [], st => some (0, st)
  | c :: cs, st =>
    if (st.info c).mNumChunkWriteReplications > MAX_CONCURRENT_WRITE_REPLICATIONS_PER_NODE then
      ReplicateChunkTo chunkId hosts cs st
    else if c ∈ hosts then none
    else
      match st.dataServer hosts with
      | none => ReplicateChunkTo chunkId hosts cs st
      | some d => do
        let (numDone, st) ← ReplicateChunkTo chunkId hosts cs
          ((st.UpdateReplicationReadLoad d 1).enqueue c chunkId (st.cl.location d))
        some (numDone + 1, st)

/-- `ReplicateChunk`: find the candidates. -/
def ReplicateChunk (st : Placement) (chunkId : ℤ) (clli : ChunkPlacementInfo) (extraReplicas : ℕ) (w : Visit) :
    Option (ℕ × Placement) :=
  let (candidates, st) := st.replicateServers clli.chunkServers extraReplicas w
  ReplicateChunkTo chunkId clli.chunkServers (candidates.take extraReplicas) st

/-- `ongoingReplications += numOngoing`. -/
def addOngoing (st : Placement) (chunkId : ℤ) (v : ChunkPlacementInfo) (numOngoing : ℕ) : Placement :=
  st.setEntry chunkId { v with ongoingReplications := v.ongoingReplications + numOngoing }

/-- `none` when a candidate has the chunk. -/
def ReplicateChunkToServers (st : Placement) (chunkId : ℤ) (clli : ChunkPlacementInfo) (numCopies : ℕ)
    (candidates : List ServerId) : Option Placement :=
  if candidates.any fun s => decide (s ∈ clli.chunkServers) then none
  else do
    let (numOngoing, st) ← ReplicateChunkTo chunkId clli.chunkServers (candidates.take numCopies) st
    if numOngoing > 0 then some ((st.ChangeChunkReplication chunkId).addOngoing chunkId clli numOngoing)
    else some st

/-- One copy on each rack: the servers that are kept. -/
def onePerRack (st : Placement) : List ServerId → List ℤ → List ServerId
  | [], _ => []
  | s :: ss, chosenRacks =>
    if (st.info s).mRackId ∉ chosenRacks then s :: onePerRack st ss ((st.info s).mRackId :: chosenRacks)
    else onePerRack st ss chosenRacks

/-- `SortServersByUtilization`; servers with the same load may come in any order. -/
def SortServersByUtilization (st : Placement) (servers : List ServerId) (σ : Shuffle ServerId) : List ServerId :=
  (σ.shuffle servers).mergeSort fun a b =>
    decide ((st.info a).GetSpaceUtilization ≤ (st.info b).GetSpaceUtilization)

/-- Keep a copy on each rack, or the copies on the servers with the most space; no copy goes while one of the
servers is retiring. -/
def DeleteAddlChunkReplicas (st : Placement) (chunkId : ℤ) (clli : ChunkPlacementInfo) (extraReplicas : ℕ)
    (w : Visit) : Placement :=
  if clli.chunkServers.any fun s => (st.info s).mIsRetiring then st
  else
    let numReplicas := clli.chunkServers.length - extraReplicas
    let servers := st.SortServersByUtilization clli.chunkServers (w.servers 0)
    let kept :=
      if (st.racksOf false servers).dedup.length = numReplicas then st.onePerRack servers []
      else servers.take numReplicas
    st.setEntry chunkId { clli with chunkServers := kept }

/-! ## The checker -/

/-- Copies are started, nothing is done, or copies are dropped. -/
def replicateOrDelete (st : Placement) (c : ℤ) (v : ChunkPlacementInfo) (extraReplicas : ℤ) (w : Visit) :
    Option Placement :=
  if extraReplicas > 0 then
    (st.ReplicateChunk c v extraReplicas.toNat w).map fun p => p.2.addOngoing c v p.1
  else if extraReplicas = 0 then some st
  else some (st.DeleteAddlChunkReplicas c v (-extraReplicas).toNat w)

/-- The loop of `ChunkReplicationChecker`, with the chunks to take out of the candidates. -/
def checkLoop (w : ℤ → Visit) : List ℤ → ℕ → List ℤ → Placement → Option (List ℤ × Placement)
  | [], _, delset, st => some (delset, st)
  | c :: cs, numIterations, delset, st =>
    if ¬ st.cl.mChunkReplicationCandidates c then checkLoop w cs numIterations delset st
    else
      match st.entry c with
      | none => checkLoop w cs numIterations (c :: delset) st
      | some v =>
        if v.ongoingReplications > 0 then checkLoop w cs numIterations delset st
        else
          match st.CanReplicateChunkNow c v (w c).clock with
          | none => checkLoop w cs numIterations delset st
          | some extraReplicas =>
            match st.replicateOrDelete c v extraReplicas (w c) with
            | none => none
            | some st =>
              let n := if extraReplicas > 0 then numIterations + 1 else numIterations
              let delset := if extraReplicas > 0 then delset else c :: delset
              -- throttle
              if (n : ℤ) > st.cl.lm.mChunkServers.length * MAX_CONCURRENT_WRITE_REPLICATIONS_PER_NODE then
                some (delset, st)
              else checkLoop w cs n delset st

/-! ## The rebalance plan -/

/-- The loop of `ExecuteRebalancePlan` for a server; a chunk of the plan that is not in the map is not caught. -/
def planLoop (w : ℤ → Visit) (c : ServerId) : List ℤ → Placement → Option Placement
  | [], st => some st
  | cid :: cids, st =>
    if (st.info c).mNumChunkWriteReplications > MAX_CONCURRENT_WRITE_REPLICATIONS_PER_NODE then some st
    else
      match st.entry cid with
      | none => none
      | some v =>
        if v.ongoingReplications > 0 ∨ st.CanReplicateChunkNow cid v (w cid).clock = none ∨ c ∈ v.chunkServers then
          planLoop w c cids st
        else do
          let st ← st.ReplicateChunkToServers cid v 1 [c]
          planLoop w c cids st

/-- `ExecuteRebalancePlan` for one server. -/
def ExecuteRebalancePlanOn (w : ℤ → Visit) (st : Placement) (c : ServerId) : Option Placement :=
  let i := st.info c
  if i.GetSpaceUtilization > MAX_SERVER_SPACE_UTIL_THRESHOLD then some (st.setInfo c { i with mChunksToMove := [] })
  else planLoop w c i.mChunksToMove st

/-- `RebalancePlanExecutor`. -/
def planExecutor (w : ServerId → ℤ → Visit) (st : Placement) (c : ServerId) : Option Placement :=
  if (st.info c).mIsRetiring || !(st.info c).IsResponsiveServer then some st
  else st.ExecuteRebalancePlanOn (w c) c

def ExecuteRebalancePlan (w : ServerId → ℤ → Visit) (st : Placement) : Option Placement :=
  if !st.mIsExecutingRebalancePlan then some st
  else do
    let st ← st.cl.lm.mChunkServers.foldlM (planExecutor w) st
    if st.cl.lm.mChunkServers.all fun s => (st.info s).mChunksToMove.isEmpty then
      some { st with mIsExecutingRebalancePlan := false }
    else some st

/-! ## Rebalancing -/

/-- For each loaded server of the chunk, another server of its rack. -/
def FindIntraRackRebalanceCandidates (st : Placement) (nonloadedServers hosts : List ServerId)
    (σ : ℕ → Shuffle ServerId) : ℕ → List ServerId → List ServerId → List ServerId
  | _, [], candidates => candidates
  | i, s :: ss, candidates =>
    if (st.info s).GetSpaceUtilization < MAX_SERVER_SPACE_UTIL_THRESHOLD then
      FindIntraRackRebalanceCandidates st nonloadedServers hosts σ (i + 1) ss candidates
    else
      let servers := st.FindCandidateServersOf nonloadedServers hosts (st.info s).mRackId (σ i)
      FindIntraRackRebalanceCandidates st nonloadedServers hosts σ (i + 1) ss
        (candidates ++ (servers.find? fun x => decide (x ∉ candidates)).toList)

/-- A server on a rack that has no copy of the chunk. -/
def FindInterRackRebalanceCandidate (st : Placement) (nonloadedServers hosts : List ServerId)
    (σ : Shuffle ServerId) : Option ServerId :=
  let servers := st.FindCandidateServersOf nonloadedServers hosts (-1) σ
  if st.mRacks.length ≤ 1 then none
  else servers.find? fun s => decide ((st.info s).mRackId ∉ st.racksOf false hosts)

/-- The servers that a chunk could move to. -/
def rebalanceCandidates (st : Placement) (nonloadedServers hosts : List ServerId) (w : Visit) : List ServerId :=
  match st.FindIntraRackRebalanceCandidates nonloadedServers hosts w.servers 0 hosts [] with
  | [] => (st.FindInterRackRebalanceCandidate nonloadedServers hosts (w.servers hosts.length)).toList
  | candidates => candidates

/-- The loop of `RebalanceServers`. -/
def rebalanceLoop (w : ℤ → Visit) (nonloadedServers : List ServerId) : List ℤ → Placement → Option Placement
  | [], st => some st
  | c :: cs, st =>
    let busy := nonloadedServers.all fun s =>
      decide ((st.info s).mNumChunkWriteReplications > MAX_CONCURRENT_WRITE_REPLICATIONS_PER_NODE)
    if busy then some st
    else
      match st.entry c with
      | none => rebalanceLoop w nonloadedServers cs st
      | some clli =>
        if clli.ongoingReplications > 0 then rebalanceLoop w nonloadedServers cs st
        else
          match st.CanReplicateChunkNow c clli (w c).clock with
          | none => rebalanceLoop w nonloadedServers cs st
          | some extraReplicas =>
            let loaded := clli.chunkServers.any fun s =>
              decide ((st.info s).GetSpaceUtilization > MAX_SERVER_SPACE_UTIL_THRESHOLD)
            let candidates := st.rebalanceCandidates nonloadedServers clli.chunkServers (w c)
            let present := (getalloc st.cl.leaves clli.fid).any fun m => decide (m.chunkId = c)
            if extraReplicas < 0 ∨ !loaded ∨ candidates = [] ∨ !present then rebalanceLoop w nonloadedServers cs st
            else do
              let numCopies := min candidates.length clli.chunkServers.length
              let st ← st.ReplicateChunkToServers c clli numCopies candidates
              rebalanceLoop w nonloadedServers cs st

/-- What a run of the checker is given: the time, the chunks that its loops reach, and what happens at each. -/
structure Round where
  now : ℤ
  checked : List ℤ
  check : ℤ → Visit
  plan : ServerId → ℤ → Visit
  moved : List ℤ
  move : ℤ → Visit

def RebalanceServers (st : Placement) (r : Round) : Option Placement :=
  if st.cl.lm.InRecovery r.now || st.cl.lm.mChunkServers.isEmpty then some st
  else do
    let st ← st.ExecuteRebalancePlan r.plan
    if !st.mIsRebalancingEnabled then some st
    else
      let servers := st.cl.lm.mChunkServers.filter fun s => !(st.info s).mIsRetiring
      let nonloadedServers := servers.filter fun s =>
        decide ((st.info s).GetSpaceUtilization < MIN_SERVER_SPACE_UTIL_THRESHOLD)
      let loadedServers := servers.filter fun s =>
        decide ((st.info s).GetSpaceUtilization > MAX_SERVER_SPACE_UTIL_THRESHOLD)
      if nonloadedServers = [] ∨ loadedServers = [] then some st
      else rebalanceLoop r.move nonloadedServers r.moved st

/-- The candidates that `EvacuateChunkChecker` puts back are a `ChangeChunkReplication` of their own. -/
def ChunkReplicationChecker (st : Placement) (r : Round) : Option Placement :=
  if st.cl.lm.InRecovery r.now then some st
  else do
    let st := { st with cl := st.cl.CheckHibernatingServersStatus r.now }
    let (delset, st) ← checkLoop r.check r.checked 0 [] st
    let st := { st with cl := { st.cl with
      mChunkReplicationCandidates := fun x => st.cl.mChunkReplicationCandidates x && decide (x ∉ delset) } }
    st.RebalanceServers r

/-! ## The end of a replication -/

/-- One copy on the server, if there are too few. -/
def replicateOn (st : Placement) (c : ℤ) (v : ChunkPlacementInfo) (extraReplicas : ℤ) (server : ServerId) :
    Option Placement :=
  if extraReplicas > 0 then
    (ReplicateChunkTo c v.chunkServers [server] st).map fun p => p.2.addOngoing c v p.1
  else some st

/-- The loop of `FindReplicationWorkForServer`. -/
def workLoop (w : ℤ → Visit) (server : ServerId) : List ℤ → Placement → Option Placement
  | [], st => some st
  | c :: cs, st =>
    if ¬ st.cl.mChunkReplicationCandidates c then workLoop w server cs st
    else
      match st.entry c with
      | none => workLoop w server cs st
      | some v =>
        if v.ongoingReplications > 0 ∨ server ∈ v.chunkServers then workLoop w server cs st
        else
          match st.CanReplicateChunkNow c v (w c).clock with
          | none => workLoop w server cs st
          | some extraReplicas =>
            if extraReplicas > 0 ∧ st.mRacks.length > 1 ∧
                (st.info server).mRackId ∈ st.racksOf true v.chunkServers then
              workLoop w server cs st
            else
              match st.replicateOn c v extraReplicas server with
              | none => none
              | some st =>
                if (st.info server).mNumChunkWriteReplications > MAX_CONCURRENT_WRITE_REPLICATIONS_PER_NODE then
                  some st
                else workLoop w server cs st

/-- What a search for more work is given. -/
structure Work where
  visited : List ℤ
  visit : ℤ → Visit
  plan : ℤ → Visit

def FindReplicationWorkForServer (st : Placement) (server : ServerId) (w : Work) : Option Placement :=
  if (st.info server).mIsRetiring then some st
  else do
    let st ← workLoop w.visit server w.visited st
    st.ExecuteRebalancePlanOn w.plan server

/-- `ReplicateChunkDone`; `none` when the assertion fails. -/
def ReplicateChunkDone (st : Placement) (server : ServerId) (chunkId : ℤ) : Option Placement :=
  let i := st.info server
  if i.mNumChunkWriteReplications - 1 < 0 then none
  else
    some (st.setInfo server { i with
      mNumChunkWriteReplications := i.mNumChunkWriteReplications - 1
      mChunksToMove := i.mChunksToMove.filter fun c => decide (c ≠ chunkId) })

/-- The entry of a chunk after the end of a replication. -/
def finished (v : ChunkPlacementInfo) : ChunkPlacementInfo :=
  let n := v.ongoingReplications - 1
  { v with ongoingReplications := if n < 0 then 0 else n }

/-- The bookkeeping at the end of a replication, whatever its status. -/
def replicationOver (st : Placement) (req : ChunkReplicate) : Option Placement := do
  let st := match st.entry req.chunkId with
    | none => st
    | some v => st.setEntry req.chunkId (finished v)
  let st ← st.ReplicateChunkDone req.server req.chunkId
  match st.cl.lm.mChunkServers.find? fun s => decide (st.cl.location s = req.srcLocation) with
  | none => some st
  | some source => some (st.UpdateReplicationReadLoad source (-1))

/-- `fid` and `chunkVersion` are what the server replied. -/
def ChunkReplicationDone (st : Placement) (req : ChunkReplicate) (status fid chunkVersion : ℤ) (w : Work) :
    Option Placement := do
  let st ← st.replicationOver req
  if status ≠ 0 then some st
  else
    match (getalloc st.cl.leaves fid).find? fun m => decide (m.chunkId = req.chunkId) with
    | none => some st
    | some mci =>
      if mci.chunkVersion ≠ chunkVersion then some st
      else
        let st := match st.cl.lm.UpdateChunkToServerMapping req.chunkId req.server with
          | none => st
          | some lm => st.setLayout lm
        if (st.info req.server).mNumChunkWriteReplications ≤ 1 then
          st.FindReplicationWorkForServer req.server w
        else some st

/-! ## Servers -/

/-- `AddNewServer`: the space and the rack are set on the object before its location is looked up. -/
def AddNewServer (st : Placement) (r : Hello) (rackId : ℤ) (totalSpace usedSpace : ℕ) (now : ℤ) :
    Option Placement := do
  let st := { st with mHelloDone := Function.update st.mHelloDone r.server true }
  let cl ← st.cl.AddNewServer r now
  if st.cl.down r.server then some st
  else
    let i := st.info r.server
    let st' := { st.setInfo r.server { i with
      mRackId := rackId, mTotalSpace := totalSpace, mUsedSpace := usedSpace } with cl := cl }
    if r.server ∈ cl.lm.mChunkServers then
      if st.mRacks.any fun k => decide (k.mRackId = rackId) then
        some { st' with mRacks := st.mRacks.map fun k =>
          if k.mRackId = rackId then { k with mServers := k.mServers ++ [r.server] } else k }
      else some { st' with mRacks := st.mRacks ++ [⟨rackId, [r.server]⟩] }
    else some st'

/-- `ServerDown`: the server leaves its rack. -/
def ServerDown (st : Placement) (server : ServerId) : Placement :=
  if server ∉ st.cl.lm.mChunkServers then st
  else { st with
    cl := st.cl.ServerDown server
    mRacks := st.mRacks.map fun k =>
      if k.mRackId = (st.info server).mRackId then { k with mServers := k.mServers.erase server } else k }

/-- `RetireServer`: the server is hibernated, or its chunks are to be evacuated. -/
def RetireServer (st : Placement) (loc : ServerLocation) (downtime now : ℤ) : Placement :=
  match st.cl.lm.mChunkServers.find? fun s => decide (st.cl.location s = loc) with
  | none => st
  | some s =>
    let st := st.setInfo s { st.info s with mIsRetiring := true }
    if downtime > 0 then { st with cl := st.cl.RetireServer loc downtime now }
    else { st with cl := { st.cl with mChunkReplicationCandidates := fun x =>
      st.cl.mChunkReplicationCandidates x || (st.entry x).any fun v => decide (s ∈ v.chunkServers) } }

/-- `AddToChunksToMove`. -/
def addToMove (st : Placement) (p : ServerLocation × ℤ) : Placement :=
  match st.cl.lm.mChunkServers.find? fun s => decide (st.cl.location s = p.1) with
  | none => st
  | some s =>
    let i := st.info s
    if p.2 ∈ i.mChunksToMove then st
    else st.setInfo s { i with mChunksToMove := i.mChunksToMove.orderedInsert (· ≤ ·) p.2 }

def LoadRebalancePlan (st : Placement) (plan : List (ServerLocation × ℤ)) : Placement :=
  { plan.foldl addToMove st with mIsExecutingRebalancePlan := true }

/-! ## Entries -/

/-- A new entry: the requests that were enqueued for the chunk before are not its own. -/
def created (st : Placement) (chunkId : ℤ) : Placement :=
  { st with epoch := Function.update st.epoch chunkId (st.epoch chunkId + 1) }

/-- `AllocateChunk`: the status, the servers, and the state. -/
def AllocateChunk (st : Placement) (chunkId fid : ℤ) (numReplicas : ℕ) (clientHost : Str) (w : Visit) :
    ℤ × List ServerId × Placement :=
  if numReplicas = 0 then (-EINVAL, [], st)
  else
    let (servers, st) := st.allocateServers numReplicas clientHost w
    let (status, lm) := st.cl.lm.AllocateChunk chunkId fid numReplicas servers w.clock
    if status ≠ 0 then (status, servers, st)
    else
      let st := (st.setLayout lm).created chunkId
      let st := { st with info := fun s =>
        { st.info s with mNumChunkWrites := (st.info s).mNumChunkWrites + servers.count s } }
      (0, servers, if servers.length < numReplicas then st.ChangeChunkReplication chunkId else st)

/-- `LeaseRenew`, which creates an entry during recovery. -/
def LeaseRenew (st : Placement) (chunkId : ℤ) (leaseType : LeaseType) (leaseId : ℤ) (t : ℕ → ℤ) : Placement :=
  let st' := st.setLayout (st.cl.lm.LeaseRenew chunkId leaseType leaseId t).2
  if (st.entry chunkId).isNone ∧ (st'.entry chunkId).isSome then st'.created chunkId else st'

/-- `ChunkCorrupt`. -/
def ChunkCorrupt (st : Placement) (server : ServerId) (fid chunkId : ℤ) : Placement :=
  match st.entry chunkId with
  | none => st
  | some v =>
    if v.fid ≠ fid then st
    else
      let st := (st.setLayout (st.cl.lm.ChunkCorrupt server fid chunkId)).ChangeChunkReplication chunkId
      let i := st.info server
      st.setInfo server { i with mChunksToMove := i.mChunksToMove.filter fun c => decide (c ≠ chunkId) }

end Placement

/-! ## Runs -/

inductive PlaceEv
  /-- the space, the writes and the heartbeats of a server change -/
  | load (s : ServerId) (totalSpace usedSpace : ℕ) (numChunkWrites : ℤ) (heartbeatSkipped : Bool)
  /-- the connection breaks; its BYE is processed later -/
  | netError (s : ServerId)
  | hello (r : Hello) (rackId : ℤ) (totalSpace usedSpace : ℕ) (now : ℤ)
  | bye (s : ServerId)
  | retire (loc : ServerLocation) (downtime now : ℤ)
  | plan (moves : List (ServerLocation × ℤ))
  | rebalancing (on : Bool)
  /-- the tree changes -/
  | tree (leaves : List Meta)
  /-- the replication of a chunk is to be checked -/
  | change (chunkId : ℤ)
  | allocate (chunkId fid : ℤ) (numReplicas : ℕ) (clientHost : Str) (w : Visit)
  | writeLease (chunkId : ℤ) (hasSpace : ServerId → Bool) (t : ℕ → ℤ)
  | readLease (chunkId : ℤ) (t : ℕ → ℤ)
  | renew (chunkId : ℤ) (leaseType : LeaseType) (leaseId : ℤ) (t : ℕ → ℤ)
  | leaseCleanup (t : ℕ → ℤ)
  | delete (chunkId : ℤ)
  | remove (chunkId : ℤ)
  | corrupt (server : ServerId) (fid chunkId : ℤ)
  | check (r : Placement.Round)
  /-- the `i`-th of the replications that are under way is processed -/
  | done (i : ℕ) (status fid chunkVersion : ℤ) (w : Placement.Work)

namespace Placement

/-- One step of the metaserver; `none` when an assertion fails or the step cannot be taken. A server says HELLO
once. -/
def step (st : Placement) : PlaceEv → Option Placement
  | .load s totalSpace usedSpace numChunkWrites heartbeatSkipped =>
    some (st.setInfo s { st.info s with
      mTotalSpace := totalSpace, mUsedSpace := usedSpace, mNumChunkWrites := numChunkWrites
      mHeartbeatSkipped := heartbeatSkipped })
  | .netError s =>
    some { st.setInfo s { st.info s with mTotalSpace := 0, mUsedSpace := 0 } with
      cl := { st.cl with down := Function.update st.cl.down s true } }
  | .hello r rackId totalSpace usedSpace now =>
    if st.mHelloDone r.server then none else st.AddNewServer r rackId totalSpace usedSpace now
  | .bye s => some (st.ServerDown s)
  | .retire loc downtime now => some (st.RetireServer loc downtime now)
  | .plan moves => some (st.LoadRebalancePlan moves)
  | .rebalancing on => some { st with mIsRebalancingEnabled := on }
  | .tree leaves => some { st with cl := { st.cl with leaves := leaves } }
  | .change chunkId => some (st.ChangeChunkReplication chunkId)
  | .allocate chunkId fid numReplicas clientHost w => some (st.AllocateChunk chunkId fid numReplicas clientHost w).2.2
  | .writeLease chunkId hasSpace t => some (st.setLayout (st.cl.lm.GetChunkWriteLease chunkId hasSpace t).2)
  | .readLease chunkId t => some (st.setLayout (st.cl.lm.GetChunkReadLease chunkId t).2.2)
  | .renew chunkId leaseType leaseId t => some (st.LeaseRenew chunkId leaseType leaseId t)
  | .leaseCleanup t => some (st.setLayout (st.cl.lm.LeaseCleanup t))
  | .delete chunkId => some (st.setLayout (st.cl.lm.DeleteChunk chunkId).2)
  | .remove chunkId => some (st.setLayout (st.cl.lm.RemoveChunkToServerMapping chunkId))
  | .corrupt server fid chunkId => some (st.ChunkCorrupt server fid chunkId)
  | .check r => st.ChunkReplicationChecker r
  | .done i status fid chunkVersion w =>
    match st.ops[i]? with
    | none => none
    | some req => { st with ops := st.ops.eraseIdx i }.ChunkReplicationDone req status fid chunkVersion w

/-- The state after the steps, if each of them can be taken and meets the condition `C`. -/
def run (C : Placement → PlaceEv → Bool) : List PlaceEv → Placement → Option Placement
  | [], st => some st
  | e :: es, st => if C st e then (st.step e).bind (run C es) else none

/-- What the steps keep, the run keeps. -/
theorem run_invariant {C : Placement → PlaceEv → Bool} {I : Placement → Prop}
    (hstep : ∀ {st e st'}, I st → C st e = true → st.step e = some st' → I st') :
    ∀ {es : List PlaceEv} {st st' : Placement}, I st → run C es st = some st' → I st'
  | [], st, st', h, hr => by
    obtain rfl := Option.some.inj hr
    exact h
  | e :: es, st, st', h, hr => by
    rw [run] at hr
    split_ifs at hr with hc
    obtain ⟨st₁, h₁, h₂⟩ := Option.bind_eq_some_iff.mp hr
    exact run_invariant hstep (hstep h hc h₁) h₂

/-- The state after a restart: the chunks of the tree are known, but no server is. -/
structure Start (st : Placement) : Prop where
  entries : ∀ c v, st.entry c = some v → v.ongoingReplications = 0 ∧ v.chunkServers = []
  servers : st.cl.lm.mChunkServers = []
  racks : st.mRacks = []
  ops : st.ops = []
  writes : ∀ s, (st.info s).mNumChunkWriteReplications = 0

theorem Start.rostered {st : Placement} (h : st.Start) : Rostered st := by
  refine ⟨?_, ?_, ?_, ?_, ?_⟩
  · simp [h.servers]
  · simp [h.racks]
  · simp [h.racks]
  · simp [h.servers]
  · simp [h.racks]

end Placement

end Kfs
