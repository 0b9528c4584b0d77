import Mathlib.Order.Monotone.Basic
import Mathlib.Logic.Function.Basic
import Kfs.Fs.Model

/-!
# Chunk placement and leases

`LayoutManager.h` and `LayoutManager.cc`: where each chunk is, and who has a lease on it. The choice of
servers for a new chunk (`FindCandidateRacks`, `FindCandidateServers`) is an argument of `AllocateChunk`;
counters of the load of a server are left out.

* `LeaseInfo`, `ChunkPlacementInfo`, `LayoutManager`;
* `Clock`: the readings of `time(0)` in one operation, which do not go down;
* `AllocateChunk`, `GetChunkWriteLease`, `GetChunkReadLease`, `LeaseRenew`, `LeaseCleanup` and the updates of
  the placement map.
-/

namespace Kfs

def LEASE_INTERVAL_SECS : ℤ := 60
def ENOSPC : ℤ := 28
def ELEASEEXPIRED : ℤ := 1001
def EDATAUNAVAIL : ℤ := 1003
def EALLOCFAILED : ℤ := 1005

/-- A `ChunkServer` object: one connection of a chunk server. -/
abbrev ServerId := ℕ

inductive LeaseType
  | read
  | write
  deriving DecidableEq

structure LeaseInfo where
  leaseType : LeaseType
  leaseId : ℤ
  chunkServer : Option ServerId
  expires : ℤ
  deriving DecidableEq

structure ChunkPlacementInfo where
  fid : ℤ
  ongoingReplications : ℤ
  chunkServers : List ServerId
  chunkLeases : List LeaseInfo
  deriving DecidableEq

/-- `ChunkPlacementInfo()`. -/
def ChunkPlacementInfo.new : ChunkPlacementInfo := ⟨-1, 0, [], []⟩

abbrev CSMap := ℤ → Option ChunkPlacementInfo

structure LayoutManager where
  mChunkToServerMap : CSMap
  mLeaseId : ℤ
  mChunkServers : List ServerId
  mRecoveryStartTime : ℤ
  mMinChunkserversToExitRecovery : ℕ

namespace LayoutManager

/-- `mChunkToServerMap[chunkId] = v`. -/
def set (lm : LayoutManager) (chunkId : ℤ) (v : ChunkPlacementInfo) : LayoutManager :=
  { lm with mChunkToServerMap := Function.update lm.mChunkToServerMap chunkId (some v) }

/-- `mChunkToServerMap.erase(chunkId)`. -/
def erase (lm : LayoutManager) (chunkId : ℤ) : LayoutManager :=
  { lm with mChunkToServerMap := Function.update lm.mChunkToServerMap chunkId none }

variable {lm : LayoutManager} {chunkId c : ℤ}

@[simp] theorem set_self (v : ChunkPlacementInfo) : (lm.set chunkId v).mChunkToServerMap chunkId = some v := by
  simp [set]

@[simp] theorem set_of_ne (v : ChunkPlacementInfo) (h : c ≠ chunkId) :
    (lm.set chunkId v).mChunkToServerMap c = lm.mChunkToServerMap c := by
  simp [set, h]

@[simp] theorem erase_self : (lm.erase chunkId).mChunkToServerMap chunkId = none := by
  simp [erase]

@[simp] theorem erase_of_ne (h : c ≠ chunkId) :
    (lm.erase chunkId).mChunkToServerMap c = lm.mChunkToServerMap c := by
  simp [erase, h]

end LayoutManager

/-! ## Time -/

/-- The readings of the clock in an operation that runs from `start` to `stop`. -/
structure Clock (start stop : ℤ) where
  read : ℕ → ℤ
  mono : Monotone read
  after : start ≤ read 0
  before : ∀ i, read i ≤ stop

/-- All readings are `stop`. -/
def Clock.still (start stop : ℤ) (h : start ≤ stop) : Clock start stop :=
  ⟨fun _ => stop, monotone_const, h, fun _ => le_rfl⟩

theorem Clock.le {start stop : ℤ} (c : Clock start stop) : start ≤ stop := c.after.trans (c.before 0)

/-- `LeaseInfo::IsValidLease`. -/
def LeaseInfo.IsValidLease (now : ℤ) (l : LeaseInfo) : Bool := decide (now ≤ l.expires)

def LeaseInfo.IsValidWriteLease (now : ℤ) (l : LeaseInfo) : Bool :=
  decide (l.leaseType = .write) && l.IsValidLease now

/-- `find_if` over the leases with a predicate that reads the clock: the `i`-th lease is looked at with the
reading `i + k`. -/
def findLease (p : ℤ → LeaseInfo → Bool) (t : ℕ → ℤ) : ℕ → List LeaseInfo → Option LeaseInfo
  | _, [] => none
  | k, l :: ls => if p (t k) l then some l else findLease p t (k + 1) ls

/-! ## Leases -/

namespace LayoutManager

/-- There are too few servers, or the last restart is at most a lease interval ago. -/
def InRecovery (lm : LayoutManager) (now : ℤ) : Bool :=
  decide (lm.mChunkServers.length < lm.mMinChunkserversToExitRecovery) ||
    decide (now - lm.mRecoveryStartTime ≤ LEASE_INTERVAL_SECS)

/-- Place a new chunk on `servers`, the first of which gets a write lease. -/
def AllocateChunk (lm : LayoutManager) (chunkId fid numReplicas : ℤ) (servers : List ServerId) (t : ℕ → ℤ) :
    ℤ × LayoutManager :=
  if numReplicas = 0 then (-EINVAL, lm)
  else
    match servers with
    | [] => (-ENOSPC, lm)
    | master :: _ =>
      let l : LeaseInfo := ⟨.write, lm.mLeaseId, some master, t 0 + LEASE_INTERVAL_SECS⟩
      (0, { lm with mLeaseId := lm.mLeaseId + 1 }.set chunkId ⟨fid, 0, servers, [l]⟩)

/-- What `GetChunkWriteLease` answers: the status, whether a lease was issued, and the servers and the master
of the chunk. -/
structure WriteLease where
  status : ℤ
  isNewLease : Bool
  servers : List ServerId
  master : Option ServerId
  deriving DecidableEq

/-- Find the valid write lease of a chunk, or issue one if there is no valid lease at all; `hasSpace` says which
servers have space for a chunk. -/
def GetChunkWriteLease (lm : LayoutManager) (chunkId : ℤ) (hasSpace : ServerId → Bool) (t : ℕ → ℤ) :
    WriteLease × LayoutManager :=
  if lm.InRecovery (t 0) then (⟨-EBUSY, false, [], none⟩, lm)
  else
    match lm.mChunkToServerMap chunkId with
    | none => (⟨-EINVAL, false, [], none⟩, lm)
    | some v =>
      match v.chunkServers with
      | [] => (⟨-EDATAUNAVAIL, false, [], none⟩, lm)
      | master :: _ =>
        let n := v.chunkLeases.length
        match findLease LeaseInfo.IsValidWriteLease t 1 v.chunkLeases with
        | some lease => (⟨0, false, v.chunkServers, lease.chunkServer⟩, lm)
        | none =>
          match findLease LeaseInfo.IsValidLease t (1 + n) v.chunkLeases with
          | some _ => (⟨-EBUSY, false, [], none⟩, lm)
          | none =>
            -- the leases of the copy `v` are cleared; without space on all servers the copy is dropped
            if ¬ v.chunkServers.all hasSpace then (⟨-ENOSPC, false, v.chunkServers, none⟩, lm)
            else
              let lease : LeaseInfo :=
                ⟨.write, lm.mLeaseId, some master, t (1 + n + n) + LEASE_INTERVAL_SECS⟩
              (⟨0, true, v.chunkServers, some master⟩,
                { lm with mLeaseId := lm.mLeaseId + 1 }.set chunkId { v with chunkLeases := [lease] })

/-- Issue a read lease; the result has the status and the id of the lease. -/
def GetChunkReadLease (lm : LayoutManager) (chunkId : ℤ) (t : ℕ → ℤ) : ℤ × ℤ × LayoutManager :=
  if lm.InRecovery (t 0) then (-EBUSY, 0, lm)
  else
    match lm.mChunkToServerMap chunkId with
    | none => (-EINVAL, 0, lm)
    | some v =>
      let lease : LeaseInfo := ⟨.read, lm.mLeaseId, none, t 1 + LEASE_INTERVAL_SECS⟩
      (0, lm.mLeaseId, { lm with mLeaseId := lm.mLeaseId + 1 }.set chunkId
        { v with chunkLeases := v.chunkLeases ++ [lease] })

/-- Set the expiry of the first lease with the id. -/
def renewLease (leaseId expires : ℤ) : List LeaseInfo → List LeaseInfo
  | [] => []
  | l :: ls => if l.leaseId = leaseId then { l with expires := expires } :: ls else l :: renewLease leaseId expires ls

/-- Renew a lease that has not expired. During recovery a lease on a chunk that is not known is taken as
it comes. -/
def LeaseRenew (lm : LayoutManager) (chunkId : ℤ) (leaseType : LeaseType) (leaseId : ℤ) (t : ℕ → ℤ) :
    ℤ × LayoutManager :=
  match lm.mChunkToServerMap chunkId with
  | none =>
    if lm.InRecovery (t 0) then
      let lease : LeaseInfo := ⟨leaseType, leaseId, none, t 1 + LEASE_INTERVAL_SECS⟩
      let id := if leaseId > lm.mLeaseId then leaseId + 1 else lm.mLeaseId
      (0, { lm with mLeaseId := id }.set chunkId { ChunkPlacementInfo.new with chunkLeases := [lease] })
    else (-EINVAL, lm)
  | some v =>
    match v.chunkLeases.find? fun l => decide (l.leaseId = leaseId) with
    | none => (-EINVAL, lm)
    | some l =>
      -- the dead lease is erased from the copy only
      if t 0 > l.expires then (-ELEASEEXPIRED, lm)
      else
        (0, lm.set chunkId { v with chunkLeases := renewLease leaseId (t 0 + LEASE_INTERVAL_SECS) v.chunkLeases })

/-- Drop the leases that have expired; the expiry itself counts as expired here. -/
def LeaseCleanup (lm : LayoutManager) (t : ℕ → ℤ) : LayoutManager :=
  { lm with mChunkToServerMap := fun c => (lm.mChunkToServerMap c).map fun v =>
      { v with chunkLeases := v.chunkLeases.filter fun l => decide (t 0 < l.expires) } }

/-! ## Placement -/

/-- `DeleteChunk` with the servers that are sent a delete RPC; a chunk that no server has is left alone. -/
def DeleteChunk (lm : LayoutManager) (chunkId : ℤ) : List ServerId × LayoutManager :=
  match lm.mChunkToServerMap chunkId with
  | none => ([], lm)
  | some v => if v.chunkServers = [] then ([], lm) else (v.chunkServers, lm.erase chunkId)

/-- `AddChunkToServerMapping` without a server. -/
def AddChunkToServerMapping (lm : LayoutManager) (chunkId fid : ℤ) : LayoutManager :=
  lm.set chunkId { ChunkPlacementInfo.new with fid := fid }

def RemoveChunkToServerMapping (lm : LayoutManager) (chunkId : ℤ) : LayoutManager := lm.erase chunkId

/-- `none` when the chunk is not in the map. -/
def UpdateChunkToServerMapping (lm : LayoutManager) (chunkId : ℤ) (c : ServerId) : Option LayoutManager :=
  (lm.mChunkToServerMap chunkId).map fun v => lm.set chunkId { v with chunkServers := v.chunkServers ++ [c] }

/-- The part of `ServerDown` that concerns placement: the server is gone from the list and from every chunk. -/
def ServerDown (lm : LayoutManager) (server : ServerId) : LayoutManager :=
  if server ∈ lm.mChunkServers then
    { lm with
      mChunkToServerMap := fun c => (lm.mChunkToServerMap c).map fun v =>
        { v with chunkServers := v.chunkServers.filter fun s => decide (s ≠ server) }
      mChunkServers := lm.mChunkServers.erase server }
  else lm

/-- `ChunkCorrupt`: the server does not have the chunk any more. -/
def ChunkCorrupt (lm : LayoutManager) (server : ServerId) (fid chunkId : ℤ) : LayoutManager :=
  match lm.mChunkToServerMap chunkId with
  | none => lm
  | some v =>
    if v.fid ≠ fid then lm
    else lm.set chunkId { v with chunkServers := v.chunkServers.filter fun s => decide (s ≠ server) }

end LayoutManager

end Kfs
