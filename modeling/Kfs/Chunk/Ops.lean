import Kfs.Chunk.Manager

/-!
# The operations of a chunk server

What the operations do when they are executed and when their disk requests end. An operation that is done is
handed to its client by `Submit`, which the functions here have as a parameter.

* `WritePrepareOp.Execute`, `WriteSyncOp.Execute`, `KfsOp.Execute`;
* `HandleChunkMetaReadDone`: an operation goes on after the metadata of its chunk has been read;
* `DiskRequest.HandleEvent`: a disk request ends.
-/

namespace Kfs.Chunk

open ChunkManager

def needToForwardLoop : ℕ → Option ℕ → ℤ → List ServerEntry → Bool × Option ℕ × ℤ
  | _, myPos, writeId, [] => (false, myPos, writeId)
  | i, myPos, writeId, (isLocal, id) :: servers =>
    if isLocal then needToForwardLoop (i + 1) (some i) id servers
    else if myPos.isSome then (true, myPos, writeId)
    else needToForwardLoop (i + 1) myPos writeId servers

/-- Whether there is a server behind this one, the place of this one and its write-id. -/
def needToForwardWrite (servers : List ServerEntry) : Bool × Option ℕ × ℤ := needToForwardLoop 0 none (-1) servers

/-- What the client of an operation does when it gets it back with its status. -/
abbrev Submitter := Cs → KfsOp → ℤ → Option Cs

variable (Submit : Submitter) (env : Env) (st : Cs) (op : KfsOp)

/-! ## Writes -/

/-- The local write is done, with `status`. -/
def WritePrepareOp.HandleDone (p : WritePrepareOp) (status : ℤ) : Option Cs :=
  let status := if status < 0 then status else p.status
  if !p.writeFwdOp ∨ p.numDone + 1 ≥ 2 then Submit st op status else some st

/-- The write of a prepare that has passed all the checks. -/
def WritePrepareOp.startWrite (p : WritePrepareOp) (writeId : ℤ) : Option Cs :=
  match CloneWriteOp st writeId with
  | none => none
  | some w =>
    let w := { w with
      offset := p.offset, numBytes := p.numBytes, dataBuf := p.dataBuf, checksums := [p.checksum], wpop := some p }
    match WriteChunk env (issue st (.write op.id)) op w with
    | none => none
    | some (st, status) => if status < 0 then Submit (signal st (.write op.id) status) op status else some st

/-- What is forwarded is done with at once. -/
def WritePrepareOp.Execute (p : WritePrepareOp) : Option Cs :=
  let (needToForward, myPos, writeId) := needToForwardWrite p.servers
  match myPos with
  | none => none
  | some myPos =>
    if !IsValidWriteId st writeId then Submit st op (-EINVAL)
    else if !IsChunkMetadataLoaded st p.chunkId then Submit st op (-ELEASEEXPIRED)
    else if myPos = 0 ∧ !IsLeaseValid env st p.chunkId then Submit st op (-ELEASEEXPIRED)
    else if p.checksum ≠ 0 ∧ ComputeBlockChecksum (p.dataBuf.flatten.take p.numBytes) ≠ p.checksum then
      Submit (SetWriteStatus st writeId (-EBADCKSUM)) op (-EBADCKSUM)
    else if needToForward then
      if env.forward op.id = .noPeer then
        Submit (SetWriteStatus st writeId (-EHOSTUNREACH)) op (-EHOSTUNREACH)
      else WritePrepareOp.startWrite Submit env st op { p with writeFwdOp := true, numDone := p.numDone + 1 } writeId
    else WritePrepareOp.startWrite Submit env st op p writeId

/-- A write is resumed after its block has been read. -/
def WriteOp.Execute (w : WriteOp) : Option Cs :=
  match WriteChunk env st op w with
  | none => none
  | some (st, status) =>
    if status < 0 then
      match w.wpop with
      | none => none
      | some p => WritePrepareOp.HandleDone Submit (signal st (.write op.id) status) op p status
    else some st

/-- The disk is done with a write: `res` is the number of bytes, `none` an error, which the replicator does not
expect. A write that has succeeded goes to the logger, which hands it back to its prepare. -/
def WriteOp.HandleWriteDone (w : WriteOp) (res : Option ℕ) : Option Cs :=
  match w.wpop, res with
  | none, none => none
  | none, some n => Submit (signal st (.write op.id) n) op n
  | some p, none => WritePrepareOp.HandleDone Submit (signal st (.write op.id) (-1)) op p (-1)
  | some p, some n =>
    let st := if n = w.numBytesIO then { st with written := op.id :: st.written } else st
    WritePrepareOp.HandleDone Submit (signal st (.write op.id) n) op p n

/-- `HandleReadDone` of the replicator, from its write on. -/
def Replicator.HandleReadDone (w : WriteOp) : Option Cs :=
  match WriteChunk env (issue st (.write op.id)) op { w with rop := none, wpop := none } with
  | none => none
  | some (st, status) => if status < 0 then Submit (signal st (.write op.id) status) op status else some st

/-! ## Syncs -/

/-- The metadata has been written, or the peer has replied with `status`. -/
def WriteSyncOp.HandleDone (s : WriteSyncOp) (status : ℤ) : Option Cs :=
  let s := { s with status := if status < 0 then status else s.status, numDone := s.numDone + 1 }
  if !s.fwdedOp ∨ s.numDone ≥ 2 then Submit st op s.status
  else some { st with waiting := { op with cmd := .writeSync s } :: st.waiting }

/-- The end of `WriteSyncOp::Execute`: commit, with the metadata unless it has been written before. -/
def WriteSyncOp.commit (s : WriteSyncOp) (needToWriteMetadata : Bool) : Option Cs :=
  if needToWriteMetadata then
    match WriteChunkMetadata env st s.chunkId op with
    | none => none
    | some (st, status) =>
      if status < 0 then none
      else some { st with waiting := { op with cmd := .writeSync { s with status := status } } :: st.waiting }
  else WriteSyncOp.HandleDone Submit st op { s with status := 0 } 0

def WriteSyncOp.forward (s : WriteSyncOp) (needToForward needToWriteMetadata : Bool) : Option Cs :=
  if needToForward then
    match env.forward op.id with
    | .noPeer => Submit st op (-EHOSTUNREACH)
    -- the reply is counted, its status is overwritten
    | .unconnected => WriteSyncOp.commit Submit env st op { s with fwdedOp := true, numDone := 1 } needToWriteMetadata
    | .sent =>
      WriteSyncOp.commit Submit env { st with peers := op.id :: st.peers } op { s with fwdedOp := true }
        needToWriteMetadata
  else WriteSyncOp.commit Submit env st op s needToWriteMetadata

def WriteSyncOp.Execute (s : WriteSyncOp) : Option Cs :=
  let (needToForward, myPos, writeId) := needToForwardWrite s.servers
  if s.servers ≠ [] ∧ myPos = none then none
  else match CloneWriteOp st writeId with
    | none => Submit st op (-EINVAL)
    | some _ =>
      match st.mChunkTable s.chunkId with
      | none => none
      | some cih =>
        if !AreChecksumsLoaded cih ∧ cih.chunkSize < CHUNKSIZE then Submit st op (-ELEASEEXPIRED)
        else if myPos = some 0 ∧ !IsLeaseValid env st s.chunkId then Submit st op (-ELEASEEXPIRED)
        else WriteSyncOp.forward Submit env st op s needToForward (AreChecksumsLoaded cih)

/-! ## Metadata -/

/-- The last step of the operations that change metadata. -/
def writeMetadata (chunkId : ℕ) : Option Cs :=
  match WriteChunkMetadata env st chunkId op with
  | none => none
  | some (st, status) => if status < 0 then Submit st op status else some st

/-- What it is called with is not looked at, and it goes on after a failure. -/
def AllocChunkOp.HandleChunkMetaReadDone (chunkId : ℕ) (chunkVersion leaseId : ℤ) : Option Cs :=
  let (st, status) := AllocChunk env st chunkId chunkVersion
  let st := if leaseId ≥ 0 then RegisterLease env st chunkId else st
  match if status < 0 then Submit st op status else some st with
  | none => none
  | some st => writeMetadata Submit env st op chunkId

def TruncateChunkOp.HandleChunkMetaReadDone (chunkId chunkSize : ℕ) : Option Cs :=
  match TruncateChunk env st chunkId chunkSize with
  | none => none
  | some (st, status) => if status < 0 then Submit st op status else writeMetadata Submit env st op chunkId

def ChangeChunkVersOp.HandleChunkMetaReadDone (chunkId : ℕ) (chunkVersion : ℤ) : Option Cs :=
  let (st, status) := ChangeChunkVers st chunkId chunkVersion
  if status < 0 then Submit st op status else writeMetadata Submit env st op chunkId

def ReadOp.HandleChunkMetaReadDone (chunkId : ℕ) (rop : ReadOp) : Option Cs :=
  match scheduleRead env st chunkId op rop (fun rop => .read chunkId rop) with
  | none => none
  | some (st, status) => if status < 0 then Submit st op status else some st

def GetChunkMetadataOp.HandleChunkMetaReadDone (chunkId : ℕ) : Option Cs :=
  match st.mChunkTable chunkId with
  | none => Submit st op (-EBADF)
  | some _ => Submit st op 0

/-- The metadata of the chunk is there, or could not be read. -/
def HandleChunkMetaReadDone (res : ℤ) : Option Cs :=
  match op.cmd with
  | .allocChunk c v leaseId => AllocChunkOp.HandleChunkMetaReadDone Submit env st op c v leaseId
  | .read c rop => if res < 0 then Submit st op res else ReadOp.HandleChunkMetaReadDone Submit env st op c rop
  | .getChunkMetadata c =>
    if res < 0 then Submit st op res else GetChunkMetadataOp.HandleChunkMetaReadDone Submit st op c
  | .truncateChunk c size =>
    if res < 0 then Submit st op res else TruncateChunkOp.HandleChunkMetaReadDone Submit env st op c size
  | .changeChunkVers c v =>
    if res < 0 then Submit st op res else ChangeChunkVersOp.HandleChunkMetaReadDone Submit env st op c v
  | _ => some st

/-- The operations that load chunk metadata first. -/
def loadMetadata (chunkId : ℕ) : Option Cs :=
  match ReadChunkMetadata env st chunkId op fun st => HandleChunkMetaReadDone Submit env st op 0 with
  | none => none
  | some (st, res) => if res < 0 then Submit st op (-EINVAL) else some st

def KfsOp.Execute : Option Cs :=
  match op.cmd with
  | .read c _ => loadMetadata Submit env st op c
  | .getChunkMetadata c => loadMetadata Submit env st op c
  | .truncateChunk c _ => loadMetadata Submit env st op c
  | .changeChunkVers c _ => loadMetadata Submit env st op c
  | .allocChunk c _ _ =>
    if NeedToReadChunkMetadata st c then loadMetadata Submit env st op c
    else HandleChunkMetaReadDone Submit env st op 0
  | .writePrepare p => WritePrepareOp.Execute Submit env st op p
  | .writeSync s => WriteSyncOp.Execute Submit env st op s
  | .replicate w => Replicator.HandleReadDone Submit env st op w
  | .other => some { st with waiting := op :: st.waiting }

/-! ## The end of a disk request -/

/-- The operation and then those that have been waiting with it. -/
def notifyAll (res : ℤ) : List KfsOp → Cs → Option Cs
  | [], st => some st
  | op :: ops, st =>
    match HandleChunkMetaReadDone Submit env st op res with
    | none => none
    | some st => notifyAll res ops st

/-- The header of a chunk file: the chunk that it says it is, and its checksums. -/
abbrev DiskChunkInfo := ℕ × (ℕ → UInt32)

def ReadChunkMetaOp.HandleDone (chunkId : ℕ) (waiters : List KfsOp) (data : Option DiskChunkInfo) : Option Cs :=
  let (st, res) := match data with
    | none => (st, -EINVAL)
    | some (c, checksums) => SetChunkMetadata st c checksums
  notifyAll Submit env res (op :: waiters) (ReadChunkMetadataDone st chunkId)

/-- The part of `ReadOp::HandleDone` that sets the status. -/
def ReadOp.setStatus (chunkId : ℕ) (rop : ReadOp) (data : Option (List UInt8)) : Option (Cs × ReadOp) :=
  match data with
  | none => some (st, { rop with status := -1 })
  | some bytes =>
    match checkRead st chunkId { rop with dataBuf := [bytes] } with
    | none => none
    | some (st, rop) =>
      let numBytesIO := rop.dataBuf.flatten.length
      some (st, { rop with numBytesIO := numBytesIO, status := if rop.status = 0 then numBytesIO else rop.status })

/-- A chunk that has been read to its end is closed. -/
def ReadOp.HandleDone (chunkId : ℕ) (rop : ReadOp) (data : Option (List UInt8)) : Option Cs :=
  match ReadOp.setStatus st chunkId rop data with
  | none => none
  | some (st, rop) =>
    let chunkSize := ((st.mChunkTable chunkId).map (·.chunkSize)).getD 0
    let st := if chunkSize > 0 ∧ rop.offset + rop.numBytesIO ≥ chunkSize ∧ env.sole then releaseChunk st chunkId
      else st
    Submit st op rop.status

/-- A read for a write resumes the write. -/
def ReadOp.resume (w : WriteOp) (rop : ReadOp) (data : Option (List UInt8)) : Option Cs :=
  match ReadOp.setStatus st w.chunkId rop data with
  | none => none
  | some (st, rop) => WriteOp.Execute Submit env (signal st (.readBlock op.id) rop.status) op { w with rop := some rop }

/-- The operation that has been waiting with this id, and the others. -/
def takeWaiting (id : ℕ) : List KfsOp → Option (KfsOp × List KfsOp)
  | [] => none
  | op :: ops => if op.id = id then some (op, ops) else (takeWaiting id ops).map fun r => (r.1, op :: r.2)

/-- A sync is told of something that it has been waiting for. -/
def WriteSyncOp.wake (id : ℕ) (status : ℤ) : Option Cs :=
  match takeWaiting id st.waiting with
  | some (op, waiting) =>
    match op.cmd with
    | .writeSync s => WriteSyncOp.HandleDone Submit { st with waiting := waiting } op s status
    | _ => some st
  | none => some st

/-- The metadata of a chunk has been written, or not: nobody looks. -/
def WriteChunkMetaOp.HandleDone : Option Cs :=
  match op.cmd with
  | .writeSync _ => WriteSyncOp.wake Submit st op.id 0
  | .allocChunk _ _ _ => Submit st op 0
  | .truncateChunk _ _ => Submit st op 0
  | .changeChunkVers _ _ => Submit st op 0
  | _ => some st

/-- A disk request ends, with an error or with its result; `header` is what a chunk header says. -/
def DiskRequest.HandleEvent (r : DiskRequest) (ok : Bool) (header : Option DiskChunkInfo) : Option Cs :=
  let data := if ok then r.result else none
  match r.cmd with
  | .readMeta c waiters => ReadChunkMetaOp.HandleDone Submit env st r.clnt c waiters (if ok then header else none)
  | .read c rop => ReadOp.HandleDone Submit env st r.clnt c rop data
  | .readBlock w rop => ReadOp.resume Submit env st r.clnt w rop data
  | .write w => WriteOp.HandleWriteDone Submit st r.clnt w (data.map List.length)
  | .writeMeta => WriteChunkMetaOp.HandleDone Submit st r.clnt

end Kfs.Chunk
