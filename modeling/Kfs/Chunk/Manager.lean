import Kfs.Chunk.Read

/-!
# The chunk manager

What a chunk server keeps: the chunk table over the chunk files, the pending writes, the leases, the operations of
a client connection and the disk requests that operations wait for.

* `IOBuffer.Consume`, `IOBuffer.Splice`: buffers piece by piece;
* `DiskConnection.Read`, `DiskConnection.Write`: whether a request is queued, `Queueing`;
* `KfsOp`, `DiskRequest`, `Cs`: the operations, the disk requests and the state;
* `ChunkManager.WriteChunk` and the other functions of the manager; `none` is an assertion that fails or a use of
  something that is not there.
-/

namespace Kfs.Chunk

def EBADF : ℤ := 9
def EINVAL : ℤ := 22
def ENOSPC : ℤ := 28
def EHOSTUNREACH : ℤ := 113
def ELEASEEXPIRED : ℤ := 1001
def ESERVERBUSY : ℤ := 1004
def LEASE_INTERVAL_SECS : ℕ := 60
def KFS_CHUNK_HEADER_SIZE : ℕ := 16384

/-! ## Buffers -/

/-- The first `n` bytes of a buffer. -/
def IOBuffer.front : ℕ → IOBuffer → IOBuffer
  | _, [] => []
  | n, p :: buf => if p.length ≤ n then p :: IOBuffer.front (n - p.length) buf else [p.take n]

/-- A buffer without its first `n` bytes. -/
def IOBuffer.Consume : ℕ → IOBuffer → IOBuffer
  | _, [] => []
  | n, p :: buf => if p.length ≤ n then IOBuffer.Consume (n - p.length) buf else p.drop n :: buf

def IOBuffer.ZeroFill (buf : IOBuffer) (numBytes : ℕ) : IOBuffer := buf ++ [List.replicate numBytes 0]

/-- Put `other` in the place of `numBytes` bytes from `offset` on. -/
def IOBuffer.Splice (buf other : IOBuffer) (offset numBytes : ℕ) : Option IOBuffer :=
  if other.flatten.length < numBytes then none
  else
    let buf := if buf.flatten.length < offset then IOBuffer.ZeroFill buf (offset - buf.flatten.length) else buf
    some (IOBuffer.front offset buf ++ other ++ IOBuffer.Consume (offset + numBytes) buf)

theorem IOBuffer.front_flatten : ∀ {n : ℕ} {buf : IOBuffer}, (IOBuffer.front n buf).flatten = buf.flatten.take n
  | n, [] => by simp [IOBuffer.front]
  | n, p :: buf => by
    rw [IOBuffer.front, List.flatten_cons, List.take_append]
    by_cases h : p.length ≤ n
    · rw [if_pos h, List.flatten_cons, IOBuffer.front_flatten, List.take_of_length_le h]
    · rw [if_neg h, Nat.sub_eq_zero_of_le (Nat.le_of_not_le h), List.take_zero, List.append_nil, List.flatten_singleton]

theorem IOBuffer.Consume_flatten : ∀ {n : ℕ} {buf : IOBuffer},
    (IOBuffer.Consume n buf).flatten = buf.flatten.drop n
  | n, [] => by simp [IOBuffer.Consume]
  | n, p :: buf => by
    rw [IOBuffer.Consume, List.flatten_cons, List.drop_append]
    by_cases h : p.length ≤ n
    · rw [if_pos h, IOBuffer.Consume_flatten, List.drop_of_length_le h, List.nil_append]
    · rw [if_neg h, Nat.sub_eq_zero_of_le (Nat.le_of_not_le h), List.drop_zero, List.flatten_cons]

/-! ## Disk connections -/

/-- How the scheduling of a request ends: it is queued, it fails, or the number of bytes of its first pieces is
returned although no request is queued, since a later piece could not be scheduled. -/
inductive Queueing
  | queued
  | failed
  | dropped (n : ℕ)
  deriving DecidableEq

/-- Pieces of half a megabyte; `aio` is the first piece that cannot be scheduled. -/
def DiskConnection.Read (aio : Option ℕ) (numBytes : ℕ) : Queueing :=
  if numBytes = 0 then .dropped 0
  else match aio with
    | none => .queued
    | some i =>
      if (numBytes + 524287) / 524288 ≤ i then .queued else if i = 0 then .failed else .dropped (i * 524288)

/-- In part only when a later piece cannot be scheduled. -/
theorem DiskConnection.Read_dropped {aio : Option ℕ} {numBytes n : ℕ} (h0 : numBytes ≠ 0)
    (h : DiskConnection.Read aio numBytes = .dropped n) : ∃ i, aio = some (i + 1) := by
  unfold DiskConnection.Read at h
  rw [if_neg h0] at h
  cases aio with
  | none => cases h
  | some i =>
    dsimp only at h
    generalize (numBytes + 524287) / 524288 = pieces at h
    split_ifs at h with hp hi
    obtain ⟨j, rfl⟩ := Nat.exists_eq_succ_of_ne_zero hi
    exact ⟨j, rfl⟩

/-- The loop of `Write`: `i` pieces with `nWrote` bytes are scheduled. -/
def DiskConnection.writeLoop (aio : Option ℕ) (numBytes : ℕ) : ℕ → ℕ → IOBuffer → Queueing
  | _, _, [] => .queued
  | i, nWrote, data :: buf =>
    if data.length = 0 then DiskConnection.writeLoop aio numBytes i nWrote buf
    else if aio = some i then if nWrote > 0 then .dropped nWrote else .failed
    else
      let numIO := if data.length + nWrote > numBytes then numBytes - nWrote else data.length
      if nWrote + numIO ≥ numBytes then .queued
      else DiskConnection.writeLoop aio numBytes (i + 1) (nWrote + numIO) buf

/-- Each piece of the buffer is a write of its own. -/
def DiskConnection.Write (aio : Option ℕ) (numBytes : ℕ) (buf : IOBuffer) : Queueing :=
  if numBytes = 0 then .dropped 0 else DiskConnection.writeLoop aio numBytes 0 0 buf

/-- A chunk file behind its header. -/
structure File where
  data : ℕ → UInt8
  length : ℕ

def File.read (f : File) (offset n : ℕ) : List UInt8 := diskBytes f.data offset (min n (f.length - offset))

def File.write (f : File) (offset : ℕ) (bytes : List UInt8) : File where
  data i := if offset ≤ i ∧ i < offset + bytes.length then bytes.getD (i - offset) 0 else f.data i
  length := max f.length (offset + bytes.length)

/-- Cut the file, header and all, to `n` bytes. -/
def File.truncate (f : File) (n : ℕ) : File where
  data i := if i + KFS_CHUNK_HEADER_SIZE < n then f.data i else 0
  length := n - KFS_CHUNK_HEADER_SIZE

/-! ## Operations -/

/-- A server of a write: whether it is this one, and its write-id. -/
abbrev ServerEntry := Bool × ℤ

structure WritePrepareOp where
  chunkId : ℕ
  offset : ℕ
  numBytes : ℕ
  servers : List ServerEntry
  checksum : UInt32
  dataBuf : IOBuffer
  status : ℤ
  writeFwdOp : Bool
  numDone : ℕ

structure WriteSyncOp where
  chunkId : ℕ
  servers : List ServerEntry
  status : ℤ
  fwdedOp : Bool
  numDone : ℕ

/-- A write, with the prepare that owns it; a write of the replicator has none. -/
structure WriteOp where
  chunkId : ℕ
  chunkVersion : ℤ
  offset : ℕ
  numBytes : ℕ
  numBytesIO : ℕ
  dataBuf : IOBuffer
  checksums : List UInt32
  rop : Option ReadOp
  wpop : Option WritePrepareOp

/-- `other` is an operation that has nothing to do with chunk data or metadata. -/
inductive Cmd
  | read (chunkId : ℕ) (rop : ReadOp)
  | getChunkMetadata (chunkId : ℕ)
  | allocChunk (chunkId : ℕ) (chunkVersion leaseId : ℤ)
  | truncateChunk (chunkId chunkSize : ℕ)
  | changeChunkVers (chunkId : ℕ) (chunkVersion : ℤ)
  | writePrepare (p : WritePrepareOp)
  | writeSync (s : WriteSyncOp)
  | replicate (w : WriteOp)
  | other

/-- `clientSM`: the operation came in over the client connection. -/
structure KfsOp where
  id : ℕ
  seq : ℤ
  clientSM : Bool
  cmd : Cmd

/-- What a disk request is for. -/
inductive DiskCmd
  | readMeta (chunkId : ℕ) (waiters : List KfsOp)
  | read (chunkId : ℕ) (rop : ReadOp)
  | readBlock (w : WriteOp) (rop : ReadOp)
  | write (w : WriteOp)
  | writeMeta

/-- A request that has been queued for `clnt`; `result` is what it got once it has been performed. -/
structure DiskRequest where
  clnt : KfsOp
  cmd : DiskCmd
  file : ℕ
  offset : ℕ
  numBytes : ℕ
  result : Option (List UInt8)

/-! ## The state -/

/-- An entry of the chunk table. `readChunkMetaOp` is the operation for which the metadata is being read. -/
structure ChunkInfoHandle where
  chunkVersion : ℤ
  chunkSize : ℕ
  chunkBlockChecksum : Option (ℕ → UInt32)
  readChunkMetaOp : Option ℕ
  file : ℕ

structure PendingWrite where
  writeId : ℤ
  chunkId : ℕ
  chunkVersion : ℤ
  status : ℤ
  deriving DecidableEq

/-- What completes: an operation that works on chunk data or loads metadata, a write that is owned by an operation,
a read that is owned by a write, or an operation of another kind. -/
inductive Signal
  | op (id : ℕ)
  | write (id : ℕ)
  | readBlock (id : ℕ)
  | other (id : ℕ)
  deriving DecidableEq

def KfsOp.signal (op : KfsOp) : Signal :=
  match op.cmd with
  | .writeSync _ => .other op.id
  | .other => .other op.id
  | _ => .op op.id

/-- What happens to an operation of the connection: a sync is held back, the operation is submitted, it completes, its
response is sent. -/
inductive Mark
  | held (id : ℕ)
  | submitted (id : ℕ)
  | completed (id : ℕ)
  | response (id : ℕ)
  deriving DecidableEq

/-- The chunk server. `waiting` are the operations that wait for something other than the disk, `peers` those of which
a peer has got a copy. `received` are the operations of the connection in their order; `issued` and `signals` keep
account of what has been started and has completed, `trace` of the order, `written` are the prepares whose data is on
disk. -/
structure Cs where
  mChunkTable : ℕ → Option ChunkInfoHandle
  files : ℕ → File
  nextFile : ℕ
  mUsedSpace : ℤ
  mTotalSpace : ℤ
  mPendingWrites : List PendingWrite
  mWriteId : ℤ
  mLeases : ℕ → Option ℕ
  disk : List DiskRequest
  waiting : List KfsOp
  peers : List ℕ
  mOps : List (KfsOp × Bool)
  mPendingOps : List (KfsOp × KfsOp)
  terminating : Bool
  nextOp : ℕ
  received : List KfsOp
  issued : List Signal
  signals : List (Signal × ℤ)
  trace : List Mark
  written : List ℕ

/-- How a request can be forwarded: there is no peer, the connection to it fails, or it is sent. -/
inductive Forward | noPeer | unconnected | sent
  deriving DecidableEq

/-- The answers of the environment during one event: the time, whether the file of a chunk can be opened for an
operation, the first piece of its disk request that cannot be scheduled, what happens to what it forwards, the
answers of `creat` and `truncate`, and whether a chunk is used by nobody else. -/
structure Env where
  now : ℕ
  connect : ℕ → Bool
  aio : ℕ → Option ℕ
  forward : ℕ → Forward
  create : Bool
  truncate : Option ℤ
  sole : Bool

namespace ChunkManager

variable (env : Env) (st : Cs)

def setEntry (c : ℕ) (e : Option ChunkInfoHandle) : Cs :=
  { st with mChunkTable := Function.update st.mChunkTable c e }

/-- Something has been started. -/
def issue (s : Signal) : Cs := { st with issued := s :: st.issued }

/-- Something has completed. -/
def signal (s : Signal) (status : ℤ) : Cs := { st with signals := (s, status) :: st.signals }

def mark (m : Mark) : Cs := { st with trace := m :: st.trace }

def queue (r : DiskRequest) : Cs := { st with disk := st.disk ++ [r] }

/-! ## Pending writes and leases -/

def IsValidWriteId (writeId : ℤ) : Bool := st.mPendingWrites.any fun w => w.writeId = writeId

/-- The status of the first pending write with this id. -/
def SetWriteStatus (writeId status : ℤ) : Cs :=
  { st with mPendingWrites := st.mPendingWrites.replaceF fun w =>
      if w.writeId = writeId then some { w with status := status } else none }

/-- Clones only when the pending write is good. -/
def CloneWriteOp (writeId : ℤ) : Option WriteOp :=
  match st.mPendingWrites.find? fun w => w.writeId = writeId with
  | none => none
  | some w =>
    if w.status < 0 then none
    else some { chunkId := w.chunkId, chunkVersion := w.chunkVersion, offset := 0, numBytes := 0, numBytesIO := 0,
                dataBuf := [], checksums := [], rop := none, wpop := none }

def AllocateWriteId (chunkId : ℕ) (chunkVersion : ℤ) : Cs :=
  match st.mChunkTable chunkId with
  | none => st
  | some cih =>
    if chunkVersion ≠ cih.chunkVersion then st
    else { st with
      mWriteId := st.mWriteId + 1
      mPendingWrites := st.mPendingWrites ++ [⟨st.mWriteId + 1, chunkId, chunkVersion, 0⟩] }

def RegisterLease (chunkId : ℕ) : Cs :=
  { st with mLeases := Function.update st.mLeases chunkId (some (env.now + LEASE_INTERVAL_SECS)) }

def IsLeaseValid (chunkId : ℕ) : Bool :=
  match st.mLeases chunkId with
  | none => false
  | some expires => env.now ≤ expires

/-! ## The chunk table -/

def AreChecksumsLoaded (cih : ChunkInfoHandle) : Bool := cih.chunkBlockChecksum.isSome

def IsChunkMetadataLoaded (chunkId : ℕ) : Bool :=
  match st.mChunkTable chunkId with
  | none => false
  | some cih => AreChecksumsLoaded cih

def NeedToReadChunkMetadata (chunkId : ℕ) : Bool :=
  match st.mChunkTable chunkId with
  | none => false
  | some cih => cih.chunkVersion > 0

def ChangeChunkVers (chunkId : ℕ) (chunkVersion : ℤ) : Cs × ℤ :=
  match st.mChunkTable chunkId with
  | none => (st, -1)
  | some cih => (setEntry st chunkId (some { cih with chunkVersion := chunkVersion }), 0)

def AllocChunk (chunkId : ℕ) (chunkVersion : ℤ) : Cs × ℤ :=
  match st.mChunkTable chunkId with
  | some _ => ((ChangeChunkVers st chunkId chunkVersion).1, 0)
  | none =>
    if env.create then
      ({ setEntry st chunkId (some ⟨chunkVersion, 0, some fun _ => 0, none, st.nextFile⟩) with
        files := Function.update st.files st.nextFile ⟨fun _ => 0, 0⟩
        nextFile := st.nextFile + 1 }, 0)
    else (st, -ESERVERBUSY)

/-- `DeleteChunk` and `StaleChunk` take the chunk off the table. -/
def removeChunk (chunkId : ℕ) : Cs :=
  match st.mChunkTable chunkId with
  | none => st
  | some cih => { setEntry st chunkId none with mUsedSpace := st.mUsedSpace - cih.chunkSize }

/-- `Release` of a chunk: its checksums are unloaded. -/
def releaseChunk (chunkId : ℕ) : Cs :=
  match st.mChunkTable chunkId with
  | none => st
  | some cih => setEntry st chunkId (some { cih with chunkBlockChecksum := none })

/-- Only the checksum of the last block is reset; for a full chunk that is none of its blocks. -/
def TruncateChunk (chunkId chunkSize : ℕ) : Option (Cs × ℤ) :=
  if chunkSize > CHUNKSIZE then some (st, -EINVAL)
  else match st.mChunkTable chunkId with
    | none => some (st, -EBADF)
    | some cih =>
      match env.truncate with
      | some errno => some (st, -errno)
      | none =>
        let lastChecksumBlock := OffsetToChecksumBlockNum chunkSize
        match cih.chunkBlockChecksum with
        | none => none
        | some checksums =>
          if lastChecksumBlock ≥ MAX_CHUNK_CHECKSUM_BLOCKS then none
          else some ({ setEntry st chunkId (some { cih with
                  chunkSize := chunkSize
                  chunkBlockChecksum := some (Function.update checksums lastChecksumBlock 0) }) with
                mUsedSpace := st.mUsedSpace - cih.chunkSize + chunkSize
                files := Function.update st.files cih.file ((st.files cih.file).truncate chunkSize) }, 0)

/-! ## Metadata -/

def WriteChunkMetadata (chunkId : ℕ) (cb : KfsOp) : Option (Cs × ℤ) :=
  match st.mChunkTable chunkId with
  | none => some (st, -EBADF)
  | some cih =>
    if !env.connect cb.id then some (st, -ESERVERBUSY)
    else if !AreChecksumsLoaded cih then none
    else if env.aio cb.id = some 0 then some (st, -1)
    else some (queue st ⟨cb, .writeMeta, cih.file, 0, 0, none⟩, 0)

/-- One more operation waits for a metadata read. -/
def DiskRequest.addWaiter (cb : KfsOp) (r : DiskRequest) : DiskRequest :=
  match r.cmd with
  | .readMeta c waiters => { r with cmd := .readMeta c (waiters ++ [cb]) }
  | _ => r

def DiskRequest.isReadMeta (id : ℕ) (r : DiskRequest) : Bool :=
  match r.cmd with
  | .readMeta _ _ => r.clnt.id = id
  | _ => false

/-- `AddWaiter` on the metadata read that was issued for operation `id`; if that is gone `cb` is lost. -/
def AddWaiter (id : ℕ) (cb : KfsOp) : Cs :=
  { st with disk := st.disk.map fun r => if DiskRequest.isReadMeta id r then DiskRequest.addWaiter cb r else r }

/-- With the checksums in memory the event of `cb` is handled at once. A read that cannot be scheduled is
registered all the same. -/
def ReadChunkMetadata (chunkId : ℕ) (cb : KfsOp) (HandleEvent : Cs → Option Cs) : Option (Cs × ℤ) :=
  match st.mChunkTable chunkId with
  | none => some (st, -EBADF)
  | some cih =>
    if AreChecksumsLoaded cih then (HandleEvent st).map fun st => (st, 0)
    else match cih.readChunkMetaOp with
      | some id => some (AddWaiter st id cb, 0)
      | none =>
        if !env.connect cb.id then some (st, -ESERVERBUSY)
        else
          let st := setEntry st chunkId (some { cih with readChunkMetaOp := some cb.id })
          if env.aio cb.id = some 0 then some (st, -1)
          else some (queue st ⟨cb, .readMeta chunkId [], cih.file, 0, KFS_CHUNK_HEADER_SIZE, none⟩, 0)

def ReadChunkMetadataDone (chunkId : ℕ) : Cs :=
  match st.mChunkTable chunkId with
  | none => st
  | some cih => setEntry st chunkId (some { cih with readChunkMetaOp := none })

def SetChunkMetadata (chunkId : ℕ) (checksums : ℕ → UInt32) : Cs × ℤ :=
  match st.mChunkTable chunkId with
  | none => (st, -EBADF)
  | some cih => (setEntry st chunkId (some { cih with chunkBlockChecksum := some checksums }), 0)

/-! ## Reads -/

/-- `ReadChunk`: schedule the read `rop` of a chunk for `clnt`; `cmd` is the disk request that the read becomes. -/
def scheduleRead (chunkId : ℕ) (clnt : KfsOp) (rop : ReadOp) (cmd : ReadOp → DiskCmd) : Option (Cs × ℤ) :=
  match st.mChunkTable chunkId with
  | none => some (st, -EBADF)
  | some cih =>
    if !env.connect clnt.id then some (st, -ESERVERBUSY)
    else match cih.chunkBlockChecksum with
      | none => none
      | some checksums =>
        match ReadChunk ⟨cih.chunkVersion, cih.chunkSize, checksums⟩ rop with
        | .error e => some (st, e)
        | .ok (offset, n, rop) =>
          match DiskConnection.Read (env.aio clnt.id) n with
          | .failed => some (st, - EIO)
          | .dropped _ => some (st, 0)
          | .queued => some (queue st ⟨clnt, cmd rop, cih.file, offset, n, none⟩, 0)

/-- `ReadChunkDone` with the chunk looked up; a chunk with a bad block is thrown away. -/
def checkRead (chunkId : ℕ) (rop : ReadOp) : Option (Cs × ReadOp) :=
  match st.mChunkTable chunkId with
  | none => (ReadChunkDone none rop).map fun rop => (st, rop)
  | some cih =>
    if rop.chunkVersion ≠ cih.chunkVersion then (ReadChunkDone none rop).map fun rop => (st, rop)
    else match cih.chunkBlockChecksum with
      | none => none
      | some checksums =>
        (ReadChunkDone (some ⟨cih.chunkVersion, cih.chunkSize, checksums⟩) rop).map fun rop =>
          (if rop.status = -EBADCKSUM then removeChunk st chunkId else st, rop)

/-! ## Writes -/

/-- The number of bytes that fit into the chunk, in unsigned arithmetic. -/
def numBytesIO (offset numBytes : ℕ) : ℕ := min (((CHUNKSIZE : ℤ) - offset) % 2 ^ 64).toNat numBytes

/-- How the checksums of a write are settled: they are there, the block has to be read first, or reading it has
failed. -/
inductive Image
  | ready (w : WriteOp)
  | read
  | failed

/-- The data with the rest of its block around it. -/
def blockImage (block : IOBuffer) (w : WriteOp) : Option WriteOp :=
  match IOBuffer.Splice block w.dataBuf (w.offset % CHECKSUM_BLOCKSIZE) w.numBytesIO with
  | none => none
  | some image =>
    let image := ZeroPad image
    if image.flatten.length ≠ CHECKSUM_BLOCKSIZE then none
    else some { w with
      dataBuf := IOBuffer.Consume (w.offset - OffsetToChecksumBlockStart w.offset) image
      checksums := [ComputeBlockChecksum image.flatten] }

/-- The part of `WriteChunk` that settles the checksums. -/
def writeImage (chunkSize : ℕ) (w : WriteOp) : Option Image :=
  if OffsetToChecksumBlockStart w.offset = w.offset ∧ w.numBytesIO ≥ CHECKSUM_BLOCKSIZE then
    if w.numBytesIO % CHECKSUM_BLOCKSIZE ≠ 0 then none
    else match w.wpop with
      | some p => if w.checksums.head? = some p.checksum then some (.ready w) else none
      | none => (ComputeChecksums w.dataBuf w.numBytesIO).map fun checksums => .ready { w with checksums := checksums }
  else if w.numBytesIO ≥ CHECKSUM_BLOCKSIZE then none
  else if OffsetToChecksumBlockStart w.offset ≥ chunkSize then
    (blockImage (IOBuffer.ZeroFill [] CHECKSUM_BLOCKSIZE) w).map .ready
  else match w.rop with
    | none => some .read
    | some rop =>
      if rop.status < 0 then some .failed
      else (blockImage rop.dataBuf w).map .ready

/-- The checksums of the blocks that a write covers, and the end of the chunk. -/
def UpdateChecksums (cih : ChunkInfoHandle) (checksums : ℕ → UInt32) (chunkId : ℕ) (w : WriteOp) : Option Cs :=
  let block := OffsetToChecksumBlockNum w.offset
  let endOffset := w.offset + w.numBytesIO
  let cih := { cih with
    chunkBlockChecksum := some fun i =>
      if block ≤ i ∧ i < block + w.checksums.length then w.checksums.getD (i - block) 0 else checksums i }
  let used := if cih.chunkSize < endOffset then st.mUsedSpace + (endOffset - cih.chunkSize) else st.mUsedSpace
  if block + w.checksums.length ≤ MAX_CHUNK_CHECKSUM_BLOCKS ∧ 0 ≤ used ∧ used ≤ st.mTotalSpace then
    some { setEntry st chunkId (some { cih with chunkSize := max cih.chunkSize endOffset }) with mUsedSpace := used }
  else none

/-- The write itself. The prepare that has scheduled it without reading its block takes the number of bytes as
its status. -/
def scheduleWrite (cih : ChunkInfoHandle) (checksums : ℕ → UInt32) (clnt : KfsOp) (w : WriteOp) : Option (Cs × ℤ) :=
  if !env.connect clnt.id then some (st, -ESERVERBUSY)
  else match DiskConnection.Write (env.aio clnt.id) w.numBytesIO w.dataBuf with
    | .failed => some (st, -1)
    | .dropped nWrote => (UpdateChecksums st cih checksums w.chunkId w).map fun st => (st, nWrote)
    | .queued =>
      let status : ℤ := if w.rop.isNone then w.numBytesIO else 0
      let w := { w with wpop := w.wpop.map fun p => { p with status := status } }
      (UpdateChecksums (queue st ⟨clnt, .write w, cih.file, w.offset, w.numBytesIO, none⟩) cih checksums
        w.chunkId w).map fun st => (st, w.numBytesIO)

/-- The read of the block that a write covers in part. When it cannot be scheduled the write is resumed at once,
deletes the read, and the read is used after that. -/
def readBlock (clnt : KfsOp) (w : WriteOp) : Option (Cs × ℤ) :=
  let rop : ReadOp := ⟨w.chunkVersion, OffsetToChecksumBlockStart w.offset, CHECKSUM_BLOCKSIZE, 0, 0, []⟩
  match scheduleRead env (issue st (.readBlock clnt.id)) w.chunkId clnt rop (fun rop => .readBlock w rop) with
  | none => none
  | some (st, res) => if res < 0 then none else some (st, 0)

def WriteChunk (clnt : KfsOp) (w : WriteOp) : Option (Cs × ℤ) :=
  match st.mChunkTable w.chunkId with
  | none => some (st, -EBADF)
  | some cih =>
    match cih.chunkBlockChecksum with
    | none => none
    | some checksums =>
      let w := { w with numBytesIO := numBytesIO w.offset w.numBytes }
      if w.numBytesIO = 0 then some (st, -EINVAL)
      else if st.mUsedSpace + (w.offset + w.numBytesIO - cih.chunkSize) ≥ st.mTotalSpace then some (st, -ENOSPC)
      else match writeImage cih.chunkSize w with
        | none => none
        | some (.ready w) => scheduleWrite env st cih checksums clnt w
        | some .read => readBlock env st clnt w
        -- the completion of a write that has failed goes to the logger, which hands it back to the write
        | some .failed => some (st, 0)

/-! ## What reads and writes can do -/

variable {env st} {st' : Cs} {c : ℕ} {clnt : KfsOp} {rop : ReadOp} {cmd : ReadOp → DiskCmd} {res : ℤ} {w w' : WriteOp}

/-- Only the chunk table with its files and space, the leases and the account of what has been started have changed. -/
def Quiet (st st' : Cs) : Prop := ∃ mChunkTable files nextFile mUsedSpace mLeases issued,
  st' = { st with mChunkTable := mChunkTable, files := files, nextFile := nextFile, mUsedSpace := mUsedSpace,
                  mLeases := mLeases, issued := issued }

theorem Quiet.refl : Quiet st st := ⟨_, _, _, _, _, _, rfl⟩

theorem Quiet.trans {st₁ : Cs} : Quiet st st₁ → Quiet st₁ st' → Quiet st st' := by
  rintro ⟨_, _, _, _, _, _, rfl⟩ ⟨_, _, _, _, _, _, rfl⟩
  exact ⟨_, _, _, _, _, _, rfl⟩

theorem UpdateChecksums_quiet {cih : ChunkInfoHandle} {checksums : ℕ → UInt32}
    (h : UpdateChecksums st cih checksums c w = some st') : Quiet st st' := by
  unfold UpdateChecksums at h
  dsimp only at h
  split_ifs at h
  all_goals
    obtain rfl := Option.some.inj h
    exact ⟨_, _, _, _, _, _, rfl⟩

theorem ReadChunk_error {ci : ChunkInfo} {e : ℤ} (h : ReadChunk ci rop = .error e) : e < 0 := by
  unfold ReadChunk at h
  dsimp only at h
  split_ifs at h
  all_goals
    simp only [Except.error.injEq] at h
    subst h
    decide

/-- A read fails and leaves everything as it is, or it is queued, or scheduled in part. -/
theorem scheduleRead_cases (h : scheduleRead env st c clnt rop cmd = some (st', res)) :
    (res < 0 ∧ st' = st) ∨ ((∃ i, env.aio clnt.id = some (i + 1)) ∧ st' = st) ∨
      ∃ cih checksums offset n rop', st.mChunkTable c = some cih ∧ cih.chunkBlockChecksum = some checksums ∧
        ReadChunk ⟨cih.chunkVersion, cih.chunkSize, checksums⟩ rop = .ok (offset, n, rop') ∧
        st' = queue st ⟨clnt, cmd rop', cih.file, offset, n, none⟩ ∧ res = 0 := by
  unfold scheduleRead at h
  cases hc : st.mChunkTable c with
  | none =>
    simp only [hc, Option.some.injEq, Prod.mk.injEq] at h
    exact .inl ⟨by rw [← h.2]; decide, h.1.symm⟩
  | some cih =>
    simp only [hc] at h
    by_cases hconn : (!env.connect clnt.id) = true
    · simp only [hconn, if_true, Option.some.injEq, Prod.mk.injEq] at h
      exact .inl ⟨by rw [← h.2]; decide, h.1.symm⟩
    rw [if_neg hconn] at h
    cases hk : cih.chunkBlockChecksum with
    | none => simp [hk] at h
    | some checksums =>
      simp only [hk] at h
      cases hr : ReadChunk ⟨cih.chunkVersion, cih.chunkSize, checksums⟩ rop with
      | error e =>
        simp only [hr, Option.some.injEq, Prod.mk.injEq] at h
        exact .inl ⟨by rw [← h.2]; exact ReadChunk_error hr, h.1.symm⟩
      | ok r =>
        obtain ⟨offset, n, rop'⟩ := r
        simp only [hr] at h
        have hn : n ≠ 0 := by
          obtain ⟨-, -, -, hn, -⟩ := ReadChunk_spec hr
          omega
        cases hd : DiskConnection.Read (env.aio clnt.id) n with
        | queued =>
          simp only [hd, Option.some.injEq, Prod.mk.injEq] at h
          exact .inr (.inr ⟨cih, checksums, offset, n, rop', rfl, hk, hr, h.1.symm, h.2.symm⟩)
        | failed =>
          simp only [hd, Option.some.injEq, Prod.mk.injEq] at h
          exact .inl ⟨by rw [← h.2]; decide, h.1.symm⟩
        | dropped m =>
          simp only [hd, Option.some.injEq, Prod.mk.injEq] at h
          exact .inr (.inl ⟨DiskConnection.Read_dropped hn hd, h.1.symm⟩)

/-- Settling the checksums changes only the data and the checksums of a write. -/
theorem writeImage_same {size : ℕ} (h : writeImage size w = some (.ready w')) :
    ∃ dataBuf checksums, w' = { w with dataBuf := dataBuf, checksums := checksums } := by
  have hblock : ∀ {block w'}, blockImage block w = some w' →
      ∃ dataBuf checksums, w' = { w with dataBuf := dataBuf, checksums := checksums } := by
    intro block w' hb
    unfold blockImage at hb
    cases hs : IOBuffer.Splice block w.dataBuf (w.offset % CHECKSUM_BLOCKSIZE) w.numBytesIO with
    | none => simp [hs] at hb
    | some image =>
      simp only [hs] at hb
      split_ifs at hb
      exact ⟨_, _, (Option.some.inj hb).symm⟩
  have hmap : ∀ {block}, (blockImage block w).map Image.ready = some (.ready w') → blockImage block w = some w' := by
    intro block hm
    obtain ⟨w'', hw, he⟩ := Option.map_eq_some_iff.mp hm
    rw [hw, Image.ready.inj he]
  unfold writeImage at h
  split_ifs at h
  · cases hp : w.wpop with
    | some p =>
      simp only [hp] at h
      split_ifs at h
      obtain rfl := Image.ready.inj (Option.some.inj h)
      exact ⟨w.dataBuf, w.checksums, by rw [← hp]⟩
    | none =>
      simp only [hp] at h
      obtain ⟨checksums, -, he⟩ := Option.map_eq_some_iff.mp h
      exact ⟨_, _, (Image.ready.inj he).symm⟩
  · exact hblock (hmap h)
  · cases hr : w.rop with
    | none => simp [hr] at h
    | some rop =>
      simp only [hr] at h
      by_cases hst : rop.status < 0
      · simp [hst] at h
      · rw [if_neg hst] at h
        rw [← hr]
        exact hblock (hmap h)

/-- Only a write that has read its block gets the news of a failure, only one that has not reads it. -/
theorem writeImage_rop {size : ℕ} : (writeImage size w = some .failed → ∃ rop, w.rop = some rop ∧ rop.status < 0) ∧
    (writeImage size w = some .read → w.rop = none) := by
  have hmap : ∀ {block} {image : Image}, (∀ w', image ≠ .ready w') →
      (blockImage block w).map Image.ready ≠ some image := by
    intro block image hi hm
    obtain ⟨w', -, he⟩ := Option.map_eq_some_iff.mp hm
    exact hi w' he.symm
  unfold writeImage
  by_cases hfull : OffsetToChecksumBlockStart w.offset = w.offset ∧ w.numBytesIO ≥ CHECKSUM_BLOCKSIZE
  · rw [if_pos hfull]
    by_cases hmod : w.numBytesIO % CHECKSUM_BLOCKSIZE ≠ 0
    · simp [hmod]
    rw [if_neg hmod]
    cases hp : w.wpop with
    | some p => by_cases hc : w.checksums.head? = some p.checksum <;> simp [hc]
    | none => simp
  rw [if_neg hfull]
  by_cases hlong : w.numBytesIO ≥ CHECKSUM_BLOCKSIZE
  · simp [hlong]
  rw [if_neg hlong]
  by_cases hend : OffsetToChecksumBlockStart w.offset ≥ size
  · rw [if_pos hend]
    exact ⟨fun h => absurd h (hmap (by simp)), fun h => absurd h (hmap (by simp))⟩
  rw [if_neg hend]
  cases hr : w.rop with
  | none => simp
  | some rop =>
    by_cases hst : rop.status < 0
    · simp [hst]
    · dsimp only
      rw [if_neg hst]
      exact ⟨fun h => absurd h (hmap (by simp)), fun h => absurd h (hmap (by simp))⟩

/-- The write as `WriteChunk` goes about it. -/
def sized (w : WriteOp) : WriteOp := { w with numBytesIO := numBytesIO w.offset w.numBytes }

/-- A write fails and leaves everything as it is, or it is scheduled, whole or in part, or its block is read first,
or it gets the news that its block could not be read. -/
inductive Wrote (env : Env) (st : Cs) (clnt : KfsOp) (w : WriteOp) : Cs → ℤ → Prop
  | error {res : ℤ} : res < 0 → Wrote env st clnt w st res
  | dropped {st' : Cs} {res : ℤ} {i : ℕ} : env.aio clnt.id = some (i + 1) → Quiet st st' → Wrote env st clnt w st' res
  | queued {st' : Cs} {cih : ChunkInfoHandle} {checksums : ℕ → UInt32} {w' : WriteOp} {status : ℤ} :
    st.mChunkTable w.chunkId = some cih → cih.chunkBlockChecksum = some checksums → WriteOp.numBytesIO (sized w) ≠ 0 →
    writeImage cih.chunkSize (sized w) = some (.ready w') → 0 ≤ status →
    UpdateChecksums (queue st ⟨clnt, .write { w' with wpop := w'.wpop.map fun p => { p with status := status } },
      cih.file, w'.offset, w'.numBytesIO, none⟩) cih checksums w'.chunkId
      { w' with wpop := w'.wpop.map fun p => { p with status := status } } = some st' →
    Wrote env st clnt w st' w'.numBytesIO
  | reading {cih : ChunkInfoHandle} {checksums : ℕ → UInt32} {offset n : ℕ} {rop : ReadOp} :
    st.mChunkTable w.chunkId = some cih → cih.chunkBlockChecksum = some checksums → WriteOp.numBytesIO (sized w) ≠ 0 →
    writeImage cih.chunkSize (sized w) = some .read →
    ReadChunk ⟨cih.chunkVersion, cih.chunkSize, checksums⟩
      ⟨w.chunkVersion, OffsetToChecksumBlockStart w.offset, CHECKSUM_BLOCKSIZE, 0, 0, []⟩ = .ok (offset, n, rop) →
    Wrote env st clnt w (queue (issue st (.readBlock clnt.id))
      ⟨clnt, .readBlock (sized w) rop, cih.file, offset, n, none⟩) 0
  | failed {cih : ChunkInfoHandle} {checksums : ℕ → UInt32} :
    st.mChunkTable w.chunkId = some cih → cih.chunkBlockChecksum = some checksums →
    writeImage cih.chunkSize (sized w) = some .failed → Wrote env st clnt w st 0

/-- In part only when a later piece cannot be scheduled. -/
theorem writeLoop_dropped {aio : Option ℕ} {numBytes i nWrote n : ℕ} {buf : IOBuffer} (hi : 0 < nWrote → 0 < i)
    (h : DiskConnection.writeLoop aio numBytes i nWrote buf = .dropped n) : ∃ j, aio = some (j + 1) := by
  fun_induction DiskConnection.writeLoop aio numBytes i nWrote buf with
  | case1 => simp at h
  | case2 i nWrote data buf hd ih => exact ih hi h
  | case3 i nWrote data buf hd ha hw =>
    obtain ⟨j, rfl⟩ := Nat.exists_eq_succ_of_ne_zero (hi hw).ne'
    exact ⟨j, ha⟩
  | case4 => simp at h
  | case5 => simp at h
  | case6 i nWrote data buf hd ha numIO hle ih => exact ih (fun _ => Nat.succ_pos i) h

theorem writeLoop_none {numBytes i nWrote : ℕ} {buf : IOBuffer} :
    DiskConnection.writeLoop none numBytes i nWrote buf ≠ .failed := by
  fun_induction DiskConnection.writeLoop none numBytes i nWrote buf <;> simp_all

theorem WriteChunk_eq {cih : ChunkInfoHandle} {checksums : ℕ → UInt32} (hc : st.mChunkTable w.chunkId = some cih)
    (hk : cih.chunkBlockChecksum = some checksums) (h0 : WriteOp.numBytesIO (sized w) ≠ 0)
    (hspace : ¬ st.mUsedSpace + ((sized w).offset + WriteOp.numBytesIO (sized w) - cih.chunkSize) ≥ st.mTotalSpace) :
    WriteChunk env st clnt w = match writeImage cih.chunkSize (sized w) with
      | none => none
      | some (.ready w) => scheduleWrite env st cih checksums clnt w
      | some .read => readBlock env st clnt (sized w)
      | some .failed => some (st, 0) := by
  unfold WriteChunk
  simp only [hc, hk]
  change (if WriteOp.numBytesIO (sized w) = 0 then _ else _) = _
  rw [if_neg h0]
  exact if_neg hspace

theorem WriteChunk_cases (h : WriteChunk env st clnt w = some (st', res)) : Wrote env st clnt w st' res := by
  have hw := h
  unfold WriteChunk at h
  cases hc : st.mChunkTable w.chunkId with
  | none =>
    simp only [hc, Option.some.injEq, Prod.mk.injEq] at h
    obtain ⟨rfl, rfl⟩ := h
    exact .error (by decide)
  | some cih =>
    simp only [hc] at h
    cases hk : cih.chunkBlockChecksum with
    | none => simp [hk] at h
    | some checksums =>
      simp only [hk] at h
      change (if WriteOp.numBytesIO (sized w) = 0 then _ else _) = _ at h
      by_cases h0 : WriteOp.numBytesIO (sized w) = 0
      · simp only [h0, if_true, Option.some.injEq, Prod.mk.injEq] at h
        obtain ⟨rfl, rfl⟩ := h
        exact .error (by decide)
      rw [if_neg h0] at h
      split_ifs at h with hspace
      · simp only [Option.some.injEq, Prod.mk.injEq] at h
        obtain ⟨rfl, rfl⟩ := h
        exact .error (by decide)
      replace h := (WriteChunk_eq hc hk h0 hspace).symm.trans hw
      cases hi : writeImage cih.chunkSize (sized w) with
      | none => simp [hi] at h
      | some image =>
        cases image with
        | failed =>
          simp only [hi, Option.some.injEq, Prod.mk.injEq] at h
          obtain ⟨rfl, rfl⟩ := h
          exact .failed hc hk hi
        | read =>
          simp only [hi] at h
          unfold readBlock at h
          dsimp only at h
          cases hs : scheduleRead env (issue st (.readBlock clnt.id)) (sized w).chunkId clnt
              ⟨(sized w).chunkVersion, OffsetToChecksumBlockStart (sized w).offset, CHECKSUM_BLOCKSIZE, 0, 0, []⟩
              (fun rop => .readBlock (sized w) rop) with
          | none => simp [hs] at h
          | some r =>
            obtain ⟨st₁, res₁⟩ := r
            simp only [hs] at h
            split_ifs at h with hneg
            simp only [Option.some.injEq, Prod.mk.injEq] at h
            obtain ⟨rfl, rfl⟩ := h
            rcases scheduleRead_cases hs with ⟨hlt, -⟩ | ⟨⟨i, ha⟩, rfl⟩
              | ⟨cih', checksums', offset, n, rop, hc', hk', hr, rfl, -⟩
            · exact absurd hlt hneg
            · exact .dropped ha ⟨_, _, _, _, _, _, rfl⟩
            · obtain rfl : cih = cih' := Option.some.inj (hc.symm.trans hc')
              obtain rfl : checksums = checksums' := Option.some.inj (hk.symm.trans hk')
              exact .reading hc hk h0 hi hr
        | ready w' =>
          simp only [hi] at h
          obtain ⟨dataBuf, checksums', hw'⟩ := writeImage_same hi
          unfold scheduleWrite at h
          by_cases hconn : (!env.connect clnt.id) = true
          · simp only [hconn, if_true, Option.some.injEq, Prod.mk.injEq] at h
            obtain ⟨rfl, rfl⟩ := h
            exact .error (by decide)
          rw [if_neg hconn] at h
          cases hd : DiskConnection.Write (env.aio clnt.id) w'.numBytesIO w'.dataBuf with
          | failed =>
            simp only [hd, Option.some.injEq, Prod.mk.injEq] at h
            obtain ⟨rfl, rfl⟩ := h
            exact .error (by decide)
          | dropped n =>
            have hquiet : Quiet st st' := by
              simp only [hd] at h
              obtain ⟨st₁, hu, he⟩ := Option.map_eq_some_iff.mp h
              exact (Prod.mk.inj he).1 ▸ UpdateChecksums_quiet hu
            unfold DiskConnection.Write at hd
            have h0' : w'.numBytesIO ≠ 0 := by
              rw [hw']
              exact h0
            rw [if_neg h0'] at hd
            obtain ⟨j, hj⟩ := writeLoop_dropped (fun h => absurd h (Nat.lt_irrefl 0)) hd
            exact .dropped hj hquiet
          | queued =>
            simp only [hd] at h
            obtain ⟨st₁, hu, he⟩ := Option.map_eq_some_iff.mp h
            simp only [Prod.mk.injEq] at he
            obtain ⟨rfl, rfl⟩ := he
            have hstatus : (0 : ℤ) ≤ if w'.rop.isNone then ( w'.numBytesIO : ℤ) else 0 := by
              split_ifs
              · exact Int.natCast_nonneg _
              · exact le_rfl
            exact .queued hc hk h0 hi hstatus hu

end ChunkManager

end Kfs.Chunk
