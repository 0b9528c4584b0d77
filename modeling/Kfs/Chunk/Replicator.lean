import Kfs.Chunk.Client

/-!
# Copying a chunk from a peer

A `Replicator` asks the peer for the size of the chunk, and then in turns reads up to a megabyte from the peer and
writes it to disk. Each callback finds the chunk server as the other operations have left it.

* `Replicator`, `HandleStartDone`, `HandleReadDone`, `HandleWriteDone`, `Terminate`: the replicator, `none` for an
  assertion that fails;
* `step`, `run`: one callback, and the callbacks of a run;
* `WriteChunk_aligned`: what `WriteChunk` does with a write from the start of a block on.
-/

namespace Kfs.Chunk.Replication

open ChunkManager

/-! ## The replicator -/

inductive Handler
  | HandleStartDone
  | HandleReadDone
  | HandleWriteDone
  | HandleReplicationDone
  | done
  deriving DecidableEq

/-- `notified` are the statuses that the owner has been told. -/
structure Replicator where
  mChunkId : ℕ
  mChunkVersion : ℤ
  mOwner : KfsOp
  mChunkSize : ℤ
  mDone : Bool
  mOffset : ℕ
  mWriteOp : WriteOp
  handler : Handler
  notified : List ℤ

/-- A replicator on the chunk server. -/
structure World where
  rep : Replicator
  st : Cs

/-- What a write ends with. -/
inductive EventCode
  | EVENT_CMD_DONE
  | EVENT_DISK_WROTE
  | EVENT_DISK_ERROR
  deriving DecidableEq

namespace Replicator

/-- A replicator that has asked for the size of the chunk. -/
def start (chunkId : ℕ) (chunkVersion : ℤ) (owner : KfsOp) : Replicator where
  mChunkId := chunkId
  mChunkVersion := chunkVersion
  mOwner := owner
  mChunkSize := 0
  mDone := false
  mOffset := 0
  mWriteOp := ⟨chunkId, chunkVersion, 0, 0, 0, [], [], none, none⟩
  handler := .HandleStartDone
  notified := []

variable (env : Env) (r : Replicator) (st : Cs)

def notify (status : ℤ) : Replicator := { r with handler := .done, notified := r.notified ++ [status] }

/-- What `Terminate` does when the chunk has not been copied. -/
def cleanUp : World := ⟨r.notify (-1), removeChunk st r.mChunkId⟩

def Terminate : Option World :=
  if r.mDone then
    match WriteChunkMetadata env (ChangeChunkVers st r.mChunkId r.mChunkVersion).1 r.mChunkId r.mOwner with
    | none => none
    | some (st, res) =>
      if res = 0 then some ⟨{ r with handler := .HandleReplicationDone }, st⟩ else some (r.cleanUp st)
  else some (r.cleanUp st)

def Read : Option World :=
  if r.mOffset ≥ r.mChunkSize then Terminate env { r with mDone := true } st
  else some ⟨{ r with handler := .HandleReadDone }, st⟩

/-- What the peer says about the chunk. -/
def described (chunkSize chunkVersion : ℤ) : Replicator :=
  { r with
    mChunkSize := chunkSize
    mChunkVersion := chunkVersion
    mWriteOp := { r.mWriteOp with chunkVersion := chunkVersion } }

/-- The version is one that is never used. -/
def HandleStartDone (status chunkSize chunkVersion : ℤ) : Option World :=
  if status < 0 then r.Terminate env st
  else
    let r := r.described chunkSize chunkVersion
    let (st, res) := AllocChunk env st r.mChunkId 0
    if res < 0 then r.Terminate env st else r.Read env st

/-- More than a block is cut to whole blocks. -/
def roundDown (numBytes : ℕ) : ℕ :=
  if numBytes ≥ CHECKSUM_BLOCKSIZE ∧ numBytes % CHECKSUM_BLOCKSIZE ≠ 0 then
    numBytes / CHECKSUM_BLOCKSIZE * CHECKSUM_BLOCKSIZE
  else numBytes

/-- The write of what has been read. -/
def writeOp (data : IOBuffer) : WriteOp :=
  { r.mWriteOp with
    numBytesIO := 0
    dataBuf := data
    offset := r.mOffset
    numBytes := roundDown data.flatten.length }

def writing (data : IOBuffer) : Replicator := { r with handler := .HandleWriteDone, mWriteOp := r.writeOp data }

def HandleReadDone (status : ℤ) (data : IOBuffer) : Option World :=
  if status < 0 then r.Terminate env st
  else
    match WriteChunk env st r.mOwner (r.writeOp data) with
    | none => none
    | some (st, res) => if res < 0 then (r.writing data).Terminate env st else some ⟨r.writing data, st⟩

def HandleWriteDone (code : EventCode) (status : ℤ) : Option World :=
  if code ≠ .EVENT_CMD_DONE ∧ code ≠ .EVENT_DISK_WROTE then none
  else if status < 0 then r.Terminate env st
  else Read env { r with mOffset := r.mOffset + r.mWriteOp.numBytesIO } st

/-- `HandleWriteDone` of the write, with the number of bytes that were written unless the disk failed. -/
def writeDone (res : Option ℕ) : Option World :=
  match res with
  | some n => HandleWriteDone env { r with mWriteOp := { r.mWriteOp with numBytesIO := n } } st .EVENT_DISK_WROTE n
  | none => r.HandleWriteDone env st .EVENT_DISK_ERROR (-1)

/-- The block that is written in part has been read, and the write goes on; a read that has failed comes back from the
logger as the end of the write. -/
def resume (op : WriteOp) (rop : ReadOp) (data : Option (List UInt8)) : Option World :=
  match ReadOp.setStatus st op.chunkId rop data with
  | none => none
  | some (st, rop) =>
    match WriteChunk env st r.mOwner { op with rop := some rop } with
    | none => none
    | some (st, res) =>
      if res < 0 then none
      else if rop.status < 0 then r.HandleWriteDone env st .EVENT_CMD_DONE (-1)
      else some ⟨r, st⟩

/-- Whatever has become of the metadata. -/
def HandleReplicationDone : World := ⟨r.notify 0, st⟩

/-- The peer has described the chunk, and there is an entry for it. -/
theorem HandleStartDone_eq {status chunkSize chunkVersion : ℤ} {st' : Cs} {res : ℤ} (hstatus : 0 ≤ status)
    (h : AllocChunk env st r.mChunkId 0 = (st', res)) :
    r.HandleStartDone env st status chunkSize chunkVersion =
      if res < 0 then (r.described chunkSize chunkVersion).Terminate env st'
      else (r.described chunkSize chunkVersion).Read env st' := by
  have halloc : AllocChunk env st (r.described chunkSize chunkVersion).mChunkId 0 = (st', res) := h
  rw [HandleStartDone, if_neg (not_lt.2 hstatus)]
  simp only [halloc]

/-- The bytes have been read, and `WriteChunk` has answered. -/
theorem HandleReadDone_eq {status : ℤ} {data : IOBuffer} {st' : Cs} {res : ℤ} (hstatus : 0 ≤ status)
    (h : WriteChunk env st r.mOwner (r.writeOp data) = some (st', res)) :
    r.HandleReadDone env st status data =
      if res < 0 then (r.writing data).Terminate env st' else some ⟨r.writing data, st'⟩ := by
  rw [HandleReadDone, if_neg (not_lt.2 hstatus), h]

/-- An assertion of `WriteChunk` fails. -/
theorem HandleReadDone_none {status : ℤ} {data : IOBuffer} (hstatus : 0 ≤ status)
    (h : WriteChunk env st r.mOwner (r.writeOp data) = none) : r.HandleReadDone env st status data = none := by
  rw [HandleReadDone, if_neg (not_lt.2 hstatus), h]

/-- The metadata of the whole chunk is being written. -/
theorem Terminate_done {st₁ st' : Cs} (hdone : r.mDone = true)
    (hchange : (ChangeChunkVers st r.mChunkId r.mChunkVersion).1 = st₁)
    (hmeta : WriteChunkMetadata env st₁ r.mChunkId r.mOwner = some (st', 0)) :
    r.Terminate env st = some ⟨{ r with handler := .HandleReplicationDone }, st'⟩ := by
  rw [Terminate, if_pos hdone, hchange, hmeta]
  exact if_pos rfl

/-- The disk has written `n` bytes. -/
theorem writeDone_some (n : ℕ) : r.writeDone env st (some n) =
    Read env { r with mWriteOp := { r.mWriteOp with numBytesIO := n }, mOffset := r.mOffset + n } st := by
  rw [writeDone, HandleWriteDone, if_neg fun h => h.2 rfl, if_neg (Int.natCast_nonneg n).not_gt]

theorem roundDown_le (k : ℕ) : roundDown k ≤ k := by
  unfold roundDown
  split_ifs
  · exact Nat.div_mul_le_self _ _
  · exact le_rfl

theorem roundDown_of_lt {k : ℕ} (h : k < CHECKSUM_BLOCKSIZE) : roundDown k = k := if_neg fun hc => h.not_ge hc.1

theorem roundDown_of_ge {k : ℕ} (h : CHECKSUM_BLOCKSIZE ≤ k) :
    roundDown k % CHECKSUM_BLOCKSIZE = 0 ∧ CHECKSUM_BLOCKSIZE ≤ roundDown k := by
  have hdiv : roundDown k = k / CHECKSUM_BLOCKSIZE * CHECKSUM_BLOCKSIZE := by
    unfold roundDown
    split_ifs with hc
    · rfl
    · have hmod : k % CHECKSUM_BLOCKSIZE = 0 := by
        by_contra hne
        exact hc ⟨h, hne⟩
      exact (Nat.div_mul_cancel (Nat.dvd_of_mod_eq_zero hmod)).symm
  rw [hdiv]
  refine ⟨Nat.mul_mod_left _ _, ?_⟩
  simp only [CHECKSUM_BLOCKSIZE] at h ⊢
  omega

end Replicator

/-! ## Runs -/

/-- The answer of the peer about the chunk, its answer to a read, the end of a disk request of which `n` bytes go
through, and the end of the write of the metadata. -/
inductive Event
  | metadata (status chunkSize chunkVersion : ℤ)
  | read (status : ℤ) (data : IOBuffer)
  | wrote (n : Option ℕ)
  | logged (ok : Bool)

/-- A callback, and the state in which it finds the chunk server. -/
structure Callback where
  env : Env
  st : Cs
  event : Event

def isOf (id : ℕ) (r : DiskRequest) : Bool := r.clnt.id = id

/-- The disk request of an operation, and the others. -/
def takeRequest (id : ℕ) (disk : List DiskRequest) : Option (DiskRequest × List DiskRequest) :=
  (disk.find? (isOf id)).map fun r => (r, disk.eraseP (isOf id))

/-- The disk carries out `n` bytes of a request, or fails. -/
def perform (st : Cs) (req : DiskRequest) (n : Option ℕ) : Cs × DiskRequest :=
  match n with
  | none => (st, { req with result := none })
  | some n => performRequest st req n

/-- A callback; those that the replicator does not wait for do not come. -/
def World.step (w : World) (cb : Callback) : Option World :=
  match w.rep.handler, cb.event with
  | .HandleStartDone, .metadata status chunkSize chunkVersion =>
    w.rep.HandleStartDone cb.env cb.st status chunkSize chunkVersion
  | .HandleReadDone, .read status data => w.rep.HandleReadDone cb.env cb.st status data
  | .HandleWriteDone, .wrote n =>
    match takeRequest w.rep.mOwner.id cb.st.disk with
    | none => some ⟨w.rep, cb.st⟩
    | some (req, disk) =>
      let (st, req) := perform { cb.st with disk } req n
      match req.cmd with
      | .readBlock op rop => w.rep.resume cb.env st op rop req.result
      | _ => w.rep.writeDone cb.env st (req.result.map List.length)
  | .HandleReplicationDone, .logged _ =>
    match takeRequest w.rep.mOwner.id cb.st.disk with
    | none => some ⟨w.rep, cb.st⟩
    | some (_, disk) => some (w.rep.HandleReplicationDone { cb.st with disk })
  | _, _ => some ⟨w.rep, cb.st⟩

/-- The disk has carried out the write of the replicator. -/
theorem World.step_wrote {w : World} {env : Env} {st : Cs} {req : DiskRequest} {disk : List DiskRequest}
    {n : Option ℕ} {op : WriteOp} (hh : w.rep.handler = .HandleWriteDone)
    (htake : takeRequest w.rep.mOwner.id st.disk = some (req, disk))
    (hcmd : (perform { st with disk } req n).2.cmd = .write op) :
    w.step ⟨env, st, .wrote n⟩ = w.rep.writeDone env (perform { st with disk } req n).1
      ((perform { st with disk } req n).2.result.map List.length) := by
  rw [World.step, hh]
  dsimp only
  rw [htake]
  dsimp only
  rw [hcmd]

def World.run (w : World) (cbs : ℕ → Callback) : ℕ → Option World
  | 0 => some w
  | n + 1 => (World.run w cbs n).bind fun w => w.step (cbs n)

/-- A run in which nothing else happens on the chunk server. -/
def World.alone (w : World) (env : Env) (events : ℕ → Event) : ℕ → Option World
  | 0 => some w
  | n + 1 => (w.alone env events n).bind fun w => w.step ⟨env, w.st, events n⟩

def World.callbacks (w : World) (env : Env) (events : ℕ → Event) (n : ℕ) : Callback :=
  ⟨env, ((w.alone env events n).getD w).st, events n⟩

theorem World.run_callbacks {w : World} {env : Env} {events : ℕ → Event} {n : ℕ} :
    w.run (w.callbacks env events) n = w.alone env events n := by
  induction n with
  | zero => rfl
  | succ n ih =>
    rw [World.run, World.alone, ih, World.callbacks]
    cases w.alone env events n with
    | none => rfl
    | some w => rfl

theorem World.callbacks_eq {w w' : World} {env : Env} {events : ℕ → Event} {n : ℕ}
    (h : w.alone env events n = some w') : w.callbacks env events n = ⟨env, w'.st, events n⟩ := by
  rw [World.callbacks, h, Option.getD_some]

/-- What the other operations of the chunk server leave alone: the chunk with its file, and the disk requests of the
replicator. The space that is used is what it is asserted to be. -/
structure Aside (rep : Replicator) (st st' : Cs) : Prop where
  entry : st'.mChunkTable rep.mChunkId = st.mChunkTable rep.mChunkId
  file : ∀ cih, st.mChunkTable rep.mChunkId = some cih → st'.files cih.file = st.files cih.file
  disk : st'.disk.filter (isOf rep.mOwner.id) = st.disk.filter (isOf rep.mOwner.id)
  used : 0 ≤ st'.mUsedSpace
  space : st'.mUsedSpace ≤ st'.mTotalSpace

theorem Aside.refl {rep : Replicator} {st : Cs} (hused : 0 ≤ st.mUsedSpace) (hspace : st.mUsedSpace ≤ st.mTotalSpace) :
    Aside rep st st :=
  ⟨rfl, fun _ _ => rfl, rfl, hused, hspace⟩

/-! ## Writes from the start of a block on -/

/-- The checksums of the blocks of `d`, the last one filled with zeros. -/
def blockChecksums (d : List UInt8) : List UInt32 :=
  (blocks d).map fun b => ComputeBlockChecksum (b ++ List.replicate (CHECKSUM_BLOCKSIZE - b.length) 0)

section

variable {d : List UInt8} {w w' : WriteOp} {size n : ℕ}

theorem blockChecksums_getElem? {i : ℕ} : (blockChecksums d)[i]? =
    if i * CHECKSUM_BLOCKSIZE < d.length then some (ComputeBlockChecksum (paddedBlock d 0 i)) else none := by
  rw [blockChecksums, List.getElem?_map, blocks_getElem?]
  split_ifs
  · rfl
  · rfl

/-- Whole blocks need no zeros. -/
theorem blockChecksums_of_mod (h : d.length % CHECKSUM_BLOCKSIZE = 0) :
    blockChecksums d = (blocks d).map ComputeBlockChecksum := by
  refine List.map_congr_left fun b hb => ?_
  obtain ⟨i, hi⟩ := List.mem_iff_getElem?.1 hb
  rw [blocks_getElem?] at hi
  split_ifs at hi with hlt
  have hlen : b.length = CHECKSUM_BLOCKSIZE := by
    rw [← Option.some.inj hi, List.length_take, List.length_drop]
    have hle : i * CHECKSUM_BLOCKSIZE + CHECKSUM_BLOCKSIZE ≤ d.length := by
      simp only [CHECKSUM_BLOCKSIZE] at h hlt ⊢
      omega
    omega
  rw [hlen, Nat.sub_self, List.replicate_zero, List.append_nil]

theorem blocks_of_le (hpos : 0 < d.length) (h : d.length ≤ CHECKSUM_BLOCKSIZE) : blocks d = [d] := by
  refine List.ext_getElem? fun i => ?_
  rw [blocks_getElem?]
  cases i with
  | zero => rw [Nat.zero_mul, if_pos hpos, List.drop_zero, List.take_of_length_le h]; rfl
  | succ i =>
    rw [if_neg (by rw [Nat.add_mul]; omega)]
    rfl

/-- A write that starts with a block, of whole blocks or at the end of the chunk. -/
structure Aligned (w : WriteOp) (size : ℕ) : Prop where
  wpop : w.wpop = none
  start : w.offset % CHECKSUM_BLOCKSIZE = 0
  pos : 0 < w.numBytesIO
  fits : w.numBytesIO % CHECKSUM_BLOCKSIZE = 0 ∧ w.numBytesIO ≤ w.dataBuf.flatten.length ∨
    w.numBytesIO < CHECKSUM_BLOCKSIZE ∧ w.numBytesIO = w.dataBuf.flatten.length ∧ size ≤ w.offset

theorem Aligned.le (h : Aligned w size) : w.numBytesIO ≤ w.dataBuf.flatten.length := by
  cases h.fits with
  | inl h => exact h.2
  | inr h => exact h.2.1.le

/-- The image of a block that there is nothing of yet. -/
theorem blockImage_zero (hstart : w.offset % CHECKSUM_BLOCKSIZE = 0) (hpos : 0 < w.numBytesIO)
    (hlen : w.numBytesIO = w.dataBuf.flatten.length) (hlt : w.numBytesIO < CHECKSUM_BLOCKSIZE) :
    ∃ dataBuf, blockImage (IOBuffer.ZeroFill [] CHECKSUM_BLOCKSIZE) w =
        some { w with dataBuf := dataBuf, checksums := blockChecksums w.dataBuf.flatten } ∧
      dataBuf.flatten.take w.numBytesIO = w.dataBuf.flatten := by
  have hzero : (IOBuffer.ZeroFill [] CHECKSUM_BLOCKSIZE).flatten = List.replicate CHECKSUM_BLOCKSIZE 0 := by
    rw [IOBuffer.ZeroFill, List.nil_append, List.flatten_singleton]
  obtain ⟨image, hsplice, himage⟩ : ∃ image : IOBuffer,
      IOBuffer.Splice (IOBuffer.ZeroFill [] CHECKSUM_BLOCKSIZE) w.dataBuf 0 w.numBytesIO = some image ∧
        image.flatten = w.dataBuf.flatten ++ List.replicate (CHECKSUM_BLOCKSIZE - w.dataBuf.flatten.length) 0 := by
    refine ⟨_, by rw [IOBuffer.Splice, if_neg hlen.le.not_gt, if_neg (Nat.not_lt_zero _)], ?_⟩
    rw [List.flatten_append, List.flatten_append, IOBuffer.front_flatten, IOBuffer.Consume_flatten, hzero,
      List.take_zero, List.nil_append, Nat.zero_add, List.drop_replicate, hlen]
  have hsize : image.flatten.length = CHECKSUM_BLOCKSIZE := by
    rw [himage, List.length_append, List.length_replicate]
    omega
  have hpad : ZeroPad image = image := if_pos (by rw [hsize, Nat.mod_self])
  have hextra : w.offset - OffsetToChecksumBlockStart w.offset = 0 := by
    rw [OffsetToChecksumBlockStart, Nat.div_mul_cancel (Nat.dvd_of_mod_eq_zero hstart), Nat.sub_self]
  have hsum : blockChecksums w.dataBuf.flatten = [ComputeBlockChecksum image.flatten] := by
    rw [blockChecksums, blocks_of_le (hlen ▸ hpos) (hlen ▸ hlt.le), himage]
    rfl
  refine ⟨IOBuffer.Consume 0 image, ?_, ?_⟩
  · rw [blockImage, hstart, hsplice]
    dsimp only
    rw [hpad, if_neg (not_not.2 hsize), hextra, hsum]
  · rw [IOBuffer.Consume_flatten, List.drop_zero, himage, List.take_append_of_le_length hlen.le,
      List.take_of_length_le hlen.ge]

/-- The checksums of an aligned write are those of its blocks, and what is written is what it was given. -/
theorem writeImage_aligned (h : Aligned w size) :
    ∃ dataBuf, writeImage size w =
        some (.ready { w with
          dataBuf := dataBuf
          checksums := blockChecksums (w.dataBuf.flatten.take w.numBytesIO) }) ∧
      dataBuf.flatten.take w.numBytesIO = w.dataBuf.flatten.take w.numBytesIO := by
  have hblock : OffsetToChecksumBlockStart w.offset = w.offset :=
    Nat.div_mul_cancel (Nat.dvd_of_mod_eq_zero h.start)
  have hpos := h.pos
  rw [writeImage, hblock]
  cases h.fits with
  | inl hf =>
    have hge : CHECKSUM_BLOCKSIZE ≤ w.numBytesIO := Nat.le_of_dvd hpos (Nat.dvd_of_mod_eq_zero hf.1)
    have hlen : (w.dataBuf.flatten.take w.numBytesIO).length % CHECKSUM_BLOCKSIZE = 0 := by
      rw [List.length_take_of_le hf.2]
      exact hf.1
    rw [if_pos ⟨rfl, hge⟩, if_neg (not_not.2 hf.1), h.wpop]
    dsimp only
    rw [ComputeChecksums_take hge hf.2, ← blockChecksums_of_mod hlen]
    exact ⟨w.dataBuf, rfl, rfl⟩
  | inr hf =>
    obtain ⟨hlt, hlen, hsize⟩ := hf
    obtain ⟨dataBuf, himage, htake⟩ := blockImage_zero h.start hpos hlen hlt
    rw [if_neg fun hc => hlt.not_ge hc.2, if_neg hlt.not_ge, if_pos hsize, himage, List.take_of_length_le hlen.ge]
    exact ⟨dataBuf, rfl, htake⟩

variable {env : Env} {st st' : Cs} {op : KfsOp} {cih : ChunkInfoHandle} {checksums : ℕ → UInt32}

/-- A write has been started: its bytes wait for the disk, the chunk and its checksums reach to its end. -/
structure Started (st st' : Cs) (op : KfsOp) (w : WriteOp) (cih : ChunkInfoHandle) (checksums : ℕ → UInt32) : Prop where
  entry : ∃ checksums', st'.mChunkTable w.chunkId = some { cih with
      chunkSize := max cih.chunkSize (w.offset + w.numBytesIO)
      chunkBlockChecksum := some checksums' } ∧
    (∀ i, i * CHECKSUM_BLOCKSIZE < w.offset → checksums' i = checksums i) ∧
    ∀ i, i * CHECKSUM_BLOCKSIZE < w.numBytesIO → checksums' (w.offset / CHECKSUM_BLOCKSIZE + i) =
      ComputeBlockChecksum (paddedBlock (w.dataBuf.flatten.take w.numBytesIO) 0 i)
  others : ∀ c, c ≠ w.chunkId → st'.mChunkTable c = st.mChunkTable c
  files : st'.files = st.files
  used : st'.mUsedSpace = st.mUsedSpace + (max cih.chunkSize (w.offset + w.numBytesIO) - cih.chunkSize)
  total : st'.mTotalSpace = st.mTotalSpace
  disk : ∃ w', w'.dataBuf.flatten.take w.numBytesIO = w.dataBuf.flatten.take w.numBytesIO ∧
    st'.disk = st.disk ++ [⟨op, .write w', cih.file, w.offset, w.numBytesIO, none⟩]

/-- The write as it is scheduled. -/
def imaged (w : WriteOp) (dataBuf : IOBuffer) : WriteOp :=
  { w with dataBuf := dataBuf, checksums := blockChecksums (w.dataBuf.flatten.take w.numBytesIO) }

theorem length_blockChecksums_le {block : ℕ} (h : block * CHECKSUM_BLOCKSIZE + d.length ≤ CHUNKSIZE) :
    block + (blockChecksums d).length ≤ MAX_CHUNK_CHECKSUM_BLOCKS := by
  cases hlen : (blockChecksums d).length with
  | zero =>
    simp only [CHECKSUM_BLOCKSIZE, CHUNKSIZE, MAX_CHUNK_CHECKSUM_BLOCKS] at h ⊢
    omega
  | succ L =>
    have hlast : (blockChecksums d)[L]?.isSome = true := by
      rw [List.getElem?_eq_getElem (by omega)]
      rfl
    rw [blockChecksums_getElem?] at hlast
    split_ifs at hlast with hlt
    · simp only [CHECKSUM_BLOCKSIZE, CHUNKSIZE, MAX_CHUNK_CHECKSUM_BLOCKS] at h hlt ⊢
      omega
    · cases hlast

variable (op checksums) in
theorem UpdateChecksums_aligned {dataBuf : IOBuffer} (hal : Aligned w size) (hend : w.offset + w.numBytesIO ≤ CHUNKSIZE)
    (hused : 0 ≤ st.mUsedSpace) (hspace : st.mUsedSpace ≤ st.mTotalSpace)
    (hfits : st.mUsedSpace + (w.offset + w.numBytesIO - cih.chunkSize) < st.mTotalSpace)
    (hdata : dataBuf.flatten.take w.numBytesIO = w.dataBuf.flatten.take w.numBytesIO) :
    ∃ st', UpdateChecksums (queue st ⟨op, .write (imaged w dataBuf), cih.file, w.offset, w.numBytesIO, none⟩) cih
        checksums w.chunkId (imaged w dataBuf) = some st' ∧ Started st st' op w cih checksums := by
  have hlen : (w.dataBuf.flatten.take w.numBytesIO).length = w.numBytesIO := List.length_take_of_le hal.le
  have hmul : w.offset / CHECKSUM_BLOCKSIZE * CHECKSUM_BLOCKSIZE = w.offset :=
    Nat.div_mul_cancel (Nat.dvd_of_mod_eq_zero hal.start)
  have hblocks : OffsetToChecksumBlockNum w.offset + (blockChecksums (w.dataBuf.flatten.take w.numBytesIO)).length ≤
      MAX_CHUNK_CHECKSUM_BLOCKS := by
    refine length_blockChecksums_le ?_
    rw [OffsetToChecksumBlockNum, hmul, hlen]
    exact hend
  have hused' : 0 ≤ (if cih.chunkSize < w.offset + w.numBytesIO then
        st.mUsedSpace + ((w.offset + w.numBytesIO : ℕ) - cih.chunkSize) else st.mUsedSpace) ∧
      (if cih.chunkSize < w.offset + w.numBytesIO then
        st.mUsedSpace + ((w.offset + w.numBytesIO : ℕ) - cih.chunkSize) else st.mUsedSpace) ≤ st.mTotalSpace := by
    split_ifs with hlt
    · omega
    · exact ⟨hused, hspace⟩
  refine ⟨_, if_pos ⟨hblocks, hused'⟩, ⟨_, Function.update_self _ _ _, fun i hi => ?_, fun i hi => ?_⟩,
    fun c hc => Function.update_of_ne hc _ _, rfl, ?_, rfl, imaged w dataBuf, hdata, rfl⟩
  · refine if_neg fun hle => ?_
    have : w.offset / CHECKSUM_BLOCKSIZE * CHECKSUM_BLOCKSIZE ≤ i * CHECKSUM_BLOCKSIZE :=
      Nat.mul_le_mul_right CHECKSUM_BLOCKSIZE hle.1
    omega
  · have hget : (blockChecksums (w.dataBuf.flatten.take w.numBytesIO))[i]? =
        some (ComputeBlockChecksum (paddedBlock (w.dataBuf.flatten.take w.numBytesIO) 0 i)) := by
      rw [blockChecksums_getElem?, hlen, if_pos hi]
    have hilt := (List.getElem?_eq_some_iff.1 hget).1
    refine (if_pos ⟨Nat.le_add_right _ _, Nat.add_lt_add_left hilt _⟩).trans ?_
    change (blockChecksums _).getD (w.offset / CHECKSUM_BLOCKSIZE + i - w.offset / CHECKSUM_BLOCKSIZE) 0 = _
    rw [Nat.add_sub_cancel_left, List.getD_eq_getElem?_getD, hget, Option.getD_some]
  · change (if cih.chunkSize < w.offset + w.numBytesIO then _ else _) = _
    split_ifs with hlt
    · rw [max_eq_right (by omega)]
      push_cast
      rfl
    · change st.mUsedSpace = _
      rw [max_eq_left (by omega)]
      omega

theorem scheduleWrite_imaged {dataBuf : IOBuffer} (hwpop : w.wpop = none) (hconn : env.connect op.id = true) :
    scheduleWrite env st cih checksums op (imaged w dataBuf) =
      match DiskConnection.Write (env.aio op.id) w.numBytesIO dataBuf with
      | .failed => some (st, -1)
      | .dropped nWrote =>
        (UpdateChecksums st cih checksums w.chunkId (imaged w dataBuf)).map fun st => (st, (nWrote : ℤ))
      | .queued => (UpdateChecksums (queue st ⟨op, .write (imaged w dataBuf), cih.file, w.offset, w.numBytesIO, none⟩)
          cih checksums w.chunkId (imaged w dataBuf)).map fun st => (st, (w.numBytesIO : ℤ)) := by
  have hneg : ¬ (!env.connect op.id) = true := by rw [hconn]; exact Bool.false_ne_true
  have hsame : ∀ f, { imaged w dataBuf with wpop := (imaged w dataBuf).wpop.map f } = imaged w dataBuf := by
    intro f
    rw [show (imaged w dataBuf).wpop = none from hwpop]
    exact congrArg (fun wpop => { imaged w dataBuf with wpop := wpop }) hwpop.symm
  rw [scheduleWrite, if_neg hneg]
  simp only [hsame]
  rfl

variable (checksums) in
/-- A write that starts with a block, fits into the chunk and is not scheduled in part fails and leaves everything as it
is, or it is started. -/
theorem scheduleWrite_aligned {dataBuf : IOBuffer} (hal : Aligned w size) (hend : w.offset + w.numBytesIO ≤ CHUNKSIZE)
    (hused : 0 ≤ st.mUsedSpace) (hspace : st.mUsedSpace ≤ st.mTotalSpace)
    (hfits : st.mUsedSpace + (w.offset + w.numBytesIO - cih.chunkSize) < st.mTotalSpace)
    (hdata : dataBuf.flatten.take w.numBytesIO = w.dataBuf.flatten.take w.numBytesIO)
    (hpart : ∀ i, env.aio op.id ≠ some (i + 1)) :
    (∃ res, res < 0 ∧ scheduleWrite env st cih checksums op (imaged w dataBuf) = some (st, res) ∧
        ¬ (env.connect op.id = true ∧ env.aio op.id = none)) ∨
      ∃ st', scheduleWrite env st cih checksums op (imaged w dataBuf) = some (st', (w.numBytesIO : ℤ)) ∧
        Started st st' op w cih checksums := by
  by_cases hconn : env.connect op.id = true
  · rw [scheduleWrite_imaged hal.wpop hconn]
    cases hw : DiskConnection.Write (env.aio op.id) w.numBytesIO dataBuf with
    | failed =>
      refine Or.inl ⟨-1, by decide, rfl, fun hgood => ?_⟩
      rw [hgood.2, DiskConnection.Write, if_neg hal.pos.ne'] at hw
      exact writeLoop_none hw
    | dropped n =>
      rw [DiskConnection.Write, if_neg hal.pos.ne'] at hw
      obtain ⟨j, hj⟩ := writeLoop_dropped (fun h => absurd h (Nat.lt_irrefl 0)) hw
      exact absurd hj (hpart j)
    | queued =>
      obtain ⟨st', hupdate, hstarted⟩ :=
        UpdateChecksums_aligned op checksums hal hend hused hspace hfits hdata
      exact Or.inr ⟨st', by dsimp only; rw [hupdate]; rfl, hstarted⟩
  · refine Or.inl ⟨-ESERVERBUSY, by decide, ?_, fun hgood => hconn hgood.1⟩
    rw [scheduleWrite, if_pos (by rw [Bool.eq_false_of_not_eq_true hconn]; rfl)]

variable (env op) in
/-- `WriteChunk` of a write that starts with a block. -/
theorem WriteChunk_aligned (hc : st.mChunkTable w.chunkId = some cih) (hk : cih.chunkBlockChecksum = some checksums)
    (hal : Aligned (sized w) cih.chunkSize) (hend : w.offset + WriteOp.numBytesIO (sized w) ≤ CHUNKSIZE)
    (hused : 0 ≤ st.mUsedSpace) (hspace : st.mUsedSpace ≤ st.mTotalSpace) (hpart : ∀ i, env.aio op.id ≠ some (i + 1)) :
    (∃ res, res < 0 ∧ WriteChunk env st op w = some (st, res) ∧
        ¬ (env.connect op.id = true ∧ env.aio op.id = none ∧ (res ≠ -ENOSPC ∨
          st.mUsedSpace + (w.offset + WriteOp.numBytesIO (sized w) - cih.chunkSize) < st.mTotalSpace))) ∨
      ∃ st', WriteChunk env st op w = some (st', (WriteOp.numBytesIO (sized w) : ℤ)) ∧
        Started st st' op (sized w) cih checksums := by
  by_cases hfits : st.mUsedSpace + ((sized w).offset + WriteOp.numBytesIO (sized w) - cih.chunkSize) ≥ st.mTotalSpace
  · refine Or.inl ⟨-ENOSPC, by decide, ?_, fun h => h.2.2.elim (fun hres => hres rfl) hfits.not_gt⟩
    simp only [WriteChunk, hc, hk]
    change (if WriteOp.numBytesIO (sized w) = 0 then _ else if _ then _ else _) = _
    rw [if_neg hal.pos.ne']
    exact if_pos hfits
  · obtain ⟨dataBuf, himage, hdata⟩ := writeImage_aligned hal
    rw [WriteChunk_eq hc hk hal.pos.ne' hfits, himage]
    have hsched := scheduleWrite_aligned checksums hal hend hused hspace (not_le.1 hfits) hdata hpart
    dsimp only
    cases hsched with
    | inl h =>
      obtain ⟨res, hneg, heq, hbad⟩ := h
      exact Or.inl ⟨res, hneg, heq, fun hgood => hbad ⟨hgood.1, hgood.2.1⟩⟩
    | inr h => exact Or.inr h

/-- A write of no bytes is turned away. -/
theorem WriteChunk_empty (hc : st.mChunkTable w.chunkId = some cih) (hk : cih.chunkBlockChecksum = some checksums)
    (h0 : WriteOp.numBytesIO (sized w) = 0) : WriteChunk env st op w = some (st, -EINVAL) := by
  simp only [WriteChunk, hc, hk]
  change (if WriteOp.numBytesIO (sized w) = 0 then _ else _) = _
  rw [if_pos h0]

/-- A block or more from inside a block on is more than `WriteChunk` can take. -/
theorem WriteChunk_unaligned (hc : st.mChunkTable w.chunkId = some cih) (hk : cih.chunkBlockChecksum = some checksums)
    (hstart : w.offset % CHECKSUM_BLOCKSIZE ≠ 0) (hge : CHECKSUM_BLOCKSIZE ≤ WriteOp.numBytesIO (sized w))
    (hfits : st.mUsedSpace + (w.offset + WriteOp.numBytesIO (sized w) - cih.chunkSize) < st.mTotalSpace) :
    WriteChunk env st op w = none := by
  have hpos : WriteOp.numBytesIO (sized w) ≠ 0 := ((by decide : 0 < CHECKSUM_BLOCKSIZE).trans_le hge).ne'
  have hblock : ¬ (OffsetToChecksumBlockStart (sized w).offset = (sized w).offset ∧
      WriteOp.numBytesIO (sized w) ≥ CHECKSUM_BLOCKSIZE) :=
    fun h => hstart (Nat.mod_eq_zero_of_dvd ⟨_, (h.1.symm.trans (Nat.mul_comm _ _))⟩)
  rw [WriteChunk_eq hc hk hpos hfits.not_ge, writeImage, if_neg hblock, if_pos hge]

/-! ## The writes of the replicator -/

variable {r : Replicator} {data : IOBuffer}

theorem numBytesIO_writeOp (h : r.mOffset ≤ CHUNKSIZE) : WriteOp.numBytesIO (sized (r.writeOp data)) =
    min (CHUNKSIZE - r.mOffset) (Replicator.roundDown data.flatten.length) := by
  change min (((CHUNKSIZE : ℤ) - (r.mOffset : ℤ)) % 2 ^ 64).toNat _ = _
  congr 1
  simp only [CHUNKSIZE] at h ⊢
  omega

/-- From the start of a block on, what has been read is written in whole blocks or up to the end of the chunk. -/
theorem writeOp_aligned (hwpop : r.mWriteOp.wpop = none) (hoff : r.mOffset % CHECKSUM_BLOCKSIZE = 0)
    (hle : r.mOffset ≤ CHUNKSIZE) (hpos : 0 < WriteOp.numBytesIO (sized (r.writeOp data)))
    (hsize : CHECKSUM_BLOCKSIZE ≤ data.flatten.length ∨ size ≤ r.mOffset) : Aligned (sized (r.writeOp data)) size := by
  refine ⟨hwpop, hoff, hpos, ?_⟩
  have hn : WriteOp.numBytesIO (sized (r.writeOp data)) =
      min (CHUNKSIZE - r.mOffset) (Replicator.roundDown data.flatten.length) := numBytesIO_writeOp hle
  have hround := Replicator.roundDown_le data.flatten.length
  change WriteOp.numBytesIO (sized (r.writeOp data)) % _ = 0 ∧
      WriteOp.numBytesIO (sized (r.writeOp data)) ≤ data.flatten.length ∨
    WriteOp.numBytesIO (sized (r.writeOp data)) < _ ∧
      WriteOp.numBytesIO (sized (r.writeOp data)) = data.flatten.length ∧ size ≤ r.mOffset
  by_cases hlt : data.flatten.length < CHECKSUM_BLOCKSIZE
  · have hsize := hsize.resolve_left hlt.not_ge
    rw [Replicator.roundDown_of_lt hlt] at hn
    refine Or.inr ⟨by omega, ?_, hsize⟩
    simp only [CHECKSUM_BLOCKSIZE, CHUNKSIZE] at hoff hle hn hlt hpos ⊢
    omega
  · obtain ⟨hmod, hge⟩ := Replicator.roundDown_of_ge (not_lt.1 hlt)
    refine Or.inl ⟨?_, by omega⟩
    simp only [CHECKSUM_BLOCKSIZE, CHUNKSIZE] at hoff hle hn hmod ⊢
    omega

end

/-! ## Disk requests -/

/-- The request of an operation that has just one. -/
theorem takeRequest_of_filter {id : ℕ} {disk : List DiskRequest} {req : DiskRequest} {reqs : List DiskRequest}
    (h : disk.filter (isOf id) = req :: reqs) :
    takeRequest id disk = some (req, disk.eraseP (isOf id)) ∧ (disk.eraseP (isOf id)).filter (isOf id) = reqs := by
  induction disk with
  | nil => cases h
  | cons r disk ih =>
    rw [List.filter_cons] at h
    by_cases hr : isOf id r = true
    · rw [if_pos hr] at h
      obtain ⟨rfl, hrest⟩ := List.cons.inj h
      rw [takeRequest, List.find?_cons_of_pos hr, List.eraseP_cons_of_pos hr]
      exact ⟨rfl, hrest⟩
    · rw [if_neg hr] at h
      obtain ⟨htake, hfilter⟩ := ih h
      rw [takeRequest] at htake ⊢
      rw [List.find?_cons_of_neg hr, List.eraseP_cons_of_neg hr, List.filter_cons_of_neg hr]
      refine ⟨?_, hfilter⟩
      obtain ⟨r', hfind, heq⟩ := Option.map_eq_some_iff.1 htake
      rw [hfind, Option.map_some, (Prod.mk.inj heq).1]

end Kfs.Chunk.Replication
