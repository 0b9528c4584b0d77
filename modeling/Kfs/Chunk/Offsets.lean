import Kfs.Chunk.Manager

/-!
# The offsets of writes

A prepare comes in with any signed offset and any number of bytes. Here `WriteChunk` computes with them in the
arithmetic of the machine. The chunk manager has the write with an offset inside the chunk.

* `Prepare`, `WriteChunk`: a prepare with its data, and what becomes of its write; `none` when an assertion about the
  alignment fails;
* **`WriteChunk_gives`**: inside the chunk this is the `WriteChunk` of the chunk manager;
* `Safe`: the write stays inside the chunk, whatever the disk and the rest of the chunk server do;
* **`safe_iff`**: the writes for which this is so.
-/

namespace Kfs.Chunk.Offsets

/-- What the parse handler accepts and the connection has got the data of; it holds fewer than `2 ^ 31` bytes. -/
structure Prepare where
  offset : ℤ
  dataBuf : IOBuffer
  offset_ge : -2 ^ 63 ≤ offset
  offset_lt : offset < 2 ^ 63
  received : dataBuf.flatten.length < 2 ^ 31

/-- As in a request, the size of the data. -/
def Prepare.numBytes (p : Prepare) : ℕ := p.dataBuf.flatten.length

/-- An entry of the chunk table; the checksums may be unloaded. -/
structure ChunkInfo where
  chunkVersion : ℤ
  chunkSize : ℕ
  chunkBlockChecksum : Option (ℕ → UInt32)

structure State where
  chunk : Option ChunkInfo
  mUsedSpace : ℤ
  mTotalSpace : ℤ

/-- A write of a prepare, and the read of its block once there is one. -/
structure WriteOp where
  prepare : Prepare
  checksum : UInt32
  chunkVersion : ℤ
  rop : Option (ℤ × IOBuffer)

/-- The answers of the disk: whether the file can be opened, whether a read can be scheduled, and how scheduling the
pieces of a write ends. -/
structure Disk where
  connect : Bool
  read : Bool
  write : Queueing

/-- How a call of `WriteChunk` ends: the write is turned away, it finds the checksums unloaded, its block is being read,
the read has failed, the entries of some checksums are set and nothing is written, or data is written at an offset. -/
inductive Result
  | rejected (status : ℤ)
  | unloaded
  | reading
  | readFailed
  | updated (entries : List (ℕ × UInt32))
  | written (offset : ℤ) (data : List UInt8) (entries : List (ℕ × UInt32))

def OffsetToChecksumBlockNum (offset : ℤ) : ℕ := (offset.tdiv CHECKSUM_BLOCKSIZE % 2 ^ 32).toNat

def OffsetToChecksumBlockStart (offset : ℤ) : ℕ :=
  (offset.tdiv CHECKSUM_BLOCKSIZE * CHECKSUM_BLOCKSIZE % 2 ^ 32).toNat

/-- With a negative offset no block is split, and the data goes to the front. -/
def Splice (buf other : IOBuffer) (offset : ℤ) (numBytes : ℕ) : Option IOBuffer :=
  if 0 ≤ offset then IOBuffer.Splice buf other offset.toNat numBytes
  else if other.flatten.length < numBytes then none
  else some (other ++ IOBuffer.Consume (offset + numBytes).toNat buf)

def numBytesIO (offset : ℤ) (numBytes : ℕ) : ℕ := min (((CHUNKSIZE : ℤ) - offset) % 2 ^ 64).toNat numBytes

/-- A write that has its image of the block: the first `extra` bytes are dropped again. -/
def image (w : WriteOp) (block : IOBuffer) : Option (IOBuffer × UInt32) :=
  if block.flatten.length ≠ CHECKSUM_BLOCKSIZE then none
  else
    let extra := w.prepare.offset - OffsetToChecksumBlockStart w.prepare.offset
    some (if extra > 0 then IOBuffer.Consume (extra.bmod (2 ^ 32)).toNat block else block,
      ComputeBlockChecksum block.flatten)

def UpdateChecksums (offset : ℤ) (checksums : List UInt32) : List (ℕ × UInt32) :=
  checksums.zipIdx.map fun (c, i) => (OffsetToChecksumBlockNum (offset + i * CHECKSUM_BLOCKSIZE), c)

/-- The end of `WriteChunk`. -/
def schedule (disk : Disk) (offset : ℤ) (numBytes : ℕ) (dataBuf : IOBuffer) (checksums : List UInt32) : Result :=
  if !disk.connect then .rejected (-ESERVERBUSY)
  else match disk.write with
    | .failed => .rejected (-1)
    | .dropped _ => .updated (UpdateChecksums offset checksums)
    | .queued => .written offset (dataBuf.flatten.take numBytes) (UpdateChecksums offset checksums)

/-- The read of the block that is written to in part. -/
def readBlock (disk : Disk) (cih : ChunkInfo) (w : WriteOp) : Result :=
  if !disk.connect then .readFailed
  else if w.chunkVersion ≠ cih.chunkVersion then .readFailed
  else if !disk.read then .readFailed
  else .reading

/-- The part of `WriteChunk` for a write inside a block. -/
def writeBlock (disk : Disk) (cih : ChunkInfo) (w : WriteOp) (n : ℕ) : Option Result :=
  let offset := w.prepare.offset
  let inBlock := offset.tmod CHECKSUM_BLOCKSIZE
  let finish := fun (block : IOBuffer) =>
    (image w block).map fun (dataBuf, cksum) => schedule disk offset n dataBuf [cksum]
  if OffsetToChecksumBlockStart offset ≥ cih.chunkSize then
    (Splice (IOBuffer.ZeroFill [] CHECKSUM_BLOCKSIZE) w.prepare.dataBuf inBlock n).bind finish
  else match w.rop with
    | none => some (readBlock disk cih w)
    | some (status, dataBuf) =>
      if status < 0 then some .readFailed
      else ((Splice dataBuf w.prepare.dataBuf inBlock n).map ZeroPad).bind finish

/-- The space that is used is compared as a signed 64-bit number. -/
def WriteChunk (disk : Disk) (st : State) (w : WriteOp) : Option Result :=
  match st.chunk with
  | none => some (.rejected (-EBADF))
  | some cih =>
    if cih.chunkBlockChecksum.isNone then some .unloaded
    else
      let offset := w.prepare.offset
      let n := numBytesIO offset w.prepare.numBytes
      if n = 0 then some (.rejected (-EINVAL))
      else if (st.mUsedSpace + (offset + n - cih.chunkSize)).bmod (2 ^ 64) ≥ st.mTotalSpace then
        some (.rejected (-ENOSPC))
      else if OffsetToChecksumBlockStart offset = offset ∧ n ≥ CHECKSUM_BLOCKSIZE then
        if n % CHECKSUM_BLOCKSIZE ≠ 0 then none
        else some (schedule disk offset n w.prepare.dataBuf [w.checksum])
      else if n ≥ CHECKSUM_BLOCKSIZE then none
      else writeBlock disk cih w n

/-! ## Writes that stay inside the chunk -/

/-- No assertion fails, and what is written to disk and to the table lies inside the chunk. -/
def Inside : Option Result → Prop
  | none => False
  | some (.updated entries) => ∀ e ∈ entries, e.1 < MAX_CHUNK_CHECKSUM_BLOCKS
  | some (.written offset data entries) =>
    0 ≤ offset ∧ offset + data.length ≤ CHUNKSIZE ∧ ∀ e ∈ entries, e.1 < MAX_CHUNK_CHECKSUM_BLOCKS
  | some _ => True

/-- The bytes of the block of a write that there are in the chunk. -/
def inChunk (cih : ChunkInfo) (w : WriteOp) : ℕ :=
  min CHECKSUM_BLOCKSIZE (cih.chunkSize - OffsetToChecksumBlockStart w.prepare.offset)

/-- The write is carried out, and again when its block has been read, whatever else has happened to the chunk server in
the meantime. -/
def Safe (st : State) (w : WriteOp) : Prop :=
  ∀ disk, Inside (WriteChunk disk st w) ∧ ∀ cih, st.chunk = some cih → WriteChunk disk st w = some .reading →
    ∀ disk' st' status dataBuf, dataBuf.flatten.length = inChunk cih w →
      Inside (WriteChunk disk' st' { w with rop := some (status, dataBuf) })

/-- A write of whole blocks, or inside a block. -/
def Aligned (p : Prepare) : Prop :=
  ((CHECKSUM_BLOCKSIZE : ℤ) ∣ p.offset ∧ CHECKSUM_BLOCKSIZE ∣ numBytesIO p.offset p.numBytes) ∨
    p.offset % CHECKSUM_BLOCKSIZE + p.numBytes ≤ CHECKSUM_BLOCKSIZE

/-- The write is turned away before it looks at its offset. -/
def TurnedAway (st : State) (p : Prepare) : Prop :=
  st.chunk = none ∨ ∃ cih, st.chunk = some cih ∧ (cih.chunkBlockChecksum = none ∨ numBytesIO p.offset p.numBytes = 0 ∨
    (st.mUsedSpace + (p.offset + numBytesIO p.offset p.numBytes - cih.chunkSize)).bmod (2 ^ 64) ≥ st.mTotalSpace)

/-- The block of the write cannot be read, since the chunk has another version by now. -/
def Outdated (st : State) (p : Prepare) (chunkVersion : ℤ) : Prop :=
  ∃ cih, st.chunk = some cih ∧ numBytesIO p.offset p.numBytes < CHECKSUM_BLOCKSIZE ∧
    OffsetToChecksumBlockStart p.offset < cih.chunkSize ∧ chunkVersion ≠ cih.chunkVersion

variable {st : State} {w : WriteOp} {p : Prepare} {disk : Disk} {cih : ChunkInfo} {offset : ℤ} {n : ℕ}

/-! ## Offsets inside the chunk -/

theorem OffsetToChecksumBlockStart_eq (h₀ : 0 ≤ offset) (h : offset < CHUNKSIZE) :
    (OffsetToChecksumBlockStart offset : ℤ) = offset / CHECKSUM_BLOCKSIZE * CHECKSUM_BLOCKSIZE := by
  rw [OffsetToChecksumBlockStart, Int.tdiv_eq_ediv_of_nonneg h₀]
  simp only [CHECKSUM_BLOCKSIZE, CHUNKSIZE] at h ⊢
  omega

theorem OffsetToChecksumBlockNum_lt (h₀ : 0 ≤ offset) (h : offset < CHUNKSIZE) :
    OffsetToChecksumBlockNum offset < MAX_CHUNK_CHECKSUM_BLOCKS := by
  rw [OffsetToChecksumBlockNum, Int.tdiv_eq_ediv_of_nonneg h₀]
  simp only [CHECKSUM_BLOCKSIZE, CHUNKSIZE, MAX_CHUNK_CHECKSUM_BLOCKS] at h ⊢
  omega

/-- Inside the chunk there is nothing to wrap around. -/
theorem OffsetToChecksumBlockStart_natCast {k : ℕ} (h : k < CHUNKSIZE) :
    OffsetToChecksumBlockStart k = Chunk.OffsetToChecksumBlockStart k := by
  rw [OffsetToChecksumBlockStart, Int.tdiv_eq_ediv_of_nonneg (Int.natCast_nonneg k), Chunk.OffsetToChecksumBlockStart]
  simp only [CHECKSUM_BLOCKSIZE, CHUNKSIZE] at h ⊢
  omega

theorem OffsetToChecksumBlockNum_natCast {k : ℕ} (h : k < CHUNKSIZE) :
    OffsetToChecksumBlockNum k = Chunk.OffsetToChecksumBlockNum k := by
  rw [OffsetToChecksumBlockNum, Int.tdiv_eq_ediv_of_nonneg (Int.natCast_nonneg k), Chunk.OffsetToChecksumBlockNum]
  simp only [CHECKSUM_BLOCKSIZE, CHUNKSIZE] at h ⊢
  omega

theorem numBytesIO_le (h₀ : 0 ≤ offset) (h : offset < CHUNKSIZE) {numBytes : ℕ} :
    offset + numBytesIO offset numBytes ≤ CHUNKSIZE := by
  rw [ numBytesIO]
  simp only [CHUNKSIZE] at h ⊢
  omega

theorem numBytesIO_self {numBytes : ℕ} (h₀ : 0 ≤ offset) (h : offset + numBytes ≤ CHUNKSIZE) :
    numBytesIO offset numBytes = numBytes := by
  rw [ numBytesIO]
  simp only [CHUNKSIZE] at h ⊢
  omega

/-- One checksum, of the block of the offset. -/
theorem UpdateChecksums_one {c : UInt32} :
    UpdateChecksums offset [c] = [(OffsetToChecksumBlockNum offset, c)] := by
  simp [UpdateChecksums]

theorem schedule_inside {dataBuf : IOBuffer} {c : UInt32} (h₀ : 0 ≤ offset) (h : offset < CHUNKSIZE)
    (hn : offset + n ≤ CHUNKSIZE) : Inside (some (schedule disk offset n dataBuf [c])) := by
  have hentry : ∀ e ∈ UpdateChecksums offset [c], e.1 < MAX_CHUNK_CHECKSUM_BLOCKS := by
    rw [UpdateChecksums_one]
    intro e he
    rw [List.mem_singleton.1 he]
    exact OffsetToChecksumBlockNum_lt h₀ h
  unfold schedule
  split_ifs
  · trivial
  · split
    · trivial
    · exact hentry
    · refine ⟨h₀, ?_, hentry⟩
      rw [List.length_take]
      omega

/-- A disk that does what it is asked for. -/
def Disk.fine : Disk := ⟨true, true, .queued⟩

theorem schedule_fine {dataBuf : IOBuffer} {checksums : List UInt32}
    (h : Inside (some (schedule Disk.fine offset n dataBuf checksums))) : 0 ≤ offset ∧ offset ≤ CHUNKSIZE := by
  obtain ⟨h₀, hle, -⟩ := h
  exact ⟨h₀, by omega⟩

/-! ## Images of blocks -/

theorem Splice_length {buf other block : IOBuffer} (h₀ : 0 ≤ offset)
    (h : Splice buf other offset n = some block) : block.flatten.length =
      offset.toNat + other.flatten.length + (buf.flatten.length - (offset.toNat + n)) := by
  rw [Splice, if_pos h₀, IOBuffer.Splice] at h
  split_ifs at h with hlen hshort
  · obtain rfl := Option.some.inj h
    simp only [List.flatten_append, List.length_append, IOBuffer.front_flatten, IOBuffer.Consume_flatten,
      List.length_take, List.length_drop, IOBuffer.ZeroFill, List.flatten_singleton, List.length_replicate]
    omega
  · obtain rfl := Option.some.inj h
    simp only [List.flatten_append, List.length_append, IOBuffer.front_flatten, IOBuffer.Consume_flatten,
      List.length_take, List.length_drop]
    omega

theorem Splice_isSome {buf other : IOBuffer} (h : n ≤ other.flatten.length) :
    ∃ block, Splice buf other offset n = some block := by
  unfold Splice
  split_ifs with h₀ hlen
  · rw [IOBuffer.Splice, if_neg h.not_gt]
    exact ⟨_, rfl⟩
  · exact absurd h hlen.not_ge
  · exact ⟨_, rfl⟩

theorem Splice_le {buf other block : IOBuffer} (h : Splice buf other offset n = some block) :
    n ≤ other.flatten.length := by
  unfold Splice at h
  split_ifs at h with h₀ hlen
  · rw [IOBuffer.Splice] at h
    exact not_lt.1 (Option.ite_none_left_eq_some.1 h).1
  · exact not_lt.1 hlen

theorem ZeroPad_length {block : IOBuffer} (h₀ : 0 < block.flatten.length) :
    (ZeroPad block).flatten.length = CHECKSUM_BLOCKSIZE ↔ block.flatten.length ≤ CHECKSUM_BLOCKSIZE := by
  rw [ZeroPad_flatten, List.length_append, List.length_replicate]
  simp only [CHECKSUM_BLOCKSIZE]
  omega

theorem image_of_length {block : IOBuffer} (h : block.flatten.length = CHECKSUM_BLOCKSIZE) :
    ∃ dataBuf c, image w block = some (dataBuf, c) := by
  rw [image, if_neg (not_not.2 h)]
  exact ⟨_, _, rfl⟩

theorem image_length {block : IOBuffer} {r : IOBuffer × UInt32} (h : image w block = some r) :
    block.flatten.length = CHECKSUM_BLOCKSIZE := by
  rw [image] at h
  split_ifs at h with hlen
  exact not_not.1 hlen

/-! ## The write inside a block -/

/-- The image of the block as `writeBlock` goes on with it. -/
def finish (disk : Disk) (w : WriteOp) (n : ℕ) (block : IOBuffer) : Option Result :=
  (image w block).map fun (dataBuf, cksum) => schedule disk w.prepare.offset n dataBuf [cksum]

theorem writeBlock_eq : writeBlock disk cih w n =
    if OffsetToChecksumBlockStart w.prepare.offset ≥ cih.chunkSize then
      (Splice (IOBuffer.ZeroFill [] CHECKSUM_BLOCKSIZE) w.prepare.dataBuf
        (w.prepare.offset.tmod CHECKSUM_BLOCKSIZE) n).bind (finish disk w n)
    else match w.rop with
      | none => some (readBlock disk cih w)
      | some (status, dataBuf) =>
        if status < 0 then some .readFailed
        else ((Splice dataBuf w.prepare.dataBuf (w.prepare.offset.tmod CHECKSUM_BLOCKSIZE) n).map ZeroPad).bind
          (finish disk w n) := rfl

theorem finish_inside {block : IOBuffer} (hlen : block.flatten.length = CHECKSUM_BLOCKSIZE) (h₀ : 0 ≤ w.prepare.offset)
    (h : w.prepare.offset < CHUNKSIZE) (hn : w.prepare.offset + n ≤ CHUNKSIZE) : Inside (finish disk w n block) := by
  obtain ⟨dataBuf, c, himage⟩ := image_of_length (w := w) hlen
  rw [finish, himage]
  exact schedule_inside h₀ h hn

theorem finish_fine {block : Option IOBuffer} (h : Inside (block.bind (finish Disk.fine w n))) :
    ∃ b, block = some b ∧ b.flatten.length = CHECKSUM_BLOCKSIZE ∧ 0 ≤ w.prepare.offset ∧
      w.prepare.offset ≤ CHUNKSIZE := by
  cases block with
  | none => exact h.elim
  | some b =>
    cases himage : image w b with
    | none =>
      simp only [Option.bind_some, finish, himage] at h
      exact h.elim
    | some r =>
      simp only [Option.bind_some, finish, himage] at h
      exact ⟨b, rfl, image_length himage, schedule_fine h⟩

theorem zeroBlock_length : (IOBuffer.ZeroFill [] CHECKSUM_BLOCKSIZE).flatten.length = CHECKSUM_BLOCKSIZE := by
  rw [IOBuffer.ZeroFill, List.nil_append, List.flatten_singleton, List.length_replicate]

/-- A write that fits into its block. -/
theorem writeBlock_inside (h₀ : 0 ≤ w.prepare.offset) (h : w.prepare.offset < CHUNKSIZE) (hn : 0 < n)
    (hfit : w.prepare.offset % CHECKSUM_BLOCKSIZE + w.prepare.numBytes ≤ CHECKSUM_BLOCKSIZE)
    (hself : n = w.prepare.numBytes) (hrop : ∀ r, w.rop = some r → r.2.flatten.length ≤ CHECKSUM_BLOCKSIZE) :
    Inside (writeBlock disk cih w n) := by
  have hmod : w.prepare.offset.tmod CHECKSUM_BLOCKSIZE = w.prepare.offset % CHECKSUM_BLOCKSIZE :=
    Int.tmod_eq_emod_of_nonneg h₀
  have hlen : w.prepare.dataBuf.flatten.length = n := hself.symm
  have hmod₀ : 0 ≤ w.prepare.offset % CHECKSUM_BLOCKSIZE := Int.emod_nonneg _ (by decide)
  have hend : w.prepare.offset + n ≤ CHUNKSIZE := by
    simp only [CHECKSUM_BLOCKSIZE, CHUNKSIZE] at h hfit ⊢
    omega
  have hspliced : ∀ {buf block : IOBuffer}, buf.flatten.length ≤ CHECKSUM_BLOCKSIZE →
      Splice buf w.prepare.dataBuf (w.prepare.offset.tmod CHECKSUM_BLOCKSIZE) n = some block →
        n ≤ block.flatten.length ∧ buf.flatten.length ≤ block.flatten.length ∧
          block.flatten.length ≤ CHECKSUM_BLOCKSIZE := by
    intro buf block hbuf hsplice
    rw [Splice_length (by rw [hmod]; exact hmod₀) hsplice, hlen, hmod]
    omega
  rw [writeBlock_eq]
  split_ifs with hpast
  · obtain ⟨block, hsplice⟩ : ∃ block, Splice (IOBuffer.ZeroFill [] CHECKSUM_BLOCKSIZE) w.prepare.dataBuf
        (w.prepare.offset.tmod CHECKSUM_BLOCKSIZE) n = some block := Splice_isSome hlen.ge
    obtain ⟨-, hge, hle⟩ := hspliced zeroBlock_length.le hsplice
    rw [hsplice, Option.bind_some]
    exact finish_inside (le_antisymm hle (zeroBlock_length ▸ hge)) h₀ h hend
  · cases hr : w.rop with
    | none =>
      unfold readBlock
      dsimp only
      split_ifs <;> trivial
    | some r =>
      obtain ⟨status, dataBuf⟩ := r
      dsimp only
      split_ifs
      · trivial
      · obtain ⟨block, hsplice⟩ : ∃ block, Splice dataBuf w.prepare.dataBuf
            (w.prepare.offset.tmod CHECKSUM_BLOCKSIZE) n = some block := Splice_isSome hlen.ge
        obtain ⟨hpos, -, hle⟩ := hspliced (hrop _ hr) hsplice
        rw [hsplice, Option.map_some, Option.bind_some]
        exact finish_inside ((ZeroPad_length (hn.trans_le hpos)).2 hle) h₀ h hend

/-- A write whose image of the block is right fits into its block. -/
theorem fits_of_image {buf b : IOBuffer} (h₀ : 0 ≤ w.prepare.offset)
    (hsplice : Splice buf w.prepare.dataBuf (w.prepare.offset.tmod CHECKSUM_BLOCKSIZE) n = some b)
    (hb : b.flatten.length ≤ CHECKSUM_BLOCKSIZE) :
    w.prepare.offset % CHECKSUM_BLOCKSIZE + w.prepare.numBytes ≤ CHECKSUM_BLOCKSIZE := by
  have hmod : w.prepare.offset.tmod CHECKSUM_BLOCKSIZE = w.prepare.offset % CHECKSUM_BLOCKSIZE :=
    Int.tmod_eq_emod_of_nonneg h₀
  have hmod₀ : 0 ≤ w.prepare.offset % CHECKSUM_BLOCKSIZE := Int.emod_nonneg _ (by decide)
  rw [Splice_length (by rw [hmod]; exact hmod₀) hsplice, hmod] at hb
  have hlen : w.prepare.numBytes = w.prepare.dataBuf.flatten.length := rfl
  omega

/-! ## The write of the chunk manager -/

/-- What a write sees of the chunk server. -/
def State.of (st : Cs) (c : ℕ) : State where
  chunk := (st.mChunkTable c).map fun cih => ⟨cih.chunkVersion, cih.chunkSize, cih.chunkBlockChecksum⟩
  mUsedSpace := st.mUsedSpace
  mTotalSpace := st.mTotalSpace

/-- A write of the chunk manager that belongs to a prepare and starts inside the chunk. -/
structure Same (w : WriteOp) (op : Chunk.WriteOp) : Prop where
  offset : w.prepare.offset = op.offset
  inside : op.offset < CHUNKSIZE
  dataBuf : w.prepare.dataBuf = op.dataBuf
  numBytes : w.prepare.numBytes = op.numBytes
  owned : op.wpop.isSome
  checksums : op.checksums = [w.checksum]
  chunkVersion : w.chunkVersion = op.chunkVersion
  rop : w.rop = op.rop.map fun rop => (rop.status, rop.dataBuf)

/-- One checksum of the chunk has been set. -/
def Entered (st st' : Cs) (c : ℕ) (entries : List (ℕ × UInt32)) : Prop :=
  ∃ cih checksums cih' block cksum, st.mChunkTable c = some cih ∧ cih.chunkBlockChecksum = some checksums ∧
    entries = [(block, cksum)] ∧ st'.mChunkTable c = some cih' ∧
    cih'.chunkBlockChecksum = some (Function.update checksums block cksum)

/-- What a result is in the chunk manager: the state after the call and the value that it returns. -/
def Result.Gives (st : Cs) (clnt : KfsOp) (c : ℕ) (st' : Cs) (res : ℤ) : Result → Prop
  | .rejected status => st' = st ∧ res = status
  | .unloaded => False
  | .reading => res = 0
  | .readFailed => st' = st ∧ res = 0
  | .updated entries => st'.disk = st.disk ∧ Entered st st' c entries
  | .written offset data entries => Entered st st' c entries ∧ ∃ op file, op.dataBuf.flatten.take op.numBytesIO = data ∧
      offset = op.offset ∧ st'.disk = st.disk ++ [⟨clnt, .write op, file, op.offset, op.numBytesIO, none⟩]

section Manager

open ChunkManager (Image)

variable {env : Env} {cs cs' : Cs} {clnt : KfsOp} {op : Chunk.WriteOp} {res : ℤ}

theorem entered {cih : ChunkInfoHandle} {checksums : ℕ → UInt32} {c : UInt32}
    (hc : cs.mChunkTable op.chunkId = some cih) (hk : cih.chunkBlockChecksum = some checksums)
    (hin : op.offset < CHUNKSIZE) (hone : op.checksums = [c])
    (h : ChunkManager.UpdateChecksums cs cih checksums op.chunkId op = some cs') :
    cs'.disk = cs.disk ∧ Entered cs cs' op.chunkId (UpdateChecksums op.offset [c]) := by
  rw [ChunkManager.UpdateChecksums, hone] at h
  obtain ⟨-, h⟩ := Option.ite_none_right_eq_some.1 h
  obtain rfl := Option.some.inj h
  refine ⟨rfl, cih, checksums, _, _, c, hc, hk, UpdateChecksums_one, Function.update_self .., ?_⟩
  rw [OffsetToChecksumBlockNum_natCast hin]
  refine congrArg some (funext fun i => ?_)
  by_cases hi : i = Chunk.OffsetToChecksumBlockNum op.offset
  · subst hi
    simp
  · rw [Function.update_of_ne hi, if_neg]
    rw [List.length_singleton]
    omega

/-- The answers of the disk to a write. -/
def Disk.of (env : Env) (clnt : KfsOp) (op : Chunk.WriteOp) : Disk :=
  ⟨env.connect clnt.id, true, DiskConnection.Write (env.aio clnt.id) op.numBytesIO op.dataBuf⟩

theorem scheduleWrite_gives {cih : ChunkInfoHandle} {checksums : ℕ → UInt32} {c : UInt32}
    (hc : cs.mChunkTable op.chunkId = some cih) (hk : cih.chunkBlockChecksum = some checksums)
    (hin : op.offset < CHUNKSIZE) (hone : op.checksums = [c])
    (h : ChunkManager.scheduleWrite env cs cih checksums clnt op = some (cs', res)) :
    (schedule (Disk.of env clnt op) op.offset op.numBytesIO op.dataBuf [c]).Gives cs clnt op.chunkId cs' res := by
  unfold ChunkManager.scheduleWrite at h
  unfold schedule Disk.of
  dsimp only
  by_cases hconn : (!env.connect clnt.id) = true
  · rw [if_pos hconn] at h ⊢
    obtain ⟨rfl, rfl⟩ := Prod.mk.inj (Option.some.inj h)
    exact ⟨rfl, rfl⟩
  · rw [if_neg hconn] at h ⊢
    cases hwrite : DiskConnection.Write (env.aio clnt.id) op.numBytesIO op.dataBuf with
    | failed =>
      rw [hwrite] at h
      obtain ⟨rfl, rfl⟩ := Prod.mk.inj (Option.some.inj h)
      exact ⟨rfl, rfl⟩
    | dropped nWrote =>
      rw [hwrite] at h
      obtain ⟨st, hst, heq⟩ := Option.map_eq_some_iff.1 h
      obtain ⟨rfl, rfl⟩ := Prod.mk.inj heq
      exact entered hc hk hin hone hst
    | queued =>
      rw [hwrite] at h
      obtain ⟨st, hst, heq⟩ := Option.map_eq_some_iff.1 h
      obtain ⟨rfl, rfl⟩ := Prod.mk.inj heq
      obtain ⟨hdisk, hentered⟩ := entered (by exact hc) hk hin hone hst
      exact ⟨hentered, { op with wpop := op.wpop.map fun p => { p with
        status := if op.rop.isNone then (op.numBytesIO : ℤ) else 0 } }, _, rfl, rfl, hdisk⟩

theorem schedule_flatten {offset : ℤ} {n : ℕ} {dataBuf dataBuf' : IOBuffer} (h : dataBuf.flatten = dataBuf'.flatten)
    (disk : Disk) (checksums : List UInt32) :
    schedule disk offset n dataBuf checksums = schedule disk offset n dataBuf' checksums := by
  rw [schedule, h, schedule]

/-- The image of a block, which the chunk manager has with the write. -/
theorem blockImage_finish {block : IOBuffer} {op' : Chunk.WriteOp} (hs : Same w op)
    (h : ChunkManager.blockImage block op = some op') : op'.chunkId = op.chunkId ∧ op'.offset = op.offset ∧
      op'.numBytesIO = op.numBytesIO ∧ ∃ b c, op'.checksums = [c] ∧
        Splice block w.prepare.dataBuf (w.prepare.offset.tmod CHECKSUM_BLOCKSIZE) op.numBytesIO = some b ∧
        (ZeroPad b).flatten.length = CHECKSUM_BLOCKSIZE ∧ ∀ disk, finish disk w op.numBytesIO (ZeroPad b) =
          some (schedule disk w.prepare.offset op.numBytesIO op'.dataBuf [c]) := by
  have hmod : w.prepare.offset.tmod CHECKSUM_BLOCKSIZE = ((op.offset % CHECKSUM_BLOCKSIZE : ℕ) : ℤ) := by
    rw [hs.offset, Int.tmod_eq_emod_of_nonneg (Int.natCast_nonneg _)]
    rfl
  have hstart := OffsetToChecksumBlockStart_natCast hs.inside
  have hle : Chunk.OffsetToChecksumBlockStart op.offset ≤ op.offset := Nat.div_mul_le_self _ _
  rw [ChunkManager.blockImage] at h
  cases hsplice : IOBuffer.Splice block op.dataBuf (op.offset % CHECKSUM_BLOCKSIZE) op.numBytesIO with
  | none =>
    rw [hsplice] at h
    cases h
  | some b =>
    rw [hsplice] at h
    obtain ⟨hlen, h⟩ := Option.ite_none_left_eq_some.1 h
    obtain rfl := Option.some.inj h
    refine ⟨rfl, rfl, rfl, b, _, rfl, ?_, not_not.1 hlen, fun disk => ?_⟩
    · rw [Splice, hmod, if_pos (Int.natCast_nonneg _), hs.dataBuf]
      exact hsplice
    · rw [finish, image, if_neg hlen, Option.map_some, hs.offset, hstart]
      refine congrArg some (schedule_flatten ?_ _ _)
      by_cases hextra : (op.offset : ℤ) - Chunk.OffsetToChecksumBlockStart op.offset > 0
      · rw [if_pos hextra]
        congr 2
        have hin := hs.inside
        simp only [CHUNKSIZE] at hin
        rw [Int.bmod_eq_of_le (by omega) (by omega)]
        omega
      · rw [if_neg hextra, IOBuffer.Consume_flatten, show op.offset - Chunk.OffsetToChecksumBlockStart op.offset = 0 by
          omega, List.drop_zero]

/-- The part of `WriteChunk` after the checks. -/
theorem writeImage_gives {cih : ChunkInfoHandle} {checksums : ℕ → UInt32} {op' : Chunk.WriteOp}
    (hc : cs.mChunkTable op.chunkId = some cih) (hk : cih.chunkBlockChecksum = some checksums) (hs : Same w op)
    (hshort : op.numBytesIO < CHECKSUM_BLOCKSIZE)
    (himage : ChunkManager.writeImage cih.chunkSize op = some (.ready op'))
    (h : ChunkManager.scheduleWrite env cs cih checksums clnt op' = some (cs', res)) :
    ∃ r, writeBlock (Disk.of env clnt op') ⟨cih.chunkVersion, cih.chunkSize, cih.chunkBlockChecksum⟩ w op.numBytesIO =
      some r ∧ r.Gives cs clnt op.chunkId cs' res := by
  have hstart := OffsetToChecksumBlockStart_natCast hs.inside
  have hend : ∀ {block : IOBuffer}, ChunkManager.blockImage block op = some op' → ∃ b,
      Splice block w.prepare.dataBuf (w.prepare.offset.tmod CHECKSUM_BLOCKSIZE) op.numBytesIO = some b ∧
      (ZeroPad b).flatten.length = CHECKSUM_BLOCKSIZE ∧ ∃ r, finish (Disk.of env clnt op') w op.numBytesIO (ZeroPad b) =
        some r ∧ r.Gives cs clnt op.chunkId cs' res := by
    intro block hblock
    obtain ⟨hid, hoff, hn, b, c, hone, hsplice, hlen, hfinish⟩ := blockImage_finish hs hblock
    have hgives := scheduleWrite_gives (by rw [hid]; exact hc) hk (by rw [hoff]; exact hs.inside) hone h
    rw [hid, hoff, hn, ← hs.offset] at hgives
    exact ⟨b, hsplice, hlen, _, hfinish _, hgives⟩
  rw [ChunkManager.writeImage, if_neg fun h => hshort.not_ge h.2, if_neg hshort.not_ge] at himage
  rw [writeBlock_eq, hs.offset, hstart]
  rw [hs.offset] at hend
  by_cases hpast : Chunk.OffsetToChecksumBlockStart op.offset ≥ cih.chunkSize
  · rw [if_pos hpast] at himage ⊢
    obtain ⟨op₁, hblock, heq⟩ := Option.map_eq_some_iff.1 himage
    obtain rfl := Image.ready.inj heq
    obtain ⟨b, hsplice, hlen, hr⟩ := hend hblock
    -- a block of zeros is full, and so there is nothing to pad
    have hfull : ZeroPad b = b := by
      have hge := Splice_length (Int.tmod_nonneg _ (Int.natCast_nonneg _)) hsplice
      have hle := Splice_le hsplice
      rw [zeroBlock_length] at hge
      rw [ZeroPad_flatten, List.length_append, List.length_replicate] at hlen
      rw [ZeroPad, if_pos]
      simp only [CHECKSUM_BLOCKSIZE] at hge hlen ⊢
      omega
    rw [hsplice, Option.bind_some, ← hfull]
    exact hr
  · rw [if_neg hpast] at himage ⊢
    rw [hs.rop]
    cases hrop : op.rop with
    | none =>
      rw [hrop] at himage
      cases himage
    | some rop =>
      rw [hrop] at himage
      dsimp only at himage
      rw [Option.map_some]
      dsimp only
      obtain ⟨hok, himage⟩ : ¬ rop.status < 0 ∧
          Option.map Image.ready (ChunkManager.blockImage rop.dataBuf op) = some (.ready op') := by
        split_ifs at himage with hok
        · cases himage
        · exact ⟨hok, himage⟩
      rw [if_neg hok]
      obtain ⟨op₁, hblock, heq⟩ := Option.map_eq_some_iff.1 himage
      obtain rfl := Image.ready.inj heq
      obtain ⟨b, hsplice, -, hr⟩ := hend hblock
      rw [hsplice, Option.map_some, Option.bind_some]
      exact hr

/-- The block is read for a write that does not have it. -/
theorem readBlock_done (h : ChunkManager.readBlock env cs clnt op = some (cs', res)) {cih : ChunkInfoHandle}
    (hc : cs.mChunkTable op.chunkId = some cih) : res = 0 ∧ op.chunkVersion = cih.chunkVersion := by
  rw [ChunkManager.readBlock] at h
  split at h
  · cases h
  · rename_i st' res' hread
    obtain ⟨hneg, h⟩ := Option.ite_none_left_eq_some.1 h
    obtain ⟨rfl, rfl⟩ := Prod.mk.inj (Option.some.inj h)
    refine ⟨rfl, not_ne_iff.1 fun hne => hneg ?_⟩
    -- with another version the read is turned away
    rw [ChunkManager.scheduleRead] at hread
    simp only [show (ChunkManager.issue cs (.readBlock clnt.id)).mChunkTable op.chunkId = some cih from hc] at hread
    by_cases hconn : (!env.connect clnt.id) = true
    · rw [if_pos hconn] at hread
      obtain ⟨-, rfl⟩ := Prod.mk.inj (Option.some.inj hread)
      decide
    · rw [if_neg hconn] at hread
      cases hk : cih.chunkBlockChecksum with
      | none =>
        rw [hk] at hread
        cases hread
      | some checksums =>
        simp only [hk, ReadChunk, if_pos hne] at hread
        obtain ⟨-, rfl⟩ := Prod.mk.inj (Option.some.inj hread)
        decide

theorem writeImage_whole (hs : Same w op) (chunkSize : ℕ)
    (hwhole : Chunk.OffsetToChecksumBlockStart op.offset = op.offset ∧ op.numBytesIO ≥ CHECKSUM_BLOCKSIZE)
    {image : Image} (h : ChunkManager.writeImage chunkSize op = some image) :
    op.numBytesIO % CHECKSUM_BLOCKSIZE = 0 ∧ image = .ready op := by
  rw [ChunkManager.writeImage, if_pos hwhole] at h
  obtain ⟨hmod, h⟩ := Option.ite_none_left_eq_some.1 h
  obtain ⟨p, hp⟩ := Option.isSome_iff_exists.1 hs.owned
  rw [hp] at h
  obtain ⟨-, h⟩ := Option.ite_none_right_eq_some.1 h
  exact ⟨not_not.1 hmod, (Option.some.inj h).symm⟩

theorem writeImage_other {chunkSize : ℕ} {image : Image}
    (hwhole : ¬ (Chunk.OffsetToChecksumBlockStart op.offset = op.offset ∧ op.numBytesIO ≥ CHECKSUM_BLOCKSIZE))
    (h : ChunkManager.writeImage chunkSize op = some image) : op.numBytesIO < CHECKSUM_BLOCKSIZE ∧
      (image = .read → Chunk.OffsetToChecksumBlockStart op.offset < chunkSize ∧ op.rop = none) ∧
      (image = .failed → Chunk.OffsetToChecksumBlockStart op.offset < chunkSize ∧
        ∃ rop, op.rop = some rop ∧ rop.status < 0) := by
  rw [ChunkManager.writeImage, if_neg hwhole] at h
  obtain ⟨hshort, h⟩ := Option.ite_none_left_eq_some.1 h
  refine ⟨not_le.1 hshort, ?_⟩
  have hready : ∀ {x : Option Chunk.WriteOp}, x.map Image.ready = some image → image ≠ .read ∧ image ≠ .failed := by
    intro x hx
    obtain ⟨op', -, rfl⟩ := Option.map_eq_some_iff.1 hx
    exact ⟨nofun, nofun⟩
  by_cases hpast : Chunk.OffsetToChecksumBlockStart op.offset ≥ chunkSize
  · rw [if_pos hpast] at h
    exact ⟨fun himage => absurd himage (hready h).1, fun himage => absurd himage (hready h).2⟩
  · rw [if_neg hpast] at h
    cases hrop : op.rop with
    | none =>
      rw [hrop] at h
      obtain rfl := Option.some.inj h
      exact ⟨fun _ => ⟨not_le.1 hpast, rfl⟩, nofun⟩
    | some rop =>
      rw [hrop] at h
      dsimp only at h
      by_cases hneg : rop.status < 0
      · rw [if_pos hneg] at h
        obtain rfl := Option.some.inj h
        exact ⟨nofun, fun _ => ⟨not_le.1 hpast, rop, rfl, hneg⟩⟩
      · rw [if_neg hneg] at h
        exact ⟨fun himage => absurd himage (hready h).1, fun himage => absurd himage (hready h).2⟩

/-- **What the chunk manager does with a write inside the chunk is what `WriteChunk` does here, for some answers of the
disk.** -/
theorem WriteChunk_gives (hs : Same w op) (hused : 0 ≤ cs.mUsedSpace ∧ cs.mUsedSpace < 2 ^ 62)
    (hsize : ∀ cih, cs.mChunkTable op.chunkId = some cih → cih.chunkSize ≤ CHUNKSIZE)
    (h : ChunkManager.WriteChunk env cs clnt op = some (cs', res)) :
    ∃ disk r, WriteChunk disk (State.of cs op.chunkId) w = some r ∧ r.Gives cs clnt op.chunkId cs' res := by
  have hn : numBytesIO op.offset op.numBytes = ChunkManager.numBytesIO op.offset op.numBytes := rfl
  have hstart := OffsetToChecksumBlockStart_natCast hs.inside
  cases hc : cs.mChunkTable op.chunkId with
  | none =>
    simp only [ChunkManager.WriteChunk, hc] at h
    obtain ⟨rfl, rfl⟩ := Prod.mk.inj (Option.some.inj h)
    exact ⟨Disk.fine, .rejected (-EBADF), by simp [WriteChunk, State.of, hc], rfl, rfl⟩
  | some cih =>
    cases hk : cih.chunkBlockChecksum with
    | none =>
      simp only [ChunkManager.WriteChunk, hc, hk] at h
      cases h
    | some checksums =>
      simp only [ChunkManager.WriteChunk, hc, hk] at h
      simp only [WriteChunk, State.of, hc, hk, Option.map_some, Option.isNone_some, Bool.false_eq_true, if_false,
        hs.offset, hs.numBytes, hn, hstart]
      set n := ChunkManager.numBytesIO op.offset op.numBytes with hndef
      have hspace : (cs.mUsedSpace + (op.offset + n - cih.chunkSize)).bmod (2 ^ 64) =
          cs.mUsedSpace + (op.offset + n - cih.chunkSize) := by
        have hin := hs.inside
        have hle := hsize cih hc
        have hfit : n ≤ CHUNKSIZE := by
          rw [hndef, ChunkManager.numBytesIO]
          simp only [CHUNKSIZE] at hin ⊢
          omega
        simp only [CHUNKSIZE] at hin hle hfit
        exact Int.bmod_eq_of_le (by omega) (by omega)
      rw [hspace]
      set op₁ : Chunk.WriteOp := { op with numBytesIO := n } with hop
      have hs₁ : Same w op₁ := ⟨hs.offset, hs.inside, hs.dataBuf, hs.numBytes, hs.owned, hs.checksums, hs.chunkVersion,
        hs.rop⟩
      by_cases h0 : n = 0
      · rw [if_pos h0] at h
        simp only [if_pos h0]
        obtain ⟨rfl, rfl⟩ := Prod.mk.inj (Option.some.inj h)
        exact ⟨Disk.fine, _, rfl, rfl, rfl⟩
      rw [if_neg h0] at h
      simp only [if_neg h0]
      by_cases hfull : cs.mUsedSpace + (op.offset + n - cih.chunkSize) ≥ cs.mTotalSpace
      · rw [if_pos hfull] at h
        simp only [if_pos hfull]
        obtain ⟨rfl, rfl⟩ := Prod.mk.inj (Option.some.inj h)
        exact ⟨Disk.fine, _, rfl, rfl, rfl⟩
      rw [if_neg hfull] at h
      simp only [if_neg hfull, Int.natCast_inj]
      cases himage : ChunkManager.writeImage cih.chunkSize op₁ with
      | none =>
        rw [himage] at h
        cases h
      | some image =>
        rw [himage] at h
        by_cases hwhole : Chunk.OffsetToChecksumBlockStart op.offset = op.offset ∧ n ≥ CHECKSUM_BLOCKSIZE
        · obtain ⟨hmod, rfl⟩ := writeImage_whole hs₁ cih.chunkSize hwhole himage
          have hmod : n % CHECKSUM_BLOCKSIZE = 0 := hmod
          simp only [if_pos hwhole, hmod, ne_eq, not_true_eq_false, if_false, hs.dataBuf]
          exact ⟨Disk.of env clnt op₁, _, rfl, scheduleWrite_gives hc hk hs₁.inside hs₁.checksums h⟩
        · obtain ⟨hshort, hread, hfailed⟩ := writeImage_other (by exact hwhole) himage
          have hshort : n < CHECKSUM_BLOCKSIZE := hshort
          simp only [if_neg hwhole, if_neg (not_le.2 hshort)]
          cases image with
          | ready op' =>
            obtain ⟨r, hr⟩ := writeImage_gives (by exact hc) hk hs₁ hshort himage h
            exact ⟨Disk.of env clnt op', r, by rwa [hk] at hr⟩
          | read =>
            obtain ⟨hpast, hrop⟩ := hread rfl
            obtain ⟨rfl, hversion⟩ :=
              readBlock_done (show ChunkManager.readBlock env cs clnt op₁ = some (cs', res) from h) hc
            refine ⟨Disk.fine, .reading, ?_, rfl⟩
            rw [writeBlock_eq, hs.offset, hstart, if_neg (not_le.2 hpast), hs₁.rop, hrop]
            simp [readBlock, Disk.fine, hs₁.chunkVersion, hversion]
          | failed =>
            obtain ⟨hpast, rop, hrop, hneg⟩ := hfailed rfl
            obtain ⟨rfl, rfl⟩ := Prod.mk.inj (Option.some.inj h)
            refine ⟨Disk.fine, .readFailed, ?_, rfl, rfl⟩
            rw [writeBlock_eq, hs.offset, hstart, if_neg (not_le.2 hpast), hs₁.rop, hrop]
            exact if_pos hneg

end Manager

/-! ## Which writes are safe -/

/-- What `WriteChunk` does with a write that is not turned away. -/
theorem WriteChunk_eq (hc : st.chunk = some cih) (h : ¬ TurnedAway st w.prepare) : WriteChunk disk st w =
    if OffsetToChecksumBlockStart w.prepare.offset = w.prepare.offset ∧
        numBytesIO w.prepare.offset w.prepare.numBytes ≥ CHECKSUM_BLOCKSIZE then
      if numBytesIO w.prepare.offset w.prepare.numBytes % CHECKSUM_BLOCKSIZE ≠ 0 then none
      else some (schedule disk w.prepare.offset ( numBytesIO w.prepare.offset w.prepare.numBytes) w.prepare.dataBuf
        [w.checksum])
    else if numBytesIO w.prepare.offset w.prepare.numBytes ≥ CHECKSUM_BLOCKSIZE then none
    else writeBlock disk cih w ( numBytesIO w.prepare.offset w.prepare.numBytes) := by
  simp only [TurnedAway, not_or, not_exists, not_and] at h
  obtain ⟨hloaded, hn, hspace⟩ := h.2 cih hc
  have hsome : cih.chunkBlockChecksum.isNone = false := by rwa [Option.isNone_eq_false_iff, Option.isSome_iff_ne_none]
  rw [WriteChunk, hc]
  simp only [hsome, Bool.false_eq_true, if_false]
  rw [if_neg hn, if_neg hspace]

theorem WriteChunk_short (hc : st.chunk = some cih) (h : ¬ TurnedAway st w.prepare)
    (hshort : numBytesIO w.prepare.offset w.prepare.numBytes < CHECKSUM_BLOCKSIZE) : WriteChunk disk st w =
      writeBlock disk cih w ( numBytesIO w.prepare.offset w.prepare.numBytes) := by
  rw [WriteChunk_eq hc h, if_neg fun h => hshort.not_ge h.2, if_neg hshort.not_ge]

theorem WriteChunk_turnedAway (h : TurnedAway st w.prepare) :
    Inside (WriteChunk disk st w) ∧ WriteChunk disk st w ≠ some .reading := by
  rcases h with hc | ⟨cih, hc, hwhy⟩
  · simp only [WriteChunk, hc]
    exact ⟨trivial, by simp⟩
  · rw [WriteChunk, hc]
    dsimp only
    split_ifs with h₁ h₂ h₃
    · exact ⟨trivial, by simp⟩
    · exact ⟨trivial, by simp⟩
    · exact ⟨trivial, by simp⟩
    all_goals
      rcases hwhy with hnone | hn | hspace
      · exact absurd (by rw [hnone]; rfl) h₁
      · exact absurd hn h₂
      · exact absurd hspace h₃

/-- A write inside the chunk, of whole blocks or inside a block. -/
theorem WriteChunk_inside (h₀ : 0 ≤ w.prepare.offset) (h : w.prepare.offset < CHUNKSIZE) (ha : Aligned w.prepare)
    (hrop : ∀ r, w.rop = some r → r.2.flatten.length ≤ CHECKSUM_BLOCKSIZE) : Inside (WriteChunk disk st w) := by
  by_cases hturned : TurnedAway st w.prepare
  · exact (WriteChunk_turnedAway hturned).1
  cases hc : st.chunk with
  | none => exact absurd (Or.inl hc) hturned
  | some cih =>
    have hn : numBytesIO w.prepare.offset w.prepare.numBytes ≠ 0 := fun hn =>
      hturned (Or.inr ⟨cih, hc, Or.inr (Or.inl hn)⟩)
    have hend : w.prepare.offset + numBytesIO w.prepare.offset w.prepare.numBytes ≤ CHUNKSIZE := numBytesIO_le h₀ h
    have hstart := OffsetToChecksumBlockStart_eq h₀ h
    have hle : numBytesIO w.prepare.offset w.prepare.numBytes ≤ w.prepare.numBytes := min_le_right _ _
    rw [WriteChunk_eq hc hturned]
    rcases ha with ⟨hoffset, hmul⟩ | hfit
    · have hwhole : (OffsetToChecksumBlockStart w.prepare.offset : ℤ) = w.prepare.offset ∧
          numBytesIO w.prepare.offset w.prepare.numBytes ≥ CHECKSUM_BLOCKSIZE := by
        refine ⟨?_, Nat.le_of_dvd (Nat.pos_of_ne_zero hn) hmul⟩
        rw [hstart, Int.ediv_mul_cancel hoffset]
      rw [if_pos hwhole, if_neg (not_not.2 (Nat.mod_eq_zero_of_dvd hmul))]
      exact schedule_inside h₀ h hend
    · have hself : numBytesIO w.prepare.offset w.prepare.numBytes = w.prepare.numBytes := by
        refine numBytesIO_self h₀ ?_
        simp only [CHECKSUM_BLOCKSIZE, CHUNKSIZE] at h hfit ⊢
        omega
      rw [hself] at hn ⊢
      split_ifs with hwhole hmod hlong
      · obtain ⟨hoffset, hlong⟩ := hwhole
        have hmod₀ : 0 ≤ w.prepare.offset % CHECKSUM_BLOCKSIZE := Int.emod_nonneg _ (by decide)
        have hone : w.prepare.numBytes = CHECKSUM_BLOCKSIZE := by omega
        exact absurd (by rw [hone, Nat.mod_self]) hmod
      · exact schedule_inside h₀ h (hself ▸ hend)
      · refine absurd ⟨?_, hlong⟩ hwhole
        rw [hstart]
        simp only [CHECKSUM_BLOCKSIZE] at hfit hlong ⊢
        omega
      · exact writeBlock_inside h₀ h (Nat.pos_of_ne_zero hn) hfit rfl hrop

/-- The write of a prepare before anything has been done about it. -/
def firstWrite (p : Prepare) (checksum : UInt32) (chunkVersion : ℤ) : WriteOp := ⟨p, checksum, chunkVersion, none⟩

variable {checksum : UInt32} {chunkVersion : ℤ}

/-- A write inside a block that ends well on a disk that does what it is asked for. -/
theorem Safe.fits (hc : st.chunk = some cih) (hturned : ¬ TurnedAway st p) (hout : ¬ Outdated st p chunkVersion)
    (hshort : numBytesIO p.offset p.numBytes < CHECKSUM_BLOCKSIZE) (h : Safe st (firstWrite p checksum chunkVersion)) :
    0 ≤ p.offset ∧ p.offset ≤ CHUNKSIZE ∧ p.offset % CHECKSUM_BLOCKSIZE + p.numBytes ≤ CHECKSUM_BLOCKSIZE := by
  have hrun : ∀ disk rop, WriteChunk disk st ⟨p, checksum, chunkVersion, rop⟩ =
      writeBlock disk cih ⟨p, checksum, chunkVersion, rop⟩ ( numBytesIO p.offset p.numBytes) := fun disk rop =>
    WriteChunk_short (w := ⟨p, checksum, chunkVersion, rop⟩) hc hturned hshort
  obtain ⟨hfirst, hagain⟩ := h Disk.fine
  by_cases hpast : OffsetToChecksumBlockStart p.offset ≥ cih.chunkSize
  · have hinside := hfirst
    rw [firstWrite, hrun, writeBlock_eq] at hinside
    dsimp only at hinside
    rw [if_pos hpast] at hinside
    obtain ⟨b, hsplice, hlen, h₀, hle⟩ := finish_fine hinside
    exact ⟨h₀, hle, fits_of_image h₀ hsplice hlen.le⟩
  · have hreading : WriteChunk Disk.fine st (firstWrite p checksum chunkVersion) = some .reading := by
      refine (hrun _ none).trans ?_
      have hversion : chunkVersion = cih.chunkVersion := by
        by_contra hne
        exact hout ⟨cih, hc, hshort, not_le.1 hpast, hne⟩
      rw [writeBlock_eq]
      dsimp only
      rw [if_neg hpast]
      simp [readBlock, Disk.fine, hversion]
    have hinside := hagain cih hc hreading Disk.fine st 0
      [List.replicate (inChunk cih (firstWrite p checksum chunkVersion)) 0]
      (by rw [List.flatten_singleton, List.length_replicate])
    rw [firstWrite] at hinside
    dsimp only at hinside
    rw [hrun, writeBlock_eq] at hinside
    dsimp only at hinside
    rw [if_neg hpast, if_neg (lt_irrefl _)] at hinside
    obtain ⟨b, hsplice, hlen, h₀, hle⟩ := finish_fine hinside
    obtain ⟨b', hsplice', rfl⟩ := Option.map_eq_some_iff.1 hsplice
    refine ⟨h₀, hle, fits_of_image h₀ hsplice' ?_⟩
    rw [← hlen, ZeroPad_flatten, List.length_append]
    exact Nat.le_add_right _ _

/-- **A write stays inside the chunk, whatever happens, if and only if it is turned away, or its block is outdated, or
it starts inside the chunk and covers whole blocks or lies inside one.** -/
theorem safe_iff (st : State) (p : Prepare) (checksum : UInt32) (chunkVersion : ℤ) :
    Safe st (firstWrite p checksum chunkVersion) ↔
      TurnedAway st p ∨ Outdated st p chunkVersion ∨ (0 ≤ p.offset ∧ p.offset < CHUNKSIZE ∧ Aligned p) := by
  constructor
  · intro h
    by_cases hturned : TurnedAway st p
    · exact Or.inl hturned
    by_cases hout : Outdated st p chunkVersion
    · exact Or.inr (Or.inl hout)
    refine Or.inr (Or.inr ?_)
    cases hc : st.chunk with
    | none => exact absurd (Or.inl hc) hturned
    | some cih =>
      have hn : numBytesIO p.offset p.numBytes ≠ 0 := fun hn => hturned (Or.inr ⟨cih, hc, Or.inr (Or.inl hn)⟩)
      have hlt : p.offset ≤ CHUNKSIZE → p.offset < CHUNKSIZE := by
        refine fun hle => lt_of_le_of_ne hle fun heq => hn ?_
        rw [ numBytesIO, heq, Int.sub_self]
        exact Nat.zero_min _
      rcases Nat.lt_or_ge ( numBytesIO p.offset p.numBytes) CHECKSUM_BLOCKSIZE with hshort | hlong
      · obtain ⟨h₀, hle, hfit⟩ := h.fits hc hturned hout hshort
        exact ⟨h₀, hlt hle, Or.inr hfit⟩
      · have hinside := (h Disk.fine).1
        rw [WriteChunk_eq (w := firstWrite p checksum chunkVersion) hc hturned] at hinside
        split_ifs at hinside with hwhole hmod hlong'
        · exact hinside.elim
        · obtain ⟨h₀, hle⟩ := schedule_fine hinside
          have hstart : (OffsetToChecksumBlockStart p.offset : ℤ) =
            p.offset / CHECKSUM_BLOCKSIZE * CHECKSUM_BLOCKSIZE := OffsetToChecksumBlockStart_eq h₀ (hlt hle)
          refine ⟨h₀, hlt hle, Or.inl ⟨⟨p.offset / CHECKSUM_BLOCKSIZE, ?_⟩, Nat.dvd_of_mod_eq_zero (not_not.1 hmod)⟩⟩
          rw [mul_comm, ← hstart]
          exact hwhole.1.symm
        · exact hinside.elim
        · exact absurd hlong hlong'
  · rintro (hturned | ⟨cih, hc, hshort, hpast, hne⟩ | ⟨h₀, hlt, ha⟩) disk
    · obtain ⟨hinside, hnot⟩ := @WriteChunk_turnedAway st (firstWrite p checksum chunkVersion) disk hturned
      exact ⟨hinside, fun cih _ hreading => absurd hreading hnot⟩
    · by_cases hturned : TurnedAway st p
      · obtain ⟨hinside, hnot⟩ := @WriteChunk_turnedAway st (firstWrite p checksum chunkVersion) disk hturned
        exact ⟨hinside, fun cih _ hreading => absurd hreading hnot⟩
      have hfailed : WriteChunk disk st (firstWrite p checksum chunkVersion) = some .readFailed := by
        refine (WriteChunk_short hc hturned hshort).trans ?_
        rw [writeBlock_eq, firstWrite]
        dsimp only
        rw [if_neg (not_le.2 hpast)]
        simp [readBlock, hne]
      rw [hfailed]
      refine ⟨trivial, fun cih _ hreading => ?_⟩
      cases hreading
    · have hinside : ∀ disk st rop, (∀ r, rop = some r → List.length (List.flatten r.2) ≤ CHECKSUM_BLOCKSIZE) →
          Inside (WriteChunk disk st ⟨p, checksum, chunkVersion, rop⟩) := fun disk st rop hrop =>
        WriteChunk_inside (w := ⟨p, checksum, chunkVersion, rop⟩) h₀ hlt ha hrop
      refine ⟨hinside disk st none fun r hr => (by cases hr), fun cih _ _ disk' st' status dataBuf hlen => ?_⟩
      refine hinside disk' st' (some (status, dataBuf)) fun r hr => ?_
      cases hr
      exact hlen.le.trans (min_le_left _ _)

/-- A prepare of two bytes in front of the chunk. -/
def beforeStart : Prepare := ⟨-2, [[1, 2]], by decide, by decide, by decide⟩

/-- They are written over the header of the chunk file. -/
theorem write_before_start : ¬ Safe ⟨some ⟨1, 1, some fun _ => 0⟩, 0, 2 ^ 30⟩ (firstWrite beforeStart 0 1) := by
  intro h
  have hturned : ¬ TurnedAway ⟨some ⟨1, 1, some fun _ => 0⟩, 0, 2 ^ 30⟩ beforeStart := by
    rintro (hc | ⟨cih, hc, hwhy⟩)
    · cases hc
    · cases hc
      rcases hwhy with hnone | hn | hspace
      · cases hnone
      · exact absurd hn (by decide)
      · exact absurd hspace (by decide)
  have hout : ¬ Outdated ⟨some ⟨1, 1, some fun _ => 0⟩, 0, 2 ^ 30⟩ beforeStart 1 := by
    rintro ⟨cih, hc, -, -, hne⟩
    cases hc
    exact hne rfl
  exact absurd (h.fits rfl hturned hout (by decide)).1 (by decide)

end Kfs.Chunk.Offsets
