import Kfs.Chunk.Replicator

/-!
# A chunk that is copied

* `Answers`, `WholeBlocks`: the peer has the chunk and the disk works, and no reply stops inside a block;
* `Holds`: how much of the chunk is on disk, and has its checksums; `Copying`: what holds before each callback;
* **`copied`**: the replicator ends, with the whole chunk.
-/

namespace Kfs.Chunk.Replication

open ChunkManager

/-- The chunk `src` is there, with its size, its bytes and the checksums of all its blocks. -/
def Copied (src : List UInt8) (w : World) : Prop :=
  ∃ cih checksums, w.st.mChunkTable w.rep.mChunkId = some cih ∧ cih.chunkBlockChecksum = some checksums ∧
    cih.chunkSize = src.length ∧ (w.st.files cih.file).read 0 src.length = src ∧
    ∀ i, i * CHECKSUM_BLOCKSIZE < src.length → checksums i = ComputeBlockChecksum (paddedBlock src 0 i)

/-- The peer has the chunk `src` in version `v` and replies with some of the bytes that it is asked for, and all that is
to be written can be, and is, written. -/
structure Answers (src : List UInt8) (v : ℤ) (w : World) (cb : Callback) : Prop where
  aside : Aside w.rep w.st cb.st
  create : cb.env.create = true
  connect : cb.env.connect w.rep.mOwner.id = true
  aio : cb.env.aio w.rep.mOwner.id = none
  metadata : w.rep.handler = .HandleStartDone →
    ∃ status, 0 ≤ status ∧ cb.event = .metadata status src.length v
  read : w.rep.handler = .HandleReadDone →
    ∃ status data, 0 ≤ status ∧ cb.event = .read status data ∧ data.flatten <+: src.drop w.rep.mOffset ∧
      data.flatten.length ≤ 2 ^ 20 ∧
      ∀ st, WriteChunk cb.env cb.st w.rep.mOwner (w.rep.writeOp data) ≠ some (st, -ENOSPC)
  wrote : w.rep.handler = .HandleWriteDone →
    ∃ n, cb.event = .wrote (some n) ∧ ∀ req ∈ cb.st.disk, isOf w.rep.mOwner.id req = true → req.numBytes ≤ n

/-- A reply has a block at least, or reaches to the end of the chunk. -/
def WholeBlocks (src : List UInt8) (w : World) (cb : Callback) : Prop :=
  w.rep.handler = .HandleReadDone → ∀ status data, cb.event = .read status data →
    min CHECKSUM_BLOCKSIZE (src.length - w.rep.mOffset) ≤ data.flatten.length

/-- The chunk is not there, or it has its checksums and does not reach into a last block that is written in part. -/
def Replaceable (src : List UInt8) (st : Cs) (chunkId : ℕ) : Prop :=
  ∀ cih, st.mChunkTable chunkId = some cih → cih.chunkBlockChecksum.isSome = true ∧
    cih.chunkSize ≤ src.length / CHECKSUM_BLOCKSIZE * CHECKSUM_BLOCKSIZE

/-! ## What is there of a chunk -/

/-- The first `written` bytes are on disk, the size and the checksums are those of the first `summed` bytes, and of
`old` bytes that were there before. -/
structure Holds (src : List UInt8) (old written summed : ℕ) (chunkId : ℕ) (st : Cs) (cih : ChunkInfoHandle)
    (checksums : ℕ → UInt32) : Prop where
  entry : st.mChunkTable chunkId = some cih
  loaded : cih.chunkBlockChecksum = some checksums
  size : cih.chunkSize = max old summed
  length : written ≤ (st.files cih.file).length
  bytes : ∀ p < written, src[p]? = some ((st.files cih.file).data p)
  sums : ∀ i, i * CHECKSUM_BLOCKSIZE < summed → checksums i = ComputeBlockChecksum (paddedBlock src 0 i)

section

variable {src : List UInt8} {old written summed c : ℕ} {st st' : Cs} {cih : ChunkInfoHandle} {checksums : ℕ → UInt32}

theorem Holds.congr (h : Holds src old written summed c st cih checksums)
    (hentry : st'.mChunkTable c = st.mChunkTable c) (hfile : st'.files cih.file = st.files cih.file) :
    Holds src old written summed c st' cih checksums where
  entry := hentry.trans h.entry
  loaded := h.loaded
  size := h.size
  length := by rw [hfile]; exact h.length
  bytes := by rw [hfile]; exact h.bytes
  sums := h.sums

theorem Holds.aside {rep : Replicator} (h : Holds src old written summed rep.mChunkId st cih checksums)
    (ha : Aside rep st st') : Holds src old written summed rep.mChunkId st' cih checksums :=
  h.congr ha.entry (ha.file cih h.entry)

/-- The whole chunk is there. -/
theorem Holds.whole (rep : Replicator) (h : Holds src old src.length src.length rep.mChunkId st cih checksums)
    (hold : old ≤ src.length) : Copied src ⟨rep, st⟩ := by
  refine ⟨cih, checksums, h.entry, h.loaded, by rw [h.size, max_eq_right hold], ?_, h.sums⟩
  refine List.ext_getElem? fun p => ?_
  rw [File.read, Nat.sub_zero, min_eq_left h.length, diskBytes, List.getElem?_map]
  by_cases hp : p < src.length
  · rw [List.getElem?_range hp, h.bytes p hp, Option.map_some, Nat.zero_add]
  · rw [List.getElem?_eq_none (by rw [List.length_range]; omega), List.getElem?_eq_none (Nat.le_of_not_lt hp)]
    rfl

/-- A block of a part of the chunk that does not end inside the block. -/
theorem paddedBlock_part {offset n j : ℕ} (hoff : offset % CHECKSUM_BLOCKSIZE = 0) (hj : j * CHECKSUM_BLOCKSIZE < n)
    (hend : n % CHECKSUM_BLOCKSIZE = 0 ∨ offset + n = src.length) :
    paddedBlock ((src.drop offset).take n) 0 j = paddedBlock src 0 (offset / CHECKSUM_BLOCKSIZE + j) := by
  have hmul : offset / CHECKSUM_BLOCKSIZE * CHECKSUM_BLOCKSIZE = offset :=
    Nat.div_mul_cancel (Nat.dvd_of_mod_eq_zero hoff)
  have hblock : (((src.drop offset).take n).drop (j * CHECKSUM_BLOCKSIZE)).take CHECKSUM_BLOCKSIZE =
      (src.drop ((offset / CHECKSUM_BLOCKSIZE + j) * CHECKSUM_BLOCKSIZE)).take CHECKSUM_BLOCKSIZE := by
    rw [List.drop_take, List.drop_drop, List.take_take, Nat.add_mul, hmul]
    cases hend with
    | inl hmod =>
      rw [min_eq_left]
      simp only [CHECKSUM_BLOCKSIZE] at hmod hj ⊢
      omega
    | inr hlen =>
      have hle : src.length - (offset + j * CHECKSUM_BLOCKSIZE) ≤ n - j * CHECKSUM_BLOCKSIZE := by omega
      refine List.take_eq_take_iff.2 ?_
      rw [List.length_drop, min_assoc, min_eq_right hle]
  unfold paddedBlock
  rw [Nat.sub_zero, Nat.sub_zero, hblock]

/-- A write that has been started. -/
theorem Holds.started {offset n : ℕ} {op : KfsOp} {w : WriteOp} (h : Holds src old offset offset c st cih checksums)
    (hs : Started st st' op w cih checksums) (hw : w.chunkId = c ∧ w.offset = offset ∧ w.numBytesIO = n)
    (hoff : offset % CHECKSUM_BLOCKSIZE = 0) (hend : n % CHECKSUM_BLOCKSIZE = 0 ∨ offset + n = src.length)
    (hdata : w.dataBuf.flatten.take n = (src.drop offset).take n) :
    ∃ checksums', Holds src old offset (offset + n) c st' { cih with
      chunkSize := max cih.chunkSize (offset + n)
      chunkBlockChecksum := some checksums' } checksums' := by
  obtain ⟨hc, ho, hn⟩ := hw
  obtain ⟨checksums', hentry, hbefore, hnew⟩ := hs.entry
  rw [hc, ho, hn] at hentry
  rw [ho] at hbefore hnew
  rw [hn, hdata] at hnew
  refine ⟨checksums', hentry, rfl, ?_, ?_, ?_, fun i hi => ?_⟩
  · dsimp only
    rw [h.size]
    omega
  · rw [hs.files]
    exact h.length
  · rw [hs.files]
    exact h.bytes
  · by_cases hlt : i * CHECKSUM_BLOCKSIZE < offset
    · rw [hbefore i hlt]
      exact h.sums i hlt
    · have hi' : i = offset / CHECKSUM_BLOCKSIZE + (i - offset / CHECKSUM_BLOCKSIZE) ∧
          (i - offset / CHECKSUM_BLOCKSIZE) * CHECKSUM_BLOCKSIZE < n := by
        simp only [CHECKSUM_BLOCKSIZE] at hoff hi hlt ⊢
        omega
      rw [hi'.1, hnew _ hi'.2, paddedBlock_part hoff hi'.2 hend]

variable (st') in
/-- The bytes of a write are on disk. -/
theorem Holds.wrote {offset n : ℕ} (h : Holds src old offset (offset + n) c st cih checksums)
    (hend : offset + n ≤ src.length) {bytes : List UInt8} (hbytes : bytes = (src.drop offset).take n)
    (hentry : st'.mChunkTable c = st.mChunkTable c)
    (hfile : st'.files cih.file = (st.files cih.file).write offset bytes) :
    Holds src old (offset + n) (offset + n) c st' cih checksums := by
  have hlen : bytes.length = n := by
    rw [hbytes, List.length_take, List.length_drop]
    omega
  refine ⟨hentry.trans h.entry, h.loaded, h.size, ?_, fun p hp => ?_, h.sums⟩
  · rw [hfile, File.write, hlen]
    exact le_max_right _ _
  · rw [hfile, File.write]
    dsimp only
    rw [hlen]
    by_cases hlt : p < offset
    · rw [if_neg fun hle => hlt.not_ge hle.1]
      exact h.bytes p hlt
    · have hget : bytes[p - offset]? = src[p]? := by
        rw [hbytes, List.getElem?_take_of_lt (by omega), List.getElem?_drop]
        congr 1
        omega
      rw [if_pos ⟨Nat.le_of_not_lt hlt, hp⟩, List.getD_eq_getElem?_getD, hget]
      rw [List.getElem?_eq_getElem (by omega)]
      rfl

end

/-! ## The steps -/

/-- What a replicator that has asked the peer about the chunk `src` knows and has not changed. -/
structure Knows (src : List UInt8) (r : Replicator) : Prop where
  size : r.mChunkSize = src.length
  mDone : r.mDone = false
  wpop : r.mWriteOp.wpop = none
  chunkId : r.mWriteOp.chunkId = r.mChunkId

/-- Before a callback: the peer is asked about the chunk, or for bytes from a block on, or `n` bytes are being written,
or the chunk has been copied. -/
inductive Copying (src : List UInt8) (w : World) : Prop
  | asked (handler : w.rep.handler = .HandleStartDone) (mDone : w.rep.mDone = false) (wpop : w.rep.mWriteOp.wpop = none)
      (chunkId : w.rep.mWriteOp.chunkId = w.rep.mChunkId) (offset : w.rep.mOffset = 0)
      (idle : w.st.disk.filter (isOf w.rep.mOwner.id) = []) (free : Replaceable src w.st w.rep.mChunkId)
  | reading {old : ℕ} {cih : ChunkInfoHandle} {checksums : ℕ → UInt32} (handler : w.rep.handler = .HandleReadDone)
      (knows : Knows src w.rep) (aligned : w.rep.mOffset % CHECKSUM_BLOCKSIZE = 0) (lt : w.rep.mOffset < src.length)
      (idle : w.st.disk.filter (isOf w.rep.mOwner.id) = [])
      (free : old ≤ src.length / CHECKSUM_BLOCKSIZE * CHECKSUM_BLOCKSIZE)
      (holds : Holds src old w.rep.mOffset w.rep.mOffset w.rep.mChunkId w.st cih checksums)
  | writing {old n : ℕ} {cih : ChunkInfoHandle} {checksums : ℕ → UInt32} {op : WriteOp}
      (handler : w.rep.handler = .HandleWriteDone) (knows : Knows src w.rep) (pos : 0 < n)
      (le : w.rep.mOffset + n ≤ src.length)
      (next : (w.rep.mOffset + n) % CHECKSUM_BLOCKSIZE = 0 ∨ w.rep.mOffset + n = src.length)
      (data : op.dataBuf.flatten.take n = (src.drop w.rep.mOffset).take n)
      (pending : w.st.disk.filter (isOf w.rep.mOwner.id) =
        [⟨w.rep.mOwner, .write op, cih.file, w.rep.mOffset, n, none⟩])
      (free : old ≤ src.length / CHECKSUM_BLOCKSIZE * CHECKSUM_BLOCKSIZE)
      (holds : Holds src old w.rep.mOffset (w.rep.mOffset + n) w.rep.mChunkId w.st cih checksums)
  | copied (mDone : w.rep.mDone = true) (handler : w.rep.handler = .HandleReplicationDone ∨ w.rep.handler = .done)
      (copied : Copied src w)

/-- The callbacks that are left, at most, for the bytes that are left. -/
def left (src : List UInt8) (r : Replicator) : ℕ :=
  match r.handler with
  | .HandleStartDone => 2 * src.length + 2
  | .HandleReadDone => 2 * (src.length - r.mOffset) + 1
  | .HandleWriteDone => 2 * (src.length - r.mOffset)
  | _ => 0

section

variable {src : List UInt8} {old : ℕ} {r : Replicator} {w : World} {cb : Callback} {env : Env} {st st' : Cs}
  {cih : ChunkInfoHandle} {checksums : ℕ → UInt32}

variable (env) in
theorem WriteChunkMetadata_loaded {c : ℕ} (op : KfsOp) (hentry : st.mChunkTable c = some cih)
    (hloaded : cih.chunkBlockChecksum = some checksums) (hconn : env.connect op.id = true)
    (haio : env.aio op.id = none) :
    WriteChunkMetadata env st c op = some (queue st ⟨op, .writeMeta, cih.file, 0, 0, none⟩, 0) := by
  have hneg : ¬ (!env.connect op.id) = true := by rw [hconn]; exact Bool.false_ne_true
  have hsome : ¬ (!AreChecksumsLoaded cih) = true := by
    rw [AreChecksumsLoaded, hloaded]
    exact Bool.false_ne_true
  have hfirst : ¬ env.aio op.id = some 0 := by rw [haio]; exact Option.some_ne_none 0 ∘ Eq.symm
  simp only [WriteChunkMetadata, hentry]
  rw [if_neg hneg, if_neg hsome, if_neg hfirst]

variable (env r st) in
/-- With the bytes up to its offset there, the replicator goes on to read, or ends. -/
theorem Read_copying (hk : Knows src r) (hle : r.mOffset ≤ src.length)
    (hnext : r.mOffset % CHECKSUM_BLOCKSIZE = 0 ∨ r.mOffset = src.length)
    (hidle : st.disk.filter (isOf r.mOwner.id) = [])
    (hold : old ≤ src.length / CHECKSUM_BLOCKSIZE * CHECKSUM_BLOCKSIZE)
    (h : Holds src old r.mOffset r.mOffset r.mChunkId st cih checksums)
    (hconn : env.connect r.mOwner.id = true) (haio : env.aio r.mOwner.id = none) :
    ∃ w, r.Read env st = some w ∧ Copying src w ∧
      (w.rep.mDone = true ∨ left src w.rep = 2 * (src.length - r.mOffset) + 1) := by
  have hsize := hk.size
  rw [Replicator.Read]
  by_cases hend : (r.mOffset : ℤ) ≥ r.mChunkSize
  · have hoff : r.mOffset = src.length := by omega
    have hchange : ChangeChunkVers st r.mChunkId r.mChunkVersion =
        (setEntry st r.mChunkId (some { cih with chunkVersion := r.mChunkVersion }), 0) := by
      rw [ChangeChunkVers, h.entry]
    have hself : (setEntry st r.mChunkId (some { cih with chunkVersion := r.mChunkVersion })).mChunkTable r.mChunkId =
        some { cih with chunkVersion := r.mChunkVersion } := Function.update_self _ _ _
    have hmeta := WriteChunkMetadata_loaded env r.mOwner hself h.loaded hconn haio
    rw [if_pos hend, Replicator.Terminate, if_pos rfl, hchange]
    dsimp only
    rw [hmeta]
    refine ⟨_, if_pos rfl, .copied rfl (Or.inl rfl) ?_, Or.inl rfl⟩
    have hwhole : Holds src old src.length src.length r.mChunkId (queue (setEntry st r.mChunkId (some { cih with
        chunkVersion := r.mChunkVersion })) ⟨r.mOwner, .writeMeta, cih.file, 0, 0, none⟩)
        { cih with chunkVersion := r.mChunkVersion } checksums := by
      rw [hoff] at h
      exact ⟨Function.update_self _ _ _, h.loaded, h.size, h.length, h.bytes, h.sums⟩
    exact hwhole.whole { r with mDone := true, handler := .HandleReplicationDone }
      (hold.trans (Nat.div_mul_le_self _ _))
  · have hlt : r.mOffset < src.length := by omega
    rw [if_neg hend]
    exact ⟨_, rfl, .reading rfl ⟨hk.size, hk.mDone, hk.wpop, hk.chunkId⟩ (hnext.resolve_right hlt.ne) hlt hidle hold h,
      Or.inr rfl⟩

/-- The chunk is there, and nothing of `src` yet. -/
theorem AllocChunk_holds {c : ℕ} (hfree : Replaceable src st c) (hcreate : env.create = true) :
    ∃ st' old cih checksums, AllocChunk env st c 0 = (st', 0) ∧ st'.disk = st.disk ∧
      old ≤ src.length / CHECKSUM_BLOCKSIZE * CHECKSUM_BLOCKSIZE ∧ Holds src old 0 0 c st' cih checksums := by
  unfold AllocChunk
  cases hc : st.mChunkTable c with
  | none =>
    dsimp only
    rw [if_pos hcreate]
    exact ⟨_, 0, _, fun _ => 0, rfl, rfl, Nat.zero_le _, Function.update_self _ _ _, rfl, rfl, Nat.zero_le _,
      fun p hp => absurd hp (Nat.not_lt_zero p), fun i hi => absurd hi (Nat.not_lt_zero _)⟩
  | some cih =>
    obtain ⟨hloaded, hsize⟩ := hfree cih hc
    obtain ⟨checksums, hsums⟩ := Option.isSome_iff_exists.1 hloaded
    dsimp only
    rw [ChangeChunkVers, hc]
    exact ⟨_, cih.chunkSize, _, checksums, rfl, rfl, hsize, Function.update_self _ _ _, hsums, (Nat.max_zero _).symm,
      Nat.zero_le _, fun p hp => absurd hp (Nat.not_lt_zero p), fun i hi => absurd hi (Nat.not_lt_zero _)⟩

/-- The peer has said how long the chunk is. -/
theorem start_step {v : ℤ} (hans : Answers src v w cb) (hh : w.rep.handler = .HandleStartDone)
    (hd : w.rep.mDone = false) (hw : w.rep.mWriteOp.wpop = none) (hc : w.rep.mWriteOp.chunkId = w.rep.mChunkId)
    (h0 : w.rep.mOffset = 0)
    (hidle : w.st.disk.filter (isOf w.rep.mOwner.id) = []) (hfree : Replaceable src w.st w.rep.mChunkId) :
    ∃ w', w.step cb = some w' ∧ Copying src w' ∧ (w'.rep.mDone = true ∨ left src w'.rep < left src w.rep) := by
  obtain ⟨status, hstatus, hevent⟩ := hans.metadata hh
  have hfree' : Replaceable src cb.st w.rep.mChunkId := fun cih hcih => hfree cih (hans.aside.entry ▸ hcih)
  obtain ⟨st', old, cih, checksums, halloc, hdisk, hold, hholds⟩ := AllocChunk_holds hfree' hans.create
  have hoff : (w.rep.described src.length v).mOffset = 0 := h0
  obtain ⟨w', hread, hcopying, hleft⟩ := Read_copying (w.rep.described src.length v) cb.env st'
    ⟨rfl, hd, hw, hc⟩ (hoff.le.trans (Nat.zero_le _)) (Or.inl (by rw [hoff, Nat.zero_mod]))
    (by rw [hdisk]; exact hans.aside.disk.trans hidle) hold (by rw [hoff]; exact hholds) hans.connect hans.aio
  refine ⟨w', ?_, hcopying, hleft.imp_right fun heq => ?_⟩
  · rw [World.step, hh, hevent]
    exact (Replicator.HandleStartDone_eq _ _ _ hstatus halloc).trans hread
  · rw [heq]
    simp only [left, hh]
    omega

/-- The peer has sent some bytes of the chunk. -/
theorem read_step {v : ℤ} (hsrc : src.length ≤ CHUNKSIZE) (hans : Answers src v w cb) (hwhole : WholeBlocks src w cb)
    (hh : w.rep.handler = .HandleReadDone) (hk : Knows src w.rep) (hoff : w.rep.mOffset % CHECKSUM_BLOCKSIZE = 0)
    (hlt : w.rep.mOffset < src.length) (hidle : w.st.disk.filter (isOf w.rep.mOwner.id) = [])
    (hold : old ≤ src.length / CHECKSUM_BLOCKSIZE * CHECKSUM_BLOCKSIZE)
    (h : Holds src old w.rep.mOffset w.rep.mOffset w.rep.mChunkId w.st cih checksums) :
    ∃ w', w.step cb = some w' ∧ Copying src w' ∧ (w'.rep.mDone = true ∨ left src w'.rep < left src w.rep) := by
  obtain ⟨status, data, hstatus, hevent, hprefix, -, hroom⟩ := hans.read hh
  have hmin := hwhole hh status data hevent
  have hlen := hprefix.length_le
  rw [List.length_drop] at hlen
  have hround := Replicator.roundDown_le data.flatten.length
  have hn : WriteOp.numBytesIO (sized (w.rep.writeOp data)) = Replicator.roundDown data.flatten.length := by
    rw [numBytesIO_writeOp (hlt.le.trans hsrc)]
    omega
  -- the end of the write, of whole blocks or of the chunk
  have hend : 0 < Replicator.roundDown data.flatten.length ∧
      (Replicator.roundDown data.flatten.length % CHECKSUM_BLOCKSIZE = 0 ∨
        w.rep.mOffset + Replicator.roundDown data.flatten.length = src.length) ∧
      (CHECKSUM_BLOCKSIZE ≤ data.flatten.length ∨ max old w.rep.mOffset ≤ w.rep.mOffset) := by
    by_cases hblock : CHECKSUM_BLOCKSIZE ≤ data.flatten.length
    · obtain ⟨hmod, hge⟩ := Replicator.roundDown_of_ge hblock
      exact ⟨(by decide : 0 < CHECKSUM_BLOCKSIZE).trans_le hge, Or.inl hmod, Or.inl hblock⟩
    · rw [Replicator.roundDown_of_lt (not_le.1 hblock)]
      simp only [CHECKSUM_BLOCKSIZE] at hoff hmin hold hblock ⊢
      omega
  obtain ⟨hpos, hnext, hfree⟩ := hend
  have hcb := h.aside hans.aside
  have hal : Aligned (sized (w.rep.writeOp data)) cih.chunkSize :=
    writeOp_aligned hk.wpop hoff (hlt.le.trans hsrc) (hn ▸ hpos) (h.size ▸ hfree)
  have hchunk : (w.rep.writeOp data).chunkId = w.rep.mChunkId := hk.chunkId
  have hdata : data.flatten.take (Replicator.roundDown data.flatten.length) =
      (src.drop w.rep.mOffset).take (Replicator.roundDown data.flatten.length) := by
    obtain ⟨rest, hrest⟩ := hprefix
    rw [← hrest, List.take_append_of_le_length hround]
  have hwrite := WriteChunk_aligned cb.env w.rep.mOwner (by rw [hchunk]; exact hcb.entry) hcb.loaded hal
    (by rw [hn]; change w.rep.mOffset + _ ≤ _; omega) hans.aside.used hans.aside.space
    (fun i hi => by rw [hans.aio] at hi; cases hi)
  cases hwrite with
  | inl hfail =>
    obtain ⟨res, -, heq, hbad⟩ := hfail
    refine absurd ⟨hans.connect, hans.aio, Or.inl fun hres => hroom cb.st ?_⟩ hbad
    rw [heq, hres]
  | inr hstarted =>
    obtain ⟨st', heq, hs⟩ := hstarted
    rw [hn] at heq
    obtain ⟨checksums', hholds⟩ := hcb.started hs ⟨hk.chunkId, rfl, hn⟩ hoff hnext hdata
    obtain ⟨op, hop, hdisk⟩ := hs.disk
    rw [hn] at hop hdisk
    refine ⟨⟨w.rep.writing data, st'⟩, ?_, .writing rfl ⟨hk.size, hk.mDone, hk.wpop, hk.chunkId⟩ hpos
      (by change w.rep.mOffset + _ ≤ _; omega) ?_ (hop.trans hdata) ?_ hold hholds, Or.inr ?_⟩
    · rw [World.step, hh, hevent]
      exact (Replicator.HandleReadDone_eq _ _ _ hstatus heq).trans (if_neg (Int.natCast_nonneg _).not_gt)
    · refine hnext.imp_left fun hmod => ?_
      change (w.rep.mOffset + _) % _ = 0
      rw [Nat.add_mod, hoff, hmod, Nat.add_zero, Nat.zero_mod]
    · change st'.disk.filter (isOf w.rep.mOwner.id) = _
      rw [hdisk, List.filter_append, hans.aside.disk, hidle, List.nil_append]
      exact List.filter_eq_self.2 fun req hreq => by rw [List.mem_singleton.1 hreq]; exact decide_eq_true rfl
    · change 2 * (src.length - w.rep.mOffset) < left src w.rep
      simp only [left, hh]
      omega

/-- The disk has written the bytes. -/
theorem write_step {v : ℤ} {n : ℕ} {op : WriteOp} (hans : Answers src v w cb) (hh : w.rep.handler = .HandleWriteDone)
    (hk : Knows src w.rep) (hpos : 0 < n) (hle : w.rep.mOffset + n ≤ src.length)
    (hnext : (w.rep.mOffset + n) % CHECKSUM_BLOCKSIZE = 0 ∨ w.rep.mOffset + n = src.length)
    (hdata : op.dataBuf.flatten.take n = (src.drop w.rep.mOffset).take n)
    (hpending : w.st.disk.filter (isOf w.rep.mOwner.id) = [⟨w.rep.mOwner, .write op, cih.file, w.rep.mOffset, n, none⟩])
    (hold : old ≤ src.length / CHECKSUM_BLOCKSIZE * CHECKSUM_BLOCKSIZE)
    (h : Holds src old w.rep.mOffset (w.rep.mOffset + n) w.rep.mChunkId w.st cih checksums) :
    ∃ w', w.step cb = some w' ∧ Copying src w' ∧ (w'.rep.mDone = true ∨ left src w'.rep < left src w.rep) := by
  obtain ⟨m, hevent, hall⟩ := hans.wrote hh
  have hfilter := hans.aside.disk.trans hpending
  obtain ⟨htake, hrest⟩ := takeRequest_of_filter hfilter
  have hm : n ≤ m := by
    have hmem := List.mem_filter.1 (hfilter ▸ List.mem_singleton_self _)
    exact hall _ hmem.1 hmem.2
  have hbytes : (op.dataBuf.flatten.take n).take m = (src.drop w.rep.mOffset).take n := by
    rw [List.take_take, min_eq_right hm, hdata]
  have hlen : ((op.dataBuf.flatten.take n).take m).length = n := by
    rw [hbytes, List.length_take, List.length_drop]
    omega
  have hwrote := (h.aside hans.aside).wrote { cb.st with
      disk := cb.st.disk.eraseP (isOf w.rep.mOwner.id)
      files := Function.update cb.st.files cih.file ((cb.st.files cih.file).write w.rep.mOffset
        ((op.dataBuf.flatten.take n).take m)) } hle hbytes rfl (Function.update_self _ _ _)
  obtain ⟨w', hread, hcopying, hleft⟩ := Read_copying
    { w.rep with mWriteOp := { w.rep.mWriteOp with numBytesIO := n }, mOffset := w.rep.mOffset + n } cb.env _
    ⟨hk.size, hk.mDone, hk.wpop, hk.chunkId⟩ hle hnext hrest hold hwrote hans.connect hans.aio
  refine ⟨w', ?_, hcopying, hleft.imp_right fun heq => ?_⟩
  · rw [World.step, hh, hevent]
    dsimp only
    rw [htake]
    change w.rep.writeDone cb.env _ (some ((op.dataBuf.flatten.take n).take m).length) = _
    rw [hlen, Replicator.writeDone_some]
    exact hread
  · rw [heq]
    simp only [left, hh]
    omega

theorem Copied.congr {w' : World} (h : Copied src w) (hid : w'.rep.mChunkId = w.rep.mChunkId)
    (hentry : w'.st.mChunkTable w.rep.mChunkId = w.st.mChunkTable w.rep.mChunkId)
    (hfile : ∀ cih, w.st.mChunkTable w.rep.mChunkId = some cih → w'.st.files cih.file = w.st.files cih.file) :
    Copied src w' := by
  obtain ⟨cih, checksums, hcih, hloaded, hsize, hread, hsums⟩ := h
  refine ⟨cih, checksums, ?_, hloaded, hsize, ?_, hsums⟩
  · rw [hid, hentry, hcih]
  · rw [hfile cih hcih, hread]

/-- The metadata have been written, or nothing has. -/
theorem done_step (haside : Aside w.rep w.st cb.st) (hd : w.rep.mDone = true)
    (hh : w.rep.handler = .HandleReplicationDone ∨ w.rep.handler = .done) (h : Copied src w) :
    ∃ w', w.step cb = some w' ∧ Copying src w' ∧ w'.rep.mDone = true := by
  have hstay : Copying src ⟨w.rep, cb.st⟩ := .copied hd hh (h.congr rfl haside.entry haside.file)
  cases hh with
  | inr hh => exact ⟨⟨w.rep, cb.st⟩, by rw [World.step, hh], hstay, hd⟩
  | inl hh =>
    cases hevent : cb.event with
    | metadata status chunkSize chunkVersion => exact ⟨⟨w.rep, cb.st⟩, by rw [World.step, hh, hevent], hstay, hd⟩
    | read status data => exact ⟨⟨w.rep, cb.st⟩, by rw [World.step, hh, hevent], hstay, hd⟩
    | wrote n => exact ⟨⟨w.rep, cb.st⟩, by rw [World.step, hh, hevent], hstay, hd⟩
    | logged ok =>
      rw [World.step, hh, hevent]
      dsimp only
      cases takeRequest w.rep.mOwner.id cb.st.disk with
      | none => exact ⟨_, rfl, hstay, hd⟩
      | some req => exact ⟨_, rfl, .copied hd (Or.inr rfl) (h.congr rfl haside.entry haside.file), hd⟩

theorem Copying.step {v : ℤ} (hsrc : src.length ≤ CHUNKSIZE) (hans : Answers src v w cb) (hwhole : WholeBlocks src w cb)
    (h : Copying src w) :
    ∃ w', w.step cb = some w' ∧ Copying src w' ∧
      (w'.rep.mDone = true ∨ w.rep.mDone = false ∧ left src w'.rep < left src w.rep) := by
  cases h with
  | asked handler mDone wpop chunkId offset idle free =>
    obtain ⟨w', hstep, hcopying, hless⟩ := start_step hans handler mDone wpop chunkId offset idle free
    exact ⟨w', hstep, hcopying, hless.imp_right (And.intro mDone)⟩
  | reading handler knows aligned lt idle free holds =>
    obtain ⟨w', hstep, hcopying, hless⟩ := read_step hsrc hans hwhole handler knows aligned lt idle free holds
    exact ⟨w', hstep, hcopying, hless.imp_right (And.intro knows.mDone)⟩
  | writing handler knows pos le next data pending free holds =>
    obtain ⟨w', hstep, hcopying, hless⟩ := write_step hans handler knows pos le next data pending free holds
    exact ⟨w', hstep, hcopying, hless.imp_right (And.intro knows.mDone)⟩
  | copied mDone handler copied =>
    obtain ⟨w', hstep, hcopying, hdone⟩ := done_step hans.aside mDone handler copied
    exact ⟨w', hstep, hcopying, Or.inl hdone⟩

theorem Copying.of_mDone (h : Copying src w) (hd : w.rep.mDone = true) : Copied src w := by
  cases h with
  | copied _ _ copied => exact copied
  | asked _ mDone => rw [mDone] at hd; cases hd
  | reading _ knows => rw [knows.mDone] at hd; cases hd
  | writing _ knows => rw [knows.mDone] at hd; cases hd

/-- Every callback but the last one brings the end nearer. -/
theorem run_copying {v : ℤ} {cbs : ℕ → Callback} (hsrc : src.length ≤ CHUNKSIZE) (h : Copying src w)
    (hans : ∀ n w', w.run cbs n = some w' → Answers src v w' (cbs n))
    (hwhole : ∀ n w', w.run cbs n = some w' → WholeBlocks src w' (cbs n)) (n : ℕ) :
    ∃ w', w.run cbs n = some w' ∧ Copying src w' ∧ (w'.rep.mDone = true ∨ left src w'.rep + n ≤ left src w.rep) := by
  induction n with
  | zero => exact ⟨w, rfl, h, Or.inr le_rfl⟩
  | succ n ih =>
    obtain ⟨w', hrun, hcopying, hleft⟩ := ih
    obtain ⟨w'', hstep, hcopying', hless⟩ := hcopying.step hsrc (hans n w' hrun) (hwhole n w' hrun)
    refine ⟨w'', by rw [World.run, hrun, Option.bind_some, hstep], hcopying', ?_⟩
    refine hless.imp_right fun hlt => ?_
    have hle := hleft.resolve_left (by rw [hlt.1]; exact Bool.false_ne_true)
    omega

end

/-- **The chunk is copied**: no assertion fails, and after at most two callbacks for every byte the replicator is done
and has the chunk, unless a reply stops inside a block or there was more of the chunk already. -/
theorem copied (src : List UInt8) (hsrc : src.length ≤ CHUNKSIZE) (c : ℕ) (version v : ℤ) (owner : KfsOp) (st : Cs)
    (cbs : ℕ → Callback) (hidle : st.disk.filter (isOf owner.id) = []) (hfree : Replaceable src st c)
    (hans : ∀ n w, World.run ⟨Replicator.start c version owner, st⟩ cbs n = some w → Answers src v w (cbs n))
    (hwhole : ∀ n w, World.run ⟨Replicator.start c version owner, st⟩ cbs n = some w → WholeBlocks src w (cbs n)) :
    (∀ n, (World.run ⟨Replicator.start c version owner, st⟩ cbs n).isSome = true) ∧
      ∀ n, 2 * src.length + 3 ≤ n → ∃ w, World.run ⟨Replicator.start c version owner, st⟩ cbs n = some w ∧
        w.rep.mDone = true ∧ Copied src w := by
  have hrun := run_copying (w := ⟨Replicator.start c version owner, st⟩) hsrc
    (.asked rfl rfl rfl rfl rfl hidle hfree) hans hwhole
  refine ⟨fun n => ?_, fun n hn => ?_⟩
  · obtain ⟨w, hw, -⟩ := hrun n
    rw [hw]
    rfl
  · obtain ⟨w, hw, hcopying, hleft⟩ := hrun n
    have hd : w.rep.mDone = true := by
      refine hleft.resolve_right fun hle => ?_
      change _ + n ≤ 2 * src.length + 2 at hle
      omega
    exact ⟨w, hw, hd, hcopying.of_mDone hd⟩

/-! ## A chunk that comes in two replies -/

def calm : Env := ⟨0, fun _ => true, fun _ => none, fun _ => .sent, true, none, true⟩

def someOwner : KfsOp := ⟨0, 0, false, .other⟩

def someStart : World := ⟨Replicator.start 1 1 someOwner, Cs.idle (2 ^ 40)⟩

def someEntry : ChunkInfoHandle := ⟨0, 0, some fun _ => 0, none, 0⟩

/-- The peer describes a chunk of `L` bytes and sends the bytes `d`, which are written; then come the events `rest`. -/
def someEvents (L : ℕ) (d : List UInt8) (rest : ℕ → Event) : ℕ → Event
  | 0 => .metadata 0 L 1
  | 1 => .read 0 [d]
  | 2 => .wrote (some d.length)
  | n + 3 => rest n

/-- Of the `L` bytes the first `k` have been written, and the replicator waits for the next ones. -/
structure Reader (L k : ℕ) (w : World) : Prop where
  handler : w.rep.handler = .HandleReadDone
  owner : w.rep.mOwner = someOwner
  mDone : w.rep.mDone = false
  chunkId : w.rep.mChunkId = 1 ∧ w.rep.mWriteOp.chunkId = 1
  wpop : w.rep.mWriteOp.wpop = none
  offset : w.rep.mOffset = k
  size : w.rep.mChunkSize = L
  disk : w.st.disk = []
  entry : ∃ cih checksums, w.st.mChunkTable 1 = some cih ∧ cih.chunkBlockChecksum = some checksums ∧ cih.chunkSize = k
  used : w.st.mUsedSpace = k
  total : w.st.mTotalSpace = 2 ^ 40

/-- A write of `n` bytes, up to the byte `k` of the chunk, waits for the disk. -/
structure Writer (n k : ℕ) (w : World) : Prop where
  handler : w.rep.handler = .HandleWriteDone
  owner : w.rep.mOwner = someOwner
  disk : ∀ req ∈ w.st.disk, req.numBytes = n
  used : w.st.mUsedSpace = k
  total : w.st.mTotalSpace = 2 ^ 40

section

variable {L k n : ℕ} {d : List UInt8} {w : World} {rest : ℕ → Event} {src : List UInt8}

theorem someSpace (h : k ≤ CHUNKSIZE) : (0 : ℤ) ≤ k ∧ (k : ℤ) < 2 ^ 40 := by
  refine ⟨Int.natCast_nonneg k, ?_⟩
  simp only [CHUNKSIZE] at h
  omega

theorem someAside (hused : w.st.mUsedSpace = k) (htotal : w.st.mTotalSpace = 2 ^ 40) (hk : k ≤ CHUNKSIZE) :
    Aside w.rep w.st w.st := by
  have hspace := someSpace hk
  refine .refl ?_ ?_
  · rw [hused]
    exact hspace.1
  · rw [hused, htotal]
    exact hspace.2.le

theorem Reader.answers (h : Reader L k w) (hk : k ≤ CHUNKSIZE) (hdata : d <+: src.drop k)
    (hlen : d.length ≤ 2 ^ 20) (hwrite : ∀ st, WriteChunk calm w.st w.rep.mOwner (w.rep.writeOp [d]) ≠
      some (st, -ENOSPC)) : Answers src 1 w ⟨calm, w.st, .read 0 [d]⟩ where
  aside := someAside h.used h.total hk
  create := rfl
  connect := rfl
  aio := rfl
  metadata hh := by rw [h.handler] at hh; cases hh
  wrote hh := by rw [h.handler] at hh; cases hh
  read _ := by
    refine ⟨0, [d], le_rfl, rfl, ?_, ?_, hwrite⟩
    · rw [List.flatten_singleton, h.offset]
      exact hdata
    · rw [List.flatten_singleton]
      exact hlen

theorem Writer.answers (h : Writer n k w) (hk : k ≤ CHUNKSIZE) : Answers src 1 w ⟨calm, w.st, .wrote (some n)⟩ where
  aside := someAside h.used h.total hk
  create := rfl
  connect := rfl
  aio := rfl
  metadata hh := by rw [h.handler] at hh; cases hh
  read hh := by rw [h.handler] at hh; cases hh
  wrote _ := ⟨n, rfl, fun req hreq _ => (h.disk req hreq).le⟩

/-- What is read from the start of a block on, a block at most, is written. -/
theorem Reader.round (h : Reader L k w) (hstart : k % CHECKSUM_BLOCKSIZE = 0) (hpos : 0 < d.length)
    (hle : d.length ≤ CHECKSUM_BLOCKSIZE) (hend : k + d.length ≤ CHUNKSIZE) :
    ∃ (w₁ : World) (r : Replicator) (st : Cs),
      WriteChunk calm w.st w.rep.mOwner (w.rep.writeOp [d]) = some (w₁.st, (d.length : ℤ)) ∧
      w.step ⟨calm, w.st, .read 0 [d]⟩ = some w₁ ∧ Writer d.length (k + d.length) w₁ ∧
      w₁.step ⟨calm, w₁.st, .wrote (some d.length)⟩ = r.Read calm st ∧
      Reader L (k + d.length) ⟨{ r with handler := .HandleReadDone }, st⟩ := by
  obtain ⟨cih, checksums, hentry, hsums, hsize⟩ := h.entry
  have hk : k ≤ CHUNKSIZE := le_of_add_le_left hend
  have hround : Replicator.roundDown d.length = d.length := by
    refine if_neg fun hc => hc.2 ?_
    rw [le_antisymm hle hc.1, Nat.mod_self]
  have hn : WriteOp.numBytesIO (sized (w.rep.writeOp [d])) = d.length := by
    rw [numBytesIO_writeOp (by rw [h.offset]; exact hk), List.flatten_singleton, hround, h.offset]
    omega
  have hal : Aligned (sized (w.rep.writeOp [d])) cih.chunkSize := by
    refine writeOp_aligned h.wpop (by rw [h.offset]; exact hstart) (by rw [h.offset]; exact hk)
      (by rw [hn]; exact hpos) ?_
    exact Or.inr (by rw [hsize, h.offset])
  have hc : w.st.mChunkTable (w.rep.writeOp [d]).chunkId = some cih := by
    rw [show (w.rep.writeOp [d]).chunkId = 1 from h.chunkId.2]
    exact hentry
  have hspace := someSpace hk
  have hfull : ¬ ∃ res, res < 0 ∧ WriteChunk calm w.st w.rep.mOwner (w.rep.writeOp [d]) = some (w.st, res) ∧
      ¬ (calm.connect w.rep.mOwner.id = true ∧ calm.aio w.rep.mOwner.id = none ∧ (res ≠ -ENOSPC ∨ w.st.mUsedSpace +
        ((w.rep.writeOp [d]).offset + WriteOp.numBytesIO (sized (w.rep.writeOp [d])) - cih.chunkSize) <
          w.st.mTotalSpace)) := by
    rintro ⟨res, -, -, hbad⟩
    refine hbad ⟨rfl, rfl, Or.inr ?_⟩
    have hroom := (someSpace hend).2
    rw [hn, h.used, h.total, hsize, show (w.rep.writeOp [d]).offset = k from h.offset]
    push_cast at hroom ⊢
    omega
  obtain ⟨st₁, hwrite, hs⟩ := (WriteChunk_aligned calm w.rep.mOwner hc hsums hal
    (by rw [hn, show (w.rep.writeOp [d]).offset = k from h.offset]; exact hend) (by rw [h.used]; exact hspace.1)
    (by rw [h.used, h.total]; exact hspace.2.le) fun i hi => by cases hi).resolve_left hfull
  rw [hn] at hwrite
  obtain ⟨checksums', hentry', -⟩ := hs.entry
  obtain ⟨w', hdata, hdisk⟩ := hs.disk
  have hoff : (sized (w.rep.writeOp [d])).offset = k := h.offset
  rw [hn, hoff, hsize, max_eq_right (Nat.le_add_right k _),
    show (sized (w.rep.writeOp [d])).chunkId = 1 from h.chunkId.2] at hentry'
  rw [h.disk, List.nil_append, hn, hoff] at hdisk
  have hused : st₁.mUsedSpace = (k + d.length : ℕ) := by
    have hspent := hs.used
    rw [h.used, hn, hoff, hsize, max_eq_right (Nat.le_add_right k _)] at hspent
    rw [hspent]
    push_cast
    omega
  have htotal : st₁.mTotalSpace = 2 ^ 40 := hs.total.trans h.total
  have hbytes : (w'.dataBuf.flatten.take d.length).take d.length = d := by
    rw [hn] at hdata
    rw [hdata, List.take_take, min_self, show (sized (w.rep.writeOp [d])).dataBuf = [d] from rfl,
      List.flatten_singleton, List.take_length]
  have htake : takeRequest w.rep.mOwner.id st₁.disk =
      some (⟨w.rep.mOwner, .write w', cih.file, k, d.length, none⟩, []) := by
    rw [hdisk, h.owner]
    rfl
  refine ⟨⟨w.rep.writing [d], st₁⟩, { w.rep.writing [d] with
    mWriteOp := { w.rep.writeOp [d] with numBytesIO := d.length }
    mOffset := w.rep.mOffset + d.length }, { st₁ with
      disk := []
      files := Function.update st₁.files cih.file ((st₁.files cih.file).write k d) }, hwrite, ?_, ?_, ?_, ?_⟩
  · rw [World.step, h.handler]
    exact (Replicator.HandleReadDone_eq _ _ _ le_rfl hwrite).trans (if_neg (Int.natCast_nonneg _).not_gt)
  · refine ⟨rfl, h.owner, fun req hreq => ?_, hused, htotal⟩
    rw [show (World.mk (w.rep.writing [d]) st₁).st.disk = _ from hdisk] at hreq
    rw [List.mem_singleton.1 hreq]
  · refine (@World.step_wrote ⟨w.rep.writing [d], st₁⟩ calm st₁ _ [] (some d.length) w' rfl htake rfl).trans ?_
    change Replicator.writeDone calm _ { st₁ with
      disk := [], files := Function.update st₁.files cih.file ((st₁.files cih.file).write k
        ((w'.dataBuf.flatten.take d.length).take d.length)) }
      (some ((w'.dataBuf.flatten.take d.length).take d.length).length) = _
    rw [hbytes]
    exact Replicator.writeDone_some _ _ _ _
  · exact ⟨rfl, h.owner, h.mDone, h.chunkId, h.wpop, by rw [← h.offset], h.size, rfl,
      ⟨_, checksums', hentry', rfl, rfl⟩, hused, htotal⟩

/-- The peer answers up to the bytes `d`, and they are written. -/
theorem first_reply (L : ℕ) (rest : ℕ → Event) (hpos : 0 < d.length) (hle : d.length ≤ CHECKSUM_BLOCKSIZE)
    (hL : d.length < L) : ∃ w₀ w₁ w₂,
      someStart.alone calm (someEvents L d rest) 1 = some w₀ ∧ Reader L 0 w₀ ∧
      WriteChunk calm w₀.st w₀.rep.mOwner (w₀.rep.writeOp [d]) = some (w₁.st, (d.length : ℤ)) ∧
      someStart.alone calm (someEvents L d rest) 2 = some w₁ ∧ Writer d.length d.length w₁ ∧
      someStart.alone calm (someEvents L d rest) 3 = some w₂ ∧ Reader L d.length w₂ := by
  have hmore : ¬ ((0 : ℕ) : ℤ) ≥ (L : ℤ) := by omega
  have hone : someStart.step ⟨calm, someStart.st, .metadata 0 L 1⟩ =
      some ⟨{ someStart.rep.described L 1 with handler := .HandleReadDone }, (AllocChunk calm someStart.st 1 0).1⟩ :=
    if_neg hmore
  have hreader : Reader L 0 ⟨{ someStart.rep.described L 1 with handler := .HandleReadDone },
      (AllocChunk calm someStart.st 1 0).1⟩ :=
    ⟨rfl, rfl, rfl, ⟨rfl, rfl⟩, rfl, rfl, rfl, rfl, ⟨someEntry, _, rfl, rfl, rfl⟩, rfl, rfl⟩
  have hend : 0 + d.length ≤ CHUNKSIZE := by
    simp only [CHECKSUM_BLOCKSIZE, CHUNKSIZE] at hle ⊢
    omega
  obtain ⟨w₁, r, st, hwrite, hstep, hwriter, hwrote, hnext⟩ := hreader.round rfl hpos hle hend
  rw [Nat.zero_add] at hwriter hnext
  have hnot : ¬ (r.mOffset : ℤ) ≥ r.mChunkSize := by
    rw [show r.mOffset = d.length from hnext.offset, show r.mChunkSize = L from hnext.size]
    omega
  have htwo : someStart.alone calm (someEvents L d rest) 2 = some w₁ := by
    rw [World.alone, show someStart.alone calm (someEvents L d rest) 1 = _ from hone]
    exact hstep
  refine ⟨_, w₁, ⟨{ r with handler := .HandleReadDone }, st⟩, hone, hreader, hwrite, htwo, hwriter, ?_, hnext⟩
  rw [World.alone, htwo]
  exact hwrote.trans (if_neg hnot)

/-- The answers up to the bytes `d`. -/
theorem first_answers (src d : List UInt8) (rest : ℕ → Event) (hpos : 0 < d.length)
    (hle : d.length ≤ CHECKSUM_BLOCKSIZE) (hL : d.length < src.length) (hdata : d <+: src) (hn : n < 3)
    (hw : someStart.alone calm (someEvents src.length d rest) n = some w) :
    Answers src 1 w ⟨calm, w.st, someEvents src.length d rest n⟩ := by
  obtain ⟨w₀, w₁, w₂, hone, hreader, hwrite, htwo, hwriter, -⟩ := first_reply src.length rest hpos hle hL
  have hchunk : d.length ≤ CHUNKSIZE := hle.trans (by norm_num [CHECKSUM_BLOCKSIZE, CHUNKSIZE])
  obtain rfl | rfl | rfl : n = 0 ∨ n = 1 ∨ n = 2 := by omega
  · obtain rfl := Option.some.inj hw
    refine ⟨.refl le_rfl (by norm_num [someStart, Cs.idle]), rfl, rfl, rfl, fun _ => ⟨0, le_rfl, rfl⟩, ?_, ?_⟩
    · exact fun h => by cases h
    · exact fun h => by cases h
  · obtain rfl := Option.some.inj (hone.symm.trans hw)
    refine hreader.answers (Nat.zero_le _) (by rw [List.drop_zero]; exact hdata)
      (hle.trans (by norm_num [CHECKSUM_BLOCKSIZE])) fun st hst => ?_
    have hres := congrArg Prod.snd (Option.some.inj (hwrite.symm.trans hst))
    exact absurd (show ((d.length : ℕ) : ℤ) = -ENOSPC from hres) (by norm_num [ENOSPC]; omega)
  · obtain rfl := Option.some.inj (htwo.symm.trans hw)
    exact hwriter.answers hchunk

/-- The last bytes have been written, and the metadata of the chunk are. -/
theorem Reader.last {r : Replicator} {st : Cs} (h : Reader k k ⟨{ r with handler := .HandleReadDone }, st⟩) :
    ∃ w, r.Read calm st = some w ∧ w.rep.handler = .HandleReplicationDone ∧ w.st.mUsedSpace = k ∧
      w.st.mTotalSpace = 2 ^ 40 := by
  obtain ⟨cih, checksums, hentry, hsums, -⟩ := h.entry
  obtain ⟨cih', hcih'⟩ : ∃ cih' : ChunkInfoHandle, cih' = { cih with chunkVersion := r.mChunkVersion } := ⟨_, rfl⟩
  have hid : r.mChunkId = 1 := h.chunkId.1
  have hchange : ChangeChunkVers st r.mChunkId r.mChunkVersion = (setEntry st 1 (some cih'), 0) := by
    rw [ChangeChunkVers, hid, show st.mChunkTable 1 = some cih from hentry, hcih']
  have hself : (setEntry st 1 (some cih')).mChunkTable 1 = some cih' := rfl
  have hmeta : WriteChunkMetadata calm (setEntry st 1 (some cih')) r.mChunkId r.mOwner =
      some (queue (setEntry st 1 (some cih')) ⟨r.mOwner, .writeMeta, cih'.file, 0, 0, none⟩, 0) := by
    rw [hid]
    exact WriteChunkMetadata_loaded calm r.mOwner hself (by rw [hcih']; exact hsums) rfl rfl
  have hend : (r.mOffset : ℤ) ≥ r.mChunkSize := by
    rw [show r.mOffset = k from h.offset, show r.mChunkSize = k from h.size]
  refine ⟨⟨{ r with mDone := true, handler := .HandleReplicationDone },
    queue (setEntry st 1 (some cih')) ⟨r.mOwner, .writeMeta, cih'.file, 0, 0, none⟩⟩, ?_, rfl, h.used, h.total⟩
  rw [Replicator.Read, if_pos hend]
  exact Replicator.Terminate_done _ _ _ rfl (congrArg Prod.fst hchange) hmeta

/-- From the end of the copy on the replicator waits for its metadata, or is done. -/
theorem ended_alone {events : ℕ → Event} {m : ℕ} (hw : someStart.alone calm events m = some w)
    (hh : w.rep.handler = .HandleReplicationDone) (hevents : ∀ n, events (n + m) = .logged true) (n : ℕ) :
    ∃ w', someStart.alone calm events (n + m) = some w' ∧
      (w'.rep.handler = .HandleReplicationDone ∨ w'.rep.handler = .done) ∧
      w'.st.mUsedSpace = w.st.mUsedSpace ∧ w'.st.mTotalSpace = w.st.mTotalSpace := by
  induction n with
  | zero => exact ⟨w, by rw [Nat.zero_add, hw], Or.inl hh, rfl, rfl⟩
  | succ n ih =>
    obtain ⟨w', hw', hcase, hu, ht⟩ := ih
    rw [Nat.add_right_comm, World.alone, hw', Option.bind_some, hevents]
    cases hcase with
    | inl hh =>
      rw [World.step, hh]
      dsimp only
      cases takeRequest w'.rep.mOwner.id w'.st.disk with
      | none => exact ⟨_, rfl, Or.inl hh, hu, ht⟩
      | some req => exact ⟨_, rfl, Or.inr rfl, hu, ht⟩
    | inr hh =>
      rw [World.step, hh]
      exact ⟨_, rfl, Or.inr hh, hu, ht⟩

end

/-- The last byte, and the end of the write of the metadata. -/
def lastByte : ℕ → Event
  | 0 => .read 0 [[8]]
  | 1 => .wrote (some 1)
  | _ => .logged true

section

variable {block src : List UInt8} {w : World} {n : ℕ}

/-- A block has been read and written, and then the last byte. -/
theorem last_reply (hlen : block.length = CHECKSUM_BLOCKSIZE) (hend : src.length = block.length + 1) : ∃ w₂ w₃ w₄,
    someStart.alone calm (someEvents src.length block lastByte) 3 = some w₂ ∧ Reader src.length block.length w₂ ∧
    WriteChunk calm w₂.st w₂.rep.mOwner (w₂.rep.writeOp [[8]]) = some (w₃.st, 1) ∧
    someStart.alone calm (someEvents src.length block lastByte) 4 = some w₃ ∧ Writer 1 (block.length + 1) w₃ ∧
    someStart.alone calm (someEvents src.length block lastByte) 5 = some w₄ ∧
    w₄.rep.handler = .HandleReplicationDone ∧ w₄.st.mUsedSpace = (block.length + 1 : ℕ) ∧
    w₄.st.mTotalSpace = 2 ^ 40 := by
  have hpos : 0 < block.length := by
    rw [hlen]
    norm_num [CHECKSUM_BLOCKSIZE]
  have hchunk : block.length + 1 ≤ CHUNKSIZE := by
    rw [hlen]
    norm_num [CHECKSUM_BLOCKSIZE, CHUNKSIZE]
  obtain ⟨w₀, w₁, w₂, -, -, -, -, -, hthree, hreader⟩ := first_reply src.length lastByte hpos hlen.le (by omega)
  obtain ⟨w₃, r, st, hwrite, hstep, hwriter, hwrote, hnext⟩ := @Reader.round _ _ [8] _ hreader
    (by rw [hlen, Nat.mod_self]) Nat.one_pos (by norm_num [CHECKSUM_BLOCKSIZE]) hchunk
  rw [List.length_singleton, hend] at hnext
  obtain ⟨w₄, hread, hh, hused, htotal⟩ := hnext.last
  have hfour : someStart.alone calm (someEvents src.length block lastByte) 4 = some w₃ := by
    rw [World.alone, hthree]
    exact hstep
  have hfive : someStart.alone calm (someEvents src.length block lastByte) 5 = some w₄ := by
    rw [World.alone, hfour]
    exact hwrote.trans hread
  exact ⟨w₂, w₃, w₄, hthree, hreader, hwrite, hfour, hwriter, hfive, hh, hused, htotal⟩

/-- All the answers are those of a peer that has the chunk. -/
theorem last_answers (hlen : block.length = CHECKSUM_BLOCKSIZE) (hsrc : src = block ++ [8])
    (hw : someStart.alone calm (someEvents src.length block lastByte) n = some w) :
    Answers src 1 w ⟨calm, w.st, someEvents src.length block lastByte n⟩ := by
  have hend : src.length = block.length + 1 := by rw [hsrc, List.length_append, List.length_singleton]
  have hchunk : block.length + 1 ≤ CHUNKSIZE := by
    rw [hlen]
    norm_num [CHECKSUM_BLOCKSIZE, CHUNKSIZE]
  obtain ⟨w₂, w₃, w₄, hthree, hreader, hwrite, hfour, hwriter, hfive, hh, hused, htotal⟩ := last_reply hlen hend
  obtain hlt | rfl | rfl | ⟨k, rfl⟩ : n < 3 ∨ n = 3 ∨ n = 4 ∨ ∃ k, n = k + 5 := by
    by_cases hn : n < 5
    · omega
    · exact Or.inr (Or.inr (Or.inr ⟨n - 5, by omega⟩))
  · have hpos : 0 < block.length := by
      rw [hlen]
      norm_num [CHECKSUM_BLOCKSIZE]
    exact first_answers src block lastByte hpos hlen.le (by omega) ⟨[8], hsrc.symm⟩ hlt hw
  · obtain rfl := Option.some.inj (hthree.symm.trans hw)
    refine hreader.answers (by omega) ⟨[], by rw [hsrc, List.drop_left, List.append_nil]⟩ (by norm_num) ?_
    intro st hst
    have hres := congrArg Prod.snd (Option.some.inj (hwrite.symm.trans hst))
    exact absurd hres (by decide : (1 : ℤ) ≠ -ENOSPC)
  · obtain rfl := Option.some.inj (hfour.symm.trans hw)
    exact hwriter.answers hchunk
  · obtain ⟨w', hw', hcase, hu, ht⟩ := ended_alone hfive hh (fun n => rfl) k
    obtain rfl := Option.some.inj (hw'.symm.trans hw)
    refine ⟨someAside (hu.trans hused) (ht.trans htotal) hchunk, rfl, rfl, rfl, ?_, ?_, ?_⟩
    · exact fun h => by rw [h] at hcase; exact absurd hcase (by decide)
    · exact fun h => by rw [h] at hcase; exact absurd hcase (by decide)
    · exact fun h => by rw [h] at hcase; exact absurd hcase (by decide)

/-- The first reply brings a block, and the second one the rest. -/
theorem last_whole (hlen : block.length = CHECKSUM_BLOCKSIZE) (hend : src.length = block.length + 1)
    (hw : someStart.alone calm (someEvents src.length block lastByte) n = some w) :
    WholeBlocks src w ⟨calm, w.st, someEvents src.length block lastByte n⟩ := by
  obtain ⟨w₂, w₃, w₄, hthree, hreader, -⟩ := last_reply hlen hend
  intro hread status data hevent
  obtain rfl | rfl | rfl | rfl | rfl | ⟨k, rfl⟩ : n = 0 ∨ n = 1 ∨ n = 2 ∨ n = 3 ∨ n = 4 ∨ ∃ k, n = k + 5 := by
    by_cases hn : n < 5
    · omega
    · exact Or.inr (Or.inr (Or.inr (Or.inr (Or.inr ⟨n - 5, by omega⟩))))
  · cases hevent
  · cases hevent
    rw [List.flatten_singleton, hlen]
    exact min_le_left _ _
  · cases hevent
  · cases hevent
    obtain rfl := Option.some.inj (hthree.symm.trans hw)
    rw [hreader.offset, hend, Nat.add_sub_cancel_left]
    exact min_le_right _ _
  · cases hevent
  · cases hevent

end

theorem copied_twoReplies : ∃ w,
    someStart.run (someStart.callbacks calm (someEvents (CHECKSUM_BLOCKSIZE + 1) (List.replicate CHECKSUM_BLOCKSIZE 7)
      lastByte)) (2 * (CHECKSUM_BLOCKSIZE + 1) + 3) = some w ∧
    w.rep.mDone = true ∧ Copied (List.replicate CHECKSUM_BLOCKSIZE 7 ++ [8]) w := by
  obtain ⟨block, hblock⟩ : ∃ block, block = List.replicate CHECKSUM_BLOCKSIZE (7 : UInt8) := ⟨_, rfl⟩
  obtain ⟨src, hsrc⟩ : ∃ src, src = block ++ [8] := ⟨_, rfl⟩
  rw [← hblock, ← hsrc]
  have hlen : block.length = CHECKSUM_BLOCKSIZE := by rw [hblock, List.length_replicate]
  have hend : src.length = block.length + 1 := by rw [hsrc, List.length_append, List.length_singleton]
  have hL : CHECKSUM_BLOCKSIZE + 1 = src.length := by rw [hend, hlen]
  rw [hL]
  refine (copied src ?_ 1 1 1 someOwner (Cs.idle (2 ^ 40)) _ rfl (fun cih h => by cases h) ?_ ?_).2 _ le_rfl
  · rw [← hL]
    norm_num [CHECKSUM_BLOCKSIZE, CHUNKSIZE]
  · intro n w hw
    change someStart.run _ n = some w at hw
    rw [World.run_callbacks] at hw
    rw [World.callbacks_eq hw]
    exact last_answers hlen hsrc hw
  · intro n w hw
    change someStart.run _ n = some w at hw
    rw [World.run_callbacks] at hw
    rw [World.callbacks_eq hw]
    exact last_whole hlen hend hw

/-- After the first byte the rest comes at once, and `WriteChunk` asserts that it starts with a block. -/
theorem rest_unaligned : ∃ src : List UInt8, ∃ cbs, src.length ≤ CHUNKSIZE ∧
    (∀ n w, someStart.run cbs n = some w → Answers src 1 w (cbs n)) ∧ someStart.run cbs 4 = none := by
  obtain ⟨rest, hrest⟩ : ∃ rest : List UInt8, rest.length = CHECKSUM_BLOCKSIZE :=
    ⟨List.replicate CHECKSUM_BLOCKSIZE 0, List.length_replicate⟩
  have hsrc : (7 :: rest : List UInt8).length = CHECKSUM_BLOCKSIZE + 1 := by rw [List.length_cons, hrest]
  have hone : ([7] : List UInt8).length ≤ CHECKSUM_BLOCKSIZE := by norm_num [CHECKSUM_BLOCKSIZE]
  have hlt : ([7] : List UInt8).length < (7 :: rest : List UInt8).length := by
    rw [hsrc, List.length_singleton]
    norm_num [CHECKSUM_BLOCKSIZE]
  obtain ⟨w₀, w₁, w₂, -, -, -, -, -, hthree, hreader⟩ :=
    first_reply (d := [7]) (7 :: rest : List UInt8).length (fun _ => .read 0 [rest]) Nat.one_pos hone hlt
  -- the second write starts with the second byte
  have hoff : w₂.rep.mOffset = 1 := hreader.offset
  have hn : WriteOp.numBytesIO (sized (w₂.rep.writeOp [rest])) = CHECKSUM_BLOCKSIZE := by
    rw [numBytesIO_writeOp (by rw [hoff]; norm_num [CHUNKSIZE]), List.flatten_singleton, hrest, hoff,
      show Replicator.roundDown CHECKSUM_BLOCKSIZE = CHECKSUM_BLOCKSIZE from if_neg fun h => h.2 (Nat.mod_self _)]
    norm_num [CHUNKSIZE, CHECKSUM_BLOCKSIZE]
  have hwrite : WriteChunk calm w₂.st w₂.rep.mOwner (w₂.rep.writeOp [rest]) = none := by
    obtain ⟨cih, checksums, hentry, hsums, hsize⟩ := hreader.entry
    have hc : w₂.st.mChunkTable (w₂.rep.writeOp [rest]).chunkId = some cih := by
      rw [show (w₂.rep.writeOp [rest]).chunkId = 1 from hreader.chunkId.2]
      exact hentry
    refine WriteChunk_unaligned hc hsums ?_ hn.ge ?_
    · rw [show (w₂.rep.writeOp [rest]).offset = 1 from hoff]
      norm_num [CHECKSUM_BLOCKSIZE]
    · rw [show (w₂.rep.writeOp [rest]).offset = 1 from hoff, hn, hreader.used, hreader.total, hsize]
      norm_num [CHECKSUM_BLOCKSIZE]
  have hfour : ∀ n, someStart.alone calm (someEvents (7 :: rest : List UInt8).length [7] fun _ => .read 0 [rest])
      (n + 4) = none := by
    intro n
    induction n with
    | zero =>
      rw [World.alone, hthree, Option.bind_some, World.step, hreader.handler]
      exact Replicator.HandleReadDone_none _ _ _ le_rfl hwrite
    | succ n ih => rw [World.alone, ih, Option.bind_none]
  refine ⟨7 :: rest, someStart.callbacks calm (someEvents (7 :: rest : List UInt8).length [7] fun _ => .read 0 [rest]),
    ?_, fun n w hw => ?_, ?_⟩
  · rw [hsrc]
    norm_num [CHUNKSIZE, CHECKSUM_BLOCKSIZE]
  · rw [World.run_callbacks] at hw
    rw [World.callbacks_eq hw]
    obtain hlt' | rfl | ⟨k, rfl⟩ : n < 3 ∨ n = 3 ∨ ∃ k, n = k + 4 := by
      by_cases hn : n < 4
      · omega
      · exact Or.inr (Or.inr ⟨n - 4, by omega⟩)
    · exact first_answers (7 :: rest) [7] _ Nat.one_pos hone hlt ⟨rest, rfl⟩ hlt' hw
    · obtain rfl := Option.some.inj (hthree.symm.trans hw)
      refine hreader.answers (by norm_num [CHUNKSIZE]) (List.prefix_refl rest) ?_ fun st hst => ?_
      · rw [hrest]
        norm_num [CHECKSUM_BLOCKSIZE]
      · exact absurd (hwrite.symm.trans hst) (Option.some_ne_none _).symm
    · rw [hfour k] at hw
      cases hw
  · rw [World.run_callbacks]
    exact hfour 0

end Kfs.Chunk.Replication
