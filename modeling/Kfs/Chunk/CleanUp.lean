import Kfs.Chunk.Copied

/-!
# A replication that fails

A replication that fails ends in `Terminate`, which takes the chunk off the table and tells the owner.

* `Fails`: the callbacks with which a replication fails;
* `CleansUp`: no assertion fails, and then the owner is told once, with an error, and the table is as it was before;
* `Tame`: the callbacks for which that is so;
* **`cleansUp`**: a replication cleans up in every run of such callbacks.
-/

namespace Kfs.Chunk.Replication

open ChunkManager

/-- The callback brings the replicator to the end of the chunk. -/
def AtEnd (w : World) (cb : Callback) : Prop :=
  (w.rep.handler = .HandleStartDone ∧ ∃ status chunkSize chunkVersion,
    cb.event = .metadata status chunkSize chunkVersion ∧ 0 ≤ status ∧ chunkSize ≤ w.rep.mOffset) ∨
  (w.rep.handler = .HandleWriteDone ∧ ∃ n req rest, cb.event = .wrote (some n) ∧
    takeRequest w.rep.mOwner.id cb.st.disk = some (req, rest) ∧
    w.rep.mChunkSize ≤ (w.rep.mOffset + min n req.numBytes : ℕ))

/-- The write of the metadata cannot be scheduled. -/
def Refused (env : Env) (id : ℕ) : Prop := env.connect id = false ∨ env.aio id = some 0

/-- The points at which a replication fails. -/
inductive Fails (w : World) (cb : Callback) : Prop
  | metadata {status chunkSize chunkVersion : ℤ} (handler : w.rep.handler = .HandleStartDone)
      (event : cb.event = .metadata status chunkSize chunkVersion) (neg : status < 0)
  | allocation {status chunkSize chunkVersion : ℤ} (handler : w.rep.handler = .HandleStartDone)
      (event : cb.event = .metadata status chunkSize chunkVersion)
      (absent : cb.st.mChunkTable w.rep.mChunkId = none) (create : cb.env.create = false)
  | read {status : ℤ} {data : IOBuffer} (handler : w.rep.handler = .HandleReadDone)
      (event : cb.event = .read status data) (neg : status < 0)
  | schedule {status res : ℤ} {data : IOBuffer} {st : Cs} (handler : w.rep.handler = .HandleReadDone)
      (event : cb.event = .read status data)
      (write : WriteChunk cb.env cb.st w.rep.mOwner (w.rep.writeOp data) = some (st, res)) (neg : res < 0)
  | disk (handler : w.rep.handler = .HandleWriteDone) (event : cb.event = .wrote none)
  | lastSchedule (ends : AtEnd w cb) (refused : Refused cb.env w.rep.mOwner.id)
  | lastWrite (handler : w.rep.handler = .HandleReplicationDone) (event : cb.event = .logged false)

/-- In a run no assertion fails and the owner is told at most once; the replicator leaves the other chunks alone, and
when it fails it tells the owner an error and the chunk is as it was at the start. -/
def CleansUp (start : World) (cbs : ℕ → Callback) : Prop :=
  ∀ n, ∃ w w', start.run cbs n = some w ∧ w.step (cbs n) = some w' ∧ w'.rep.notified.length ≤ 1 ∧
    (∀ c, c ≠ start.rep.mChunkId → w'.st.mChunkTable c = (cbs n).st.mChunkTable c) ∧
    (Fails w (cbs n) → (∃ status < 0, w'.rep.notified = [status]) ∧
      w'.st.mChunkTable start.rep.mChunkId = start.st.mChunkTable start.rep.mChunkId)

/-- What has been read can be written or is turned away: it is empty, or starts with a block and is a block at least or
the end of what there is of the chunk, or there is no space for it. `WriteChunk` is not safe on anything else
(`WriteChunk_not_taken`): it fails an assertion, or deletes the read of the block that it has begun and uses it. -/
def Taken (st : Cs) (r : Replicator) (data : IOBuffer) : Prop :=
  data.flatten = [] ∨
  (r.mOffset % CHECKSUM_BLOCKSIZE = 0 ∧ (CHECKSUM_BLOCKSIZE ≤ data.flatten.length ∨
    ∀ cih, st.mChunkTable r.mChunkId = some cih → cih.chunkSize ≤ r.mOffset)) ∨
  ∀ cih, st.mChunkTable r.mChunkId = some cih →
    st.mTotalSpace ≤ st.mUsedSpace + (r.mOffset + WriteOp.numBytesIO (sized (r.writeOp data)) - cih.chunkSize)

/-- No write is scheduled in part, what has been read is `Taken`, the disk does not fail, and nothing fails if there was
an `old` copy of the chunk. -/
structure Tame (old : Option ChunkInfoHandle) (w : World) (cb : Callback) : Prop where
  aside : Aside w.rep w.st cb.st
  scheduled : w.rep.handler = .HandleReadDone → ∀ i, cb.env.aio w.rep.mOwner.id ≠ some (i + 1)
  read : w.rep.handler = .HandleReadDone → ∀ status data, cb.event = .read status data → 0 ≤ status →
    Taken cb.st w.rep data
  wrote : w.rep.handler = .HandleWriteDone → cb.event ≠ .wrote none
  logged : w.rep.handler = .HandleReplicationDone → cb.event ≠ .logged false
  fresh : Fails w cb → old = none

/-! ## Before each callback -/

/-- A replicator that is still copying. -/
structure Live (r : Replicator) : Prop where
  mDone : r.mDone = false
  wpop : r.mWriteOp.wpop = none
  chunkId : r.mWriteOp.chunkId = r.mChunkId
  notified : r.notified = []
  le : r.mOffset ≤ CHUNKSIZE

/-- The chunk is there with its checksums. -/
def Loaded (st : Cs) (c : ℕ) : Prop :=
  ∃ cih checksums, st.mChunkTable c = some cih ∧ cih.chunkBlockChecksum = some checksums

/-- What holds before each callback. -/
inductive Going (old : Option ChunkInfoHandle) (w : World) : Prop
  | asked (handler : w.rep.handler = .HandleStartDone) (live : Live w.rep)
      (idle : w.st.disk.filter (isOf w.rep.mOwner.id) = []) (entry : w.st.mChunkTable w.rep.mChunkId = old)
  | reading (handler : w.rep.handler = .HandleReadDone) (live : Live w.rep)
      (idle : w.st.disk.filter (isOf w.rep.mOwner.id) = []) (loaded : Loaded w.st w.rep.mChunkId)
  | writing {n file : ℕ} {op : WriteOp} (handler : w.rep.handler = .HandleWriteDone) (live : Live w.rep)
      (le : w.rep.mOffset + n ≤ CHUNKSIZE) (length : n ≤ op.dataBuf.flatten.length)
      (pending : w.st.disk.filter (isOf w.rep.mOwner.id) = [⟨w.rep.mOwner, .write op, file, w.rep.mOffset, n, none⟩])
      (loaded : Loaded w.st w.rep.mChunkId)
  | ending (handler : w.rep.handler = .HandleReplicationDone) (notified : w.rep.notified = [])
  | told (handler : w.rep.handler = .done) (notified : w.rep.notified.length = 1)

/-- What a callback for the replicator `r` on the chunk server `st` leaves; `failed` tells whether it has failed. -/
structure Leaves (old : Option ChunkInfoHandle) (r : Replicator) (st : Cs) (failed : Prop) (w : World) : Prop where
  going : Going old w
  chunkId : w.rep.mChunkId = r.mChunkId
  others : ∀ c, c ≠ r.mChunkId → w.st.mChunkTable c = st.mChunkTable c
  told : failed → w.rep.notified = [-1] ∧ w.st.mChunkTable r.mChunkId = none

section

variable {old : Option ChunkInfoHandle} {env : Env} {r : Replicator} {st : Cs} {w : World} {cb : Callback}
  {failed : Prop}

theorem removeChunk_self {c : ℕ} : (removeChunk st c).mChunkTable c = none := by
  unfold removeChunk
  cases hc : st.mChunkTable c with
  | none => exact hc
  | some cih => exact Function.update_self _ _ _

theorem removeChunk_other {c c' : ℕ} (h : c' ≠ c) : (removeChunk st c).mChunkTable c' = st.mChunkTable c' := by
  unfold removeChunk
  cases hc : st.mChunkTable c with
  | none => rfl
  | some cih => exact Function.update_of_ne h _ _

variable (st) in
theorem cleanUp_leaves (h : r.notified = []) : Leaves old r st failed (r.cleanUp st) where
  going := by
    refine .told rfl ?_
    change (r.notified ++ [-1]).length = 1
    rw [h]
    rfl
  chunkId := rfl
  others _ hc := removeChunk_other hc
  told _ := by
    refine ⟨?_, removeChunk_self⟩
    change r.notified ++ [-1] = [-1]
    rw [h]
    rfl

variable (env st) in
theorem Terminate_leaves (h : Live r) : ∃ w, r.Terminate env st = some w ∧ Leaves old r st failed w := by
  refine ⟨r.cleanUp st, ?_, cleanUp_leaves st h.notified⟩
  rw [Replicator.Terminate, if_neg (by rw [h.mDone]; exact Bool.false_ne_true)]

/-- At the end of the chunk its metadata are written, unless that cannot be scheduled. -/
theorem Terminate_end_leaves (h : r.notified = []) (hd : r.mDone = true) (hloaded : Loaded st r.mChunkId) :
    ∃ w, r.Terminate env st = some w ∧ Leaves old r st (Refused env r.mOwner.id) w := by
  obtain ⟨cih, checksums, hentry, hsums⟩ := hloaded
  obtain ⟨st₁, hst₁⟩ : ∃ st₁, st₁ = setEntry st r.mChunkId (some { cih with chunkVersion := r.mChunkVersion }) :=
    ⟨_, rfl⟩
  have hchange : (ChangeChunkVers st r.mChunkId r.mChunkVersion).1 = st₁ := by rw [ChangeChunkVers, hentry, hst₁]
  have hself : st₁.mChunkTable r.mChunkId = some { cih with chunkVersion := r.mChunkVersion } := by
    rw [hst₁]
    exact Function.update_self _ _ _
  have hother : ∀ c, c ≠ r.mChunkId → st₁.mChunkTable c = st.mChunkTable c := by
    intro c hc
    rw [hst₁]
    exact Function.update_of_ne hc _ _
  have hclean : Leaves old r st (Refused env r.mOwner.id) (r.cleanUp st₁) := by
    have hleaves : Leaves old r st₁ (Refused env r.mOwner.id) (r.cleanUp st₁) := cleanUp_leaves st₁ h
    exact ⟨hleaves.going, hleaves.chunkId, fun c hc => (hleaves.others c hc).trans (hother c hc), hleaves.told⟩
  have hsome : ¬ (!AreChecksumsLoaded { cih with chunkVersion := r.mChunkVersion }) = true := by
    rw [AreChecksumsLoaded, hsums]
    exact Bool.false_ne_true
  rw [Replicator.Terminate, if_pos hd, hchange, WriteChunkMetadata, hself]
  dsimp only
  by_cases hconn : env.connect r.mOwner.id = true
  · rw [if_neg (by rw [hconn]; exact Bool.false_ne_true), if_neg hsome]
    by_cases haio : env.aio r.mOwner.id = some 0
    · rw [if_pos haio]
      exact ⟨_, if_neg (by decide), hclean⟩
    · rw [if_neg haio]
      refine ⟨_, if_pos rfl, .ending rfl h, rfl, hother, ?_⟩
      intro hrefused
      cases hrefused with
      | inl hno => exact absurd hconn (by rw [hno]; exact Bool.false_ne_true)
      | inr hno => exact absurd hno haio
  · rw [if_pos (by rw [Bool.eq_false_of_not_eq_true hconn]; rfl)]
    exact ⟨_, if_neg (by decide), hclean⟩

/-- The replicator goes on to read, or ends. -/
theorem Read_leaves (h : Live r) (hidle : st.disk.filter (isOf r.mOwner.id) = []) (hloaded : Loaded st r.mChunkId) :
    ∃ w, r.Read env st = some w ∧
      Leaves old r st (r.mChunkSize ≤ (r.mOffset : ℤ) ∧ Refused env r.mOwner.id) w := by
  rw [Replicator.Read]
  by_cases hend : (r.mOffset : ℤ) ≥ r.mChunkSize
  · have hterm := @Terminate_end_leaves old env { r with mDone := true } st h.notified rfl hloaded
    obtain ⟨w, hw, hleaves⟩ := hterm
    rw [if_pos hend]
    exact ⟨w, hw, hleaves.going, hleaves.chunkId, hleaves.others, fun hfail => hleaves.told hfail.2⟩
  · rw [if_neg hend]
    refine ⟨_, rfl, .reading rfl ⟨h.mDone, h.wpop, h.chunkId, h.notified, h.le⟩ hidle hloaded, rfl, fun _ _ => rfl, ?_⟩
    exact fun hfail => absurd hfail.1 hend

/-! ## What the callbacks leave -/

/-- After the allocation the chunk is there with its checksums, unless it could not be created. -/
theorem AllocChunk_loaded {c : ℕ} (hold : ∀ cih, st.mChunkTable c = some cih → cih.chunkBlockChecksum.isSome = true) :
    ∃ st' res, AllocChunk env st c 0 = (st', res) ∧ st'.disk = st.disk ∧
      (∀ c', c' ≠ c → st'.mChunkTable c' = st.mChunkTable c') ∧
      (res < 0 ∨ res = 0 ∧ Loaded st' c ∧ ¬ (st.mChunkTable c = none ∧ env.create = false)) := by
  unfold AllocChunk
  cases hc : st.mChunkTable c with
  | none =>
    dsimp only
    split_ifs with hcreate
    · refine ⟨_, _, rfl, rfl, fun c' hc' => Function.update_of_ne hc' _ _, Or.inr ⟨rfl, ?_, ?_⟩⟩
      · exact ⟨_, _, Function.update_self _ _ _, rfl⟩
      · exact fun hno => absurd hcreate (by rw [hno.2]; exact Bool.false_ne_true)
    · exact ⟨_, _, rfl, rfl, fun _ _ => rfl, Or.inl (by decide)⟩
  | some cih =>
    obtain ⟨checksums, hsums⟩ := Option.isSome_iff_exists.1 (hold cih hc)
    dsimp only
    rw [ChangeChunkVers, hc]
    refine ⟨_, _, rfl, rfl, fun c' hc' => Function.update_of_ne hc' _ _, Or.inr ⟨rfl, ?_, ?_⟩⟩
    · exact ⟨_, checksums, Function.update_self _ _ _, hsums⟩
    · exact fun hno => absurd hno.1 (Option.some_ne_none cih)

theorem Leaves.imp {failed' : Prop} (h : Leaves old r st failed w) (himp : failed' → failed) :
    Leaves old r st failed' w :=
  ⟨h.going, h.chunkId, h.others, fun hfail => h.told (himp hfail)⟩

/-- What the callback does before comes on top. -/
theorem Leaves.of_step {r' : Replicator} {st' : Cs} (h : Leaves old r' st' failed w) (hid : r'.mChunkId = r.mChunkId)
    (hst : ∀ c, c ≠ r.mChunkId → st'.mChunkTable c = st.mChunkTable c) : Leaves old r st failed w where
  going := h.going
  chunkId := h.chunkId.trans hid
  others c hc := (h.others c (hid ▸ hc)).trans (hst c hc)
  told hfail := hid ▸ h.told hfail

/-- A callback that the replicator does not wait for. -/
theorem stay_leaves (h : Going old ⟨r, st⟩) (hno : ¬ failed) : Leaves old r st failed ⟨r, st⟩ :=
  ⟨h, rfl, fun _ _ => rfl, fun hfail => absurd hfail hno⟩

/-! How a replication fails, by what the replicator waits for. -/

theorem Fails.start (h : Fails w cb) (hh : w.rep.handler = .HandleStartDone) :
    ∃ status chunkSize chunkVersion, cb.event = .metadata status chunkSize chunkVersion ∧
      (status < 0 ∨ (cb.st.mChunkTable w.rep.mChunkId = none ∧ cb.env.create = false) ∨
        chunkSize ≤ w.rep.mOffset ∧ Refused cb.env w.rep.mOwner.id) := by
  cases h with
  | metadata _ event neg => exact ⟨_, _, _, event, Or.inl neg⟩
  | allocation _ event absent create => exact ⟨_, _, _, event, Or.inr (Or.inl ⟨absent, create⟩)⟩
  | lastSchedule ends refused =>
    cases ends with
    | inl hstart =>
      obtain ⟨-, _, _, _, event, -, hle⟩ := hstart
      exact ⟨_, _, _, event, Or.inr (Or.inr ⟨hle, refused⟩)⟩
    | inr hwrite => exact absurd (hh.symm.trans hwrite.1) (by decide)
  | read handler | schedule handler | disk handler | lastWrite handler =>
    exact absurd (hh.symm.trans handler) (by decide)

theorem Fails.reading (h : Fails w cb) (hh : w.rep.handler = .HandleReadDone) :
    ∃ status data, cb.event = .read status data ∧ (status < 0 ∨ ∃ st res,
      WriteChunk cb.env cb.st w.rep.mOwner (w.rep.writeOp data) = some (st, res) ∧ res < 0) := by
  cases h with
  | read _ event neg => exact ⟨_, _, event, Or.inl neg⟩
  | schedule _ event write neg => exact ⟨_, _, event, Or.inr ⟨_, _, write, neg⟩⟩
  | lastSchedule ends =>
    cases ends with
    | inl hstart => exact absurd (hh.symm.trans hstart.1) (by decide)
    | inr hwrite => exact absurd (hh.symm.trans hwrite.1) (by decide)
  | metadata handler | allocation handler | disk handler | lastWrite handler =>
    exact absurd (hh.symm.trans handler) (by decide)

theorem Fails.writing (h : Fails w cb) (hh : w.rep.handler = .HandleWriteDone) :
    cb.event = .wrote none ∨ ∃ n req rest, cb.event = .wrote (some n) ∧
      takeRequest w.rep.mOwner.id cb.st.disk = some (req, rest) ∧
      w.rep.mChunkSize ≤ (w.rep.mOffset + min n req.numBytes : ℕ) ∧ Refused cb.env w.rep.mOwner.id := by
  cases h with
  | disk _ event => exact Or.inl event
  | lastSchedule ends refused =>
    cases ends with
    | inl hstart => exact absurd (hh.symm.trans hstart.1) (by decide)
    | inr hwrite =>
      obtain ⟨-, n, req, rest, event, htake, hle⟩ := hwrite
      exact Or.inr ⟨n, req, rest, event, htake, hle, refused⟩
  | metadata handler | allocation handler | read handler | schedule handler | lastWrite handler =>
    exact absurd (hh.symm.trans handler) (by decide)

theorem Fails.ending (h : Fails w cb) (hh : w.rep.handler = .HandleReplicationDone) : cb.event = .logged false := by
  cases h with
  | lastWrite _ event => exact event
  | lastSchedule ends =>
    cases ends with
    | inl hstart => exact absurd (hh.symm.trans hstart.1) (by decide)
    | inr hwrite => exact absurd (hh.symm.trans hwrite.1) (by decide)
  | metadata handler | allocation handler | read handler | schedule handler | disk handler =>
    exact absurd (hh.symm.trans handler) (by decide)

theorem not_fails_of_done (hh : w.rep.handler = .done) : ¬ Fails w cb := by
  intro h
  cases h with
  | lastSchedule ends =>
    cases ends with
    | inl hstart => exact absurd (hh.symm.trans hstart.1) (by decide)
    | inr hwrite => exact absurd (hh.symm.trans hwrite.1) (by decide)
  | metadata handler | allocation handler | read handler | schedule handler | disk handler | lastWrite handler =>
    exact absurd (hh.symm.trans handler) (by decide)

/-- The peer has described the chunk. -/
theorem start_leaves (hh : w.rep.handler = .HandleStartDone) (h : Live w.rep)
    (hidle : cb.st.disk.filter (isOf w.rep.mOwner.id) = []) (hentry : cb.st.mChunkTable w.rep.mChunkId = old)
    (hold : ∀ cih, old = some cih → cih.chunkBlockChecksum.isSome = true) :
    ∃ w', w.step cb = some w' ∧ Leaves old w.rep cb.st (Fails w cb) w' := by
  have hstay : Going old ⟨w.rep, cb.st⟩ := .asked hh h hidle hentry
  rw [World.step, hh]
  cases hevent : cb.event with
  | metadata status chunkSize chunkVersion =>
    dsimp only
    by_cases hstatus : status < 0
    · rw [Replicator.HandleStartDone, if_pos hstatus]
      exact Terminate_leaves _ _ h
    · obtain ⟨st', res, halloc, hdisk, hothers, hres⟩ :=
        @AllocChunk_loaded cb.env cb.st w.rep.mChunkId fun cih hc => hold cih (hentry.symm.trans hc)
      have hlive : Live (w.rep.described chunkSize chunkVersion) := ⟨h.mDone, h.wpop, h.chunkId, h.notified, h.le⟩
      rw [Replicator.HandleStartDone_eq _ _ _ (not_lt.1 hstatus) halloc]
      cases hres with
      | inl hneg =>
        obtain ⟨w', hw', hleaves⟩ := @Terminate_leaves old cb.env _ st' (Fails w cb) hlive
        rw [if_pos hneg]
        exact ⟨w', hw', hleaves.of_step rfl hothers⟩
      | inr hok =>
        obtain ⟨rfl, hloaded, hcan⟩ := hok
        obtain ⟨w', hw', hleaves⟩ := @Read_leaves old cb.env _ st' hlive (hdisk ▸ hidle) hloaded
        rw [if_neg (lt_irrefl 0)]
        refine ⟨w', hw', (hleaves.imp ?_).of_step rfl hothers⟩
        intro hfails
        obtain ⟨_, _, _, event, hcase⟩ := hfails.start hh
        rw [hevent] at event
        cases event
        exact (hcase.resolve_left hstatus).resolve_left hcan
  | read | wrote | logged =>
    refine ⟨_, rfl, stay_leaves hstay ?_⟩
    intro hfails
    obtain ⟨_, _, _, event, -⟩ := hfails.start hh
    rw [hevent] at event
    cases event

/-- There is no space for a write. -/
theorem WriteChunk_full {w : WriteOp} {cih : ChunkInfoHandle} {checksums : ℕ → UInt32} {op : KfsOp}
    (hc : st.mChunkTable w.chunkId = some cih) (hk : cih.chunkBlockChecksum = some checksums)
    (hpos : WriteOp.numBytesIO (sized w) ≠ 0)
    (hfull : st.mTotalSpace ≤ st.mUsedSpace + (w.offset + WriteOp.numBytesIO (sized w) - cih.chunkSize)) :
    WriteChunk env st op w = some (st, -ENOSPC) := by
  simp only [WriteChunk, hc, hk]
  change (if WriteOp.numBytesIO (sized w) = 0 then _ else if _ then _ else _) = _
  rw [if_neg hpos]
  exact if_pos hfull

/-- The write of what has been read is turned away and changes nothing, or it is started. -/
theorem WriteChunk_taken {data : IOBuffer} (h : Live r) {cih : ChunkInfoHandle} {checksums : ℕ → UInt32}
    (hentry : st.mChunkTable r.mChunkId = some cih) (hsums : cih.chunkBlockChecksum = some checksums)
    (htaken : Taken st r data) (hused : 0 ≤ st.mUsedSpace) (hspace : st.mUsedSpace ≤ st.mTotalSpace)
    (hpart : ∀ i, env.aio r.mOwner.id ≠ some (i + 1)) :
    (∃ res < 0, WriteChunk env st r.mOwner (r.writeOp data) = some (st, res)) ∨
      ∃ st', WriteChunk env st r.mOwner (r.writeOp data) =
          some (st', (WriteOp.numBytesIO (sized (r.writeOp data)) : ℤ)) ∧
        Started st st' r.mOwner (sized (r.writeOp data)) cih checksums ∧
        Aligned (sized (r.writeOp data)) cih.chunkSize := by
  have hc : st.mChunkTable (r.writeOp data).chunkId = some cih := by
    rw [show (r.writeOp data).chunkId = r.mChunkId from h.chunkId]
    exact hentry
  by_cases h0 : WriteOp.numBytesIO (sized (r.writeOp data)) = 0
  · exact Or.inl ⟨_, by decide, WriteChunk_empty hc hsums h0⟩
  · rcases htaken with hnil | ⟨hstart, hsize⟩ | hfull
    · refine absurd ?_ h0
      rw [numBytesIO_writeOp h.le, hnil, List.length_nil]
      exact (congrArg _ (Replicator.roundDown_of_lt (by decide))).trans (Nat.min_zero _)
    · have hal : Aligned (sized (r.writeOp data)) cih.chunkSize :=
        writeOp_aligned h.wpop hstart h.le (Nat.pos_of_ne_zero h0) (hsize.imp_right fun hle => hle cih hentry)
      have hend : (r.writeOp data).offset + WriteOp.numBytesIO (sized (r.writeOp data)) ≤ CHUNKSIZE := by
        rw [numBytesIO_writeOp h.le]
        change r.mOffset + _ ≤ _
        have hle := h.le
        omega
      cases WriteChunk_aligned env r.mOwner hc hsums hal hend hused hspace hpart with
      | inl hfail =>
        obtain ⟨res, hneg, heq, -⟩ := hfail
        exact Or.inl ⟨res, hneg, heq⟩
      | inr hstarted =>
        obtain ⟨st', heq, hs⟩ := hstarted
        exact Or.inr ⟨st', heq, hs, hal⟩
    · exact Or.inl ⟨_, by decide, WriteChunk_full hc hsums h0 (hfull cih hentry)⟩

/-- The read of a block in another version than the chunk's is refused, and is used after it has been deleted. -/
theorem readBlock_version {w : WriteOp} {cih : ChunkInfoHandle} {checksums : ℕ → UInt32} {op : KfsOp}
    (hc : st.mChunkTable w.chunkId = some cih) (hk : cih.chunkBlockChecksum = some checksums)
    (hversion : w.chunkVersion ≠ cih.chunkVersion) : readBlock env st op w = none := by
  have hread : scheduleRead env (issue st (.readBlock op.id)) w.chunkId op
      ⟨w.chunkVersion, OffsetToChecksumBlockStart w.offset, CHECKSUM_BLOCKSIZE, 0, 0, []⟩
      (fun rop => .readBlock w rop) =
        some (issue st (.readBlock op.id), if (!env.connect op.id) = true then -ESERVERBUSY else -EBADVERS) := by
    rw [scheduleRead, show (issue st (.readBlock op.id)).mChunkTable w.chunkId = some cih from hc]
    dsimp only
    split_ifs
    · rfl
    · rw [hk]
      dsimp only
      rw [ReadChunk, if_pos hversion]
  rw [readBlock, hread]
  dsimp only
  split_ifs with hconn hneg hneg
  · rfl
  · exact absurd (by decide) hneg
  · rfl
  · exact absurd (by decide) hneg

/-- What is not `Taken` cannot be written in a block that has begun, while the chunk has not the peer's version. -/
theorem WriteChunk_not_taken {data : IOBuffer} (h : Live r) {cih : ChunkInfoHandle} {checksums : ℕ → UInt32}
    (hentry : st.mChunkTable r.mChunkId = some cih) (hsums : cih.chunkBlockChecksum = some checksums)
    (hrop : r.mWriteOp.rop = none) (hversion : r.mWriteOp.chunkVersion ≠ cih.chunkVersion) (hlt : r.mOffset < CHUNKSIZE)
    (hbegun : OffsetToChecksumBlockStart r.mOffset < cih.chunkSize) (hno : ¬ Taken st r data) :
    WriteChunk env st r.mOwner (r.writeOp data) = none := by
  have hc : st.mChunkTable (r.writeOp data).chunkId = some cih := by
    rw [show (r.writeOp data).chunkId = r.mChunkId from h.chunkId]
    exact hentry
  rw [Taken, not_or, not_or] at hno
  obtain ⟨hnil, hfits, hspace⟩ := hno
  have hroom : st.mUsedSpace + (r.mOffset + WriteOp.numBytesIO (sized (r.writeOp data)) - cih.chunkSize) <
      st.mTotalSpace := by
    refine not_le.1 fun hfull => hspace fun cih' hcih' => ?_
    rw [← Option.some.inj (hentry.symm.trans hcih')]
    exact hfull
  have hn := @numBytesIO_writeOp r data h.le
  by_cases hge : CHECKSUM_BLOCKSIZE ≤ WriteOp.numBytesIO (sized (r.writeOp data))
  · refine WriteChunk_unaligned hc hsums (fun hstart => hfits ⟨hstart, Or.inl ?_⟩) hge hroom
    have hround := Replicator.roundDown_le data.flatten.length
    omega
  · have hpos : WriteOp.numBytesIO (sized (r.writeOp data)) ≠ 0 := by
      have hlen : data.flatten.length ≠ 0 := fun h0 => hnil (List.length_eq_zero_iff.1 h0)
      by_cases hblock : CHECKSUM_BLOCKSIZE ≤ data.flatten.length
      · have hround := (Replicator.roundDown_of_ge hblock).2
        have hblocksize : 0 < CHECKSUM_BLOCKSIZE := by decide
        omega
      · rw [Replicator.roundDown_of_lt (not_le.1 hblock)] at hn
        omega
    have himage : writeImage cih.chunkSize (sized (r.writeOp data)) = some .read := by
      have hwithin : ¬ OffsetToChecksumBlockStart (sized (r.writeOp data)).offset ≥ cih.chunkSize := hbegun.not_ge
      rw [writeImage, if_neg fun hblock => hge hblock.2, if_neg hge, if_neg hwithin,
        show (sized (r.writeOp data)).rop = none from hrop]
    rw [WriteChunk_eq hc hsums hpos hroom.not_ge, himage]
    exact readBlock_version hc hsums hversion

/-- The peer has answered a read. -/
theorem read_leaves (hh : w.rep.handler = .HandleReadDone) (h : Live w.rep)
    (hidle : cb.st.disk.filter (isOf w.rep.mOwner.id) = []) (hloaded : Loaded cb.st w.rep.mChunkId)
    (htame : Tame old w cb) : ∃ w', w.step cb = some w' ∧ Leaves old w.rep cb.st (Fails w cb) w' := by
  have hstay : Going old ⟨w.rep, cb.st⟩ := .reading hh h hidle hloaded
  rw [World.step, hh]
  cases hevent : cb.event with
  | read status data =>
    dsimp only
    by_cases hstatus : status < 0
    · rw [Replicator.HandleReadDone, if_pos hstatus]
      exact Terminate_leaves _ _ h
    · obtain ⟨cih, checksums, hentry, hsums⟩ := hloaded
      have hlive : Live (w.rep.writing data) := ⟨h.mDone, h.wpop, h.chunkId, h.notified, h.le⟩
      have htaken := htame.read hh status data hevent (not_lt.1 hstatus)
      cases @WriteChunk_taken cb.env _ _ _ h _ _ hentry hsums htaken htame.aside.used htame.aside.space
        (htame.scheduled hh) with
      | inl hfail =>
        obtain ⟨res, hneg, hwrite⟩ := hfail
        rw [Replicator.HandleReadDone_eq _ _ _ (not_lt.1 hstatus) hwrite, if_pos hneg]
        obtain ⟨w', hw', hleaves⟩ := @Terminate_leaves old cb.env _ cb.st (Fails w cb) hlive
        exact ⟨w', hw', hleaves.of_step rfl fun _ _ => rfl⟩
      | inr hok =>
        obtain ⟨st', hwrite, hs, hal⟩ := hok
        obtain ⟨checksums', hentry', -⟩ := hs.entry
        obtain ⟨op, hop, hdisk⟩ := hs.disk
        have hchunk : (sized (w.rep.writeOp data)).chunkId = w.rep.mChunkId := h.chunkId
        have hnat : ¬ (WriteOp.numBytesIO (sized (w.rep.writeOp data)) : ℤ) < 0 := (Int.natCast_nonneg _).not_gt
        rw [Replicator.HandleReadDone_eq _ _ _ (not_lt.1 hstatus) hwrite, if_neg hnat]
        have hend : w.rep.mOffset + WriteOp.numBytesIO (sized (w.rep.writeOp data)) ≤ CHUNKSIZE := by
          have hle := h.le
          rw [numBytesIO_writeOp h.le]
          omega
        have hlength : WriteOp.numBytesIO (sized (w.rep.writeOp data)) ≤ op.dataBuf.flatten.length := by
          have hlen := congrArg List.length hop
          rw [List.length_take_of_le hal.le, List.length_take] at hlen
          omega
        have hpending : st'.disk.filter (isOf w.rep.mOwner.id) = [⟨w.rep.mOwner, .write op, cih.file, w.rep.mOffset,
            WriteOp.numBytesIO (sized (w.rep.writeOp data)), none⟩] := by
          rw [hdisk, List.filter_append, hidle, List.nil_append]
          exact List.filter_eq_self.2 fun req hreq => by rw [List.mem_singleton.1 hreq]; exact decide_eq_true rfl
        have hgoing : Going old ⟨w.rep.writing data, st'⟩ :=
          .writing rfl hlive hend hlength hpending ⟨_, checksums', hchunk ▸ hentry', rfl⟩
        refine ⟨_, rfl, hgoing, rfl, fun c hc => hs.others c (hchunk ▸ hc), ?_⟩
        · intro hfails
          obtain ⟨_, _, event, hcase⟩ := hfails.reading hh
          rw [hevent] at event
          cases event
          obtain ⟨_, _, hwrite', hneg⟩ := hcase.resolve_left hstatus
          rw [hwrite] at hwrite'
          cases hwrite'
          exact absurd hneg hnat
  | metadata | wrote | logged =>
    refine ⟨_, rfl, stay_leaves hstay ?_⟩
    intro hfails
    obtain ⟨_, _, event, -⟩ := hfails.reading hh
    rw [hevent] at event
    cases event

/-- The disk has written some of the bytes. -/
theorem write_leaves {n file : ℕ} {op : WriteOp} (hh : w.rep.handler = .HandleWriteDone) (h : Live w.rep)
    (hle : w.rep.mOffset + n ≤ CHUNKSIZE) (hlength : n ≤ op.dataBuf.flatten.length)
    (hpending : cb.st.disk.filter (isOf w.rep.mOwner.id) =
      [⟨w.rep.mOwner, .write op, file, w.rep.mOffset, n, none⟩])
    (hloaded : Loaded cb.st w.rep.mChunkId) (htame : Tame old w cb) :
    ∃ w', w.step cb = some w' ∧ Leaves old w.rep cb.st (Fails w cb) w' := by
  have hstay : Going old ⟨w.rep, cb.st⟩ := .writing hh h hle hlength hpending hloaded
  rw [World.step, hh]
  cases hevent : cb.event with
  | wrote m =>
    cases m with
    | none => exact absurd hevent (htame.wrote hh)
    | some m =>
      obtain ⟨htake, hrest⟩ := takeRequest_of_filter hpending
      have hlen : ((op.dataBuf.flatten.take n).take m).length = min m n := by
        rw [List.length_take, List.length_take_of_le hlength]
      have hlive : Live { w.rep with
          mWriteOp := { w.rep.mWriteOp with numBytesIO := min m n }
          mOffset := w.rep.mOffset + min m n } :=
        ⟨h.mDone, h.wpop, h.chunkId, h.notified, by dsimp only; omega⟩
      obtain ⟨w', hread, hleaves⟩ := @Read_leaves old cb.env _ { cb.st with
        disk := cb.st.disk.eraseP (isOf w.rep.mOwner.id)
        files := Function.update cb.st.files file ((cb.st.files file).write w.rep.mOffset
          ((op.dataBuf.flatten.take n).take m)) } hlive hrest hloaded
      refine ⟨w', ?_, (hleaves.imp ?_).of_step rfl fun _ _ => rfl⟩
      · dsimp only
        rw [htake]
        change w.rep.writeDone cb.env _ (some ((op.dataBuf.flatten.take n).take m).length) = _
        rw [hlen, Replicator.writeDone_some]
        exact hread
      · intro hfails
        cases hfails.writing hh with
        | inl hnone =>
          rw [hevent] at hnone
          cases hnone
        | inr hlast =>
          obtain ⟨_, _, _, event, htake', hend, hrefused⟩ := hlast
          rw [hevent] at event
          rw [htake] at htake'
          cases event
          cases htake'
          exact ⟨hend, hrefused⟩
  | metadata | read | logged =>
    refine ⟨_, rfl, stay_leaves hstay ?_⟩
    intro hfails
    cases hfails.writing hh with
    | inl hnone =>
      rw [hevent] at hnone
      cases hnone
    | inr hlast =>
      obtain ⟨_, _, _, event, -⟩ := hlast
      rw [hevent] at event
      cases event

/-- The metadata have been written. -/
theorem ending_leaves (hh : w.rep.handler = .HandleReplicationDone) (hn : w.rep.notified = []) (htame : Tame old w cb) :
    ∃ w', w.step cb = some w' ∧ Leaves old w.rep cb.st (Fails w cb) w' := by
  have hno : ¬ Fails w cb := fun hfails => htame.logged hh (hfails.ending hh)
  have hstay : Going old ⟨w.rep, cb.st⟩ := .ending hh hn
  rw [World.step, hh]
  cases hevent : cb.event with
  | logged ok =>
    dsimp only
    cases takeRequest w.rep.mOwner.id cb.st.disk with
    | none => exact ⟨_, rfl, stay_leaves hstay hno⟩
    | some req =>
      refine ⟨_, rfl, .told rfl ?_, rfl, fun _ _ => rfl, fun hfails => absurd hfails hno⟩
      change (w.rep.notified ++ [0]).length = 1
      rw [hn]
      rfl
  | metadata | read | wrote => exact ⟨_, rfl, stay_leaves hstay hno⟩

/-- **A callback** of a replicator. -/
theorem Going.step (h : Going old w) (hold : ∀ cih, old = some cih → cih.chunkBlockChecksum.isSome = true)
    (htame : Tame old w cb) : ∃ w', w.step cb = some w' ∧ Leaves old w.rep cb.st (Fails w cb) w' := by
  have hdisk := htame.aside.disk
  have hentry := htame.aside.entry
  have hloaded' : Loaded w.st w.rep.mChunkId → Loaded cb.st w.rep.mChunkId := by
    rintro ⟨cih, checksums, hcih, hsums⟩
    exact ⟨cih, checksums, hentry.trans hcih, hsums⟩
  cases h with
  | asked handler live idle entry => exact start_leaves handler live (hdisk.trans idle) (hentry.trans entry) hold
  | reading handler live idle loaded => exact read_leaves handler live (hdisk.trans idle) (hloaded' loaded) htame
  | writing handler live le length pending loaded =>
    exact write_leaves handler live le length (hdisk.trans pending) (hloaded' loaded) htame
  | ending handler notified => exact ending_leaves handler notified htame
  | told handler notified =>
    refine ⟨⟨w.rep, cb.st⟩, ?_, stay_leaves (.told handler notified) (not_fails_of_done handler)⟩
    rw [World.step, handler]

theorem Going.notified_le (h : Going old w) : w.rep.notified.length ≤ 1 := by
  cases h with
  | asked _ live | reading _ live | writing _ live => rw [live.notified]; exact Nat.zero_le 1
  | ending _ notified => rw [notified]; exact Nat.zero_le 1
  | told _ notified => exact notified.le

/-- What holds before each callback of a run. -/
theorem run_going {cbs : ℕ → Callback} (h : Going old w)
    (hold : ∀ cih, old = some cih → cih.chunkBlockChecksum.isSome = true)
    (htame : ∀ n w', w.run cbs n = some w' → Tame old w' (cbs n)) (n : ℕ) :
    ∃ w', w.run cbs n = some w' ∧ Going old w' ∧ w'.rep.mChunkId = w.rep.mChunkId := by
  induction n with
  | zero => exact ⟨w, rfl, h, rfl⟩
  | succ n ih =>
    obtain ⟨w', hrun, hgoing, hid⟩ := ih
    obtain ⟨w'', hstep, hleaves⟩ := hgoing.step hold (htame n w' hrun)
    exact ⟨w'', by rw [World.run, hrun, Option.bind_some, hstep], hleaves.going, hleaves.chunkId.trans hid⟩

end

/-- The peer describes a chunk of two bytes, sends the first of them, which is written, and then answers with errors. -/
def broken : ℕ → Event := someEvents 2 [7] fun _ => .read (-1) []

theorem Reader.cleanUp {L k : ℕ} {w : World} (h : Reader L k w) :
    (removeChunk w.st w.rep.mChunkId).mUsedSpace = 0 ∧ (removeChunk w.st w.rep.mChunkId).mTotalSpace = 2 ^ 40 := by
  obtain ⟨cih, checksums, hentry, hsums, hsize⟩ := h.entry
  rw [h.chunkId.1, removeChunk, hentry]
  refine ⟨?_, h.total⟩
  change w.st.mUsedSpace - cih.chunkSize = 0
  rw [h.used, hsize, sub_self]

/-- With the first byte written, the error ends the replication. -/
theorem Reader.fails {L k : ℕ} {w : World} (h : Reader L k w) :
    w.step ⟨calm, w.st, .read (-1) []⟩ = some (w.rep.cleanUp w.st) := by
  rw [World.step, h.handler]
  change w.rep.HandleReadDone calm w.st (-1) [] = _
  rw [Replicator.HandleReadDone, if_pos (by decide), Replicator.Terminate,
    if_neg (by rw [h.mDone]; exact Bool.false_ne_true)]

theorem Reader.tame {L k : ℕ} {w : World} {status : ℤ} {data : IOBuffer} (h : Reader L k w) (hk : k ≤ CHUNKSIZE)
    (htaken : 0 ≤ status → Taken w.st w.rep data) : Tame none w ⟨calm, w.st, .read status data⟩ where
  aside := someAside h.used h.total hk
  scheduled _ i hi := by cases hi
  read _ status data hevent hstatus := by
    cases hevent
    exact htaken hstatus
  wrote hh := by rw [h.handler] at hh; cases hh
  logged hh := by rw [h.handler] at hh; cases hh
  fresh _ := rfl

theorem Writer.tame {n k : ℕ} {w : World} (h : Writer n k w) (hk : k ≤ CHUNKSIZE) :
    Tame none w ⟨calm, w.st, .wrote (some n)⟩ where
  aside := someAside h.used h.total hk
  scheduled hh := by rw [h.handler] at hh; cases hh
  read hh := by rw [h.handler] at hh; cases hh
  wrote _ hevent := by cases hevent
  logged hh := by rw [h.handler] at hh; cases hh
  fresh _ := rfl

/-- There is nothing of the chunk yet, and a reply may start with its first byte. -/
theorem Reader.taken {L : ℕ} {w : World} (h : Reader L 0 w) (data : IOBuffer) : Taken w.st w.rep data := by
  obtain ⟨cih, checksums, hentry, -, hsize⟩ := h.entry
  refine Or.inr (Or.inl ⟨by rw [h.offset]; rfl, Or.inr fun cih' hcih' => ?_⟩)
  rw [h.chunkId.1, hentry] at hcih'
  rw [← Option.some.inj hcih', hsize]
  exact Nat.zero_le _

def missing (st : Cs) : World := ⟨Replicator.start 1 1 someOwner, st⟩

/-- The peer answers with an error. -/
def refusal : ℕ → Event := fun _ => .metadata (-1) 0 0

theorem missing_alone (st : Cs) (n : ℕ) :
    (missing st).alone calm refusal (n + 1) = some ((missing st).rep.cleanUp st) := by
  induction n with
  | zero => rfl
  | succ n ih =>
    rw [World.alone, ih]
    rfl

theorem missing_aside {st : Cs} (hused : 0 ≤ st.mUsedSpace) (hspace : st.mUsedSpace ≤ st.mTotalSpace)
    (hgone : (removeChunk st 1).mUsedSpace = 0 ∧ (removeChunk st 1).mTotalSpace = st.mTotalSpace) {n : ℕ} {w : World}
    (hrun : (missing st).run ((missing st).callbacks calm refusal) n = some w) :
    Aside w.rep w.st ((missing st).callbacks calm refusal n).st := by
  rw [World.run_callbacks] at hrun
  rw [World.callbacks_eq hrun]
  cases n with
  | zero =>
    obtain rfl := Option.some.inj hrun
    exact .refl hused hspace
  | succ n =>
    obtain rfl := Option.some.inj ((missing_alone st n).symm.trans hrun)
    refine .refl ?_ ?_
    · exact hgone.1.ge
    · change (removeChunk st 1).mUsedSpace ≤ (removeChunk st 1).mTotalSpace
      rw [hgone.1, hgone.2]
      exact hused.trans hspace

/-- A chunk server with an older copy of the chunk. -/
def olderCopy : Cs := setEntry (Cs.idle (2 ^ 40)) 1 (some someEntry)

end Kfs.Chunk.Replication
