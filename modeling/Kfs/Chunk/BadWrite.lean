import Kfs.Chunk.Client

/-!
# Bad write-ids

The first request on a write-id that fails is to make the later ones fail too.

* `WriteChunk_rejected`: the writes that `WriteChunk` turns away;
* `Stopped`, `prepare_answered`, `sync_answered`: which requests are answered with an error, and with which;
* `rounds`: the requests of a run on one write-id, each with the state that it finds;
* **`failed_clean_iff`**: when every request behind a failure is answered as it should be.
-/

namespace Kfs.Chunk

open ChunkManager

variable {env : Env} {st st' : Cs} {op clnt : KfsOp} {w : WriteOp} {p : WritePrepareOp} {s : WriteSyncOp} {res : ℤ}

/-! ## Writes that are turned away -/

/-- A write that does not fit, or that the disk does not take. -/
def Unwritable (env : Env) (st : Cs) (clnt : KfsOp) (cih : ChunkInfoHandle) (w : WriteOp) : Prop :=
  numBytesIO w.offset w.numBytes = 0 ∨
    st.mUsedSpace + (w.offset + ( numBytesIO w.offset w.numBytes : ℕ) - cih.chunkSize) ≥ st.mTotalSpace ∨
    ∃ w', writeImage cih.chunkSize (sized w) = some (.ready w') ∧ (env.connect clnt.id = false ∨
      DiskConnection.Write (env.aio clnt.id) w'.numBytesIO w'.dataBuf = .failed)

/-- The chunk is not there, or it is loaded and cannot be written to. -/
def Rejected (env : Env) (st : Cs) (clnt : KfsOp) (w : WriteOp) : Prop :=
  st.mChunkTable w.chunkId = none ∨
    ∃ cih checksums, st.mChunkTable w.chunkId = some cih ∧ cih.chunkBlockChecksum = some checksums ∧
      Unwritable env st clnt cih w

theorem scheduleWrite_rejected {cih : ChunkInfoHandle} {checksums : ℕ → UInt32} :
    (∃ st' res, scheduleWrite env st cih checksums clnt w = some (st', res) ∧ res < 0) ↔
      env.connect clnt.id = false ∨ DiskConnection.Write (env.aio clnt.id) w.numBytesIO w.dataBuf = .failed := by
  unfold scheduleWrite
  cases hconn : env.connect clnt.id with
  | false => exact ⟨fun _ => Or.inl rfl, fun _ => ⟨st, -ESERVERBUSY, rfl, by decide⟩⟩
  | true =>
    simp only [Bool.not_true, Bool.false_eq_true, if_false, Bool.true_eq_false, false_or]
    cases hwrite : DiskConnection.Write (env.aio clnt.id) w.numBytesIO w.dataBuf with
    | failed => exact ⟨fun _ => rfl, fun _ => ⟨st, -1, rfl, by decide⟩⟩
    | dropped n =>
      refine ⟨?_, fun h => by cases h⟩
      rintro ⟨st', res, h, hneg⟩
      obtain ⟨st₁, -, heq⟩ := Option.map_eq_some_iff.1 h
      cases heq
      exact absurd hneg (Int.natCast_nonneg n).not_gt
    | queued =>
      refine ⟨?_, fun h => by cases h⟩
      rintro ⟨st', res, h, hneg⟩
      obtain ⟨st₁, -, heq⟩ := Option.map_eq_some_iff.1 h
      cases heq
      exact absurd hneg (Int.natCast_nonneg _).not_gt

theorem readBlock_nonneg (h : readBlock env st clnt w = some (st', res)) : res = 0 := by
  unfold readBlock at h
  dsimp only at h
  split at h
  · cases h
  · split_ifs at h
    cases h
    rfl

/-- `WriteChunk` returns an error for the writes that are rejected and for no other. -/
theorem WriteChunk_rejected :
    (∃ st' res, WriteChunk env st clnt w = some (st', res) ∧ res < 0) ↔ Rejected env st clnt w := by
  cases hc : st.mChunkTable w.chunkId with
  | none =>
    refine ⟨fun _ => Or.inl hc, fun _ => ⟨st, -EBADF, ?_, by decide⟩⟩
    rw [WriteChunk, hc]
  | some cih =>
    cases hk : cih.chunkBlockChecksum with
    | none =>
      constructor
      · rintro ⟨st', res, h, -⟩
        simp only [WriteChunk, hc, hk] at h
        cases h
      · rintro (h | ⟨cih', checksums, hc', hk', -⟩)
        · cases hc.symm.trans h
        · cases hc.symm.trans hc'
          cases hk.symm.trans hk'
    | some checksums =>
      have hrejected : Rejected env st clnt w ↔ Unwritable env st clnt cih w := by
        constructor
        · rintro (h | ⟨cih', checksums', hc', -, h⟩)
          · cases hc.symm.trans h
          · cases hc.symm.trans hc'
            exact h
        · exact fun h => Or.inr ⟨cih, checksums, hc, hk, h⟩
      rw [hrejected, Unwritable]
      by_cases h0 : numBytesIO w.offset w.numBytes = 0
      · refine ⟨fun _ => Or.inl h0, fun _ => ⟨st, -EINVAL, ?_, by decide⟩⟩
        simp only [WriteChunk, hc, hk]
        exact if_pos h0
      by_cases hspace :
          st.mUsedSpace + (w.offset + ( numBytesIO w.offset w.numBytes : ℕ) - cih.chunkSize) ≥ st.mTotalSpace
      · refine ⟨fun _ => Or.inr (Or.inl hspace), fun _ => ⟨st, -ENOSPC, ?_, by decide⟩⟩
        simp only [WriteChunk, hc, hk]
        exact (if_neg h0).trans (if_pos hspace)
      rw [WriteChunk_eq hc hk h0 hspace]
      simp only [h0, hspace, false_or]
      cases hi : writeImage cih.chunkSize (sized w) with
      | none =>
        constructor
        · rintro ⟨st', res, h, -⟩
          cases h
        · rintro ⟨w', h, -⟩
          cases h
      | some image =>
        cases image with
        | ready w' =>
          refine scheduleWrite_rejected.trans ⟨fun h => ⟨w', rfl, h⟩, ?_⟩
          rintro ⟨w'', h, hdisk⟩
          cases h
          exact hdisk
        | read =>
          constructor
          · rintro ⟨st', res, h, hneg⟩
            exact absurd hneg (by rw [readBlock_nonneg h]; exact lt_irrefl 0)
          · rintro ⟨w', h, -⟩
            cases h
        | failed =>
          constructor
          · rintro ⟨st', res, h, hneg⟩
            cases h
            exact absurd hneg (lt_irrefl 0)
          · rintro ⟨w', h, -⟩
            cases h

/-! ## Answers -/

/-- Whatever is done with an answer, the operation is answered with `status`. -/
def Answered (exec : Submitter → Option Cs) (op : KfsOp) (status : ℤ) : Prop :=
  ∃ st, ∀ Submit, exec Submit = Submit st op status

def AnsweredError (exec : Submitter → Option Cs) (op : KfsOp) : Prop := ∃ status, status < 0 ∧ Answered exec op status

theorem answered {exec : Submitter → Option Cs} {status : ℤ} (h : ∀ Submit, exec Submit = Submit st op status) :
    Answered exec op status := ⟨st, h⟩

/-- What does not depend on what is done with an answer is no answer. -/
theorem not_answered {exec : Submitter → Option Cs} {r : Option Cs} (h : ∀ Submit, exec Submit = r) {status : ℤ} :
    ¬ Answered exec op status := by
  rintro ⟨st, hst⟩
  have hnone : (none : Option Cs) = r := (hst fun _ _ _ => none).symm.trans (h _)
  have hsome : some st = r := (hst fun _ _ _ => some st).symm.trans (h _)
  cases hsome.trans hnone.symm

/-- The status of the pending write with this id, when it is that of a failure. -/
def recorded (st : Cs) (writeId : ℤ) : Option ℤ :=
  ((st.mPendingWrites.find? fun w => w.writeId = writeId).map PendingWrite.status).filter fun status => status < 0

/-- A prepare that is stopped before it gets to its pending write. -/
def Stopped (env : Env) (st : Cs) (op : KfsOp) (p : WritePrepareOp) : Prop :=
  IsValidWriteId st (needToForwardWrite p.servers).2.2 = false ∨ IsChunkMetadataLoaded st p.chunkId = false ∨
    ((needToForwardWrite p.servers).2.1 = some 0 ∧ IsLeaseValid env st p.chunkId = false) ∨
    (p.checksum ≠ 0 ∧ ComputeBlockChecksum (p.dataBuf.flatten.take p.numBytes) ≠ p.checksum) ∨
    ((needToForwardWrite p.servers).1 = true ∧ env.forward op.id = .noPeer)

/-- The write of a prepare. -/
def writeOf (p : WritePrepareOp) (w : WriteOp) : WriteOp :=
  { w with offset := p.offset, numBytes := p.numBytes, dataBuf := p.dataBuf, checksums := [p.checksum], wpop := some p }

/-- A prepare as it is when it has been forwarded. -/
def forwarded (p : WritePrepareOp) : WritePrepareOp :=
  if (needToForwardWrite p.servers).1 then { p with writeFwdOp := true, numDone := p.numDone + 1 } else p

/-- The write of a prepare, which there is only when nothing has failed, is rejected. -/
def WriteRejected (env : Env) (st : Cs) (op : KfsOp) (p : WritePrepareOp) : Prop :=
  ∃ w, CloneWriteOp st (needToForwardWrite p.servers).2.2 = some w ∧ Rejected env st op (writeOf (forwarded p) w)

theorem startWrite_answered {writeId : ℤ} :
    AnsweredError (fun Submit => WritePrepareOp.startWrite Submit env st op p writeId) op ↔
      ∃ w, CloneWriteOp st writeId = some w ∧ Rejected env st op (writeOf p w) := by
  cases hw : CloneWriteOp st writeId with
  | none =>
    constructor
    · rintro ⟨status, -, h⟩
      refine absurd h (not_answered (r := none) fun Submit => ?_)
      rw [WritePrepareOp.startWrite, hw]
    · rintro ⟨w, h, -⟩
      cases h
  | some w =>
    have hrejected := @WriteChunk_rejected env (issue st (.write op.id)) op (writeOf p w)
    constructor
    · rintro ⟨status, -, h⟩
      refine ⟨w, rfl, hrejected.1 ?_⟩
      cases hwrite : WriteChunk env (issue st (.write op.id)) op (writeOf p w) with
      | none =>
        refine absurd h (not_answered (r := none) fun Submit => ?_)
        simp only [WritePrepareOp.startWrite, hw]
        unfold writeOf at hwrite
        rw [hwrite]
      | some r =>
        obtain ⟨st', res⟩ := r
        by_cases hneg : res < 0
        · exact ⟨st', res, rfl, hneg⟩
        · refine absurd h (not_answered (r := some st') fun Submit => ?_)
          simp only [WritePrepareOp.startWrite, hw]
          unfold writeOf at hwrite
          rw [hwrite]
          exact if_neg hneg
    · rintro ⟨w', h, hrej⟩
      cases h
      obtain ⟨st', res, hwrite, hneg⟩ := hrejected.2 hrej
      refine ⟨res, hneg, signal st' (.write op.id) res, fun Submit => ?_⟩
      simp only [WritePrepareOp.startWrite, hw]
      unfold writeOf at hwrite
      rw [hwrite]
      exact if_pos hneg

theorem prepare_stopped (hpos : (needToForwardWrite p.servers).2.1 ≠ none) (h : Stopped env st op p) :
    AnsweredError (fun Submit => WritePrepareOp.Execute Submit env st op p) op := by
  obtain ⟨pos, hpos⟩ := Option.ne_none_iff_exists'.1 hpos
  unfold WritePrepareOp.Execute
  simp only [hpos]
  by_cases h₁ : (!IsValidWriteId st (needToForwardWrite p.servers).2.2) = true
  · simp only [h₁, if_true]
    exact ⟨-EINVAL, by decide, answered fun _ => rfl⟩
  by_cases h₂ : (!IsChunkMetadataLoaded st p.chunkId) = true
  · simp only [h₁, h₂, Bool.false_eq_true, if_false, if_true]
    exact ⟨-ELEASEEXPIRED, by decide, answered fun _ => rfl⟩
  by_cases h₃ : pos = 0 ∧ (!IsLeaseValid env st p.chunkId) = true
  · simp only [h₁, h₂, if_pos h₃, Bool.false_eq_true, if_false]
    exact ⟨-ELEASEEXPIRED, by decide, answered fun _ => rfl⟩
  by_cases h₄ : p.checksum ≠ 0 ∧ ComputeBlockChecksum (p.dataBuf.flatten.take p.numBytes) ≠ p.checksum
  · simp only [h₁, h₂, if_neg h₃, if_pos h₄, Bool.false_eq_true, if_false]
    exact ⟨-EBADCKSUM, by decide, answered fun _ => rfl⟩
  have h₅ : (needToForwardWrite p.servers).1 = true ∧ env.forward op.id = .noPeer := by
    rcases h with h | h | ⟨h, h'⟩ | h | h
    · exact absurd h (by simpa using h₁)
    · exact absurd h (by simpa using h₂)
    · exact absurd ⟨Option.some.inj (hpos.symm.trans h), by rw [h']; rfl⟩ h₃
    · exact absurd h h₄
    · exact h
  simp only [h₁, h₂, if_neg h₃, if_neg h₄, h₅.1, h₅.2, Bool.false_eq_true, if_false, if_true]
  exact ⟨-EHOSTUNREACH, by decide, answered fun _ => rfl⟩

/-- A prepare that is not stopped goes on with its write. -/
theorem prepare_goes_on (hpos : (needToForwardWrite p.servers).2.1 ≠ none) (h : ¬ Stopped env st op p)
    (Submit : Submitter) : WritePrepareOp.Execute Submit env st op p =
      WritePrepareOp.startWrite Submit env st op (forwarded p) (needToForwardWrite p.servers).2.2 := by
  obtain ⟨pos, hpos⟩ := Option.ne_none_iff_exists'.1 hpos
  simp only [Stopped, not_or] at h
  obtain ⟨h₁, h₂, h₃, h₄, h₅⟩ := h
  have hlease : ¬ (pos = 0 ∧ (!IsLeaseValid env st p.chunkId) = true) := by
    rintro ⟨rfl, hl⟩
    exact h₃ ⟨hpos, by simpa using hl⟩
  rw [Bool.not_eq_false] at h₁ h₂
  unfold WritePrepareOp.Execute
  simp only [hpos, h₁, h₂, if_neg hlease, if_neg h₄, Bool.not_true, Bool.false_eq_true, if_false]
  rw [forwarded]
  by_cases hf : (needToForwardWrite p.servers).1 = true
  · simp only [hf, if_true, if_neg fun h => h₅ ⟨hf, h⟩]
  · simp only [if_neg hf]

/-- A prepare is answered with an error when it is stopped or when its write is rejected. -/
theorem prepare_answered (hpos : (needToForwardWrite p.servers).2.1 ≠ none) :
    AnsweredError (fun Submit => WritePrepareOp.Execute Submit env st op p) op ↔
      Stopped env st op p ∨ WriteRejected env st op p := by
  by_cases h : Stopped env st op p
  · exact ⟨fun _ => Or.inl h, fun _ => prepare_stopped hpos h⟩
  · simp only [prepare_goes_on hpos h, h, false_or]
    exact startWrite_answered

/-! ## Syncs -/

theorem Answered.unique {exec : Submitter → Option Cs} {a b : ℤ} (ha : Answered exec op a) (hb : Answered exec op b) :
    a = b := by
  obtain ⟨st, ha⟩ := ha
  obtain ⟨st', hb⟩ := hb
  have h := (ha fun st _ status => some { st with mWriteId := status }).symm.trans (hb _)
  exact congrArg Cs.mWriteId (Option.some.inj h)

/-- A pending write with a failure has no clone. -/
theorem CloneWriteOp_of_recorded {writeId status : ℤ} (h : recorded st writeId = some status) :
    CloneWriteOp st writeId = none := by
  obtain ⟨hfound, hneg⟩ := Option.filter_eq_some_iff.1 h
  obtain ⟨w, hw, rfl⟩ := Option.map_eq_some_iff.1 hfound
  rw [CloneWriteOp, hw]
  exact if_pos (of_decide_eq_true hneg)

theorem sync_of_recorded {status : ℤ} (hpos : (needToForwardWrite s.servers).2.1 ≠ none)
    (h : recorded st (needToForwardWrite s.servers).2.2 = some status) :
    Answered (fun Submit => WriteSyncOp.Execute Submit env st op s) op (-EINVAL) := by
  refine ⟨st, fun Submit => ?_⟩
  dsimp only
  rw [WriteSyncOp.Execute]
  simp only [CloneWriteOp_of_recorded h]
  exact if_neg fun h => hpos h.2

/-- A sync does not tell of the failure that has been recorded. -/
theorem sync_answered (hpos : (needToForwardWrite s.servers).2.1 ≠ none) :
    (∃ status, recorded st (needToForwardWrite s.servers).2.2 = some status ∧
      Answered (fun Submit => WriteSyncOp.Execute Submit env st op s) op status) ↔
        recorded st (needToForwardWrite s.servers).2.2 = some (-EINVAL) := by
  constructor
  · rintro ⟨status, hrec, h⟩
    rw [hrec, h.unique (sync_of_recorded hpos hrec)]
  · exact fun h => ⟨-EINVAL, h, sync_of_recorded hpos h⟩

/-! ## Runs on one write-id -/

/-- A request with the state that it finds, and whether it is started and fails afterwards. -/
structure Round where
  env : Env
  st : Cs
  op : KfsOp
  fails : Bool

def KfsOp.servers (op : KfsOp) : List ServerEntry :=
  match op.cmd with
  | .writePrepare p => p.servers
  | .writeSync s => s.servers
  | _ => []

/-- A prepare or a sync whose list of servers has this one, with the write-id. -/
structure OnWriteId (writeId : ℤ) (op : KfsOp) : Prop where
  cmd : op.cmd.isPrepare = true ∨ op.cmd.isSync = true
  here : (needToForwardWrite op.servers).2.1 ≠ none
  id : (needToForwardWrite op.servers).2.2 = writeId

/-- The requests of a run. Before each of them anything else may happen to the chunk server; an assertion that fails
ends the run. -/
def rounds : List (Env × (Cs → Cs) × KfsOp × Bool) → Cs → List Round
  | [], _ => []
  | (env, others, op, fails) :: es, st =>
    ⟨env, others st, op, fails⟩ ::
      match op.Execute (fun st _ _ => some st) env (others st) with
      | none => []
      | some st => rounds es st

namespace Round

variable (writeId : ℤ) (r : Round)

def exec (Submit : Submitter) : Option Cs := r.op.Execute Submit r.env r.st

def Failed : Prop := AnsweredError r.exec r.op ∨ r.fails = true

/-- What is claimed of a request behind a failure: an error for a prepare, the recorded failure for a sync. -/
def Clean : Prop :=
  match r.op.cmd with
  | .writePrepare _ => AnsweredError r.exec r.op
  | .writeSync _ => ∃ status, recorded r.st writeId = some status ∧ Answered r.exec r.op status
  | _ => True

/-- When it is so. -/
def Caught : Prop :=
  match r.op.cmd with
  | .writePrepare p => Stopped r.env r.st r.op p ∨ WriteRejected r.env r.st r.op p
  | .writeSync _ => recorded r.st writeId = some (-EINVAL)
  | _ => True

variable {writeId r}

theorem clean_iff (h : OnWriteId writeId r.op) : r.Clean writeId ↔ r.Caught writeId := by
  obtain ⟨env, st, ⟨id, seq, clientSM, cmd⟩, fails⟩ := r
  obtain ⟨-, hpos, rfl⟩ := h
  cases cmd with
  | writePrepare p => exact prepare_answered hpos
  | writeSync s => exact sync_answered hpos
  | _ => exact Iff.rfl

end Round

theorem rounds_ops {es : List (Env × (Cs → Cs) × KfsOp × Bool)} {r : Round} (h : r ∈ rounds es st) :
    r.op ∈ es.map fun e => e.2.2.1 := by
  induction es generalizing st with
  | nil => cases h
  | cons e es ih =>
    obtain ⟨env, others, op, fails⟩ := e
    rw [rounds] at h
    rcases List.mem_cons.1 h with rfl | h
    · exact List.mem_cons_self
    · refine List.mem_cons_of_mem _ ?_
      split at h
      · cases h
      · exact ih h

/-- **Every request behind a failure is answered as it should be if and only if every prepare behind one is stopped or
has its write rejected, and every sync behind one finds `-EINVAL` recorded.** -/
theorem failed_clean_iff {writeId : ℤ} {es : List (Env × (Cs → Cs) × KfsOp × Bool)}
    (hon : ∀ e ∈ es, OnWriteId writeId e.2.2.1) :
    (rounds es st).Pairwise (fun a b => a.Failed → b.Clean writeId) ↔
      (rounds es st).Pairwise (fun a b => a.Failed → b.Caught writeId) := by
  have hiff : ∀ r ∈ rounds es st, (r.Clean writeId ↔ r.Caught writeId) := by
    intro r hr
    obtain ⟨e, he, hop⟩ := List.mem_map.1 (rounds_ops hr)
    exact Round.clean_iff (hop ▸ hon e he)
  exact ⟨List.Pairwise.imp_of_mem fun _ hb h hfailed => (hiff _ hb).1 (h hfailed),
    List.Pairwise.imp_of_mem fun _ hb h hfailed => (hiff _ hb).2 (h hfailed)⟩

/-- A prepare of one byte on write-id 1. -/
def onePrepare (checksum : UInt32) : KfsOp :=
  ⟨0, 0, true, .writePrepare ⟨7, 0, 1, [(true, 1)], checksum, [[1]], 0, false, 0⟩⟩

def Env.plain : Env := ⟨0, fun _ => true, fun _ => none, fun _ => .sent, true, none, true⟩

/-- A chunk with a lease and a pending write. -/
def Cs.oneWrite : Cs :=
  { Cs.idle 100000 with
    mChunkTable := fun _ => some ⟨1, 0, some fun _ => 0, none, 0⟩
    mPendingWrites := [⟨1, 7, 1, 0⟩]
    mLeases := fun _ => some 60 }

/-- Two prepares with bad checksums: the failure of the first one is recorded, and the second one fails too. -/
theorem failed_clean_badChecksums :
    (rounds [(Env.plain, id, onePrepare 5, false), (Env.plain, id, onePrepare 9, false)] Cs.oneWrite).Pairwise
      fun a b => a.Failed → b.Clean 1 := by
  refine (@failed_clean_iff _ 1 _ fun e he => ?_).2 ?_
  · rcases List.mem_cons.1 he with rfl | he
    · exact ⟨Or.inl rfl, by decide, rfl⟩
    · rw [List.mem_singleton.1 he]
      exact ⟨Or.inl rfl, by decide, rfl⟩
  · have hrounds : rounds [(Env.plain, id, onePrepare 5, false), (Env.plain, id, onePrepare 9, false)] Cs.oneWrite =
        [⟨Env.plain, Cs.oneWrite, onePrepare 5, false⟩, ⟨Env.plain, SetWriteStatus Cs.oneWrite 1 (-EBADCKSUM),
          onePrepare 9, false⟩] := by
      rfl
    rw [hrounds, List.pairwise_pair]
    exact fun _ => Or.inl (Or.inr (Or.inr (Or.inr (Or.inl (by decide +kernel)))))

/-- The first prepare has a bad checksum, which is recorded, and at the second one the assertion fails. -/
theorem failed_prepare_asserts : ¬ (rounds [(Env.plain, id, onePrepare 5, false), (Env.plain, id, onePrepare 0, false)]
    Cs.oneWrite).Pairwise fun a b => a.Failed → b.Clean 1 := by
  intro h
  have hbad : Stopped Env.plain Cs.oneWrite (onePrepare 5) ⟨7, 0, 1, [(true, 1)], 5, [[1]], 0, false, 0⟩ :=
    Or.inr (Or.inr (Or.inr (Or.inl (by decide +kernel))))
  have hfailed : AnsweredError (fun Submit => WritePrepareOp.Execute Submit Env.plain Cs.oneWrite (onePrepare 5)
      ⟨7, 0, 1, [(true, 1)], 5, [[1]], 0, false, 0⟩) (onePrepare 5) :=
    prepare_stopped (by decide) hbad
  have hrounds : rounds [(Env.plain, id, onePrepare 5, false), (Env.plain, id, onePrepare 0, false)] Cs.oneWrite =
      [⟨Env.plain, Cs.oneWrite, onePrepare 5, false⟩, ⟨Env.plain, SetWriteStatus Cs.oneWrite 1 (-EBADCKSUM),
        onePrepare 0, false⟩] := by
    rfl
  rw [hrounds, List.pairwise_pair] at h
  obtain ⟨status, -, hanswer⟩ := h (Or.inl hfailed)
  refine not_answered (r := none) (fun Submit => ?_) hanswer
  rfl

end Kfs.Chunk
