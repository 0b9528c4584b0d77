import Mathlib.Algebra.BigOperators.Ring.Finset
import Kfs.Client.File

/-!
# Reads and writes that do not fail

What a read and a write do when every request gets through and every reply comes in.

* `ReadFromServer_reader`: a read brings in the bytes of the chunk;
* `DoPipelinedWrite_healthy`: all operations of a write go out in order and succeed;
* `DoLargeWriteToServer_eq`: the chunk is overwritten, up to its end.
-/

namespace Kfs.Client

open Kfs.Chunk (CHECKSUM_BLOCKSIZE OffsetToChecksumBlockStart ComputeBlockChecksum)
open Kfs.Lib

variable {chunkOffset numAvail numBytes i : ℕ} {ops : List ReadOp} {op : ReadOp} {buf : ℕ → UInt8}

/-! ## Reading -/

theorem splitRead_offset {fuel r : ℕ} (h : op ∈ splitRead chunkOffset numAvail fuel r) :
    op.offset = chunkOffset + op.pos := by
  induction fuel generalizing r with
  | zero => cases h
  | succ fuel ih =>
    rw [splitRead] at h
    split_ifs at h with hlt
    · rcases List.mem_cons.1 h with rfl | h
      · rfl
      · exact ih h
    · cases h

/-- The operations of a read cover it. -/
theorem splitRead_sum {fuel r : ℕ} (hfuel : numAvail ≤ r + fuel) (hr : r ≤ numAvail)
    (h : (chunkOffset + r) % CHECKSUM_BLOCKSIZE = 0 ∨ r = numAvail ∨
      OffsetToChecksumBlockEnd (chunkOffset + r) ≤ chunkOffset + numAvail) :
    ((splitRead chunkOffset numAvail fuel r).map (·.numBytes)).sum = numAvail - r := by
  induction fuel generalizing r with
  | zero =>
    rw [splitRead, List.map_nil, List.sum_nil]
    omega
  | succ fuel ih =>
    rw [splitRead]
    rcases Nat.lt_or_ge r numAvail with hlt | hge
    · rw [if_pos hlt, List.map_cons, List.sum_cons]
      simp only [OffsetToChecksumBlockEnd, CHECKSUM_BLOCKSIZE] at h ih
      by_cases hstart : OffsetToChecksumBlockStart (chunkOffset + r) ≠ chunkOffset + r
      · -- up to the end of the block
        rw [if_pos hstart]
        simp only [OffsetToChecksumBlockStart, OffsetToChecksumBlockEnd, CHECKSUM_BLOCKSIZE] at hstart ⊢
        rw [ih (by omega) (by omega) (Or.inl (by omega))]
        omega
      · rw [if_neg hstart]
        simp only [OffsetToChecksumBlockStart, CHECKSUM_BLOCKSIZE, MAX_BYTES_PER_READ_IO] at hstart ⊢
        rw [ih (by omega) (by omega) (by omega)]
        omega
    · rw [if_neg (by omega), List.map_nil, List.sum_nil]
      omega

/-- The operations read from `chunkOffset` on, and the chunk has all bytes that they ask for. -/
def Covered (c : Stored) (chunkOffset : ℕ) (ops : List ReadOp) : Prop :=
  ∀ op ∈ ops, op.offset = chunkOffset + op.pos ∧ op.offset + op.numBytes ≤ c.size

theorem brought_reader {c : Stored} (h : op.offset + op.numBytes ≤ c.size) :
    brought (Fd.reader c) i op = { op with
      status := op.numBytes
      checksum := ComputeBlockChecksum (load c.data op.offset op.numBytes)
      content := load c.data op.offset op.numBytes } := by
  have hmin : min op.numBytes (c.size - op.offset) = op.numBytes := by omega
  simp [brought, Fd.reader, hmin]

/-- The replies fill the buffer. -/
theorem fillBuf_reader {c : Stored} (hlaid : Laid ops) (hcov : Covered c chunkOffset ops) {n : ℕ}
    (hn : n ≤ ops.length) : fillBuf (Fd.reader c) ops buf n =
      store buf 0 (load c.data chunkOffset ((ops.take n).map (·.numBytes)).sum) := by
  induction n with
  | zero => simp [fillBuf]
  | succ n ih =>
    have hop : ops[n]? = some ops[n] := List.getElem?_eq_getElem (by omega)
    obtain ⟨hoff, hle⟩ := hcov ops[n] (List.getElem_mem _)
    have hsum : ((ops.take (n + 1)).map (·.numBytes)).sum = ops[n].pos + ops[n].numBytes := by
      rw [List.take_succ_eq_append_getElem (by omega), List.map_append, List.sum_append, ← hlaid n _ hop]
      simp
    rw [fillBuf_succ hop, ih (by omega), ← hlaid n _ hop, brought_reader hle, hsum, load_append, store_append]
    simp [hoff]

theorem Laid.le_sum (h : Laid ops) (hop : op ∈ ops) : op.pos + op.numBytes ≤ (ops.map (·.numBytes)).sum := by
  obtain ⟨i, hi, rfl⟩ := List.mem_iff_getElem.1 hop
  rw [h i _ (List.getElem?_eq_getElem hi)]
  have hsum : (ops.map (·.numBytes)).sum = ((ops.take i).map (·.numBytes)).sum + (ops[i].numBytes +
      ((ops.drop (i + 1)).map (·.numBytes)).sum) := by
    rw [← List.sum_cons, ← List.map_cons, ← List.drop_eq_getElem_cons hi, ← List.sum_append, ← List.map_append,
      List.take_append_drop]
  omega

theorem reader_matches {c : Stored} : (brought (Fd.reader c) i op).Matches := Or.inr rfl

theorem reader_replies {c : Stored} : Replies (Fd.reader c) i op := by
  show (load c.data op.offset (min op.numBytes (c.size - op.offset))).length ≤ op.numBytes
  rw [length_load]
  exact min_le_left _ _

theorem reader_well {c : Stored} (window : ℕ) : Well (Fd.reader c) ops true window :=
  ⟨rfl, fun _ _ => rfl, fun _ _ _ => rfl, fun _ _ _ _ _ => reader_replies⟩

theorem DoPipelinedRead_reader (c : Stored) (buf : ℕ → UInt8) (window : ℕ) (hpos : 0 < ops.length)
    (hfresh : ∀ op ∈ ops, op.content = []) : DoPipelinedRead (Fd.reader c) window ⟨ops, true, buf⟩ =
      some (0, ⟨ops.mapIdx (brought (Fd.reader c)), true, fillBuf (Fd.reader c) ops buf ops.length⟩) := by
  cases @DoPipelinedRead_end (Fd.reader c) _ buf window true hpos hfresh with
  | fails _ hnot => exact absurd (reader_well _) hnot
  | expired hnot => exact absurd (reader_well _) hnot
  | complete _ h =>
    rw [h]
    congr 3
    refine List.mapIdx_eq_mapIdx_iff.2 fun i hi => ?_
    unfold settled
    split_ifs
    · exact verify_matches reader_matches
    · rfl

/-- The sum of the results. -/
theorem tally_reader {c : Stored} (hcov : Covered c chunkOffset ops) :
    tally 0 (ops.mapIdx (brought (Fd.reader c))) = ((ops.map (·.numBytes)).sum : ℕ) := by
  have hstatus : (ops.mapIdx (brought (Fd.reader c))).map (·.status) =
      (ops.map (·.numBytes)).map (Nat.cast : ℕ → ℤ) := by
    rw [map_status_mapIdx]
    refine List.ext_getElem (by simp) fun i h₁ h₂ => ?_
    simp only [List.getElem_mapIdx, List.getElem_map]
    rw [brought_reader (hcov _ (List.getElem_mem _)).2]
  rw [tally_eq le_rfl, zero_add, hstatus, Nat.cast_list_sum]
  intro op hop
  have hmem : op.status ∈ (ops.map (·.numBytes)).map (Nat.cast : ℕ → ℤ) := hstatus ▸ List.mem_map_of_mem hop
  obtain ⟨n, -, hn⟩ := List.mem_map.1 hmem
  omega

theorem DoSmallReadFromServer_reader {c : Stored} (hlt : chunkOffset < c.size) :
    ∃ r, DoSmallReadFromServer (Fd.reader c) c.size chunkOffset numBytes true buf = some r ∧
      r.numIO = (min (c.size - chunkOffset) numBytes : ℕ) ∧
      r.buf = store buf 0 (load c.data chunkOffset (min (c.size - chunkOffset) numBytes)) := by
  have hmin : min (min c.size numBytes) (c.size - chunkOffset) = min (c.size - chunkOffset) numBytes := by omega
  refine ⟨_, DoSmallReadFromServer_replies rfl reader_replies, ?_, ?_⟩
  · simp [brought, Fd.reader, smallRead, hmin]
  · simp [brought, Fd.reader, smallRead, hmin]

/-- A read brings in the bytes of the chunk, up to its end. -/
theorem ReadFromServer_reader {c : Stored} (window : ℕ) (hlt : chunkOffset < c.size) :
    ∃ r, ReadFromServer (Fd.reader c) window c.size chunkOffset numBytes true buf = some r ∧
      r.numIO = (min (c.size - chunkOffset) numBytes : ℕ) ∧
      r.buf = store buf 0 (load c.data chunkOffset (min (c.size - chunkOffset) numBytes)) := by
  set numAvail := min (c.size - chunkOffset) numBytes with hnum
  rw [ReadFromServer, if_pos hlt.le, ← hnum]
  by_cases hsmall : chunkOffset + numAvail ≤ OffsetToChecksumBlockEnd chunkOffset
  · simp only [if_pos hsmall]
    exact DoSmallReadFromServer_reader hlt
  · simp only [if_neg hsmall]
    set ops := splitRead chunkOffset numAvail numAvail 0 with hops
    have hsum : (ops.map (·.numBytes)).sum = numAvail := by
      rw [hops, splitRead_sum (by omega) (Nat.zero_le _) (Or.inr (Or.inr (not_le.1 hsmall).le)), Nat.sub_zero]
    have hlaid : Laid ops := fun i op hop => by simpa using (splitRead_laid hop).1
    have hfresh : ∀ op ∈ ops, op.content = [] := fun op hop => by
      obtain ⟨i, hi⟩ := List.getElem?_of_mem hop
      exact (splitRead_laid hi).2.1
    have hcov : Covered c chunkOffset ops := fun op hop => by
      have hle := hlaid.le_sum hop
      have hoff := splitRead_offset hop
      exact ⟨hoff, by omega⟩
    refine ⟨⟨numAvail, ops.mapIdx (brought (Fd.reader c)), fillBuf (Fd.reader c) ops buf ops.length⟩, ?_, rfl, ?_⟩
    · have hpos : 0 < ops.length := splitRead_pos hsmall
      have hrun := DoPipelinedRead_reader c buf window hpos hfresh
      rw [DoLargeReadFromServer, if_pos hlt.le, ← hnum]
      simp only [← hops, hrun, Option.map_some, tally_reader hcov, hsum]
    · rw [fillBuf_reader hlaid hcov le_rfl, List.take_length, hsum]

/-! ## The pipelined write -/

section Write

variable {st : Pipe} {slot : Fin 2}

theorem GetCommitReply_healthy (hgood : st.good = true) : (GetCommitReply Fd.healthy slot st).1 = 0 ∧
    (GetCommitReply Fd.healthy slot st).2.good = true ∧ (GetCommitReply Fd.healthy slot st).2.ops = st.ops ∧
    (GetCommitReply Fd.healthy slot st).2.sent = st.sent := by
  simp [GetCommitReply, DoOpResponse, Fd.healthy, hgood]

/-- What has been sent after another group. -/
theorem sent_take {ops : List WritePrepareOp} (next count : ℕ) :
    ops.take next ++ (ops.drop next).take (min (next + count) ops.length - next) = ops.take (next + count) := by
  rw [← List.take_add, List.take_eq_take_iff]
  rcases Nat.le_total next ops.length with hle | hle <;> omega

/-- A group and its commit go out. -/
theorem healthy_group {next : ℕ} (minOps seq : ℕ) (slot : Fin 2) (hgood : st.good = true)
    (hsent : st.sent = st.ops.take next) : ∃ st₁ st₂, PushData Fd.healthy next minOps st = (0, st₁) ∧
      SendCommit Fd.healthy seq slot st₁ = (0, st₂) ∧ st₂.good = true ∧ st₂.ops = st.ops ∧
      st₂.sent = st.ops.take (next + minOps) := by
  have hpush := PushData_eq (m := Fd.healthy) hgood next minOps fun _ _ _ => rfl
  rw [hsent, sent_take] at hpush
  have hgood' : ({ st with sent := st.ops.take (next + minOps) } : Pipe).good = true := hgood
  exact ⟨_, _, hpush, SendCommit_ok hgood' rfl slot, hgood, rfl, rfl⟩

theorem pipeLoop_healthy {minOps fuel next : ℕ} (seq : ℕ) (prevCommit currCommit : Fin 2) (hgood : st.good = true)
    (hsent : st.sent = st.ops.take next) (hfuel : st.ops.length ≤ next + fuel * minOps) :
    ∃ prev st', pipeLoop Fd.healthy minOps fuel next seq prevCommit currCommit st = .done prev st' ∧
      st'.good = true ∧ st'.ops = st.ops ∧ st'.sent = st.ops := by
  induction fuel generalizing next seq prevCommit currCommit st with
  | zero =>
    refine ⟨_, _, rfl, hgood, rfl, ?_⟩
    rw [hsent, List.take_of_length_le (by omega)]
  | succ fuel ih =>
    rw [pipeLoop]
    rcases Nat.lt_or_ge next st.ops.length with hlt | hge
    · obtain ⟨st₁, st₂, hpush, hcommit, hgood₂, hops₂, hsent₂⟩ :=
        healthy_group minOps seq currCommit hgood hsent
      obtain ⟨hres, hgood₃, hops₃, hsent₃⟩ := @GetCommitReply_healthy st₂ prevCommit hgood₂
      simp only [if_pos hlt, hpush, hcommit, hres, lt_irrefl, if_false]
      have hsent₃' : (GetCommitReply Fd.healthy prevCommit st₂).2.sent =
          (GetCommitReply Fd.healthy prevCommit st₂).2.ops.take (next + minOps) := by
        rw [hsent₃, hops₃, hsent₂, hops₂]
      obtain ⟨prev, st', hrun, hgood', hops', hsent'⟩ := ih (seq + 1) currCommit (currCommit + 1) hgood₃ hsent₃' (by
        rw [Nat.succ_mul] at hfuel
        rw [hops₃, hops₂]
        omega)
      exact ⟨prev, st', hrun, hgood', by rw [hops', hops₃, hops₂], by rw [hsent', hops₃, hops₂]⟩
    · rw [if_neg (by omega)]
      refine ⟨_, _, rfl, hgood, rfl, ?_⟩
      rw [hsent, List.take_of_length_le hge]

/-- All operations go out in order, and each is marked as written. -/
theorem DoPipelinedWrite_healthy (ops : List WritePrepareOp) :
    ∃ st, DoPipelinedWrite Fd.healthy (.start ops true) = (0, st) ∧ st.sent = ops ∧
      st.ops = ops.map fun op => setStatus op.numBytes op := by
  rcases Nat.eq_zero_or_pos ops.length with hzero | hpos
  · obtain rfl := List.eq_nil_of_length_eq_zero hzero
    exact ⟨_, rfl, rfl, rfl⟩
  have hmin := minOpsWrite_pos hpos
  obtain ⟨st₁, st₂, hpush, hcommit, hgood₂, hops₂, hsent₂⟩ :=
    healthy_group (minOpsWrite ops.length) 0 0 (show (Pipe.start ops true).good = true from rfl)
      (show (Pipe.start ops true).sent = (Pipe.start ops true).ops.take 0 from rfl)
  rw [Nat.zero_add] at hsent₂
  have hfuel : st₂.ops.length ≤ minOpsWrite ops.length + st₂.ops.length * minOpsWrite ops.length :=
    (Nat.le_mul_of_pos_right _ hmin).trans (Nat.le_add_left _ _)
  obtain ⟨prev, st', hrun, hgood', hops', hsent'⟩ := pipeLoop_healthy 1 0 1 hgood₂ (by rw [hsent₂, hops₂]) hfuel
  obtain ⟨hres, -, hops₃, hsent₃⟩ := @GetCommitReply_healthy st' prev hgood'
  have heq := DoPipelinedWrite_eq (show 0 < (Pipe.start ops true).ops.length from hpos) hpush hcommit
  rw [heq]
  change ∃ st, ((pipeLoop Fd.healthy (minOpsWrite ops.length) st₂.ops.length (minOpsWrite ops.length) 1 0 1 st₂).finish
    Fd.healthy) = (0, st) ∧ _
  rw [hrun]
  simp only [Exit.finish, hres, error_out, lt_irrefl, if_false]
  refine ⟨_, rfl, ?_, ?_⟩
  · rw [hsent₃, hsent', hops₂]
    rfl
  · rw [hops₃, hops', hops₂]
    rfl

/-! ## A chunk that is written -/

theorem Stored.write_nil (c : Stored) (offset : ℕ) : c.write offset [] = c := by
  ext
  · simp [Stored.write]
  · simp [Stored.write]

/-- Two adjacent writes are one. -/
theorem Stored.write_append (c : Stored) (offset : ℕ) (d e : List UInt8) :
    c.write offset (d ++ e) = (c.write offset d).write (offset + d.length) e := by
  ext
  · simp only [Stored.write, List.append_eq_nil_iff, List.length_append]
    rcases eq_or_ne d [] with rfl | hd
    · simp
    rcases eq_or_ne e [] with rfl | he
    · simp [hd]
    · simp only [hd, he, and_false, if_false]
      omega
  · simp [Stored.write, store_append]

theorem writeSize_spec (offset : ℕ) {left : ℕ} (h : 0 < left) :
    0 < Fd.writeSize offset left ∧ Fd.writeSize offset left ≤ left := by
  have hblock : offset < OffsetToChecksumBlockEnd offset := by
    simp only [OffsetToChecksumBlockEnd, CHECKSUM_BLOCKSIZE]
    omega
  unfold Fd.writeSize
  generalize hn : min MAX_BYTES_PER_WRITE_IO left = n
  have hsmall : n ≤ CHECKSUM_BLOCKSIZE := hn ▸ min_le_left _ _
  have hle : n ≤ left := hn ▸ min_le_right _ _
  have hpos : 0 < n := hn ▸ lt_min (by decide) h
  simp only [not_lt.2 hsmall, and_false, if_false]
  split_ifs <;> omega

/-- The operations of a write overwrite the chunk with its bytes. -/
theorem applyWrites_split {offset numAvail fuel r : ℕ} (c : Stored) (d : List UInt8) (hd : numAvail ≤ d.length)
    (hr : r ≤ numAvail) (hfuel : numAvail ≤ r + fuel) :
    Fd.applyWrites c (Fd.splitWrite offset d numAvail fuel r) =
      c.write (offset + r) ((d.drop r).take (numAvail - r)) := by
  induction fuel generalizing c r with
  | zero =>
    obtain rfl : r = numAvail := by omega
    simp [Fd.splitWrite, Fd.applyWrites, Stored.write_nil]
  | succ fuel ih =>
    rcases Nat.lt_or_ge r numAvail with hlt | hge
    · obtain ⟨hpos, hn⟩ := writeSize_spec (offset + r) (Nat.sub_pos_of_lt hlt)
      rw [Fd.splitWrite, if_pos hlt]
      set n := Fd.writeSize (offset + r) (numAvail - r)
      have hlen : ((d.drop r).take n).length = n := by
        rw [List.length_take, List.length_drop]
        omega
      change Fd.applyWrites (c.write (offset + r) ((d.drop r).take n))
        (Fd.splitWrite offset d numAvail fuel (r + n)) = _
      rw [ih _ (by omega) (by omega)]
      have htake : numAvail - r = n + (numAvail - (r + n)) := by omega
      rw [htake, List.take_add, Stored.write_append, hlen, List.drop_drop, Nat.add_assoc]
    · obtain rfl : r = numAvail := by omega
      rw [Fd.splitWrite, if_neg (by omega)]
      simp [Fd.applyWrites, Stored.write_nil]

theorem splitWrite_sum {offset numAvail fuel r : ℕ} (d : List UInt8) (hr : r ≤ numAvail)
    (hfuel : numAvail ≤ r + fuel) :
    ((Fd.splitWrite offset d numAvail fuel r).map (·.numBytes)).sum = numAvail - r := by
  induction fuel generalizing r with
  | zero =>
    obtain rfl : r = numAvail := by omega
    simp [Fd.splitWrite]
  | succ fuel ih =>
    rcases Nat.lt_or_ge r numAvail with hlt | hge
    · obtain ⟨hpos, hn⟩ := writeSize_spec (offset + r) (Nat.sub_pos_of_lt hlt)
      rw [Fd.splitWrite, if_pos hlt, List.map_cons, List.sum_cons, ih (by omega) (by omega)]
      simp only
      omega
    · rw [Fd.splitWrite, if_neg (by omega), List.map_nil, List.sum_nil]
      omega

/-- All operations succeeded. -/
theorem committed_eq (ops : List WritePrepareOp) :
    Fd.committed (ops.map fun op => setStatus op.numBytes op) = ((ops.map (·.numBytes)).sum : ℕ) := by
  have hfold : ∀ n : ℕ, (ops.map fun op => setStatus op.numBytes op).foldl (fun numIO op =>
      if op.status < 0 then op.status else if 0 ≤ numIO then numIO + op.status else numIO) (n : ℤ) =
        (n + (ops.map (·.numBytes)).sum : ℕ) := by
    induction ops with
    | nil => simp
    | cons op ops ih =>
      intro n
      have hnot : ¬ ((op.numBytes : ℤ) < 0) := by omega
      have hstep := ih (n + op.numBytes)
      simp only [List.map_cons, List.foldl_cons, setStatus, hnot, if_false, Int.natCast_nonneg, if_true,
        List.sum_cons] at hstep ⊢
      rw [← Nat.add_assoc, ← hstep, Nat.cast_add]
  have h := hfold 0
  rwa [Nat.zero_add] at h

namespace Fd

/-- The file after the bytes `d` have been written at `offset` of its current chunk. -/
def afterWrite (fd : Fd) (chunk : ChunkAttr) (c : Stored) (offset : ℕ) (d : List UInt8) : Fd :=
  let fd := { fd with chunks := Function.update fd.chunks chunk.chunkId (some (c.write offset d)) }
  if chunk.chunkSize < offset + d.length then
    { fd.setCurrChunk { chunk with chunkSize := offset + d.length } with
      fileSize := max fd.fileSize ((offset + d.length : ℕ) + fd.currPos.chunkNum * Chunk.CHUNKSIZE).toNat }
  else fd

/-- A write overwrites the chunk, up to its end. -/
theorem DoLargeWriteToServer_eq {fd : Fd} {chunk : ChunkAttr} {c : Stored} {offset : ℕ} (d : List UInt8)
    (hcur : fd.GetCurrChunk = some chunk) (hc : fd.chunks chunk.chunkId = some c) (hoff : offset ≤ Chunk.CHUNKSIZE) :
    fd.DoLargeWriteToServer offset d = some (min d.length (Chunk.CHUNKSIZE - offset),
      fd.afterWrite chunk c offset (d.take (Chunk.CHUNKSIZE - offset))) := by
  set n := min d.length (Chunk.CHUNKSIZE - offset) with hn
  obtain ⟨st, hrun, hsent, hops⟩ := DoPipelinedWrite_healthy (splitWrite offset d n n 0)
  have hsum : ((splitWrite offset d n n 0).map (·.numBytes)).sum = n := by
    rw [splitWrite_sum d (Nat.zero_le _) (by omega), Nat.sub_zero]
  have happly : applyWrites c (splitWrite offset d n n 0) = c.write offset (d.take (Chunk.CHUNKSIZE - offset)) := by
    have htake : d.take n = d.take (Chunk.CHUNKSIZE - offset) := by
      rw [List.take_eq_take_iff]
      omega
    rw [applyWrites_split c d (min_le_left _ _) (Nat.zero_le _) (by omega), Nat.sub_zero, Nat.add_zero, List.drop_zero,
      htake]
  have hlen : (d.take (Chunk.CHUNKSIZE - offset)).length = n := by
    rw [List.length_take]
    omega
  rw [DoLargeWriteToServer, hcur]
  simp only [hc, if_pos hoff, ← hn, hrun, hsent, hops, committed_eq, hsum, happly, afterWrite, hlen]
  have hlt : (chunk.chunkSize : ℤ) < offset + n ↔ chunk.chunkSize < offset + n := by omega
  rw [if_pos ⟨trivial, Int.natCast_nonneg n⟩]
  simp only [hlt, Int.toNat_natCast]
  split_ifs <;> rfl

end Fd

end Write

end Kfs.Client
