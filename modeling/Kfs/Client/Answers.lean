import Kfs.Client.PipelinedRead
import Mathlib.Algebra.Order.BigOperators.Group.List

/-!
# The answer to a read

What `ReadFromServer` returns when it is asked for a piece of a chunk.

* `ReadPipe.DoOpResponse_reply`, ..., `DoPipelinedRead_reply`: the memory has no part in the result;
* `answer`: the negative status of the read, or the number of its bytes;
* `ReadServer.Fits`: no reply is longer than what was asked for;
* `ReadServer.Feeds`: no reply with data is empty;
* **`answer_isSome`**, **`answer_ne_zero`**: such servers answer, and not with nothing.
-/

namespace Kfs.Client

open Kfs.Lib (store)

/-- No reply is longer than what was asked for. -/
def ReadServer.Fits (s : ReadServer) : Prop :=
  ∀ i op checksum content, s.answer i op = .data checksum content → content.length ≤ op.numBytes

/-- A reply with data to an operation that asks for bytes is not empty. -/
def ReadServer.Feeds (s : ReadServer) : Prop :=
  ∀ i op checksum content, 0 < op.numBytes → s.answer i op = .data checksum content → content ≠ []

/-- The result of a step without the memory. -/
def reply (r : ℤ × ReadPipe) : ℤ × List ReadOp × Bool := (r.1, r.2.ops, r.2.good)

/-- What `ReadFromServer` returns on an open connection, into any memory. -/
def answer (s : ReadServer) (chunkSize chunkOffset numBytes : ℕ) : Option ℤ :=
  (ReadFromServer s READ_WINDOW chunkSize chunkOffset numBytes true fun _ => 0).map ReadResult.numIO

variable {s : ReadServer} {ops : List ReadOp} {good leaseExpired : Bool} {buf buf' : ℕ → UInt8}
  {i left first next window chunkSize chunkOffset numBytes : ℕ}

/-! ## The memory -/

theorem DoOpSend_reply :
    reply (ReadPipe.DoOpSend s i ⟨ops, good, buf⟩) = reply (ReadPipe.DoOpSend s i ⟨ops, good, buf'⟩) := by
  unfold ReadPipe.DoOpSend
  dsimp only
  split_ifs <;> rfl

theorem DoOpResponse_reply : (ReadPipe.DoOpResponse s i ⟨ops, good, buf⟩).map reply =
    (ReadPipe.DoOpResponse s i ⟨ops, good, buf'⟩).map reply := by
  unfold ReadPipe.DoOpResponse
  dsimp only
  cases ops[i]? with
  | none => rfl
  | some op =>
    cases good with
    | false => rfl
    | true =>
      dsimp only
      rw [if_pos rfl, if_pos rfl]
      cases s.answer i op with
      | data checksum content =>
        dsimp only
        split_ifs <;> rfl
      | error code => rfl
      | timedOut => rfl
      | broken => rfl

/-- What follows a step that has not failed. -/
theorem bind_reply {r r' : Option (ℤ × ReadPipe)} (h : r.map reply = r'.map reply)
    {k : ReadPipe → Option (ℤ × ReadPipe)}
    (hk : ∀ ops good buf buf', (k ⟨ops, good, buf⟩).map reply = (k ⟨ops, good, buf'⟩).map reply) :
    (match (motive := Option (ℤ × ReadPipe) → Option (ℤ × ReadPipe)) r with
      | none => none
      | some (res, st) => if res < 0 then some (-1, st) else k st).map reply =
    (match (motive := Option (ℤ × ReadPipe) → Option (ℤ × ReadPipe)) r' with
      | none => none
      | some (res, st) => if res < 0 then some (-1, st) else k st).map reply := by
  cases r with
  | none =>
    cases r' with
    | none => rfl
    | some r' => cases h
  | some r =>
    cases r' with
    | none => cases h
    | some r' =>
      obtain ⟨res, ops, good, buf⟩ := r
      obtain ⟨res', ops', good', buf'⟩ := r'
      cases h
      dsimp only
      split_ifs
      · rfl
      · exact hk ops good buf buf'

theorem drainLoop_reply : (drainLoop s leaseExpired left first ⟨ops, good, buf⟩).map reply =
    (drainLoop s leaseExpired left first ⟨ops, good, buf'⟩).map reply := by
  induction left generalizing first ops good buf buf' with
  | zero => rfl
  | succ left ih =>
    unfold drainLoop
    refine bind_reply DoOpResponse_reply fun ops good buf buf' => ?_
    split_ifs
    · exact ih
    · exact ih

theorem pipeReadLoop_reply : (pipeReadLoop s left first next ⟨ops, good, buf⟩).map reply =
    (pipeReadLoop s left first next ⟨ops, good, buf'⟩).map reply := by
  induction left generalizing first next ops good buf buf' with
  | zero => exact drainLoop_reply
  | succ left ih =>
    unfold pipeReadLoop
    refine bind_reply DoOpResponse_reply fun ops good buf buf' => ?_
    split_ifs
    · have hsend : (some (ReadPipe.DoOpSend s next ⟨ops.modify first verify, good, buf⟩)).map reply =
          (some (ReadPipe.DoOpSend s next ⟨ops.modify first verify, good, buf'⟩)).map reply :=
        congrArg some DoOpSend_reply
      exact bind_reply hsend fun ops good buf buf' => ih
    · exact drainLoop_reply

theorem plumbLoop_reply :
    reply (plumbLoop s left next ⟨ops, good, buf⟩) = reply (plumbLoop s left next ⟨ops, good, buf'⟩) := by
  induction left generalizing next ops good buf buf' with
  | zero => rfl
  | succ left ih =>
    have hsend := @DoOpSend_reply s ops good buf buf' next
    unfold plumbLoop
    generalize ReadPipe.DoOpSend s next ⟨ops, good, buf⟩ = r at hsend ⊢
    generalize ReadPipe.DoOpSend s next ⟨ops, good, buf'⟩ = r' at hsend ⊢
    obtain ⟨res, ops, good, buf⟩ := r
    obtain ⟨res', ops', good', buf'⟩ := r'
    cases hsend
    dsimp only
    split_ifs
    · rfl
    · exact ih

theorem DoPipelinedRead_reply : (DoPipelinedRead s window ⟨ops, good, buf⟩).map reply =
    (DoPipelinedRead s window ⟨ops, good, buf'⟩).map reply := by
  have hplumb : (some (plumbLoop s (min window ops.length) 0 ⟨ops, good, buf⟩)).map reply =
      (some (plumbLoop s (min window ops.length) 0 ⟨ops, good, buf'⟩)).map reply := congrArg some plumbLoop_reply
  unfold DoPipelinedRead
  dsimp only
  exact bind_reply (k := fun st => pipeReadLoop s (st.ops.length - min window ops.length) 0 (min window ops.length) st)
    hplumb fun ops good buf buf' => pipeReadLoop_reply

/-- What a small read returns: its reply, unless the request cannot be sent. -/
theorem DoSmallReadFromServer_result :
    (DoSmallReadFromServer s chunkSize chunkOffset numBytes good buf).map ReadResult.numIO =
      if good && s.takes 0 then
        match s.answer 0 (smallRead chunkSize chunkOffset numBytes) with
        | .data _ content =>
          if content.length ≤ (smallRead chunkSize chunkOffset numBytes).numBytes then some (content.length : ℤ)
          else none
        | .error code => some (Int.negSucc code)
        | .timedOut => some (-ETIMEDOUT)
        | .broken => some (-Chunk.EHOSTUNREACH)
      else some (-Chunk.EHOSTUNREACH) := by
  unfold DoSmallReadFromServer ReadPipe.DoOpSend ReadPipe.DoOpResponse
  cases good with
  | false => rfl
  | true =>
    cases s.takes 0 with
    | false => rfl
    | true =>
      simp only [Bool.and_self, if_true, lt_irrefl, if_false, List.getElem?_cons_zero]
      cases s.answer 0 (smallRead chunkSize chunkOffset numBytes) with
      | data checksum content =>
        dsimp only
        split_ifs
        · simp
        · rfl
      | error code => rfl
      | timedOut => rfl
      | broken => rfl

/-- The memory has no part in what is returned. -/
theorem ReadFromServer_answer :
    (ReadFromServer s READ_WINDOW chunkSize chunkOffset numBytes true buf).map ReadResult.numIO =
      answer s chunkSize chunkOffset numBytes := by
  unfold answer ReadFromServer
  dsimp only
  split_ifs with hle hsmall
  · rw [DoSmallReadFromServer_result, DoSmallReadFromServer_result]
  · have htally (buf : ℕ → UInt8) :
        (DoLargeReadFromServer s READ_WINDOW chunkSize chunkOffset numBytes true buf).map ReadResult.numIO =
          ((DoPipelinedRead s READ_WINDOW ⟨splitRead chunkOffset (min (chunkSize - chunkOffset) numBytes)
            (min (chunkSize - chunkOffset) numBytes) 0, true, buf⟩).map reply).map fun r => tally r.1 r.2.1 := by
      unfold DoLargeReadFromServer
      rw [if_pos hle, Option.map_map, Option.map_map]
      rfl
    rw [htally, htally, DoPipelinedRead_reply]
  · rfl

/-! ## Servers that answer -/

theorem DoOpSend_length {st : ReadPipe} : (ReadPipe.DoOpSend s i st).2.ops.length = st.ops.length := by
  unfold ReadPipe.DoOpSend
  split_ifs
  · rfl
  · exact List.length_modify ..

theorem DoOpResponse_some (hfits : s.Fits) {st : ReadPipe} (hi : i < st.ops.length) :
    ∃ res st', ReadPipe.DoOpResponse s i st = some (res, st') ∧ st'.ops.length = st.ops.length := by
  unfold ReadPipe.DoOpResponse
  rw [List.getElem?_eq_getElem hi]
  dsimp only
  cases st.good with
  | false => exact ⟨_, _, rfl, List.length_set⟩
  | true =>
    rw [if_pos rfl]
    cases hans : s.answer i st.ops[i] with
    | data checksum content =>
      dsimp only
      rw [if_pos (hfits i st.ops[i] checksum content hans)]
      exact ⟨_, _, rfl, List.length_set⟩
    | error code => exact ⟨_, _, rfl, List.length_set⟩
    | timedOut => exact ⟨_, _, rfl, List.length_set⟩
    | broken => exact ⟨_, _, rfl, List.length_set⟩

theorem drainLoop_some (hfits : s.Fits) {st : ReadPipe} (hle : first + left ≤ st.ops.length) :
    (drainLoop s leaseExpired left first st).isSome := by
  induction left generalizing first st with
  | zero => rfl
  | succ left ih =>
    obtain ⟨res, st', hresponse, hlength⟩ := DoOpResponse_some hfits (show first < st.ops.length by omega)
    unfold drainLoop
    rw [hresponse]
    dsimp only
    split_ifs
    · rfl
    · exact ih (by rw [List.length_modify]; omega)
    · exact ih (by omega)

theorem pipeReadLoop_some (hfits : s.Fits) {st : ReadPipe} (hfirst : first ≤ next)
    (hle : next + left ≤ st.ops.length) : (pipeReadLoop s left first next st).isSome := by
  induction left generalizing first next st with
  | zero => exact drainLoop_some hfits (by omega)
  | succ left ih =>
    obtain ⟨res, st', hresponse, hlength⟩ := DoOpResponse_some hfits (show first < st.ops.length by omega)
    unfold pipeReadLoop
    rw [hresponse]
    dsimp only
    split_ifs
    · rfl
    · rfl
    · refine ih (by omega) ?_
      rw [DoOpSend_length, List.length_modify]
      omega
    · exact drainLoop_some hfits (by rw [List.length_modify]; omega)

theorem plumbLoop_length {st : ReadPipe} : (plumbLoop s left next st).2.ops.length = st.ops.length := by
  induction left generalizing next st with
  | zero => rfl
  | succ left ih =>
    unfold plumbLoop
    dsimp only
    split_ifs
    · exact DoOpSend_length
    · exact ih.trans DoOpSend_length

theorem DoPipelinedRead_some (hfits : s.Fits) {st : ReadPipe} : (DoPipelinedRead s window st).isSome := by
  have hlength := @plumbLoop_length s (min window st.ops.length) 0 st
  unfold DoPipelinedRead
  dsimp only
  split_ifs
  · rfl
  · exact pipeReadLoop_some hfits (Nat.zero_le _) (by omega)

theorem DoSmallReadFromServer_some (hfits : s.Fits) :
    ((DoSmallReadFromServer s chunkSize chunkOffset numBytes good buf).map ReadResult.numIO).isSome := by
  rw [DoSmallReadFromServer_result]
  split_ifs
  · cases hans : s.answer 0 (smallRead chunkSize chunkOffset numBytes) with
    | data checksum content =>
      dsimp only
      rw [if_pos (hfits _ _ _ _ hans)]
      rfl
    | error code => rfl
    | timedOut => rfl
    | broken => rfl
  · rfl

/-- Servers whose replies fit answer every read of a piece of a chunk. -/
theorem answer_isSome (hfits : s.Fits) (hle : chunkOffset ≤ chunkSize) :
    (answer s chunkSize chunkOffset numBytes).isSome := by
  unfold answer ReadFromServer
  rw [if_pos hle]
  dsimp only
  split_ifs
  · exact DoSmallReadFromServer_some hfits
  · unfold DoLargeReadFromServer
    rw [if_pos hle, Option.isSome_map, Option.isSome_map]
    exact DoPipelinedRead_some hfits

theorem DoSmallReadFromServer_ne_zero (hfeeds : s.Feeds) (hsize : 0 < chunkSize) (hn : 0 < numBytes) :
    (DoSmallReadFromServer s chunkSize chunkOffset numBytes good buf).map ReadResult.numIO ≠ some 0 := by
  rw [DoSmallReadFromServer_result]
  have hpos : 0 < (smallRead chunkSize chunkOffset numBytes).numBytes := lt_min hsize hn
  intro hzero
  split_ifs at hzero
  · cases hans : s.answer 0 (smallRead chunkSize chunkOffset numBytes) with
    | data checksum content =>
      rw [hans] at hzero
      dsimp only at hzero
      split_ifs at hzero
      have hnil := List.length_eq_zero_iff.1 (Int.natCast_eq_zero.1 (Option.some.inj hzero))
      exact hfeeds _ _ _ _ hpos hans hnil
    | error code =>
      rw [hans] at hzero
      cases hzero
    | timedOut =>
      rw [hans] at hzero
      cases hzero
    | broken =>
      rw [hans] at hzero
      cases hzero
  · cases hzero

theorem brought_status_pos {op : ReadOp} (hfeeds : s.Feeds) (hans : Replies s i op) (hpos : 0 < op.numBytes)
    (h : 0 ≤ (brought s i op).status) : 0 < (brought s i op).status := by
  unfold Replies at hans
  unfold brought at h ⊢
  cases hdata : s.answer i op with
  | data checksum content =>
    exact Int.natCast_pos.2 (List.length_pos_iff.2 (hfeeds i op checksum content hpos hdata))
  | error code =>
    rw [hdata] at h
    exact absurd h (Int.not_le.2 (Int.negSucc_lt_zero code))
  | timedOut =>
    rw [hdata] at hans
    cases hans
  | broken =>
    rw [hdata] at hans
    cases hans

theorem verify_pos {op : ReadOp} (h : 0 ≤ (verify op).status) (hpos : 0 ≤ op.status → 0 < op.status) :
    0 < (verify op).status := by
  unfold verify at h ⊢
  split_ifs at h ⊢ with hbad
  · exact absurd h (show ¬ (0 : ℤ) ≤ -EBADCKSUM by decide)
  · exact hpos h

theorem splitRead_head {fuel r : ℕ} (h : r < numAvail) : ∃ op rest,
    splitRead chunkOffset numAvail (fuel + 1) r = op :: rest ∧ 0 < op.numBytes := by
  rw [splitRead, if_pos h]
  refine ⟨_, _, rfl, ?_⟩
  dsimp only
  split_ifs
  · simp only [OffsetToChecksumBlockEnd, Chunk.CHECKSUM_BLOCKSIZE]
    omega
  · exact lt_min (by decide) (by omega)

/-- The first reply to a pipelined read is in error, or it is not empty. -/
theorem DoLargeReadFromServer_ne_zero (hfeeds : s.Feeds) (hlt : chunkOffset < chunkSize) (hn : 0 < numBytes) :
    (DoLargeReadFromServer s window chunkSize chunkOffset numBytes good buf).map ReadResult.numIO ≠ some 0 := by
  intro hzero
  unfold DoLargeReadFromServer at hzero
  rw [if_pos hlt.le, Option.map_map] at hzero
  obtain ⟨⟨res, st⟩, hrun, htally⟩ := Option.map_eq_some_iff.1 hzero
  obtain ⟨fuel, hfuel⟩ := Nat.exists_eq_succ_of_ne_zero
    (show min (chunkSize - chunkOffset) numBytes ≠ 0 by omega)
  have hfresh : ∀ op ∈ splitRead chunkOffset (min (chunkSize - chunkOffset) numBytes)
      (min (chunkSize - chunkOffset) numBytes) 0, op.content = [] := fun op hop => by
    obtain ⟨i, hi⟩ := List.mem_iff_getElem?.1 hop
    exact (splitRead_laid hi).2.1
  obtain ⟨op, rest, hops, hpos⟩ :=
    @splitRead_head chunkOffset (min (chunkSize - chunkOffset) numBytes) fuel 0 (by omega)
  rw [← Nat.succ_eq_add_one, ← hfuel] at hops
  dsimp only at hrun htally
  rw [hops] at hrun hfresh
  -- no operation has failed, and the numbers of their bytes are 0 altogether
  have htally : tally res st.ops = 0 := htally
  obtain ⟨hall, hsum⟩ := tally_nonneg htally.ge
  have hres : 0 ≤ res := by
    by_contra hneg
    exact absurd htally (tally_neg (Or.inl (not_le.1 hneg))).ne
  have hfirst : ∀ op' ∈ st.ops, op'.status ≤ 0 := by
    intro op' hop'
    have hle := List.single_le_sum (l := st.ops.map (·.status)) (by simpa using hall) _ (List.mem_map_of_mem hop')
    omega
  have hreply (hans : Replies s 0 op) := brought_status_pos hfeeds hans hpos
  cases @DoPipelinedRead_end s (op :: rest) buf window good (Nat.succ_pos _) hfresh with
  | fails hfails => exact absurd (hfails res st hrun) (not_lt.2 hres)
  | complete hwell h =>
    cases h.symm.trans hrun
    have hans := hwell.answered 0 op le_rfl (Nat.succ_pos _) rfl
    have hmem : settled s ((op :: rest).length - min window (op :: rest).length) 0 op ∈
        (op :: rest).mapIdx (settled s ((op :: rest).length - min window (op :: rest).length)) := by
      rw [List.mapIdx_cons]
      exact List.mem_cons_self
    have hle := hfirst _ hmem
    have hge := hall _ hmem
    unfold settled at hle hge
    split_ifs at hle hge
    · exact absurd (verify_pos hge (hreply hans)) (not_lt.2 hle)
    · exact absurd (hreply hans hge) (not_lt.2 hle)
  | expired _ k _ hans h =>
    cases h.symm.trans hrun
    have hans := hans 0 op le_rfl (Nat.succ_pos _) rfl
    have hmem : stopped s (k + 1) (k + 1 + (min window (op :: rest).length - 1)) 0 op ∈
        (op :: rest).mapIdx (stopped s (k + 1) (k + 1 + (min window (op :: rest).length - 1))) := by
      rw [List.mapIdx_cons]
      exact List.mem_cons_self
    have hle := hfirst _ hmem
    have hge := hall _ hmem
    unfold stopped at hle hge
    rw [if_pos (Nat.succ_pos k)] at hle hge
    exact absurd (verify_pos hge (hreply hans)) (not_lt.2 hle)

/-- Servers that feed do not answer a read of a piece of a chunk with nothing. -/
theorem answer_ne_zero (hfeeds : s.Feeds) (hlt : chunkOffset < chunkSize) (hn : 0 < numBytes) :
    answer s chunkSize chunkOffset numBytes ≠ some 0 := by
  intro hzero
  unfold answer ReadFromServer at hzero
  rw [if_pos hlt.le] at hzero
  dsimp only at hzero
  split_ifs at hzero
  · exact DoSmallReadFromServer_ne_zero hfeeds (by omega) hn hzero
  · exact DoLargeReadFromServer_ne_zero hfeeds hlt hn hzero

end Kfs.Client
