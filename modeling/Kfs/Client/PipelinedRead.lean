import Kfs.Chunk.Checksum
import Kfs.Client.PipelinedWrite
import Kfs.Lib.Memory

/-!
# The read paths

`ReadFromServer` of `KfsRead.cc`: a read within a checksum block is one operation, any other read is cut into
operations of which a window is kept on the way.

* `DoSmallReadFromServer`, `DoPipelinedRead`, `DoLargeReadFromServer`, `ReadFromServer`;
* `ReadOp.Matches`: the data of a reply agrees with the checksum that came with it;
* `Unchecked`: the servers' answers for which data that does not match gets through;
* **`ReadFromServer_sound`**: only matching data is returned exactly when the answers are not of that kind.
-/

namespace Kfs.Client

open Kfs.Chunk (CHECKSUM_BLOCKSIZE OffsetToChecksumBlockStart ComputeBlockChecksum)
open Kfs.Lib (store)

def MAX_BYTES_PER_READ_IO : ℕ := CHECKSUM_BLOCKSIZE * 2
def EBADCKSUM : ℤ := 1002
def EBADVERS : ℤ := 1000
def ESERVERBUSY : ℤ := 1004

def OffsetToChecksumBlockEnd (offset : ℕ) : ℕ := (offset / CHECKSUM_BLOCKSIZE + 1) * CHECKSUM_BLOCKSIZE

def NeedToRetryRead (status : ℤ) : Bool :=
  status = -EBADVERS || status = -EBADCKSUM || status = -ESERVERBUSY || status = -Chunk.EHOSTUNREACH ||
    status = -ETIMEDOUT

/-- `ReadOp`, with the place of its content buffer in the buffer of the read and the content that has come in. -/
structure ReadOp where
  offset : ℕ
  numBytes : ℕ
  pos : ℕ
  status : ℤ := 0
  checksum : UInt32 := 0
  content : List UInt8 := []
  deriving DecidableEq

/-- How the wait for the reply to a read ends; a reply arrives whole. A reply with data has the number of its bytes in
both `Status` and `Content-length`, as the chunk server writes it; its checksum is 0 when it has none, which the source
cannot tell from a checksum that is 0. The other replies carry a negative status. -/
inductive ReadArrival
  | data (checksum : UInt32) (content : List UInt8)
  | error (code : ℕ)
  | timedOut
  | broken

/-- What a read depends on: which requests can be sent, how they are answered, and whether the lease on the chunk is
good when the operation is about to be sent. -/
structure ReadServer where
  takes : ℕ → Bool
  answer : ℕ → ReadOp → ReadArrival
  leaseGood : ℕ → Bool

/-- The operations of a read, whether the socket is good, and the buffer. -/
structure ReadPipe where
  ops : List ReadOp
  good : Bool
  buf : ℕ → UInt8

variable (s : ReadServer)

namespace ReadPipe

/-- `DoOpSend`. -/
def DoOpSend (i : ℕ) (st : ReadPipe) : ℤ × ReadPipe :=
  if st.good && s.takes i then (0, st)
  else (-1, { st with ops := st.ops.modify i fun op => { op with status := -Chunk.EHOSTUNREACH }, good := false })

/-- `DoOpResponse`. A reply longer than asked for runs over the content buffer. -/
def DoOpResponse (i : ℕ) (st : ReadPipe) : Option (ℤ × ReadPipe) :=
  match st.ops[i]? with
  | none => none
  | some op =>
    let fail (status : ℤ) (good : Bool) : ℤ × ReadPipe :=
      (-1, { st with ops := st.ops.set i { op with status := status }, good := good })
    if st.good then
      match s.answer i op with
      | .data checksum content =>
        if content.length ≤ op.numBytes then
          some (0, { st with
            ops := st.ops.set i { op with status := content.length, checksum := checksum, content := content }
            buf := store st.buf op.pos content })
        else none
      | .error code => some (0, { st with ops := st.ops.set i { op with status := Int.negSucc code } })
      | .timedOut => some (fail (-ETIMEDOUT) true)
      | .broken => some (fail (-Chunk.EHOSTUNREACH) false)
    else some (fail (-Chunk.EHOSTUNREACH) false)

end ReadPipe

/-- The check of a reply in the loop of `DoPipelinedRead`. -/
def verify (op : ReadOp) : ReadOp :=
  if 0 ≤ op.status ∧ op.checksum ≠ 0 ∧ ComputeBlockChecksum op.content ≠ op.checksum then
    { op with status := -EBADCKSUM }
  else op

/-- The first loop of `DoPipelinedRead`, with the number of operations still to be sent. -/
def plumbLoop : ℕ → ℕ → ReadPipe → ℤ × ReadPipe
  | 0, _, st => (0, st)
  | left + 1, next, st =>
    let (res, st) := ReadPipe.DoOpSend s next st
    if res < 0 then (-1, st) else plumbLoop left (next + 1) st

/-- The last loop, with the number of replies still to come. -/
def drainLoop (leaseExpired : Bool) : ℕ → ℕ → ReadPipe → Option (ℤ × ReadPipe)
  | 0, _, st => some (0, st)
  | left + 1, first, st =>
    match ReadPipe.DoOpResponse s first st with
    | none => none
    | some (res, st) =>
      if res < 0 then some (-1, st)
      else drainLoop leaseExpired left (first + 1)
        (if leaseExpired then { st with ops := st.ops.modify first fun op => { op with status := 0 } } else st)

/-- The loop in the middle, with the number of operations still to be sent, and what comes after it. -/
def pipeReadLoop : ℕ → ℕ → ℕ → ReadPipe → Option (ℤ × ReadPipe)
  | 0, first, next, st => drainLoop s false (next - first) first st
  | left + 1, first, next, st =>
    match ReadPipe.DoOpResponse s first st with
    | none => none
    | some (res, st) =>
      if res < 0 then some (-1, st)
      else
        let st : ReadPipe := { st with ops := st.ops.modify first verify }
        let first := first + 1
        if s.leaseGood next then
          let (res, st) := ReadPipe.DoOpSend s next st
          if res < 0 then some (-1, st) else pipeReadLoop left first (next + 1) st
        else drainLoop s true (next - first) first st

/-- `DoPipelinedRead`, for any size of the window. -/
def DoPipelinedRead (window : ℕ) (st : ReadPipe) : Option (ℤ × ReadPipe) :=
  let minOps := min window st.ops.length
  let (res, st) := plumbLoop s minOps 0 st
  if res < 0 then some (-1, st) else pipeReadLoop s (st.ops.length - minOps) 0 minOps st

/-- The window of the source. -/
def READ_WINDOW : ℕ := MIN_BYTES_PIPELINE_IO / MAX_BYTES_PER_READ_IO

/-- The loop of `DoLargeReadFromServer` that cuts the read into operations. The offsets of blocks are 32-bit numbers in
the source; no chunk is longer than `CHUNKSIZE`, and so no offset of a read is. -/
def splitRead (chunkOffset numAvail : ℕ) : ℕ → ℕ → List ReadOp
  | 0, _ => []
  | fuel + 1, numRead =>
    if numRead < numAvail then
      let offset := chunkOffset + numRead
      let numBytes :=
        if OffsetToChecksumBlockStart offset ≠ offset then OffsetToChecksumBlockEnd offset - offset
        else min MAX_BYTES_PER_READ_IO (numAvail - numRead)
      { offset := offset, numBytes := numBytes, pos := numRead } ::
        splitRead chunkOffset numAvail fuel (numRead + numBytes)
    else []

/-- The loop that adds up the results. -/
def tallyStep (acc : ℤ × ℤ) (op : ReadOp) : ℤ × ℤ :=
  if op.status < 0 then (op.status, if NeedToRetryRead op.status then op.status else acc.2)
  else if 0 ≤ acc.1 then (acc.1 + op.status, acc.2)
  else acc

def tally ( numIO : ℤ) (ops : List ReadOp) : ℤ :=
  let ( numIO, retryStatus) := ops.foldl tallyStep ( numIO, 0)
  if retryStatus ≠ 0 then retryStatus else numIO

/-- The outcome of a read: the result, the operations as the replies left them, and the buffer. -/
structure ReadResult where
  numIO : ℤ
  ops : List ReadOp
  buf : ℕ → UInt8

/-- `DoLargeReadFromServer`. -/
def DoLargeReadFromServer (window chunkSize chunkOffset numBytes : ℕ) (good : Bool) (buf : ℕ → UInt8) :
    Option ReadResult :=
  if chunkOffset ≤ chunkSize then
    let numAvail := min (chunkSize - chunkOffset) numBytes
    let ops := splitRead chunkOffset numAvail numAvail 0
    (DoPipelinedRead s window ⟨ops, good, buf⟩).map fun ( numIO, st) => ⟨tally numIO st.ops, st.ops, st.buf⟩
  else none

/-- The only operation of a small read. -/
def smallRead (chunkSize chunkOffset numBytes : ℕ) : ReadOp :=
  { offset := chunkOffset, numBytes := min chunkSize numBytes, pos := 0 }

/-- `DoSmallReadFromServer`. -/
def DoSmallReadFromServer (chunkSize chunkOffset numBytes : ℕ) (good : Bool) (buf : ℕ → UInt8) : Option ReadResult :=
  let (res, st) := ReadPipe.DoOpSend s 0 ⟨[smallRead chunkSize chunkOffset numBytes], good, buf⟩
  match if res < 0 then some (res, st) else ReadPipe.DoOpResponse s 0 st with
  | none => none
  | some (_, st) =>
    match st.ops with
    | [op] => some ⟨if 0 ≤ op.status then op.content.length else op.status, st.ops, st.buf⟩
    | _ => none

/-- `ReadFromServer`. -/
def ReadFromServer (window chunkSize chunkOffset numBytes : ℕ) (good : Bool) (buf : ℕ → UInt8) : Option ReadResult :=
  if chunkOffset ≤ chunkSize then
    let numAvail := min (chunkSize - chunkOffset) numBytes
    if chunkOffset + numAvail ≤ OffsetToChecksumBlockEnd chunkOffset then
      DoSmallReadFromServer s chunkSize chunkOffset numBytes good buf
    else DoLargeReadFromServer s window chunkSize chunkOffset numBytes good buf
  else none

/-! ## One reply -/

/-- The operation as the reply to it leaves it. -/
def brought (i : ℕ) (op : ReadOp) : ReadOp :=
  match s.answer i op with
  | .data checksum content => { op with status := content.length, checksum := checksum, content := content }
  | .error code => { op with status := Int.negSucc code }
  | _ => op

/-- A reply comes in, and its data fits. -/
def Replies (i : ℕ) (op : ReadOp) : Prop :=
  match s.answer i op with
  | .data _ content => content.length ≤ op.numBytes
  | .error _ => True
  | _ => False

/-- The data agrees with the checksum that came with it; a checksum 0 counts as none. -/
def ReadOp.Matches (op : ReadOp) : Prop := op.checksum = 0 ∨ ComputeBlockChecksum op.content = op.checksum

/-- The buffer after the first `n` replies. -/
def fillBuf (ops : List ReadOp) (buf : ℕ → UInt8) : ℕ → ℕ → UInt8
  | 0 => buf
  | n + 1 =>
    match ops[n]? with
    | some op => store (fillBuf ops buf n) op.pos (brought s n op).content
    | none => fillBuf ops buf n

/-- The function does not succeed. -/
def Fails (r : Option (ℤ × ReadPipe)) : Prop := ∀ res st, r = some (res, st) → res < 0

variable {s} {ops : List ReadOp} {op : ReadOp} {st : ReadPipe} {buf : ℕ → UInt8} {i : ℕ}

theorem Fails.none : Fails none := fun _ _ h => by cases h

theorem Fails.neg {res : ℤ} (h : res < 0) : Fails (some (res, st)) := by
  rintro _ _ ⟨⟩
  exact h

/-- What comes after a reply that does not come in. -/
theorem Fails.bind {r : Option (ℤ × ReadPipe)} (h : Fails r) (k : ReadPipe → Option (ℤ × ReadPipe)) :
    Fails (match (motive := Option (ℤ × ReadPipe) → Option (ℤ × ReadPipe)) r with
      | Option.none => Option.none
      | some (res, st) => if res < 0 then some (-1, st) else k st) := by
  rcases r with _ | ⟨res, st⟩
  · exact Fails.none
  · simp only [if_pos (h res st rfl)]
    exact Fails.neg (by decide)

theorem DoOpSend_good (hgood : st.good = true) (h : s.takes i = true) : ReadPipe.DoOpSend s i st = (0, st) := by
  simp [ReadPipe.DoOpSend, hgood, h]

theorem DoOpSend_bad (st : ReadPipe) (h : (st.good && s.takes i) = false) : (ReadPipe.DoOpSend s i st).1 = -1 := by
  simp [ReadPipe.DoOpSend, h]

/-- A reply comes in. -/
theorem DoOpResponse_replies (hgood : st.good = true) (hop : st.ops[i]? = some op) (hfresh : op.content = [])
    (h : Replies s i op) : ReadPipe.DoOpResponse s i st = some (0, { st with
      ops := st.ops.set i (brought s i op)
      buf := store st.buf op.pos (brought s i op).content }) := by
  unfold ReadPipe.DoOpResponse brought
  unfold Replies at h
  cases hans : s.answer i op with
  | data checksum content =>
    simp only [hans] at h
    simp [hop, hgood, hans, h]
  | error code => simp [hop, hgood, hans, hfresh]
  | timedOut => simp [hans] at h
  | broken => simp [hans] at h

/-- No reply comes in. -/
theorem DoOpResponse_fails (hop : st.ops[i]? = some op) (h : ¬ (st.good = true ∧ Replies s i op)) :
    Fails (ReadPipe.DoOpResponse s i st) := by
  unfold ReadPipe.DoOpResponse
  unfold Replies at h
  rw [hop]
  cases hgood : st.good with
  | false => exact Fails.neg (by decide)
  | true =>
    rw [hgood] at h
    cases hans : s.answer i op with
    | data checksum content =>
      have hlong : ¬ content.length ≤ op.numBytes := by simpa [hans] using h
      simp only [hans, if_true, if_neg hlong]
      exact Fails.none
    | error code => simp [hans] at h
    | timedOut =>
      simp only [hans, if_true]
      exact Fails.neg (by decide)
    | broken =>
      simp only [hans, if_true]
      exact Fails.neg (by decide)

/-! ## The last loop -/

/-- What the last loop leaves of a reply. -/
def drained (s : ReadServer) (leaseExpired : Bool) (i : ℕ) (op : ReadOp) : ReadOp :=
  if leaseExpired then { brought s i op with status := 0 } else brought s i op

theorem drained_step {g : ℕ → ReadOp → ReadOp} {leaseExpired : Bool} (hop : ops[i]? = some op) :
    (if leaseExpired then ((ops.mapIdx g).set i (brought s i op)).modify i fun op => { op with status := 0 }
      else (ops.mapIdx g).set i (brought s i op)) =
        ops.mapIdx (Function.update g i (drained s leaseExpired i)) := by
  refine List.ext_getElem? fun j => ?_
  rcases eq_or_ne i j with rfl | hne
  · obtain ⟨hlt, rfl⟩ := List.getElem?_eq_some_iff.1 hop
    cases leaseExpired <;> simp [drained, hlt]
  · cases leaseExpired <;> simp [hne, hne.symm]

section Loops

variable {g : ℕ → ReadOp → ReadOp} {leaseExpired : Bool} {left first next : ℕ}

/-- The operations `first ..< first + left` are all answered. -/
def Answered (s : ReadServer) (ops : List ReadOp) (first left : ℕ) : Prop :=
  ∀ j op, first ≤ j → j < first + left → ops[j]? = some op → Replies s j op

theorem fillBuf_succ (hop : ops[i]? = some op) :
    fillBuf s ops buf (i + 1) = store (fillBuf s ops buf i) op.pos (brought s i op).content := by
  rw [fillBuf, hop]

/-- A step of the loop. -/
theorem drainLoop_step (hg : ∀ op, g first op = op) (hfresh : ∀ op ∈ ops, op.content = [])
    (hop : ops[first]? = some op) (h : Replies s first op) :
    drainLoop s leaseExpired (left + 1) first ⟨ops.mapIdx g, true, fillBuf s ops buf first⟩ =
      drainLoop s leaseExpired left (first + 1)
        ⟨ops.mapIdx (Function.update g first (drained s leaseExpired first)), true, fillBuf s ops buf (first + 1)⟩ := by
  have hop' : (ops.mapIdx g)[first]? = some op := by rw [List.getElem?_mapIdx, hop, Option.map_some, hg]
  rw [drainLoop, DoOpResponse_replies rfl hop' (hfresh op (List.mem_of_getElem? hop)) h, ← drained_step hop,
    fillBuf_succ hop]
  cases leaseExpired <;> rfl

/-- All replies come in. -/
theorem drainLoop_replies (hg : ∀ j op, first ≤ j → g j op = op) (hfresh : ∀ op ∈ ops, op.content = [])
    (hle : first + left ≤ ops.length) (h : Answered s ops first left) :
    drainLoop s leaseExpired left first ⟨ops.mapIdx g, true, fillBuf s ops buf first⟩ =
      some (0, ⟨ops.mapIdx fun j op => if first ≤ j ∧ j < first + left then drained s leaseExpired j op else g j op,
        true, fillBuf s ops buf (first + left)⟩) := by
  induction left generalizing first g with
  | zero =>
    have hmap : (fun j op => if first ≤ j ∧ j < first + 0 then drained s leaseExpired j op else g j op) = g := by
      funext j op
      exact if_neg (by omega)
    rw [hmap]
    rfl
  | succ left ih =>
    obtain ⟨op, hop⟩ : ∃ op, ops[first]? = some op := ⟨_, List.getElem?_eq_getElem (show first < ops.length by omega)⟩
    rw [drainLoop_step (fun op => hg first op le_rfl) hfresh hop (h first op le_rfl (by omega) hop),
      ih (fun j op hj => ?_) (by omega) fun j op h₁ h₂ => h j op (by omega) (by omega)]
    · have hmap : (fun j op => if first + 1 ≤ j ∧ j < first + 1 + left then drained s leaseExpired j op else
          Function.update g first (drained s leaseExpired first) j op) =
          fun j op => if first ≤ j ∧ j < first + (left + 1) then drained s leaseExpired j op else g j op := by
        funext j op
        rcases eq_or_ne j first with rfl | hne
        · rw [if_neg (by omega), if_pos (by omega), Function.update_self]
        · rw [Function.update_of_ne hne]
          exact if_congr (by omega) rfl rfl
      rw [hmap, Nat.add_right_comm, Nat.add_assoc]
    · rw [Function.update_of_ne (by omega), hg j op (by omega)]

/-- Some reply does not come in. -/
theorem drainLoop_fails (hg : ∀ j op, first ≤ j → g j op = op) (hfresh : ∀ op ∈ ops, op.content = [])
    (h : ¬ Answered s ops first left) :
    Fails (drainLoop s leaseExpired left first ⟨ops.mapIdx g, true, fillBuf s ops buf first⟩) := by
  induction left generalizing first g with
  | zero => exact absurd (fun j op h₁ h₂ => by omega) h
  | succ left ih =>
    obtain ⟨op, hop⟩ : ∃ op, ops[first]? = some op := by
      unfold Answered at h
      push Not at h
      obtain ⟨j, opj, hj, -, hopj, -⟩ := h
      have := (List.getElem?_eq_some_iff.1 hopj).1
      exact ⟨_, List.getElem?_eq_getElem (show first < ops.length by omega)⟩
    by_cases hrep : Replies s first op
    · rw [drainLoop_step (fun op => hg first op le_rfl) hfresh hop hrep]
      refine ih (fun j op hj => ?_) fun hall => h fun j opj h₁ h₂ hopj => ?_
      · rw [Function.update_of_ne (by omega), hg j op (by omega)]
      · rcases Nat.eq_or_lt_of_le h₁ with rfl | hlt
        · rw [hop, Option.some.injEq] at hopj
          exact hopj ▸ hrep
        · exact hall j opj hlt (by omega) hopj
    · have hop' : (ops.mapIdx g)[first]? = some op := by
        rw [List.getElem?_mapIdx, hop, Option.map_some, hg first op le_rfl]
      rw [drainLoop]
      exact (DoOpResponse_fails hop' fun hr => hrep hr.2).bind _

/-! ## The loop in the middle -/

/-- The replies that have been checked are the first `n`. -/
def checked (s : ReadServer) (n i : ℕ) (op : ReadOp) : ReadOp := if i < n then verify (brought s i op) else op

theorem checked_step (hop : ops[first]? = some op) :
    ((ops.mapIdx (checked s first)).set first (brought s first op)).modify first verify =
      ops.mapIdx (checked s (first + 1)) := by
  refine List.ext_getElem? fun j => ?_
  rcases eq_or_ne first j with rfl | hne
  · obtain ⟨hlt, rfl⟩ := List.getElem?_eq_some_iff.1 hop
    simp [checked, hlt]
  · have hfun : checked s first j = checked s (first + 1) j := by
      funext op
      exact if_congr (by omega) rfl rfl
    simp [hne, hfun]

/-- The requests `next ..` can be sent, and the lease stays good. -/
def Sendable (s : ReadServer) (next size : ℕ) : Prop :=
  ∀ j, next ≤ j → j < size → s.takes j = true ∧ s.leaseGood j = true

/-- What is left of a reply when all have come in: the first ones have been checked. -/
def settled (s : ReadServer) (early i : ℕ) (op : ReadOp) : ReadOp :=
  if i < early then verify (brought s i op) else brought s i op

/-- What is left of the replies when the lease has expired: `early` have been checked, the others on the way do not
count. -/
def stopped (s : ReadServer) (early sent i : ℕ) (op : ReadOp) : ReadOp :=
  if i < early then verify (brought s i op) else if i < sent then { brought s i op with status := 0 } else op

/-- How `DoPipelinedRead` ends, where `Well` tells that nothing goes wrong, and `Late k` that only the lease goes: it
fails, or every reply is there and those before the last window have been checked, or the lease is no good when the
operation `window + k` is to be sent. -/
inductive PipeEnd (s : ReadServer) (ops : List ReadOp) (buf : ℕ → UInt8) (window : ℕ) (Well : Prop) (Late : ℕ → Prop)
    (r : Option (ℤ × ReadPipe)) : Prop
  | fails (h : Fails r) (hnot : ¬ Well) (hlate : ∀ k, ¬ Late k)
  | complete (hwell : Well)
      (h : r = some (0, ⟨ops.mapIdx (settled s (ops.length - window)), true, fillBuf s ops buf ops.length⟩))
  | expired (hnot : ¬ Well) (k : ℕ) (hlate : Late k) (hans : Answered s ops 0 (k + 1))
      (h : r = some (0, ⟨ops.mapIdx (stopped s (k + 1) (k + 1 + (window - 1))), true,
        fillBuf s ops buf (k + 1 + (window - 1))⟩))

theorem Answered.append {a b : ℕ} (h₁ : Answered s ops 0 a) (h₂ : Answered s ops a b) : Answered s ops 0 (a + b) := by
  intro j op _ hj hop
  rcases Nat.lt_or_ge j a with hlt | hge
  · exact h₁ j op (Nat.zero_le j) (by omega) hop
  · exact h₂ j op hge (by omega) hop

theorem Answered.mono {a b : ℕ} (h : Answered s ops 0 b) (hab : a ≤ b) : Answered s ops 0 a :=
  fun j op h₁ h₂ => h j op h₁ (by omega)

theorem Answered.last {a b : ℕ} (h : Answered s ops 0 b) (hab : first + a ≤ b) : Answered s ops first a :=
  fun j op _ h₂ => h j op (Nat.zero_le j) (by omega)

theorem checked_of_le (op : ReadOp) (h : first ≤ i) : checked s first i op = op := if_neg (by omega)

/-- A step of the loop: the reply to the first operation on the way is checked, and the next one is sent. -/
theorem pipeReadLoop_step (hfresh : ∀ op ∈ ops, op.content = []) (hop : ops[first]? = some op)
    (h : Replies s first op) :
    pipeReadLoop s (left + 1) first next ⟨ops.mapIdx (checked s first), true, fillBuf s ops buf first⟩ =
      if s.leaseGood next then
        match ReadPipe.DoOpSend s next ⟨ops.mapIdx (checked s (first + 1)), true, fillBuf s ops buf (first + 1)⟩ with
        | (res, st) => if res < 0 then some (-1, st) else pipeReadLoop s left (first + 1) (next + 1) st
      else drainLoop s true (next - (first + 1)) (first + 1)
        ⟨ops.mapIdx (checked s (first + 1)), true, fillBuf s ops buf (first + 1)⟩ := by
  have hop' : (ops.mapIdx (checked s first))[first]? = some op := by
    rw [List.getElem?_mapIdx, hop, Option.map_some, checked_of_le op le_rfl]
  rw [pipeReadLoop, DoOpResponse_replies rfl hop' (hfresh op (List.mem_of_getElem? hop)) h, ← checked_step hop,
    fillBuf_succ hop]
  rfl

/-- The lease is good up to the operation `window + k`, for which it is not, and the operations before have been
answered. -/
def Expires (s : ReadServer) (ops : List ReadOp) (window k : ℕ) : Prop :=
  Sendable s window (window + k) ∧ s.leaseGood (window + k) = false ∧ window + k < ops.length ∧
    Answered s ops 0 (k + 1 + (window - 1))

/-- When the lease goes nothing else has gone wrong before. -/
theorem Expires.ge {window k : ℕ} (h : Expires s ops window k) (hsend : Sendable s window (window + first)) :
    first ≤ k := by
  by_contra hlt
  have hgood := (hsend (window + k) (by omega) (by omega)).2
  rw [h.2.1] at hgood
  cases hgood

/-- The loop, with the first `first` replies checked and a window of operations on the way. -/
theorem pipeReadLoop_end {window : ℕ} (hfresh : ∀ op ∈ ops, op.content = [])
    (hsize : window + first + left = ops.length) (hans : Answered s ops 0 first)
    (hsend : Sendable s window (window + first)) :
    PipeEnd s ops buf window (Answered s ops 0 ops.length ∧ Sendable s window ops.length) (Expires s ops window)
      (pipeReadLoop s left first (window + first) ⟨ops.mapIdx (checked s first), true, fillBuf s ops buf first⟩) := by
  induction left generalizing first with
  | zero =>
    have hfirst : first + window = ops.length := by omega
    rw [pipeReadLoop, Nat.add_sub_cancel]
    by_cases hlast : Answered s ops first window
    · have hall : Answered s ops 0 ops.length := hfirst ▸ hans.append hlast
      have hs : Sendable s window ops.length := by rwa [← hfirst, Nat.add_comm]
      refine .complete ⟨hall, hs⟩ ?_
      rw [drainLoop_replies (fun j op hj => checked_of_le op hj) hfresh hfirst.le hlast, hfirst]
      congr 3
      refine List.mapIdx_eq_mapIdx_iff.2 fun j hj => ?_
      rcases Nat.lt_or_ge j first with hlt | hge
      · rw [if_neg (by omega), settled, if_pos (by omega), checked, if_pos hlt]
      · rw [if_pos ⟨hge, hj⟩, settled, if_neg (by omega)]
        rfl
    · refine .fails (drainLoop_fails (fun j op hj => checked_of_le op hj) hfresh hlast) (fun h => ?_) fun k h => ?_
      · exact hlast (h.1.last hfirst.le)
      · have hge := h.ge hsend
        have hlt := h.2.2.1
        omega
  | succ left ih =>
    obtain ⟨op, hop⟩ : ∃ op, ops[first]? = some op := ⟨_, List.getElem?_eq_getElem (show first < ops.length by omega)⟩
    by_cases hrep : Replies s first op
    · have hans' : Answered s ops 0 (first + 1) := hans.append fun j opj h₁ h₂ hopj => by
        obtain rfl : j = first := by omega
        rw [hop, Option.some.injEq] at hopj
        exact hopj ▸ hrep
      rw [pipeReadLoop_step hfresh hop hrep]
      cases hlease : s.leaseGood (window + first) with
      | true =>
        rw [if_pos rfl]
        cases htake : s.takes (window + first) with
        | true =>
          rw [DoOpSend_good rfl htake]
          refine ih (by omega) hans' fun j h₁ h₂ => ?_
          rcases Nat.lt_or_ge j (window + first) with hlt | hge
          · exact hsend j h₁ hlt
          · obtain rfl : j = window + first := by omega
            exact ⟨htake, hlease⟩
        | false =>
          have hbad := DoOpSend_bad ⟨ops.mapIdx (checked s (first + 1)), true, fillBuf s ops buf (first + 1)⟩
            (show (true && s.takes (window + first)) = false by rw [htake]; rfl)
          simp only [hbad, show (-1 : ℤ) < 0 by decide, if_true]
          refine .fails (Fails.neg (by decide)) (fun h => ?_) fun k h => ?_
          · rw [(h.2 (window + first) (by omega) (by omega)).1] at htake
            cases htake
          · rcases Nat.eq_or_lt_of_le (h.ge hsend) with rfl | hlt
            · rw [h.2.1] at hlease
              cases hlease
            · rw [(h.1 (window + first) (by omega) (by omega)).1] at htake
              cases htake
      | false =>
        have hnot : ¬ Sendable s window ops.length := fun h => by
          rw [(h (window + first) (by omega) (by omega)).2] at hlease
          cases hlease
        have hcount : window + first - (first + 1) = window - 1 := by omega
        rw [if_neg (by decide), hcount]
        by_cases hlast : Answered s ops (first + 1) (window - 1)
        · refine .expired (fun h => hnot h.2) first ⟨hsend, hlease, by omega, hans'.append hlast⟩ hans' ?_
          rw [drainLoop_replies (fun j op hj => checked_of_le op hj) hfresh (by omega) hlast]
          congr 3
          refine List.mapIdx_eq_mapIdx_iff.2 fun j hj => ?_
          rcases Nat.lt_or_ge j (first + 1) with hlt | hge
          · rw [if_neg (by omega), stopped, if_pos hlt, checked, if_pos hlt]
          · rw [stopped, if_neg (by omega : ¬ j < first + 1), checked_of_le _ hge]
            exact if_congr (by omega) rfl rfl
        · refine .fails (drainLoop_fails (fun j op hj => checked_of_le op hj) hfresh hlast) (fun h => hnot h.2)
            fun k h => ?_
          rcases Nat.eq_or_lt_of_le (h.ge hsend) with rfl | hlt
          · exact hlast (h.2.2.2.last le_rfl)
          · rw [(h.1 (window + first) (by omega) (by omega)).2] at hlease
            cases hlease
    · have hop' : (ops.mapIdx (checked s first))[first]? = some op := by
        rw [List.getElem?_mapIdx, hop, Option.map_some, checked_of_le op le_rfl]
      refine .fails ?_ (fun h => hrep (h.1 first op (Nat.zero_le _) (by omega) hop)) fun k h =>
        hrep (h.2.2.2 first op (Nat.zero_le _) (by have := h.ge hsend; omega) hop)
      rw [pipeReadLoop]
      exact (DoOpResponse_fails hop' fun hr => hrep hr.2).bind _

end Loops

/-! ## The pipeline -/

section Pipeline

variable {left next : ℕ}

theorem plumbLoop_good (hgood : st.good = true) (h : ∀ j, next ≤ j → j < next + left → s.takes j = true) :
    plumbLoop s left next st = (0, st) := by
  induction left generalizing next with
  | zero => rfl
  | succ left ih =>
    rw [plumbLoop, DoOpSend_good hgood (h next le_rfl (by omega))]
    exact ih fun j h₁ h₂ => h j (by omega) (by omega)

theorem plumbLoop_bad (st : ReadPipe) {j : ℕ} (h₁ : next ≤ j) (h₂ : j < next + left)
    (h : (st.good && s.takes j) = false) : (plumbLoop s left next st).1 < 0 := by
  induction left generalizing next with
  | zero => omega
  | succ left ih =>
    rw [plumbLoop]
    cases hnext : st.good && s.takes next with
    | false =>
      simp only [DoOpSend_bad st hnext, show (-1 : ℤ) < 0 by decide, if_true]
    | true =>
      obtain ⟨hgood, htake⟩ := Bool.and_eq_true_iff.1 hnext
      rw [DoOpSend_good hgood htake]
      have hne : next ≠ j := by
        rintro rfl
        rw [hnext] at h
        cases h
      exact ih (by omega) (by omega)

/-- Nothing goes wrong: the requests can be sent, the lease stays good and every reply comes in. -/
structure Well (s : ReadServer) (ops : List ReadOp) (good : Bool) (window : ℕ) : Prop where
  good : good = true
  takes : ∀ j < ops.length, s.takes j = true
  lease : ∀ j, window ≤ j → j < ops.length → s.leaseGood j = true
  answered : Answered s ops 0 ops.length

/-- Only the lease goes, when the operation `window + k` is to be sent. -/
structure Stops (s : ReadServer) (ops : List ReadOp) (good : Bool) (window k : ℕ) : Prop where
  good : good = true
  takes : ∀ j < window + k, s.takes j = true
  expires : Expires s ops window k

theorem PipeEnd.imp {Well Well' : Prop} {Late Late' : ℕ → Prop} {window : ℕ} {r : Option (ℤ × ReadPipe)}
    (h : PipeEnd s ops buf window Well Late r) (hiff : Well ↔ Well') (hlate : ∀ k, Late k ↔ Late' k) :
    PipeEnd s ops buf window Well' Late' r := by
  cases h with
  | fails h hnot hno => exact .fails h (mt hiff.2 hnot) fun k => mt (hlate k).2 (hno k)
  | complete hwell h => exact .complete (hiff.1 hwell) h
  | expired hnot k hk hans h => exact .expired (mt hiff.2 hnot) k ((hlate k).1 hk) hans h

theorem DoPipelinedRead_end (window : ℕ) (good : Bool) (hpos : 0 < ops.length)
    (hfresh : ∀ op ∈ ops, op.content = []) :
    PipeEnd s ops buf (min window ops.length) (Well s ops good (min window ops.length))
      (Stops s ops good (min window ops.length)) (DoPipelinedRead s window ⟨ops, good, buf⟩) := by
  set w := min window ops.length with hw
  by_cases hplumb : ∀ j < w, (good && s.takes j) = true
  · cases good with
    | true =>
      have hrun : DoPipelinedRead s window ⟨ops, true, buf⟩ = pipeReadLoop s (ops.length - w) 0 (w + 0)
          ⟨ops.mapIdx (checked s 0), true, fillBuf s ops buf 0⟩ := by
        have hmap : ops.mapIdx (checked s 0) = ops := by
          refine List.ext_getElem? fun j => ?_
          have hid : checked s 0 j = id := funext fun op => checked_of_le op (Nat.zero_le j)
          simp [hid]
        have hgood : (⟨ops, true, buf⟩ : ReadPipe).good = true := rfl
        rw [hmap, DoPipelinedRead, ← hw, plumbLoop_good hgood fun j _ h₂ => by simpa using hplumb j (by omega)]
        rfl
      rw [hrun]
      refine (pipeReadLoop_end hfresh (by omega) (fun j op _ h => by omega) fun j _ h => by omega).imp ?_ fun k => ?_
      · constructor
        · rintro ⟨hans, hsend⟩
          refine ⟨rfl, fun j hj => ?_, fun j h₁ h₂ => (hsend j h₁ h₂).2, hans⟩
          rcases Nat.lt_or_ge j w with hlt | hge
          · simpa using hplumb j hlt
          · exact (hsend j hge hj).1
        · exact fun h => ⟨h.answered, fun j h₁ h₂ => ⟨h.takes j h₂, h.lease j h₁ h₂⟩⟩
      · refine ⟨fun h => ⟨rfl, fun j hj => ?_, h⟩, fun h => h.expires⟩
        rcases Nat.lt_or_ge j w with hlt | hge
        · simpa using hplumb j hlt
        · exact (h.1 j hge hj).1
    | false =>
      -- a window without operations, on a closed socket
      have hzero : w = 0 := by
        by_contra hne
        exact Bool.false_ne_true (hplumb 0 (by omega))
      obtain ⟨left, hleft⟩ := Nat.exists_eq_succ_of_ne_zero hpos.ne'
      refine .fails ?_ (fun h => Bool.false_ne_true h.good) fun k h => Bool.false_ne_true h.good
      have hop : (⟨ops, false, buf⟩ : ReadPipe).ops[0]? = some ops[0] := List.getElem?_eq_getElem hpos
      rw [DoPipelinedRead, ← hw, hzero]
      change Fails (pipeReadLoop s ops.length 0 0 ⟨ops, false, buf⟩)
      rw [hleft, pipeReadLoop]
      exact (DoOpResponse_fails hop fun hr => Bool.false_ne_true hr.1).bind _
  · push Not at hplumb
    obtain ⟨j, hj, hbad⟩ := hplumb
    have hneg := plumbLoop_bad ⟨ops, good, buf⟩ (Nat.zero_le j) (show j < 0 + w by omega)
      (Bool.eq_false_iff.2 hbad)
    refine .fails ?_ (fun h => hbad (by rw [h.good, h.takes j (by omega)]; rfl)) fun k h =>
      hbad (by rw [h.good, h.takes j (by omega)]; rfl)
    simp only [DoPipelinedRead, ← hw, if_pos hneg]
    exact Fails.neg (by decide)

end Pipeline

/-! ## The sum of the results -/

theorem foldl_tallyStep {n r : ℤ} (h₁ : 0 ≤ n) (h₂ : ∀ op ∈ ops, 0 ≤ op.status) :
    ops.foldl tallyStep (n, r) = (n + (ops.map (·.status)).sum, r) := by
  induction ops generalizing n with
  | nil => simp
  | cons op ops ih =>
    have hop := h₂ op List.mem_cons_self
    have hstep : tallyStep (n, r) op = (n + op.status, r) := by simp [tallyStep, not_lt.2 hop, h₁]
    rw [List.foldl_cons, hstep, ih (by omega) fun o ho => h₂ o (List.mem_cons_of_mem _ ho), List.map_cons,
      List.sum_cons, add_assoc]

theorem foldl_tallyStep_neg {n r : ℤ} (h₁ : n < 0 ∨ ∃ op ∈ ops, op.status < 0) (h₂ : r ≤ 0) :
    (ops.foldl tallyStep (n, r)).1 < 0 ∧ (ops.foldl tallyStep (n, r)).2 ≤ 0 := by
  induction ops generalizing n r with
  | nil => exact ⟨by simpa using h₁, h₂⟩
  | cons op ops ih =>
    rw [List.foldl_cons]
    rcases lt_or_ge op.status 0 with hneg | hpos
    · have hstep : tallyStep (n, r) op = (op.status, if NeedToRetryRead op.status then op.status else r) := by
        simp [tallyStep, hneg]
      rw [hstep]
      refine ih (Or.inl hneg) ?_
      split_ifs
      · exact hneg.le
      · exact h₂
    · have hstep : tallyStep (n, r) op = (if 0 ≤ n then n + op.status else n, r) := by
        simp only [tallyStep, if_neg (not_lt.2 hpos)]
        split_ifs <;> rfl
      rw [hstep]
      rcases h₁ with hn | ⟨o, ho, hneg⟩
      · rw [if_neg (not_le.2 hn)]
        exact ih (Or.inl hn) h₂
      · have ho' : o ∈ ops := (List.mem_cons.1 ho).resolve_left (by rintro rfl; omega)
        exact ih (Or.inr ⟨o, ho', hneg⟩) h₂

theorem tally_eq { numIO : ℤ} (h₁ : 0 ≤ numIO) (h₂ : ∀ op ∈ ops, 0 ≤ op.status) :
    tally numIO ops = numIO + (ops.map (·.status)).sum := by
  simp only [tally, foldl_tallyStep h₁ h₂]
  rfl

/-- A read with an operation that failed fails. -/
theorem tally_neg { numIO : ℤ} (h : numIO < 0 ∨ ∃ op ∈ ops, op.status < 0) : tally numIO ops < 0 := by
  obtain ⟨h₁, h₂⟩ := foldl_tallyStep_neg h (le_refl (0 : ℤ))
  simp only [tally]
  split_ifs with hretry
  · exact lt_of_le_of_ne h₂ hretry
  · exact h₁

/-- In a read that succeeds no operation failed. -/
theorem tally_nonneg { numIO : ℤ} (h : 0 ≤ tally numIO ops) :
    (∀ op ∈ ops, 0 ≤ op.status) ∧ tally numIO ops = numIO + (ops.map (·.status)).sum := by
  have hall : ∀ op ∈ ops, 0 ≤ op.status := fun op hop => by
    by_contra hneg
    exact absurd h (not_le.2 (tally_neg (Or.inr ⟨op, hop, not_le.1 hneg⟩)))
  have hnum : 0 ≤ numIO := by
    by_contra hneg
    exact absurd h (not_le.2 (tally_neg (Or.inl (not_le.1 hneg))))
  exact ⟨hall, tally_eq hnum hall⟩

/-- A sum over the first operations only. -/
theorem sum_mapIdx_le {f : ℕ → ReadOp → ℤ} {h : ReadOp → ℕ} {m : ℕ}
    (h₁ : ∀ i op, i < m → ops[i]? = some op → f i op ≤ h op) (h₂ : ∀ i op, m ≤ i → ops[i]? = some op → f i op = 0) :
    (ops.mapIdx f).sum ≤ ((ops.take m).map h).sum := by
  induction ops generalizing f m with
  | nil => simp
  | cons op ops ih =>
    rw [List.mapIdx_cons, List.sum_cons]
    cases m with
    | zero =>
      have hrest := ih (f := fun i => f (i + 1)) (m := 0) (fun i op h => absurd h (Nat.not_lt_zero i))
        fun i op _ ho => h₂ (i + 1) op (Nat.zero_le _) ho
      rw [h₂ 0 op le_rfl rfl]
      simpa using hrest
    | succ m =>
      have hrest := ih (f := fun i => f (i + 1)) (m := m) (fun i op hi ho => h₁ (i + 1) op (by omega) ho)
        fun i op hi ho => h₂ (i + 1) op (by omega) ho
      have hhead := h₁ 0 op (Nat.succ_pos m) rfl
      rw [List.take_succ_cons, List.map_cons, List.sum_cons]
      rw [Nat.cast_add]
      omega

theorem map_status_mapIdx {g : ℕ → ReadOp → ReadOp} :
    (ops.mapIdx g).map (·.status) = ops.mapIdx fun i op => (g i op).status := by
  refine List.ext_getElem? fun i => ?_
  simp [Function.comp_def]

/-! ## What gets through -/

/-- Every byte that is returned comes from a reply whose data matches. The reply to `op` fills the buffer from `op.pos`
on. -/
def ReadResult.Verified (r : ReadResult) : Prop :=
  0 ≤ r.numIO → ∀ op ∈ r.ops, ∀ p, op.pos ≤ p → p < op.pos + op.content.length → (p : ℤ) < r.numIO → op.Matches

/-- Nothing goes wrong and no reply is an error, those before the last window match, and in the last window there is a
reply with data that does not match, from which a byte is returned. -/
structure Unchecked (s : ReadServer) (ops : List ReadOp) (good : Bool) (window : ℕ) : Prop
    extends Well s ops good window where
  status : ∀ i op, ops[i]? = some op → 0 ≤ (brought s i op).status
  early : ∀ i op, ops[i]? = some op → i < ops.length - window → (brought s i op).Matches
  late : ∃ i op, ops[i]? = some op ∧ ops.length - window ≤ i ∧ ¬ (brought s i op).Matches ∧
    (brought s i op).content ≠ [] ∧ (op.pos : ℤ) < (ops.mapIdx fun i op => (brought s i op).status).sum

theorem verify_nonneg (h : 0 ≤ (verify op).status) : verify op = op ∧ (0 ≤ op.status → op.Matches) := by
  unfold verify at h ⊢
  split_ifs at h ⊢ with hbad
  · exact absurd h (by simp [EBADCKSUM])
  · refine ⟨rfl, fun h0 => ?_⟩
    unfold ReadOp.Matches
    by_contra hno
    push Not at hno
    exact hbad ⟨h0, hno⟩

theorem verify_matches (h : op.Matches) : verify op = op := by
  refine if_neg fun hbad => ?_
  rcases h with h | h
  · exact hbad.2.1 h
  · exact hbad.2.2 h

theorem brought_pos (i : ℕ) (op : ReadOp) : (brought s i op).pos = op.pos := by
  unfold brought
  cases s.answer i op <;> rfl

/-- The status of a reply is the number of its bytes, which were asked for. -/
theorem brought_status (h : Replies s i op) (h0 : 0 ≤ (brought s i op).status) :
    (brought s i op).status = (brought s i op).content.length ∧ (brought s i op).status ≤ op.numBytes := by
  unfold brought at h0 ⊢
  unfold Replies at h
  cases hans : s.answer i op with
  | data checksum content => simpa [hans] using h
  | error code => simp [hans] at h0
  | timedOut => simp [hans] at h
  | broken => simp [hans] at h

/-- An operation of a list that has been worked on. -/
theorem exists_of_mem_mapIdx {β : Type} {x : β} {g : ℕ → ReadOp → β} (h : x ∈ ops.mapIdx g) :
    ∃ i o, ops[i]? = some o ∧ x = g i o := by
  obtain ⟨i, hi, rfl⟩ := List.mem_mapIdx.1 h
  exact ⟨i, ops[i], List.getElem?_eq_getElem hi, rfl⟩

theorem mem_mapIdx_of {β : Type} {g : ℕ → ReadOp → β} (h : ops[i]? = some op) : g i op ∈ ops.mapIdx g := by
  obtain ⟨hi, rfl⟩ := List.getElem?_eq_some_iff.1 h
  exact List.mem_mapIdx.2 ⟨i, hi, rfl⟩

/-- Replies without an error are left as they came, and those before the last window match. -/
theorem settled_status {early : ℕ} (h : 0 ≤ (settled s early i op).status) :
    settled s early i op = brought s i op ∧ 0 ≤ (brought s i op).status ∧ (i < early → (brought s i op).Matches) := by
  unfold settled at h ⊢
  split_ifs at h ⊢ with hi
  · obtain ⟨heq, hmatch⟩ := verify_nonneg h
    rw [heq] at h
    exact ⟨heq, h, fun _ => hmatch h⟩
  · exact ⟨rfl, h, fun hlt => absurd hlt hi⟩

/-- The read when every reply has come in. -/
theorem complete_sound {window : ℕ} {good : Bool} (buf' : ℕ → UInt8) (hwell : Well s ops good window) :
    ReadResult.Verified ⟨tally 0 (ops.mapIdx (settled s (ops.length - window))),
      ops.mapIdx (settled s (ops.length - window)), buf'⟩ ↔ ¬ Unchecked s ops good window := by
  constructor
  · intro hver hun
    have heq : ops.mapIdx (settled s (ops.length - window)) = ops.mapIdx (brought s) := by
      refine List.mapIdx_eq_mapIdx_iff.2 fun i hi => ?_
      unfold settled
      split_ifs with hlt
      · exact verify_matches (hun.early i _ (List.getElem?_eq_getElem hi) hlt)
      · rfl
    have hstatus : ∀ op ∈ ops.mapIdx (brought s), 0 ≤ op.status := by
      intro op hop
      obtain ⟨i, o, ho, rfl⟩ := exists_of_mem_mapIdx hop
      exact hun.status i o ho
    obtain ⟨i, op, hop, -, hno, hne, hlt⟩ := hun.late
    have htally : tally 0 (ops.mapIdx (brought s)) = (ops.mapIdx fun i op => (brought s i op).status).sum := by
      rw [tally_eq le_rfl hstatus, zero_add, map_status_mapIdx]
    rw [heq] at hver
    have hcontent := List.length_pos_iff.2 hne
    refine hno (hver ?_ _ (mem_mapIdx_of hop) op.pos (brought_pos i op).le (by rw [brought_pos]; omega) ?_)
    · exact le_trans (Int.natCast_nonneg _) (hlt.le.trans_eq htally.symm)
    · exact hlt.trans_eq htally.symm
  · intro hno hres op hop p h₁ h₂ hlt
    obtain ⟨hall, hsum⟩ := tally_nonneg hres
    have hsettled (i : ℕ) (o : ReadOp) (ho : ops[i]? = some o) :=
      settled_status (hall _ (mem_mapIdx_of (g := settled s (ops.length - window)) ho))
    obtain ⟨i, o, ho, rfl⟩ := exists_of_mem_mapIdx hop
    have hsame := (hsettled i o ho).1
    rw [hsame] at h₁ h₂ ⊢
    rw [brought_pos] at h₁ h₂
    by_contra hbad
    have hsum' : tally 0 (ops.mapIdx (settled s (ops.length - window))) =
        (ops.mapIdx fun i op => (brought s i op).status).sum := by
      rw [hsum, zero_add, map_status_mapIdx]
      refine congrArg List.sum (List.mapIdx_eq_mapIdx_iff.2 fun j hj => ?_)
      exact congrArg ReadOp.status (hsettled j _ (List.getElem?_eq_getElem hj)).1
    refine hno { hwell with
      status := fun j o ho => (hsettled j o ho).2.1
      early := fun j o ho => (hsettled j o ho).2.2
      late := ⟨i, o, ho, ?_, hbad, ?_, ?_⟩ }
    · by_contra hearly
      exact hbad ((hsettled i o ho).2.2 (not_le.1 hearly))
    · intro hnil
      rw [hnil, List.length_nil] at h₂
      omega
    · rw [← hsum']
      exact lt_of_le_of_lt (by exact_mod_cast h₁) hlt

/-- The contents of the operations lie one behind the other. -/
def Laid (ops : List ReadOp) : Prop := ∀ i op, ops[i]? = some op → op.pos = ((ops.take i).map (·.numBytes)).sum

theorem Laid.le {i j : ℕ} (h : Laid ops) (hop : ops[j]? = some op) (hij : i ≤ j) :
    ((ops.take i).map (·.numBytes)).sum ≤ op.pos := by
  obtain ⟨n, rfl⟩ := Nat.exists_eq_add_of_le hij
  rw [h _ op hop, List.take_add, List.map_append, List.sum_append]
  exact Nat.le_add_right _ _

theorem stopped_pos {early sent : ℕ} : (stopped s early sent i op).pos = op.pos := by
  unfold stopped verify
  split_ifs <;> first | exact brought_pos i op | rfl

/-- The read when the lease has expired: only bytes of replies that have been checked are returned. -/
theorem stopped_verified {early sent : ℕ} {buf' : ℕ → UInt8} (hlaid : Laid ops) (hfresh : ∀ op ∈ ops, op.status = 0)
    (hans : Answered s ops 0 early) :
    ReadResult.Verified ⟨tally 0 (ops.mapIdx (stopped s early sent)), ops.mapIdx (stopped s early sent), buf'⟩ := by
  intro hres op hop p h₁ h₂ hlt
  obtain ⟨hall, hsum⟩ := tally_nonneg hres
  have hearly (i : ℕ) (o : ReadOp) (hi : i < early) (ho : ops[i]? = some o) :
      stopped s early sent i o = brought s i o ∧ 0 ≤ (brought s i o).status ∧ (brought s i o).Matches := by
    have h0 := hall _ (mem_mapIdx_of (g := stopped s early sent) ho)
    simp only [stopped, if_pos hi] at h0 ⊢
    obtain ⟨heq, hmatch⟩ := verify_nonneg h0
    rw [heq] at h0
    exact ⟨heq, h0, hmatch h0⟩
  obtain ⟨i, o, ho, rfl⟩ := exists_of_mem_mapIdx hop
  rcases Nat.lt_or_ge i early with hi | hi
  · obtain ⟨heq, -, hmatch⟩ := hearly i o hi ho
    rwa [heq]
  · -- the reply lies behind everything that counts
    rw [stopped_pos] at h₁
    have hle : tally 0 (ops.mapIdx (stopped s early sent)) ≤ ((ops.take early).map (·.numBytes)).sum := by
      rw [hsum, zero_add, map_status_mapIdx]
      refine sum_mapIdx_le (fun j o hj ho => ?_) fun j o hj ho => ?_
      · obtain ⟨heq, h0, -⟩ := hearly j o hj ho
        rw [heq]
        exact (brought_status (hans j o (Nat.zero_le _) (by omega) ho) h0).2
      · unfold stopped
        rw [if_neg (by omega)]
        split_ifs
        · rfl
        · exact hfresh o (List.mem_of_getElem? ho)
    have hpos := hlaid.le ho hi
    have hlt' : (p : ℤ) < tally 0 (ops.mapIdx (stopped s early sent)) := hlt
    omega

/-- The pipelined read lets only matching data through exactly when `Unchecked` does not hold. -/
theorem DoPipelinedRead_sound (window : ℕ) (good : Bool) (hpos : 0 < ops.length) (hlaid : Laid ops)
    (hfresh : ∀ op ∈ ops, op.content = [] ∧ op.status = 0) :
    (∀ r, (DoPipelinedRead s window ⟨ops, good, buf⟩).map (fun ( numIO, st) =>
      (⟨tally numIO st.ops, st.ops, st.buf⟩ : ReadResult)) = some r → r.Verified) ↔
        ¬ Unchecked s ops good (min window ops.length) := by
  cases @DoPipelinedRead_end s _ buf window good hpos fun op hop => (hfresh op hop).1 with
  | fails h hnot hlate =>
    refine iff_of_true (fun r hr => ?_) fun hun => hnot hun.toWell
    obtain ⟨⟨ numIO, st⟩, hrun, rfl⟩ := Option.map_eq_some_iff.1 hr
    intro hres
    exact absurd hres (not_le.2 (tally_neg (Or.inl (h numIO st hrun))))
  | complete hwell h =>
    rw [h, ← complete_sound (fillBuf s ops buf ops.length) hwell]
    simp
  | expired hnot k hlate hans h =>
    refine iff_of_true (fun r hr => ?_) fun hun => hnot hun.toWell
    rw [h] at hr
    obtain rfl := Option.some.inj hr
    exact stopped_verified hlaid (fun op hop => (hfresh op hop).2) hans

/-! ## The two read paths -/

section Paths

variable {chunkSize chunkOffset numBytes numAvail : ℕ} {good : Bool}

theorem splitRead_laid {fuel r : ℕ} (h : (splitRead chunkOffset numAvail fuel r)[i]? = some op) :
    op.pos = r + (((splitRead chunkOffset numAvail fuel r).take i).map (·.numBytes)).sum ∧ op.content = [] ∧
      op.status = 0 := by
  induction fuel generalizing r i with
  | zero => simp [splitRead] at h
  | succ fuel ih =>
    rw [splitRead] at h ⊢
    split_ifs at h ⊢ with hlt
    · cases i with
      | zero =>
        obtain rfl := Option.some.inj h
        exact ⟨by simp, rfl, rfl⟩
      | succ i =>
        obtain ⟨hpos, hfresh⟩ := ih h
        refine ⟨?_, hfresh⟩
        rw [hpos, List.take_succ_cons, List.map_cons, List.sum_cons, Nat.add_assoc]
    · simp at h

theorem getElem?_singleton_iff {o : ReadOp} : [op][i]? = some o ↔ i = 0 ∧ o = op := by
  cases i with
  | zero => simp [eq_comm]
  | succ i => simp

/-- Without a reply a small read fails. -/
theorem DoSmallReadFromServer_fails
    (h : ¬ (good = true ∧ s.takes 0 = true ∧ Replies s 0 (smallRead chunkSize chunkOffset numBytes))) :
    ∀ r, DoSmallReadFromServer s chunkSize chunkOffset numBytes good buf = some r → r.numIO < 0 := by
  set op := smallRead chunkSize chunkOffset numBytes with hop
  intro r hr
  cases hsend : good && s.takes 0 with
  | false =>
    simp only [DoSmallReadFromServer, ReadPipe.DoOpSend, hsend] at hr
    obtain rfl := Option.some.inj hr
    exact show -Chunk.EHOSTUNREACH < 0 by decide
  | true =>
    obtain ⟨rfl, htake⟩ := Bool.and_eq_true_iff.1 hsend
    have hgood : (⟨[op], true, buf⟩ : ReadPipe).good = true := rfl
    have hrep : ¬ Replies s 0 op := fun hrep => h ⟨rfl, htake, hrep⟩
    simp only [DoSmallReadFromServer, ← hop, DoOpSend_good hgood htake, lt_irrefl, if_false, ReadPipe.DoOpResponse,
      List.getElem?_cons_zero, if_true] at hr
    unfold Replies at hrep
    cases hans : s.answer 0 op with
    | data checksum content =>
      have hlong : ¬ content.length ≤ op.numBytes := by simpa [hans] using hrep
      simp [hans, hlong] at hr
    | error code => simp [hans] at hrep
    | timedOut =>
      simp only [hans] at hr
      obtain rfl := Option.some.inj hr
      exact show -ETIMEDOUT < 0 by decide
    | broken =>
      simp only [hans] at hr
      obtain rfl := Option.some.inj hr
      exact show -Chunk.EHOSTUNREACH < 0 by decide

/-- With its reply a small read succeeds or fails as the reply says. -/
theorem DoSmallReadFromServer_replies (htake : s.takes 0 = true)
    (hrep : Replies s 0 (smallRead chunkSize chunkOffset numBytes)) :
    DoSmallReadFromServer s chunkSize chunkOffset numBytes true buf =
      let op := brought s 0 (smallRead chunkSize chunkOffset numBytes)
      some ⟨if 0 ≤ op.status then op.content.length else op.status, [op], store buf 0 op.content⟩ := by
  have hgood : (⟨[smallRead chunkSize chunkOffset numBytes], true, buf⟩ : ReadPipe).good = true := rfl
  simp only [DoSmallReadFromServer, DoOpSend_good hgood htake, lt_irrefl, if_false,
    DoOpResponse_replies (i := 0) hgood (show _ = some (smallRead chunkSize chunkOffset numBytes) from rfl) rfl hrep]
  rfl

/-- The only reply of a small read is not checked. -/
theorem DoSmallReadFromServer_sound : (∀ r, DoSmallReadFromServer s chunkSize chunkOffset numBytes good buf = some r →
    r.Verified) ↔ ¬ Unchecked s [smallRead chunkSize chunkOffset numBytes] good 1 := by
  set op := smallRead chunkSize chunkOffset numBytes with hop
  by_cases hrep : good = true ∧ s.takes 0 = true ∧ Replies s 0 op
  · obtain ⟨rfl, htake, hrep⟩ := hrep
    rw [DoSmallReadFromServer_replies htake hrep, ← hop]
    constructor
    · intro hver hun
      obtain ⟨i, o, ho, -, hno, hne, -⟩ := hun.late
      obtain ⟨rfl, rfl⟩ := getElem?_singleton_iff.1 ho
      have h0 := hun.status 0 op rfl
      have hcontent := List.length_pos_iff.2 hne
      refine hno (hver _ rfl ?_ _ (List.mem_singleton.2 rfl) 0 (brought_pos 0 op).le (by omega) ?_)
      · simp [h0]
      · simpa [h0] using hcontent
    · intro hno r hr hres o ho p h₁ h₂ hlt
      obtain rfl := Option.some.inj hr
      obtain rfl := List.mem_singleton.1 ho
      have h0 : 0 ≤ (brought s 0 op).status := by
        by_contra hneg
        simp only [if_neg hneg] at hres
        exact hneg hres
      by_contra hbad
      have hcontent : 0 < (brought s 0 op).content.length := by omega
      refine hno ⟨⟨rfl, fun j hj => ?_, fun j h₁ h₂ => ?_, fun j o _ h₂ ho => ?_⟩, fun i o ho => ?_,
        fun i o ho hi => ?_, 0, op, rfl, le_rfl, hbad, List.length_pos_iff.1 hcontent, ?_⟩
      · obtain rfl : j = 0 := by simpa using hj
        exact htake
      · have : j < 1 := h₂
        omega
      · obtain ⟨rfl, rfl⟩ := getElem?_singleton_iff.1 ho
        exact hrep
      · obtain ⟨rfl, rfl⟩ := getElem?_singleton_iff.1 ho
        exact h0
      · simp at hi
      · have hlen := (brought_status hrep h0).1
        have hpos : op.pos = 0 := rfl
        simp only [List.mapIdx_cons, List.mapIdx_nil, List.sum_singleton]
        omega
  · refine iff_of_true (fun r hr hres => ?_) fun hun => hrep ⟨hun.good, hun.takes 0 Nat.one_pos, ?_⟩
    · exact absurd hres (not_le.2 (DoSmallReadFromServer_fails hrep r hr))
    · exact hun.answered 0 op le_rfl Nat.one_pos rfl

/-- The answers for which data that does not match is returned. A small read checks nothing; a large one does not check
the last window of its operations. -/
def ReadUnchecked (s : ReadServer) (window chunkSize chunkOffset numBytes : ℕ) (good : Bool) : Prop :=
  let numAvail := min (chunkSize - chunkOffset) numBytes
  let ops := splitRead chunkOffset numAvail numAvail 0
  if chunkOffset + numAvail ≤ OffsetToChecksumBlockEnd chunkOffset then
    Unchecked s [smallRead chunkSize chunkOffset numBytes] good 1
  else Unchecked s ops good (min window ops.length)

/-- A large read has operations. -/
theorem splitRead_pos (h : ¬ chunkOffset + numAvail ≤ OffsetToChecksumBlockEnd chunkOffset) :
    0 < (splitRead chunkOffset numAvail numAvail 0).length := by
  have hblock : chunkOffset < OffsetToChecksumBlockEnd chunkOffset := by
    simp only [OffsetToChecksumBlockEnd, CHECKSUM_BLOCKSIZE]
    omega
  obtain ⟨n, rfl⟩ : ∃ n, numAvail = n + 1 := Nat.exists_eq_succ_of_ne_zero (by omega)
  rw [splitRead, if_pos (Nat.succ_pos n)]
  exact Nat.succ_pos _

theorem DoLargeReadFromServer_sound {window : ℕ} (hle : chunkOffset ≤ chunkSize)
    (hnum : numAvail = min (chunkSize - chunkOffset) numBytes)
    (hlarge : ¬ chunkOffset + numAvail ≤ OffsetToChecksumBlockEnd chunkOffset) :
    (∀ r, DoLargeReadFromServer s window chunkSize chunkOffset numBytes good buf = some r → r.Verified) ↔
      ¬ Unchecked s (splitRead chunkOffset numAvail numAvail 0) good
        (min window (splitRead chunkOffset numAvail numAvail 0).length) := by
  rw [DoLargeReadFromServer, if_pos hle, ← hnum]
  refine DoPipelinedRead_sound window good (splitRead_pos hlarge) (fun i op hop => ?_) fun op hop => ?_
  · simpa using (splitRead_laid hop).1
  · obtain ⟨i, hi⟩ := List.getElem?_of_mem hop
    exact (splitRead_laid hi).2

/-- A read returns only bytes of replies that match their checksums exactly when the answers are not of that kind. -/
theorem ReadFromServer_sound (s : ReadServer) (window chunkSize chunkOffset numBytes : ℕ) (good : Bool)
    (buf : ℕ → UInt8) :
    (∀ r, ReadFromServer s window chunkSize chunkOffset numBytes good buf = some r → r.Verified) ↔
      ¬ (chunkOffset ≤ chunkSize ∧ ReadUnchecked s window chunkSize chunkOffset numBytes good) := by
  by_cases hle : chunkOffset ≤ chunkSize
  · rw [ReadFromServer, if_pos hle, and_iff_right hle]
    unfold ReadUnchecked
    by_cases hsmall :
        chunkOffset + min (chunkSize - chunkOffset) numBytes ≤ OffsetToChecksumBlockEnd chunkOffset
    · simp only [if_pos hsmall]
      exact DoSmallReadFromServer_sound
    · simp only [if_neg hsmall]
      exact DoLargeReadFromServer_sound hle rfl hsmall
  · rw [ReadFromServer, if_neg hle]
    exact iff_of_true (fun r hr => by cases hr) fun h => hle h.1

end Paths

/-- A server that answers every read with bytes that do not match. -/
def rotten : ReadServer where
  takes _ := true
  answer _ op := .data 1 (List.replicate op.numBytes 1)
  leaseGood _ := true

/-- A small read of eight bytes returns them unchecked. -/
theorem ReadFromServer_rotten :
    ¬ ∀ r, ReadFromServer rotten READ_WINDOW 8 0 8 true (fun _ => 0) = some r → r.Verified := by
  intro h
  have hrun : ReadFromServer rotten READ_WINDOW 8 0 8 true (fun _ => 0) = some ⟨8,
    [{ smallRead 8 0 8 with status := 8, checksum := 1, content := List.replicate 8 1 }],
    store (fun _ => 0) 0 (List.replicate 8 1)⟩ := rfl
  have hmatch := h _ hrun (by decide) _ (List.mem_singleton.2 rfl) 0 le_rfl (by decide) (by decide)
  rcases hmatch with hzero | hsum
  · exact absurd hzero (by decide)
  · exact absurd hsum (by decide +kernel)

end Kfs.Client
