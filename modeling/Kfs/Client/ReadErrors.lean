import Kfs.Client.Answers
import Kfs.Client.Contiguous

/-!
# Reading when the servers fail

`KfsClientImpl::Read` for one descriptor, where all that it asks for may fail: the metaserver may not find the chunk or
not give a lease, no chunk server may be reached, and every read may be answered with an error or with nothing.

* `Outside`: the answers, `Fd`: the descriptor;
* `LocateChunk`, `OpenChunk`, `IsChunkReadable`, `ReadChunk`, `Seek`, `Read`;
* `Brings`, `Served`: the answers bring the first byte;
* `Once`, `Chunked`, `Readable`, `Round`: what the functions do, step by step;
* **`readLoop_served`**: bytes are read exactly when the answers bring one;
* **`readLoop_ends`**: the loop comes to an end, unless the servers answer with nothing for ever;
* **`Read_right_iff`**: exactly when the first byte comes, a read in front of the end of the file does not return 0.
-/

namespace Kfs.Client.Unreliable

open Kfs.Lib

def EISDIR : ℤ := 21

def NUM_RETRIES_PER_OP : ℕ := 3

/-- `ChunkAttr`; an entry that is not there is the default one. -/
structure ChunkAttr where
  chunkId : ℤ := -1
  chunkSize : ℕ := 0

/-- What `WriteToServer` returns and leaves: the chunk, the connection, and the end of what has been written. -/
structure Written where
  numIO : ℤ
  chunk : ChunkAttr
  preferredServer : Bool
  eow : ℕ

/-- The answers to the requests, by their number: the status and the chunk of the metaserver, whether there is a lease
on the chunk, whether one of its servers is reached, the status and the size from that server, and how it reads. A
chunk that the metaserver names has a positive id. -/
structure Outside where
  getAlloc : ℕ → ℤ × ℤ
  named (k : ℕ) : 0 ≤ (getAlloc k).1 → 0 < (getAlloc k).2
  leaseGood : ℕ → Bool
  connect : ℕ → Bool
  size : ℕ → ℤ × ℕ
  read : ℕ → ReadServer
  written : ℕ → Written

/-- An entry of the file table, with the number of the next request. -/
structure Fd where
  openMode : OpenMode
  isDirectory : Bool
  fileSize : ℕ
  cattr : ℤ → ChunkAttr := fun _ => {}
  currPos : FilePosition := {}
  buffer : ChunkBuffer := {}
  clock : ℕ := 0

variable (w : Outside)

namespace Fd

variable (fd : Fd)

def ask : Fd := { fd with clock := fd.clock + 1 }

def connected (preferredServer : Bool) : Fd :=
  { fd with currPos := { fd.currPos with preferredServer := preferredServer } }

def GetCurrChunk : ChunkAttr := fd.cattr fd.currPos.chunkNum

def setCurrChunk (chunk : ChunkAttr) : Fd := { fd with cattr := Function.update fd.cattr fd.currPos.chunkNum chunk }

/-! ## The chunk -/

def LocateChunk : ℤ × Fd :=
  if fd.currPos.chunkNum < 0 then (-Chunk.EINVAL, fd)
  else if 0 < fd.GetCurrChunk.chunkId then (0, fd)
  else
    let (status, chunkId) := w.getAlloc fd.clock
    if status < 0 then (status, fd.ask) else (0, fd.ask.setCurrChunk { chunkId := chunkId })

def SizeChunk : ℤ × Fd :=
  let (status, size) := w.size fd.clock
  (status, fd.ask.setCurrChunk { fd.GetCurrChunk with chunkSize := size })

def OpenChunk : ℤ × Fd :=
  if fd.GetCurrChunk.chunkId = -1 then (-Chunk.EINVAL, fd.setCurrChunk { fd.GetCurrChunk with chunkSize := 0 })
  else if w.connect fd.clock then (fd.ask.connected true).SizeChunk w
  else (-Chunk.EHOSTUNREACH, fd.ask)

def IsChunkLeaseGood (chunkId : ℤ) : Bool × Fd := if 0 < chunkId then (w.leaseGood fd.clock, fd.ask) else (true, fd)

def IsChunkReadable : Bool × Fd :=
  let (res, fd) := fd.LocateChunk w
  if res < 0 then (false, fd)
  else
    let (status, fd) :=
      if fd.currPos.preferredServer = false ∧ fd.GetCurrChunk.chunkId ≠ -1 then fd.OpenChunk w else (0, fd)
    if status < 0 then (false, fd) else fd.IsChunkLeaseGood w fd.GetCurrChunk.chunkId

/-! ## Reading from the chunk -/

def CopyFromChunkBuf (numBytes : ℕ) : List UInt8 :=
  let cb := fd.buffer
  let pos := fd.currPos
  if pos.chunkNum ≠ cb.chunkno ∨ pos.chunkOffset < cb.start ∨ cb.start + cb.length ≤ pos.chunkOffset then []
  else
    let start := pos.chunkOffset - cb.start
    load cb.buf start (min (cb.length - start) numBytes)

/-- `ZeroFillBuf`: the number of zeros. -/
def ZeroFillBuf (numBytes : ℕ) : Option ℕ :=
  let chunk := fd.GetCurrChunk
  if fd.currPos.chunkOffset < chunk.chunkSize then some 0
  else if fd.currPos.fileOffset ≤ fd.fileSize ∧ chunk.chunkSize ≤ Chunk.CHUNKSIZE then
    some (min (min (Chunk.CHUNKSIZE - chunk.chunkSize) (fd.fileSize - fd.currPos.fileOffset)) numBytes)
  else none

/-- `ReadFromServer` into the memory `buf`: the status or the number of the bytes, and the memory. -/
def readFromServer (buf : ℕ → UInt8) (numBytes : ℕ) : Option (ℤ × (ℕ → UInt8)) :=
  (ReadFromServer (w.read fd.clock) READ_WINDOW fd.GetCurrChunk.chunkSize fd.currPos.chunkOffset numBytes
    fd.currPos.preferredServer buf).map fun r => (r.numIO, r.buf)

/-- The part of a pass of the loop of `ReadChunk` that reads: an error, or the bytes. -/
def readOnce (buf : ℕ → UInt8) (numBytes : ℕ) : Option (Except ℤ (List UInt8) × Fd) :=
  match fd.ZeroFillBuf numBytes with
  | none => none
  | some zeros =>
    if 0 < zeros then some (.ok (List.replicate zeros 0), fd)
    else if numBytes < BUF_SIZE then
      match fd.readFromServer w fd.buffer.buf BUF_SIZE with
      | none => none
      | some ( numIO, buf) =>
        let fd := { fd.ask with buffer := { fd.buffer with buf := buf } }
        if 0 < numIO then
          let fd := { fd with buffer := { fd.buffer with
            chunkno := fd.currPos.chunkNum, start := fd.currPos.chunkOffset, length := numIO.toNat } }
          some (.ok (fd.CopyFromChunkBuf numBytes), fd)
        else if numIO < 0 then some (.error numIO, fd)
        else some (.ok [], fd)
    else
      match fd.readFromServer w buf numBytes with
      | none => none
      | some ( numIO, buf) => some (if numIO < 0 then .error numIO else .ok (load buf 0 numIO.toNat), fd.ask)

/-- The chunk and its servers are given up. -/
def forget : Fd := (fd.setCurrChunk { fd.GetCurrChunk with chunkId := -1 }).connected false

/-- The passes of the loop of `ReadChunk` that begin without a connection, with the number of retries that are left and
the value of `numIO`. -/
def retryLoop (buf : ℕ → UInt8) (numBytes : ℕ) :
    ℕ → Except ℤ (List UInt8) → Fd → Option (Except ℤ (List UInt8) × Fd)
  | 0, numIO, fd => some ( numIO, fd)
  | left + 1, numIO, fd =>
    let (status, fd) := if fd.GetCurrChunk.chunkId < 0 then fd.LocateChunk w else (0, fd)
    if status < 0 then retryLoop buf numBytes left numIO fd
    else if fd.GetCurrChunk.chunkId = -1 then none
    else
      let (status, fd) := fd.OpenChunk w
      if status < 0 then some (.error status, fd)
      else
        match fd.readOnce w buf numBytes with
        | none => none
        | some (.ok bytes, fd) => some (.ok bytes, fd)
        | some (.error numIO, fd) =>
          if NeedToRetryRead numIO then retryLoop buf numBytes left (.error numIO) fd.forget
          else some (.error numIO, fd)

/-- `ReadChunk`, where `buf` is the memory of the caller. Only its first pass may begin with a connection. -/
def ReadChunk (buf : ℕ → UInt8) (numBytes : ℕ) : Option (Except ℤ (List UInt8) × Fd) :=
  if fd.currPos.fileOffset < fd.fileSize then
    let copied := fd.CopyFromChunkBuf numBytes
    if copied ≠ [] then some (.ok copied, fd)
    else if fd.currPos.preferredServer then
      match fd.readOnce w buf numBytes with
      | none => none
      | some (.ok bytes, fd) => some (.ok bytes, fd)
      | some (.error numIO, fd) =>
        if NeedToRetryRead numIO then fd.forget.retryLoop w buf numBytes NUM_RETRIES_PER_OP (.error numIO)
        else some (.error numIO, fd)
    else fd.retryLoop w buf numBytes NUM_RETRIES_PER_OP (.ok [])
  else none

/-! ## The loop -/

def FlushBuffer : Fd :=
  if fd.buffer.dirty then
    let res := w.written fd.clock
    let fd := (fd.ask.setCurrChunk res.chunk).connected res.preferredServer
    let fd := { fd with fileSize := max fd.fileSize res.eow }
    if 0 ≤ res.numIO then { fd with buffer := { fd.buffer with dirty := false, length := 0 } } else fd
  else fd

/-- `Seek` with `SEEK_CUR`. -/
def Seek (offset : ℕ) : Option Fd :=
  let newOff := fd.currPos.fileOffset + offset
  let chunkNum := toInt32 (newOff / Chunk.CHUNKSIZE)
  let move (fd : Fd) (preferredServer : Bool) : Fd :=
    { fd with currPos := ⟨newOff, chunkNum, newOff % Chunk.CHUNKSIZE, preferredServer⟩ }
  if fd.currPos.chunkNum ≠ chunkNum then
    let fd := fd.FlushBuffer w
    if fd.buffer.dirty then none else some (move fd false)
  else some (move fd fd.currPos.preferredServer)

/-- A round of the loop of `Read`: the loop is left, or bytes have been read. -/
def readRound (buf : ℕ → UInt8) (nleft : ℕ) : Option (Option (List UInt8) × Fd) :=
  let (readable, fd) := fd.IsChunkReadable w
  if readable = false ∨ fd.fileSize ≤ fd.currPos.fileOffset then some (none, fd)
  else
    match fd.ReadChunk w buf nleft with
    | none => none
    | some (.error _, fd) => some (none, fd)
    | some (.ok bytes, fd) => (fd.Seek w bytes.length).map fun fd => (some bytes, fd)

/-- The loop of `Read`, with the number of bytes still wanted and the memory where they go. -/
def readLoop : ℕ → (ℕ → UInt8) → ℕ → Fd → Option (List UInt8 × Fd)
  | 0, _, nleft, fd => if nleft = 0 then some ([], fd) else none
  | fuel + 1, buf, nleft, fd =>
    if nleft = 0 then some ([], fd)
    else
      match fd.readRound w buf nleft with
      | none => none
      | some (none, fd) => some ([], fd)
      | some (some bytes, fd) =>
        (readLoop fuel (fun i => buf (bytes.length + i)) (nleft - bytes.length) fd).map fun (rest, fd) =>
          (bytes ++ rest, fd)

/-- `Read`: an error, or the bytes that have been read. -/
def Read (buf : ℕ → UInt8) (numBytes fuel : ℕ) : Option (Except ℤ (List UInt8) × Fd) :=
  if fd.openMode = .wronly then some (.error (-Chunk.EBADF), fd)
  else if fd.isDirectory then some (.error (-EISDIR), fd)
  else (readLoop w fuel buf numBytes (fd.FlushBuffer w)).map fun (bytes, fd) => (.ok bytes, fd)

end Fd

/-- The number that `Read` returns. -/
def returned : Except ℤ (List UInt8) → ℤ
  | .error code => code
  | .ok bytes => bytes.length

/-- The read comes to an end, and it returns 0 only if the descriptor was at the end of the file. In front of the end it
returns bytes or a negative error. -/
def Right (fd : Fd) (buf : ℕ → UInt8) (numBytes : ℕ) : Prop :=
  ∃ fuel r fd', fd.Read w buf numBytes fuel = some (r, fd') ∧
    (returned r = 0 → fd.fileSize ≤ fd.currPos.fileOffset)

/-! ## The first byte -/

/-- What a read in front of its first byte asks for next: where the chunk is, one of its servers, the lease, or the
bytes, with the number of retries that are left; `lost` is a chunk that has to be located again. -/
inductive Stage
  | unlocated (connected : Bool)
  | unopened
  | unleased (chunkSize : ℕ)
  | unread (chunkSize left : ℕ)
  | lost (left : ℕ)

/-- The answers from the request `k` on bring a byte at `chunkOffset`, for which `numBytes` bytes are asked; `Buffered`
tells that it is in the buffer. Up to it no answer is a failure, but for the reads that may be asked for again. -/
inductive Brings (Buffered : Prop) (chunkOffset numBytes : ℕ) : Stage → ℕ → Prop
  | located {connected : Bool} {k : ℕ} (status : 0 ≤ (w.getAlloc k).1)
      (rest : Brings Buffered chunkOffset numBytes (if connected then .unleased 0 else .unopened) (k + 1)) :
      Brings Buffered chunkOffset numBytes (.unlocated connected) k
  | opened {k : ℕ} (reached : w.connect k = true) (status : 0 ≤ (w.size (k + 1)).1)
      (rest : Brings Buffered chunkOffset numBytes (.unleased (w.size (k + 1)).2) (k + 2)) :
      Brings Buffered chunkOffset numBytes .unopened k
  | buffered {chunkSize k : ℕ} (lease : w.leaseGood k = true) (copied : Buffered) :
      Brings Buffered chunkOffset numBytes (.unleased chunkSize) k
  | leased {chunkSize k : ℕ} (lease : w.leaseGood k = true)
      (rest : Brings Buffered chunkOffset numBytes (.unread chunkSize NUM_RETRIES_PER_OP) (k + 1)) :
      Brings Buffered chunkOffset numBytes (.unleased chunkSize) k
  | zeros {chunkSize left k : ℕ} (behind : chunkSize ≤ chunkOffset) :
      Brings Buffered chunkOffset numBytes (.unread chunkSize left) k
  | bytes {chunkSize left k : ℕ} {m : ℤ} (inside : chunkOffset < chunkSize)
      (res : answer (w.read k) chunkSize chunkOffset numBytes = some m) (pos : 0 < m) :
      Brings Buffered chunkOffset numBytes (.unread chunkSize left) k
  | nothing {chunkSize left k : ℕ} (inside : chunkOffset < chunkSize)
      (res : answer (w.read k) chunkSize chunkOffset numBytes = some 0)
      (rest : Brings Buffered chunkOffset numBytes (.unleased chunkSize) (k + 1)) :
      Brings Buffered chunkOffset numBytes (.unread chunkSize left) k
  | retried {chunkSize left k : ℕ} {code : ℤ} (inside : chunkOffset < chunkSize)
      (res : answer (w.read k) chunkSize chunkOffset numBytes = some code) (retry : NeedToRetryRead code = true)
      (rest : Brings Buffered chunkOffset numBytes (.lost left) (k + 1)) :
      Brings Buffered chunkOffset numBytes (.unread chunkSize left) k
  | missed {left k : ℕ} (status : (w.getAlloc k).1 < 0)
      (rest : Brings Buffered chunkOffset numBytes (.lost left) (k + 1)) :
      Brings Buffered chunkOffset numBytes (.lost (left + 1)) k
  | found {left k : ℕ} (status : 0 ≤ (w.getAlloc k).1) (reached : w.connect (k + 1) = true)
      (opened : 0 ≤ (w.size (k + 2)).1)
      (rest : Brings Buffered chunkOffset numBytes (.unread (w.size (k + 2)).2 left) (k + 3)) :
      Brings Buffered chunkOffset numBytes (.lost (left + 1)) k

/-- The byte at the position is in the buffer. -/
def Buffered (fd : Fd) : Prop :=
  fd.currPos.chunkNum = fd.buffer.chunkno ∧ fd.buffer.start ≤ fd.currPos.chunkOffset ∧
    fd.currPos.chunkOffset < fd.buffer.start + fd.buffer.length

/-- What the descriptor has to ask for first. -/
def stage (fd : Fd) : Stage :=
  if 0 < fd.GetCurrChunk.chunkId then
    if fd.currPos.preferredServer then .unleased fd.GetCurrChunk.chunkSize else .unopened
  else .unlocated fd.currPos.preferredServer

/-- The chunk number is none of those that overflow, and the answers bring the first byte. -/
structure Served (fd : Fd) (numBytes : ℕ) : Prop where
  numbered : 0 ≤ fd.currPos.chunkNum
  brings : Brings w (Buffered fd) fd.currPos.chunkOffset (max BUF_SIZE numBytes) (stage fd) fd.clock

/-- No reply is longer than what was asked for, and the servers do not answer with nothing for ever. -/
structure Lively : Prop where
  fits (k : ℕ) : (w.read k).Fits
  feeds : ∃ K, ∀ k, K ≤ k → (w.read k).Feeds

/-- The parts of the position agree. -/
structure Placed (fd : Fd) : Prop where
  chunkNum : fd.currPos.chunkNum = toInt32 (fd.currPos.fileOffset / Chunk.CHUNKSIZE)
  chunkOffset : fd.currPos.chunkOffset = fd.currPos.fileOffset % Chunk.CHUNKSIZE

section Stages

variable {w} {B : Prop} {o n k chunkSize left : ℕ} {m : ℤ}

theorem brings_unlocated {connected : Bool} : Brings w B o n (.unlocated connected) k ↔
    0 ≤ (w.getAlloc k).1 ∧ Brings w B o n (if connected then .unleased 0 else .unopened) (k + 1) := by
  constructor
  · intro h
    cases h with
    | located status rest => exact ⟨status, rest⟩
  · rintro ⟨status, rest⟩
    exact .located status rest

theorem brings_unopened : Brings w B o n .unopened k ↔
    w.connect k = true ∧ 0 ≤ (w.size (k + 1)).1 ∧ Brings w B o n (.unleased (w.size (k + 1)).2) (k + 2) := by
  constructor
  · intro h
    cases h with
    | opened reached status rest => exact ⟨reached, status, rest⟩
  · rintro ⟨reached, status, rest⟩
    exact .opened reached status rest

theorem brings_unleased : Brings w B o n (.unleased chunkSize) k ↔
    w.leaseGood k = true ∧ (B ∨ Brings w B o n (.unread chunkSize NUM_RETRIES_PER_OP) (k + 1)) := by
  constructor
  · intro h
    cases h with
    | buffered lease copied => exact ⟨lease, Or.inl copied⟩
    | leased lease rest => exact ⟨lease, Or.inr rest⟩
  · rintro ⟨lease, copied | rest⟩
    · exact .buffered lease copied
    · exact .leased lease rest

theorem NeedToRetryRead_neg (h : NeedToRetryRead m = true) : m < 0 := by
  simp only [NeedToRetryRead, Bool.or_eq_true, decide_eq_true_eq] at h
  simp only [EBADVERS, EBADCKSUM, ESERVERBUSY, Chunk.EHOSTUNREACH, ETIMEDOUT] at h
  omega

theorem brings_unread (hinside : o < chunkSize) (hres : answer (w.read k) chunkSize o n = some m) :
    Brings w B o n (.unread chunkSize left) k ↔ 0 < m ∨ m = 0 ∧ Brings w B o n (.unleased chunkSize) (k + 1) ∨
      NeedToRetryRead m = true ∧ Brings w B o n (.lost left) (k + 1) := by
  constructor
  · intro h
    cases h with
    | zeros behind => exact absurd hinside (not_lt.2 behind)
    | bytes _ res pos =>
      cases hres.symm.trans res
      exact Or.inl pos
    | nothing _ res rest =>
      cases hres.symm.trans res
      exact Or.inr (Or.inl ⟨rfl, rest⟩)
    | retried _ res retry rest =>
      cases hres.symm.trans res
      exact Or.inr (Or.inr ⟨retry, rest⟩)
  · rintro (pos | ⟨rfl, rest⟩ | ⟨retry, rest⟩)
    · exact .bytes hinside hres pos
    · exact .nothing hinside hres rest
    · exact .retried hinside hres retry rest

theorem not_brings_overrun (hinside : o < chunkSize) (hres : answer (w.read k) chunkSize o n = none) :
    ¬ Brings w B o n (.unread chunkSize left) k := by
  intro h
  cases h with
  | zeros behind => exact absurd hinside (not_lt.2 behind)
  | bytes _ res => cases hres.symm.trans res
  | nothing _ res => cases hres.symm.trans res
  | retried _ res => cases hres.symm.trans res

theorem not_brings_lost : ¬ Brings w B o n (.lost 0) k := fun h => by cases h

theorem brings_missed (h : (w.getAlloc k).1 < 0) :
    Brings w B o n (.lost (left + 1)) k ↔ Brings w B o n (.lost left) (k + 1) := by
  constructor
  · intro hbrings
    cases hbrings with
    | missed _ rest => exact rest
    | found status => exact absurd status (not_le.2 h)
  · exact .missed h

theorem brings_found (h : 0 ≤ (w.getAlloc k).1) : Brings w B o n (.lost (left + 1)) k ↔
    w.connect (k + 1) = true ∧ 0 ≤ (w.size (k + 2)).1 ∧
      Brings w B o n (.unread (w.size (k + 2)).2 left) (k + 3) := by
  constructor
  · intro hbrings
    cases hbrings with
    | missed status => exact absurd h (not_le.2 status)
    | found _ reached opened rest => exact ⟨reached, opened, rest⟩
  · rintro ⟨reached, opened, rest⟩
    exact .found h reached opened rest

end Stages

/-! ## The steps of a round -/

variable {w} {fd fd' fd₁ : Fd} {buf : ℕ → UInt8} {n k left : ℕ}

/-- The position stays where it is. -/
structure Keeps (fd fd' : Fd) : Prop where
  position : fd'.currPos = { fd.currPos with preferredServer := fd'.currPos.preferredServer }
  fileSize : fd'.fileSize = fd.fileSize
  dirty : fd'.buffer.dirty = fd.buffer.dirty
  clock : fd.clock ≤ fd'.clock

/-- The buffer holds the same piece of the file. -/
structure Waits (fd fd' : Fd) : Prop extends Keeps fd fd' where
  chunkno : fd'.buffer.chunkno = fd.buffer.chunkno
  start : fd'.buffer.start = fd.buffer.start
  length : fd'.buffer.length = fd.buffer.length

/-- The chunk is located, and there is a connection. -/
structure Connected (fd : Fd) : Prop where
  located : 0 < fd.GetCurrChunk.chunkId
  opened : fd.currPos.preferredServer = true

def Ahead (fd : Fd) : Prop := fd.currPos.fileOffset < fd.fileSize

/-- The position is one of the file and of its chunk. -/
structure Inside (fd : Fd) : Prop where
  numbered : 0 ≤ fd.currPos.chunkNum
  ahead : Ahead fd
  offset : fd.currPos.chunkOffset < Chunk.CHUNKSIZE

namespace Keeps

theorem trans (h : Keeps fd fd₁) (h' : Keeps fd₁ fd') : Keeps fd fd' where
  position := by rw [h'.position, h.position]
  fileSize := h'.fileSize.trans h.fileSize
  dirty := h'.dirty.trans h.dirty
  clock := h.clock.trans h'.clock

theorem fileOffset (h : Keeps fd fd') : fd'.currPos.fileOffset = fd.currPos.fileOffset := by rw [h.position]

theorem chunkNum (h : Keeps fd fd') : fd'.currPos.chunkNum = fd.currPos.chunkNum := by rw [h.position]

theorem chunkOffset (h : Keeps fd fd') : fd'.currPos.chunkOffset = fd.currPos.chunkOffset := by rw [h.position]

theorem placed (h : Keeps fd fd') (hfd : Placed fd) : Placed fd' where
  chunkNum := by rw [h.chunkNum, h.fileOffset, hfd.chunkNum]
  chunkOffset := by rw [h.chunkOffset, h.fileOffset, hfd.chunkOffset]

theorem ahead (h : Keeps fd fd') : Ahead fd' ↔ Ahead fd := by
  unfold Ahead
  rw [h.fileOffset, h.fileSize]

end Keeps

theorem Keeps.inside (h : Keeps fd fd') (hfd : Inside fd) : Inside fd' where
  numbered := h.chunkNum.symm ▸ hfd.numbered
  ahead := h.ahead.2 hfd.ahead
  offset := h.chunkOffset.symm ▸ hfd.offset

theorem Waits.refl : Waits fd fd := ⟨⟨rfl, rfl, rfl, le_rfl⟩, rfl, rfl, rfl⟩

theorem Waits.trans (h : Waits fd fd₁) (h' : Waits fd₁ fd') : Waits fd fd' where
  toKeeps := h.toKeeps.trans h'.toKeeps
  chunkno := h'.chunkno.trans h.chunkno
  start := h'.start.trans h.start
  length := h'.length.trans h.length

theorem Waits.buffered (h : Waits fd fd') : Buffered fd' ↔ Buffered fd := by
  unfold Buffered
  rw [h.chunkNum, h.chunkOffset, h.chunkno, h.start, h.length]

theorem Connected.stage_eq (h : Connected fd) : stage fd = .unleased fd.GetCurrChunk.chunkSize := by
  unfold stage
  rw [if_pos h.located, if_pos h.opened]

theorem GetCurrChunk_setCurrChunk {chunk : ChunkAttr} : (fd.setCurrChunk chunk).GetCurrChunk = chunk :=
  Function.update_self ..

/-- A chunk that is not located is asked for. -/
theorem LocateChunk_cases (hnum : 0 ≤ fd.currPos.chunkNum) (hchunk : fd.GetCurrChunk.chunkId ≤ 0) :
    (w.getAlloc fd.clock).1 < 0 ∧ fd.LocateChunk w = ((w.getAlloc fd.clock).1, fd.ask) ∨
    0 ≤ (w.getAlloc fd.clock).1 ∧ ∃ fd', fd.LocateChunk w = (0, fd') ∧ Waits fd fd' ∧ fd'.clock = fd.clock + 1 ∧
      0 < fd'.GetCurrChunk.chunkId ∧ fd'.GetCurrChunk.chunkSize = 0 ∧
      fd'.currPos.preferredServer = fd.currPos.preferredServer := by
  unfold Fd.LocateChunk
  rw [if_neg (not_lt.2 hnum), if_neg (not_lt.2 hchunk)]
  dsimp only
  split_ifs with hstatus
  · exact Or.inl ⟨hstatus, rfl⟩
  · refine Or.inr ⟨not_lt.1 hstatus, _, rfl, ⟨⟨rfl, rfl, rfl, Nat.le_succ _⟩, rfl, rfl, rfl⟩, rfl, ?_, ?_, rfl⟩
    · rw [GetCurrChunk_setCurrChunk]
      exact w.named fd.clock (not_lt.1 hstatus)
    · rw [GetCurrChunk_setCurrChunk]

/-- A located chunk is opened. -/
theorem OpenChunk_cases (hchunk : 0 < fd.GetCurrChunk.chunkId) :
    (fd.OpenChunk w).1 < 0 ∧ ¬ (w.connect fd.clock = true ∧ 0 ≤ (w.size (fd.clock + 1)).1) ∨
    w.connect fd.clock = true ∧ 0 ≤ (w.size (fd.clock + 1)).1 ∧ ∃ status fd', fd.OpenChunk w = (status, fd') ∧
      0 ≤ status ∧ Waits fd fd' ∧ Connected fd' ∧ fd'.clock = fd.clock + 2 ∧
      fd'.GetCurrChunk.chunkSize = (w.size (fd.clock + 1)).2 := by
  have hid : fd.GetCurrChunk.chunkId ≠ -1 := by omega
  unfold Fd.OpenChunk
  rw [if_neg hid]
  split_ifs with hconnect
  · by_cases hstatus : 0 ≤ (w.size (fd.clock + 1)).1
    · refine Or.inr ⟨hconnect, hstatus, _, _, rfl, hstatus, ⟨⟨rfl, rfl, rfl, ?_⟩, rfl, rfl, rfl⟩, ⟨?_, rfl⟩, rfl, ?_⟩
      · exact Nat.le_add_right fd.clock 2
      · rw [GetCurrChunk_setCurrChunk]
        exact hchunk
      · exact congrArg ChunkAttr.chunkSize GetCurrChunk_setCurrChunk
    · exact Or.inl ⟨not_le.1 hstatus, fun h => hstatus h.2⟩
  · exact Or.inl ⟨show -Chunk.EHOSTUNREACH < 0 by decide, fun h => hconnect h.1⟩

/-- The outcome of `IsChunkReadable`, where `Started` tells that the answers bring the first byte. -/
inductive Readable (w : Outside) (fd : Fd) (n : ℕ) (Started : Prop) : Bool × Fd → Prop
  | no {fd' : Fd} (hnot : ¬ Started) : Readable w fd n Started (false, fd')
  | yes {fd' : Fd} (hwaits : Waits fd fd') (hconn : Connected fd')
      (hiff : Started ↔ Buffered fd ∨ Brings w (Buffered fd) fd.currPos.chunkOffset n
        (.unread fd'.GetCurrChunk.chunkSize NUM_RETRIES_PER_OP) fd'.clock) : Readable w fd n Started (true, fd')

theorem Readable.after {Started Started' : Prop} {r : Bool × Fd} (hwaits : Waits fd fd₁) (hiff : Started ↔ Started')
    (h : Readable w fd₁ n Started' r) : Readable w fd n Started r := by
  cases h with
  | no hnot => exact .no (mt hiff.1 hnot)
  | yes hwaits' hconn hiff' =>
    rw [hwaits.chunkOffset, propext hwaits.buffered] at hiff'
    exact .yes (hwaits.trans hwaits') hconn (hiff.trans hiff')

/-- The lease, for a chunk with a connection. -/
theorem IsChunkLeaseGood_readable (hconn : Connected fd) : Readable w fd n
    (Brings w (Buffered fd) fd.currPos.chunkOffset n (stage fd) fd.clock)
    (fd.IsChunkLeaseGood w fd.GetCurrChunk.chunkId) := by
  unfold Fd.IsChunkLeaseGood
  rw [if_pos hconn.located, hconn.stage_eq]
  cases hlease : w.leaseGood fd.clock with
  | false =>
    refine .no fun h => ?_
    rw [(brings_unleased.1 h).1] at hlease
    cases hlease
  | true =>
    refine .yes ⟨⟨rfl, rfl, rfl, Nat.le_succ _⟩, rfl, rfl, rfl⟩ ⟨hconn.located, hconn.opened⟩ ?_
    rw [brings_unleased]
    exact and_iff_right hlease

/-- The connection and the lease, for a chunk that is located. -/
theorem OpenChunk_readable (hchunk : 0 < fd.GetCurrChunk.chunkId) : Readable w fd n
    (Brings w (Buffered fd) fd.currPos.chunkOffset n (stage fd) fd.clock)
    (match if fd.currPos.preferredServer = false ∧ fd.GetCurrChunk.chunkId ≠ -1 then fd.OpenChunk w else (0, fd) with
      | (status, fd) => if status < 0 then (false, fd) else fd.IsChunkLeaseGood w fd.GetCurrChunk.chunkId) := by
  cases hopened : fd.currPos.preferredServer with
  | true =>
    rw [if_neg fun h => by cases h.1]
    exact IsChunkLeaseGood_readable ⟨hchunk, hopened⟩
  | false =>
    have hstage : stage fd = .unopened := by
      unfold stage
      rw [if_pos hchunk, hopened]
      rfl
    rw [if_pos ⟨rfl, by omega⟩, hstage]
    cases OpenChunk_cases (w := w) hchunk with
    | inl hfailed =>
      obtain ⟨hneg, hnot⟩ := hfailed
      dsimp only
      rw [if_pos hneg]
      exact .no fun h => hnot ⟨(brings_unopened.1 h).1, (brings_unopened.1 h).2.1⟩
    | inr hopen =>
      obtain ⟨hreached, hstatus, status, fd₁, heq, hnonneg, hwaits, hconn, hclock, hsize⟩ := hopen
      rw [heq]
      dsimp only
      rw [if_neg (not_lt.2 hnonneg)]
      refine .after hwaits ?_ (IsChunkLeaseGood_readable hconn)
      rw [brings_unopened, hconn.stage_eq, hwaits.chunkOffset, propext hwaits.buffered, hsize, hclock]
      exact ⟨fun h => h.2.2, fun h => ⟨hreached, hstatus, h⟩⟩

theorem IsChunkReadable_readable (hnum : 0 ≤ fd.currPos.chunkNum) : Readable w fd n
    (Brings w (Buffered fd) fd.currPos.chunkOffset n (stage fd) fd.clock) (fd.IsChunkReadable w) := by
  unfold Fd.IsChunkReadable
  by_cases hchunk : 0 < fd.GetCurrChunk.chunkId
  · have hlocate : fd.LocateChunk w = (0, fd) := by
      unfold Fd.LocateChunk
      rw [if_neg (not_lt.2 hnum), if_pos hchunk]
    rw [hlocate]
    exact OpenChunk_readable hchunk
  · have hstage : stage fd = .unlocated fd.currPos.preferredServer := if_neg hchunk
    rw [hstage, brings_unlocated]
    cases LocateChunk_cases (w := w) hnum (not_lt.1 hchunk) with
    | inl hfailed =>
      obtain ⟨hneg, heq⟩ := hfailed
      rw [heq]
      dsimp only
      rw [if_pos hneg]
      exact .no fun h => absurd h.1 (not_le.2 hneg)
    | inr hlocated =>
      obtain ⟨hstatus, fd₁, heq, hwaits, hclock, hid, hsize, hserver⟩ := hlocated
      rw [heq]
      dsimp only
      rw [if_neg (lt_irrefl (0 : ℤ))]
      refine .after hwaits ?_ (OpenChunk_readable hid)
      have hstage' : stage fd₁ = if fd.currPos.preferredServer then .unleased 0 else .unopened := by
        unfold stage
        rw [if_pos hid, hserver, hsize]
      rw [hstage', hwaits.chunkOffset, propext hwaits.buffered, hclock]
      exact and_iff_right hstatus

/-! ## The bytes of a round -/

theorem CopyFromChunkBuf_ne_nil (hn : 0 < n) : fd.CopyFromChunkBuf n ≠ [] ↔ Buffered fd := by
  unfold Fd.CopyFromChunkBuf Buffered
  dsimp only
  split_ifs with hout
  · exact iff_of_false (fun h => h rfl) (by omega)
  · refine iff_of_true ?_ (by omega)
    rw [← List.length_pos_iff, length_load]
    omega

/-- The answer to the read is empty. -/
def Idle (w : Outside) (fd : Fd) (n k : ℕ) : Prop :=
  ∃ chunkSize, fd.currPos.chunkOffset < chunkSize ∧
    answer (w.read k) chunkSize fd.currPos.chunkOffset n = some 0

/-- The answer to the read is longer than what was asked for. -/
def Overrun (w : Outside) (fd : Fd) (n k : ℕ) : Prop :=
  ∃ chunkSize, fd.currPos.chunkOffset < chunkSize ∧ answer (w.read k) chunkSize fd.currPos.chunkOffset n = none

/-- The outcome of `ReadChunk`, where `Started` tells that the answers bring the first byte. -/
inductive Chunked (w : Outside) (fd : Fd) (n : ℕ) (Started : Prop) : Option (Except ℤ (List UInt8) × Fd) → Prop
  | bytes {fd' : Fd} {bytes : List UInt8} (h : Started) (hne : bytes ≠ []) (hkeeps : Keeps fd fd') :
      Chunked w fd n Started (some (.ok bytes, fd'))
  | nothing {fd' : Fd} {k : ℕ} (hwaits : Waits fd fd') (hconn : Connected fd') (hk : fd.clock ≤ k)
      (hlater : k < fd'.clock) (hidle : Idle w fd n k)
      (hiff : Started ↔ Brings w (Buffered fd) fd.currPos.chunkOffset n (stage fd') fd'.clock) :
      Chunked w fd n Started (some (.ok [], fd'))
  | error {fd' : Fd} {code : ℤ} (hnot : ¬ Started) : Chunked w fd n Started (some (.error code, fd'))
  | overrun {k : ℕ} (hnot : ¬ Started) (hoverrun : Overrun w fd n k) : Chunked w fd n Started none

theorem Chunked.after {Started Started' : Prop} {r : Option (Except ℤ (List UInt8) × Fd)} (hwaits : Waits fd fd₁)
    (hiff : Started ↔ Started') (h : Chunked w fd₁ n Started' r) : Chunked w fd n Started r := by
  cases h with
  | bytes h hne hkeeps => exact .bytes (hiff.2 h) hne (hwaits.toKeeps.trans hkeeps)
  | nothing hwaits' hconn hk hlater hidle hiff' =>
    unfold Idle at hidle
    rw [hwaits.chunkOffset] at hidle hiff'
    rw [propext hwaits.buffered] at hiff'
    exact .nothing (hwaits.trans hwaits') hconn (hwaits.clock.trans hk) hlater hidle (hiff.trans hiff')
  | error hnot => exact .error (mt hiff.1 hnot)
  | overrun hnot hoverrun =>
    unfold Overrun at hoverrun
    rw [hwaits.chunkOffset] at hoverrun
    exact .overrun (mt hiff.1 hnot) hoverrun

/-- The outcome of one pass: zeros behind the end of the chunk, or the answer to the read. -/
inductive Once (w : Outside) (fd : Fd) (n : ℕ) : Option (Except ℤ (List UInt8) × Fd) → Prop
  | zeros {bytes : List UInt8} (hbehind : fd.GetCurrChunk.chunkSize ≤ fd.currPos.chunkOffset) (hne : bytes ≠ []) :
      Once w fd n (some (.ok bytes, fd))
  | bytes {fd' : Fd} {m : ℤ} {bytes : List UInt8} (hinside : fd.currPos.chunkOffset < fd.GetCurrChunk.chunkSize)
      (hres : answer (w.read fd.clock) fd.GetCurrChunk.chunkSize fd.currPos.chunkOffset n = some m) (hpos : 0 < m)
      (hne : bytes ≠ []) (hkeeps : Keeps fd fd') : Once w fd n (some (.ok bytes, fd'))
  | nothing {fd' : Fd} (hinside : fd.currPos.chunkOffset < fd.GetCurrChunk.chunkSize)
      (hres : answer (w.read fd.clock) fd.GetCurrChunk.chunkSize fd.currPos.chunkOffset n = some 0)
      (hwaits : Waits fd fd') (hconn : Connected fd') (hclock : fd'.clock = fd.clock + 1)
      (hsize : fd'.GetCurrChunk.chunkSize = fd.GetCurrChunk.chunkSize) : Once w fd n (some (.ok [], fd'))
  | error {fd' : Fd} {code : ℤ} (hinside : fd.currPos.chunkOffset < fd.GetCurrChunk.chunkSize)
      (hres : answer (w.read fd.clock) fd.GetCurrChunk.chunkSize fd.currPos.chunkOffset n = some code)
      (hneg : code < 0) (hwaits : Waits fd fd') (hclock : fd'.clock = fd.clock + 1) :
      Once w fd n (some (.error code, fd'))
  | overrun (hinside : fd.currPos.chunkOffset < fd.GetCurrChunk.chunkSize)
      (hres : answer (w.read fd.clock) fd.GetCurrChunk.chunkSize fd.currPos.chunkOffset n = none) : Once w fd n none

/-- `ReadFromServer` on a connection. -/
theorem readFromServer_answer (hconn : Connected fd) : (fd.readFromServer w buf n).map Prod.fst =
    answer (w.read fd.clock) fd.GetCurrChunk.chunkSize fd.currPos.chunkOffset n := by
  unfold Fd.readFromServer
  rw [hconn.opened, Option.map_map]
  exact ReadFromServer_answer

theorem readOnce_once (hconn : Connected fd) (hinside : Inside fd) (hn : 0 < n) :
    Once w fd (max BUF_SIZE n) (fd.readOnce w buf n) := by
  obtain ⟨-, hahead, hplaced⟩ := hinside
  unfold Fd.readOnce
  by_cases hinside : fd.currPos.chunkOffset < fd.GetCurrChunk.chunkSize
  · have hzeros : fd.ZeroFillBuf n = some 0 := if_pos hinside
    rw [hzeros]
    dsimp only
    rw [if_neg (lt_irrefl 0)]
    split_ifs with hsmall
    · have hans := @readFromServer_answer w fd fd.buffer.buf BUF_SIZE hconn
      rw [max_eq_left hsmall.le]
      cases hread : fd.readFromServer w fd.buffer.buf BUF_SIZE with
      | none =>
        rw [hread] at hans
        exact .overrun hinside hans.symm
      | some r =>
        obtain ⟨m, b⟩ := r
        rw [hread] at hans
        dsimp only
        split_ifs with hpos hneg
        · refine .bytes hinside hans.symm hpos ?_ ⟨rfl, rfl, rfl, Nat.le_succ _⟩
          exact (CopyFromChunkBuf_ne_nil hn).2 ⟨rfl, le_rfl, Nat.lt_add_of_pos_right (Int.pos_iff_toNat_pos.1 hpos)⟩
        · exact .error hinside hans.symm hneg ⟨⟨rfl, rfl, rfl, Nat.le_succ _⟩, rfl, rfl, rfl⟩ rfl
        · obtain rfl : m = 0 := by omega
          exact .nothing hinside hans.symm ⟨⟨rfl, rfl, rfl, Nat.le_succ _⟩, rfl, rfl, rfl⟩
            ⟨hconn.located, hconn.opened⟩ rfl rfl
    · have hans := @readFromServer_answer w fd buf n hconn
      rw [max_eq_right (not_lt.1 hsmall)]
      cases hread : fd.readFromServer w buf n with
      | none =>
        rw [hread] at hans
        exact .overrun hinside hans.symm
      | some r =>
        obtain ⟨m, b⟩ := r
        rw [hread] at hans
        dsimp only
        split_ifs with hneg
        · exact .error hinside hans.symm hneg ⟨⟨rfl, rfl, rfl, Nat.le_succ _⟩, rfl, rfl, rfl⟩ rfl
        · obtain ⟨len, rfl⟩ := Int.eq_ofNat_of_zero_le (not_lt.1 hneg)
          cases len with
          | zero =>
            exact .nothing hinside hans.symm ⟨⟨rfl, rfl, rfl, Nat.le_succ _⟩, rfl, rfl, rfl⟩
              ⟨hconn.located, hconn.opened⟩ rfl rfl
          | succ len =>
            refine .bytes hinside hans.symm (Int.natCast_pos.2 (Nat.succ_pos len)) ?_ ⟨rfl, rfl, rfl, Nat.le_succ _⟩
            rw [← List.length_pos_iff, length_load]
            exact Nat.succ_pos len
  · have hbehind := not_lt.1 hinside
    have hzeros : fd.ZeroFillBuf n = some (min (min (Chunk.CHUNKSIZE - fd.GetCurrChunk.chunkSize)
        (fd.fileSize - fd.currPos.fileOffset)) n) := by
      unfold Fd.ZeroFillBuf
      dsimp only
      rw [if_neg hinside, if_pos ⟨le_of_lt hahead, by omega⟩]
    have hpos :
        0 < min (min (Chunk.CHUNKSIZE - fd.GetCurrChunk.chunkSize) (fd.fileSize - fd.currPos.fileOffset)) n := by
      unfold Ahead at hahead
      omega
    rw [hzeros]
    dsimp only
    rw [if_pos hpos]
    refine .zeros hbehind ?_
    rw [← List.length_pos_iff, List.length_replicate]
    exact hpos

theorem forget_waits : Waits fd fd.forget := ⟨⟨rfl, rfl, rfl, le_rfl⟩, rfl, rfl, rfl⟩

theorem forget_lost : fd.forget.GetCurrChunk.chunkId < 0 := by
  change (fd.setCurrChunk _).GetCurrChunk.chunkId < 0
  rw [GetCurrChunk_setCurrChunk]
  exact (by decide : (-1 : ℤ) < 0)

/-- The chunk is given up when its read has failed in such a way that it may be tried again. -/
theorem chunked_of_once {r : Option (Except ℤ (List UInt8) × Fd)}
    {retry : Except ℤ (List UInt8) → Fd → Option (Except ℤ (List UInt8) × Fd)} (h : Once w fd n r)
    (hretry : ∀ fd' code, Waits fd fd' → fd'.GetCurrChunk.chunkId < 0 → Chunked w fd' n
      (Brings w (Buffered fd') fd'.currPos.chunkOffset n (.lost left) fd'.clock) (retry (.error code) fd')) :
    Chunked w fd n (Brings w (Buffered fd) fd.currPos.chunkOffset n (.unread fd.GetCurrChunk.chunkSize left) fd.clock)
      (match (motive := Option (Except ℤ (List UInt8) × Fd) → Option (Except ℤ (List UInt8) × Fd)) r with
        | none => none
        | some (.ok bytes, fd) => some (.ok bytes, fd)
        | some (.error numIO, fd) =>
          if NeedToRetryRead numIO then retry (.error numIO) fd.forget else some (.error numIO, fd)) := by
  cases h with
  | zeros hbehind hne => exact .bytes (.zeros hbehind) hne Waits.refl.toKeeps
  | bytes hinside hres hpos hne hkeeps => exact .bytes (.bytes hinside hres hpos) hne hkeeps
  | nothing hinside hres hwaits hconn' hclock hsize =>
    refine .nothing hwaits hconn' le_rfl (by omega) ⟨_, hinside, hres⟩ ?_
    rw [brings_unread hinside hres, hconn'.stage_eq, hsize, hclock]
    constructor
    · rintro (hpos | ⟨-, hrest⟩ | ⟨hcode, -⟩)
      · exact absurd hpos (lt_irrefl _)
      · exact hrest
      · exact absurd (NeedToRetryRead_neg hcode) (lt_irrefl _)
    · exact fun hrest => Or.inr (Or.inl ⟨rfl, hrest⟩)
  | @error fd' code hinside hres hneg hwaits hclock =>
    have hiff := @brings_unread w (Buffered fd) fd.currPos.chunkOffset n fd.clock fd.GetCurrChunk.chunkSize left code
      hinside hres
    dsimp only
    split_ifs with hcode
    · have hforget := hwaits.trans forget_waits
      refine .after hforget ?_ (hretry fd'.forget code hforget forget_lost)
      have hclock' : fd'.forget.clock = fd.clock + 1 := hclock
      rw [hiff, hforget.chunkOffset, propext hforget.buffered, hclock']
      constructor
      · rintro (hpos | ⟨hzero, -⟩ | ⟨-, hrest⟩)
        · exact absurd hpos hneg.not_gt
        · exact absurd hzero hneg.ne
        · exact hrest
      · exact fun hrest => Or.inr (Or.inr ⟨hcode, hrest⟩)
    · refine .error fun h => ?_
      rcases hiff.1 h with hpos | ⟨hzero, -⟩ | ⟨hretry, -⟩
      · exact hneg.not_gt hpos
      · exact hneg.ne hzero
      · exact hcode hretry
  | overrun hinside hres => exact .overrun (not_brings_overrun hinside hres) ⟨_, hinside, hres⟩

theorem retryLoop_chunked {code : ℤ} (hlost : fd.GetCurrChunk.chunkId < 0) (hinside : Inside fd) (hn : 0 < n) :
    Chunked w fd (max BUF_SIZE n)
      (Brings w (Buffered fd) fd.currPos.chunkOffset (max BUF_SIZE n) (.lost left) fd.clock)
      (fd.retryLoop w buf n left (.error code)) := by
  induction left generalizing fd code with
  | zero => exact .error not_brings_lost
  | succ left ih =>
    unfold Fd.retryLoop
    rw [if_pos hlost]
    cases LocateChunk_cases (w := w) hinside.numbered hlost.le with
    | inl hfailed =>
      obtain ⟨hneg, heq⟩ := hfailed
      have hwaits : Waits fd fd.ask := ⟨⟨rfl, rfl, rfl, Nat.le_succ _⟩, rfl, rfl, rfl⟩
      rw [heq]
      dsimp only
      rw [if_pos hneg]
      exact .after hwaits (brings_missed hneg) (@ih fd.ask code hlost (hwaits.inside hinside))
    | inr hlocated =>
      obtain ⟨hstatus, fd₁, heq, hwaits, hclock, hid, -, -⟩ := hlocated
      rw [heq]
      dsimp only
      rw [if_neg (lt_irrefl (0 : ℤ)), if_neg (show fd₁.GetCurrChunk.chunkId ≠ -1 by omega), brings_found hstatus]
      cases OpenChunk_cases (w := w) hid with
      | inl hfailed =>
        obtain ⟨hneg, hnot⟩ := hfailed
        rw [if_pos hneg]
        refine .error fun h => hnot ?_
        rw [hclock]
        exact ⟨h.1, h.2.1⟩
      | inr hopen =>
        obtain ⟨hreached, hopened, status, fd₂, heq₂, hnonneg, hwaits₂, hconn, hclock₂, hsize⟩ := hopen
        rw [heq₂]
        dsimp only
        rw [if_neg (not_lt.2 hnonneg)]
        have hall := hwaits.trans hwaits₂
        have hinside₂ := hall.inside hinside
        rw [hclock] at hreached hopened hclock₂ hsize
        refine .after hall ?_ (@chunked_of_once w fd₂ (max BUF_SIZE n) left _ _ (readOnce_once hconn hinside₂ hn) ?_)
        · rw [hall.chunkOffset, propext hall.buffered, hsize, hclock₂]
          exact ⟨fun h => h.2.2, fun h => ⟨hreached, hopened, h⟩⟩
        · exact fun fd₃ code hwaits₃ hlost₃ => ih hlost₃ (hwaits₃.inside hinside₂)

/-- `ReadChunk` after `IsChunkReadable`. -/
theorem ReadChunk_chunked (hconn : Connected fd) (hinside : Inside fd) (hn : 0 < n) :
    Chunked w fd (max BUF_SIZE n) (Buffered fd ∨ Brings w (Buffered fd) fd.currPos.chunkOffset (max BUF_SIZE n)
      (.unread fd.GetCurrChunk.chunkSize NUM_RETRIES_PER_OP) fd.clock) (fd.ReadChunk w buf n) := by
  have hahead : fd.currPos.fileOffset < fd.fileSize := hinside.ahead
  unfold Fd.ReadChunk
  rw [if_pos hahead, if_pos hconn.opened]
  by_cases hbuffered : Buffered fd
  · have hcopied := (CopyFromChunkBuf_ne_nil hn).2 hbuffered
    dsimp only
    rw [if_pos hcopied]
    exact .bytes (Or.inl hbuffered) hcopied Waits.refl.toKeeps
  · dsimp only
    rw [if_neg (mt (CopyFromChunkBuf_ne_nil hn).1 hbuffered)]
    refine .after .refl (or_iff_right hbuffered) (chunked_of_once (readOnce_once hconn hinside hn) ?_)
    exact fun fd₁ code hwaits hlost => retryLoop_chunked hlost (hwaits.inside hinside) hn

/-! ## The rounds of the loop -/

/-- The descriptor between two rounds. -/
structure Ready (fd : Fd) : Prop where
  placed : Placed fd
  clean : fd.buffer.dirty = false

theorem Keeps.ready (h : Keeps fd fd') (hfd : Ready fd) : Ready fd' where
  placed := h.placed hfd.placed
  clean := h.dirty.trans hfd.clean

theorem Placed.offset_lt (h : Placed fd) : fd.currPos.chunkOffset < Chunk.CHUNKSIZE := by
  rw [h.chunkOffset]
  exact Nat.mod_lt _ (by decide)

/-- A seek over no bytes. -/
theorem Seek_zero (h : Placed fd) : fd.Seek w 0 = some fd := by
  unfold Fd.Seek
  dsimp only
  rw [Nat.add_zero, ← h.chunkNum, ← h.chunkOffset, if_neg (fun hne => hne rfl)]

theorem Seek_ready (h : Ready fd) (offset : ℕ) :
    ∃ fd', fd.Seek w offset = some fd' ∧ Ready fd' ∧ fd'.clock = fd.clock := by
  have hflush : fd.FlushBuffer w = fd := by
    unfold Fd.FlushBuffer
    rw [h.clean]
    rfl
  have hready (preferredServer : Bool) : Ready { fd with
      currPos := ⟨fd.currPos.fileOffset + offset, toInt32 ((fd.currPos.fileOffset + offset) / Chunk.CHUNKSIZE),
        (fd.currPos.fileOffset + offset) % Chunk.CHUNKSIZE, preferredServer⟩ } := by
    refine ⟨⟨?_, ?_⟩, h.clean⟩
    · dsimp only
    · dsimp only
  unfold Fd.Seek
  dsimp only
  rw [hflush, h.clean]
  split_ifs with hmoved hdirty
  · cases hdirty
  · exact ⟨_, rfl, hready false, rfl⟩
  · exact ⟨_, rfl, hready fd.currPos.preferredServer, rfl⟩

/-- The outcome of a round. -/
inductive Round (w : Outside) (fd : Fd) (n : ℕ) : Option (Option (List UInt8) × Fd) → Prop
  | bytes {fd' : Fd} {bytes : List UInt8} (h : Served w fd n) (hne : bytes ≠ []) (hready : Ready fd')
      (hclock : fd.clock ≤ fd'.clock) : Round w fd n (some (some bytes, fd'))
  | nothing {fd' : Fd} {k : ℕ} (hready : Ready fd') (hahead : Ahead fd') (hk : fd.clock ≤ k) (hlater : k < fd'.clock)
      (hidle : Idle w fd (max BUF_SIZE n) k) (hiff : Served w fd n ↔ Served w fd' n) :
      Round w fd n (some (some [], fd'))
  | left {fd' : Fd} (hnot : Ahead fd → ¬ Served w fd n) : Round w fd n (some (none, fd'))
  | overrun {k : ℕ} (hnot : ¬ Served w fd n) (hoverrun : Overrun w fd (max BUF_SIZE n) k) : Round w fd n none

theorem served_iff : Served w fd n ↔ 0 ≤ fd.currPos.chunkNum ∧
    Brings w (Buffered fd) fd.currPos.chunkOffset (max BUF_SIZE n) (stage fd) fd.clock :=
  ⟨fun h => ⟨h.numbered, h.brings⟩, fun h => ⟨h.1, h.2⟩⟩

/-- A chunk number that has overflown. -/
theorem readRound_negative (hnum : fd.currPos.chunkNum < 0) : fd.readRound w buf n = some (none, fd) := by
  have hreadable : fd.IsChunkReadable w = (false, fd) := by
    unfold Fd.IsChunkReadable Fd.LocateChunk
    rw [if_pos hnum]
    rfl
  unfold Fd.readRound
  rw [hreadable]
  exact if_pos (Or.inl rfl)

theorem readRound_round (hready : Ready fd) (hn : 0 < n) : Round w fd n (fd.readRound w buf n) := by
  by_cases hnum : 0 ≤ fd.currPos.chunkNum
  · have hserved := @served_iff w fd n
    rw [and_iff_right hnum] at hserved
    have hreadable := @IsChunkReadable_readable w fd (max BUF_SIZE n) hnum
    rw [← hserved] at hreadable
    unfold Fd.readRound
    generalize fd.IsChunkReadable w = r at hreadable ⊢
    cases hreadable with
    | no hnot => exact .left fun _ => hnot
    | @yes fd₁ hwaits hconn hiff =>
      dsimp only
      by_cases hend : fd₁.fileSize ≤ fd₁.currPos.fileOffset
      · rw [if_pos (Or.inr hend)]
        exact .left fun hahead => absurd (hwaits.ahead.2 hahead) (not_lt.2 hend)
      · rw [if_neg (by simpa using hend)]
        have hready₁ := hwaits.ready hready
        have hinside : Inside fd₁ := ⟨hwaits.chunkNum.symm ▸ hnum, not_le.1 hend, hready₁.placed.offset_lt⟩
        have hchunked := @ReadChunk_chunked w fd₁ buf n hconn hinside hn
        rw [hwaits.chunkOffset, propext hwaits.buffered] at hchunked
        have hchunked := hchunked.after hwaits hiff
        generalize fd₁.ReadChunk w buf n = r at hchunked ⊢
        cases hchunked with
        | @bytes fd₂ bytes h hne hkeeps =>
          obtain ⟨fd₃, hseek, hready₃, hclock⟩ := Seek_ready (w := w) (hkeeps.ready hready) bytes.length
          dsimp only
          rw [hseek]
          exact .bytes h hne hready₃ (hclock ▸ hkeeps.clock)
        | @nothing fd₂ k hwaits₂ hconn₂ hk hlater hidle hiff₂ =>
          have hready₂ := hwaits₂.ready hready
          have hserved₂ := @served_iff w fd₂ n
          rw [hwaits₂.chunkOffset, hwaits₂.chunkNum, propext hwaits₂.buffered, and_iff_right hnum] at hserved₂
          dsimp only
          rw [List.length_nil, Seek_zero hready₂.placed]
          exact .nothing hready₂ (hwaits₂.ahead.2 (hwaits.ahead.1 hinside.ahead)) hk hlater hidle
            (hiff₂.trans hserved₂.symm)
        | error hnot => exact .left fun _ => hnot
        | overrun hnot hoverrun => exact .overrun hnot hoverrun
  · rw [readRound_negative (not_le.1 hnum)]
    exact .left fun _ h => hnum h.numbered

/-! ## Reading -/

variable {bytes : List UInt8} {fuel : ℕ}

/-- The loop reads a byte if and only if the answers bring one. -/
theorem readLoop_served (hready : Ready fd) (hahead : Ahead fd) (hn : 0 < n)
    (h : Fd.readLoop w fuel buf n fd = some (bytes, fd')) : bytes ≠ [] ↔ Served w fd n := by
  induction fuel generalizing fd with
  | zero =>
    unfold Fd.readLoop at h
    rw [if_neg hn.ne'] at h
    cases h
  | succ fuel ih =>
    have hround := @readRound_round w fd buf n hready hn
    unfold Fd.readLoop at h
    rw [if_neg hn.ne'] at h
    generalize fd.readRound w buf n = r at hround h
    cases hround with
    | bytes hserved hne =>
      obtain ⟨⟨rest, fd₁⟩, -, heq⟩ := Option.map_eq_some_iff.1 h
      cases heq
      exact iff_of_true (List.append_ne_nil_of_left_ne_nil hne rest) hserved
    | nothing hready₁ hahead₁ _ _ _ hiff =>
      obtain ⟨⟨rest, fd₁⟩, hrest, heq⟩ := Option.map_eq_some_iff.1 h
      cases heq
      rw [hiff]
      refine ih hready₁ hahead₁ ?_
      simpa using hrest
    | left hnot =>
      cases h
      exact iff_of_false (fun h => h rfl) (hnot hahead)
    | overrun => cases h

/-- When the servers do not answer with nothing for ever, the loop comes to an end. -/
theorem readLoop_ends (hlively : Lively w) (hready : Ready fd) :
    ∃ fuel r, Fd.readLoop w fuel buf n fd = some r := by
  obtain ⟨K, hfeeds⟩ := hlively.feeds
  -- with every round either fewer bytes are wanted, or fewer requests are left that may be answered with nothing
  obtain ⟨rounds, hrounds⟩ : ∃ rounds, n + (K - fd.clock) ≤ rounds := ⟨_, le_rfl⟩
  induction rounds generalizing fd buf n with
  | zero =>
    obtain rfl : n = 0 := by omega
    exact ⟨0, _, if_pos rfl⟩
  | succ rounds ih =>
    rcases Nat.eq_zero_or_pos n with rfl | hn
    · exact ⟨0, _, if_pos rfl⟩
    have hround := @readRound_round w fd buf n hready hn
    cases hr : fd.readRound w buf n with
    | none =>
      rw [hr] at hround
      cases hround with
      | @overrun k _ hoverrun =>
        obtain ⟨chunkSize, hinside, hnone⟩ := hoverrun
        have hsome := @answer_isSome _ _ _ (max BUF_SIZE n) (hlively.fits k) hinside.le
        rw [hnone] at hsome
        cases hsome
    | some r =>
      obtain ⟨r, fd₁⟩ := r
      cases r with
      | none =>
        refine ⟨1, ([], fd₁), ?_⟩
        unfold Fd.readLoop
        rw [if_neg hn.ne', hr]
      | some bytes =>
        have hnext : Ready fd₁ ∧ n - bytes.length + (K - fd₁.clock) ≤ rounds := by
          rw [hr] at hround
          cases hround with
          | bytes _ hne hready₁ hclock =>
            have hlength := List.length_pos_iff.2 hne
            exact ⟨hready₁, by omega⟩
          | @nothing _ k hready₁ _ hk hlater hidle =>
            obtain ⟨chunkSize, hinside, hzero⟩ := hidle
            have hearly : k < K := by
              by_contra hge
              exact answer_ne_zero (hfeeds k (not_lt.1 hge)) hinside (lt_of_lt_of_le hn (le_max_right _ _)) hzero
            exact ⟨hready₁, by rw [List.length_nil]; omega⟩
        obtain ⟨fuel, rest, hrest⟩ := @ih fd₁ (fun i => buf (bytes.length + i)) (n - bytes.length) hnext.1 hnext.2
        refine ⟨fuel + 1, (bytes ++ rest.1, rest.2), ?_⟩
        unfold Fd.readLoop
        rw [if_neg hn.ne', hr]
        exact congrArg (Option.map _) hrest

theorem FlushBuffer_ready (hplaced : Placed fd)
    (hflush : fd.buffer.dirty = true → 0 ≤ Written.numIO (w.written fd.clock)) : Ready (fd.FlushBuffer w) := by
  unfold Fd.FlushBuffer
  dsimp only
  split_ifs with hdirty hok
  · exact ⟨⟨hplaced.chunkNum, hplaced.chunkOffset⟩, rfl⟩
  · exact absurd (hflush hdirty) hok
  · exact ⟨hplaced, Bool.eq_false_iff.2 hdirty⟩

theorem FlushBuffer_ahead (hahead : Ahead fd) : Ahead (fd.FlushBuffer w) := by
  unfold Ahead at hahead
  unfold Ahead Fd.FlushBuffer
  dsimp only
  split_ifs
  · exact lt_max_of_lt_left hahead
  · exact lt_max_of_lt_left hahead
  · exact hahead

theorem Read_eq (hmode : fd.openMode ≠ .wronly) (hfile : fd.isDirectory = false) : fd.Read w buf n fuel =
    (Fd.readLoop w fuel buf n (fd.FlushBuffer w)).map fun (bytes, fd) => (.ok bytes, fd) := by
  unfold Fd.Read
  rw [if_neg hmode, if_neg (by rw [hfile]; exact Bool.false_ne_true)]

/-- This holds of all servers. -/
theorem Right.served (hmode : fd.openMode ≠ .wronly) (hfile : fd.isDirectory = false) (hahead : Ahead fd) (hn : 0 < n)
    (hready : Ready (fd.FlushBuffer w)) (h : Right w fd buf n) : Served w (fd.FlushBuffer w) n := by
  obtain ⟨fuel, r, fd', hread, hright⟩ := h
  rw [Read_eq hmode hfile] at hread
  obtain ⟨⟨bytes, fd₁⟩, hloop, heq⟩ := Option.map_eq_some_iff.1 hread
  cases heq
  refine (readLoop_served hready (FlushBuffer_ahead hahead) hn hloop).1 ?_
  rintro rfl
  exact absurd hahead (Nat.not_lt.2 (hright rfl))

def tenBytes : Fd where
  openMode := .rdonly
  isDirectory := false
  fileSize := 10

/-- The connection breaks on the first read. -/
def breaksOnce : Outside where
  getAlloc _ := (0, 5)
  named _ _ := by decide
  leaseGood _ := true
  connect _ := true
  size _ := (0, 10)
  read k := if k = 4 then { sevens with answer := fun _ _ => .broken } else sevens
  written _ := ⟨0, {}, true, 0⟩

theorem breaksOnce_lively : Lively breaksOnce := by
  refine ⟨?_, 5, ?_⟩
  · intro k i op checksum content h
    change (if k = 4 then { sevens with answer := fun _ _ => .broken } else sevens : ReadServer).answer i op = _ at h
    by_cases hk : k = 4
    · rw [if_pos hk] at h
      cases h
    · rw [if_neg hk] at h
      cases h
      exact length_load.le
  · intro k hk i op checksum content hpos h
    have hread : breaksOnce.read k = sevens := if_neg (by omega)
    rw [hread] at h
    cases h
    rw [← List.length_pos_iff, length_load]
    exact hpos

/-- A metaserver that gives no lease. -/
def noLease : Outside where
  getAlloc _ := (0, 5)
  named _ _ := by decide
  leaseGood _ := false
  connect _ := true
  size _ := (0, 10)
  read _ := sevens
  written _ := ⟨0, {}, true, 0⟩

end Kfs.Client.Unreliable
