import Kfs.Client.PipelinedRead

/-!
# An open file of the client

The data path of `KfsClientImpl` for one descriptor: its position, the chunk attributes it knows, its chunk buffer,
which is both the write buffer and the read-ahead cache, and the chunks of the file as the chunk servers hold them. The
servers do not fail, and nobody else uses the file.

* `Stored`, `Fd`;
* `DoAllocation`, `OpenChunk`, `LocateChunk`, `IsChunkReadable`;
* `DoLargeWriteToServer`, `FlushBuffer`, `Seek`, `WriteToBuffer`, `Write`, `Sync`;
* `CopyFromChunkBuf`, `ZeroFillBuf`, `ReadChunk`, `Read`.
-/

namespace Kfs.Client

open Kfs.Chunk (CHECKSUM_BLOCKSIZE OffsetToChecksumBlockStart ComputeBlockChecksum)
open Kfs.Lib (store load store_of_ge)

def BUF_SIZE : ℕ := 4194304

/-- The conversion to `int32_t`. -/
def toInt32 (n : ℕ) : ℤ := Int.bmod n (2 ^ 32)

/-- A chunk on the chunk servers: its bytes, which are zero from its size on. -/
@[ext] structure Stored where
  size : ℕ
  data : ℕ → UInt8
  zero : ∀ i, size ≤ i → data i = 0

namespace Stored

/-- A chunk that has just been allocated. -/
def empty : Stored := ⟨0, fun _ => 0, fun _ _ => rfl⟩

/-- The chunk after the bytes `d` have been written at `offset`. -/
def write (c : Stored) (offset : ℕ) (d : List UInt8) : Stored where
  size := if d = [] then c.size else max c.size (offset + d.length)
  data := store c.data offset d
  zero i hi := by
    split_ifs at hi with hd
    · rw [hd, Lib.store_nil]
      exact c.zero i hi
    · rw [store_of_ge ((le_max_right _ _).trans hi)]
      exact c.zero i ((le_max_left _ _).trans hi)

end Stored

/-- `ChunkAttr`. The chunks of the file are known by their number in the file. -/
structure ChunkAttr where
  chunkId : ℕ
  didAllocation : Bool := false
  chunkSize : ℕ := 0

/-- `FilePosition`, with whether there is a connection to the preferred server. -/
structure FilePosition where
  fileOffset : ℕ := 0
  chunkNum : ℤ := 0
  chunkOffset : ℕ := 0
  preferredServer : Bool := false

/-- `ChunkBuffer`. -/
structure ChunkBuffer where
  chunkno : ℤ := -1
  start : ℕ := 0
  length : ℕ := 0
  dirty : Bool := false
  buf : ℕ → UInt8 := fun _ => 0

inductive OpenMode
  | rdonly | wronly | rdwr
  deriving DecidableEq

/-- An entry of the file table, and the chunks of its file on the servers. -/
structure Fd where
  openMode : OpenMode
  fileSize : ℕ
  cattr : ℤ → Option ChunkAttr := fun _ => none
  currPos : FilePosition := {}
  buffer : ChunkBuffer := {}
  chunks : ℕ → Option Stored

namespace Fd

variable (fd : Fd)

/-! ## Chunks -/

def GetCurrChunk : Option ChunkAttr := fd.cattr fd.currPos.chunkNum

def setCurrChunk (chunk : ChunkAttr) : Fd :=
  { fd with cattr := Function.update fd.cattr fd.currPos.chunkNum (some chunk) }

/-- `SizeChunk`: the size comes from the chunk server. -/
def SizeChunk : Fd :=
  match fd.GetCurrChunk with
  | some chunk => fd.setCurrChunk { chunk with chunkSize := ((fd.chunks chunk.chunkId).map (·.size)).getD 0 }
  | none => fd

/-- `OpenChunk`: one of the servers of the chunk becomes the preferred one. -/
def OpenChunk : Fd := SizeChunk { fd with currPos := { fd.currPos with preferredServer := true } }

/-- `AllocChunk`: the metaserver allocates the chunk at the position of the file, unless it exists. -/
def AllocChunk : Fd :=
  let n := fd.currPos.fileOffset / Chunk.CHUNKSIZE
  let chunks := if (fd.chunks n).isSome then fd.chunks else Function.update fd.chunks n (some .empty)
  SizeChunk { setCurrChunk { fd with chunks := chunks } { chunkId := n } with
    currPos := { fd.currPos with preferredServer := true } }

/-- `DoAllocation`. -/
def DoAllocation : Fd :=
  match fd.GetCurrChunk with
  | some chunk => if chunk.didAllocation then fd else allocate
  | none => allocate
where
  allocate : Fd :=
    let fd := fd.AllocChunk
    match fd.GetCurrChunk with
    | some chunk => fd.setCurrChunk { chunk with didAllocation := true }
    | none => fd

/-- `LocateChunk`: the result tells whether the chunk has been found. -/
def LocateChunk : Bool × Fd :=
  let chunkNum := fd.currPos.chunkNum
  if chunkNum < 0 then (false, fd)
  else if fd.GetCurrChunk.isSome then (true, fd)
  else if (fd.chunks chunkNum.toNat).isSome then (true, fd.setCurrChunk { chunkId := chunkNum.toNat })
  else (false, fd)

/-! ## Writing -/

/-- A master that takes and commits everything. -/
def healthy : Master where
  takesOp _ := true
  takesCommit _ := true
  answer _ := .reply 0

/-- The size of an operation of `DoLargeWriteToServer`: the write is cut at the ends of the checksum blocks. -/
def writeSize (offset left : ℕ) : ℕ :=
  let numBytes := min MAX_BYTES_PER_WRITE_IO left
  let numBytes :=
    if numBytes % CHECKSUM_BLOCKSIZE ≠ 0 ∧ CHECKSUM_BLOCKSIZE < numBytes then
      numBytes / CHECKSUM_BLOCKSIZE * CHECKSUM_BLOCKSIZE
    else numBytes
  if OffsetToChecksumBlockStart offset ≠ offset then min (OffsetToChecksumBlockEnd offset - offset) numBytes
  else numBytes

/-- The loop of `DoLargeWriteToServer` that cuts the write into operations. -/
def splitWrite (offset : ℕ) (buf : List UInt8) (numAvail : ℕ) : ℕ → ℕ → List WritePrepareOp
  | 0, _ => []
  | fuel + 1, numWrote =>
    if numWrote < numAvail then
      let numBytes := writeSize (offset + numWrote) (numAvail - numWrote)
      { offset := offset + numWrote, numBytes := numBytes, contentBuf := (buf.drop numWrote).take numBytes } ::
        splitWrite offset buf numAvail fuel (numWrote + numBytes)
    else []

/-- The loop that figures out how much was committed. -/
def committed (ops : List WritePrepareOp) : ℤ :=
  ops.foldl (fun numIO op => if op.status < 0 then op.status else if 0 ≤ numIO then numIO + op.status else numIO) 0

/-- The chunk servers write what they have been sent. -/
def applyWrites (c : Stored) (sent : List WritePrepareOp) : Stored :=
  sent.foldl (fun c op => c.write op.offset op.contentBuf) c

/-- `DoLargeWriteToServer`, which is also the small write. With servers that do not fail the first round succeeds. -/
def DoLargeWriteToServer (offset : ℕ) (buf : List UInt8) : Option (ℕ × Fd) :=
  match fd.GetCurrChunk with
  | none => none
  | some chunk =>
    match fd.chunks chunk.chunkId with
    | none => none
    | some c =>
      if offset ≤ Chunk.CHUNKSIZE then
        let numAvail := min buf.length (Chunk.CHUNKSIZE - offset)
        let (res, pipe) := DoPipelinedWrite healthy (.start (splitWrite offset buf numAvail numAvail 0) true)
        let numIO := committed pipe.ops
        if res = 0 ∧ 0 ≤ numIO then
          let fd := { fd with chunks := Function.update fd.chunks chunk.chunkId (some (applyWrites c pipe.sent)) }
          if chunk.chunkSize < offset + numIO then
            let chunkSize := offset + numIO.toNat
            let eow : ℤ := chunkSize + fd.currPos.chunkNum * Chunk.CHUNKSIZE
            some ( numIO.toNat, { fd.setCurrChunk { chunk with chunkSize := chunkSize } with
              fileSize := max fd.fileSize eow.toNat })
          else some ( numIO.toNat, fd)
        else none
      else none

/-- `WriteToServer`. -/
def WriteToServer (offset : ℕ) (buf : List UInt8) : Option (ℕ × Fd) := fd.DoLargeWriteToServer offset buf

/-- `FlushBuffer`. -/
def FlushBuffer : Option Fd :=
  let cb := fd.buffer
  if cb.dirty then
    match fd.WriteToServer cb.start (load cb.buf 0 cb.length) with
    | none => none
    | some (_, fd) => some { fd with buffer := { fd.buffer with dirty := false, length := 0 } }
  else some fd

/-- `Seek` to the position `newOff`. -/
def seekTo (newOff : ℕ) : Option Fd :=
  let chunkNum := toInt32 (newOff / Chunk.CHUNKSIZE)
  let move (fd : Fd) (preferredServer : Bool) : Fd :=
    { fd with currPos := ⟨newOff, chunkNum, newOff % Chunk.CHUNKSIZE, preferredServer⟩ }
  if fd.currPos.chunkNum ≠ chunkNum then
    match fd.FlushBuffer with
    | none => none
    | some fd => if fd.buffer.dirty then none else some (move fd false)
  else some (move fd fd.currPos.preferredServer)

inductive Whence
  | SEEK_SET | SEEK_CUR | SEEK_END

/-- `Seek`; a seek in front of the file is left out. -/
def Seek (offset : ℤ) (whence : Whence) : Option Fd :=
  let newOff := match whence with
    | .SEEK_SET => offset
    | .SEEK_CUR => fd.currPos.fileOffset + offset
    | .SEEK_END => fd.fileSize + offset
  if newOff < 0 then none else fd.seekTo newOff.toNat

/-- `WriteToBuffer`. -/
def WriteToBuffer (buf : List UInt8) : Option (ℕ × Fd) :=
  let flushed := if fd.buffer.dirty ∧ fd.buffer.chunkno ≠ fd.currPos.chunkNum then fd.FlushBuffer else some fd
  match flushed with
  | none => none
  | some fd =>
    let start : ℤ := fd.currPos.chunkOffset - fd.buffer.start
    let previous := fd.buffer.length
    let flushed := if fd.buffer.dirty ∧ (start ≠ previous ∨ previous = BUF_SIZE) then fd.FlushBuffer else some fd
    match flushed with
    | none => none
    | some fd =>
      let cb :=
        if fd.buffer.dirty then fd.buffer
        else { fd.buffer with
          chunkno := fd.currPos.chunkNum, start := fd.currPos.chunkOffset, length := 0, dirty := true }
      let numBytes := min buf.length (Chunk.CHUNKSIZE - fd.currPos.chunkOffset)
      if numBytes = 0 then some (0, { fd with buffer := cb })
      else
        let numIO := min (BUF_SIZE - cb.length) numBytes
        let start := fd.currPos.chunkOffset - cb.start
        if 0 < numIO ∧ cb.start ≤ fd.currPos.chunkOffset ∧ start < BUF_SIZE then
          some ( numIO, { fd with buffer := { cb with
            buf := store cb.buf start (buf.take numIO)
            length := max cb.length (start + numIO) } })
        else none

/-- A round of the loop of `Write`. -/
def writeRound (buf : List UInt8) : Option (ℕ × Fd) :=
  let fd := fd.DoAllocation
  let fd := if fd.currPos.preferredServer then fd else fd.OpenChunk
  if buf.length < BUF_SIZE ∨ fd.buffer.dirty then fd.WriteToBuffer buf
  else fd.WriteToServer fd.currPos.chunkOffset buf

/-- The loop of `Write`, with the bytes still to be written. -/
def writeLoop : ℕ → List UInt8 → Fd → Option Fd
  | 0, buf, fd => if buf = [] then some fd else none
  | fuel + 1, buf, fd =>
    if buf = [] then some fd
    else
      match fd.writeRound buf with
      | none => none
      | some ( numIO, fd) =>
        match fd.Seek numIO .SEEK_CUR with
        | none => none
        | some fd => writeLoop fuel (buf.drop numIO) fd

/-- `Write`; `false` stands for `-EBADF`. -/
def Write (buf : List UInt8) : Option (Bool × Fd) :=
  if fd.openMode = .rdonly then some (false, fd)
  else (writeLoop buf.length buf fd).map fun fd => (true, fd)

/-- `Sync`. -/
def Sync : Option Fd := fd.FlushBuffer

/-! ## Reading -/

/-- `IsChunkReadable`. -/
def IsChunkReadable : Bool × Fd :=
  let (found, fd) := fd.LocateChunk
  if found then (true, if fd.currPos.preferredServer then fd else fd.OpenChunk) else (false, fd)

/-- The chunk server answers a read with the bytes that it has and their checksum. -/
def reader (c : Stored) : ReadServer where
  takes _ := true
  answer _ op :=
    let content := load c.data op.offset (min op.numBytes (c.size - op.offset))
    .data (ComputeBlockChecksum content) content
  leaseGood _ := true

/-- `ReadFromServer` into the memory `buf`: how many bytes have been read, and the memory. -/
def readFromServer (buf : ℕ → UInt8) (numBytes : ℕ) : Option (ℤ × (ℕ → UInt8)) :=
  match fd.GetCurrChunk with
  | none => none
  | some chunk =>
    match fd.chunks chunk.chunkId with
    | none => none
    | some c =>
      (ReadFromServer (reader c) READ_WINDOW chunk.chunkSize fd.currPos.chunkOffset numBytes
        fd.currPos.preferredServer buf).map fun r => (r.numIO, r.buf)

/-- `CopyFromChunkBuf`. -/
def CopyFromChunkBuf (numBytes : ℕ) : List UInt8 :=
  let cb := fd.buffer
  let pos := fd.currPos
  if pos.chunkNum ≠ cb.chunkno ∨ pos.chunkOffset < cb.start ∨ cb.start + cb.length ≤ pos.chunkOffset then []
  else
    let start := pos.chunkOffset - cb.start
    load cb.buf start (min (cb.length - start) numBytes)

/-- `ZeroFillBuf`: the number of zeros. -/
def ZeroFillBuf (numBytes : ℕ) : Option ℕ :=
  match fd.GetCurrChunk with
  | none => none
  | some chunk =>
    if fd.currPos.chunkOffset < chunk.chunkSize then some 0
    else if fd.currPos.fileOffset ≤ fd.fileSize ∧ chunk.chunkSize ≤ Chunk.CHUNKSIZE then
      let bytesInFile := fd.fileSize - fd.currPos.fileOffset
      let bytesInChunk := Chunk.CHUNKSIZE - chunk.chunkSize
      some (min (min bytesInChunk bytesInFile) numBytes)
    else none

/-- `ReadChunk`, where `buf` is the memory of the caller: the bytes that have been read. -/
def ReadChunk (buf : ℕ → UInt8) (numBytes : ℕ) : Option (List UInt8 × Fd) :=
  if fd.currPos.fileOffset < fd.fileSize then
    let copied := fd.CopyFromChunkBuf numBytes
    if copied ≠ [] then some (copied, fd)
    else
      match fd.ZeroFillBuf numBytes with
      | none => none
      | some zeros =>
        if 0 < zeros then some (List.replicate zeros 0, fd)
        else if numBytes < BUF_SIZE then
          match fd.readFromServer fd.buffer.buf BUF_SIZE with
          | none => none
          | some ( numIO, buf) =>
            if 0 < numIO then
              let fd := { fd with buffer := { fd.buffer with
                chunkno := fd.currPos.chunkNum, start := fd.currPos.chunkOffset, length := numIO.toNat, buf := buf } }
              some (fd.CopyFromChunkBuf numBytes, fd)
            else if numIO < 0 then none
            else some ([], { fd with buffer := { fd.buffer with buf := buf } })
        else
          match fd.readFromServer buf numBytes with
          | none => none
          | some ( numIO, buf) => if numIO < 0 then none else some (load buf 0 numIO.toNat, fd)
  else none

/-- The loop of `Read`, with the number of bytes still wanted; what has been read before lies at the start of `buf`. -/
def readLoop (buf : ℕ → UInt8) : ℕ → ℕ → ℕ → Fd → Option (List UInt8 × Fd)
  | 0, _, nleft, fd => if nleft = 0 then some ([], fd) else none
  | fuel + 1, nread, nleft, fd =>
    if nleft = 0 then some ([], fd)
    else
      let (readable, fd) := fd.IsChunkReadable
      if ¬ readable ∨ fd.fileSize ≤ fd.currPos.fileOffset then some ([], fd)
      else
        match fd.ReadChunk (fun i => buf (nread + i)) nleft with
        | none => none
        | some (bytes, fd) =>
          match fd.Seek bytes.length .SEEK_CUR with
          | none => none
          | some fd =>
            (readLoop buf fuel (nread + bytes.length) (nleft - bytes.length) fd).map fun (rest, fd) =>
              (bytes ++ rest, fd)

/-- `Read` into the memory `buf`: the bytes that have been read. -/
def Read (buf : ℕ → UInt8) (numBytes : ℕ) : Option (List UInt8 × Fd) :=
  if fd.openMode = .wronly then some ([], fd)
  else
    match fd.FlushBuffer with
    | none => none
    | some fd => readLoop buf numBytes 0 numBytes fd

end Fd

end Kfs.Client
