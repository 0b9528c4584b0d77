import Kfs.Wire.Forward

/-!
# The operations of the write chain

The requests that the chunk servers of a write send to each other, and the answer with the write-ids.

* `receive`, `deliver`: a message that is found in the buffer of its receiver, and parsed;
* `WriteIdAllocOp`, `WritePrepareOp`, `WriteSyncOp`: what a request carries, its text and its parser;
* `deliver_eq`: a header arrives exactly when it is short;
* **`WriteIdAllocOp.Request_parse`** and those of the other operations: they are read as they have been written.
-/

namespace Kfs.Forward

open Lib

/-! ## Messages -/

/-- What a receiver takes for the header of a message; the rest of the message follows it. -/
def receive (h : Header) : Option Str := (IsMsgAvail h.text).map fun n => h.text.take n

def ParseCommand {Op : Type} (cmd : Str) (parseHandler : Properties → Op) (msg : Str) : Option Op :=
  if (parseHeader msg).1 = cmd then some (parseHandler (parseHeader msg).2) else none

/-- The message arrives and is parsed; when it is not found, the receiver waits for more of it. -/
def deliver {Op : Type} (cmd : Str) (parseHandler : Properties → Op) (h : Header) : Option Op :=
  (receive h).bind (ParseCommand cmd parseHandler)

/-! ## The operations of a chunk server -/

structure WriteIdAllocOp where
  seq : Int64
  chunkId : Int64
  chunkVersion : Int64
  offset : Int64
  numBytes : UInt64
  numServers : UInt32
  servers : Str
  status : ℤ
  writeIdStr : Str
deriving DecidableEq

structure WritePrepareOp where
  seq : Int64
  chunkId : Int64
  chunkVersion : Int64
  offset : Int64
  numBytes : UInt64
  checksum : UInt32
  numServers : UInt32
  servers : Str
deriving DecidableEq

structure WriteSyncOp where
  seq : Int64
  chunkId : Int64
  chunkVersion : Int64
  numServers : UInt32
  servers : Str
deriving DecidableEq

def WriteIdAllocOp.Request (op : WriteIdAllocOp) : Header where
  command := "WRITE_ID_ALLOC".toList
  fields := [⟨"Version: ".toList, KFS_VERSION_STR⟩, ⟨"Cseq: ".toList, printInt op.seq.toInt⟩,
    ⟨"Chunk-handle:".toList, printInt op.chunkId.toInt⟩, ⟨"Chunk-version:".toList, printInt op.chunkVersion.toInt⟩,
    ⟨"Offset: ".toList, printInt op.offset.toInt⟩, ⟨"Num-bytes: ".toList, printInt op.numBytes.toNat⟩,
    ⟨"Num-servers: ".toList, printInt op.numServers.toNat⟩, ⟨"Servers: ".toList, op.servers⟩]

/-- `WritePrepareFwdOp::Request` -/
def WritePrepareOp.Request (op : WritePrepareOp) : Header where
  command := "WRITE_PREPARE".toList
  fields := [⟨"Version: ".toList, KFS_VERSION_STR⟩, ⟨"Cseq: ".toList, printInt op.seq.toInt⟩,
    ⟨"Chunk-handle:".toList, printInt op.chunkId.toInt⟩, ⟨"Chunk-version:".toList, printInt op.chunkVersion.toInt⟩,
    ⟨"Offset: ".toList, printInt op.offset.toInt⟩, ⟨"Num-bytes: ".toList, printInt op.numBytes.toNat⟩,
    ⟨"Checksum: ".toList, printInt op.checksum.toNat⟩, ⟨"Num-servers: ".toList, printInt op.numServers.toNat⟩,
    ⟨"Servers: ".toList, op.servers⟩]

def WriteSyncOp.Request (op : WriteSyncOp) : Header where
  command := "WRITE_SYNC".toList
  fields := [⟨"Version: ".toList, KFS_VERSION_STR⟩, ⟨"Cseq: ".toList, printInt op.seq.toInt⟩,
    ⟨"Chunk-handle:".toList, printInt op.chunkId.toInt⟩, ⟨"Chunk-version:".toList, printInt op.chunkVersion.toInt⟩,
    ⟨"Num-servers: ".toList, printInt op.numServers.toNat⟩, ⟨"Servers: ".toList, op.servers⟩]

def parseHandlerWriteIdAlloc (prop : Properties) : WriteIdAllocOp where
  seq := prop.getLong "Cseq".toList (-1)
  chunkId := prop.getLong "Chunk-handle".toList (-1)
  chunkVersion := prop.getLong "Chunk-version".toList (-1)
  offset := prop.getLong "Offset".toList 0
  numBytes := (prop.getLong "Num-bytes".toList 0).toUInt64
  numServers := (prop.getInt "Num-servers".toList 0).toUInt32
  servers := prop.getString "Servers".toList []
  status := 0
  writeIdStr := []

def parseHandlerWritePrepare (prop : Properties) : WritePrepareOp where
  seq := prop.getLong "Cseq".toList (-1)
  chunkId := prop.getLong "Chunk-handle".toList (-1)
  chunkVersion := prop.getLong "Chunk-version".toList (-1)
  offset := prop.getLong "Offset".toList 0
  numBytes := (prop.getLong "Num-bytes".toList 0).toUInt64
  checksum := (prop.getLong "Checksum".toList 0).toUInt64.toUInt32
  numServers := (prop.getInt "Num-servers".toList 0).toUInt32
  servers := prop.getString "Servers".toList []

def parseHandlerWriteSync (prop : Properties) : WriteSyncOp where
  seq := prop.getLong "Cseq".toList (-1)
  chunkId := prop.getLong "Chunk-handle".toList (-1)
  chunkVersion := prop.getLong "Chunk-version".toList (-1)
  numServers := (prop.getInt "Num-servers".toList 0).toUInt32
  servers := prop.getString "Servers".toList []

def WriteIdAllocOp.Response (op : WriteIdAllocOp) : Header where
  command := "OK".toList
  fields := [⟨"Cseq: ".toList, printInt op.seq.toInt⟩, ⟨"Status: ".toList, printInt op.status⟩] ++
    if op.status < 0 then [] else [⟨"Write-id: ".toList, op.writeIdStr⟩]

/-- The status and the write-ids in an answer to the operation with number `seq`; another answer is not looked at. -/
def readResponse (seq : Int64) (text : Str) : Option (ℤ × Str) :=
  let prop := loadProperties ':' (cString text)
  if prop.getLong "Cseq".toList (-1) = seq then
    some ((prop.getInt "Status".toList (-1)).toInt, prop.getString "Write-id".toList [])
  else none

/-! ## Messages that arrive -/

abbrev Short (h : Header) : Prop := h.text.length ≤ MAX_RPC_HEADER_LEN

theorem receive_eq {h : Header} {w : Str} (hs : h.Sound w) :
    receive h = if Short h then some h.text else none := by
  have hfound := hs.isMsgAvail []
  rw [List.append_nil] at hfound
  rw [receive, hfound]
  split_ifs
  · rw [Option.map_some, List.take_length]
  · rfl

theorem deliver_eq {Op : Type} {w : Str} {parseHandler : Properties → Op} {h : Header} (hs : h.Sound w) :
    deliver w parseHandler h = if Short h then some (parseHandler h.props) else none := by
  rw [deliver, receive_eq hs]
  split_ifs
  · rw [Option.bind_some, ParseCommand, hs.parse, if_pos rfl]
  · rfl

theorem length_value_le {h : Header} {f : Field} (hf : f ∈ h.fields) : f.value.length ≤ h.text.length := by
  rw [h.length_text]
  have hsum : f.value.length ≤ (h.fields.map fun f => f.value.length).sum :=
    List.single_le_sum (fun _ _ => Nat.zero_le _) _ (List.mem_map_of_mem hf)
  exact hsum.trans (Nat.le_add_left _ _)

section Values

variable {prop : Properties} {key : Str}

theorem getLong_plain {n : Int64} (h : prop key = some (removeLTSpaces (printInt n.toInt))) (d : Int64) :
    prop.getLong key d = n :=
  Properties.getLong_eq (h.trans (congrArg some (removeLTSpaces_cons rfl _).symm)) d

theorem getLong_nat {n : ℕ} (h : prop key = some (removeLTSpaces (' ' :: printInt n))) (hn : n < 2 ^ 63) (d : Int64) :
    prop.getLong key d = Int64.ofNat n := by
  have hint : (Int64.ofNat n).toInt = n := Int64.toInt_ofNat_of_lt hn
  rw [← hint] at h
  exact Properties.getLong_eq h d

theorem getSize {n : UInt64} (h : prop key = some (removeLTSpaces (' ' :: printInt n.toNat))) (hn : n.toNat < 2 ^ 63)
    (d : Int64) : (prop.getLong key d).toUInt64 = n := by
  rw [getLong_nat h hn, Int64.toUInt64_ofNat', UInt64.ofNat_toNat]

theorem getChecksum {n : UInt32} (h : prop key = some (removeLTSpaces (' ' :: printInt n.toNat))) (d : Int64) :
    (prop.getLong key d).toUInt64.toUInt32 = n := by
  have hn := n.toNat_lt
  rw [getLong_nat h (by omega), Int64.toUInt64_ofNat']
  refine UInt32.toNat_inj.1 ?_
  rw [UInt64.toNat_toUInt32, UInt64.toNat_ofNat']
  omega

theorem getCount {n : ℕ} (h : prop key = some (removeLTSpaces (' ' :: printInt n))) (hn : n < 2 ^ 31) (d : Int32) :
    (prop.getInt key d).toUInt32 = UInt32.ofNat n := by
  rw [Properties.getInt_eq_ofNat h hn, Int32.toUInt32_ofNat']

theorem getString_eq {s : Str} (h : prop key = some s) (hs : '\x00' ∉ s) (d : Str) : prop.getString key d = s := by
  rw [Properties.getString, h]
  exact cString_of_not_mem hs

end Values

/-! ## Headers that are read as they have been written -/

theorem clean_blank {s : Str} (h : Clean s) : Clean (s ++ [' ']) := by
  unfold Clean
  simpa [Clean] using h

theorem WriteIdAllocOp.Request_sound {op : WriteIdAllocOp} (hs : Clean op.servers) :
    op.Request.Sound "WRITE_ID_ALLOC".toList :=
  .of_same (WriteIdAllocOp.Request ⟨0, 0, 0, 0, 0, 0, [], 0, []⟩) (by decide +kernel) rfl rfl
    ⟨clean_version, clean_printInt _, clean_printInt _, clean_printInt _, clean_printInt _, clean_printInt_nat _,
      clean_printInt_nat _, hs⟩

theorem WritePrepareOp.Request_sound {op : WritePrepareOp} (hs : Clean op.servers) :
    op.Request.Sound "WRITE_PREPARE".toList :=
  .of_same (WritePrepareOp.Request ⟨0, 0, 0, 0, 0, 0, 0, []⟩) (by decide +kernel) rfl rfl
    ⟨clean_version, clean_printInt _, clean_printInt _, clean_printInt _, clean_printInt _, clean_printInt_nat _,
      clean_printInt_nat _, clean_printInt_nat _, hs⟩

theorem WriteSyncOp.Request_sound {op : WriteSyncOp} (hs : Clean op.servers) :
    op.Request.Sound "WRITE_SYNC".toList :=
  .of_same (WriteSyncOp.Request ⟨0, 0, 0, 0, []⟩) (by decide +kernel) rfl rfl
    ⟨clean_version, clean_printInt _, clean_printInt _, clean_printInt _, clean_printInt_nat _, hs⟩

/-- What stands behind the colon, with the blank there. -/
theorem getServers {prop : Properties} {s : Str} (h : prop "Servers".toList = some (removeLTSpaces (' ' :: s)))
    (ht : removeLTSpaces s = s) (hs : Clean s) : prop.getString "Servers".toList [] = s := by
  rw [removeLTSpaces_cons rfl, ht] at h
  exact getString_eq h hs.2 _

theorem WriteIdAllocOp.Request_parse {op : WriteIdAllocOp} (hs : Clean op.servers)
    (ht : removeLTSpaces op.servers = op.servers) (hbytes : op.numBytes.toNat < 2 ^ 63)
    (hnum : op.numServers.toNat < 2 ^ 31) :
    parseHandlerWriteIdAlloc op.Request.props = { op with status := 0, writeIdStr := [] } := by
  have hseq : op.Request.props.getLong "Cseq".toList (-1) = op.seq := Properties.getLong_eq rfl _
  have hchunk : op.Request.props.getLong "Chunk-handle".toList (-1) = op.chunkId := getLong_plain rfl _
  have hvers : op.Request.props.getLong "Chunk-version".toList (-1) = op.chunkVersion := getLong_plain rfl _
  have hoffset : op.Request.props.getLong "Offset".toList 0 = op.offset := Properties.getLong_eq rfl _
  have hsize : (op.Request.props.getLong "Num-bytes".toList 0).toUInt64 = op.numBytes := getSize rfl hbytes _
  have hcount : (op.Request.props.getInt "Num-servers".toList 0).toUInt32 = op.numServers :=
    (getCount rfl hnum _).trans UInt32.ofNat_toNat
  have hservers : op.Request.props.getString "Servers".toList [] = op.servers := getServers rfl ht hs
  rw [parseHandlerWriteIdAlloc, hseq, hchunk, hvers, hoffset, hsize, hcount, hservers]

theorem WritePrepareOp.Request_parse {op : WritePrepareOp} (hs : Clean op.servers)
    (ht : removeLTSpaces op.servers = op.servers) (hbytes : op.numBytes.toNat < 2 ^ 63)
    (hnum : op.numServers.toNat < 2 ^ 31) : parseHandlerWritePrepare op.Request.props = op := by
  have hseq : op.Request.props.getLong "Cseq".toList (-1) = op.seq := Properties.getLong_eq rfl _
  have hchunk : op.Request.props.getLong "Chunk-handle".toList (-1) = op.chunkId := getLong_plain rfl _
  have hvers : op.Request.props.getLong "Chunk-version".toList (-1) = op.chunkVersion := getLong_plain rfl _
  have hoffset : op.Request.props.getLong "Offset".toList 0 = op.offset := Properties.getLong_eq rfl _
  have hsize : (op.Request.props.getLong "Num-bytes".toList 0).toUInt64 = op.numBytes := getSize rfl hbytes _
  have hsum : (op.Request.props.getLong "Checksum".toList 0).toUInt64.toUInt32 = op.checksum := getChecksum rfl _
  have hcount : (op.Request.props.getInt "Num-servers".toList 0).toUInt32 = op.numServers :=
    (getCount rfl hnum _).trans UInt32.ofNat_toNat
  have hservers : op.Request.props.getString "Servers".toList [] = op.servers := getServers rfl ht hs
  rw [parseHandlerWritePrepare, hseq, hchunk, hvers, hoffset, hsize, hsum, hcount, hservers]

theorem WriteSyncOp.Request_parse {op : WriteSyncOp} (hs : Clean op.servers)
    (ht : removeLTSpaces op.servers = op.servers) (hnum : op.numServers.toNat < 2 ^ 31) :
    parseHandlerWriteSync op.Request.props = op := by
  have hseq : op.Request.props.getLong "Cseq".toList (-1) = op.seq := Properties.getLong_eq rfl _
  have hchunk : op.Request.props.getLong "Chunk-handle".toList (-1) = op.chunkId := getLong_plain rfl _
  have hvers : op.Request.props.getLong "Chunk-version".toList (-1) = op.chunkVersion := getLong_plain rfl _
  have hcount : (op.Request.props.getInt "Num-servers".toList 0).toUInt32 = op.numServers :=
    (getCount rfl hnum _).trans UInt32.ofNat_toNat
  have hservers : op.Request.props.getString "Servers".toList [] = op.servers := getServers rfl ht hs
  rw [parseHandlerWriteSync, hseq, hchunk, hvers, hcount, hservers]

/-- A list as a client writes it. -/
theorem getWriteInfo {prop : Properties} {es : List Entry} (hne : es ≠ []) (hes : ∀ e ∈ es, IsHost e.1.hostname)
    (h : prop "Servers".toList = some (removeLTSpaces (es.flatMap fun e => Entry.text e ++ " ".toList))) :
    prop.getString "Servers".toList [] = printEntries es := by
  rw [flatMap_text hne, removeLTSpaces_concat rfl, removeLTSpaces_printEntries hes] at h
  exact getString_eq h (printEntries_clean hes).2 _

end Kfs.Forward
