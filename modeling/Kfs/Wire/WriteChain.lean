import Kfs.Chunk.Manager
import Kfs.Wire.WriteOps

/-!
# The write chain

A client asks the first server of a chunk for write-ids. The request goes along the servers, each of them allocates an
id of its own and puts the ids of those behind it after it; the client splits the list, and sends its prepares and its
sync along the same servers with it.

* `Writing`, `Env`: a write of a client, and what may go wrong on the servers;
* `WriteIdAllocOp.Execute`, `relay`: what a server does, and those behind it;
* `Writing.AllocateWriteId`, `Writing.prepared`, `Writing.synced`: the client;
* `Writing.Works`: every server is visited in its turn and uses the id that it has allocated; `Writing.AllShort`.
-/

namespace Kfs.Forward

open Lib

/-! ## A write -/

/-- A client's write to a chunk: the servers of the chunk, the operations, the numbers that the connections between the
servers give to the forwarded ones, and the write-ids that the servers are about to allocate. -/
structure Writing where
  locs : List Wire.ServerLocation
  ne_nil : locs ≠ []
  nodup : locs.Nodup
  hosts : ∀ l ∈ locs, IsHost l.hostname
  chunkId : Int64
  chunkVersion : Int64
  allocSeq : Int64
  allocOffset : Int64
  allocBytes : UInt64
  /-- A `size_t` that is the value of a `long long`. -/
  allocBytes_lt : allocBytes.toNat < 2 ^ 63
  prepareSeq : Int64
  prepareOffset : Int64
  prepareBytes : UInt64
  prepareBytes_lt : prepareBytes.toNat < 2 ^ 63
  checksum : UInt32
  syncSeq : Int64
  NextSeqnum : Wire.ServerLocation → Int64
  prepareSeqnum : Wire.ServerLocation → Int64
  syncSeqnum : Wire.ServerLocation → Int64
  writeId : Wire.ServerLocation → Int64

/-- What may go wrong: a server does not find the next one, does not have the chunk in this version, or turns a prepare
or a sync down. -/
structure Env where
  FindServer : Wire.ServerLocation → Bool
  chunkVersion : Wire.ServerLocation → Option Int64
  prepares : Wire.ServerLocation → Bool
  syncs : Wire.ServerLocation → Bool

namespace WriteIdAllocOp

variable (x : Writing) (env : Env)

/-- The status is the chunk manager's. -/
def AllocateWriteId (me : Wire.ServerLocation) (op : WriteIdAllocOp) : WriteIdAllocOp :=
  match env.chunkVersion me with
  | none => { op with status := -Chunk.EBADF }
  | some v =>
    if op.chunkVersion ≠ v then { op with status := -Chunk.EINVAL }
    else { op with status := 0, writeIdStr := Entry.text (me, some (x.writeId me)) }

def HandlePeerReply (op : WriteIdAllocOp) (reply : ℤ × Str) : WriteIdAllocOp :=
  if reply.1 < 0 then { op with status := reply.1 }
  else { op with writeIdStr := op.writeIdStr ++ (" ".toList ++ reply.2) }

/-- Without a list there is nowhere to forward to. -/
def decision (me : Wire.ServerLocation) (op : WriteIdAllocOp) : Option Decision :=
  if 0 < op.numServers then needToForwardWrite me op.servers op.numServers.toNat false
  else some ⟨false, none, ⟨[], -1⟩, none⟩

/-- The servers that the operation visits from `me` on, and the operation when `me` answers. `none`: an answer does not
come. -/
def Execute : ℕ → Wire.ServerLocation → WriteIdAllocOp → Option (List Wire.ServerLocation × WriteIdAllocOp)
  | 0, _, _ => none
  | fuel + 1, me, op => do
    let d ← op.decision me
    if !d.needToForward then some ([me], op.AllocateWriteId x env me)
    else if !env.FindServer me then some ([me], { op with status := -Chunk.EHOSTUNREACH })
    else
      let fwdedOp ← deliver "WRITE_ID_ALLOC".toList parseHandlerWriteIdAlloc
        (Request { op with seq := x.NextSeqnum me })
      let r ← Execute fuel d.peerLoc fwdedOp
      let reply ← (receive r.2.Response).bind (readResponse (x.NextSeqnum me))
      some (me :: r.1, (op.AllocateWriteId x env me).HandlePeerReply reply)

end WriteIdAllocOp

/-- How an operation is forwarded with the write-ids. -/
structure Relay (Op : Type) where
  command : Str
  parseHandler : Properties → Op
  Request : Int64 → Op → Header
  servers : Op → Str
  numServers : Op → UInt32

/-- The servers that an operation with write-ids reaches from `me` on, each with the write-id that it finds. A server
that `goesOn` forwards. -/
def relay {Op : Type} (r : Relay Op) (goesOn : Wire.ServerLocation → Bool) (seqnum : Wire.ServerLocation → Int64) :
    ℕ → Wire.ServerLocation → Op → Option (List Entry)
  | 0, _, _ => none
  | fuel + 1, me, op =>
    match needToForwardWrite me (r.servers op) (r.numServers op).toNat true with
    | none => none
    | some d =>
      if d.needToForward && goesOn me then
        match deliver r.command r.parseHandler (r.Request (seqnum me) op) with
        | none => none
        | some fwdedOp => (relay r goesOn seqnum fuel d.peerLoc fwdedOp).map ((me, d.writeId) :: ·)
      else some [(me, d.writeId)]

def prepareRelay : Relay WritePrepareOp where
  command := "WRITE_PREPARE".toList
  parseHandler := parseHandlerWritePrepare
  Request := fun seq op => WritePrepareOp.Request { op with seq := seq }
  servers := WritePrepareOp.servers
  numServers := WritePrepareOp.numServers

def syncRelay : Relay WriteSyncOp where
  command := "WRITE_SYNC".toList
  parseHandler := parseHandlerWriteSync
  Request := fun seq op => WriteSyncOp.Request { op with seq := seq }
  servers := WriteSyncOp.servers
  numServers := WriteSyncOp.numServers

/-! ## The client -/

namespace Writing

variable (x : Writing)

/-- The list is left out when it has one server only. -/
def allocRequest : Header where
  command := "WRITE_ID_ALLOC ".toList
  fields := common x.allocSeq ++
    [⟨"Chunk-handle: ".toList, printInt x.chunkId.toInt⟩, ⟨"Chunk-version: ".toList, printInt x.chunkVersion.toInt⟩,
      ⟨"Offset: ".toList, printInt x.allocOffset.toInt⟩, ⟨"Num-bytes: ".toList, printInt x.allocBytes.toNat⟩] ++
    if 1 < x.locs.length then [⟨"Num-servers: ".toList, printInt x.locs.length⟩,
      ⟨"Servers:".toList, x.locs.flatMap fun l => l.ToString ++ " ".toList⟩] else []

def writeInfoText (writeInfo : List Entry) : Str := writeInfo.flatMap fun e => Entry.text e ++ " ".toList

def prepareRequest (writeInfo : List Entry) : Header where
  command := "WRITE_PREPARE ".toList
  fields := common x.prepareSeq ++
    [⟨"Chunk-handle: ".toList, printInt x.chunkId.toInt⟩, ⟨"Chunk-version: ".toList, printInt x.chunkVersion.toInt⟩,
      ⟨"Offset: ".toList, printInt x.prepareOffset.toInt⟩, ⟨"Num-bytes: ".toList, printInt x.prepareBytes.toNat⟩,
      ⟨"Checksum: ".toList, printInt x.checksum.toNat⟩, ⟨"Num-servers: ".toList, printInt writeInfo.length⟩,
      ⟨"Servers:".toList, writeInfoText writeInfo⟩]

def syncRequest (writeInfo : List Entry) : Header where
  command := "WRITE_SYNC ".toList
  fields := common x.syncSeq ++
    [⟨"Chunk-handle: ".toList, printInt x.chunkId.toInt⟩, ⟨"Chunk-version: ".toList, printInt x.chunkVersion.toInt⟩,
      ⟨"Num-servers: ".toList, printInt writeInfo.length⟩, ⟨"Servers:".toList, writeInfoText writeInfo⟩]

/-- The servers that have been asked, the status, and the write-ids. -/
def AllocateWriteId (env : Env) : Option (List Wire.ServerLocation × ℤ × List Entry) := do
  let master ← x.locs.head?
  let op ← deliver "WRITE_ID_ALLOC".toList parseHandlerWriteIdAlloc x.allocRequest
  let r ← op.Execute x env x.locs.length master
  let reply ← (receive r.2.Response).bind (readResponse x.allocSeq)
  if reply.1 < 0 then some (r.1, reply.1, [])
  else
    let writeId ← readEntries x.locs.length reply.2
    some (r.1, reply.1, writeId)

/-- The servers that a prepare reaches, with the write-ids that they use. -/
def prepared (env : Env) (writeInfo : List Entry) : Option (List Entry) := do
  let master ← x.locs.head?
  let op ← deliver "WRITE_PREPARE".toList parseHandlerWritePrepare (x.prepareRequest writeInfo)
  relay prepareRelay env.prepares x.prepareSeqnum x.locs.length master op

def synced (env : Env) (writeInfo : List Entry) : Option (List Entry) := do
  let master ← x.locs.head?
  let op ← deliver "WRITE_SYNC".toList parseHandlerWriteSync (x.syncRequest writeInfo)
  relay syncRelay env.syncs x.syncSeqnum x.locs.length master op

end Writing

/-! ## The messages of a write -/

namespace Writing

variable (x : Writing)

def entry (l : Wire.ServerLocation) : Entry := (l, some (x.writeId l))

/-- The servers with the write-ids that they allocate. -/
def entries : List Entry := x.locs.map x.entry

/-- The operation as a server gets it: of a single server the client makes no list. -/
def allocOp (seq : Int64) : WriteIdAllocOp where
  seq := seq
  chunkId := x.chunkId
  chunkVersion := x.chunkVersion
  offset := x.allocOffset
  numBytes := x.allocBytes
  numServers := if 1 < x.locs.length then UInt32.ofNat x.locs.length else 0
  servers := if 1 < x.locs.length then printEntries (x.locs.map fun l => (l, none)) else []
  status := 0
  writeIdStr := []

def prepareOp (seq : Int64) : WritePrepareOp where
  seq := seq
  chunkId := x.chunkId
  chunkVersion := x.chunkVersion
  offset := x.prepareOffset
  numBytes := x.prepareBytes
  checksum := x.checksum
  numServers := UInt32.ofNat x.locs.length
  servers := printEntries x.entries

def syncOp (seq : Int64) : WriteSyncOp where
  seq := seq
  chunkId := x.chunkId
  chunkVersion := x.chunkVersion
  numServers := UInt32.ofNat x.locs.length
  servers := printEntries x.entries

/-- The number of the operation at the server behind `pre`. -/
def seqAt (pre : List Wire.ServerLocation) : Int64 := (pre.getLast?.map x.NextSeqnum).getD x.allocSeq

/-- What the first of the servers `l` answers, which are behind `pre`. -/
def allocReply (pre l : List Wire.ServerLocation) : Header :=
  WriteIdAllocOp.Response { x.allocOp (x.seqAt pre) with writeIdStr := printEntries (l.map x.entry) }

/-- Every message of the write is found in the buffer of its receiver. -/
structure AllShort : Prop where
  allocRequest : Short x.allocRequest
  allocForward : ∀ l ∈ x.locs.dropLast, Short (x.allocOp (x.NextSeqnum l)).Request
  allocReply : ∀ pre me post, x.locs = pre ++ me :: post → Short (x.allocReply pre (me :: post))
  prepareRequest : Short (x.prepareRequest x.entries)
  prepareForward : ∀ l ∈ x.locs.dropLast, Short (x.prepareOp (x.prepareSeqnum l)).Request
  syncRequest : Short (x.syncRequest x.entries)
  syncForward : ∀ l ∈ x.locs.dropLast, Short (x.syncOp (x.syncSeqnum l)).Request

end Writing

/-- The first elements of a list, up to one that does not go on. -/
def reached {α : Type} (goesOn : α → Bool) : List α → List α
  | [] => []
  | a :: l => if goesOn a then a :: reached goesOn l else [a]

/-- Every server finds the next one and has the chunk in this version. -/
def Writing.Grants (x : Writing) (env : Env) (l : List Wire.ServerLocation) : Prop :=
  (∀ a ∈ l.dropLast, env.FindServer a = true) ∧ ∀ a ∈ l, env.chunkVersion a = some x.chunkVersion

/-- What a write of the client comes to, whatever goes wrong on the servers. -/
structure Writing.Carried (x : Writing) (env : Env) : Prop where
  /-- The request goes from each server to the next one, and where nothing goes wrong the client gets the write-ids in
  the order of the servers. -/
  allocated : ∃ status writeInfo, x.AllocateWriteId env = some (reached env.FindServer x.locs, status, writeInfo) ∧
    (0 ≤ status ↔ x.Grants env x.locs) ∧ (0 ≤ status → writeInfo = x.entries)
  /-- A prepare with these write-ids goes the same way, and every server uses its own. -/
  prepared : x.prepared env x.entries = some (reached (fun e => env.prepares e.1) x.entries)
  synced : x.synced env x.entries = some (reached (fun e => env.syncs e.1) x.entries)

structure Writing.Works (x : Writing) : Prop where
  /-- A server finds its place, with and without write-ids in the list. -/
  place : ∀ pre me post, x.locs = pre ++ me :: post → ∀ id : Option (Wire.ServerLocation → Int64),
    needToForwardWrite me (printEntries (x.locs.map fun l => (l, id.map fun f => f l))) x.locs.length id.isSome =
      some ⟨!post.isEmpty, some pre.length, post.head?.getD me, id.map fun f => f me⟩
  carried : ∀ env, x.Carried env

/-! ## The headers of the client -/

theorem flatMap_ToString (locs : List Wire.ServerLocation) :
    locs.flatMap (fun l => l.ToString ++ " ".toList) =
      (locs.map fun l => ((l, none) : Entry)).flatMap fun e => Entry.text e ++ " ".toList := by
  rw [List.flatMap_map]
  rfl

namespace Writing

variable {x : Writing}

theorem entries_ne_nil (x : Writing) : x.entries ≠ [] := by
  rw [entries, Ne, List.map_eq_nil_iff]
  exact x.ne_nil

theorem host_map (x : Writing) (id : Wire.ServerLocation → Option Int64) :
    ∀ e ∈ x.locs.map fun l => (l, id l), IsHost e.1.hostname := by
  intro e he
  obtain ⟨l, hl, rfl⟩ := List.mem_map.1 he
  exact x.hosts l hl

theorem host_entries (x : Writing) : ∀ e ∈ x.entries, IsHost e.1.hostname := x.host_map fun l => some (x.writeId l)

theorem length_entries (x : Writing) : x.entries.length = x.locs.length := List.length_map _

theorem clean_writeInfo (x : Writing) : Clean (writeInfoText x.entries) := by
  rw [writeInfoText, flatMap_text x.entries_ne_nil]
  exact clean_blank (printEntries_clean x.host_entries)

theorem allocRequest_sound (x : Writing) : x.allocRequest.Sound "WRITE_ID_ALLOC".toList := by
  unfold allocRequest
  split_ifs
  · have hservers : Clean (x.locs.flatMap fun l => l.ToString ++ " ".toList) := by
      rw [flatMap_ToString, flatMap_text (by simpa using x.ne_nil)]
      exact clean_blank (printEntries_clean (x.host_map fun _ => none))
    refine .of_same ⟨"WRITE_ID_ALLOC ".toList, common 0 ++
      [⟨"Chunk-handle: ".toList, []⟩, ⟨"Chunk-version: ".toList, []⟩, ⟨"Offset: ".toList, []⟩,
        ⟨"Num-bytes: ".toList, []⟩] ++
      [⟨"Num-servers: ".toList, []⟩, ⟨"Servers:".toList, []⟩]⟩ (by decide +kernel) rfl rfl ?_
    exact ⟨clean_printInt _, clean_version, clean_printInt _, clean_printInt _, clean_printInt _, clean_printInt_nat _,
      clean_printInt_nat _, hservers⟩
  · refine .of_same ⟨"WRITE_ID_ALLOC ".toList, common 0 ++
      [⟨"Chunk-handle: ".toList, []⟩, ⟨"Chunk-version: ".toList, []⟩, ⟨"Offset: ".toList, []⟩,
        ⟨"Num-bytes: ".toList, []⟩] ++
      []⟩ (by decide +kernel) rfl rfl ?_
    exact ⟨clean_printInt _, clean_version, clean_printInt _, clean_printInt _, clean_printInt _, clean_printInt_nat _⟩

theorem allocRequest_parse (hlen : x.locs.length < 2 ^ 31) :
    parseHandlerWriteIdAlloc x.allocRequest.props = x.allocOp x.allocSeq := by
  unfold allocRequest allocOp
  split_ifs with h
  · generalize hprop : Header.props _ = prop
    have hseq : prop.getLong "Cseq".toList (-1) = x.allocSeq := hprop ▸ Properties.getLong_eq rfl _
    have hchunk : prop.getLong "Chunk-handle".toList (-1) = x.chunkId := hprop ▸ Properties.getLong_eq rfl _
    have hvers : prop.getLong "Chunk-version".toList (-1) = x.chunkVersion := hprop ▸ Properties.getLong_eq rfl _
    have hoffset : prop.getLong "Offset".toList 0 = x.allocOffset := hprop ▸ Properties.getLong_eq rfl _
    have hsize : (prop.getLong "Num-bytes".toList 0).toUInt64 = x.allocBytes :=
      hprop ▸ getSize rfl x.allocBytes_lt _
    have hcount : (prop.getInt "Num-servers".toList 0).toUInt32 = UInt32.ofNat x.locs.length :=
      hprop ▸ getCount rfl hlen _
    have hservers : prop.getString "Servers".toList [] = printEntries (x.locs.map fun l => (l, none)) := by
      refine getWriteInfo (by simpa using x.ne_nil) (x.host_map fun _ => none) ?_
      rw [← hprop, ← flatMap_ToString]
      rfl
    rw [parseHandlerWriteIdAlloc, hseq, hchunk, hvers, hoffset, hsize, hcount, hservers]
  · generalize hprop : Header.props _ = prop
    have hseq : prop.getLong "Cseq".toList (-1) = x.allocSeq := hprop ▸ Properties.getLong_eq rfl _
    have hchunk : prop.getLong "Chunk-handle".toList (-1) = x.chunkId := hprop ▸ Properties.getLong_eq rfl _
    have hvers : prop.getLong "Chunk-version".toList (-1) = x.chunkVersion := hprop ▸ Properties.getLong_eq rfl _
    have hoffset : prop.getLong "Offset".toList 0 = x.allocOffset := hprop ▸ Properties.getLong_eq rfl _
    have hsize : (prop.getLong "Num-bytes".toList 0).toUInt64 = x.allocBytes :=
      hprop ▸ getSize rfl x.allocBytes_lt _
    have hcount : (prop.getInt "Num-servers".toList 0).toUInt32 = 0 := hprop ▸ rfl
    have hservers : prop.getString "Servers".toList [] = [] := hprop ▸ rfl
    rw [parseHandlerWriteIdAlloc, hseq, hchunk, hvers, hoffset, hsize, hcount, hservers]

theorem prepareRequest_sound (x : Writing) : (x.prepareRequest x.entries).Sound "WRITE_PREPARE".toList := by
  refine .of_same ⟨"WRITE_PREPARE ".toList, common 0 ++ [⟨"Chunk-handle: ".toList, []⟩, ⟨"Chunk-version: ".toList, []⟩,
    ⟨"Offset: ".toList, []⟩, ⟨"Num-bytes: ".toList, []⟩, ⟨"Checksum: ".toList, []⟩, ⟨"Num-servers: ".toList, []⟩,
    ⟨"Servers:".toList, []⟩]⟩ (by decide +kernel) rfl rfl ?_
  exact ⟨clean_printInt _, clean_version, clean_printInt _, clean_printInt _, clean_printInt _, clean_printInt_nat _,
    clean_printInt_nat _, clean_printInt_nat _, x.clean_writeInfo⟩

theorem prepareRequest_parse (hlen : x.locs.length < 2 ^ 31) :
    parseHandlerWritePrepare (x.prepareRequest x.entries).props = x.prepareOp x.prepareSeq := by
  generalize hprop : (x.prepareRequest x.entries).props = prop
  have hseq : prop.getLong "Cseq".toList (-1) = x.prepareSeq := hprop ▸ Properties.getLong_eq rfl _
  have hchunk : prop.getLong "Chunk-handle".toList (-1) = x.chunkId := hprop ▸ Properties.getLong_eq rfl _
  have hvers : prop.getLong "Chunk-version".toList (-1) = x.chunkVersion := hprop ▸ Properties.getLong_eq rfl _
  have hoffset : prop.getLong "Offset".toList 0 = x.prepareOffset := hprop ▸ Properties.getLong_eq rfl _
  have hsize : (prop.getLong "Num-bytes".toList 0).toUInt64 = x.prepareBytes :=
    hprop ▸ getSize rfl x.prepareBytes_lt _
  have hsum : (prop.getLong "Checksum".toList 0).toUInt64.toUInt32 = x.checksum := hprop ▸ getChecksum rfl _
  have hcount : (prop.getInt "Num-servers".toList 0).toUInt32 = UInt32.ofNat x.locs.length := by
    rw [← x.length_entries]
    exact hprop ▸ getCount rfl (x.length_entries.trans_lt hlen) _
  have hservers : prop.getString "Servers".toList [] = printEntries x.entries :=
    getWriteInfo x.entries_ne_nil x.host_entries (hprop ▸ rfl)
  rw [parseHandlerWritePrepare, hseq, hchunk, hvers, hoffset, hsize, hsum, hcount, hservers, prepareOp]

theorem syncRequest_sound (x : Writing) : (x.syncRequest x.entries).Sound "WRITE_SYNC".toList := by
  refine .of_same ⟨"WRITE_SYNC ".toList, common 0 ++ [⟨"Chunk-handle: ".toList, []⟩, ⟨"Chunk-version: ".toList, []⟩,
    ⟨"Num-servers: ".toList, []⟩, ⟨"Servers:".toList, []⟩]⟩ (by decide +kernel) rfl rfl ?_
  exact ⟨clean_printInt _, clean_version, clean_printInt _, clean_printInt _, clean_printInt_nat _, x.clean_writeInfo⟩

theorem syncRequest_parse (hlen : x.locs.length < 2 ^ 31) :
    parseHandlerWriteSync (x.syncRequest x.entries).props = x.syncOp x.syncSeq := by
  generalize hprop : (x.syncRequest x.entries).props = prop
  have hseq : prop.getLong "Cseq".toList (-1) = x.syncSeq := hprop ▸ Properties.getLong_eq rfl _
  have hchunk : prop.getLong "Chunk-handle".toList (-1) = x.chunkId := hprop ▸ Properties.getLong_eq rfl _
  have hvers : prop.getLong "Chunk-version".toList (-1) = x.chunkVersion := hprop ▸ Properties.getLong_eq rfl _
  have hcount : (prop.getInt "Num-servers".toList 0).toUInt32 = UInt32.ofNat x.locs.length := by
    rw [← x.length_entries]
    exact hprop ▸ getCount rfl (x.length_entries.trans_lt hlen) _
  have hservers : prop.getString "Servers".toList [] = printEntries x.entries :=
    getWriteInfo x.entries_ne_nil x.host_entries (hprop ▸ rfl)
  rw [parseHandlerWriteSync, hseq, hchunk, hvers, hcount, hservers, syncOp]

/-- A list in a short header is short. -/
theorem length_lt_of_prepare (h : Short (x.prepareRequest x.entries)) : x.locs.length < 2 ^ 31 := by
  have hmem : ⟨"Servers:".toList, writeInfoText x.entries⟩ ∈ (x.prepareRequest x.entries).fields :=
    List.mem_append_right _ (by simp only [List.mem_cons, true_or, or_true])
  have htext : (writeInfoText x.entries).length ≤ MAX_RPC_HEADER_LEN := (length_value_le hmem).trans h
  rw [writeInfoText, flatMap_text x.entries_ne_nil, List.length_append] at htext
  have hlen := length_le_printEntries x.host_entries
  rw [x.length_entries] at hlen
  exact (hlen.trans ((Nat.le_add_right _ _).trans htext)).trans_lt (by decide)

end Writing

end Kfs.Forward
