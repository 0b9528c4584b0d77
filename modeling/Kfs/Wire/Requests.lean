import Kfs.Wire.Hello

/-!
# Requests

The requests of a client to the metaserver and of the metaserver to a chunk server, as they are written, and a receiver
that takes them one after another from its connection.

* `ClientOp`, `ClientOp.Request`; `MetaChunkOp`, `MetaChunkOp.request`: the senders;
* `nextMsg`, `ClientSM.Framing`, `MetaServerSM.Framing`: the receivers;
* **`framing`**: the requests that have been sent are taken one by one, however the network splits them, exactly when
  every header is short, no name makes an empty line, and the length of the body can be told.
-/

namespace Kfs

open Lib

/-! ## A client's requests to the metaserver -/

/-- Names are C strings. -/
inductive ClientOp
  | create (parentFid : Int64) (filename : Str) (numReplicas : Int32) (exclusive : Bool)
  | mkdir (parentFid : Int64) (dirname : Str)
  | rmdir (parentFid : Int64) (dirname : Str)
  | rename (parentFid : Int64) (oldname newpath : Str) (overwrite : Bool)
  | readdir (fid : Int64)
  | readdirPlus (fid : Int64)
  | remove (parentFid : Int64) (filename : Str)
  | lookup (parentFid : Int64) (filename : Str)
  | lookupPath (rootFid : Int64) (filename : Str)
  | getAlloc (fid fileOffset : Int64)
  | getLayout (fid : Int64)
  | allocate (fid fileOffset : Int64) (hostname : Str)
  | truncate (fid fileOffset : Int64)
  | leaseAcquire (chunkId : Int64)
  | leaseRenew (chunkId leaseId : Int64)
  | changeFileReplication (fid : Int64) (numReplicas : Int16)
deriving DecidableEq

/-- The fields that every request begins with. -/
def common (seq : Int64) : List Field :=
  [⟨"Cseq: ".toList, printInt seq.toInt⟩, ⟨"Version: ".toList, KFS_VERSION_STR⟩]

def flag (b : Bool) : Str := if b then "1".toList else "0".toList

theorem clean_flag (b : Bool) : Clean (flag b) := by
  cases b
  · exact ⟨by decide, by decide⟩
  · exact ⟨by decide, by decide⟩

/-- A negative offset is not asked for. -/
def ClientOp.Request (seq : Int64) : ClientOp → Header
  | create parentFid filename numReplicas exclusive => ⟨"CREATE ".toList, common seq ++
      [⟨"Parent File-handle: ".toList, printInt parentFid.toInt⟩, ⟨"Filename: ".toList, filename⟩,
        ⟨"Num-replicas: ".toList, printInt numReplicas.toInt⟩, ⟨"Exclusive: ".toList, flag exclusive⟩]⟩
  | mkdir parentFid dirname => ⟨"MKDIR ".toList, common seq ++
      [⟨"Parent File-handle: ".toList, printInt parentFid.toInt⟩, ⟨"Directory: ".toList, dirname⟩]⟩
  | rmdir parentFid dirname => ⟨"RMDIR ".toList, common seq ++
      [⟨"Parent File-handle: ".toList, printInt parentFid.toInt⟩, ⟨"Directory: ".toList, dirname⟩]⟩
  | rename parentFid oldname newpath overwrite => ⟨"RENAME ".toList, common seq ++
      [⟨"Parent File-handle: ".toList, printInt parentFid.toInt⟩, ⟨"Old-name: ".toList, oldname⟩,
        ⟨"New-path: ".toList, newpath⟩, ⟨"Overwrite: ".toList, flag overwrite⟩]⟩
  | readdir fid => ⟨"READDIR ".toList, common seq ++ [⟨"Directory File-handle: ".toList, printInt fid.toInt⟩]⟩
  | readdirPlus fid => ⟨"READDIRPLUS ".toList, common seq ++ [⟨"Directory File-handle: ".toList, printInt fid.toInt⟩]⟩
  | remove parentFid filename => ⟨"REMOVE ".toList, common seq ++
      [⟨"Parent File-handle: ".toList, printInt parentFid.toInt⟩, ⟨"Filename: ".toList, filename⟩]⟩
  | lookup parentFid filename => ⟨"LOOKUP ".toList, common seq ++
      [⟨"Parent File-handle: ".toList, printInt parentFid.toInt⟩, ⟨"Filename: ".toList, filename⟩]⟩
  | lookupPath rootFid filename => ⟨"LOOKUP_PATH ".toList, common seq ++
      [⟨"Root File-handle: ".toList, printInt rootFid.toInt⟩, ⟨"Pathname: ".toList, filename⟩]⟩
  | getAlloc fid fileOffset => ⟨"GETALLOC ".toList, common seq ++
      [⟨"File-handle: ".toList, printInt fid.toInt⟩, ⟨"Chunk-offset: ".toList, printInt fileOffset.toInt⟩]⟩
  | getLayout fid => ⟨"GETLAYOUT ".toList, common seq ++ [⟨"File-handle: ".toList, printInt fid.toInt⟩]⟩
  | allocate fid fileOffset hostname => ⟨"ALLOCATE ".toList, common seq ++
      [⟨"Client-host: ".toList, hostname⟩, ⟨"File-handle: ".toList, printInt fid.toInt⟩,
        ⟨"Chunk-offset: ".toList, printInt fileOffset.toInt⟩]⟩
  | truncate fid fileOffset => ⟨"TRUNCATE ".toList, common seq ++
      [⟨"File-handle: ".toList, printInt fid.toInt⟩, ⟨"Offset: ".toList, printInt fileOffset.toInt⟩]⟩
  | leaseAcquire chunkId => ⟨"LEASE_ACQUIRE ".toList, common seq ++ [⟨"Chunk-handle: ".toList, printInt chunkId.toInt⟩]⟩
  | leaseRenew chunkId leaseId => ⟨"LEASE_RENEW ".toList, common seq ++
      [⟨"Chunk-handle: ".toList, printInt chunkId.toInt⟩, ⟨"Lease-id: ".toList, printInt leaseId.toInt⟩,
        ⟨"Lease-type: READ_LEASE".toList, []⟩]⟩
  | changeFileReplication fid numReplicas => ⟨"CHANGE_FILE_REPLICATION ".toList, common seq ++
      [⟨"File-handle: ".toList, printInt fid.toInt⟩, ⟨"Num-replicas: ".toList, printInt numReplicas.toInt⟩]⟩

/-! ## The metaserver's requests to a chunk server -/

inductive MetaChunkOp
  | allocate (fid chunkId chunkVersion leaseId : Int64) (servers : List Wire.ServerLocation)
  | delete (chunkId : Int64)
  | truncate (chunkId : Int64) (chunkSize : UInt64)
  | heartbeat
  | staleNotify (staleChunkIds : List Int64)
  | retire
  | versChange (fid chunkId chunkVersion : Int64)
  | replicate (fid chunkId chunkVersion : Int64) (srcLocation : Wire.ServerLocation)
  | size (fid chunkId : Int64)
deriving DecidableEq

def Wire.ServerLocation.ToString (l : Wire.ServerLocation) : Str := l.hostname ++ " ".toList ++ printInt l.port.toInt

/-- `PrintChunkServerLocations`. -/
def printServers (servers : List Wire.ServerLocation) : Str := servers.flatMap fun s => " ".toList ++ s.ToString

/-- Without a lease there is no such line. -/
def leaseFields (leaseId : Int64) : List Field :=
  if 0 ≤ leaseId then [⟨"Lease-id: ".toList, printInt leaseId.toInt⟩] else []

theorem leaseFields_cases (leaseId : Int64) :
    leaseFields leaseId = [⟨"Lease-id: ".toList, printInt leaseId.toInt⟩] ∨ leaseFields leaseId = [] := by
  unfold leaseFields
  split_ifs
  · exact Or.inl rfl
  · exact Or.inr rfl

/-- A chunk is allocated on one server at least. -/
def MetaChunkOp.request (seq : Int64) : MetaChunkOp → Header
  | allocate fid chunkId chunkVersion leaseId servers => ⟨"ALLOCATE ".toList, common seq ++
      [⟨"File-handle: ".toList, printInt fid.toInt⟩, ⟨"Chunk-handle: ".toList, printInt chunkId.toInt⟩,
        ⟨"Chunk-version: ".toList, printInt chunkVersion.toInt⟩] ++
      leaseFields leaseId ++
      [⟨"Num-servers: ".toList, printInt servers.length⟩, ⟨"Servers:".toList, printServers servers⟩]⟩
  | delete chunkId => ⟨"DELETE ".toList, common seq ++ [⟨"Chunk-handle: ".toList, printInt chunkId.toInt⟩]⟩
  | truncate chunkId chunkSize => ⟨"TRUNCATE ".toList, common seq ++
      [⟨"Chunk-handle: ".toList, printInt chunkId.toInt⟩, ⟨"Chunk-size: ".toList, printInt chunkSize.toNat⟩]⟩
  | heartbeat => ⟨"HEARTBEAT ".toList, common seq⟩
  | staleNotify staleChunkIds => MetaChunkStaleNotify.header ⟨seq, staleChunkIds⟩
  | retire => ⟨"RETIRE ".toList, common seq⟩
  | versChange fid chunkId chunkVersion => ⟨"CHUNK_VERS_CHANGE ".toList, common seq ++
      [⟨"File-handle: ".toList, printInt fid.toInt⟩, ⟨"Chunk-handle: ".toList, printInt chunkId.toInt⟩,
        ⟨"Chunk-version: ".toList, printInt chunkVersion.toInt⟩]⟩
  | replicate fid chunkId chunkVersion srcLocation => ⟨"REPLICATE ".toList, common seq ++
      [⟨"File-handle: ".toList, printInt fid.toInt⟩, ⟨"Chunk-handle: ".toList, printInt chunkId.toInt⟩,
        ⟨"Chunk-version: ".toList, printInt chunkVersion.toInt⟩,
        ⟨"Chunk-location: ".toList, srcLocation.ToString⟩]⟩
  | size fid chunkId => ⟨"SIZE ".toList, common seq ++
      [⟨"File-handle: ".toList, printInt fid.toInt⟩, ⟨"Chunk-handle: ".toList, printInt chunkId.toInt⟩]⟩

/-- What follows the header. -/
def MetaChunkOp.body : MetaChunkOp → Str
  | staleNotify staleChunkIds => MetaChunkStaleNotify.ids ⟨0, staleChunkIds⟩
  | _ => []

/-! ## The receivers -/

/-- `IsMsgAvail`, and the body that the header announces: the message at the front of the buffer, if all of it is there,
and what is left in the buffer. A buffer counts its bytes by an `int`, so that a message of `2 ^ 31` bytes is never
there; a buffer that gets as many bytes of several messages at once is not looked at here. -/
def nextMsg (bodyLength : Str → ℕ) (iobuf : Str) : Option ((Str × Str) × Str) :=
  match IsMsgAvail iobuf with
  | none => none
  | some msgLen =>
    let body := iobuf.drop msgLen
    let n := bodyLength (iobuf.take msgLen)
    if body.length < n ∨ 2 ^ 31 ≤ msgLen + n then none else some ((iobuf.take msgLen, body.take n), body.drop n)

/-- Of all requests to a chunk server only the stale chunks have a body. -/
def contentLength (msg : Str) : ℕ :=
  if (parseHeader msg).1 = "STALE_CHUNKS".toList then
    (parseHandlerStaleChunks (parseHeader msg).2).contentLength.toInt.toNat
  else 0

def wholeMsg (m : Str × Str) : Str := m.1 ++ m.2

/-- What the metaserver takes from a connection: a request at most after each read. The client sends the next request
when the last one has been answered. -/
def ClientSM.Framing (rs : List (Int64 × ClientOp)) : Prop :=
  Answered (nextMsg fun _ => 0) wholeMsg (rs.map fun r => ((r.2.Request r.1).text, []))

/-- What a chunk server takes from the connection: requests as long as there is one. -/
def MetaServerSM.Framing (rs : List (Int64 × MetaChunkOp)) : Prop :=
  Received (nextMsg contentLength) wholeMsg (rs.map fun r => ((r.2.request r.1).text, r.2.body))

/-! ## What is found at the front -/

/-- What is taken is the front of the buffer; the header is found at its end, and announces the body. -/
theorem nextMsg_eq_some_iff {bodyLength : Str → ℕ} {s rest : Str} {m : Str × Str} :
    nextMsg bodyLength s = some (m, rest) ↔ s = wholeMsg m ++ rest ∧ IsMsgAvail s = some m.1.length ∧
      bodyLength m.1 = m.2.length ∧ (wholeMsg m).length < 2 ^ 31 := by
  obtain ⟨header, body⟩ := m
  constructor
  · intro h
    unfold nextMsg at h
    cases hn : IsMsgAvail s with
    | none =>
      rw [hn] at h
      cases h
    | some n =>
      rw [hn] at h
      dsimp only at h
      split_ifs at h with hlt
      obtain ⟨hm, rfl⟩ := Prod.mk.inj (Option.some.inj h)
      obtain ⟨rfl, rfl⟩ := Prod.mk.inj hm
      have hle := (isMsgAvail_le hn).2
      obtain ⟨hthere, hcount⟩ := not_or.1 hlt
      refine ⟨?_, ?_, ?_, ?_⟩
      · rw [wholeMsg, List.append_assoc, List.take_append_drop, List.take_append_drop]
      · rw [List.length_take, min_eq_left hle]
      · rw [List.length_take, min_eq_left (not_lt.mp hthere)]
      · rw [wholeMsg, List.length_append, List.length_take, List.length_take, min_eq_left hle,
          min_eq_left (not_lt.mp hthere)]
        exact not_le.1 hcount
  · rintro ⟨rfl, hn, hbody, hcount⟩
    dsimp only at hn hbody
    rw [wholeMsg, List.length_append] at hcount
    have hs : wholeMsg (header, body) ++ rest = header ++ (body ++ rest) := List.append_assoc _ _ _
    rw [hs] at hn ⊢
    simp only [nextMsg, hn, List.take_left, List.drop_left, hbody]
    rw [if_neg (not_or.2 ⟨by simp, not_le.2 hcount⟩)]

theorem nextMsg_nil (bodyLength : Str → ℕ) : nextMsg bodyLength [] = none := rfl

/-- **What the loop of a chunk server takes from the buffer is the message at the front**; it waits when there is
none. -/
theorem MetaConn.HandleMsg_nextMsg {parses : Str → Bool} {st st' : MetaConn} {msgLen : ℕ} {more : Bool}
    (hcount : st.iobuf.length < 2 ^ 31) (hn : IsMsgAvail st.iobuf = some msgLen)
    (hrequest : st.iobuf.take 2 ≠ "OK".toList) (h : st.HandleMsg parses msgLen = some (more, st')) :
    (nextMsg contentLength st.iobuf = none ∧ st' = st) ∨
      ∃ m, nextMsg contentLength st.iobuf = some (m, st'.iobuf) := by
  have hle := (isMsgAvail_le hn).2
  have htaken {n : ℕ} (hlen : contentLength (st.iobuf.take msgLen) = n) (hthere : ¬ (st.iobuf.drop msgLen).length < n) :
      nextMsg contentLength st.iobuf =
        some ((st.iobuf.take msgLen, (st.iobuf.drop msgLen).take n), (st.iobuf.drop msgLen).drop n) := by
    rw [List.length_drop] at hthere
    simp only [nextMsg, hn, hlen, List.length_drop]
    rw [if_neg (by omega)]
  rw [MetaConn.HandleMsg, if_neg hrequest, MetaConn.HandleCmd] at h
  by_cases hstale : (parseHeader (st.iobuf.take msgLen)).1 = "STALE_CHUNKS".toList
  · have hlen : contentLength (st.iobuf.take msgLen) = _ := if_pos hstale
    simp only [if_pos hstale] at h
    obtain ⟨-, h⟩ := Option.ite_none_left_eq_some.1 h
    split_ifs at h with hwait
    · obtain ⟨-, rfl⟩ := Prod.mk.inj (Option.some.inj h)
      refine Or.inl ⟨?_, rfl⟩
      simp only [nextMsg, hn, hlen]
      rw [if_pos (Or.inl hwait)]
    · obtain ⟨ids, -, h⟩ := Option.bind_eq_some_iff.1 h
      obtain ⟨-, rfl⟩ := Prod.mk.inj (Option.some.inj h)
      exact Or.inr ⟨_, htaken hlen hwait⟩
  · have hlen : contentLength (st.iobuf.take msgLen) = 0 := if_neg hstale
    simp only [if_neg hstale] at h
    have hall := htaken hlen (Nat.not_lt_zero _)
    split_ifs at h with hparse
    · obtain ⟨-, rfl⟩ := Prod.mk.inj (Option.some.inj h)
      exact Or.inr ⟨_, hall⟩
    · obtain ⟨-, rfl⟩ := Prod.mk.inj (Option.some.inj h)
      exact Or.inr ⟨_, hall⟩

section Front

variable {h : Header} {bodyLength : Str → ℕ} {body rest rest' : Str}

/-- A message that is found in front of something has a header that is found, and that announces the body. -/
theorem framed_of_nextMsg (hp : h.Plain)
    (hnext : nextMsg bodyLength (wholeMsg (h.text, body) ++ rest) = some ((h.text, body), rest')) :
    h.Framed ∧ bodyLength h.text = body.length ∧ (wholeMsg (h.text, body)).length < 2 ^ 31 := by
  obtain ⟨-, hn, hbody, hcount⟩ := nextMsg_eq_some_iff.mp hnext
  rw [wholeMsg, List.append_assoc] at hn
  exact ⟨(Header.isMsgAvail_iff hp _).mp hn, hbody, hcount⟩

/-- **Exactly the messages whose header is found, and announces the body, are delimited**, as long as an `int` can count
their bytes. -/
theorem delimits_iff (hp : h.Plain) : Delimits (nextMsg bodyLength) wholeMsg (h.text, body) ↔
    h.Framed ∧ bodyLength h.text = body.length ∧ (wholeMsg (h.text, body)).length < 2 ^ 31 := by
  constructor
  · exact fun hd => framed_of_nextMsg hp (hd.whole [])
  · rintro ⟨hf, hbody, hcount⟩
    have hn (rest : Str) : IsMsgAvail (wholeMsg (h.text, body) ++ rest) = some h.text.length := by
      rw [wholeMsg, List.append_assoc, Header.isMsgAvail_iff hp]
      exact hf
    refine ⟨fun rest => nextMsg_eq_some_iff.mpr ⟨rfl, hn rest, hbody, hcount⟩, fun b hb hne => ?_⟩
    rw [Option.eq_none_iff_forall_ne_some]
    rintro ⟨m, rest⟩ hm
    obtain ⟨hsplit, havail, hm₂, -⟩ := nextMsg_eq_some_iff.mp hm
    have hfront := isMsgAvail_prefix (by simpa using hn []) hb
    rw [havail] at hfront
    split_ifs at hfront with hle
    -- the header has been found, and with it the length of the body that is not there yet
    have hlen := Option.some.inj hfront
    have hheader : m.1 = h.text := by
      have h₁ : m.1 <+: b := ⟨m.2 ++ rest, by rw [hsplit, wholeMsg, List.append_assoc]⟩
      exact (List.prefix_of_prefix_length_le (h₁.trans hb) (List.prefix_append _ _) hlen.le).eq_of_length hlen
    have hblen : b.length < (wholeMsg (h.text, body)).length :=
      lt_of_le_of_ne hb.length_le fun h => hne (hb.eq_of_length h)
    rw [hheader, hbody] at hm₂
    rw [hsplit, wholeMsg, wholeMsg, hheader] at hblen
    simp only [List.length_append] at hblen
    omega

end Front

/-! ## The headers -/

theorem Header.regular_of_same {h : Header} {w : Str} (h₀ : Header) (hr : h₀.regular w = true)
    (hcommand : h.command = h₀.command) (hkeys : h.fields.map Field.key = h₀.fields.map Field.key) :
    h.regular w = true := by
  rwa [Header.regular, hcommand, hkeys]

/-- Where all other values stay in their lines, only the names matter. -/
theorem Header.framed_iff {h : Header} {names : List Str} (hc : ∀ f ∈ h.fields, f.value ∈ names ∨ Clean f.value)
    (hn : ∀ s ∈ names, s ∈ h.fields.map Field.value) :
    h.Framed ↔ h.text.length ≤ MAX_RPC_HEADER_LEN ∧ ∀ s ∈ names, ¬ blankLine <:+: s ++ CRLF := by
  constructor
  · intro h
    refine ⟨h.length, fun s hs => ?_⟩
    obtain ⟨f, hf, rfl⟩ := List.mem_map.mp (hn s hs)
    exact h.value f hf
  · rintro ⟨hlen, hname⟩
    refine ⟨hlen, fun f hf => ?_⟩
    rcases hc f hf with hs | hc
    · exact hname _ hs
    · exact OneLine.not_infix hc.1

namespace ClientOp

/-- The name of the command. -/
def word : ClientOp → Str
  | create .. => "CREATE".toList
  | mkdir .. => "MKDIR".toList
  | rmdir .. => "RMDIR".toList
  | rename .. => "RENAME".toList
  | readdir .. => "READDIR".toList
  | readdirPlus .. => "READDIRPLUS".toList
  | remove .. => "REMOVE".toList
  | lookup .. => "LOOKUP".toList
  | lookupPath .. => "LOOKUP_PATH".toList
  | getAlloc .. => "GETALLOC".toList
  | getLayout .. => "GETLAYOUT".toList
  | allocate .. => "ALLOCATE".toList
  | truncate .. => "TRUNCATE".toList
  | leaseAcquire .. => "LEASE_ACQUIRE".toList
  | leaseRenew .. => "LEASE_RENEW".toList
  | changeFileReplication .. => "CHANGE_FILE_REPLICATION".toList

/-- A request of each kind. -/
def kinds : List ClientOp :=
  [create 0 [] 0 false, mkdir 0 [], rmdir 0 [], rename 0 [] [] false, readdir 0, readdirPlus 0, remove 0 [],
    lookup 0 [], lookupPath 0 [], getAlloc 0 0, getLayout 0, allocate 0 0 [], truncate 0 0, leaseAcquire 0,
    leaseRenew 0 0, changeFileReplication 0 0]

theorem exists_kind (seq : Int64) (op : ClientOp) : ∃ k ∈ kinds, op.word = k.word ∧
    (op.Request seq).command = (k.Request 0).command ∧
      (op.Request seq).fields.map Field.key = (k.Request 0).fields.map Field.key := by
  cases op
  case create => exact ⟨create 0 [] 0 false, by decide, rfl, rfl, rfl⟩
  case mkdir => exact ⟨mkdir 0 [], by decide, rfl, rfl, rfl⟩
  case rmdir => exact ⟨rmdir 0 [], by decide, rfl, rfl, rfl⟩
  case rename => exact ⟨rename 0 [] [] false, by decide, rfl, rfl, rfl⟩
  case readdir => exact ⟨readdir 0, by decide, rfl, rfl, rfl⟩
  case readdirPlus => exact ⟨readdirPlus 0, by decide, rfl, rfl, rfl⟩
  case remove => exact ⟨remove 0 [], by decide, rfl, rfl, rfl⟩
  case lookup => exact ⟨lookup 0 [], by decide, rfl, rfl, rfl⟩
  case lookupPath => exact ⟨lookupPath 0 [], by decide, rfl, rfl, rfl⟩
  case getAlloc => exact ⟨getAlloc 0 0, by decide, rfl, rfl, rfl⟩
  case getLayout => exact ⟨getLayout 0, by decide, rfl, rfl, rfl⟩
  case allocate => exact ⟨allocate 0 0 [], by decide, rfl, rfl, rfl⟩
  case truncate => exact ⟨truncate 0 0, by decide, rfl, rfl, rfl⟩
  case leaseAcquire => exact ⟨leaseAcquire 0, by decide, rfl, rfl, rfl⟩
  case leaseRenew => exact ⟨leaseRenew 0 0, by decide, rfl, rfl, rfl⟩
  case changeFileReplication => exact ⟨changeFileReplication 0 0, by decide, rfl, rfl, rfl⟩

/-- The fixed parts of every request are regular. -/
theorem regular (seq : Int64) (op : ClientOp) : (op.Request seq).regular op.word = true := by
  have hkinds : ∀ k ∈ kinds, (k.Request 0).regular k.word = true := by decide +kernel
  obtain ⟨k, hk, hword, hcommand, hkeys⟩ := op.exists_kind seq
  rw [hword]
  exact Header.regular_of_same _ (hkinds k hk) hcommand hkeys

/-- The names in a request. -/
def names : ClientOp → List Str
  | create _ filename _ _ => [filename]
  | mkdir _ dirname => [dirname]
  | rmdir _ dirname => [dirname]
  | rename _ oldname newpath _ => [oldname, newpath]
  | remove _ filename => [filename]
  | lookup _ filename => [filename]
  | lookupPath _ filename => [filename]
  | allocate _ _ hostname => [hostname]
  | _ => []

/-- A value of a request is a name, or a number or another text that stays in its line. -/
theorem value_cases {seq : Int64} {op : ClientOp} {f : Field} (hf : f ∈ (op.Request seq).fields) :
    f.value ∈ op.names ∨ Clean f.value := by
  have hn {names : List Str} (n : ℤ) : printInt n ∈ names ∨ Clean (printInt n) := Or.inr (clean_printInt n)
  have hv {names : List Str} : KFS_VERSION_STR ∈ names ∨ Clean KFS_VERSION_STR := Or.inr clean_version
  have hb {names : List Str} (b : Bool) : flag b ∈ names ∨ Clean (flag b) := Or.inr (clean_flag b)
  have h₁ {names : List Str} {s : Str} : s ∈ s :: names ∨ Clean s := Or.inl List.mem_cons_self
  have h₂ {s₀ s : Str} : s ∈ [s₀, s] ∨ Clean s := Or.inl (List.mem_cons_of_mem _ List.mem_cons_self)
  have hnil {names : List Str} : [] ∈ names ∨ Clean [] := Or.inr ⟨List.not_mem_nil, List.not_mem_nil⟩
  have hall : (op.Request seq).fields.Forall fun f => f.value ∈ op.names ∨ Clean f.value := by
    cases op with
    | create => exact ⟨hn _, hv, hn _, h₁, hn _, hb _⟩
    | mkdir => exact ⟨hn _, hv, hn _, h₁⟩
    | rmdir => exact ⟨hn _, hv, hn _, h₁⟩
    | rename => exact ⟨hn _, hv, hn _, h₁, h₂, hb _⟩
    | readdir => exact ⟨hn _, hv, hn _⟩
    | readdirPlus => exact ⟨hn _, hv, hn _⟩
    | remove => exact ⟨hn _, hv, hn _, h₁⟩
    | lookup => exact ⟨hn _, hv, hn _, h₁⟩
    | lookupPath => exact ⟨hn _, hv, hn _, h₁⟩
    | getAlloc => exact ⟨hn _, hv, hn _, hn _⟩
    | getLayout => exact ⟨hn _, hv, hn _⟩
    | allocate => exact ⟨hn _, hv, h₁, hn _, hn _⟩
    | truncate => exact ⟨hn _, hv, hn _, hn _⟩
    | leaseAcquire => exact ⟨hn _, hv, hn _⟩
    | leaseRenew => exact ⟨hn _, hv, hn _, hn _, hnil⟩
    | changeFileReplication => exact ⟨hn _, hv, hn _, hn _⟩
  exact List.forall_iff_forall_mem.mp hall f hf

/-- Every name is a value of the request. -/
theorem name_mem (seq : Int64) {op : ClientOp} {name : Str} (h : name ∈ op.names) :
    name ∈ (op.Request seq).fields.map Field.value := by
  cases op with
  | rename =>
    rcases List.mem_cons.mp h with rfl | h
    · exact .tail _ (.tail _ (.tail _ (.head _)))
    · obtain rfl := List.mem_singleton.mp h
      exact .tail _ (.tail _ (.tail _ (.tail _ (.head _))))
  | create | mkdir | rmdir | remove | lookup | lookupPath =>
    obtain rfl := List.mem_singleton.mp h
    exact .tail _ (.tail _ (.tail _ (.head _)))
  | allocate =>
    obtain rfl := List.mem_singleton.mp h
    exact .tail _ (.tail _ (.head _))
  | readdir | readdirPlus | getAlloc | getLayout | truncate | leaseAcquire | leaseRenew | changeFileReplication =>
    exact absurd h List.not_mem_nil

/-- A request that is found: it is short, and no name makes an empty line. -/
structure Framed (seq : Int64) (op : ClientOp) : Prop where
  length : (op.Request seq).text.length ≤ MAX_RPC_HEADER_LEN
  name : ∀ s ∈ op.names, ¬ blankLine <:+: s ++ CRLF

theorem framed_iff {seq : Int64} {op : ClientOp} : (op.Request seq).Framed ↔ op.Framed seq := by
  rw [Header.framed_iff (fun f hf => value_cases hf) fun s hs => name_mem seq hs]
  exact ⟨fun h => ⟨h.1, h.2⟩, fun h => ⟨h.length, h.name⟩⟩

end ClientOp

namespace MetaChunkOp

theorem request_allocate (seq fid chunkId chunkVersion leaseId : Int64) (servers : List Wire.ServerLocation) :
    (allocate fid chunkId chunkVersion leaseId servers).request seq = ⟨"ALLOCATE ".toList, common seq ++
      [⟨"File-handle: ".toList, printInt fid.toInt⟩, ⟨"Chunk-handle: ".toList, printInt chunkId.toInt⟩,
        ⟨"Chunk-version: ".toList, printInt chunkVersion.toInt⟩] ++ leaseFields leaseId ++
      [⟨"Num-servers: ".toList, printInt servers.length⟩, ⟨"Servers:".toList, printServers servers⟩]⟩ := rfl

theorem request_staleNotify (seq : Int64) (staleChunkIds : List Int64) :
    (staleNotify staleChunkIds).request seq = MetaChunkStaleNotify.header ⟨seq, staleChunkIds⟩ := rfl

def word : MetaChunkOp → Str
  | allocate .. => "ALLOCATE".toList
  | delete .. => "DELETE".toList
  | truncate .. => "TRUNCATE".toList
  | heartbeat => "HEARTBEAT".toList
  | staleNotify .. => "STALE_CHUNKS".toList
  | retire => "RETIRE".toList
  | versChange .. => "CHUNK_VERS_CHANGE".toList
  | replicate .. => "REPLICATE".toList
  | size .. => "SIZE".toList

def kinds : List MetaChunkOp :=
  [delete 0, truncate 0 0, heartbeat, staleNotify [], retire,
    versChange 0 0 0, replicate 0 0 0 ⟨[], 0⟩, size 0 0]

theorem regular (seq : Int64) (op : MetaChunkOp) : (op.request seq).regular op.word = true := by
  have hkinds : ∀ k ∈ kinds, (k.request 0).regular k.word = true := by decide +kernel
  cases op with
  | allocate fid chunkId chunkVersion leaseId servers =>
    rcases leaseFields_cases leaseId with h | h
    · rw [request_allocate, h]
      exact Header.regular_of_same (w := "ALLOCATE".toList) ⟨"ALLOCATE ".toList, common 0 ++
        [⟨"File-handle: ".toList, []⟩, ⟨"Chunk-handle: ".toList, []⟩, ⟨"Chunk-version: ".toList, []⟩,
          ⟨"Lease-id: ".toList, []⟩,
        ⟨"Num-servers: ".toList, []⟩, ⟨"Servers:".toList, []⟩]⟩ (by decide +kernel) rfl rfl
    · rw [request_allocate, h]
      exact Header.regular_of_same (w := "ALLOCATE".toList) ⟨"ALLOCATE ".toList, common 0 ++
        [⟨"File-handle: ".toList, []⟩, ⟨"Chunk-handle: ".toList, []⟩, ⟨"Chunk-version: ".toList, []⟩,
          ⟨"Num-servers: ".toList, []⟩,
        ⟨"Servers:".toList, []⟩]⟩ (by decide +kernel) rfl rfl
  | delete => exact Header.regular_of_same _ (hkinds (delete 0) (by decide)) rfl rfl
  | truncate => exact Header.regular_of_same _ (hkinds (truncate 0 0) (by decide)) rfl rfl
  | heartbeat => exact Header.regular_of_same _ (hkinds heartbeat (by decide)) rfl rfl
  | staleNotify => exact Header.regular_of_same _ (hkinds (staleNotify []) (by decide)) rfl rfl
  | retire => exact Header.regular_of_same _ (hkinds retire (by decide)) rfl rfl
  | versChange => exact Header.regular_of_same _ (hkinds (versChange 0 0 0) (by decide)) rfl rfl
  | replicate => exact Header.regular_of_same _ (hkinds (replicate 0 0 0 ⟨[], 0⟩) (by decide)) rfl rfl
  | size => exact Header.regular_of_same _ (hkinds (size 0 0) (by decide)) rfl rfl

/-- The servers in a request. -/
def servers : MetaChunkOp → List Wire.ServerLocation
  | allocate _ _ _ _ servers => servers
  | replicate _ _ _ srcLocation => [srcLocation]
  | _ => []

/-- The values with hosts. -/
def names : MetaChunkOp → List Str
  | allocate _ _ _ _ servers => [printServers servers]
  | replicate _ _ _ srcLocation => [srcLocation.ToString]
  | _ => []

end MetaChunkOp

/-- Of a location only the host can make an empty line. -/
theorem infix_ToString {l : Wire.ServerLocation} {s : Str} :
    blankLine <:+: l.ToString ++ s ↔ blankLine <:+: l.hostname ∨ blankLine <:+: s := by
  have htext : l.ToString ++ s = l.hostname ++ ((' ' :: printInt l.port.toInt) ++ s) := by
    rw [Wire.ServerLocation.ToString, List.append_assoc, List.append_assoc]
    rfl
  have hport : ∀ c ∈ ' ' :: printInt l.port.toInt, c ∉ blankLine := by
    intro c hc hb
    rcases List.mem_cons.mp hc with rfl | hc
    · exact absurd hb (by decide)
    · rcases printInt_mem hc with rfl | hd
      · exact absurd hb (by decide)
      · have hdigit : ∀ b ∈ blankLine, Char.isDigit b = false := by simp [blankLine]
        rw [hdigit c hb] at hd
        exact Bool.false_ne_true hd
  rw [htext, infix_append_iff_of_disjoint (List.cons_ne_nil _ _) hport]

theorem infix_printServers {servers : List Wire.ServerLocation} {s : Str} :
    blankLine <:+: printServers servers ++ s ↔ (∃ l ∈ servers, blankLine <:+: l.hostname) ∨ blankLine <:+: s := by
  induction servers with
  | nil => simp [printServers]
  | cons l servers ih =>
    have htext : printServers (l :: servers) ++ s = [] ++ ([' '] ++ (l.ToString ++ (printServers servers ++ s))) := by
      simp only [printServers, List.flatMap_cons, List.append_assoc, List.nil_append]
      rfl
    rw [htext, infix_append_iff_of_disjoint (List.cons_ne_nil _ _) (by simp [blankLine]), infix_ToString, ih]
    simp [blankLine, or_assoc]

theorem not_infix_CRLF : ¬ blankLine <:+: CRLF := by decide

namespace MetaChunkOp

theorem value_cases {seq : Int64} {op : MetaChunkOp} {f : Field} (hf : f ∈ (op.request seq).fields) :
    f.value ∈ op.names ∨ Clean f.value := by
  have hn {names : List Str} (n : ℤ) : printInt n ∈ names ∨ Clean (printInt n) := Or.inr (clean_printInt n)
  have hlen {names : List Str} (n : ℕ) : printInt n ∈ names ∨ Clean (printInt n) := Or.inr (clean_printInt n)
  have hv {names : List Str} : KFS_VERSION_STR ∈ names ∨ Clean KFS_VERSION_STR := Or.inr clean_version
  have h₁ {names : List Str} {s : Str} : s ∈ s :: names ∨ Clean s := Or.inl List.mem_cons_self
  have hall : (op.request seq).fields.Forall fun f => f.value ∈ op.names ∨ Clean f.value := by
    cases op with
    | allocate fid chunkId chunkVersion leaseId servers =>
      rcases leaseFields_cases leaseId with h | h
      · rw [request_allocate, h]
        exact ⟨hn _, hv, hn _, hn _, hn _, hn _, hlen _, h₁⟩
      · rw [request_allocate, h]
        exact ⟨hn _, hv, hn _, hn _, hn _, hlen _, h₁⟩
    | delete => exact ⟨hn _, hv, hn _⟩
    | truncate => exact ⟨hn _, hv, hn _, hlen _⟩
    | heartbeat => exact ⟨hn _, hv⟩
    | staleNotify => exact ⟨hn _, hv, hlen _, hlen _⟩
    | retire => exact ⟨hn _, hv⟩
    | versChange => exact ⟨hn _, hv, hn _, hn _, hn _⟩
    | replicate => exact ⟨hn _, hv, hn _, hn _, hn _, h₁⟩
    | size => exact ⟨hn _, hv, hn _, hn _⟩
  exact List.forall_iff_forall_mem.mp hall f hf

theorem name_mem (seq : Int64) {op : MetaChunkOp} {name : Str} (h : name ∈ op.names) :
    name ∈ (op.request seq).fields.map Field.value := by
  cases op with
  | allocate fid chunkId chunkVersion leaseId servers =>
    obtain rfl := List.mem_singleton.mp h
    exact List.mem_map_of_mem (f := Field.value) (List.mem_append_right _ (.tail _ (.head _)))
  | replicate =>
    obtain rfl := List.mem_singleton.mp h
    exact .tail _ (.tail _ (.tail _ (.tail _ (.tail _ (.head _)))))
  | delete | truncate | heartbeat | staleNotify | retire | versChange | size => exact absurd h List.not_mem_nil

/-- Only a host can make an empty line. -/
theorem names_iff (op : MetaChunkOp) :
    (∀ s ∈ op.names, ¬ blankLine <:+: s ++ CRLF) ↔ ∀ l ∈ op.servers, ¬ blankLine <:+: l.hostname := by
  cases op with
  | allocate fid chunkId chunkVersion leaseId servers =>
    rw [names, List.forall_mem_singleton, infix_printServers]
    simp [MetaChunkOp.servers, not_infix_CRLF]
  | replicate fid chunkId chunkVersion srcLocation =>
    rw [names, List.forall_mem_singleton, infix_ToString]
    simp [MetaChunkOp.servers, not_infix_CRLF]
  | delete | truncate | heartbeat | staleNotify | retire | versChange | size =>
    exact iff_of_true (fun _ h => absurd h List.not_mem_nil) fun _ h => absurd h List.not_mem_nil

/-- A request that is found, with a body whose end can be told. -/
structure Framed (seq : Int64) (op : MetaChunkOp) : Prop where
  length : (op.request seq).text.length ≤ MAX_RPC_HEADER_LEN
  host : ∀ l ∈ op.servers, ¬ blankLine <:+: l.hostname
  size : (op.request seq).text.length + op.body.length < 2 ^ 31

/-- The announced length is that of the body as long as an `int` can tell it. -/
theorem contentLength_iff (seq : Int64) (op : MetaChunkOp) :
    contentLength (op.request seq).text = op.body.length ↔ op.body.length < 2 ^ 31 := by
  have hword := Header.parseHeader_fst (op.regular seq)
  have hother {w : Str} (hop : op.word = w) (hw : w ≠ "STALE_CHUNKS".toList) :
      contentLength (op.request seq).text = 0 := by
    rw [contentLength, hword, hop, if_neg hw]
  cases op with
  | staleNotify staleChunkIds =>
    have hstale := MetaChunkStaleNotify.sound ⟨seq, staleChunkIds⟩
    have hbody : (staleNotify staleChunkIds).body = MetaChunkStaleNotify.ids ⟨seq, staleChunkIds⟩ := rfl
    have hlen : contentLength ((staleNotify staleChunkIds).request seq).text =
        (parseHandlerStaleChunks
          (MetaChunkStaleNotify.header ⟨seq, staleChunkIds⟩).props).contentLength.toInt.toNat := by
      have hcmd : (parseHeader (MetaChunkStaleNotify.header ⟨seq, staleChunkIds⟩).text).1 = "STALE_CHUNKS".toList :=
        hword
      rw [request_staleNotify, contentLength, if_pos hcmd, hstale.parse]
    rw [hlen, hbody]
    constructor
    · intro h
      have := Int32.toInt_lt
        (parseHandlerStaleChunks (MetaChunkStaleNotify.header ⟨seq, staleChunkIds⟩).props).contentLength
      omega
    · intro h
      rw [MetaChunkStaleNotify.parse_header h]
      change (Int32.ofNat _).toInt.toNat = _
      rw [Int32.toInt_ofNat_of_lt h]
      rfl
  | allocate => exact iff_of_true (hother (w := "ALLOCATE".toList) rfl (by decide)) (Nat.two_pow_pos 31)
  | delete => exact iff_of_true (hother (w := "DELETE".toList) rfl (by decide)) (Nat.two_pow_pos 31)
  | truncate => exact iff_of_true (hother (w := "TRUNCATE".toList) rfl (by decide)) (Nat.two_pow_pos 31)
  | heartbeat => exact iff_of_true (hother (w := "HEARTBEAT".toList) rfl (by decide)) (Nat.two_pow_pos 31)
  | retire => exact iff_of_true (hother (w := "RETIRE".toList) rfl (by decide)) (Nat.two_pow_pos 31)
  | versChange => exact iff_of_true (hother (w := "CHUNK_VERS_CHANGE".toList) rfl (by decide)) (Nat.two_pow_pos 31)
  | replicate => exact iff_of_true (hother (w := "REPLICATE".toList) rfl (by decide)) (Nat.two_pow_pos 31)
  | size => exact iff_of_true (hother (w := "SIZE".toList) rfl (by decide)) (Nat.two_pow_pos 31)

theorem framed_iff {seq : Int64} {op : MetaChunkOp} :
    (op.request seq).Framed ∧ contentLength (op.request seq).text = op.body.length ∧
      (wholeMsg ((op.request seq).text, op.body)).length < 2 ^ 31 ↔ op.Framed seq := by
  rw [contentLength_iff, Header.framed_iff (fun f hf => value_cases hf) fun s hs => name_mem seq hs, names_iff,
    wholeMsg, List.length_append]
  exact ⟨fun h => ⟨h.1.1, h.1.2, h.2.2⟩,
    fun h => ⟨⟨h.length, h.host⟩, (Nat.le_add_left _ _).trans_lt h.size, h.size⟩⟩

end MetaChunkOp

/-! ## The streams -/

theorem text_ne_nil (h : Header) : h.text ≠ [] := by
  intro h'
  have := congrArg List.length h'
  simp only [Header.text, CRLF, List.length_append, List.length_cons, List.length_nil] at this
  omega

theorem wholeMsg_ne_nil (h : Header) (body : Str) : wholeMsg (h.text, body) ≠ [] :=
  fun he => text_ne_nil h (List.append_eq_nil_iff.mp he).1

theorem ClientSM.framing_iff (rs : List (Int64 × ClientOp)) :
    ClientSM.Framing rs ↔ ∀ r ∈ rs, r.2.Framed r.1 := by
  have hone (r : Int64 × ClientOp) : Delimits (nextMsg fun _ => 0) wholeMsg ((r.2.Request r.1).text, []) ↔
      r.2.Framed r.1 := by
    rw [delimits_iff (.of_regular (r.2.regular r.1)), ClientOp.framed_iff]
    refine and_iff_left_of_imp fun h => ⟨rfl, ?_⟩
    rw [wholeMsg, List.append_nil]
    exact h.length.trans_lt (by decide)
  rw [ClientSM.Framing, answered_iff (nextMsg_nil _)]
  · rw [List.forall_mem_map]
    exact forall₂_congr fun r _ => hone r
  · exact List.forall_mem_map.mpr fun r _ => wholeMsg_ne_nil _ _
  · exact fun s m rest h => (nextMsg_eq_some_iff.mp h).1
  · refine List.forall_mem_map.mpr fun r _ h => ?_
    rw [← List.append_nil (wholeMsg _)] at h
    have hp := Header.Plain.of_regular (r.2.regular r.1)
    exact (delimits_iff hp).mpr (framed_of_nextMsg hp h)

theorem MetaServerSM.framing_iff (rs : List (Int64 × MetaChunkOp)) :
    MetaServerSM.Framing rs ↔ ∀ r ∈ rs, r.2.Framed r.1 := by
  have hone (r : Int64 × MetaChunkOp) : Delimits (nextMsg contentLength) wholeMsg ((r.2.request r.1).text, r.2.body) ↔
      r.2.Framed r.1 := by
    rw [delimits_iff (.of_regular (r.2.regular r.1)), MetaChunkOp.framed_iff]
  rw [MetaServerSM.Framing, received_iff (nextMsg_nil _)]
  · rw [List.forall_mem_map]
    exact forall₂_congr fun r _ => hone r
  · exact List.forall_mem_map.mpr fun r _ => wholeMsg_ne_nil _ _
  · refine List.forall_mem_map.mpr fun r _ rest rest' h => ?_
    have hp := Header.Plain.of_regular (r.2.regular r.1)
    exact (delimits_iff hp).mpr (framed_of_nextMsg hp h)

/-- **The requests of a connection are taken one by one exactly when each of them is found**: its header is short, no
name makes an empty line, and an `int` can count its bytes. -/
theorem framing (rs : List (Int64 × ClientOp)) (rpcs : List (Int64 × MetaChunkOp)) :
    (ClientSM.Framing rs ↔ ∀ r ∈ rs, r.2.Framed r.1) ∧ (MetaServerSM.Framing rpcs ↔ ∀ r ∈ rpcs, r.2.Framed r.1) :=
  ⟨ClientSM.framing_iff rs, MetaServerSM.framing_iff rpcs⟩

/-- A path of five names of 250 letters. -/
def longPath : Str := List.flatten (List.replicate 5 ('/' :: List.replicate 250 'a'))

/-- A request with a long path is never found. -/
theorem rename_not_found : ¬ ClientSM.Framing [(1, .rename 2 ['b'] longPath true)] := by
  rw [ClientSM.framing_iff]
  intro h
  have hlen := (h _ List.mem_cons_self).length
  exact absurd hlen (by decide +kernel)

end Kfs
