import Kfs.Chunk.Session
import Kfs.Wire.Frame

/-!
# HELLO and stale chunks

A chunk server tells the metaserver in a HELLO which chunks it hosts; the metaserver tells a chunk server which chunks
are stale. In both messages the header is followed by a body, whose length is in the header.

* `HelloMetaOp.Request`, `MetaChunkStaleNotify.request`: the senders;
* `parseHandlerHello`, `HandleHelloMsg`, `HandleHello`: the metaserver, reading from the network in pieces;
* `parseHandlerStaleChunks`, `MetaConn.HandleCmd`, `MetaConn.HandleRequest`: the chunk server;
* **`hello_stale_codec`**: the lists arrive as they have been sent as long as the header of HELLO is short and the bytes
  of a message can be counted by an `int`.
-/

namespace Kfs

open Lib

/-! ## The senders -/

def PrintChunkInfo (c : HostedChunk) : Str :=
  printInt c.fileId.toInt ++ " ".toList ++ printInt c.chunkId.toInt ++ " ".toList ++ printInt c.chunkVersion.toInt ++
    " ".toList

namespace HelloMetaOp

variable (op : HelloMetaOp)

def chunkInfo : Str := op.chunks.flatMap PrintChunkInfo

def header : Header where
  command := "HELLO ".toList
  fields := [⟨"Version: ".toList, KFS_VERSION_STR⟩, ⟨"Cseq: ".toList, printInt op.seq.toInt⟩,
    ⟨"Chunk-server-name: ".toList, op.myLocation.hostname⟩,
    ⟨"Chunk-server-port: ".toList, printInt op.myLocation.port.toInt⟩, ⟨"Cluster-key: ".toList, op.clusterKey⟩,
    ⟨"Rack-id: ".toList, printInt op.rackId.toInt⟩, ⟨"Total-space: ".toList, printInt op.totalSpace.toInt⟩,
    ⟨"Used-space: ".toList, printInt op.usedSpace.toInt⟩, ⟨"Num-chunks: ".toList, printInt op.chunks.length⟩,
    ⟨"Content-length: ".toList, printInt op.chunkInfo.length⟩]

def Request : Str := op.header.text ++ op.chunkInfo

end HelloMetaOp

structure MetaChunkStaleNotify where
  opSeqno : Int64
  staleChunkIds : List Int64
deriving DecidableEq

namespace MetaChunkStaleNotify

variable (op : MetaChunkStaleNotify)

def ids : Str := op.staleChunkIds.flatMap fun c => printInt c.toInt ++ " ".toList

def header : Header where
  command := "STALE_CHUNKS ".toList
  fields := [⟨"Cseq: ".toList, printInt op.opSeqno.toInt⟩, ⟨"Version: ".toList, KFS_VERSION_STR⟩,
    ⟨"Num-chunks: ".toList, printInt op.staleChunkIds.length⟩, ⟨"Content-length: ".toList, printInt op.ids.length⟩]

def request : Str := op.header.text ++ op.ids

end MetaChunkStaleNotify

/-! ## The metaserver -/

structure MetaHello where
  opSeqno : Int64
  status : ℤ
  location : Wire.ServerLocation
  totalSpace : UInt64
  usedSpace : UInt64
  rackId : Int32
  numChunks : Int32
  contentLength : Int32
  chunks : List HostedChunk
deriving DecidableEq

def Wire.ServerLocation.IsValid (l : Wire.ServerLocation) : Bool := l.hostname ≠ [] ∧ 0 < l.port

def parseHandlerHello (gClusterKey : Str) (prop : Properties) : Option MetaHello :=
  let location : Wire.ServerLocation :=
    ⟨prop.getString "Chunk-server-name".toList [], prop.getInt "Chunk-server-port".toList (-1)⟩
  if !location.IsValid then none
  else some {
    opSeqno := prop.getLong "Cseq".toList (-1)
    status := if prop.getString "Cluster-key".toList [] ≠ gClusterKey then -EBADCLUSTERKEY else 0
    location := location
    totalSpace := (prop.getLong "Total-space".toList 0).toUInt64
    usedSpace := (prop.getLong "Used-space".toList 0).toUInt64
    rackId := prop.getInt "Rack-id".toList (-1)
    numChunks := prop.getInt "Num-chunks".toList 0
    contentLength := prop.getInt "Content-length".toList 0
    chunks := [] }

/-- `operator >>` for a number; a number that is not there or out of range is `none`. -/
def extract (s : Str) : Option (Int64 × Str) :=
  let (v, rest) := strtoll s
  if rest = s ∨ v < -2 ^ 63 ∨ 2 ^ 63 ≤ v then none else some (Int64.ofInt v, rest)

/-- `n` times the numbers of a chunk. -/
def readChunks : ℕ → Str → Option (List HostedChunk)
  | 0, _ => some []
  | n + 1, s => do
    let (fileId, s) ← extract s
    let (chunkId, s) ← extract s
    let (chunkVersion, s) ← extract s
    let chunks ← readChunks n s
    some (⟨fileId, chunkId, chunkVersion⟩ :: chunks)

/-- What comes of the message at the front of the buffer: it is no HELLO, it is not there yet, or it is taken. -/
inductive HelloResult
  | bad (iobuf : Str)
  | wait
  | submit (op : MetaHello) (iobuf : Str)

/-- `none`: the values of some chunks are undefined. -/
def HandleHelloMsg (gClusterKey iobuf : Str) (msgLen : ℕ) : Option HelloResult :=
  let (cmd, prop) := parseHeader (iobuf.take msgLen)
  if cmd ≠ "HELLO".toList then some (.bad (iobuf.drop msgLen))
  else
    match parseHandlerHello gClusterKey prop with
    | none => some (.bad (iobuf.drop msgLen))
    | some op =>
      if 0 < op.contentLength then
        let n := op.contentLength.toInt.toNat
        if iobuf.length - msgLen < n then some .wait
        else do
          let content := (iobuf.drop msgLen).take n
          let chunks ← readChunks op.numChunks.toInt.toNat (cString content)
          some (.submit { op with chunks := chunks } (iobuf.drop (msgLen + n)))
      else some (.submit op (iobuf.drop msgLen))

/-- The metaserver's end of a connection, until HELLO has come. -/
structure HelloConn where
  iobuf : Str
  mHelloDone : Bool
  mDown : Bool
  requests : List MetaHello
deriving DecidableEq

def HelloConn.start : HelloConn := ⟨[], false, false, []⟩

/-- `EVENT_NET_READ`. `none`: the bytes in the buffer cannot be counted by an `int`. -/
def HelloConn.HandleHello (gClusterKey : Str) (st : HelloConn) (data : Str) : Option HelloConn :=
  let iobuf := st.iobuf ++ data
  if 2 ^ 31 ≤ iobuf.length then none
  else
    match IsMsgAvail iobuf with
    | none => some { st with iobuf := iobuf }
    | some msgLen =>
      match HandleHelloMsg gClusterKey iobuf msgLen with
      | none => none
      | some (.bad iobuf) => some { st with iobuf := iobuf, mDown := true }
      | some .wait => some { st with iobuf := iobuf }
      | some (.submit op iobuf) =>
        some { st with iobuf := iobuf, mHelloDone := true, requests := st.requests ++ [op] }

/-! ## The chunk server -/

structure StaleChunksOp where
  seq : Int64
  contentLength : Int32
  numStaleChunks : Int32
  staleChunkIds : List Int64
deriving DecidableEq

def parseHandlerStaleChunks (prop : Properties) : StaleChunksOp where
  seq := prop.getLong "Cseq".toList (-1)
  contentLength := prop.getInt "Content-length".toList 0
  numStaleChunks := prop.getInt "Num-chunks".toList 0
  staleChunkIds := []

def readIds : ℕ → Str → Option (List Int64)
  | 0, _ => some []
  | n + 1, s => do
    let (c, s) ← extract s
    let ids ← readIds n s
    some (c :: ids)

/-- A message from the metaserver: an answer, stale chunks, or another command. -/
inductive MetaMsg
  | reply (msg : Str)
  | stale (op : StaleChunksOp)
  | other (cmd : Str)
deriving DecidableEq

/-- The chunk server's end of the connection to the metaserver, with what has been taken from it. -/
structure MetaConn where
  iobuf : Str
  msgs : List MetaMsg
deriving DecidableEq

namespace MetaConn

variable (parses : Str → Bool) (st : MetaConn)

/-- Whether the loop over the buffer goes on. `parses` is `ParseCommand` for the other commands; `none`: the length of
the body is negative, or some chunks are undefined. -/
def HandleCmd (cmdLen : ℕ) : Option (Bool × MetaConn) :=
  let cmd := st.iobuf.take cmdLen
  let rest := st.iobuf.drop cmdLen
  if (parseHeader cmd).1 = "STALE_CHUNKS".toList then
    let sc := parseHandlerStaleChunks (parseHeader cmd).2
    let n := sc.contentLength.toInt.toNat
    if sc.contentLength < 0 then none
    else if rest.length < n then some (false, st)
    else do
      let ids ← readIds sc.numStaleChunks.toInt.toNat (cString (rest.take n))
      some (true, ⟨rest.drop n, st.msgs ++ [.stale { sc with staleChunkIds := ids }]⟩)
  else if parses cmd then some (true, ⟨rest, st.msgs ++ [.other cmd]⟩)
  else some (false, { st with iobuf := rest })

def HandleMsg (msgLen : ℕ) : Option (Bool × MetaConn) :=
  if st.iobuf.take 2 = "OK".toList then
    some (true, ⟨st.iobuf.drop msgLen, st.msgs ++ [.reply (st.iobuf.take msgLen)]⟩)
  else st.HandleCmd parses msgLen

/-- The loop over the buffer, at most `n` times. -/
def handleLoop : ℕ → MetaConn → Option MetaConn
  | 0, st => some st
  | n + 1, st =>
    match IsMsgAvail st.iobuf with
    | none => some st
    | some cmdLen =>
      match st.HandleMsg parses cmdLen with
      | none => none
      | some (false, st) => some st
      | some (true, st) => handleLoop n st

/-- `EVENT_NET_READ`. -/
def HandleRequest (data : Str) : Option MetaConn :=
  let iobuf := st.iobuf ++ data
  if 2 ^ 31 ≤ iobuf.length then none else handleLoop parses iobuf.length { st with iobuf := iobuf }

end MetaConn

/-! ## Numbers in a body -/

theorem extract_append {b t : Str} (n : Int64) (hb : ∀ c ∈ b, isSpace c = true)
    (ht : ∀ c ∈ t.head?, c.isDigit = false) : extract (b ++ (printInt n.toInt ++ t)) = some (n, t) := by
  have hne : t ≠ b ++ (printInt n.toInt ++ t) := by
    intro h
    have hlen := congrArg List.length h
    have hpos := List.length_pos_of_ne_nil (printInt_ne_nil n.toInt)
    simp only [List.length_append] at hlen
    omega
  have hlo := n.le_toInt
  have hhi := n.toInt_lt
  have hrange : ¬(t = b ++ (printInt n.toInt ++ t) ∨ n.toInt < -2 ^ 63 ∨ 2 ^ 63 ≤ n.toInt) := by
    rintro (h | h | h)
    · exact hne h
    · omega
    · omega
  unfold extract
  rw [strtoll_printInt_append n.toInt hb ht]
  simp only [if_neg hrange, Int64.ofInt_toInt]

theorem blank_space : ∀ c ∈ " ".toList, isSpace c = true := by simp [isSpace]

theorem head_blank (s : Str) : ∀ c ∈ (" ".toList ++ s).head?, c.isDigit = false := by
  intro c hc
  obtain rfl : ' ' = c := by simpa using hc
  rfl

/-- The chunks of a body are read back; a blank may stand before them. -/
theorem readChunks_chunkInfo {b t : Str} (hb : ∀ c ∈ b, isSpace c = true) (chunks : List HostedChunk) :
    readChunks chunks.length (b ++ (chunks.flatMap PrintChunkInfo ++ t)) = some chunks := by
  induction chunks generalizing b with
  | nil => rfl
  | cons c chunks ih =>
    have htext : b ++ ((c :: chunks).flatMap PrintChunkInfo ++ t) =
        b ++ (printInt c.fileId.toInt ++ (" ".toList ++ (printInt c.chunkId.toInt ++ (" ".toList ++
          (printInt c.chunkVersion.toInt ++ (" ".toList ++ (chunks.flatMap PrintChunkInfo ++ t))))))) := by
      simp [PrintChunkInfo]
    simp only [List.length_cons, readChunks, htext, extract_append _ hb (head_blank _), Option.bind_eq_bind,
      Option.bind_some, extract_append _ blank_space (head_blank _), ih blank_space]

theorem readIds_ids {b t : Str} (hb : ∀ c ∈ b, isSpace c = true) (ids : List Int64) :
    readIds ids.length (b ++ (ids.flatMap (fun c => printInt c.toInt ++ " ".toList) ++ t)) = some ids := by
  induction ids generalizing b with
  | nil => rfl
  | cons c ids ih =>
    have htext : b ++ ((c :: ids).flatMap (fun c => printInt c.toInt ++ " ".toList) ++ t) =
        b ++ (printInt c.toInt ++ (" ".toList ++ (ids.flatMap (fun c => printInt c.toInt ++ " ".toList) ++ t))) := by
      simp
    simp only [List.length_cons, readIds, htext, extract_append _ hb (head_blank _), Option.bind_eq_bind,
      Option.bind_some, ih blank_space]

/-! ## The headers -/

/-- `inet_ntoa`. -/
def inet_ntoa (a b c d : UInt8) : Str :=
  printInt a.toNat ++ ".".toList ++ printInt b.toNat ++ ".".toList ++ printInt c.toNat ++ ".".toList ++ printInt d.toNat

/-- What a chunk server starts with: the address of its host, and a key from a file of properties. -/
structure HelloMetaOp.Configured (op : HelloMetaOp) : Prop where
  address : ∃ a b c d, op.myLocation.hostname = inet_ntoa a b c d
  clusterKey : ∃ file, op.clusterKey = (loadProperties '=' file).getString "chunkServer.clusterKey".toList []

theorem clean_getString {delimiter : Char} {file key d : Str} (hd : Clean d) :
    Clean ((loadProperties delimiter file).getString key d) := by
  unfold Properties.getString
  cases h : loadProperties delimiter file key with
  | none => exact hd
  | some v =>
    refine ⟨fun hc => loadProperties_line h ((List.takeWhile_prefix _).subset hc), fun hc => ?_⟩
    simpa using List.mem_takeWhile_imp hc

theorem mem_inet_ntoa {a b c d : UInt8} {x : Char} (hx : x ∈ inet_ntoa a b c d) :
    x = '.' ∨ x = '-' ∨ x.isDigit = true := by
  have hdot (h : x ∈ ".".toList) : x = '.' := by simpa using h
  simp only [inet_ntoa, List.mem_append] at hx
  rcases hx with (((((h | h) | h) | h) | h) | h) | h
  · exact Or.inr (printInt_mem h)
  · exact Or.inl (hdot h)
  · exact Or.inr (printInt_mem h)
  · exact Or.inl (hdot h)
  · exact Or.inr (printInt_mem h)
  · exact Or.inl (hdot h)
  · exact Or.inr (printInt_mem h)

theorem clean_inet_ntoa (a b c d : UInt8) : Clean (inet_ntoa a b c d) := by
  constructor <;>
  · intro h
    rcases mem_inet_ntoa h with h | h | h <;> exact absurd h (by decide)

theorem clean_version : Clean KFS_VERSION_STR := by
  unfold Clean
  decide

namespace HelloMetaOp

variable {op : HelloMetaOp}

theorem Configured.sound (hc : op.Configured) : op.header.Sound "HELLO".toList := by
  obtain ⟨a, b, c, d, hhost⟩ := hc.address
  obtain ⟨file, hkey⟩ := hc.clusterKey
  have hhost : Clean op.myLocation.hostname := hhost ▸ clean_inet_ntoa a b c d
  have hkey : Clean op.clusterKey := hkey ▸ clean_getString ⟨by simp, by simp⟩
  exact .of_same (header ⟨0, ⟨[], 0⟩, [], 0, 0, 0, []⟩) (by decide +kernel) rfl rfl
    ⟨clean_version, clean_printInt _, hhost, clean_printInt _, hkey, clean_printInt _, clean_printInt _,
      clean_printInt _, clean_printInt_nat _, clean_printInt_nat _⟩

end HelloMetaOp

theorem MetaChunkStaleNotify.sound (op : MetaChunkStaleNotify) : op.header.Sound "STALE_CHUNKS".toList :=
  .of_same (header ⟨0, []⟩) (by decide +kernel) rfl rfl
    ⟨clean_printInt _, clean_version, clean_printInt_nat _, clean_printInt_nat _⟩

theorem removeLTSpaces_inet_ntoa (a b c d : UInt8) : removeLTSpaces (inet_ntoa a b c d) = inet_ntoa a b c d := by
  refine removeLTSpaces_of_forall fun x hx => ?_
  rcases mem_inet_ntoa hx with rfl | rfl | h
  · rfl
  · rfl
  · exact isBlank_of_isDigit h

namespace HelloMetaOp

variable {op : HelloMetaOp}

/-- HELLO as the metaserver reads its header. -/
def arrived (gClusterKey : Str) (op : HelloMetaOp) : MetaHello where
  opSeqno := op.seq
  status := if cString (removeLTSpaces op.clusterKey) ≠ gClusterKey then -EBADCLUSTERKEY else 0
  location := op.myLocation
  totalSpace := op.totalSpace.toUInt64
  usedSpace := op.usedSpace.toUInt64
  rackId := op.rackId
  numChunks := Int32.ofNat op.chunks.length
  contentLength := Int32.ofNat op.chunkInfo.length
  chunks := []

theorem length_chunks_le (op : HelloMetaOp) : op.chunks.length ≤ op.chunkInfo.length := by
  unfold chunkInfo
  induction op.chunks with
  | nil => exact le_rfl
  | cons c chunks ih =>
    have hpos : 1 ≤ (PrintChunkInfo c).length := by
      simp only [PrintChunkInfo, List.length_append]
      have : (" ".toList).length = 1 := rfl
      omega
    rw [List.flatMap_cons, List.length_append, List.length_cons]
    omega

theorem parse_header (hc : op.Configured) (gClusterKey : Str) (hlen : op.chunkInfo.length < 2 ^ 31) :
    parseHandlerHello gClusterKey op.header.props =
      if 0 < op.myLocation.port then some (op.arrived gClusterKey) else none := by
  obtain ⟨a, b, c, d, haddr⟩ := hc.address
  have hchunks := op.length_chunks_le.trans_lt hlen
  have hname : op.header.props.getString "Chunk-server-name".toList [] = op.myLocation.hostname := by
    have hprop : op.header.props "Chunk-server-name".toList =
        some (removeLTSpaces (' ' :: op.myLocation.hostname)) := rfl
    rw [Properties.getString, hprop, haddr, removeLTSpaces_cons rfl, removeLTSpaces_inet_ntoa]
    exact cString_of_not_mem (clean_inet_ntoa a b c d).2
  have hne : op.myLocation.hostname ≠ [] := by
    rw [haddr, inet_ntoa]
    simp [printInt_ne_nil]
  have hkey : op.header.props.getString "Cluster-key".toList [] = cString (removeLTSpaces op.clusterKey) := by
    have hprop : op.header.props "Cluster-key".toList = some (removeLTSpaces (' ' :: op.clusterKey)) := rfl
    rw [Properties.getString, hprop, removeLTSpaces_cons rfl]
    rfl
  have hport : op.header.props.getInt "Chunk-server-port".toList (-1) = op.myLocation.port :=
    Properties.getInt_eq rfl _
  have hseq : op.header.props.getLong "Cseq".toList (-1) = op.seq := Properties.getLong_eq rfl _
  have htotal : op.header.props.getLong "Total-space".toList 0 = op.totalSpace := Properties.getLong_eq rfl _
  have hused : op.header.props.getLong "Used-space".toList 0 = op.usedSpace := Properties.getLong_eq rfl _
  have hrack : op.header.props.getInt "Rack-id".toList (-1) = op.rackId := Properties.getInt_eq rfl _
  have hnum : op.header.props.getInt "Num-chunks".toList 0 = Int32.ofNat op.chunks.length :=
    Properties.getInt_eq_ofNat rfl hchunks _
  have hcontent : op.header.props.getInt "Content-length".toList 0 = Int32.ofNat op.chunkInfo.length :=
    Properties.getInt_eq_ofNat rfl hlen _
  unfold parseHandlerHello
  simp only [hname, hport, hkey, hseq, htotal, hused, hrack, hnum, hcontent]
  by_cases h : 0 < op.myLocation.port
  · simp [Wire.ServerLocation.IsValid, h, hne, arrived]
  · simp [Wire.ServerLocation.IsValid, h]

theorem cString_chunkInfo (op : HelloMetaOp) : cString op.chunkInfo = op.chunkInfo := by
  refine cString_of_not_mem fun h => ?_
  obtain ⟨c, -, hc⟩ := List.mem_flatMap.mp h
  have hblank : '\x00' ∉ " ".toList := by decide
  simp only [PrintChunkInfo, List.mem_append, hblank, (clean_printInt _).2, or_self] at hc

/-- **The front of HELLO at the metaserver**: it is taken when all of it is there, with all its chunks. -/
theorem HandleHelloMsg_part (hc : op.Configured) (gClusterKey : Str) (hport : 0 < op.myLocation.port)
    (hlen : op.chunkInfo.length < 2 ^ 31) {b : Str} (hb : b <+: op.Request)
    (hheader : op.header.text.length ≤ b.length) :
    HandleHelloMsg gClusterKey b op.header.text.length =
      if b = op.Request then some (.submit { op.arrived gClusterKey with chunks := op.chunks } []) else some .wait := by
  have htext : op.header.text <+: b :=
    List.prefix_of_prefix_length_le (List.prefix_append _ _) hb hheader
  obtain ⟨content, rfl⟩ := htext
  have hcontent : content <+: op.chunkInfo := (List.prefix_append_right_inj _).mp hb
  have hle := hcontent.length_le
  have hnat : (Int32.ofNat op.chunkInfo.length).toInt = op.chunkInfo.length := Int32.toInt_ofNat_of_lt hlen
  have hnum : (Int32.ofNat op.chunks.length).toInt = op.chunks.length :=
    Int32.toInt_ofNat_of_lt (op.length_chunks_le.trans_lt hlen)
  have hwhole : op.header.text ++ content = op.Request ↔ content = op.chunkInfo := List.append_right_inj _
  have hchunks : readChunks op.chunks.length op.chunkInfo = some op.chunks := by
    have := readChunks_chunkInfo (b := []) (t := []) (by simp) op.chunks
    rwa [List.nil_append, List.append_nil] at this
  unfold HandleHelloMsg
  rw [List.take_left, List.drop_left, hc.sound.parse]
  simp only [hwhole, ne_eq, not_true_eq_false, if_false, parse_header hc gClusterKey hlen, if_pos hport]
  by_cases hpos : 0 < op.chunkInfo.length
  · have hpos' : 0 < (op.arrived gClusterKey).contentLength := by
      rw [arrived, Int32.lt_iff_toInt_lt, hnat]
      simpa using hpos
    rw [if_pos hpos']
    simp only [arrived, hnat, hnum, Int.toNat_natCast, List.length_append, Nat.add_sub_cancel_left]
    by_cases hcut : content = op.chunkInfo
    · subst hcut
      rw [if_neg (lt_irrefl _), if_pos rfl, List.take_length, cString_chunkInfo, hchunks]
      simp
    · have hlt : content.length < op.chunkInfo.length :=
        lt_of_le_of_ne hle fun h => hcut (hcontent.eq_of_length h)
      rw [if_pos hlt, if_neg hcut]
  · have hnil : op.chunkInfo = [] := List.eq_nil_of_length_eq_zero (Nat.eq_zero_of_not_pos hpos)
    have hnone : op.chunks = [] := by
      have := op.length_chunks_le
      rw [hnil] at this
      exact List.eq_nil_of_length_eq_zero (Nat.le_zero.mp this)
    obtain rfl : content = [] := List.eq_nil_of_length_eq_zero (by rw [hnil] at hle; simpa using hle)
    simp [arrived, hnil, hnone]

/-- HELLO at the metaserver, with its chunks. -/
def hello (gClusterKey : Str) (op : HelloMetaOp) : MetaHello := { op.arrived gClusterKey with chunks := op.chunks }

/-- A read that does not complete HELLO is kept; the one that does leaves nothing. -/
theorem HandleHello_prefix (hc : op.Configured) (gClusterKey : Str) (hport : 0 < op.myLocation.port)
    (hheader : op.header.text.length ≤ MAX_RPC_HEADER_LEN) (hlen : op.Request.length < 2 ^ 31) {buf data : Str}
    (hb : buf ++ data <+: op.Request) :
    (buf ++ data = op.Request → HelloConn.HandleHello gClusterKey ⟨buf, false, false, []⟩ data =
        some ⟨[], true, false, [op.hello gClusterKey]⟩) ∧
      (buf ++ data ≠ op.Request → HelloConn.HandleHello gClusterKey ⟨buf, false, false, []⟩ data =
        some ⟨buf ++ data, false, false, []⟩) := by
  have hcount : ¬ 2 ^ 31 ≤ (buf ++ data).length := not_le.mpr (hb.length_le.trans_lt hlen)
  have hbody : op.chunkInfo.length < 2 ^ 31 := by
    rw [Request, List.length_append] at hlen
    omega
  have hfind := isMsgAvail_prefix ((hc.sound.isMsgAvail op.chunkInfo).trans (if_pos hheader)) hb
  unfold HelloConn.HandleHello
  simp only [if_neg hcount, hfind]
  by_cases hle : op.header.text.length ≤ (buf ++ data).length
  · rw [if_pos hle]
    simp only [HandleHelloMsg_part hc gClusterKey hport hbody hb hle]
    exact ⟨fun hwhole => by simp [if_pos hwhole, hello], fun hwhole => by simp [if_neg hwhole]⟩
  · have hwhole : buf ++ data ≠ op.Request := by
      intro h
      rw [h, Request, List.length_append] at hle
      omega
    rw [if_neg hle]
    exact ⟨fun h => absurd h hwhole, fun _ => rfl⟩

/-- HELLO reaches the metaserver, however the network splits it: one request with the same values, and nothing is
left. -/
def Arrives (gClusterKey : Str) (op : HelloMetaOp) : Prop :=
  ∀ reads : List Str, (∀ r ∈ reads, r ≠ []) → reads.flatten = op.Request →
    ∃ hello, reads.foldlM (HelloConn.HandleHello gClusterKey) .start = some ⟨[], true, false, [hello]⟩ ∧
      hello.opSeqno = op.seq ∧ hello.location = op.myLocation ∧ hello.totalSpace = op.totalSpace.toUInt64 ∧
      hello.usedSpace = op.usedSpace.toUInt64 ∧ hello.rackId = op.rackId ∧ hello.chunks = op.chunks

theorem Request_ne_nil (op : HelloMetaOp) : op.Request ≠ [] := by
  intro h
  have := congrArg List.length h
  simp [Request, Header.text, CRLF] at this

theorem arrives_iff (hc : op.Configured) (gClusterKey : Str) :
    op.Arrives gClusterKey ↔ 0 < op.myLocation.port ∧ op.header.text.length ≤ MAX_RPC_HEADER_LEN ∧
      op.Request.length < 2 ^ 31 := by
  constructor
  · intro h
    obtain ⟨hello, hrun, -⟩ := h [op.Request] (by simpa using op.Request_ne_nil) (by simp)
    simp only [List.foldlM_cons, List.foldlM_nil, bind_pure] at hrun
    have hcount : op.Request.length < 2 ^ 31 := by
      by_contra hcount
      have hoverflow : HelloConn.start.HandleHello gClusterKey op.Request = none := if_pos (not_lt.mp hcount)
      rw [hoverflow] at hrun
      cases hrun
    have hbody : op.chunkInfo.length < 2 ^ 31 := by
      rw [Request, List.length_append] at hcount
      omega
    have hfind : IsMsgAvail op.Request = _ := hc.sound.isMsgAvail op.chunkInfo
    simp only [HelloConn.HandleHello, HelloConn.start, List.nil_append, if_neg (not_le.mpr hcount), hfind] at hrun
    by_cases hheader : op.header.text.length ≤ MAX_RPC_HEADER_LEN
    · refine ⟨?_, hheader, hcount⟩
      by_contra hport
      have hbad : HandleHelloMsg gClusterKey op.Request op.header.text.length = some (.bad op.chunkInfo) := by
        rw [Request, HandleHelloMsg, List.take_left, List.drop_left, hc.sound.parse]
        simp only [ne_eq, not_true_eq_false, if_false, parse_header hc gClusterKey hbody, if_neg hport]
      simp [if_pos hheader, hbad] at hrun
    · simp [if_neg hheader] at hrun
  · rintro ⟨hport, hheader, hlen⟩ reads hne hflat
    have hreads : reads ≠ [] := by
      rintro rfl
      exact op.Request_ne_nil hflat.symm
    have hrun := @foldlM_pieces _ _ _ (fun b => (⟨b, false, false, []⟩ : HelloConn)) _ _
      (fun _ _ hb => HandleHello_prefix hc gClusterKey hport hheader hlen hb) _ hne hreads [] hflat
    exact ⟨_, hrun, rfl, rfl, rfl, rfl, rfl, rfl⟩

end HelloMetaOp

namespace MetaChunkStaleNotify

variable {op : MetaChunkStaleNotify} {parses : Str → Bool}

/-- The stale chunks as the chunk server has them. -/
def arrived (op : MetaChunkStaleNotify) : StaleChunksOp where
  seq := op.opSeqno
  contentLength := Int32.ofNat op.ids.length
  numStaleChunks := Int32.ofNat op.staleChunkIds.length
  staleChunkIds := op.staleChunkIds

theorem length_staleChunkIds_le (op : MetaChunkStaleNotify) : op.staleChunkIds.length ≤ op.ids.length := by
  unfold ids
  induction op.staleChunkIds with
  | nil => exact le_rfl
  | cons c l ih =>
    rw [List.flatMap_cons, List.length_append, List.length_cons, List.length_append]
    have : (" ".toList).length = 1 := rfl
    omega

theorem cString_ids (op : MetaChunkStaleNotify) : cString op.ids = op.ids := by
  refine cString_of_not_mem fun h => ?_
  obtain ⟨c, -, hc⟩ := List.mem_flatMap.mp h
  have hblank : '\x00' ∉ " ".toList := by decide
  simp only [List.mem_append, hblank, (clean_printInt _).2, or_self] at hc

theorem parse_header (hlen : op.ids.length < 2 ^ 31) :
    parseHandlerStaleChunks op.header.props = { op.arrived with staleChunkIds := [] } := by
  have hseq : op.header.props.getLong "Cseq".toList (-1) = op.opSeqno := Properties.getLong_eq rfl _
  have hcontent : op.header.props.getInt "Content-length".toList 0 = Int32.ofNat op.ids.length :=
    Properties.getInt_eq_ofNat rfl hlen _
  have hnum : op.header.props.getInt "Num-chunks".toList 0 = Int32.ofNat op.staleChunkIds.length :=
    Properties.getInt_eq_ofNat rfl (op.length_staleChunkIds_le.trans_lt hlen) _
  rw [parseHandlerStaleChunks, hseq, hcontent, hnum, arrived]

/-- The header is always short. -/
theorem length_header_le (hlen : op.ids.length < 2 ^ 31) : op.header.text.length ≤ MAX_RPC_HEADER_LEN := by
  have hseq : (printInt op.opSeqno.toInt).length ≤ 20 := by
    have hlo := op.opSeqno.le_toInt
    have hhi := op.opSeqno.toInt_lt
    exact length_printInt_le (by decide) (by omega)
  have hnum : (printInt op.staleChunkIds.length).length ≤ 11 :=
    length_printInt_le (by decide) (by have := op.length_staleChunkIds_le; omega)
  have hcontent : (printInt op.ids.length).length ≤ 11 := length_printInt_le (by decide) (by omega)
  have hframe : op.header.frame = (header ⟨0, []⟩).frame := rfl
  have hfixed : (header ⟨0, []⟩).frame = 68 := by decide +kernel
  have hvalues : (op.header.fields.map fun f => f.value.length).sum = (printInt op.opSeqno.toInt).length +
      (7 + ((printInt op.staleChunkIds.length).length + ((printInt op.ids.length).length + 0))) := rfl
  rw [Header.length_text, hframe, hfixed, hvalues, MAX_RPC_HEADER_LEN]
  omega

/-- **The front of the message at the chunk server**: it is taken when all of it is there, with all its numbers. -/
theorem HandleMsg_prefix (parses : Str → Bool) (hlen : op.ids.length < 2 ^ 31) {b : Str} (hb : b <+: op.request)
    (hheader : op.header.text.length ≤ b.length) (msgs : List MetaMsg) :
    MetaConn.HandleMsg parses ⟨b, msgs⟩ op.header.text.length =
      if b = op.request then some (true, ⟨[], msgs ++ [.stale op.arrived]⟩) else some (false, ⟨b, msgs⟩) := by
  have htext : op.header.text <+: b :=
    List.prefix_of_prefix_length_le (List.prefix_append _ _) hb hheader
  obtain ⟨content, rfl⟩ := htext
  have hcontent : content <+: op.ids := (List.prefix_append_right_inj _).mp hb
  have hle := hcontent.length_le
  have hnat : (Int32.ofNat op.ids.length).toInt = op.ids.length := Int32.toInt_ofNat_of_lt hlen
  have hnum : (Int32.ofNat op.staleChunkIds.length).toInt = op.staleChunkIds.length :=
    Int32.toInt_ofNat_of_lt (op.length_staleChunkIds_le.trans_lt hlen)
  have hwhole : op.header.text ++ content = op.request ↔ content = op.ids := List.append_right_inj _
  have hids : readIds op.staleChunkIds.length op.ids = some op.staleChunkIds := by
    have := readIds_ids (b := []) (t := []) (by simp) op.staleChunkIds
    rwa [List.nil_append, List.append_nil] at this
  have hreply : (op.header.text ++ content).take 2 ≠ "OK".toList := by
    have htake : (op.header.text ++ content).take 2 = ['S', 'T'] := rfl
    rw [htake]
    decide
  have hpos : ¬ Int32.ofNat op.ids.length < 0 := by
    rw [Int32.lt_iff_toInt_lt, hnat]
    simp
  unfold MetaConn.HandleMsg MetaConn.HandleCmd
  rw [if_neg hreply]
  simp only [List.take_left, List.drop_left, op.sound.parse, if_true, parse_header hlen, arrived, if_neg hpos, hnat,
    hnum, Int.toNat_natCast, hwhole]
  by_cases hcut : content = op.ids
  · subst hcut
    rw [if_neg (lt_irrefl _), if_pos rfl, List.take_length, cString_ids, hids]
    simp
  · have hlt : content.length < op.ids.length :=
      lt_of_le_of_ne hle fun h => hcut (hcontent.eq_of_length h)
    rw [if_pos hlt, if_neg hcut]

/-- A read that does not complete the message is kept; the one that does leaves nothing. -/
theorem HandleRequest_prefix (parses : Str → Bool) (hlen : op.request.length < 2 ^ 31) {buf data : Str}
    (hb : buf ++ data <+: op.request) :
    (buf ++ data = op.request → MetaConn.HandleRequest parses ⟨buf, []⟩ data = some ⟨[], [.stale op.arrived]⟩) ∧
      (buf ++ data ≠ op.request → MetaConn.HandleRequest parses ⟨buf, []⟩ data = some ⟨buf ++ data, []⟩) := by
  have hcount : ¬ 2 ^ 31 ≤ (buf ++ data).length := not_le.mpr (hb.length_le.trans_lt hlen)
  have hbody : op.ids.length < 2 ^ 31 := by
    rw [request, List.length_append] at hlen
    omega
  have hfind := isMsgAvail_prefix ((op.sound.isMsgAvail op.ids).trans (if_pos (op.length_header_le hbody))) hb
  have hempty (n : ℕ) (msgs : List MetaMsg) : MetaConn.handleLoop parses n ⟨[], msgs⟩ = some ⟨[], msgs⟩ := by
    cases n <;> rfl
  unfold MetaConn.HandleRequest
  simp only [if_neg hcount]
  by_cases hle : op.header.text.length ≤ (buf ++ data).length
  · obtain ⟨n, hn⟩ : ∃ n, (buf ++ data).length = n + 1 := Nat.exists_eq_add_one.mpr <| by
      have : 0 < op.header.text.length := by rw [Header.length_text, Header.frame]; omega
      omega
    rw [if_pos hle] at hfind
    simp only [hn, MetaConn.handleLoop, hfind, HandleMsg_prefix parses hbody hb hle]
    refine ⟨fun hwhole => ?_, fun hwhole => ?_⟩
    · rw [if_pos hwhole]
      exact hempty _ _
    · rw [if_neg hwhole]
  · have hwhole : buf ++ data ≠ op.request := by
      intro h
      rw [h, request, List.length_append] at hle
      omega
    rw [if_neg hle] at hfind
    refine ⟨fun h => absurd h hwhole, fun _ => ?_⟩
    cases hn : (buf ++ data).length with
    | zero => rfl
    | succ n => simp only [MetaConn.handleLoop, hfind]

/-- The stale chunks reach the chunk server, however the network splits them, and nothing is left. -/
def Arrives (parses : Str → Bool) (op : MetaChunkStaleNotify) : Prop :=
  ∀ reads : List Str, (∀ r ∈ reads, r ≠ []) → reads.flatten = op.request →
    ∃ sc, reads.foldlM (MetaConn.HandleRequest parses) ⟨[], []⟩ = some ⟨[], [.stale sc]⟩ ∧ sc.seq = op.opSeqno ∧
      sc.staleChunkIds = op.staleChunkIds

theorem arrives_iff (parses : Str → Bool) (op : MetaChunkStaleNotify) :
    op.Arrives parses ↔ op.request.length < 2 ^ 31 := by
  have hne : op.request ≠ [] := by
    intro h
    have := congrArg List.length h
    simp [request, Header.text, CRLF] at this
  constructor
  · intro h
    obtain ⟨sc, hrun, -⟩ := h [op.request] (by simpa using hne) (by simp)
    simp only [List.foldlM_cons, List.foldlM_nil, bind_pure] at hrun
    by_contra hcount
    have hoverflow : MetaConn.HandleRequest parses ⟨[], []⟩ op.request = none := if_pos (not_lt.mp hcount)
    rw [hoverflow] at hrun
    cases hrun
  · intro hlen reads hreads hflat
    have hnil : reads ≠ [] := by
      rintro rfl
      exact hne hflat.symm
    have hrun := @foldlM_pieces _ _ _ (fun b => (⟨b, []⟩ : MetaConn)) _ _
      (fun _ _ hb => HandleRequest_prefix parses hlen hb) _ hreads hnil [] hflat
    exact ⟨_, hrun, rfl, rfl⟩

end MetaChunkStaleNotify

/-- **The codecs of HELLO and of stale chunks.** Both messages arrive with the lists that have been sent, however the
network splits them, exactly when the receiver can count their bytes with an `int` and, for HELLO, when its header is
short and the port is one. -/
theorem hello_stale_codec (gClusterKey : Str) (parses : Str → Bool) :
    (∀ op : HelloMetaOp, op.Configured →
      (op.Arrives gClusterKey ↔ 0 < op.myLocation.port ∧ op.header.text.length ≤ MAX_RPC_HEADER_LEN ∧
        op.Request.length < 2 ^ 31)) ∧
    ∀ op : MetaChunkStaleNotify, op.Arrives parses ↔ op.request.length < 2 ^ 31 :=
  ⟨fun _ hc => HelloMetaOp.arrives_iff hc gClusterKey, fun op => op.arrives_iff parses⟩

/-- A chunk server on the host `10.0.0.1`. -/
def helloOf (clusterKey : Str) (chunks : List HostedChunk) : HelloMetaOp :=
  ⟨1, ⟨inet_ntoa 10 0 0 1, 30000⟩, clusterKey, 2, 1000, 64, chunks⟩

theorem configured_helloOf {clusterKey : Str} (chunks : List HostedChunk)
    (hkey : (loadProperties '=' ("chunkServer.clusterKey=".toList ++ clusterKey)).getString
      "chunkServer.clusterKey".toList [] = clusterKey) : (helloOf clusterKey chunks).Configured where
  address := ⟨10, 0, 0, 1, rfl⟩
  clusterKey := ⟨_, hkey.symm⟩

theorem hello_stale_codec_short : (helloOf ['k'] [⟨4, 7, 1⟩, ⟨4, 8, 2⟩]).Arrives "kfs".toList ∧
    (⟨3, [7, 8]⟩ : MetaChunkStaleNotify).Arrives fun _ => true := by
  have hshort : (helloOf ['k'] [⟨4, 7, 1⟩, ⟨4, 8, 2⟩]).header.text.length ≤ MAX_RPC_HEADER_LEN ∧
      (helloOf ['k'] [⟨4, 7, 1⟩, ⟨4, 8, 2⟩]).Request.length < 2 ^ 31 := by decide +kernel
  have hstale : (⟨3, [7, 8]⟩ : MetaChunkStaleNotify).request.length < 2 ^ 31 := by decide +kernel
  obtain ⟨hhello, hnotify⟩ := hello_stale_codec "kfs".toList fun _ => true
  exact ⟨(hhello _ (configured_helloOf _ (by decide +kernel))).mpr ⟨by decide, hshort⟩, (hnotify _).mpr hstale⟩

/-- With a cluster key of a thousand characters no HELLO arrives, and with any key no HELLO with two thousand million
chunks. -/
theorem hello_lost : ¬ (helloOf (List.replicate 1000 'k') []).Arrives "kfs".toList ∧
    ¬ (helloOf ['k'] (List.replicate (2 ^ 31) ⟨4, 7, 1⟩)).Arrives "kfs".toList := by
  constructor
  · rw [HelloMetaOp.arrives_iff (configured_helloOf _ (by decide +kernel))]
    have hlong : ¬ (helloOf (List.replicate 1000 'k') []).header.text.length ≤ MAX_RPC_HEADER_LEN := by decide +kernel
    exact fun h => hlong h.2.1
  · rw [HelloMetaOp.arrives_iff (configured_helloOf _ (by decide +kernel))]
    rintro ⟨-, -, h⟩
    have hle := (helloOf ['k'] (List.replicate (2 ^ 31) ⟨4, 7, 1⟩)).length_chunks_le
    have hchunks : (helloOf ['k'] (List.replicate (2 ^ 31) ⟨4, 7, 1⟩)).chunks.length = 2 ^ 31 := List.length_replicate
    rw [hchunks] at hle
    rw [HelloMetaOp.Request, List.length_append] at h
    omega

end Kfs
