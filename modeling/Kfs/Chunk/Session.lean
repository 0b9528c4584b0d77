import Kfs.Base
import Mathlib.Tactic

/-!
# The session with the metaserver

A chunk server talks to the metaserver over one connection at a time. A timer connects again when it is lost, says
HELLO, sends again what has not been answered, and then sends what is queued.

* `HelloMetaOp`, `MetaOp`, `Msg`: what is written on a connection, besides the answers to the metaserver's own requests;
* `MetaServerSM`, `MetaServerSM.step`: the state machine; a connection is the list of the messages written on it;
* `HelloFirst`, `Session`, **`session_order`**: HELLO opens every connection, and no operation is lost with one.
-/

namespace Kfs

structure Wire.ServerLocation where
  hostname : Str
  port : Int32
deriving DecidableEq

/-- `ChunkInfo_t`, as far as HELLO reports it. -/
structure HostedChunk where
  fileId : Int64
  chunkId : Int64
  chunkVersion : Int64
deriving DecidableEq

structure HelloMetaOp where
  seq : Int64
  myLocation : Wire.ServerLocation
  clusterKey : Str
  rackId : Int32
  totalSpace : Int64
  usedSpace : Int64
  chunks : List HostedChunk
deriving DecidableEq

/-- `LeaseRenewOp` and `CorruptChunkOp`, without the sequence number. -/
inductive MetaCmd
  | leaseRenew (chunkId leaseId : Int64) (leaseType : Str)
  | corruptChunk (fid chunkId : Int64)
deriving DecidableEq

/-- What a chunk server asks the metaserver for. -/
structure MetaOp where
  seq : Int64
  cmd : MetaCmd
deriving DecidableEq

/-- A message on a connection to the metaserver. `Rpc` are the metaserver's requests when they have been executed. -/
inductive Msg (Rpc : Type)
  | hello (op : HelloMetaOp)
  | request (op : MetaOp)
  | response (op : Rpc)
deriving DecidableEq

def EBADCLUSTERKEY : ℤ := 1006

/-- `closed` are the connections that have been lost, the latest first. -/
structure MetaServerSM (Rpc : Type) where
  mCmdSeq : Int64
  mRackId : Int32
  mClusterKey : Str
  mSentHello : Bool
  mHelloOp : Option HelloMetaOp
  mPendingOps : List MetaOp
  mPendingResponses : List Rpc
  mDispatchedOps : List MetaOp
  mNetConnection : Option (List (Msg Rpc))
  closed : List (List (Msg Rpc))

/-- What a timeout finds: whether the metaserver can be reached, and what HELLO has to tell. -/
structure MetaEnv where
  connects : Bool
  myLocation : Wire.ServerLocation
  totalSpace : Int64
  usedSpace : Int64
  hostedChunks : List HostedChunk

/-- `cmdDone`: a request of the metaserver has been executed. `reply`: `Cseq` and `Status` of an answer. -/
inductive SessionEv (Rpc : Type)
  | timeout (env : MetaEnv)
  | enqueueOp (cmd : MetaCmd)
  | cmdDone (op : Rpc)
  | netError
  | reply (seq : Int64) (status : ℤ)

namespace MetaServerSM

variable {Rpc : Type} (st : MetaServerSM Rpc) (env : MetaEnv)

/-- `none`: there is no connection to write to. -/
def Write (m : Msg Rpc) : Option (MetaServerSM Rpc) :=
  st.mNetConnection.map fun log => { st with mNetConnection := some (log ++ [m]) }

/-- `none`: the metaserver cannot be reached. -/
def Connect : Option (MetaServerSM Rpc) :=
  if env.connects then some { st with mNetConnection := some [] } else none

/-- The connection that there is, or a new one. -/
def connected : Option (MetaServerSM Rpc) := if st.mNetConnection.isNone then st.Connect env else some st

/-- The end of a HELLO that has been executed. -/
def DispatchHello : Option (MetaServerSM Rpc) :=
  match st.connected env with
  | none => some { st with mHelloOp := none }
  | some st => do
    let op ← st.mHelloOp
    let st ← st.Write (.hello op)
    some { st with mSentHello := true, mHelloOp := none }

/-- The operation asks the chunk manager and is done in the same call. -/
def SendHello : Option (MetaServerSM Rpc) :=
  if st.mHelloOp.isSome then some st
  else
    match st.connected env with
    | none => some st
    | some st =>
      { st with
        mCmdSeq := st.mCmdSeq + 1
        mHelloOp := some ⟨st.mCmdSeq, env.myLocation, st.mClusterKey, st.mRackId, env.totalSpace, env.usedSpace,
          env.hostedChunks⟩ }.DispatchHello env

/-- Everything that has not been answered is written again. -/
def ResubmitOps : Option (MetaServerSM Rpc) := st.mDispatchedOps.foldlM (fun st op => st.Write (.request op)) st

/-- The loop of `DispatchOps`: an operation counts as dispatched before the connection is looked at. -/
def dispatchOps : List MetaOp → MetaServerSM Rpc → Option (MetaServerSM Rpc)
  | [], st => some { st with mPendingOps := [] }
  | op :: ops, st =>
    if st.mNetConnection.isNone ∨ ¬st.mSentHello then
      some { st with mPendingOps := ops, mDispatchedOps := st.mDispatchedOps ++ [op] }
    else ({ st with mDispatchedOps := st.mDispatchedOps ++ [op] }.Write (.request op)).bind (dispatchOps ops)

def DispatchOps : Option (MetaServerSM Rpc) := dispatchOps st.mPendingOps st

def dispatchResponses : List Rpc → MetaServerSM Rpc → Option (MetaServerSM Rpc)
  | [], st => some { st with mPendingResponses := [] }
  | op :: ops, st => (st.Write (.response op)).bind (dispatchResponses ops)

/-- Nothing is checked before an answer is written. -/
def DispatchResponse : Option (MetaServerSM Rpc) := dispatchResponses st.mPendingResponses st

def Timeout : Option (MetaServerSM Rpc) :=
  if st.mNetConnection.isNone then
    match st.Connect env with
    | none => some st
    | some st => do
      let st ← st.SendHello env
      let st ← st.ResubmitOps
      let st ← st.DispatchOps
      st.DispatchResponse
  else do
    let st ← st.DispatchOps
    st.DispatchResponse

def EnqueueOp (cmd : MetaCmd) : MetaServerSM Rpc :=
  { st with mCmdSeq := st.mCmdSeq + 1, mPendingOps := st.mPendingOps ++ [⟨st.mCmdSeq, cmd⟩] }

def EnqueueResponse (op : Rpc) : MetaServerSM Rpc := { st with mPendingResponses := st.mPendingResponses ++ [op] }

/-- `EVENT_NET_ERROR`. -/
def HandleNetError : MetaServerSM Rpc :=
  { st with mSentHello := false, mNetConnection := none, closed := st.mNetConnection.toList ++ st.closed }

/-- The operation with the sequence number of the reply is done. With a wrong cluster key the chunk server exits. -/
def HandleReply (seq : Int64) (status : ℤ) : Option (MetaServerSM Rpc) :=
  if status = -EBADCLUSTERKEY then none
  else some { st with mDispatchedOps := st.mDispatchedOps.eraseP fun op => op.seq = seq }

/-- `none`: the process is at its end. A reply is read from a connection. -/
def step : SessionEv Rpc → Option (MetaServerSM Rpc)
  | .timeout env => st.Timeout env
  | .enqueueOp cmd => some (st.EnqueueOp cmd)
  | .cmdDone op => some (st.EnqueueResponse op)
  | .netError => some st.HandleNetError
  | .reply seq status => if st.mNetConnection.isNone then some st else st.HandleReply seq status

def run (es : List (SessionEv Rpc)) : Option (MetaServerSM Rpc) := es.foldlM step st

/-- The state machine as it is built, for a cluster key and a rack. -/
def start (clusterKey : Str) (rackId : Int32) : MetaServerSM Rpc where
  mCmdSeq := 1
  mRackId := rackId
  mClusterKey := clusterKey
  mSentHello := false
  mHelloOp := none
  mPendingOps := []
  mPendingResponses := []
  mDispatchedOps := []
  mNetConnection := none
  closed := []

/-- All connections that there have been. -/
def logs : List (List (Msg Rpc)) := st.mNetConnection.toList ++ st.closed

/-- What the metaserver has not answered. -/
def outstanding : List MetaOp := st.mDispatchedOps ++ st.mPendingOps

end MetaServerSM

/-! ## The other end -/

def Msg.isHello {Rpc : Type} : Msg Rpc → Bool
  | .hello _ => true
  | _ => false

/-- What the metaserver's `ChunkServer` knows about its connection. -/
structure HelloState where
  mHelloDone : Bool
  mDown : Bool

/-- A connection whose first message is not HELLO is dropped. -/
def HelloState.HandleMsg {Rpc : Type} (s : HelloState) (m : Msg Rpc) : HelloState :=
  if s.mDown ∨ s.mHelloDone then s
  else if m.isHello then { s with mHelloDone := true }
  else { s with mDown := true }

/-! ## The order on a connection -/

variable {Rpc : Type}

/-- HELLO comes first, and only once. -/
def HelloFirst (log : List (Msg Rpc)) : Prop :=
  ∃ op rest, log = .hello op :: rest ∧ ∀ m ∈ rest, m.isHello = false

theorem HelloFirst.append {log ms : List (Msg Rpc)} (h : HelloFirst log) (hms : ∀ m ∈ ms, m.isHello = false) :
    HelloFirst (log ++ ms) := by
  obtain ⟨op, rest, rfl, hrest⟩ := h
  refine ⟨op, rest ++ ms, rfl, fun m hm => ?_⟩
  rcases List.mem_append.mp hm with hm | hm
  · exact hrest m hm
  · exact hms m hm

theorem HelloFirst.tail {log : List (Msg Rpc)} {m : Msg Rpc} (h : HelloFirst log) (hm : m ∈ log)
    (hello : m.isHello = false) : m ∈ log.tail := by
  obtain ⟨op, rest, rfl, -⟩ := h
  rcases List.mem_cons.mp hm with rfl | hm
  · exact absurd hello (by simp [Msg.isHello])
  · exact hm

theorem HelloState.HandleMsg_done {s : HelloState} (hs : s.mHelloDone = true) (ms : List (Msg Rpc)) :
    ms.foldl HelloState.HandleMsg s = s := by
  induction ms with
  | nil => rfl
  | cons m ms ih => rw [List.foldl_cons, HandleMsg, if_pos (Or.inr hs), ih]

/-- The metaserver keeps a connection that HELLO has opened. -/
theorem HelloFirst.accepted {log : List (Msg Rpc)} (h : HelloFirst log) :
    (log.foldl HelloState.HandleMsg ⟨false, false⟩).mDown = false := by
  obtain ⟨op, rest, rfl, -⟩ := h
  have hfirst : HelloState.HandleMsg ⟨false, false⟩ (.hello op : Msg Rpc) = ⟨true, false⟩ := rfl
  rw [List.foldl_cons, hfirst, HelloState.HandleMsg_done rfl]

theorem isHello_requests (ops : List MetaOp) : ∀ m ∈ ops.map (@Msg.request Rpc), m.isHello = false := by
  intro m hm
  obtain ⟨op, -, rfl⟩ := List.mem_map.mp hm
  rfl

theorem isHello_responses (ops : List Rpc) : ∀ m ∈ ops.map Msg.response, m.isHello = false := by
  intro m hm
  obtain ⟨op, -, rfl⟩ := List.mem_map.mp hm
  rfl

/-! ## What a timeout writes -/

namespace MetaServerSM

variable {st st' : MetaServerSM Rpc} {env : MetaEnv} {log : List (Msg Rpc)}

theorem Write_eq (h : st.mNetConnection = some log) (m : Msg Rpc) :
    st.Write m = some { st with mNetConnection := some (log ++ [m]) } := by
  rw [Write, h, Option.map_some]

theorem foldlM_Write (ops : List MetaOp) :
    ∀ (st : MetaServerSM Rpc) (log : List (Msg Rpc)), st.mNetConnection = some log →
      ops.foldlM (fun st op => st.Write (.request op)) st =
        some { st with mNetConnection := some (log ++ ops.map .request) } := by
  induction ops with
  | nil =>
    intro st log h
    cases st
    simp_all
  | cons op ops ih =>
    intro st log h
    rw [List.foldlM_cons, Write_eq h, Option.bind_eq_bind, Option.bind_some,
      ih { st with mNetConnection := some (log ++ [.request op]) } _ rfl]
    simp

theorem ResubmitOps_eq (h : st.mNetConnection = some log) :
    st.ResubmitOps = some { st with mNetConnection := some (log ++ st.mDispatchedOps.map .request) } :=
  foldlM_Write _ st log h

theorem dispatchOps_eq (ops : List MetaOp) :
    ∀ (st : MetaServerSM Rpc) (log : List (Msg Rpc)), st.mNetConnection = some log → st.mSentHello = true →
      dispatchOps ops st = some { st with
        mPendingOps := []
        mDispatchedOps := st.mDispatchedOps ++ ops
        mNetConnection := some (log ++ ops.map .request) } := by
  induction ops with
  | nil =>
    intro st log h _
    cases st
    simp_all [dispatchOps]
  | cons op ops ih =>
    intro st log h hs
    have hwrite := @Write_eq Rpc { st with mDispatchedOps := st.mDispatchedOps ++ [op] } _ h (.request op)
    have hrest := ih { st with
      mDispatchedOps := st.mDispatchedOps ++ [op]
      mNetConnection := some (log ++ [.request op]) } _ rfl hs
    rw [dispatchOps, if_neg (by simp [h, hs]), hwrite, Option.bind_some, hrest]
    simp

theorem dispatchResponses_eq (ops : List Rpc) :
    ∀ (st : MetaServerSM Rpc) (log : List (Msg Rpc)), st.mNetConnection = some log →
      dispatchResponses ops st = some { st with
        mPendingResponses := []
        mNetConnection := some (log ++ ops.map .response) } := by
  induction ops with
  | nil =>
    intro st log h
    cases st
    simp_all [dispatchResponses]
  | cons op ops ih =>
    intro st log h
    rw [dispatchResponses, Write_eq h, Option.bind_some,
      ih { st with mNetConnection := some (log ++ [.response op]) } _ rfl]
    simp

/-- The queues, as they are written at the end of a timeout. -/
def flushed (st : MetaServerSM Rpc) (log : List (Msg Rpc)) : MetaServerSM Rpc :=
  { st with
    mPendingOps := []
    mPendingResponses := []
    mDispatchedOps := st.mDispatchedOps ++ st.mPendingOps
    mNetConnection := some (log ++ (st.mPendingOps.map .request ++ st.mPendingResponses.map .response)) }

theorem flush_eq (h : st.mNetConnection = some log) (hs : st.mSentHello = true) :
    (do let st ← st.DispatchOps; st.DispatchResponse) = some (st.flushed log) := by
  rw [DispatchOps, dispatchOps_eq _ st log h hs, Option.bind_eq_bind, Option.bind_some, DispatchResponse,
    dispatchResponses_eq _ _ _ rfl]
  simp [flushed]

/-- The HELLO of a timeout. -/
def helloOp (st : MetaServerSM Rpc) (env : MetaEnv) : HelloMetaOp :=
  ⟨st.mCmdSeq, env.myLocation, st.mClusterKey, st.mRackId, env.totalSpace, env.usedSpace, env.hostedChunks⟩

theorem SendHello_eq (h : st.mNetConnection = some log) (hidle : st.mHelloOp = none) :
    st.SendHello env = some { st with
      mCmdSeq := st.mCmdSeq + 1
      mSentHello := true
      mHelloOp := none
      mNetConnection := some (log ++ [.hello (st.helloOp env)]) } := by
  simp [SendHello, DispatchHello, connected, Write, helloOp, h, hidle]

/-- The state when a new connection is ready for what is queued. -/
def greeted (st : MetaServerSM Rpc) (env : MetaEnv) : MetaServerSM Rpc :=
  { st with
    mCmdSeq := st.mCmdSeq + 1
    mSentHello := true
    mHelloOp := none
    mNetConnection := some (.hello (st.helloOp env) :: st.mDispatchedOps.map .request) }

/-- **What a timeout does**: nothing, as long as the metaserver cannot be reached; on a new connection HELLO, the
operations without an answer, and the queues, in this order; on the old one the queues. -/
theorem Timeout_cases (hidle : st.mHelloOp = none) (hsent : st.mSentHello = st.mNetConnection.isSome) :
    st.mNetConnection = none ∧ st.Timeout env = some st ∨
      st.mNetConnection = none ∧ st.Timeout env =
        some ((st.greeted env).flushed (.hello (st.helloOp env) :: st.mDispatchedOps.map .request)) ∨
      ∃ log, st.mNetConnection = some log ∧ st.Timeout env = some (st.flushed log) := by
  cases h : st.mNetConnection with
  | some log =>
    rw [h] at hsent
    exact Or.inr (Or.inr ⟨log, rfl, by simp only [Timeout, h]; exact flush_eq h hsent⟩)
  | none =>
    cases hc : env.connects with
    | false => exact Or.inl ⟨rfl, by simp [Timeout, Connect, h, hc]⟩
    | true =>
      refine Or.inr (Or.inl ⟨rfl, ?_⟩)
      have hconnect : st.Connect env = some { st with mNetConnection := some [] } := by simp [Connect, hc]
      have hhello := @SendHello_eq Rpc { st with mNetConnection := some [] } env _ rfl hidle
      simp only [Timeout, h, hconnect, Option.isNone_none, if_true, hhello, Option.bind_eq_bind, Option.bind_some]
      rw [ResubmitOps_eq rfl, Option.bind_some]
      exact @flush_eq Rpc (st.greeted env) _ rfl rfl

end MetaServerSM

/-! ## Every run -/

/-- No HELLO is left over between two events, there is a connection exactly when HELLO has been sent on it, and what has
been dispatched is on it. -/
structure Session (st : MetaServerSM Rpc) : Prop where
  idle : st.mHelloOp = none
  sentHello : st.mSentHello = st.mNetConnection.isSome
  first : ∀ log ∈ st.logs, HelloFirst log
  sent : ∀ log, st.mNetConnection = some log → ∀ op ∈ st.mDispatchedOps, .request op ∈ log

/-- Where operations are when connections have been lost: queued, dispatched, or written after the HELLO of a connection
that is newer than `old`. -/
def CarriedOver (ops : List MetaOp) (old : List (List (Msg Rpc))) (st : MetaServerSM Rpc) : Prop :=
  ∃ past, st.closed = past ++ old ∧ ∀ op ∈ ops, op ∈ st.mPendingOps ∨ op ∈ st.mDispatchedOps ∨
    ∃ log ∈ st.mNetConnection.toList ++ past, .request op ∈ log.tail

namespace Session

open MetaServerSM

variable {st st' : MetaServerSM Rpc} {env : MetaEnv} {log : List (Msg Rpc)} {ops : List MetaOp}
  {old : List (List (Msg Rpc))} {e : SessionEv Rpc}

theorem start (clusterKey : Str) (rackId : Int32) : Session (@MetaServerSM.start Rpc clusterKey rackId) where
  idle := rfl
  sentHello := rfl
  first := by simp [logs, MetaServerSM.start]
  sent := by simp [MetaServerSM.start]

theorem current (hs : Session st) (h : st.mNetConnection = some log) : HelloFirst log :=
  hs.first log (by simp [logs, h])

/-- What has been dispatched stands behind the HELLO of the connection. -/
theorem behind (hs : Session st) (h : st.mNetConnection = some log) {op : MetaOp} (hop : op ∈ st.mDispatchedOps) :
    .request op ∈ log.tail :=
  (hs.current h).tail (hs.sent log h op hop) rfl

/-- The queues are written on a connection that HELLO has opened. -/
theorem flushed (hidle : st.mHelloOp = none) (hsent : st.mSentHello = true) (hlog : HelloFirst log)
    (hclosed : ∀ l ∈ st.closed, HelloFirst l) (hops : ∀ op ∈ st.mDispatchedOps, .request op ∈ log) :
    Session (st.flushed log) where
  idle := hidle
  sentHello := hsent
  first := by
    have hqueues (m : Msg Rpc) (hm : m ∈ st.mPendingOps.map Msg.request ++ st.mPendingResponses.map .response) :
        m.isHello = false := by
      rcases List.mem_append.mp hm with hm | hm
      · exact isHello_requests _ m hm
      · exact isHello_responses _ m hm
    intro l hl
    rcases List.mem_cons.mp hl with rfl | hl
    · exact hlog.append hqueues
    · exact hclosed l hl
  sent := by
    intro l hl op hop
    obtain rfl := Option.some.inj hl
    rcases List.mem_append.mp hop with hop | hop
    · exact List.mem_append_left _ (hops op hop)
    · exact List.mem_append_right _ (List.mem_append_left _ (List.mem_map_of_mem hop))

theorem closed_first (hs : Session st) : ∀ l ∈ st.closed, HelloFirst l :=
  fun l hl => hs.first l (List.mem_append_right _ hl)

theorem timeout (hs : Session st) (h : st.Timeout env = some st') : Session st' := by
  rcases @Timeout_cases Rpc st env hs.idle hs.sentHello with ⟨-, he⟩ | ⟨-, he⟩ | ⟨log, hc, he⟩
  · obtain rfl := Option.some.inj (he.symm.trans h)
    exact hs
  · obtain rfl := Option.some.inj (he.symm.trans h)
    refine flushed rfl rfl ⟨_, _, rfl, isHello_requests _⟩ hs.closed_first ?_
    intro op hop
    exact List.mem_cons_of_mem _ (List.mem_map_of_mem hop)
  · obtain rfl := Option.some.inj (he.symm.trans h)
    exact flushed hs.idle (by rw [hs.sentHello, hc]; rfl) (hs.current hc) hs.closed_first (hs.sent log hc)

theorem netError (hs : Session st) : Session st.HandleNetError where
  idle := hs.idle
  sentHello := rfl
  first := hs.first
  sent := by intro log h; simp [HandleNetError] at h

theorem reply (hs : Session st) {seq : Int64} {status : ℤ} (h : st.HandleReply seq status = some st') :
    Session st' := by
  unfold HandleReply at h
  split_ifs at h
  obtain rfl := Option.some.inj h
  exact { hs with sent := fun log hc op hop => hs.sent log hc op (List.mem_of_mem_eraseP hop) }

theorem step (hs : Session st) (h : st.step e = some st') : Session st' := by
  cases e with
  | timeout env => exact hs.timeout h
  | enqueueOp cmd =>
    obtain rfl := Option.some.inj h
    exact { hs with }
  | cmdDone op =>
    obtain rfl := Option.some.inj h
    exact { hs with }
  | netError =>
    obtain rfl := Option.some.inj h
    exact hs.netError
  | reply seq status =>
    simp only [MetaServerSM.step] at h
    split_ifs at h
    · obtain rfl := Option.some.inj h
      exact hs
    · exact hs.reply h

/-- A chunk server ends only when it has the wrong cluster key: it never writes without a connection. -/
theorem defined (hs : Session st) (h : st.step e = none) : ∃ seq, e = .reply seq (-EBADCLUSTERKEY) := by
  cases e with
  | timeout env =>
    rcases @Timeout_cases Rpc st env hs.idle hs.sentHello with ⟨-, he⟩ | ⟨-, he⟩ | ⟨log, -, he⟩ <;>
      simp [MetaServerSM.step, he] at h
  | enqueueOp cmd => simp [MetaServerSM.step] at h
  | cmdDone op => simp [MetaServerSM.step] at h
  | netError => simp [MetaServerSM.step] at h
  | reply seq status =>
    simp only [MetaServerSM.step, HandleReply] at h
    split_ifs at h with _ hstatus
    exact ⟨seq, by rw [hstatus]⟩

theorem run (hs : Session st) {es : List (SessionEv Rpc)} (h : st.run es = some st') : Session st' := by
  induction es generalizing st with
  | nil =>
    obtain rfl := Option.some.inj h
    exact hs
  | cons e es ih =>
    rw [MetaServerSM.run, List.foldlM_cons] at h
    obtain ⟨st₁, h₁, h₂⟩ := Option.bind_eq_some_iff.mp h
    exact ih (hs.step h₁) h₂

end Session

namespace CarriedOver

open MetaServerSM

variable {st st' : MetaServerSM Rpc} {env : MetaEnv} {log : List (Msg Rpc)} {ops : List MetaOp}
  {old : List (List (Msg Rpc))} {e : SessionEv Rpc}

/-- What is queued is dispatched and what is dispatched stays so; the connection only grows. -/
theorem flushed (hc : CarriedOver ops old st) (hlog : ∀ l, st.mNetConnection = some l → l.tail ⊆ log.tail)
    (hne : log ≠ []) : CarriedOver ops old (st.flushed log) := by
  obtain ⟨past, hpast, hops⟩ := hc
  refine ⟨past, hpast, fun op hop => ?_⟩
  rcases hops op hop with h | h | ⟨l, hl, h⟩
  · exact Or.inr (Or.inl (List.mem_append_right _ h))
  · exact Or.inr (Or.inl (List.mem_append_left _ h))
  · refine Or.inr (Or.inr ?_)
    rcases List.mem_append.mp hl with hl | hl
    · refine ⟨_, List.mem_cons_self, ?_⟩
      rw [List.tail_append_of_ne_nil hne]
      exact List.mem_append_left _ (hlog l (Option.mem_toList.mp hl) h)
    · exact ⟨l, List.mem_cons_of_mem _ hl, h⟩

theorem timeout (hs : Session st) (hc : CarriedOver ops old st) (h : st.Timeout env = some st') :
    CarriedOver ops old st' := by
  rcases @Timeout_cases Rpc st env hs.idle hs.sentHello with ⟨-, he⟩ | ⟨hn, he⟩ | ⟨log, hl, he⟩
  · obtain rfl := Option.some.inj (he.symm.trans h)
    exact hc
  · obtain rfl := Option.some.inj (he.symm.trans h)
    have hgreeted : CarriedOver ops old (st.greeted env) := by
      obtain ⟨past, hpast, hops⟩ := hc
      refine ⟨past, hpast, fun op hop => ?_⟩
      rcases hops op hop with h | h | ⟨l, hl, h⟩
      · exact Or.inl h
      · exact Or.inr (Or.inl h)
      · rw [hn] at hl
        exact Or.inr (Or.inr ⟨l, List.mem_cons_of_mem _ hl, h⟩)
    refine hgreeted.flushed (fun l hl => ?_) (List.cons_ne_nil _ _)
    obtain rfl := Option.some.inj hl
    exact fun _ h => h
  · obtain rfl := Option.some.inj (he.symm.trans h)
    refine hc.flushed (fun l hl' => ?_) ?_
    · obtain rfl := Option.some.inj (hl.symm.trans hl')
      exact fun _ h => h
    · obtain ⟨op, rest, rfl, -⟩ := hs.current hl
      exact List.cons_ne_nil _ _

/-- The lost connection joins those that are newer than `old`. -/
theorem netError (hc : CarriedOver ops old st) : CarriedOver ops old st.HandleNetError := by
  obtain ⟨past, hpast, hops⟩ := hc
  exact ⟨st.mNetConnection.toList ++ past, by simp [HandleNetError, hpast], hops⟩

/-- An operation that is done has been written on the connection from which its reply was read. -/
theorem reply (hs : Session st) (hc : CarriedOver ops old st)
    {seq : Int64} {status : ℤ} (hl : st.mNetConnection = some log)
    (h : st.HandleReply seq status = some st') : CarriedOver ops old st' := by
  unfold HandleReply at h
  split_ifs at h
  obtain rfl := Option.some.inj h
  obtain ⟨past, hpast, hops⟩ := hc
  refine ⟨past, hpast, fun op hop => ?_⟩
  rcases hops op hop with h | h | h
  · exact Or.inl h
  · exact Or.inr (Or.inr ⟨log, by simp [hl], hs.behind hl h⟩)
  · exact Or.inr (Or.inr h)

theorem step (hs : Session st) (hc : CarriedOver ops old st) (h : st.step e = some st') : CarriedOver ops old st' := by
  cases e with
  | timeout env => exact hc.timeout hs h
  | enqueueOp cmd =>
    obtain rfl := Option.some.inj h
    obtain ⟨past, hpast, hops⟩ := hc
    exact ⟨past, hpast, fun op hop => (hops op hop).imp_left fun h => List.mem_append_left _ h⟩
  | cmdDone op =>
    obtain rfl := Option.some.inj h
    exact hc
  | netError =>
    obtain rfl := Option.some.inj h
    exact hc.netError
  | reply seq status =>
    simp only [MetaServerSM.step] at h
    split_ifs at h with hn
    · obtain rfl := Option.some.inj h
      exact hc
    · obtain ⟨log, hl⟩ := Option.ne_none_iff_exists'.mp (by simpa using hn)
      exact hc.reply hs hl h

theorem run (hs : Session st) (hc : CarriedOver ops old st) {es : List (SessionEv Rpc)} (h : st.run es = some st') :
    CarriedOver ops old st' := by
  induction es generalizing st with
  | nil =>
    obtain rfl := Option.some.inj h
    exact hc
  | cons e es ih =>
    rw [MetaServerSM.run, List.foldlM_cons] at h
    obtain ⟨st₁, h₁, h₂⟩ := Option.bind_eq_some_iff.mp h
    exact ih (hs.step h₁) (hc.step hs h₁) h₂

end CarriedOver

/-- When a connection has been lost, everything without an answer is still dispatched or queued. -/
theorem MetaServerSM.outstanding_carried {st : MetaServerSM Rpc} : CarriedOver st.outstanding st.closed st := by
  refine ⟨[], rfl, fun op hop => ?_⟩
  rcases List.mem_append.mp hop with h | h
  · exact Or.inr (Or.inl h)
  · exact Or.inl h

/-- **The order of a session.** In every run HELLO is the first message on each connection and no other one is HELLO, so
that the metaserver drops none of them; what has been dispatched stands on the connection behind its HELLO; and what was
outstanding when a connection was lost is queued, or dispatched, or has been written behind the HELLO of a newer
connection. -/
theorem session_order (clusterKey : Str) (rackId : Int32) (es : List (SessionEv Rpc)) (st : MetaServerSM Rpc)
    (h : (MetaServerSM.start clusterKey rackId).run es = some st) :
    (∀ log ∈ st.logs, HelloFirst log ∧ (log.foldl HelloState.HandleMsg ⟨false, false⟩).mDown = false) ∧
      (∀ log, st.mNetConnection = some log → ∀ op ∈ st.mDispatchedOps, .request op ∈ log.tail) ∧
      (st.mNetConnection = none → ∀ es' st', st.run es' = some st' → CarriedOver st.outstanding st.closed st') := by
  have hs : Session st := (Session.start clusterKey rackId).run h
  refine ⟨fun log hlog => ⟨hs.first log hlog, (hs.first log hlog).accepted⟩,
    fun log hlog op hop => hs.behind hlog hop, ?_⟩
  intro _ es' st' h'
  exact MetaServerSM.outstanding_carried.run hs h'

/-- The operation 1 is sent, the connection breaks before it is answered, and the next operation is queued meanwhile. -/
def reconnected : List (SessionEv ℕ) :=
  let env : MetaEnv := ⟨true, ⟨"10.0.0.1".toList, 30000⟩, 1000, 64, [⟨4, 7, 1⟩]⟩
  [.enqueueOp (.leaseRenew 7 3 "WRITE_LEASE".toList), .timeout env, .cmdDone 5, .netError,
    .enqueueOp (.corruptChunk 4 7), .timeout { env with connects := false }, .timeout env]

theorem session_order_reconnected :
    ∃ st, (MetaServerSM.start "key".toList 2).run reconnected = some st ∧
      (st.mNetConnection.map fun log => log.map Msg.isHello) = some [true, false, false, false] ∧
      ∀ log ∈ st.logs, HelloFirst log := by
  obtain ⟨st, h⟩ : ∃ st, (MetaServerSM.start "key".toList 2).run reconnected = some st := ⟨_, rfl⟩
  refine ⟨st, h, ?_, fun log hlog => ((session_order _ _ _ st h).1 log hlog).1⟩
  obtain rfl := Option.some.inj h
  decide

end Kfs
