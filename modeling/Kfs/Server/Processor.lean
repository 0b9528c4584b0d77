import Kfs.Layout.Model
import Kfs.Server.Model

/-!
# Suspended requests

`process_request` hands a request to the logger unless the handler has suspended it. A suspended request is held by
what will bring it back: the RPCs that `handle_allocate` has sent (`ResumeOp`), the record that
`ChangeIncarnationNumber` writes, or the allocation that `handle_truncate` makes (`NetDispatch::Dispatch`).

* `Processor`, `handle_allocate`, `handle_truncate`, `process_request`, `Dispatch`;
* `Processor.step`, `Processor.run`;
* `held`: the requests that something outstanding will bring back, with repetitions.
-/

namespace Kfs

/-! ## Requests -/

/-- A request object. -/
abbrev ReqId := ℕ

/-- `MetaAllocate`. -/
structure AllocateReq where
  fid : ℤ
  offset : ℤ
  chunkId : ℤ
  chunkVersion : ℤ
  layoutDone : Bool
  req : Option ReqId
  deriving DecidableEq

inductive ProcOp
  | allocate (a : AllocateReq)
  | truncate (fid offset : ℤ)
  | changeChunkVersionInc (cvi : ℤ) (req : Option ReqId)
  /-- any other request: its handler does not suspend it -/
  | other
  deriving DecidableEq

/-- `MetaRequest`; `clnt` says that a client waits for it. -/
structure Request where
  op : ProcOp
  status : ℤ
  suspended : Bool
  clnt : Bool
  deriving DecidableEq

/-- The request that an incarnation step holds. -/
def Request.ccvi (q : Request) : Option ReqId :=
  match q.op with
  | .changeChunkVersionInc _ t => t
  | _ => none

/-- The request that an allocation holds. -/
def Request.alloc (q : Request) : Option ReqId :=
  match q.op with
  | .allocate a => a.req
  | _ => none

/-- The request processor. `fanIns` are the allocations whose RPCs are out, `oplog` the requests that the logger
has, and `next` the object that is made next. -/
structure Processor where
  fs : Fs
  reqs : ReqId → Option Request
  next : ReqId
  requestList : List ReqId
  fanIns : List ReqId
  oplog : List ReqId

namespace Processor

def set (p : Processor) (r : ReqId) (q : Request) : Processor :=
  { p with reqs := Function.update p.reqs r (some q) }

def delete (p : Processor) (r : ReqId) : Processor :=
  { p with reqs := Function.update p.reqs r none }

def new (p : Processor) (q : Request) : Processor :=
  { p.set p.next q with next := p.next + 1 }

def submit_request (p : Processor) (r : ReqId) : Processor :=
  { p with requestList := p.requestList ++ [r] }

/-! ## Handlers -/

/-- The record is submitted for `r`. -/
def ChangeIncarnationNumber (p : Processor) (r : ReqId) : Processor :=
  let inc := if p.fs.chunkVersionInc < 1 then p.fs.chunkVersionInc + 1 else p.fs.chunkVersionInc
  let p := { p with fs := { p.fs with chunkVersionInc := inc } }
  (p.new ⟨.changeChunkVersionInc inc (some r), 0, false, false⟩).submit_request p.next

/-- `Tree::getChunkVersion`; 0 if the file has no such chunk. -/
def getChunkVersion (fs : Fs) (fid chunkId : ℤ) : ℤ :=
  (((getalloc fs.leaves fid).find? fun m => decide (m.chunkId = chunkId)).map MetaChunkInfo.chunkVersion).getD 0

/-- The RPCs of the allocation have been queued. -/
def sendLayout (p : Processor) (r : ReqId) (q : Request) : Processor :=
  { p.set r { q with suspended := true } with fanIns := p.fanIns ++ [r] }

/-- `reply` is what `GetChunkWriteLease` answers, `placed` whether `AllocateChunk` finds servers. -/
def handle_allocate (env : Env) (reply : LeaseReply) (placed : Bool) (p : Processor) (r : ReqId) (q : Request)
    (a : AllocateReq) : Option Processor :=
  if ¬ a.layoutDone then
    match allocateChunkId p.fs a.fid a.offset 0 true with
    | none => none
    | some (status, chunkId, chunkVersion, fs) =>
      let p := { p with fs := fs }
      let a := { a with chunkId := chunkId, chunkVersion := chunkVersion }
      if status ≠ 0 ∧ status ≠ -EEXIST then some (p.set r { q with op := .allocate a, status := status })
      else if status = -EEXIST then
        match reply with
        | .refused status => some (p.set r { q with op := .allocate a, status := status })
        | .valid => some (p.set r { q with op := .allocate a, status := 0 })
        | .fresh => some (p.sendLayout r { q with
            op := .allocate { a with chunkVersion := chunkVersion + fs.chunkVersionInc }, status := 0 })
      else if placed then some (p.sendLayout r { q with op := .allocate a, status := 0 })
      else some (p.set r { q with op := .allocate a, status := -ENOSPC })
  else if q.status ≠ 0 then
    let a := { a with chunkVersion := getChunkVersion p.fs a.fid a.chunkId }
    some ((p.set r { q with op := .allocate a, status := -EALLOCFAILED, suspended := true }).ChangeIncarnationNumber r)
  else
    let (status, fs) := assignChunkId env p.fs a.fid a.offset a.chunkId a.chunkVersion
    some ({ p with fs := fs }.set r { q with status := status, suspended := false })

/-- When a chunk must be allocated first, the truncation is suspended and the allocation handled at once. -/
def handle_truncate (worm : Bool) (env : Env) (reply : LeaseReply) (placed : Bool) (p : Processor) (r : ReqId)
    (q : Request) (fid offset : ℤ) : Option Processor :=
  if worm then some (p.set r { q with status := -EPERM })
  else
    match truncate env p.fs fid offset with
    | none => none
    | some (status, allocOffset, fs) =>
      let p := { p with fs := fs }
      let q := { q with status := status }
      if status > 0 then
        let a : AllocateReq := ⟨fid, allocOffset, 0, 0, false, some r⟩
        let alloc : Request := ⟨.allocate a, 0, false, false⟩
        let p' := (p.set r { q with suspended := true }).new alloc
        p'.handle_allocate env reply placed p.next alloc a
      else some (p.set r q)

end Processor

/-- What a handler finds: the mode, the clock and the leases, the answers of the layout manager, and the tree that
another handler leaves. -/
structure Finds where
  worm : Bool
  env : Env
  reply : LeaseReply
  placed : Bool
  fs : Fs

namespace Processor

/-- Take a request from the queue and carry it out; `none` when there is none, or the handler crashes. -/
def process_request (w : Finds) (p : Processor) : Option Processor :=
  match p.requestList with
  | [] => none
  | r :: rest =>
    match p.reqs r with
    | none => none
    | some q =>
      let p := { p with requestList := rest }
      let handled := match q.op with
        | .allocate a => p.handle_allocate w.env w.reply w.placed r q a
        | .truncate fid offset => p.handle_truncate w.worm w.env w.reply w.placed r q fid offset
        | .changeChunkVersionInc _ _ => some (p.set r { q with status := 0 })
        | .other => some { p with fs := w.fs }
      handled.map fun p =>
        if (p.reqs r).any Request.suspended then p else { p with oplog := p.oplog ++ [r] }

/-- The client has its answer, and the request is destroyed. -/
def HandleEvent (p : Processor) (r : ReqId) : Processor := p.delete r

/-- `NetDispatch::Dispatch` for one result of the logger; `none` when there is none, or an assertion fails. -/
def Dispatch (p : Processor) : Option Processor :=
  match p.oplog with
  | [] => none
  | r :: rest =>
    match p.reqs r with
    | none => none
    | some q =>
      let p := { p with oplog := rest }
      if q.clnt then some (p.HandleEvent r)
      else
        match q.op with
        | .allocate a =>
          match a.req with
          | none => none
          | some t =>
            match p.reqs t with
            | some ⟨.truncate fid offset, status, _, clnt⟩ =>
              some (((p.set t ⟨.truncate fid offset, status, false, clnt⟩).submit_request t).delete r)
            | _ => none
        | .changeChunkVersionInc _ t =>
          match t with
          | none => some (p.delete r)
          | some t =>
            match p.reqs t with
            | some ⟨.allocate a, status, _, true⟩ =>
              some (((p.set t ⟨.allocate a, status, false, true⟩).HandleEvent t).delete r)
            | _ => none
        | _ => some (p.delete r)

/-- The last RPC of the allocation has come back (`ResumeOp`). -/
def resume (p : Processor) (r : ReqId) (status : ℤ) : Option Processor :=
  if r ∉ p.fanIns then none
  else
    match p.reqs r with
    | some ⟨.allocate a, _, _, clnt⟩ =>
      some (({ p with fanIns := p.fanIns.erase r }.set r
        ⟨.allocate { a with layoutDone := true }, status, false, clnt⟩).submit_request r)
    | _ => none

end Processor

/-! ## Runs -/

inductive ProcEv
  /-- a client asks for a chunk -/
  | allocate (fid offset : ℤ)
  | truncate (fid offset : ℤ)
  /-- another request, of a client or of the metaserver itself -/
  | other (clnt : Bool)
  | process (w : Finds)
  | resume (r : ReqId) (status : ℤ)
  | dispatch

namespace Processor

def step (p : Processor) : ProcEv → Option Processor
  | .allocate fid offset =>
    some ((p.new ⟨.allocate ⟨fid, offset, 0, 0, false, none⟩, 0, false, true⟩).submit_request p.next)
  | .truncate fid offset => some ((p.new ⟨.truncate fid offset, 0, false, true⟩).submit_request p.next)
  | .other clnt => some ((p.new ⟨.other, 0, false, clnt⟩).submit_request p.next)
  | .process w => p.process_request w
  | .resume r status => p.resume r status
  | .dispatch => p.Dispatch

def run (p : Processor) : List ProcEv → Option Processor
  | [] => some p
  | e :: es => (p.step e).bind fun p => p.run es

/-! ## Holding -/

/-- The request that an object holds through its incarnation step. -/
def ccvi (p : Processor) (r : ReqId) : Option ReqId := (p.reqs r).bind Request.ccvi

def alloc (p : Processor) (r : ReqId) : Option ReqId := (p.reqs r).bind Request.alloc

/-- The requests that are held by RPCs or by an incarnation step that is on its way; `F` are the allocations with
RPCs, `M` the requests in the queues. -/
def stepsOf (ccvi : ReqId → Option ReqId) (F M : List ReqId) : List ReqId := F ++ M.filterMap ccvi

/-- With those that are held by an allocation that is on its way or itself held. -/
def heldOf (ccvi alloc : ReqId → Option ReqId) (F M : List ReqId) : List ReqId :=
  stepsOf ccvi F M ++ (M ++ stepsOf ccvi F M).filterMap alloc

/-- The requests that are queued or with the logger. -/
def moving (p : Processor) : List ReqId := p.requestList ++ p.oplog

/-- **The requests that something outstanding will bring back.** -/
def held (p : Processor) : List ReqId := heldOf p.ccvi p.alloc p.fanIns p.moving

end Processor

end Kfs
