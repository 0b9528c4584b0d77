import Mathlib.Data.List.Count
import Kfs.Layout.Model

/-!
# The fan-in of an allocation

`AllocateChunk` and `GetChunkWriteLease` of `LayoutManager.cc` send one RPC to each server of an allocation, and
`ResumeOp` of `ChunkServer.cc` submits the allocation again with the last of them. An RPC waits in
`mPendingReqs` or in `mDispatchedReqs` of its server; replies, a broken connection and the removal of the
server take it out. The network thread runs while the request processor is still queueing, so that the layout
of an allocation is cut at each `Enqueue`.

* `FanIn`, `ResumeOp`, `HandleReply`, `Dispatch`, `FailDispatchedOps`, `FailPendingOps`, `ServerDown`;
* `FanIn.step`, and `step_cases`: what it can do;
* `Drains`: what takes RPCs out of the queues resumes them.
-/

namespace Kfs

def EIO : ℤ := 5

/-- An RPC to a chunk server; `req` is the allocation that it is for and the place of the server in its list,
and an RPC of another kind has none. -/
structure ChunkRpc where
  opSeqno : ℤ
  req : Option (ℕ × ℕ)
  deriving DecidableEq

/-- The RPC is for the `i`-th server of the allocation. -/
def ChunkRpc.isFor (k : ℕ × ℕ) (x : ChunkRpc) : Bool := decide (x.req = some k)

/-- The RPC is one of the allocation. -/
def ChunkRpc.of (r : ℕ) (x : ChunkRpc) : Bool := x.req.any fun k => decide (k.1 = r)

/-- `MetaAllocate`, with the fields that the fan-in uses. -/
structure FanAllocate where
  status : ℤ
  suspended : Bool
  layoutDone : Bool
  servers : List ServerId
  numServerReplies : ℕ
  deriving DecidableEq

/-- `ChunkServer`, with its queues; `mNetConnection` is not reset. -/
structure RpcQueues where
  mSeqNo : ℤ
  mNetConnection : Bool
  mPendingReqs : List ChunkRpc
  mDispatchedReqs : List ChunkRpc
  deriving DecidableEq

/-- Where `handle_allocate` sends the RPCs. -/
inductive LayoutCall
  | AllocateChunk
  | GetChunkWriteLease
  deriving DecidableEq

/-- The allocations and the servers. `layout` is the allocation that the request processor is queueing RPCs for,
with their number so far; `submitted` and `resumed` list the calls of `submit_request` and `ResumeOp`. -/
structure FanIn where
  allocs : ℕ → FanAllocate
  servers : ServerId → RpcQueues
  mChunkServers : List ServerId
  layout : Option (ℕ × LayoutCall × ℕ)
  submitted : List ℕ
  resumed : List (ServerId × ChunkRpc × ℤ)

namespace FanIn

/-! ## Chunk servers -/

def setServer (st : FanIn) (s : ServerId) (c : RpcQueues) : FanIn :=
  { st with servers := Function.update st.servers s c }

@[simp] theorem setServer_self (st : FanIn) (s : ServerId) (c : RpcQueues) : (st.setServer s c).servers s = c :=
  Function.update_self _ _ _

@[simp] theorem setServer_of_ne (st : FanIn) {s s' : ServerId} (c : RpcQueues) (h : s' ≠ s) :
    (st.setServer s c).servers s' = st.servers s' :=
  Function.update_of_ne h _ _

def setAlloc (st : FanIn) (r : ℕ) (a : FanAllocate) : FanIn :=
  { st with allocs := Function.update st.allocs r a }

/-- `ResumeOp` for an RPC of `s` that ends with `status`. -/
def ResumeOp (s : ServerId) (status : ℤ) (st : FanIn) (x : ChunkRpc) : FanIn :=
  let st := { st with resumed := st.resumed ++ [(s, x, status)] }
  match x.req with
  | none => st
  | some (r, _) =>
    let a := st.allocs r
    -- if there is a non-zero status, don't throw it away
    let a := if a.status = 0 then { a with status := status } else a
    let a := { a with numServerReplies := a.numServerReplies + 1 }
    if a.numServerReplies = a.servers.length then
      { st.setAlloc r { a with layoutDone := true, suspended := false } with submitted := st.submitted ++ [r] }
    else st.setAlloc r a

/-- `ChunkServer::AllocateChunk`: queue the RPC for place `i` of the allocation. -/
def AllocateChunk (st : FanIn) (s : ServerId) (r i : ℕ) : FanIn :=
  let c := st.servers s
  st.setServer s { c with
    mSeqNo := c.mSeqNo + 1
    mPendingReqs := c.mPendingReqs ++ [⟨c.mSeqNo, some (r, i)⟩] }

/-- Queue an RPC of another kind. -/
def Enqueue (st : FanIn) (s : ServerId) : FanIn :=
  let c := st.servers s
  st.setServer s { c with mSeqNo := c.mSeqNo + 1, mPendingReqs := c.mPendingReqs ++ [⟨c.mSeqNo, none⟩] }

def HandleReply (st : FanIn) (s : ServerId) (cseq status : ℤ) : FanIn :=
  let c := st.servers s
  match c.mDispatchedReqs.find? fun x => decide (x.opSeqno = cseq) with
  | none => st
  | some x =>
    ResumeOp s status (st.setServer s { c with
      mDispatchedReqs := c.mDispatchedReqs.eraseP fun x => decide (x.opSeqno = cseq) }) x

/-- `OpDispatcher`. -/
def dispatcher (s : ServerId) (conn : Bool) (st : FanIn) (x : ChunkRpc) : FanIn :=
  if !conn then ResumeOp s (- EIO) st x
  else
    let c := st.servers s
    st.setServer s { c with mDispatchedReqs := c.mDispatchedReqs ++ [x] }

def Dispatch (st : FanIn) (s : ServerId) : FanIn :=
  let c := st.servers s
  c.mPendingReqs.foldl (dispatcher s c.mNetConnection) (st.setServer s { c with mPendingReqs := [] })

def FailDispatchedOps (st : FanIn) (s : ServerId) : FanIn :=
  let c := st.servers s
  c.mDispatchedReqs.foldl (ResumeOp s (- EIO)) (st.setServer s { c with mDispatchedReqs := [] })

def FailPendingOps (st : FanIn) (s : ServerId) : FanIn :=
  let c := st.servers s
  c.mPendingReqs.foldl (ResumeOp s (- EIO)) (st.setServer s { c with mPendingReqs := [] })

/-- `HandleRequest` on `EVENT_NET_ERROR`. -/
def netError (st : FanIn) (s : ServerId) : FanIn :=
  let st := st.FailDispatchedOps s
  st.setServer s { st.servers s with mNetConnection := false }

def ServerDown (st : FanIn) (s : ServerId) : FanIn :=
  if s ∉ st.mChunkServers then st
  else
    let st := st.FailPendingOps s
    { st with mChunkServers := st.mChunkServers.erase s }

end FanIn

/-! ## Steps -/

inductive FanEv
  /-- a server is accepted -/
  | hello (s : ServerId)
  /-- `handle_allocate` has chosen the servers -/
  | layout (r : ℕ) (call : LayoutCall) (servers : List ServerId)
  /-- the next RPC of the allocation is queued -/
  | queue
  /-- the call is over, and the allocation is suspended -/
  | ret
  /-- an RPC of another kind is queued -/
  | other (s : ServerId)
  | dispatch (s : ServerId)
  | reply (s : ServerId) (cseq status : ℤ)
  | netError (s : ServerId)
  | bye (s : ServerId)

namespace FanIn

/-- One step of the request processor or of the network thread; `none` when it cannot be taken. The request
processor has chosen the servers of an allocation among those that are listed, and does nothing else until it
has queued all its RPCs. The BYE of a server comes after the error of its connection. -/
def step (st : FanIn) : FanEv → Option FanIn
  | .hello s =>
    if st.layout = none ∧ (st.servers s).mNetConnection ∧ s ∉ st.mChunkServers then
      some { st with mChunkServers := st.mChunkServers ++ [s] }
    else none
  | .layout r call servers =>
    let a := st.allocs r
    if st.layout = none ∧ a.servers = [] ∧ servers ≠ [] ∧ ∀ s ∈ servers, s ∈ st.mChunkServers then
      let status := match call with
        | .AllocateChunk => 0
        | .GetChunkWriteLease => -EEXIST
      some { st.setAlloc r { a with status := status, servers := servers } with layout := some (r, call, 0) }
    else none
  | .queue =>
    match st.layout with
    | none => none
    | some (r, call, k) =>
      match (st.allocs r).servers[k]? with
      | none => none
      | some s => some { st.AllocateChunk s r k with layout := some (r, call, k + 1) }
  | .ret =>
    match st.layout with
    | none => none
    | some (r, call, k) =>
      if k < (st.allocs r).servers.length then none
      else
        let a := st.allocs r
        let a := match call with
          | .AllocateChunk => a
          | .GetChunkWriteLease => { a with status := 0 }
        some { st.setAlloc r { a with suspended := true } with layout := none }
  | .other s => some (st.Enqueue s)
  | .dispatch s => if s ∈ st.mChunkServers then some (st.Dispatch s) else none
  | .reply s cseq status => if (st.servers s).mNetConnection then some (st.HandleReply s cseq status) else none
  | .netError s => if (st.servers s).mNetConnection then some (st.netError s) else none
  | .bye s =>
    if st.layout = none ∧ (st.servers s).mNetConnection = false then some (st.ServerDown s) else none

variable {st st' : FanIn} {s : ServerId} {r : ℕ} {v : ℤ} {x : ChunkRpc} {xs : List ChunkRpc} {e : FanEv}

/-! ## Resuming -/

/-- `st'` is `st` after the RPCs `xs` of `s` have been resumed. -/
structure Resumes (s : ServerId) (v : ℤ) (xs : List ChunkRpc) (st st' : FanIn) : Prop where
  servers : st'.servers = st.servers
  listed : st'.mChunkServers = st.mChunkServers
  layout : st'.layout = st.layout
  places : ∀ r, (st'.allocs r).servers = (st.allocs r).servers
  resumed : st'.resumed = st.resumed ++ xs.map fun x => (s, x, v)

/-- What one RPC does to the allocations. -/
theorem ResumeOp_allocs (s : ServerId) (v : ℤ) (st : FanIn) (x : ChunkRpc) (r : ℕ) :
    let a := st.allocs r
    let a' := (ResumeOp s v st x).allocs r
    (x.of r = false ∧ a' = a ∧ (ResumeOp s v st x).submitted.count r = st.submitted.count r) ∨
      (x.of r = true ∧ a'.servers = a.servers ∧ a'.numServerReplies = a.numServerReplies + 1 ∧
        (a'.status = if a.status = 0 then v else a.status) ∧
        a'.layoutDone = (a.layoutDone || decide (a.numServerReplies + 1 = a.servers.length)) ∧
        (ResumeOp s v st x).submitted.count r =
          st.submitted.count r + if a.numServerReplies + 1 = a.servers.length then 1 else 0) := by
  unfold ResumeOp
  cases hx : x.req with
  | none => exact Or.inl ⟨by simp [ChunkRpc.of, hx], rfl, rfl⟩
  | some k =>
    obtain ⟨r', i⟩ := k
    by_cases hr : r' = r
    · subst hr
      refine Or.inr ⟨by simp [ChunkRpc.of, hx], ?_⟩
      by_cases hz : (st.allocs r').status = 0 <;>
        by_cases hn : (st.allocs r').numServerReplies + 1 = (st.allocs r').servers.length <;>
        simp [hz, hn, setAlloc]
    · refine Or.inl ⟨by simp [ChunkRpc.of, hx, hr], ?_⟩
      have hne : r ≠ r' := fun h => hr h.symm
      dsimp only
      split_ifs <;> simp [setAlloc, hne, hr]

theorem ResumeOp_resumes (s : ServerId) (v : ℤ) (st : FanIn) (x : ChunkRpc) :
    Resumes s v [x] st (ResumeOp s v st x) := by
  have hpl : ∀ r, ((ResumeOp s v st x).allocs r).servers = (st.allocs r).servers := by
    intro r
    rcases ResumeOp_allocs s v st x r with ⟨-, heq, -⟩ | ⟨-, heq, -⟩
    · exact congrArg _ heq
    · exact heq
  unfold ResumeOp at hpl ⊢
  cases hx : x.req with
  | none => exact ⟨rfl, rfl, rfl, fun _ => rfl, rfl⟩
  | some k =>
    simp only [hx] at hpl ⊢
    refine ⟨?_, ?_, ?_, hpl, ?_⟩
    all_goals split_ifs <;> rfl

theorem resumes_foldl (s : ServerId) (v : ℤ) : ∀ (xs : List ChunkRpc) (st : FanIn),
    Resumes s v xs st (xs.foldl (ResumeOp s v) st)
  | [], st => ⟨rfl, rfl, rfl, fun _ => rfl, by simp⟩
  | x :: xs, st => by
    have h₁ := ResumeOp_resumes s v st x
    have h₂ := resumes_foldl s v xs (ResumeOp s v st x)
    refine ⟨h₂.servers.trans h₁.servers, h₂.listed.trans h₁.listed, h₂.layout.trans h₁.layout, ?_, ?_⟩
    · exact fun r => (h₂.places r).trans (h₁.places r)
    · rw [List.foldl_cons, h₂.resumed, h₁.resumed]
      simp

/-- `numServerReplies` counts the RPCs resumed, and the allocation is submitted with the last of them. -/
structure Tallied (st : FanIn) : Prop where
  replies : ∀ r, (st.allocs r).numServerReplies = st.resumed.countP fun p => p.2.1.of r
  done : ∀ r, (st.allocs r).layoutDone =
    decide (0 < (st.allocs r).servers.length ∧ (st.allocs r).servers.length ≤ (st.allocs r).numServerReplies)
  once : ∀ r, st.submitted.count r = if (st.allocs r).layoutDone then 1 else 0

theorem Tallied.resumeOp (h : Tallied st) (s : ServerId) (v : ℤ) (x : ChunkRpc) : Tallied (ResumeOp s v st x) := by
  have hres := (ResumeOp_resumes s v st x).resumed
  refine ⟨fun r => ?_, fun r => ?_, fun r => ?_⟩
  all_goals
    have h₁ := h.replies r
    have h₂ := h.done r
    have h₃ := h.once r
    rcases ResumeOp_allocs s v st x r with ⟨hof, heq, hcount⟩ | ⟨hof, hsv, hn, -, hd, hcount⟩
  · rw [hres, heq, h₁]
    simp [hof]
  · rw [hres, hn, h₁]
    simp [hof]
  · rw [heq, h₂]
  · rw [hd, hsv, hn, h₂, Bool.eq_iff_iff]
    simp only [Bool.or_eq_true, decide_eq_true_eq]
    omega
  · rw [hcount, heq, h₃]
  · rw [hcount, hd, h₃, h₂]
    by_cases hlast : (st.allocs r).numServerReplies + 1 = (st.allocs r).servers.length
    · have hnot : ¬ ((st.allocs r).servers.length ≤ (st.allocs r).numServerReplies) := by omega
      simp [hlast, hnot]
    · simp [hlast]

theorem Tallied.foldl : ∀ {xs : List ChunkRpc} {st : FanIn}, Tallied st → ∀ (s : ServerId) (v : ℤ),
    Tallied (xs.foldl (ResumeOp s v) st)
  | [], _, h, _, _ => h
  | x :: _, _, h, s, v => (h.resumeOp s v x).foldl s v

/-- Nothing that the count is about has changed. -/
theorem Tallied.of_frame (h : Tallied st) (hr : st'.resumed = st.resumed) (hs : st'.submitted = st.submitted)
    (ha : ∀ r, (st'.allocs r).numServerReplies = (st.allocs r).numServerReplies ∧
      (st'.allocs r).layoutDone = (st.allocs r).layoutDone ∧
      (st'.allocs r).servers = (st.allocs r).servers) : Tallied st' where
  replies r := by rw [(ha r).1, hr, h.replies r]
  done r := by rw [(ha r).2.1, (ha r).2.2, (ha r).1, h.done r]
  once r := by rw [hs, (ha r).2.1, h.once r]

/-- The status of an allocation tells whether one of its RPCs has failed; while `GetChunkWriteLease` is at work it
is still that of `allocateChunkId`. -/
structure Faithful (st : FanIn) : Prop where
  leasing : ∀ r k, st.layout = some (r, .GetChunkWriteLease, k) → (st.allocs r).status ≠ 0
  told : ∀ r, (∀ k, st.layout ≠ some (r, .GetChunkWriteLease, k)) →
    ((st.allocs r).status = 0 ↔ ∀ p ∈ st.resumed, p.2.1.of r = true → p.2.2 = 0)

theorem Faithful.resumeOp (h : Faithful st) (s : ServerId) (v : ℤ) (x : ChunkRpc) : Faithful (ResumeOp s v st x) := by
  have hres := ResumeOp_resumes s v st x
  refine ⟨?_, ?_⟩
  · intro r k hl
    rw [hres.layout] at hl
    have hne := h.leasing r k hl
    rcases ResumeOp_allocs s v st x r with ⟨-, heq, -⟩ | ⟨-, -, -, hs, -⟩
    · rwa [heq]
    · rwa [hs, if_neg hne]
  · intro r hl
    rw [hres.layout] at hl
    rw [hres.resumed, List.map_singleton]
    have hold := h.told r hl
    rcases ResumeOp_allocs s v st x r with ⟨hof, heq, -⟩ | ⟨hof, -, -, hs, -⟩
    · rw [heq, hold]
      simp [or_imp, forall_and, hof]
    · rw [hs]
      by_cases hz : (st.allocs r).status = 0
      · rw [if_pos hz]
        have hall := hold.mp hz
        constructor
        · intro hv p hp
          rcases List.mem_append.mp hp with hp | hp
          · exact hall p hp
          · obtain rfl := List.mem_singleton.mp hp
            exact fun _ => hv
        · intro hp
          exact hp (s, x, v) (List.mem_append_right _ (List.mem_singleton_self _)) hof
      · rw [if_neg hz]
        refine iff_of_false hz fun hp => hz (hold.mpr ?_)
        exact fun p hm => hp p (List.mem_append_left _ hm)

theorem Faithful.foldl : ∀ {xs : List ChunkRpc} {st : FanIn}, Faithful st → ∀ (s : ServerId) (v : ℤ),
    Faithful (xs.foldl (ResumeOp s v) st)
  | [], _, h, _, _ => h
  | x :: _, _, h, s, v => (h.resumeOp s v x).foldl s v

/-! ## Taking RPCs out of the queues -/

/-- The step takes the RPCs `xs` out of the queues of `s` and resumes them. -/
structure Drains (s : ServerId) (v : ℤ) (xs : List ChunkRpc) (st st' : FanIn) : Prop where
  elsewhere : ∀ s', s' ≠ s → st'.servers s' = st.servers s'
  pending : (st'.servers s).mPendingReqs.Sublist (st.servers s).mPendingReqs
  dispatched : (st'.servers s).mDispatchedReqs.Sublist (st.servers s).mDispatchedReqs
  moved : ((st'.servers s).mPendingReqs ++ (st'.servers s).mDispatchedReqs ++ xs).Perm
    ((st.servers s).mPendingReqs ++ (st.servers s).mDispatchedReqs)
  seqNo : (st'.servers s).mSeqNo = (st.servers s).mSeqNo
  shut : (st'.servers s).mNetConnection = (st.servers s).mNetConnection ∨ (st'.servers s).mDispatchedReqs = []
  listed : st'.mChunkServers = st.mChunkServers ∨
    (st.layout = none ∧ st'.mChunkServers = st.mChunkServers.erase s ∧ (st'.servers s).mPendingReqs = [])
  layout : st'.layout = st.layout
  places : ∀ r, (st'.allocs r).servers = (st.allocs r).servers
  resumed : st'.resumed = st.resumed ++ xs.map fun x => (s, x, v)
  tallied : Tallied st → Tallied st'
  faithful : Faithful st → Faithful st'

/-- The queues of `s` become `c`, and the RPCs `xs` that are no longer in them are resumed. -/
theorem drains_foldl (c : RpcQueues) (xs : List ChunkRpc) (v : ℤ)
    (hp : c.mPendingReqs.Sublist (st.servers s).mPendingReqs)
    (hd : c.mDispatchedReqs.Sublist (st.servers s).mDispatchedReqs)
    (hm : (c.mPendingReqs ++ c.mDispatchedReqs ++ xs).Perm
      ((st.servers s).mPendingReqs ++ (st.servers s).mDispatchedReqs))
    (hn : c.mSeqNo = (st.servers s).mSeqNo) (hc : c.mNetConnection = (st.servers s).mNetConnection) :
    Drains s v xs st (xs.foldl (ResumeOp s v) (st.setServer s c)) := by
  have h := resumes_foldl s v xs (st.setServer s c)
  have hs : ((xs.foldl (ResumeOp s v) (st.setServer s c)).servers s) = c := by
    rw [h.servers]
    exact Function.update_self _ _ _
  refine ⟨?_, by rwa [hs], by rwa [hs], by rwa [hs], by rwa [hs], Or.inl (by rwa [hs]), Or.inl h.listed, h.layout,
    h.places, h.resumed, ?_, ?_⟩
  · intro s' hne
    rw [h.servers]
    exact Function.update_of_ne hne _ _
  · intro ht
    have hset : Tallied (st.setServer s c) := ⟨ht.replies, ht.done, ht.once⟩
    exact hset.foldl s v
  · intro hf
    have hset : Faithful (st.setServer s c) := ⟨hf.leasing, hf.told⟩
    exact hset.foldl s v

theorem FailPendingOps_drains (st : FanIn) (s : ServerId) :
    Drains s (- EIO) (st.servers s).mPendingReqs st (st.FailPendingOps s) := by
  refine drains_foldl _ _ _ (List.nil_sublist _) (List.Sublist.refl _) ?_ rfl rfl
  rw [List.nil_append]
  exact List.perm_append_comm

theorem FailDispatchedOps_drains (st : FanIn) (s : ServerId) :
    Drains s (- EIO) (st.servers s).mDispatchedReqs st (st.FailDispatchedOps s) := by
  refine drains_foldl _ _ _ (List.Sublist.refl _) (List.nil_sublist _) ?_ rfl rfl
  rw [List.append_nil]

/-- Without a connection the dispatcher fails what is pending. -/
theorem Dispatch_dead (h : (st.servers s).mNetConnection = false) : st.Dispatch s = st.FailPendingOps s := by
  unfold Dispatch FailPendingOps
  have hf : dispatcher s false = ResumeOp s (- EIO) := by
    funext st x
    rfl
  simp only [h, hf]

theorem dispatcher_foldl : ∀ (xs : List ChunkRpc) (c : RpcQueues),
    xs.foldl (dispatcher s true) (st.setServer s c) =
      st.setServer s { c with mDispatchedReqs := c.mDispatchedReqs ++ xs }
  | [], c => by simp
  | x :: xs, c => by
    have hone : dispatcher s true (st.setServer s c) x =
        st.setServer s { c with mDispatchedReqs := c.mDispatchedReqs ++ [x] } := by
      simp [dispatcher, setServer]
    rw [List.foldl_cons, hone, dispatcher_foldl xs]
    simp

/-- Over a connection it sends it. -/
theorem Dispatch_live (h : (st.servers s).mNetConnection = true) :
    st.Dispatch s = st.setServer s { st.servers s with
      mPendingReqs := []
      mDispatchedReqs := (st.servers s).mDispatchedReqs ++ (st.servers s).mPendingReqs } := by
  unfold Dispatch
  simp only [h]
  exact dispatcher_foldl _ _

/-- A reply takes one RPC out, or none. -/
theorem HandleReply_cases (st : FanIn) (s : ServerId) (cseq v : ℤ) :
    (st.HandleReply s cseq v = st ∧ ∀ x ∈ (st.servers s).mDispatchedReqs, x.opSeqno ≠ cseq) ∨
      ∃ x ∈ (st.servers s).mDispatchedReqs, x.opSeqno = cseq ∧ Drains s v [x] st (st.HandleReply s cseq v) := by
  unfold HandleReply
  dsimp only
  cases hf : (st.servers s).mDispatchedReqs.find? fun x => decide (x.opSeqno = cseq) with
  | none =>
    rw [List.find?_eq_none] at hf
    exact Or.inl ⟨rfl, fun x hx => by simpa using hf x hx⟩
  | some x =>
    refine Or.inr ⟨x, List.mem_of_find?_eq_some hf, by simpa using List.find?_some hf, ?_⟩
    obtain ⟨hx, d₁, d₂, hd, hnone⟩ := List.find?_eq_some_iff_append.mp hf
    have he : (st.servers s).mDispatchedReqs.eraseP (fun x => decide (x.opSeqno = cseq)) = d₁ ++ d₂ := by
      rw [hd, List.eraseP_append_right _ (by simpa using hnone)]
      simp [of_decide_eq_true hx]
    refine drains_foldl _ [x] v (List.Sublist.refl _) List.eraseP_sublist ?_ rfl rfl
    dsimp only
    rw [he, List.append_assoc, hd]
    refine List.Perm.append_left _ ?_
    rw [List.append_assoc]
    exact List.Perm.append_left _ List.perm_append_comm

theorem netError_drains (st : FanIn) (s : ServerId) :
    Drains s (- EIO) (st.servers s).mDispatchedReqs st (st.netError s) := by
  have h := FailDispatchedOps_drains st s
  have hd : ((st.FailDispatchedOps s).servers s).mDispatchedReqs = [] := by
    unfold FailDispatchedOps
    rw [(resumes_foldl _ _ _ _).servers]
    simp
  have hs : (st.netError s).servers s = { (st.FailDispatchedOps s).servers s with mNetConnection := false } :=
    Function.update_self _ _ _
  refine ⟨?_, by rw [hs]; exact h.pending, by rw [hs]; exact h.dispatched, by rw [hs]; exact h.moved,
    by rw [hs]; exact h.seqNo, Or.inr (by rw [hs]; exact hd), h.listed.imp_right ?_, h.layout, h.places, h.resumed,
    ?_, ?_⟩
  · intro s' hne
    exact (Function.update_of_ne hne _ _).trans (h.elsewhere s' hne)
  · rw [hs]
    exact id
  · exact fun ht => ⟨(h.tallied ht).replies, (h.tallied ht).done, (h.tallied ht).once⟩
  · exact fun hf => ⟨(h.faithful hf).leasing, (h.faithful hf).told⟩

theorem ServerDown_drains (hs : s ∈ st.mChunkServers) (hl : st.layout = none) :
    Drains s (- EIO) (st.servers s).mPendingReqs st (st.ServerDown s) := by
  have h := FailPendingOps_drains st s
  have hp : ((st.FailPendingOps s).servers s).mPendingReqs = [] := by
    unfold FailPendingOps
    rw [(resumes_foldl _ _ _ _).servers]
    simp
  have hlist : (st.FailPendingOps s).mChunkServers = st.mChunkServers := (resumes_foldl _ _ _ _).listed
  rw [ServerDown, if_neg (not_not.mpr hs)]
  refine ⟨h.elsewhere, h.pending, h.dispatched, h.moved, h.seqNo, h.shut, Or.inr ⟨hl, ?_, hp⟩, h.layout, h.places,
    h.resumed, ?_, ?_⟩
  · exact congrArg (fun l : List ServerId => l.erase s) hlist
  · exact fun ht => ⟨(h.tallied ht).replies, (h.tallied ht).done, (h.tallied ht).once⟩
  · exact fun hf => ⟨(h.faithful hf).leasing, (h.faithful hf).told⟩

/-- What takes RPCs out of the queues. -/
inductive Takes (st : FanIn) : FanEv → ServerId → ℤ → List ChunkRpc → Prop
  | dispatch (s : ServerId) (h : (st.servers s).mNetConnection = false) :
    Takes st (.dispatch s) s (- EIO) (st.servers s).mPendingReqs
  | reply (s : ServerId) (v : ℤ) (x : ChunkRpc) (h : x ∈ (st.servers s).mDispatchedReqs) :
    Takes st (.reply s x.opSeqno v) s v [x]
  | netError (s : ServerId) : Takes st (.netError s) s (- EIO) (st.servers s).mDispatchedReqs
  | bye (s : ServerId) : Takes st (.bye s) s (- EIO) (st.servers s).mPendingReqs

/-- **The steps of the fan-in.** -/
theorem step_cases (h : st.step e = some st') :
    (∃ s, e = .hello s ∧ s ∉ st.mChunkServers ∧ st' = { st with mChunkServers := st.mChunkServers ++ [s] }) ∨
    (∃ r call servers, e = .layout r call servers ∧ st.layout = none ∧ (st.allocs r).servers = [] ∧ servers ≠ [] ∧
      (∀ s ∈ servers, s ∈ st.mChunkServers) ∧
      st' = { st.setAlloc r { st.allocs r with
        status := match call with
          | .AllocateChunk => 0
          | .GetChunkWriteLease => -EEXIST
        servers := servers } with layout := some (r, call, 0) }) ∨
    (∃ r call k s, e = .queue ∧ st.layout = some (r, call, k) ∧ (st.allocs r).servers[k]? = some s ∧
      st' = { st.AllocateChunk s r k with layout := some (r, call, k + 1) }) ∨
    (∃ r call k, e = .ret ∧ st.layout = some (r, call, k) ∧ (st.allocs r).servers.length ≤ k ∧
      st' = { st.setAlloc r { st.allocs r with
        suspended := true
        status := match call with
          | .AllocateChunk => (st.allocs r).status
          | .GetChunkWriteLease => 0 } with layout := none }) ∨
    (∃ s, e = .other s ∧ st' = st.Enqueue s) ∨
    (∃ s, e = .dispatch s ∧ (st.servers s).mNetConnection = true ∧
      st' = st.setServer s { st.servers s with
        mPendingReqs := []
        mDispatchedReqs := (st.servers s).mDispatchedReqs ++ (st.servers s).mPendingReqs }) ∨
    (∃ s v xs, Takes st e s v xs ∧ Drains s v xs st st') ∨
    (st' = st ∧ ((∃ s cseq v, e = .reply s cseq v ∧ ∀ x ∈ (st.servers s).mDispatchedReqs, x.opSeqno ≠ cseq) ∨
      ∃ s, e = .bye s)) := by
  cases e with
  | hello s =>
    refine Or.inl ⟨s, rfl, ?_⟩
    simp only [step] at h
    split_ifs at h with hg
    exact ⟨hg.2.2, (Option.some.inj h).symm⟩
  | layout r call servers =>
    refine Or.inr (Or.inl ⟨r, call, servers, rfl, ?_⟩)
    simp only [step] at h
    split_ifs at h with hg
    exact ⟨hg.1, hg.2.1, hg.2.2.1, hg.2.2.2, (Option.some.inj h).symm⟩
  | queue =>
    refine Or.inr (Or.inr (Or.inl ?_))
    simp only [step] at h
    split at h
    · cases h
    · rename_i r call k hl
      split at h
      · cases h
      · rename_i s hs
        exact ⟨r, call, k, s, rfl, hl, hs, (Option.some.inj h).symm⟩
  | ret =>
    refine Or.inr (Or.inr (Or.inr (Or.inl ?_)))
    simp only [step] at h
    split at h
    · cases h
    · rename_i r call k hl
      split_ifs at h with hk
      refine ⟨r, call, k, rfl, hl, not_lt.mp hk, (Option.some.inj h).symm.trans ?_⟩
      cases call <;> rfl
  | other s => exact Or.inr (Or.inr (Or.inr (Or.inr (Or.inl ⟨s, rfl, (Option.some.inj h).symm⟩))))
  | dispatch s =>
    refine Or.inr (Or.inr (Or.inr (Or.inr (Or.inr ?_))))
    simp only [step] at h
    split_ifs at h with hm
    obtain rfl := Option.some.inj h
    cases hc : (st.servers s).mNetConnection with
    | true => exact Or.inl ⟨s, rfl, hc, Dispatch_live hc⟩
    | false =>
      refine Or.inr (Or.inl ⟨s, _, _, .dispatch s hc, ?_⟩)
      rw [Dispatch_dead hc]
      exact FailPendingOps_drains st s
  | reply s cseq v =>
    refine Or.inr (Or.inr (Or.inr (Or.inr (Or.inr (Or.inr ?_)))))
    simp only [step] at h
    split_ifs at h with hm
    obtain rfl := Option.some.inj h
    rcases HandleReply_cases st s cseq v with ⟨heq, hno⟩ | ⟨x, hx, rfl, hd⟩
    · exact Or.inr ⟨heq, Or.inl ⟨s, cseq, v, rfl, hno⟩⟩
    · exact Or.inl ⟨s, v, [x], .reply s v x hx, hd⟩
  | netError s =>
    refine Or.inr (Or.inr (Or.inr (Or.inr (Or.inr (Or.inr (Or.inl ⟨s, _, _, .netError s, ?_⟩))))))
    simp only [step] at h
    split_ifs at h with hm
    obtain rfl := Option.some.inj h
    exact netError_drains st s
  | bye s =>
    refine Or.inr (Or.inr (Or.inr (Or.inr (Or.inr (Or.inr ?_)))))
    simp only [step] at h
    split_ifs at h with hg
    obtain rfl := Option.some.inj h
    by_cases hm : s ∈ st.mChunkServers
    · exact Or.inl ⟨s, _, _, .bye s, ServerDown_drains hm hg.1⟩
    · exact Or.inr ⟨if_pos hm, Or.inr ⟨s, rfl⟩⟩

end FanIn

end Kfs
