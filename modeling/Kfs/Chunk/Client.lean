import Kfs.Chunk.Ops

/-!
# The client connection

`ClientSM` keeps the operations of a connection in order and executes a sync only after the last prepare that came
before it. Around it are the events of a chunk server.

* `ClientSM.OpFinished`, `ClientSM.popDone`, `Submit`: an operation of the connection is done;
* `ClientSM.HandleClientCmd`: a command comes in;
* `Ev`, `Cs.step`, `Cs.run`, `Start`.
-/

namespace Kfs.Chunk

open ChunkManager

/-! ## Operations that are done -/

namespace ClientSM

variable (exec : Cs → KfsOp → Option Cs)

/-- Execute what has been waiting for `doneOp`, as long as it comes first. -/
def OpFinished (doneOp : KfsOp) : ℕ → Cs → Option Cs
  | 0, _ => none
  | k + 1, st =>
    match st.mPendingOps with
    | [] => some st
    | (op, dependentOp) :: pending =>
      if op.seq ≠ doneOp.seq then some st
      else match exec { st with mOps := st.mOps ++ [(dependentOp, false)], mPendingOps := pending } dependentOp with
        | none => none
        | some st => OpFinished doneOp k st

/-- The loop of `HandleRequest`: answer in order. -/
def popDone : ℕ → Cs → Option Cs
  | 0, _ => none
  | k + 1, st =>
    match st.mOps with
    | [] => some st
    | (qop, done) :: ops =>
      if done then
        match OpFinished exec qop (st.mPendingOps.length + 1) { mark st (.response qop.id) with mOps := ops } with
        | none => none
        | some st => popDone k st
      else some st

/-- The loop of `HandleTerminate`, which takes an operation off the queue only after the others. -/
def popTerminated : ℕ → Cs → Option Cs
  | 0, _ => none
  | k + 1, st =>
    match st.mOps with
    | [] => some st
    | (qop, done) :: _ =>
      if done then
        match OpFinished exec qop (st.mPendingOps.length + 1) st with
        | none => none
        | some st => popTerminated k { st with mOps := st.mOps.tail }
      else some st

def markDone (st : Cs) (id : ℕ) : Cs :=
  { st with mOps := st.mOps.map fun q => if q.1.id = id then (q.1, true) else q }

/-- `EVENT_CMD_DONE`, while the connection is up and after it has gone. -/
def HandleEvent (st : Cs) (id : ℕ) : Option Cs :=
  match st.mOps with
  | [] => none
  | (front, _) :: _ =>
    let n := st.mOps.length + st.mPendingOps.length + 1
    if st.terminating then
      if front.id = id then popTerminated exec n (markDone st id) else some (markDone st id)
    else popDone exec n (markDone st id)

end ClientSM

def SubmitOp (Submit : Submitter) (env : Env) (st : Cs) (op : KfsOp) : Option Cs :=
  op.Execute Submit env (mark (issue st op.signal) (.submitted op.id))

/-- `gLogger.Submit`: the client of the operation is told that it is done. Other clients than the connection do
nothing that matters here. The first argument bounds the syncs that are executed one inside the other. -/
def Submit (env : Env) : ℕ → Submitter
  | 0, _, _, _ => none
  | n + 1, st, op, status =>
    let st := mark (signal st op.signal status) (.completed op.id)
    if op.clientSM then ClientSM.HandleEvent (fun st op => SubmitOp (Submit env n) env st op) st op.id else some st

def Cs.submit (env : Env) (st : Cs) : Submitter := Submit env (st.mPendingOps.length + 1)

/-! ## Commands -/

/-- An operation as it is parsed; a prepare waits for its data. -/
def Cmd.parse : Cmd → Option Cmd
  | .read c rop => some (.read c { rop with numBytesIO := 0, status := 0, dataBuf := [] })
  | .writePrepare p =>
    if p.dataBuf.flatten.length = p.numBytes then
      some (.writePrepare { p with status := 0, writeFwdOp := false, numDone := 0 })
    else none
  | .writeSync s => some (.writeSync { s with status := 0, fwdedOp := false, numDone := 0 })
  | cmd => some cmd

def Cmd.isPrepare : Cmd → Bool
  | .writePrepare _ => true
  | _ => false

def Cmd.isSync : Cmd → Bool
  | .writeSync _ => true
  | _ => false

def Cmd.isOther : Cmd → Bool
  | .other => true
  | _ => false

/-- The operations that load chunk metadata first. -/
def Cmd.loads : Cmd → Bool
  | .read _ _ => true
  | .getChunkMetadata _ => true
  | .allocChunk _ _ _ => true
  | .truncateChunk _ _ => true
  | .changeChunkVers _ _ => true
  | _ => false

/-- The last prepare in the queue. -/
def lastWrite : List (KfsOp × Bool) → Option KfsOp
  | [] => none
  | (op, _) :: ops => match lastWrite ops with
    | some w => some w
    | none => if op.cmd.isPrepare then some op else none

/-- A command of the connection: a sync depends on the last prepare in the queue. -/
def ClientSM.HandleClientCmd (exec : Cs → KfsOp → Option Cs) (st : Cs) (seq : ℤ) (cmd : Cmd) : Option Cs :=
  let op : KfsOp := ⟨st.nextOp, seq, true, cmd⟩
  let st := { st with nextOp := st.nextOp + 1, received := op :: st.received }
  match if cmd.isSync then lastWrite st.mOps else none with
  | some w => some { mark st (.held op.id) with mPendingOps := st.mPendingOps ++ [(w, op)] }
  | none => exec { st with mOps := st.mOps ++ [(op, false)] } op

/-! ## Events -/

/-- What can happen to a chunk server. `exec` is an operation of another client, of the metaserver or of the replicator;
`perform` carries out a disk request, of which `n` bytes go through, `complete` reports it. -/
inductive Ev
  | recv (seq : ℤ) (cmd : Cmd)
  | exec (cmd : Cmd)
  | perform (i n : ℕ)
  | complete (i : ℕ) (ok : Bool) (header : Option DiskChunkInfo)
  | otherDone (id : ℕ) (status : ℤ)
  | peerReply (id : ℕ) (status : ℤ)
  | allocateWriteId (chunkId : ℕ) (chunkVersion : ℤ)
  | scavengePendingWrites (n : ℕ)
  | removeChunk (chunkId : ℕ)
  | releaseChunk (chunkId : ℕ)
  | startReplica (chunkId : ℕ)
  | endReplica (chunkId : ℕ) (chunkVersion : ℤ)
  | leaseRenewed (chunkId : ℕ)
  | unRegisterLease (chunkId : ℕ)
  | netError

/-- The disk carries out a request; only `n` bytes of it go through. -/
def performRequest (st : Cs) (r : DiskRequest) (n : ℕ) : Cs × DiskRequest :=
  let f := st.files r.file
  match r.cmd with
  | .read _ _ => (st, { r with result := some ((f.read r.offset r.numBytes).take n) })
  | .readBlock _ _ => (st, { r with result := some ((f.read r.offset r.numBytes).take n) })
  | .write w =>
    let bytes := (w.dataBuf.flatten.take r.numBytes).take n
    ({ st with files := Function.update st.files r.file (f.write r.offset bytes) }, { r with result := some bytes })
  | _ => (st, { r with result := some [] })

def Cs.step (env : Env) (ev : Ev) (st : Cs) : Option Cs :=
  match ev with
  | .recv seq cmd =>
    match cmd.parse with
    | none => some st
    | some cmd =>
      if st.terminating then some st else ClientSM.HandleClientCmd (SubmitOp (st.submit env) env) st seq cmd
  | .exec cmd =>
    match cmd.parse with
    | none => some st
    | some cmd => SubmitOp (st.submit env) env { st with nextOp := st.nextOp + 1 } ⟨st.nextOp, 0, false, cmd⟩
  | .perform i n =>
    match st.disk[i]? with
    | none => some st
    | some r =>
      if r.result.isSome then some st
      else
        let (st, r) := performRequest st r n
        some { st with disk := st.disk.set i r }
  | .complete i ok header =>
    match st.disk[i]? with
    | none => some st
    | some r =>
      if ok ∧ r.result.isNone then some st
      else r.HandleEvent (st.submit env) env { st with disk := st.disk.eraseIdx i } ok header
  | .otherDone id status =>
    match takeWaiting id st.waiting with
    | none => some st
    | some (op, waiting) => if op.cmd.isOther then st.submit env { st with waiting := waiting } op status else some st
  | .peerReply id status =>
    if id ∈ st.peers then WriteSyncOp.wake (st.submit env) { st with peers := st.peers.erase id } id status
    else some st
  | .allocateWriteId c v => some (AllocateWriteId st c v)
  | .scavengePendingWrites n => some { st with mPendingWrites := st.mPendingWrites.drop n }
  | .removeChunk c => some (removeChunk st c)
  | .releaseChunk c => some (releaseChunk st c)
  | .startReplica c => some (AllocChunk env st c 0).1
  | .endReplica c v => some (ChangeChunkVers st c v).1
  | .leaseRenewed c => some (if (st.mLeases c).isSome then RegisterLease env st c else st)
  | .unRegisterLease c => some { st with mLeases := Function.update st.mLeases c none }
  | .netError => some { st with terminating := true }

/-- A run in which `C` holds of every step; it ends where an assertion fails. -/
def Cs.run (C : Cs → Env → Ev → Bool) : List (Env × Ev) → Cs → Option Cs
  | [], st => some st
  | (env, ev) :: es, st =>
    if C st env ev then
      match st.step env ev with
      | none => none
      | some st => Cs.run C es st
    else none

/-- **What holds of every reachable state.** -/
theorem Cs.run_invariant {C : Cs → Env → Ev → Bool} {P : Cs → Prop}
    (hstep : ∀ {st st' env ev}, P st → C st env ev = true → st.step env ev = some st' → P st') :
    ∀ {es : List (Env × Ev)} {st st' : Cs}, P st → Cs.run C es st = some st' → P st'
  | [], _, _, hP, h => Option.some.inj h ▸ hP
  | (env, ev) :: es, st, st', hP, h => by
    rw [Cs.run] at h
    by_cases hC : C st env ev = true
    · rw [if_pos hC] at h
      cases hs : st.step env ev with
      | none => simp [hs] at h
      | some st₁ =>
        rw [hs] at h
        exact Cs.run_invariant hstep (hstep hP hC hs) h
    · simp [hC] at h

/-- A chunk server that has just come up: chunks, but nothing going on. -/
structure Start (st : Cs) : Prop where
  disk : st.disk = []
  waiting : st.waiting = []
  peers : st.peers = []
  mOps : st.mOps = []
  mPendingOps : st.mPendingOps = []
  mPendingWrites : st.mPendingWrites = []
  received : st.received = []
  issued : st.issued = []
  signals : st.signals = []
  trace : st.trace = []
  written : st.written = []
  readChunkMetaOp : ∀ c cih, st.mChunkTable c = some cih → cih.readChunkMetaOp = none
  files : ∀ c cih, st.mChunkTable c = some cih → cih.file < st.nextFile

/-- A chunk server without chunks. -/
def Cs.idle (space : ℤ) : Cs where
  mChunkTable _ := none
  files _ := ⟨fun _ => 0, 0⟩
  nextFile := 0
  mUsedSpace := 0
  mTotalSpace := space
  mPendingWrites := []
  mWriteId := 0
  mLeases _ := none
  disk := []
  waiting := []
  peers := []
  mOps := []
  mPendingOps := []
  terminating := false
  nextOp := 0
  received := []
  issued := []
  signals := []
  trace := []
  written := []

theorem Cs.idle_start {space : ℤ} : Start (Cs.idle space) :=
  ⟨rfl, rfl, rfl, rfl, rfl, rfl, rfl, rfl, rfl, rfl, rfl, (fun _ _ h => nomatch h),
    fun _ _ h => nomatch h⟩

end Kfs.Chunk
