import Kfs.Fs.Model

/-!
# Requests

The request handlers of `request.cc` as steps of the metadata server. A step finds the clock and
the leases as they are (`Env`); what the layout manager and the chunk servers answer is part of the
request.

* `Req`, `LogRec`: requests and events, and the records that their `log` methods write;
* `Sys`: the metadata and the allocations that wait for their chunk servers;
* `handle`: one step, with the status (`none` while suspended) and the records logged;
* `Step`, `Run`: sequences of steps.
-/

namespace Kfs

/-! ## Requests and log records -/

/-- What `GetChunkWriteLease` answers for an existing chunk. -/
inductive LeaseReply
  | refused (status : ℤ)
  | valid
  | fresh
  deriving DecidableEq

/-- Client requests, and events that change the metadata. -/
inductive Req
  | create (dir : ℤ) (name : Str) (numReplicas : ℤ) (exclusive : Bool)
  | mkdir (dir : ℤ) (name : Str)
  | remove (dir : ℤ) (name : Str)
  | rmdir (dir : ℤ) (name : Str)
  | rename (dir : ℤ) (oldname newname : Str) (overwrite : Bool)
  /-- `reply` is used when the chunk exists, `placed` (the chunk servers have space) when not -/
  | allocate (fid offset : ℤ) (reply : LeaseReply) (placed : Bool)
  /-- the chunk servers have answered the `i`-th waiting allocation -/
  | layoutDone (i : ℕ) (ok : Bool)
  /-- `reply` and `placed` are used when a chunk must be allocated first -/
  | truncate (fid offset : ℤ) (reply : LeaseReply) (placed : Bool)
  | changeFileReplication (fid numReplicas : ℤ)
  | changeIncarnationNumber
  | cleanupDumpster
  | emptyDumpsterDir
  deriving DecidableEq

/-- Records of the log. -/
inductive LogRec
  | create (dir : ℤ) (name : Str) (fid numReplicas : ℤ)
  | mkdir (dir : ℤ) (name : Str) (fid : ℤ)
  | remove (dir : ℤ) (name : Str)
  | rmdir (dir : ℤ) (name : Str)
  | rename (dir : ℤ) (oldname newname : Str)
  | allocate (fid offset chunkId chunkVersion : ℤ)
  | truncate (fid offset : ℤ)
  | chunkVersionInc (n : ℤ)
  deriving DecidableEq

/-- An allocation that waits for its chunk servers. -/
structure Alloc where
  fid : ℤ
  offset : ℤ
  chunkId : ℤ
  chunkVersion : ℤ
  deriving DecidableEq

/-- The metadata server. -/
structure Sys where
  fs : Fs
  pending : List Alloc
  deriving DecidableEq

/-- The result of a step: the new state, the status unless the request is suspended, and the
records logged. -/
structure Out where
  sys : Sys
  status : Option ℤ
  log : List LogRec
  deriving DecidableEq

/-! ## Handlers -/

def is_dir (l : List Meta) (fid : ℤ) : Bool := (getFattr l fid).any fun fa => fa.type = .dir

def path_exists (l : List Meta) (pathname : Str) : Option Bool :=
  (lookupPath l ROOTFID pathname).map Option.isSome

/-- Specially named files can be removed and renamed in WORM mode. -/
def isWormMutationAllowed (pathname : Str) : Bool := decide (".tmp".toList <:+: pathname)

/-- In WORM mode only specially named files can be renamed, and never over an existing one. -/
def wormForbids (worm : Bool) (l : List Meta) (oldname newname : Str) : Option Bool :=
  if worm then (if ¬ isWormMutationAllowed oldname then some true else path_exists l newname)
  else some false

/-- A completed request; it is logged when it succeeded. -/
def done (s : Sys) (status : ℤ) (fs : Fs) (r : LogRec) : Out where
  sys := { s with fs := fs }
  status := some status
  log := if status = 0 then [r] else []

/-- A request that failed before it changed anything. -/
def refuse (s : Sys) (status : ℤ) : Out := ⟨s, some status, []⟩

/-- The first part of `handle_allocate`: grab an id and ask for the layout. -/
def startAllocate (s : Sys) (fid offset : ℤ) (reply : LeaseReply) (placed : Bool) : Option Out := do
  let (status, chunkId, chunkVersion, fs) ← allocateChunkId s.fs fid offset 0 true
  let s : Sys := { s with fs := fs }
  if status ≠ 0 ∧ status ≠ -EEXIST then return refuse s status
  else if status = -EEXIST then
    match reply with
    | .refused status => return refuse s status
    | .valid => return done s 0 fs (.allocate fid offset chunkId chunkVersion)
    | .fresh =>
      return ⟨{ s with pending := s.pending ++ [⟨fid, offset, chunkId, chunkVersion + fs.chunkVersionInc⟩] },
        none, []⟩
  else if placed then
    return ⟨{ s with pending := s.pending ++ [⟨fid, offset, chunkId, chunkVersion⟩] }, none, []⟩
  else return refuse s (-28)

/-- `ChangeIncarnationNumber`. -/
def changeIncarnationNumber (s : Sys) : Out :=
  let fs := if s.fs.chunkVersionInc < 1 then
    { s.fs with chunkVersionInc := s.fs.chunkVersionInc + 1 } else s.fs
  done s 0 fs (.chunkVersionInc fs.chunkVersionInc)

/-- One step of the server; `none` when it crashes. -/
def handle (worm : Bool) (env : Env) (s : Sys) : Req → Option Out
  | .create dir name numReplicas exclusive =>
    if ¬ is_dir s.fs.leaves dir then some (refuse s (-ENOTDIR))
    else (create env s.fs dir name 0 numReplicas exclusive).map fun (status, fid, fs) =>
      done s status fs (.create dir name fid numReplicas)
  | .mkdir dir name =>
    if ¬ is_dir s.fs.leaves dir then some (refuse s (-ENOTDIR))
    else (mkdir env s.fs dir name 0).map fun (status, fid, fs) =>
      done s status fs (.mkdir dir name fid)
  | .remove dir name =>
    if worm ∧ ¬ isWormMutationAllowed name then some (refuse s (-EPERM))
    else (remove env s.fs dir name).map fun (status, fs) => done s status fs (.remove dir name)
  | .rmdir dir name =>
    if worm ∧ ¬ isWormMutationAllowed name then some (refuse s (-EPERM))
    else (rmdir s.fs dir name).map fun (status, fs) => done s status fs (.rmdir dir name)
  | .rename dir oldname newname overwrite =>
    match wormForbids worm s.fs.leaves oldname newname with
    | none => none
    | some true => some (refuse s (-EPERM))
    | some false =>
      (rename env s.fs dir oldname newname overwrite).map fun (status, fs) =>
        done s status fs (.rename dir oldname newname)
  | .allocate fid offset reply placed => startAllocate s fid offset reply placed
  | .layoutDone i ok =>
    match s.pending[i]? with
    | none => none
    | some a =>
      let s := { s with pending := s.pending.eraseIdx i }
      if ok then
        let (status, fs) := assignChunkId env s.fs a.fid a.offset a.chunkId a.chunkVersion
        some (done s status fs (.allocate a.fid a.offset a.chunkId a.chunkVersion))
      else some (changeIncarnationNumber s)
  | .truncate fid offset reply placed =>
    if worm then some (refuse s (-EPERM))
    else
      match truncate env s.fs fid offset with
      | none => none
      | some (status, allocOffset, fs) =>
        if status > 0 then
          -- the truncation is submitted again when the allocation is done
          (startAllocate { s with fs := fs } fid allocOffset reply placed).map fun o =>
            { o with status := none, log := [] }
        else some (done s status fs (.truncate fid offset))
  | .changeFileReplication fid numReplicas =>
    let (status, fs) := changeFileReplication s.fs fid numReplicas
    some ⟨{ s with fs := fs }, some status, []⟩
  | .changeIncarnationNumber => some (changeIncarnationNumber s)
  | .cleanupDumpster => (cleanupDumpster env s.fs).map fun fs => ⟨{ s with fs := fs }, none, []⟩
  | .emptyDumpsterDir => (emptyDumpsterDir env s.fs).map fun fs => ⟨{ s with fs := fs }, none, []⟩

/-! ## Runs -/

/-- A request with what it finds outside. -/
structure Event where
  worm : Bool
  env : Env
  req : Req

/-- A sequence of completed steps that all meet a condition, with the state after them and the log. -/
inductive Run (C : Sys → Event → Prop) (s₀ : Sys) : List Event → Sys → List LogRec → Prop
  | nil : Run C s₀ [] s₀ []
  | step {es s log e o} : Run C s₀ es s log → C s e → handle e.worm e.env s e.req = some o →
      Run C s₀ (es ++ [e]) o.sys (log ++ o.log)

/-- The states that the server reaches from the tree of `new_tree`. -/
def Reachable (s : Sys) : Prop :=
  ∃ env fs es log, newTree env = some fs ∧ Run (fun _ _ => True) ⟨fs, []⟩ es s log

section

variable {C : Sys → Event → Prop} {s₀ s : Sys} {es : List Event} {log : List LogRec}

/-- **Invariant rule.** What holds of the start and is kept by every step holds in every state of a
run. -/
theorem Run.invariant {P : Sys → Prop} (hr : Run C s₀ es s log) (h₀ : P s₀)
    (hstep : ∀ s e o, P s → C s e → handle e.worm e.env s e.req = some o → P o.sys) : P s := by
  induction hr with
  | nil => exact h₀
  | step _ hc ho ih => exact hstep _ _ _ ih hc ho

/-- Run a list of events; `none` when a step crashes or does not meet the condition. -/
def exec (C : Sys → Event → Prop) [∀ s e, Decidable (C s e)] (s : Sys) :
    List Event → Option (Sys × List LogRec)
  | [] => some (s, [])
  | e :: es =>
    if C s e then
      match handle e.worm e.env s e.req with
      | none => none
      | some o => (exec C o.sys es).map fun r => (r.1, o.log ++ r.2)
    else none

theorem Run.trans {es' : List Event} {s' : Sys} {log' : List LogRec} [∀ s e, Decidable (C s e)]
    (hr : Run C s₀ es s log) (h : exec C s es' = some (s', log')) :
    Run C s₀ (es ++ es') s' (log ++ log') := by
  induction es' generalizing es s log log' with
  | nil =>
    obtain ⟨rfl, rfl⟩ : s = s' ∧ [] = log' := by simpa [exec] using h
    simpa using hr
  | cons e es' ih =>
    unfold exec at h
    split_ifs at h with hC
    rcases ho : handle e.worm e.env s e.req with - | o
    · simp [ho] at h
    simp only [ho, Option.map_eq_some_iff, Prod.exists, Prod.mk.injEq] at h
    obtain ⟨s₁, log₁, hx, rfl, rfl⟩ := h
    have := ih (hr.step hC ho) hx
    simpa using this

/-- What `exec` computes is a run. -/
theorem Run.of_exec [∀ s e, Decidable (C s e)] (h : exec C s₀ es = some (s, log)) :
    Run C s₀ es s log :=
  Run.nil.trans h

end

end Kfs
