import Kfs.Replay.LeaseFree
import Kfs.Server.Oplog

/-!
# What a crash keeps

The request thread serves the requests and hands them to the logger; the network thread answers them. A crash can come
between any two steps of the threads, and recovery plays the files of the log.

* `MetaServer`, `MetaServer.step`: the request thread together with those of the logger;
* `playFiles`: recovery;
* `Durable`: the requests that have been submitted have led from state to state;
* **`answers_survive`**: recovery leads to a state in which everything that has been answered is done.
-/

namespace Kfs

/-- What the logger gets of a step: nothing while the request is suspended. -/
def Out.request (o : Out) : Option LogRequest := o.status.map fun status => ⟨false, true, status, o.log.head?⟩

/-- The state of the tree with the threads. `past` is history: the states between the requests, each with the number of
requests that had been submitted. -/
structure MetaServer where
  sys : Sys
  oplog : Oplog
  past : List (ℕ × Sys)

inductive MetaServerEv
  /-- a request that can change the tree -/
  | serve (e : Event)
  /-- one that only reads it, with its status -/
  | read (status : ℤ)
  /-- a step of another thread -/
  | other (ev : OplogEv)

namespace MetaServer

/-- The server with a log of its own for the tree as it is. -/
def start (lognum seqno : ℕ) (lines : List LogLine) (s : Sys) : MetaServer :=
  ⟨s, .start lognum seqno lines, [(0, s)]⟩

/-- The state after a request. -/
def note (w : MetaServer) (s : Sys) (oplog : Oplog) : MetaServer :=
  ⟨s, oplog, w.past ++ [(oplog.submitted.length, s)]⟩

def step (w : MetaServer) : MetaServerEv → Option MetaServer
  | .serve e =>
    (handle e.worm e.env w.sys e.req).bind fun o =>
      match o.request with
      | none => some (w.note o.sys w.oplog)
      | some r => (w.oplog.step (.submit r)).map (w.note o.sys)
  | .read status => (w.oplog.step (.submit ⟨false, false, status, none⟩)).map (w.note w.sys)
  | .other (.submit _) => none
  | .other ev => (w.oplog.step ev).map fun oplog => { w with oplog }

def run (w : MetaServer) : List MetaServerEv → Option MetaServer
  | [] => some w
  | ev :: evs => (w.step ev).bind fun w => w.run evs

end MetaServer

/-- The loop of `playAllLogs` over the files that are there. -/
def playFiles (env : Env) (fs : Fs) : List LogFile → Option (Bool × Fs)
  | [] => some (true, fs)
  | f :: files =>
    match playlog env fs (linesText f.lines ++ f.torn) with
    | some (true, fs) => playFiles env fs files
    | x => x

variable {env : Env} {fs fs' : Fs} {s s₀ : Sys} {o : Out} {lines : List LogLine}

/-! ## Recovery -/

theorem redoAll_of_append {rs rs' : List LogRec} : ∀ {fs : Fs}, redoAll env fs (rs ++ rs') = some (true, fs') →
    ∃ fs₁, redoAll env fs rs = some (true, fs₁) := by
  induction rs with
  | nil => exact fun {fs} _ => ⟨fs, rfl⟩
  | cons r rs ih =>
    intro fs h
    rw [List.cons_append, redoAll] at h
    rw [redoAll]
    cases hr : redo env fs r with
    | none =>
      rw [hr] at h
      cases h
    | some x =>
      rw [hr] at h
      obtain ⟨b, fs₁⟩ := x
      cases b with
      | false => cases h
      | true => exact ih h

/-- Files that are read back are played record by record. -/
theorem playFiles_readBack : ∀ {files : List LogFile} {fs : Fs} {rss : List (List LogRec)},
    files.mapM (fun f => readRecords (linesText f.lines ++ f.torn)) = some rss →
    redoAll env fs rss.flatten = some (true, fs') → playFiles env fs files = some (true, fs')
  | [], fs, rss, hread, hredo => by
    cases hread
    exact hredo
  | f :: files, fs, rss, hread, hredo => by
    rw [List.mapM_cons] at hread
    obtain ⟨rs, hrs, hread⟩ := Option.bind_eq_some_iff.1 hread
    obtain ⟨rss', hrss, hread⟩ := Option.bind_eq_some_iff.1 hread
    cases hread
    rw [List.flatten_cons] at hredo
    obtain ⟨fs₁, hfirst⟩ := redoAll_of_append hredo
    rw [redoAll_append hfirst] at hredo
    rw [playFiles, playlog_iff.2 ⟨rs, hrs, hfirst⟩]
    exact playFiles_readBack hrss hredo

/-! ## Steps -/

/-- A step logs nothing, or is done with one record. -/
theorem Handled.log_le {req : Req} (h : Handled env s req o) : o.log = [] ∨ ∃ r, o.log = [r] ∧ o.status = some 0 := by
  have hdone : ∀ (s : Sys) st fs' r, (done s st fs' r).log = [] ∨
      ∃ r', (done s st fs' r).log = [r'] ∧ (done s st fs' r).status = some 0 := by
    intro s st fs' r
    rw [done]
    by_cases hst : st = 0
    · exact Or.inr ⟨r, if_pos hst, congrArg some hst⟩
    · exact Or.inl (if_neg hst)
  have hstart : ∀ {s : Sys} {fid offset reply placed o}, startAllocate s fid offset reply placed = some o →
      o.log = [] ∨ ∃ r, o.log = [r] ∧ o.status = some 0 := by
    intro s fid offset reply placed o ho
    rcases startAllocate_spec ho with
      ⟨-, rfl⟩ | ⟨fa, -, -, -, ⟨c, -, ⟨st, -, rfl⟩ | ⟨-, rfl⟩ | ⟨-, rfl⟩⟩ | ⟨-, ⟨-, rfl⟩ | ⟨-, rfl⟩⟩⟩
    · exact Or.inl rfl
    · exact Or.inl rfl
    · exact hdone _ _ _ _
    · exact Or.inl rfl
    · exact Or.inl rfl
    · exact Or.inl rfl
  cases h with
  | refused => exact Or.inl rfl
  | create | mkdir | remove | rmdir | rename | assigned | truncate => exact hdone _ _ _ _
  | allocate ha => exact hstart ha
  | layoutFailed | changeIncarnationNumber => exact hdone _ _ _ _
  | truncateAlloc | changeFileReplication | cleanupDumpster | emptyDumpsterDir => exact Or.inl rfl

/-- The records of the requests that the logger writes. -/
def logOf (rs : List LogRequest) : List LogRec := (rs.filter LogRequest.logs).filterMap LogRequest.record

theorem logOf_append (rs rs' : List LogRequest) : logOf (rs ++ rs') = logOf rs ++ logOf rs' := by
  rw [logOf, List.filter_append, List.filterMap_append]
  rfl

/-- The logger writes the records of the step. -/
theorem Handled.logOf_request {req : Req} (h : Handled env s req o) : logOf o.request.toList = o.log := by
  rcases h.log_le with hlog | ⟨r, hlog, hst⟩
  · rw [hlog, Out.request, hlog]
    cases o.status with
    | none => rfl
    | some st => by_cases hst : st = 0 <;> simp [logOf, LogRequest.logs, hst]
  · rw [hlog, Out.request, hlog, hst]
    rfl

theorem Oplog.answered_le (o : Oplog) : o.answered.length ≤ o.done.length := by
  rw [Oplog.done, List.append_assoc, List.length_append]
  exact Nat.le_add_right _ _

/-! ## What holds between the steps -/

/-- The log is in order, and the records of the first requests are those of a run that ends in a state of the past. -/
structure Durable (C : Sys → Event → Prop) (lines : List LogLine) (s₀ : Sys) (w : MetaServer) : Prop where
  ahead : WriteAhead lines w.oplog
  clean : w.oplog.Clean
  now : ∃ es, Run C s₀ es w.sys (logOf w.oplog.submitted)
  past : ∀ n ≤ w.oplog.submitted.length, ∃ s es, (n, s) ∈ w.past ∧ Run C s₀ es s (logOf (w.oplog.submitted.take n))

/-- What the steps are about: requests that meet a condition, and a logger for which nothing goes wrong. -/
def MetaServerEv.FineBy (C : Sys → Event → Prop) (w : MetaServer) : MetaServerEv → Prop
  | .serve e => C w.sys e
  | .other (.log io) => io.Fine
  | _ => True

/-- Parsed requests with names. -/
def MetaServerEv.Fine (w : MetaServer) (ev : MetaServerEv) : Prop := ev.FineBy NamedStep w

def MetaServer.FineRun (w : MetaServer) : List MetaServerEv → Prop
  | [] => True
  | ev :: evs => ev.Fine w ∧ ∀ w' ∈ w.step ev, w'.FineRun evs

instance (C : Sys → Event → Prop) [∀ s e, Decidable (C s e)] (w : MetaServer) (ev : MetaServerEv) :
    Decidable (ev.FineBy C w) := by
  unfold MetaServerEv.FineBy
  split <;> infer_instance

instance (w : MetaServer) (ev : MetaServerEv) : Decidable (ev.Fine w) :=
  inferInstanceAs (Decidable (ev.FineBy NamedStep w))

instance decidableFineRun : ∀ (w : MetaServer) (evs : List MetaServerEv), Decidable (w.FineRun evs)
  | _, [] => inferInstanceAs (Decidable True)
  | w, ev :: evs =>
    have : ∀ w' : MetaServer, Decidable (w'.FineRun evs) := fun w' => decidableFineRun w' evs
    inferInstanceAs (Decidable (ev.Fine w ∧ ∀ w' ∈ w.step ev, w'.FineRun evs))

variable {w w' : MetaServer} {C : Sys → Event → Prop}

theorem MetaServer.step_other {ev : OplogEv} (h : w.step (.other ev) = some w') : (∀ r, ev ≠ .submit r) ∧
    ∃ oplog, w.oplog.step ev = some oplog ∧ w' = { w with oplog } := by
  have hne : ∀ r, ev ≠ .submit r := by
    rintro r rfl
    cases h
  have hmap : (w.oplog.step ev).map (fun oplog => { w with oplog }) = some w' := by
    cases ev with
    | submit r => cases h
    | rollover | alarm | rolled | take | log | pass | answer => exact h
  obtain ⟨oplog, hstep, rfl⟩ := Option.map_eq_some_iff.1 hmap
  exact ⟨hne, oplog, hstep, rfl⟩

/-- The logger makes a step, or none. -/
theorem MetaServer.step_oplog {ev : MetaServerEv} (h : w.step ev = some w') :
    w'.oplog = w.oplog ∨ ∃ ev', w.oplog.step ev' = some w'.oplog := by
  cases ev with
  | serve e =>
    rw [MetaServer.step] at h
    obtain ⟨o, -, h⟩ := Option.bind_eq_some_iff.1 h
    cases hreq : o.request with
    | none =>
      rw [hreq] at h
      cases h
      exact Or.inl rfl
    | some r =>
      rw [hreq] at h
      obtain ⟨oplog, hsubmit, rfl⟩ := Option.map_eq_some_iff.1 h
      exact Or.inr ⟨_, hsubmit⟩
  | read status =>
    rw [MetaServer.step] at h
    obtain ⟨oplog, hsubmit, rfl⟩ := Option.map_eq_some_iff.1 h
    exact Or.inr ⟨_, hsubmit⟩
  | other ev =>
    obtain ⟨-, oplog, hothers, rfl⟩ := MetaServer.step_other h
    exact Or.inr ⟨_, hothers⟩

namespace Durable

theorem start {lognum seqno : ℕ} (hlines : ∀ e ∈ lines, e.Sound) :
    Durable C lines s₀ (.start lognum seqno lines s₀) where
  ahead := WriteAhead.start lognum seqno lines
  clean := Oplog.Clean.start hlines
  now := ⟨[], .nil⟩
  past n hn := by
    obtain rfl : n = 0 := Nat.le_zero.1 hn
    exact ⟨s₀, [], List.mem_singleton_self _, .nil⟩

/-- The state after a step in which a request has been handed over. -/
theorem note (h : Durable C lines s₀ w) {s : Sys} {es : List Event} {r : LogRequest} {oplog : Oplog}
    (hsubmit : w.oplog.step (.submit r) = some oplog) (hr : (OplogEv.submit r).Fine)
    (hrun : Run C s₀ es s (logOf (w.oplog.submitted ++ [r]))) : Durable C lines s₀ (w.note s oplog) := by
  have hsub : oplog.submitted = w.oplog.submitted ++ [r] := by rw [Oplog.step_submit hsubmit]
  refine ⟨h.ahead.step hsubmit, h.clean.step hr hsubmit, ⟨es, ?_⟩, ?_⟩
  · rw [MetaServer.note, hsub]
    exact hrun
  · intro n hn
    rw [MetaServer.note, hsub] at hn ⊢
    rw [List.length_append, List.length_singleton] at hn
    rcases Nat.lt_or_ge n (w.oplog.submitted.length + 1) with hlt | hge
    · obtain ⟨s₁, es₁, hmem, hrun₁⟩ := h.past n (Nat.le_of_lt_succ hlt)
      refine ⟨s₁, es₁, List.mem_append_left _ hmem, ?_⟩
      rw [List.take_append_of_le_length (Nat.le_of_lt_succ hlt)]
      exact hrun₁
    · obtain rfl : n = w.oplog.submitted.length + 1 := Nat.le_antisymm hn hge
      refine ⟨s, es, List.mem_append_right _ ?_, ?_⟩
      · rw [List.length_append]
        exact List.mem_singleton_self _
      · rw [List.take_of_length_le (by simp)]
        exact hrun

theorem step {ev : MetaServerEv} (hC : ∀ s e, C s e → NamedStep s e) (h₀ : Numbered s₀) (h : Durable C lines s₀ w)
    (hev : ev.FineBy C w) (hstep : w.step ev = some w') : Durable C lines s₀ w' := by
  obtain ⟨es, hrun⟩ := h.now
  cases ev with
  | serve e =>
    rw [MetaServer.step] at hstep
    obtain ⟨o, ho, hstep⟩ := Option.bind_eq_some_iff.1 hstep
    have hnext := hrun.step hev ho
    rw [← (handle_cases ho).logOf_request, ← logOf_append] at hnext
    cases hreq : o.request with
    | none =>
      rw [hreq] at hstep hnext
      cases hstep
      rw [Option.toList_none, List.append_nil] at hnext
      refine ⟨h.ahead, h.clean, ⟨_, hnext⟩, ?_⟩
      intro n hn
      obtain ⟨s₁, es₁, hmem, hrun₁⟩ := h.past n hn
      exact ⟨s₁, es₁, List.mem_append_left _ hmem, hrun₁⟩
    | some r =>
      rw [hreq] at hstep hnext
      obtain ⟨oplog, hsubmit, rfl⟩ := Option.map_eq_some_iff.1 hstep
      refine h.note hsubmit ?_ hnext
      intro x hx
      have hnamed : NamedStep w.sys e := hC _ _ hev
      refine handle_onDisk (hrun.numbered (fun s e h => (hC s e h).parsed) h₀) hnamed.parsed (fun n => hnamed.legal)
        hnamed.fits ho x ?_
      obtain ⟨st, hst, rfl⟩ := Option.map_eq_some_iff.1 hreq
      exact List.mem_of_mem_head? hx
  | read status =>
    rw [MetaServer.step] at hstep
    obtain ⟨oplog, hsubmit, rfl⟩ := Option.map_eq_some_iff.1 hstep
    refine h.note hsubmit (fun x hx => by cases hx) (?_ : Run C s₀ es _ _)
    rw [logOf_append]
    exact (List.append_nil _).symm ▸ hrun
  | other ev =>
    obtain ⟨hne, oplog, hothers, rfl⟩ := MetaServer.step_other hstep
    have hsub := Oplog.step_submitted hne hothers
    have hclean : ev.Fine := by
      cases ev with
      | submit r => exact absurd rfl (hne r)
      | log io => exact hev
      | rollover | alarm | rolled | take | pass | answer => trivial
    refine ⟨h.ahead.step hothers, h.clean.step hclean hothers, ⟨es, ?_⟩, ?_⟩
    · change Run C s₀ es w.sys (logOf oplog.submitted)
      rw [hsub]
      exact hrun
    · intro n hn
      change n ≤ oplog.submitted.length at hn
      rw [hsub] at hn
      obtain ⟨s₁, es₁, hmem, hrun₁⟩ := h.past n hn
      refine ⟨s₁, es₁, hmem, ?_⟩
      change Run C s₀ es₁ s₁ (logOf (oplog.submitted.take n))
      rw [hsub]
      exact hrun₁

theorem run (h₀ : Numbered s₀) : ∀ {evs : List MetaServerEv} {w w' : MetaServer}, Durable NamedStep lines s₀ w →
    w.FineRun evs → w.run evs = some w' → Durable NamedStep lines s₀ w'
  | [], _, _, h, _, hrun => by
    cases hrun
    exact h
  | ev :: evs, w, w', h, hfine, hrun => by
    rw [MetaServer.run] at hrun
    obtain ⟨w₁, hstep, hrun⟩ := Option.bind_eq_some_iff.1 hrun
    exact (h.step (fun _ _ h => h) h₀ hfine.1 hstep).run h₀ (hfine.2 w₁ hstep) hrun

theorem done_le (h : Durable C lines s₀ w) : w.oplog.done.length ≤ w.oplog.submitted.length := by
  rw [← h.ahead.order, List.length_append, List.length_map]
  exact Nat.le_add_right _ _

/-- The files have the records of the first requests, those that the logger is done with. -/
theorem records_eq (h : Durable C lines s₀ w) (hnone : records lines = []) :
    w.oplog.records = logOf (w.oplog.submitted.take w.oplog.done.length) := by
  have htake : w.oplog.submitted.take w.oplog.done.length = w.oplog.done.map Prod.snd := by
    rw [← h.ahead.order]
    exact List.take_left' (List.length_map _)
  have hlogs : w.oplog.logs = fun q => q.2.logs := by
    funext q
    simp [Oplog.logs, h.clean.refused]
  rw [h.ahead.records, hnone, List.nil_append, htake, logOf, Oplog.recordsOf, hlogs]
  simp [List.filter_map, List.filterMap_map, Function.comp_def]

end Durable

/-- **A crash keeps everything that has been answered.** Between any two steps of the threads, the files of the log lead
from the tree at the start to a tree that looks like that of a state in which the answered requests, and no request
without its predecessors, have been served. -/
theorem answers_survive {lognum seqno : ℕ} {evs : List MetaServerEv} (h₀ : ServedOnce s₀)
    (hlines : ∀ e ∈ lines, e.Sound) (hnone : records lines = [])
    (hfine : (MetaServer.start lognum seqno lines s₀).FineRun evs)
    (hrun : (MetaServer.start lognum seqno lines s₀).run evs = some w) (now : Timeval) :
    ∃ n s R, (n, s) ∈ w.past ∧ w.oplog.answered.length ≤ n ∧
      playFiles ⟨now, fun _ => false⟩ s₀.fs (w.oplog.closed ++ [w.oplog.file]) = some (true, R) ∧ Follows s R := by
  obtain ⟨hN, hM⟩ := h₀.start
  have hD := (Durable.start hlines).run hN hfine hrun
  obtain ⟨s, es, hmem, hr⟩ := hD.past _ hD.done_le
  obtain ⟨-, -, R, hR, hF⟩ := @Run.follows ⟨now, fun _ => false⟩ _ _ _ _ (fun _ => rfl) hN hM hr
  have hback := hD.clean.readBack
  obtain ⟨rss, hread, hflat⟩ := Option.map_eq_some_iff.1 hback
  refine ⟨_, s, R, hmem, w.oplog.answered_le, playFiles_readBack hread ?_, hF⟩
  rw [hflat, hD.records_eq hnone]
  exact hR

/-- Three requests, of which one has been answered when the server stops. -/
def stoppedEvs : List MetaServerEv :=
  let io : LogIO := ⟨none, true, true, ['1'], ['2']⟩
  [.serve (idle (.mkdir ROOTFID ['d'])), .other .take, .serve (idle (.create ROOTFID ['f'] 1 true)), .other (.log io),
    .other .alarm, .other .pass, .read (-ENOENT), .other .rollover, .other .take, .other .answer, .other (.log io),
    .other .pass, .other .take, .other (.log io)]

def stoppedStart : MetaServer := .start 0 0 [.version, .time ['0']] rootSys

theorem stoppedEvs_survive : ∃ w n s R, stoppedStart.run stoppedEvs = some w ∧ w.oplog.answered.length = 1 ∧
    (n, s) ∈ w.past ∧ w.oplog.answered.length ≤ n ∧
    playFiles idleEnv rootSys.fs (w.oplog.closed ++ [w.oplog.file]) = some (true, R) ∧ Follows s R := by
  have hx : (stoppedStart.run stoppedEvs).map (fun w => w.oplog.answered.length) = some 1 := by decide +kernel
  obtain ⟨w, hrun, hlen⟩ := Option.map_eq_some_iff.mp hx
  have hfine : stoppedStart.FineRun stoppedEvs := by decide +kernel
  obtain ⟨n, s, R, hmem, hle, hplay, hF⟩ := answers_survive rootSys_servedOnce (by decide +kernel) rfl hfine hrun
    idleEnv.now
  exact ⟨w, n, s, R, hrun, hlen, hmem, hle, hplay, hF⟩

end Kfs
