import Kfs.Disk.Tail

/-!
# Records before answers

`process_request` hands a request to the logger, the logger writes its record, and the network thread answers it. These
threads, and the timer that changes the log file, meet in queues, and each takes its next step at any time.

* `LogRequest`, `Oplog`: what the logger looks at, the queues and the log files;
* `log`, `finishLog`, `flushResult`: the logger, `none` when it panics or its assertion fails;
* `Oplog.step`, `Oplog.run`: the threads;
* `WriteAhead`: what holds between all steps;
* **`write_ahead`**: the answers go out in the order of the requests, and what they promise has been written before.
-/

namespace Kfs

/-! ## The logger -/

/-- A request as the logger sees it: `record` is what its `log` method writes. -/
structure LogRequest where
  rollover : Bool
  mutation : Bool
  status : ℤ
  record : Option LogRec
  deriving DecidableEq

/-- `MetaLogRollover`, after its handler. -/
def LogRequest.logRollover : LogRequest := ⟨true, true, 0, none⟩

/-- The requests that `logger_main` logs. -/
def LogRequest.logs (r : LogRequest) : Bool := r.mutation && decide (r.status = 0)

/-- A log file: its whole lines, and what a write that failed has left behind them. -/
structure LogFile where
  number : ℕ
  lines : List LogLine
  torn : Str

/-- Where `logger_main` is in its turn. -/
inductive LoggerThread
  | waiting
  | took (seqno : ℕ) (r : LogRequest)
  | wrote (seqno : ℕ) (r : LogRequest)

/-- `oplog` and the threads around it: `failed` is the state of the stream, `rolling` says that `logtimer` waits for the
rollover that it has submitted, `requested` that it is in the queue of the request thread, and `mutations` is the
counter of `cp`. The fields from `closed` on are history; `refused` has the requests for which
`Logger::log` has returned an error. -/
structure Oplog where
  pending : List LogRequest
  logged : List (ℕ × LogRequest)
  cpdone : ℕ
  thread : LoggerThread
  nextseq : ℕ
  committed : ℕ
  incp : ℕ
  mutations : ℕ
  file : LogFile
  failed : Bool
  rolling : Bool
  requested : Bool
  closed : List LogFile
  submitted : List LogRequest
  answered : List (ℕ × LogRequest)
  refused : List ℕ

/-- What the file system does in a turn: the part of the line that is in the file when its write fails, whether the
stream can be flushed, whether the next file can be opened, and the times at which the files are closed and opened. -/
structure LogIO where
  torn : Option Str
  flushed : Bool
  opened : Bool
  closedAt : Str
  openedAt : Str

namespace Oplog

/-- `logger_init`: the log is open, with what a recovery has found in it. -/
def start (lognum seqno : ℕ) (lines : List LogLine) : Oplog where
  pending := []
  logged := []
  cpdone := 0
  thread := .waiting
  nextseq := seqno
  committed := seqno
  incp := seqno
  mutations := 0
  file := ⟨lognum, lines, []⟩
  failed := false
  rolling := false
  requested := false
  closed := []
  submitted := []
  answered := []
  refused := []

variable (io : LogIO) (o : Oplog)

/-- A stream that has failed takes nothing more. -/
def write (e : LogLine) : Oplog :=
  if o.failed then o
  else
    match io.torn with
    | none => { o with file := { o.file with lines := o.file.lines ++ [e] } }
    | some part => { o with file := { o.file with torn := part }, failed := true }

/-- `startLog` for a log that is not there yet. -/
def startLog (seqno : ℕ) : Oplog :=
  if io.opened then { o with file := ⟨seqno, [.version, .time io.openedAt], []⟩, failed := false }
  else { o with file := ⟨seqno, [], []⟩, failed := true }

def finishLog : Oplog :=
  let o := o.write io (.time io.closedAt)
  let o := { o with closed := o.closed ++ [o.file], incp := o.committed }
  { startLog io o (o.file.number + 1) with mutations := 0 }

/-- The `log` method of the request; a request without a record does not look at the stream. -/
def logMethod (r : LogRequest) : Oplog × Bool :=
  if r.rollover then
    let o := finishLog io o
    (o, !o.failed)
  else
    match r.record with
    | none => (o, true)
    | some x =>
      let o := o.write io (.record x)
      (o, !o.failed)

/-- `flushLog` panics when the stream fails. -/
def flushLog : Option Oplog := if o.failed || !io.flushed then none else some { o with committed := o.nextseq }

def flushResult (seqno : ℕ) : Option Oplog :=
  if o.committed < seqno then (flushLog io o).bind fun o => if seqno ≤ o.committed then some o else none
  else some o

/-- `Logger::log`, whose result the caller drops. -/
def log (seqno : ℕ) (r : LogRequest) : Option Oplog :=
  let (o, fine) := logMethod io o r
  if fine then flushResult io o seqno else some { o with refused := o.refused ++ [seqno] }

/-- The middle of a turn of `logger_main`. -/
def logTurn (seqno : ℕ) (r : LogRequest) : Option Oplog :=
  let logged := if r.logs then
    (log io o seqno r).map fun o => if r.rollover then o else { o with mutations := o.mutations + 1 }
  else some o
  logged.map fun o => { o with thread := .wrote seqno r }

end Oplog

/-! ## The threads -/

inductive OplogEv
  /-- `add_pending` in `process_request`, for a request and for the rollover -/
  | submit (r : LogRequest)
  | rollover
  /-- `logtimer`: its alarm, and the end of `wait_for_cp` -/
  | alarm
  | rolled
  /-- `get_pending`, the log, and the queue for the result -/
  | take
  | log (io : LogIO)
  | pass
  /-- `next_result_nowait` in `NetDispatch::Dispatch` -/
  | answer

namespace Oplog

/-- `none` when the thread waits, or has stopped the server. -/
def step (o : Oplog) : OplogEv → Option Oplog
  | .submit r =>
    if r.rollover then none else some { o with pending := o.pending ++ [r], submitted := o.submitted ++ [r] }
  | .rollover =>
    if o.requested then some { o with pending := o.pending ++ [.logRollover], requested := false } else none
  | .alarm =>
    if o.rolling then none
    else if o.mutations = 0 then some o
    else some { o with rolling := true, requested := true }
  | .rolled => if o.cpdone = 0 then none else some { o with cpdone := o.cpdone - 1, rolling := false }
  | .take =>
    match o.thread, o.pending with
    | .waiting, r :: rest =>
      some { o with pending := rest, nextseq := o.nextseq + 1, thread := .took (o.nextseq + 1) r }
    | _, _ => none
  | .log io =>
    match o.thread with
    | .took seqno r => logTurn io o seqno r
    | _ => none
  | .pass =>
    match o.thread with
    | .wrote seqno r =>
      if r.rollover then some { o with thread := .waiting, cpdone := o.cpdone + 1 }
      else some { o with thread := .waiting, logged := o.logged ++ [(seqno, r)] }
    | _ => none
  | .answer =>
    match o.logged with
    | q :: rest => some { o with logged := rest, answered := o.answered ++ [q] }
    | [] => none

def run (o : Oplog) : List OplogEv → Option Oplog
  | [] => some o
  | ev :: evs => (o.step ev).bind fun o => o.run evs

end Oplog

/-! ## What holds between the steps -/

/-- The request that the logger has, before its log. -/
def LoggerThread.toDo : LoggerThread → List LogRequest
  | .took _ r => [r]
  | _ => []

/-- The request that the logger has, after its log, for the queue of the results. -/
def LoggerThread.did : LoggerThread → List (ℕ × LogRequest)
  | .wrote seqno r => if r.rollover then [] else [(seqno, r)]
  | _ => []

namespace Oplog

/-- The requests that the logger is done with, with their numbers. -/
def done (o : Oplog) : List (ℕ × LogRequest) := o.answered ++ o.logged ++ o.thread.did

/-- The requests that the logger has still to log. -/
def undone (o : Oplog) : List LogRequest := (o.thread.toDo ++ o.pending).filter fun r => !r.rollover

/-- The records in the log files. -/
def records (o : Oplog) : List LogRec := (o.closed ++ [o.file]).flatMap fun f => Kfs.records f.lines

/-- The request has been logged, and not refused. -/
def logs (o : Oplog) (q : ℕ × LogRequest) : Bool := q.2.logs && decide (q.1 ∉ o.refused)

/-- The records of the requests among `qs` that have been logged. -/
def recordsOf (o : Oplog) (qs : List (ℕ × LogRequest)) : List LogRec :=
  (qs.filter o.logs).filterMap fun q => q.2.record

end Oplog

/-- Everything is in its order, and the files have the records of what is done. -/
structure WriteAhead (lines : List LogLine) (o : Oplog) : Prop where
  order : o.done.map Prod.snd ++ o.undone = o.submitted
  below : ∀ q ∈ o.done, q.1 ≤ o.nextseq
  refused : ∀ s ∈ o.refused, s ≤ o.nextseq
  took : ∀ s r, o.thread = .took s r → s = o.nextseq ∧ o.committed < s ∧ (∀ q ∈ o.done, q.1 < s) ∧
    ∀ s' ∈ o.refused, s' < s
  committed : o.committed ≤ o.nextseq
  durable : ∀ q ∈ o.done, o.logs q = true → q.1 ≤ o.committed
  records : o.records = Kfs.records lines ++ o.recordsOf o.done

namespace Oplog

variable {o o' : Oplog} {io : LogIO} {s : ℕ} {r : LogRequest} {lines : List LogLine}

/-- A line is in the file, or the stream has failed. -/
theorem write_records (io : LogIO) (o : Oplog) (e : LogLine) : (o.write io e).records =
    o.records ++ if (o.write io e).failed then [] else e.record?.toList := by
  have hrec : ∀ ls : List LogLine, Kfs.records (ls ++ [e]) = Kfs.records ls ++ e.record?.toList := by
    intro ls
    rw [records_append]
    cases e <;> rfl
  by_cases hfailed : o.failed = true
  · simp [write, hfailed]
  · cases htorn : io.torn with
    | none => simp [write, hfailed, htorn, records, hrec]
    | some part => simp [write, hfailed, htorn, records]

/-- The part of the logger that writing the log changes. -/
def SameQueues (o o' : Oplog) : Prop :=
  ∃ closed file failed incp mutations, o' = { o with closed, file, failed, incp, mutations }

theorem write_same (io : LogIO) (o : Oplog) (e : LogLine) : SameQueues o (o.write io e) := by
  rw [write]
  split_ifs
  · exact ⟨_, _, _, _, _, rfl⟩
  · cases io.torn <;> exact ⟨_, _, _, _, _, rfl⟩

theorem finishLog_same (io : LogIO) (o : Oplog) : SameQueues o (finishLog io o) := by
  obtain ⟨closed, file, failed, incp, mutations, hwrite⟩ := write_same io o (.time io.closedAt)
  rw [finishLog, hwrite]
  dsimp only [startLog]
  split_ifs <;> exact ⟨_, _, _, _, _, rfl⟩

/-- The file that is closed keeps its records, the one that is opened has none. -/
theorem finishLog_records (io : LogIO) (o : Oplog) : (finishLog io o).records = o.records := by
  have hwrite : (o.write io (.time io.closedAt)).records = o.records := by
    rw [write_records]
    split_ifs <;> exact List.append_nil _
  rw [← hwrite, finishLog]
  dsimp only [startLog]
  split_ifs <;> simp [records, Kfs.records, LogLine.record?]

theorem logMethod_same (io : LogIO) (o : Oplog) (r : LogRequest) : SameQueues o (logMethod io o r).1 := by
  rw [logMethod]
  split_ifs
  · exact finishLog_same io o
  · cases r.record with
    | none => exact ⟨_, _, _, _, _, rfl⟩
    | some x => exact write_same io o (.record x)

/-- The record of a request that a successful `log` method leaves. -/
def written (r : LogRequest) : List LogRec := if r.rollover then [] else r.record.toList

theorem logMethod_records (io : LogIO) (o : Oplog) (r : LogRequest) : (logMethod io o r).1.records =
    o.records ++ if (logMethod io o r).2 then written r else [] := by
  rw [written, logMethod]
  split_ifs with hroll hfine hfine
  · rw [finishLog_records, List.append_nil]
  · rw [finishLog_records, List.append_nil]
  · cases hrec : r.record with
    | none => exact (List.append_nil _).symm
    | some x =>
      rw [hrec] at hfine
      simp only [Bool.not_eq_true'] at hfine
      simp only [write_records, hfine]
      rfl
  · cases hrec : r.record with
    | none => rw [hrec] at hfine; exact absurd rfl hfine
    | some x =>
      rw [hrec] at hfine
      simp only [Bool.not_eq_true', Bool.not_eq_false] at hfine
      simp only [write_records, hfine]
      rfl

/-- A request is refused, or its record is in the file and the stream has been flushed. -/
theorem log_spec (hs : s = o.nextseq) (hc : o.committed < s) (h : log io o s r = some o') :
    ∃ o₁, SameQueues o o₁ ∧
      (o' = { o₁ with refused := o.refused ++ [s] } ∧ o₁.records = o.records ∨
        o' = { o₁ with committed := o.nextseq } ∧ o₁.records = o.records ++ written r) := by
  have hsame := logMethod_same io o r
  have hrec := logMethod_records io o r
  rw [log] at h
  cases hm : logMethod io o r with
  | mk o₁ fine =>
  rw [hm] at hsame hrec h
  refine ⟨o₁, hsame, ?_⟩
  obtain ⟨closed, file, failed, incp, mutations, rfl⟩ := hsame
  cases fine with
  | false =>
    left
    exact ⟨(Option.some.inj h).symm, hrec.trans (List.append_nil _)⟩
  | true =>
    right
    have hlt : o.committed < s := hc
    simp only [flushResult, if_pos hlt, flushLog, if_true] at h
    split_ifs at h with hflush
    · cases h
    · rw [Option.bind_some, if_pos hs.le] at h
      exact ⟨(Option.some.inj h).symm, hrec⟩

/-- A turn of the logger: a request that is not logged, one that is refused, one whose record is written. -/
theorem logTurn_spec (hs : s = o.nextseq) (hc : o.committed < s) (h : logTurn io o s r = some o') :
    ∃ o₁ committed refused, SameQueues o o₁ ∧ o' = { o₁ with committed, refused, thread := .wrote s r } ∧
      (¬ r.logs = true ∧ committed = o.committed ∧ refused = o.refused ∧ o₁.records = o.records ∨
        r.logs = true ∧ committed = o.committed ∧ refused = o.refused ++ [s] ∧ o₁.records = o.records ∨
        r.logs = true ∧ committed = o.nextseq ∧ refused = o.refused ∧ o₁.records = o.records ++ written r) := by
  rw [logTurn] at h
  by_cases hlogs : r.logs = true
  · rw [if_pos hlogs, Option.map_map, Option.map_eq_some_iff] at h
    obtain ⟨o₂, hlog, rfl⟩ := h
    obtain ⟨o₁, ⟨closed, file, failed, incp, mutations, rfl⟩, hcases⟩ := log_spec hs hc hlog
    refine ⟨{ o with closed, file, failed, incp, mutations := if r.rollover then mutations else mutations + 1 }, ?_⟩
    rcases hcases with ⟨rfl, hrec⟩ | ⟨rfl, hrec⟩
    · refine ⟨_, _, ⟨_, _, _, _, _, rfl⟩, ?_, Or.inr (Or.inl ⟨hlogs, rfl, rfl, hrec⟩)⟩
      cases r.rollover <;> rfl
    · refine ⟨_, _, ⟨_, _, _, _, _, rfl⟩, ?_, Or.inr (Or.inr ⟨hlogs, rfl, rfl, hrec⟩)⟩
      cases r.rollover <;> rfl
  · rw [if_neg hlogs] at h
    exact ⟨o, _, _, ⟨_, _, _, _, _, rfl⟩, (Option.some.inj h).symm, Or.inl ⟨hlogs, rfl, rfl, rfl⟩⟩

theorem flushResult_submitted (h : flushResult io o s = some o') : o'.submitted = o.submitted := by
  rw [flushResult] at h
  split_ifs at h
  · obtain ⟨o₁, hflush, hassert⟩ := Option.bind_eq_some_iff.1 h
    rw [flushLog] at hflush
    split_ifs at hflush
    cases hflush
    split_ifs at hassert
    cases hassert
    rfl
  · cases h
    rfl

theorem log_submitted (h : log io o s r = some o') : o'.submitted = o.submitted := by
  have hsame := logMethod_same io o r
  rw [log] at h
  cases hm : logMethod io o r with
  | mk o₁ fine =>
  rw [hm] at hsame h
  have hsub : o₁.submitted = o.submitted := by
    obtain ⟨closed, file, failed, incp, mutations, heq⟩ := hsame
    rw [show o₁ = _ from heq]
  cases fine with
  | false =>
    cases h
    exact hsub
  | true => exact (flushResult_submitted h).trans hsub

/-- The logger submits nothing. -/
theorem logTurn_submitted (h : logTurn io o s r = some o') : o'.submitted = o.submitted := by
  rw [logTurn] at h
  by_cases hlogs : r.logs = true
  · rw [if_pos hlogs, Option.map_map, Option.map_eq_some_iff] at h
    obtain ⟨o₁, hlog, rfl⟩ := h
    rw [← log_submitted hlog]
    cases r.rollover <;> rfl
  · rw [if_neg hlogs] at h
    cases h
    rfl

theorem step_take (h : o.step .take = some o') : ∃ r rest, o.thread = .waiting ∧ o.pending = r :: rest ∧
    o' = { o with pending := rest, nextseq := o.nextseq + 1, thread := .took (o.nextseq + 1) r } := by
  rw [step] at h
  split at h
  · exact ⟨_, _, ‹_›, ‹_›, (Option.some.inj h).symm⟩
  · cases h

theorem step_log (h : o.step (.log io) = some o') : ∃ s r, o.thread = .took s r ∧ logTurn io o s r = some o' := by
  rw [step] at h
  split at h
  · exact ⟨_, _, ‹_›, h⟩
  · cases h

theorem step_pass (h : o.step .pass = some o') : ∃ s r, o.thread = .wrote s r ∧
    (r.rollover = true ∧ o' = { o with thread := .waiting, cpdone := o.cpdone + 1 } ∨
      ¬ r.rollover = true ∧ o' = { o with thread := .waiting, logged := o.logged ++ [(s, r)] }) := by
  rw [step] at h
  split at h
  · split_ifs at h with hroll
    · exact ⟨_, _, ‹_›, Or.inl ⟨hroll, (Option.some.inj h).symm⟩⟩
    · exact ⟨_, _, ‹_›, Or.inr ⟨hroll, (Option.some.inj h).symm⟩⟩
  · cases h

theorem step_answer (h : o.step .answer = some o') : ∃ q rest, o.logged = q :: rest ∧
    o' = { o with logged := rest, answered := o.answered ++ [q] } := by
  rw [step] at h
  split at h
  · exact ⟨_, _, ‹_›, (Option.some.inj h).symm⟩
  · cases h

theorem step_submit (h : o.step (.submit r) = some o') :
    o' = { o with pending := o.pending ++ [r], submitted := o.submitted ++ [r] } := by
  rw [step] at h
  split_ifs at h
  exact (Option.some.inj h).symm

/-- The other threads submit nothing. -/
theorem step_submitted {ev : OplogEv} (hev : ∀ r, ev ≠ .submit r) (h : o.step ev = some o') :
    o'.submitted = o.submitted := by
  cases ev with
  | submit r => exact absurd rfl (hev r)
  | rollover =>
    rw [step] at h
    split_ifs at h
    cases h
    rfl
  | alarm =>
    rw [step] at h
    split_ifs at h <;> cases h <;> rfl
  | rolled =>
    rw [step] at h
    split_ifs at h
    cases h
    rfl
  | take =>
    obtain ⟨r, rest, -, -, rfl⟩ := step_take h
    rfl
  | log io =>
    obtain ⟨s, r, -, hturn⟩ := step_log h
    exact logTurn_submitted hturn
  | pass =>
    obtain ⟨s, r, -, ⟨-, rfl⟩ | ⟨-, rfl⟩⟩ := step_pass h <;> rfl
  | answer =>
    obtain ⟨q, rest, -, rfl⟩ := step_answer h
    rfl

/-- A file is closed and the next one is opened, or the files stay the same ones. -/
def Rolls (o o' : Oplog) : Prop :=
  (o'.closed = o.closed ∧ o'.file.number = o.file.number) ∨
    ∃ f, o'.closed = o.closed ++ [f] ∧ f.number = o.file.number ∧ o'.file.number = o.file.number + 1

theorem write_number (io : LogIO) (o : Oplog) (e : LogLine) :
    (o.write io e).closed = o.closed ∧ (o.write io e).file.number = o.file.number := by
  rw [write]
  split_ifs
  · exact ⟨rfl, rfl⟩
  · cases io.torn <;> exact ⟨rfl, rfl⟩

theorem logMethod_rolls (io : LogIO) (o : Oplog) (r : LogRequest) : o.Rolls (logMethod io o r).1 := by
  rw [logMethod]
  split_ifs
  · obtain ⟨hclosed, hnumber⟩ := write_number io o (.time io.closedAt)
    refine Or.inr ⟨(o.write io (.time io.closedAt)).file, ?_, hnumber, ?_⟩
    · rw [finishLog, ← hclosed]
      dsimp only [startLog]
      split_ifs <;> rfl
    · rw [finishLog, ← hnumber]
      dsimp only [startLog]
      split_ifs <;> rfl
  · cases r.record with
    | none => exact Or.inl ⟨rfl, rfl⟩
    | some x => exact Or.inl (write_number io o (.record x))

theorem log_files (h : log io o s r = some o') :
    (logMethod io o r).1.closed = o'.closed ∧ (logMethod io o r).1.file = o'.file := by
  rw [log] at h
  cases hm : logMethod io o r with
  | mk o₁ fine =>
  rw [hm] at h
  cases fine with
  | false =>
    cases h
    exact ⟨rfl, rfl⟩
  | true =>
    dsimp only at h
    rw [if_pos rfl, flushResult] at h
    split_ifs at h
    · obtain ⟨o₂, hflush, hassert⟩ := Option.bind_eq_some_iff.1 h
      rw [flushLog] at hflush
      split_ifs at hflush
      cases hflush
      split_ifs at hassert
      cases hassert
      exact ⟨rfl, rfl⟩
    · cases h
      exact ⟨rfl, rfl⟩

theorem step_rolls {ev : OplogEv} (h : o.step ev = some o') : o.Rolls o' := by
  cases ev with
  | submit r =>
    rw [step_submit h]
    exact Or.inl ⟨rfl, rfl⟩
  | rollover =>
    rw [step] at h
    split_ifs at h
    cases h
    exact Or.inl ⟨rfl, rfl⟩
  | alarm =>
    rw [step] at h
    split_ifs at h <;> cases h <;> exact Or.inl ⟨rfl, rfl⟩
  | rolled =>
    rw [step] at h
    split_ifs at h
    cases h
    exact Or.inl ⟨rfl, rfl⟩
  | take =>
    obtain ⟨r, rest, -, -, rfl⟩ := step_take h
    exact Or.inl ⟨rfl, rfl⟩
  | log io =>
    obtain ⟨s, r, -, hturn⟩ := step_log h
    rw [logTurn] at hturn
    by_cases hlogs : r.logs = true
    · rw [if_pos hlogs, Option.map_map, Option.map_eq_some_iff] at hturn
      obtain ⟨o₁, hlog, rfl⟩ := hturn
      obtain ⟨hclosed, hfile⟩ := log_files hlog
      have hrolls := logMethod_rolls io o r
      rw [Rolls, hclosed, hfile] at hrolls
      cases r.rollover <;> exact hrolls
    · rw [if_neg hlogs] at hturn
      cases hturn
      exact Or.inl ⟨rfl, rfl⟩
  | pass =>
    obtain ⟨s, r, -, ⟨-, rfl⟩ | ⟨-, rfl⟩⟩ := step_pass h <;> exact Or.inl ⟨rfl, rfl⟩
  | answer =>
    obtain ⟨q, rest, -, rfl⟩ := step_answer h
    exact Or.inl ⟨rfl, rfl⟩

end Oplog

namespace WriteAhead

variable {o o' : Oplog} {s : ℕ} {r : LogRequest} {lines : List LogLine}

theorem start (lognum seqno : ℕ) (lines : List LogLine) : WriteAhead lines (.start lognum seqno lines) where
  order := rfl
  below := fun _ hq => absurd hq List.not_mem_nil
  refused := fun _ hs => absurd hs List.not_mem_nil
  took := fun _ _ h => by cases h
  committed := le_rfl
  durable := fun _ hq => absurd hq List.not_mem_nil
  records := by simp [Oplog.records, Oplog.recordsOf, Oplog.done, Oplog.start, LoggerThread.did]

/-- A request moves on, and what the invariant is about stays as it is. -/
theorem congr (h : WriteAhead lines o) (hdone : o'.done = o.done) (hundone : o'.undone = o.undone)
    (hsubmitted : o'.submitted = o.submitted) (hseq : o'.nextseq = o.nextseq) (hcommitted : o'.committed = o.committed)
    (hrefused : o'.refused = o.refused) (hrecords : o'.records = o.records)
    (hthread : ∀ s r, o'.thread = .took s r → o.thread = .took s r) : WriteAhead lines o' := by
  have hlogs : o'.logs = o.logs := by
    funext q
    rw [Oplog.logs, Oplog.logs, hrefused]
  refine ⟨?_, ?_, ?_, ?_, ?_, ?_, ?_⟩
  · rw [hdone, hundone, hsubmitted]
    exact h.order
  · rw [hdone, hseq]
    exact h.below
  · rw [hrefused, hseq]
    exact h.refused
  · intro s r ht
    rw [hseq, hcommitted, hdone, hrefused]
    exact h.took s r (hthread s r ht)
  · rw [hcommitted, hseq]
    exact h.committed
  · intro q hq hlog
    rw [hdone] at hq
    rw [hcommitted]
    exact h.durable q hq (by rwa [hlogs] at hlog)
  · rw [hrecords, h.records, hdone, Oplog.recordsOf, Oplog.recordsOf, hlogs]

/-- The request that the logger had is done with. -/
theorem turned {o₁ : Oplog} (h : WriteAhead lines o) (ht : o.thread = .took s r) (hsame : Oplog.SameQueues o o₁)
    {committed : ℕ} {refused : List ℕ} (hle : o.committed ≤ committed) (hseq : committed ≤ o.nextseq)
    (hrefused : refused = o.refused ∨ refused = o.refused ++ [s])
    (hdurable : r.logs = true → s ∉ refused → s ≤ committed)
    (hrecords : o₁.records = o.records ++ if r.logs = true ∧ s ∉ refused then Oplog.written r else []) :
    WriteAhead lines { o₁ with committed, refused, thread := .wrote s r } := by
  obtain ⟨hs, hc, hdone, href⟩ := h.took s r ht
  obtain ⟨closed, file, failed, incp, mutations, rfl⟩ := hsame
  obtain ⟨o', ho'⟩ : ∃ o' : Oplog, o' = { o with
      closed, file, failed, incp, mutations, committed, refused, thread := .wrote s r } := ⟨_, rfl⟩
  have hold : o.done = o.answered ++ o.logged := by
    rw [Oplog.done, ht]
    exact List.append_nil _
  have hnew : o'.done = o.done ++ if r.rollover then [] else [(s, r)] := by
    rw [hold, ho']
    rfl
  have hmem : ∀ q ∈ o'.done, q ∈ o.done ∨ q = (s, r) := by
    intro q hq
    rw [hnew] at hq
    rcases List.mem_append.1 hq with hq | hq
    · exact Or.inl hq
    · split_ifs at hq
      · cases hq
      · exact Or.inr (List.mem_singleton.1 hq)
  -- the numbers of the requests that were done are smaller
  have hlogs : ∀ q ∈ o.done, o'.logs q = o.logs q := by
    intro q hq
    have hne : q.1 ≠ s := (hdone q hq).ne
    have hiff : q.1 ∉ refused ↔ q.1 ∉ o.refused := by
      rcases hrefused with rfl | rfl
      · rfl
      · simp [hne]
    rw [ho']
    simp only [Oplog.logs, hiff]
  have hself : o'.logs (s, r) = decide (r.logs = true ∧ s ∉ refused) := by
    rw [ho', Oplog.logs, Bool.decide_and, Bool.decide_coe]
  rw [← ho']
  refine ⟨?_, ?_, ?_, ?_, ?_, ?_, ?_⟩
  · have hsub : o'.submitted = o.submitted := by rw [ho']
    rw [hnew, hsub, ← h.order, Oplog.undone, Oplog.undone, ht, ho']
    cases hroll : r.rollover <;> simp [hroll, LoggerThread.toDo]
  · intro q hq
    have hseq' : o'.nextseq = o.nextseq := by rw [ho']
    rw [hseq']
    rcases hmem q hq with hq | rfl
    · exact h.below q hq
    · exact hs.le
  · intro s' hs'
    rw [ho'] at hs' ⊢
    rcases hrefused with rfl | rfl
    · exact h.refused s' hs'
    · rcases List.mem_append.1 hs' with hs' | hs'
      · exact h.refused s' hs'
      · exact (List.mem_singleton.1 hs').trans_le hs.le
  · intro s' r' ht'
    rw [ho'] at ht'
    cases ht'
  · rw [ho']
    exact hseq
  · intro q hq hlog
    have hcom : o'.committed = committed := by rw [ho']
    rw [hcom]
    rcases hmem q hq with hq | rfl
    · exact (h.durable q hq ((hlogs q hq).symm.trans hlog)).trans hle
    · rw [hself, decide_eq_true_eq] at hlog
      exact hdurable hlog.1 hlog.2
  · have hrec : o'.records = o.records ++ if r.logs = true ∧ s ∉ refused then Oplog.written r else [] := by
      rw [ho']
      exact hrecords
    have hfilter : o.done.filter o'.logs = o.done.filter o.logs := List.filter_congr hlogs
    rw [hrec, h.records, List.append_assoc, Oplog.recordsOf, Oplog.recordsOf, hnew, List.filter_append,
      List.filterMap_append, hfilter]
    congr 2
    cases hroll : r.rollover with
    | true => simp [Oplog.written, hroll]
    | false =>
      by_cases hlog : r.logs = true ∧ s ∉ refused
      · rw [if_pos hlog, Oplog.written, hroll, if_neg (by simp), if_neg (by simp), List.filter_singleton, hself,
          decide_eq_true hlog]
        cases hrec : r.record <;> simp [hrec]
      · simp [hself, hlog]

theorem step {ev : OplogEv} (h : WriteAhead lines o) (hstep : o.step ev = some o') : WriteAhead lines o' := by
  cases ev with
  | submit r =>
    rw [Oplog.step] at hstep
    split_ifs at hstep with hroll
    cases hstep
    have hundone : Oplog.undone { o with pending := o.pending ++ [r], submitted := o.submitted ++ [r] } =
        o.undone ++ [r] := by
      simp [Oplog.undone, List.filter_append, hroll]
    refine { h with order := ?_ }
    rw [hundone, ← List.append_assoc]
    exact congrArg (· ++ [r]) h.order
  | rollover =>
    rw [Oplog.step] at hstep
    split_ifs at hstep
    cases hstep
    have hundone : Oplog.undone { o with pending := o.pending ++ [.logRollover], requested := false } = o.undone := by
      simp [Oplog.undone, LogRequest.logRollover]
    refine { h with order := ?_ }
    rw [hundone]
    exact h.order
  | alarm =>
    rw [Oplog.step] at hstep
    split_ifs at hstep
    · cases hstep
      exact h
    · cases hstep
      exact { h with }
  | rolled =>
    rw [Oplog.step] at hstep
    split_ifs at hstep
    cases hstep
    exact { h with }
  | take =>
    obtain ⟨r, rest, ht, hp, rfl⟩ := Oplog.step_take hstep
    have hdone : Oplog.done { o with
        pending := rest, nextseq := o.nextseq + 1, thread := .took (o.nextseq + 1) r } = o.done := by
      rw [Oplog.done, Oplog.done, ht]
      rfl
    refine ⟨?_, ?_, ?_, ?_, ?_, ?_, ?_⟩
    · rw [hdone, ← h.order, Oplog.undone, Oplog.undone, ht, hp]
      rfl
    · rw [hdone]
      exact fun q hq => (h.below q hq).trans (Nat.le_succ _)
    · exact fun s hs => (h.refused s hs).trans (Nat.le_succ _)
    · intro s r' htook
      cases htook
      rw [hdone]
      exact ⟨rfl, Nat.lt_succ_of_le h.committed, fun q hq => Nat.lt_succ_of_le (h.below q hq),
        fun s hs => Nat.lt_succ_of_le (h.refused s hs)⟩
    · exact h.committed.trans (Nat.le_succ _)
    · rw [hdone]
      exact h.durable
    · rw [hdone]
      exact h.records
  | log io =>
    obtain ⟨s, r, ht, hturn⟩ := Oplog.step_log hstep
    obtain ⟨hs, hc, -, href⟩ := h.took s r ht
    obtain ⟨o₁, committed, refused, hsame, rfl, hcases⟩ := Oplog.logTurn_spec hs hc hturn
    rcases hcases with ⟨hlogs, rfl, rfl, hrec⟩ | ⟨hlogs, rfl, rfl, hrec⟩ | ⟨hlogs, rfl, rfl, hrec⟩
    · refine h.turned ht hsame le_rfl h.committed (Or.inl rfl) (fun hl => absurd hl hlogs) ?_
      rw [hrec, if_neg fun hl => hlogs hl.1, List.append_nil]
    · refine h.turned ht hsame le_rfl h.committed (Or.inr rfl) (fun _ hn => absurd (by simp) hn) ?_
      rw [hrec, if_neg fun hl => hl.2 (by simp), List.append_nil]
    · refine h.turned ht hsame h.committed le_rfl (Or.inl rfl) (fun _ _ => hs.le) ?_
      rw [hrec, if_pos ⟨hlogs, fun hmem => (href s hmem).false⟩]
  | pass =>
    obtain ⟨s, r, ht, ⟨hroll, rfl⟩ | ⟨hroll, rfl⟩⟩ := Oplog.step_pass hstep
    · refine h.congr ?_ ?_ rfl rfl rfl rfl rfl fun _ _ h => by cases h
      · simp [Oplog.done, ht, LoggerThread.did, hroll]
      · simp [Oplog.undone, ht, LoggerThread.toDo]
    · refine h.congr ?_ ?_ rfl rfl rfl rfl rfl fun _ _ h => by cases h
      · simp [Oplog.done, ht, LoggerThread.did, hroll]
      · simp [Oplog.undone, ht, LoggerThread.toDo]
  | answer =>
    obtain ⟨q, rest, hl, rfl⟩ := Oplog.step_answer hstep
    refine h.congr ?_ rfl rfl rfl rfl rfl rfl fun _ _ h => h
    simp [Oplog.done, hl]

end WriteAhead

/-! ## Runs -/

theorem WriteAhead.run {lines : List LogLine} : ∀ {evs : List OplogEv} {o o' : Oplog}, WriteAhead lines o →
    o.run evs = some o' → WriteAhead lines o'
  | [], _, _, h, hrun => by
    cases hrun
    exact h
  | ev :: evs, o, o', h, hrun => by
    rw [Oplog.run] at hrun
    obtain ⟨o₁, hstep, hrun⟩ := Option.bind_eq_some_iff.1 hrun
    exact (h.step hstep).run hrun

/-- Nothing goes wrong in the turn, and the times are written as lines that are read back. -/
structure LogIO.Fine (io : LogIO) : Prop where
  torn : io.torn = none
  opened : io.opened = true
  closedAt : (LogLine.time io.closedAt).Sound
  openedAt : (LogLine.time io.openedAt).Sound

instance (io : LogIO) : Decidable io.Fine :=
  decidable_of_iff (io.torn = none ∧ io.opened = true ∧ (LogLine.time io.closedAt).Sound ∧
      (LogLine.time io.openedAt).Sound)
    ⟨fun ⟨h₁, h₂, h₃, h₄⟩ => ⟨h₁, h₂, h₃, h₄⟩, fun h => ⟨h.torn, h.opened, h.closedAt, h.openedAt⟩⟩

/-- Every turn of the logger. -/
def OplogEv.Fine : OplogEv → Prop
  | .log io => io.Fine
  | .submit r => ∀ x, r.record = some x → x.OnDisk
  | _ => True

namespace Oplog

/-- The text of the log files, as it is read after a crash. -/
def readBack (o : Oplog) : Option (List LogRec) :=
  ((o.closed ++ [o.file]).mapM fun f => readRecords (linesText f.lines ++ f.torn)).map List.flatten

/-- The stream is in order, and the requests have records that are read back. -/
structure Clean (o : Oplog) : Prop where
  failed : o.failed = false
  refused : o.refused = []
  torn : ∀ f ∈ o.closed ++ [o.file], f.torn = []
  sound : ∀ f ∈ o.closed ++ [o.file], ∀ e ∈ f.lines, e.Sound
  records : ∀ r ∈ o.thread.toDo ++ o.pending, ∀ x, r.record = some x → x.OnDisk

variable {o o' : Oplog} {io : LogIO} {s : ℕ} {r : LogRequest} {lines : List LogLine}

theorem Clean.start {lognum seqno : ℕ} (h : ∀ e ∈ lines, e.Sound) : (start lognum seqno lines).Clean := by
  refine ⟨rfl, rfl, ?_, ?_, fun _ hr => absurd hr List.not_mem_nil⟩
  · intro f hf
    rw [List.mem_singleton.1 hf]
    rfl
  · intro f hf
    rw [List.mem_singleton.1 hf]
    exact h

/-- Whole files of lines that are read back. -/
theorem readRecords_files {fs : List LogFile} (htorn : ∀ f ∈ fs, f.torn = [])
    (hsound : ∀ f ∈ fs, ∀ e ∈ f.lines, e.Sound) :
    fs.mapM (fun f => readRecords (linesText f.lines ++ f.torn)) = some (fs.map fun f => Kfs.records f.lines) := by
  induction fs with
  | nil => rfl
  | cons f fs ih =>
    rw [List.mapM_cons, ih (fun g hg => htorn g (List.mem_cons_of_mem _ hg))
      (fun g hg => hsound g (List.mem_cons_of_mem _ hg)), htorn f List.mem_cons_self, List.append_nil,
      readRecords_whole (hsound f List.mem_cons_self)]
    rfl

theorem Clean.readBack (h : o.Clean) : o.readBack = some o.records := by
  rw [Oplog.readBack, readRecords_files h.torn h.sound, Option.map_some, Oplog.records, List.flatMap]

/-- A line that is read back, to a stream in order. -/
theorem Clean.write (h : o.Clean) (hio : io.Fine) {e : LogLine} (he : e.Sound) :
    o.write io e = { o with file := { o.file with lines := o.file.lines ++ [e] } } ∧ (o.write io e).Clean := by
  have heq : o.write io e = { o with file := { o.file with lines := o.file.lines ++ [e] } } := by
    rw [Oplog.write, h.failed, hio.torn]
    rfl
  refine ⟨heq, ?_⟩
  rw [heq]
  refine { h with torn := ?_, sound := ?_ }
  · intro f hf
    rcases List.mem_append.1 hf with hf | hf
    · exact h.torn f (List.mem_append_left _ hf)
    · cases List.mem_singleton.1 hf
      exact h.torn o.file (by simp)
  · intro f hf
    rcases List.mem_append.1 hf with hf | hf
    · exact h.sound f (List.mem_append_left _ hf)
    · cases List.mem_singleton.1 hf
      intro e' he'
      rcases List.mem_append.1 he' with he' | he'
      · exact h.sound o.file (by simp) e' he'
      · rw [List.mem_singleton.1 he']
        exact he

theorem version_sound : LogLine.version.Sound := by decide

theorem Clean.finishLog (h : o.Clean) (hio : io.Fine) : (finishLog io o).Clean := by
  obtain ⟨heq, hc⟩ := h.write hio hio.closedAt
  rw [Oplog.finishLog, startLog, if_pos hio.opened]
  refine ⟨rfl, hc.refused, ?_, ?_, hc.records⟩
  · intro f hf
    rcases List.mem_append.1 hf with hf | hf
    · exact hc.torn f hf
    · rw [List.mem_singleton.1 hf]
  · intro f hf e he
    rcases List.mem_append.1 hf with hf | hf
    · exact hc.sound f hf e he
    · rw [List.mem_singleton.1 hf] at he
      rcases List.mem_pair.1 he with rfl | rfl
      · exact version_sound
      · exact hio.openedAt

theorem Clean.logMethod (h : o.Clean) (hio : io.Fine) (hr : ∀ x, r.record = some x → x.OnDisk) :
    (logMethod io o r).2 = true ∧ (logMethod io o r).1.Clean := by
  rw [Oplog.logMethod]
  split_ifs
  · have hc := h.finishLog hio
    exact ⟨congrArg Bool.not hc.failed, hc⟩
  · cases hrec : r.record with
    | none => exact ⟨rfl, h⟩
    | some x =>
      obtain ⟨-, hc⟩ := h.write hio (hr x hrec).sound
      exact ⟨congrArg Bool.not hc.failed, hc⟩

theorem Clean.flushResult (h : o.Clean) (hflush : flushResult io o s = some o') : o'.Clean := by
  rw [Oplog.flushResult] at hflush
  split_ifs at hflush
  · obtain ⟨o₁, hlog, hassert⟩ := Option.bind_eq_some_iff.1 hflush
    rw [flushLog] at hlog
    split_ifs at hlog
    cases hlog
    split_ifs at hassert
    cases hassert
    exact { h with }
  · cases hflush
    exact h

theorem Clean.log (h : o.Clean) (hio : io.Fine) (hr : ∀ x, r.record = some x → x.OnDisk)
    (hlog : log io o s r = some o') : o'.Clean := by
  obtain ⟨hfine, hc⟩ := h.logMethod hio hr
  rw [Oplog.log] at hlog
  cases hm : Oplog.logMethod io o r with
  | mk o₁ fine =>
  rw [hm] at hlog hfine hc
  cases hfine
  exact hc.flushResult hlog

theorem Clean.logTurn (h : o.Clean) (hio : io.Fine) (ht : o.thread = .took s r)
    (hturn : logTurn io o s r = some o') : o'.Clean := by
  have hr : ∀ x, r.record = some x → x.OnDisk := by
    intro x hx
    refine h.records r ?_ x hx
    rw [ht]
    exact List.mem_cons_self
  rw [Oplog.logTurn] at hturn
  obtain ⟨o₁, hlog, rfl⟩ := Option.map_eq_some_iff.1 hturn
  have hc : o₁.Clean := by
    by_cases hlogs : r.logs = true
    · rw [if_pos hlogs, Option.map_eq_some_iff] at hlog
      obtain ⟨o₂, hlog, rfl⟩ := hlog
      have hc := h.log hio hr hlog
      split_ifs
      · exact hc
      · exact { hc with }
    · rw [if_neg hlogs] at hlog
      cases hlog
      exact h
  exact { hc with records := fun r hr => hc.records r (List.mem_append_right _ hr) }

theorem Clean.step {ev : OplogEv} (h : o.Clean) (hev : ev.Fine)
    (hstep : o.step ev = some o') : o'.Clean := by
  cases ev with
  | submit r =>
    rw [Oplog.step] at hstep
    split_ifs at hstep
    cases hstep
    refine { h with records := ?_ }
    intro r' hr' x hx
    rw [← List.append_assoc] at hr'
    rcases List.mem_append.1 hr' with hr' | hr'
    · exact h.records r' hr' x hx
    · rw [List.mem_singleton.1 hr'] at hx
      exact hev x hx
  | rollover =>
    rw [Oplog.step] at hstep
    split_ifs at hstep
    cases hstep
    refine { h with records := ?_ }
    intro r' hr' x hx
    rw [← List.append_assoc] at hr'
    rcases List.mem_append.1 hr' with hr' | hr'
    · exact h.records r' hr' x hx
    · rw [List.mem_singleton.1 hr'] at hx
      cases hx
  | alarm =>
    rw [Oplog.step] at hstep
    split_ifs at hstep
    · cases hstep
      exact h
    · cases hstep
      exact { h with }
  | rolled =>
    rw [Oplog.step] at hstep
    split_ifs at hstep
    cases hstep
    exact { h with }
  | take =>
    obtain ⟨r, rest, ht, hp, rfl⟩ := Oplog.step_take hstep
    refine { h with records := ?_ }
    have hrec := h.records
    rw [ht, hp] at hrec
    exact hrec
  | log io =>
    obtain ⟨s, r, ht, hturn⟩ := Oplog.step_log hstep
    exact h.logTurn hev ht hturn
  | pass =>
    obtain ⟨s, r, ht, ⟨-, rfl⟩ | ⟨-, rfl⟩⟩ := Oplog.step_pass hstep
    · exact { h with records := fun r hr => h.records r (List.mem_append_right _ hr) }
    · exact { h with records := fun r hr => h.records r (List.mem_append_right _ hr) }
  | answer =>
    obtain ⟨q, rest, -, rfl⟩ := Oplog.step_answer hstep
    exact { h with }

theorem Clean.run : ∀ {evs : List OplogEv} {o o' : Oplog}, o.Clean → (∀ ev ∈ evs, ev.Fine) →
    o.run evs = some o' → o'.Clean
  | [], _, _, h, _, hrun => by
    cases hrun
    exact h
  | ev :: evs, o, o', h, hev, hrun => by
    rw [Oplog.run] at hrun
    obtain ⟨o₁, hstep, hrun⟩ := Option.bind_eq_some_iff.1 hrun
    exact (h.step (hev ev List.mem_cons_self) hstep).run (fun ev' hev' => hev ev' (List.mem_cons_of_mem _ hev')) hrun

end Oplog

/-- **Answers go out in the order of the requests, and none before its record is in the log.** What has been answered is
a first part of what has been submitted; a request with a result that is to be kept has a number that is committed,
unless its log has returned an error, which nobody looks at; and the records of these requests come first in the log
files, behind those of before. While nothing goes wrong no log returns an error, and the files are read back. -/
theorem write_ahead {lognum seqno : ℕ} {lines : List LogLine} {evs : List OplogEv} {o : Oplog}
    (h : (Oplog.start lognum seqno lines).run evs = some o) :
    o.answered.map Prod.snd <+: o.submitted ∧ (∀ q ∈ o.answered, o.logs q = true → q.1 ≤ o.committed) ∧
      records lines ++ o.recordsOf o.answered <+: o.records ∧
      ((∀ e ∈ lines, e.Sound) → (∀ ev ∈ evs, ev.Fine) → o.refused = [] ∧ o.readBack = some o.records) := by
  have hw := (WriteAhead.start lognum seqno lines).run h
  refine ⟨?_, ?_, ?_, ?_⟩
  · rw [← hw.order, Oplog.done, List.append_assoc, List.map_append, List.append_assoc]
    exact List.prefix_append _ _
  · exact fun q hq => hw.durable q (List.mem_append_left _ (List.mem_append_left _ hq))
  · rw [hw.records, Oplog.done, List.append_assoc, Oplog.recordsOf, Oplog.recordsOf, List.filter_append,
      List.filterMap_append, ← List.append_assoc]
    exact List.prefix_append _ _
  · intro hlines hevs
    have hc := (Oplog.Clean.start hlines).run hevs h
    exact ⟨hc.refused, hc.readBack⟩

/-- Two requests, and a rollover between them. -/
def rolloverEvs : List OplogEv :=
  let io : LogIO := ⟨none, true, true, ['1'], ['2']⟩
  [.submit ⟨false, true, 0, some (.mkdir ROOTFID ['d'] 3)⟩, .take, .log io, .alarm, .rollover, .pass, .take, .log io,
    .answer, .submit ⟨false, true, 0, some (.rmdir ROOTFID ['d'])⟩, .pass, .rolled, .take, .log io, .pass, .answer]

theorem rolloverEvs_fine : ∀ ev ∈ rolloverEvs, ev.Fine := by
  have hio : LogIO.Fine ⟨none, true, true, ['1'], ['2']⟩ := ⟨rfl, rfl, by decide +kernel, by decide +kernel⟩
  have hmk : (LogRec.mkdir ROOTFID ['d'] 3).OnDisk := ⟨by decide, by decide +kernel, by decide⟩
  have hrm : (LogRec.rmdir ROOTFID ['d']).OnDisk := ⟨by decide, by decide +kernel, by decide⟩
  simp [rolloverEvs, OplogEv.Fine, hio, hmk, hrm]

theorem rolloverEvs_write_ahead : ∃ o, (Oplog.start 0 0 []).run rolloverEvs = some o ∧ o.closed.length = 1 ∧
    o.answered.length = 2 ∧ o.refused = [] ∧ o.readBack = some o.records := by
  have hrun : (Oplog.start 0 0 []).run rolloverEvs = some _ := rfl
  obtain ⟨-, -, -, hback⟩ := write_ahead hrun
  exact ⟨_, hrun, rfl, rfl, hback (fun _ he => absurd he List.not_mem_nil) rolloverEvs_fine⟩

end Kfs
