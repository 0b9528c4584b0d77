import Mathlib.Algebra.Order.Group.Multiset
import Mathlib.Data.Multiset.Count
import Mathlib.Data.PNat.Defs
import Mathlib.Tactic.Abel
import Kfs.Base

/-!
# Threads that sleep

The request thread, the logger, the timer and the network thread hand requests on in queues. A thread that finds its
queue empty sleeps until it is woken; the network thread sleeps in `poll` until it is kicked.

* `MetaQueue`: a queue with its lock; nothing ever counts a waiter, so that `enqueue` wakes when the queue was empty;
* `Threads`, `Threads.step`: each step is what a thread does under one lock;
* `Threads.Awake`: nobody sleeps who has something to do;
* **`asleep_answered`**: when all are asleep, everything has been answered or waits for a chunk server.
-/

namespace Kfs

/-- The threads that sleep on a queue. -/
inductive ThreadName
  | request
  | logger
  | timer
  deriving DecidableEq

/-- `MetaQueue`, with the threads that `pthread_cond_wait` has not returned for. -/
structure MetaQueue (α : Type) where
  queue : List α
  waiters : ℕ
  asleep : List ThreadName

namespace MetaQueue

variable {α : Type} (q : MetaQueue α)

def new : MetaQueue α := ⟨[], 0, []⟩

/-- `wakeup` is a broadcast. -/
def enqueue (r : α) : MetaQueue α where
  queue := q.queue ++ [r]
  waiters := q.waiters
  asleep := if q.waiters ≠ 0 ∨ q.queue.isEmpty then [] else q.asleep

/-- One turn of the loop of `dequeue_internal`; without a result the thread sleeps. -/
def dequeue (t : ThreadName) : Option α × MetaQueue α :=
  match q.queue with
  | [] => (none, { q with asleep := t :: q.asleep })
  | r :: rest => (some r, { q with queue := rest })

def dequeue_nowait : Option α × MetaQueue α :=
  match q.queue with
  | [] => (none, q)
  | r :: rest => (some r, { q with queue := rest })

/-- `pthread_cond_wait` can return without a reason. -/
def wake (t : ThreadName) : MetaQueue α := { q with asleep := q.asleep.filter fun u => decide (u ≠ t) }

end MetaQueue

/-- A turn of `logger_main`: at the queue, with a request, before `isPendingEmpty`, before `Kick`. -/
inductive LoggerTurn (α : Type)
  | get
  | log (r : α)
  | look
  | kick

/-- A turn of `NetManager::MainLoop`: in `poll`, in `NetDispatch::Dispatch`, at the connections. -/
inductive NetTurn
  | poll
  | dispatch
  | connections
  deriving DecidableEq

/-- `logtimer`: before its alarm, in `wait_for_cp`. -/
inductive TimerTurn
  | alarm
  | wait
  deriving DecidableEq

/-- The queues and what the threads hold. `pipe` is the number of bytes in the pipe of the `NetKicker`, `suspended` are
the requests that wait for chunk servers; the last three are history. -/
structure Threads (α : Type) where
  requestList : MetaQueue α
  pending : MetaQueue α
  logged : MetaQueue α
  cpdone : MetaQueue α
  request : Option α
  logger : LoggerTurn α
  net : NetTurn
  timer : TimerTurn
  pipe : ℕ
  suspended : List α
  submitted : List α
  answered : List α
  rolled : List α

inductive ThreadsEv (α : Type)
  /-- `submit_request`, from a connection or from a handler -/
  | submit (r : α)
  /-- a request that was suspended is submitted again -/
  | resume (i : ℕ)
  /-- `process_request`, in two steps -/
  | process
  | processed (suspend : Bool)
  /-- `logger_main` -/
  | get
  | log
  | look
  | kick
  /-- `logtimer` -/
  | alarm (r : α)
  | wait
  /-- `MainLoop`: `poll` returns for the pipe or for another `reason`, the next result, the connections -/
  | poll (reason : Bool)
  | dispatch
  /-- with the result of a change of `chunkVersionInc` the allocation that has waited for it is answered -/
  | pushOut (i : ℕ)
  | connections
  | wake (t : ThreadName)

/-- What the logger holds. -/
def LoggerTurn.held {α : Type} : LoggerTurn α → List α
  | .log r => [r]
  | _ => []

namespace Threads

variable {α : Type} (rollover : α → Bool) (capacity : ℕ+)

def start : Threads α where
  requestList := .new
  pending := .new
  logged := .new
  cpdone := .new
  request := none
  logger := .get
  net := .poll
  timer := .alarm
  pipe := 0
  suspended := []
  submitted := []
  answered := []
  rolled := []

/-- `none` when the thread is not there or sleeps. `processed` has whether the handler has suspended the request; that a
reply of a chunk server resets this before `process_request` looks at it is left out. -/
def step (s : Threads α) : ThreadsEv α → Option (Threads α)
  | .submit r =>
    if rollover r then none
    else some { s with requestList := s.requestList.enqueue r, submitted := s.submitted ++ [r] }
  | .resume i =>
    match s.suspended[i]? with
    | none => none
    | some r => some { s with requestList := s.requestList.enqueue r, suspended := s.suspended.eraseIdx i }
  | .process =>
    if s.request.isSome ∨ .request ∈ s.requestList.asleep then none
    else
      let (r, q) := s.requestList.dequeue .request
      some { s with requestList := q, request := r }
  | .processed suspend =>
    match s.request with
    | none => none
    | some r =>
      if suspend then
        if rollover r then none else some { s with request := none, suspended := s.suspended ++ [r] }
      else some { s with request := none, pending := s.pending.enqueue r }
  | .get =>
    match s.logger with
    | .get =>
      if .logger ∈ s.pending.asleep then none
      else
        match s.pending.dequeue .logger with
        | (none, q) => some { s with pending := q }
        | (some r, q) => some { s with pending := q, logger := .log r }
    | _ => none
  | .log =>
    match s.logger with
    | .log r =>
      if rollover r then some { s with logger := .look, cpdone := s.cpdone.enqueue r }
      else some { s with logger := .look, logged := s.logged.enqueue r }
    | _ => none
  | .look =>
    match s.logger with
    | .look => some { s with logger := if s.pending.queue.isEmpty then .kick else .get }
    | _ => none
  | .kick =>
    match s.logger with
    -- a full pipe does not take the byte
    | .kick => some { s with logger := .get, pipe := min (s.pipe + 1) capacity }
    | _ => none
  | .alarm r =>
    if s.timer = .wait ∨ ¬ rollover r then none
    else some { s with
      timer := .wait, requestList := s.requestList.enqueue r, submitted := s.submitted ++ [r] }
  | .wait =>
    if s.timer = .alarm ∨ .timer ∈ s.cpdone.asleep then none
    else
      match s.cpdone.dequeue .timer with
      | (none, q) => some { s with cpdone := q }
      | (some r, q) => some { s with cpdone := q, timer := .alarm, rolled := s.rolled ++ [r] }
  | .poll reason =>
    if s.net ≠ .poll ∨ s.pipe = 0 ∧ ¬ reason then none
    -- `Drain`
    else some { s with net := .dispatch, pipe := s.pipe - 512 }
  | .dispatch =>
    if s.net = .dispatch then
      match s.logged.dequeue_nowait with
      | (none, q) => some { s with logged := q, net := .connections }
      | (some r, q) => some { s with logged := q, answered := s.answered ++ [r] }
    else none
  | .pushOut i =>
    if s.net = .dispatch then
      match s.suspended[i]? with
      | none => none
      | some r => some { s with suspended := s.suspended.eraseIdx i, answered := s.answered ++ [r] }
    else none
  | .connections => if s.net = .connections then some { s with net := .poll } else none
  | .wake t => some { s with
      requestList := s.requestList.wake t, pending := s.pending.wake t, cpdone := s.cpdone.wake t }

def run (s : Threads α) : List (ThreadsEv α) → Option (Threads α)
  | [] => some s
  | ev :: evs => (s.step rollover capacity ev).bind fun s => s.run evs

end Threads

/-! ## Nobody sleeps who has something to do -/

namespace MetaQueue

variable {α : Type} {q : MetaQueue α} {t u : ThreadName} {r : α}

/-- While there is something in the queue, nobody sleeps on it. -/
def Awake (q : MetaQueue α) : Prop := q.queue ≠ [] → q.asleep = []

theorem Awake.enqueue (h : q.Awake) (r : α) : (q.enqueue r).Awake ∧ (q.enqueue r).asleep = [] := by
  have hasleep : (q.enqueue r).asleep = [] := by
    rw [MetaQueue.enqueue]
    cases hq : q.queue with
    | nil => exact if_pos (Or.inr (by rw [List.isEmpty_nil]))
    | cons x rest =>
      have hnone : q.asleep = [] := h (by rw [hq]; exact List.cons_ne_nil _ _)
      rw [hnone, ite_self]
  exact ⟨fun _ => hasleep, hasleep⟩

theorem Awake.dequeue (h : q.Awake) (t : ThreadName) : (q.dequeue t).2.Awake := by
  cases hq : q.queue with
  | nil =>
    intro hne
    rw [MetaQueue.dequeue, hq] at hne
    exact absurd rfl hne
  | cons x rest =>
    intro _
    rw [MetaQueue.dequeue, hq]
    exact h (by rw [hq]; exact List.cons_ne_nil _ _)

theorem Awake.wake (h : q.Awake) (t : ThreadName) : (q.wake t).Awake := by
  intro hne
  rw [MetaQueue.wake, h hne]
  rfl

theorem Awake.empty (h : q.Awake) (hmem : t ∈ q.asleep) : q.queue = [] := by
  by_contra hne
  rw [h hne] at hmem
  exact absurd hmem List.not_mem_nil

theorem mem_wake (h : u ∈ (q.wake t).asleep) : u ∈ q.asleep := List.mem_of_mem_filter h

/-- Either the thread has the first request, or it sleeps on an empty queue. -/
theorem dequeue_cases (q : MetaQueue α) (t : ThreadName) :
    q.queue = [] ∧ q.dequeue t = (none, { q with asleep := t :: q.asleep }) ∨
      ∃ r rest, q.queue = r :: rest ∧ q.dequeue t = (some r, { q with queue := rest }) := by
  cases hq : q.queue with
  | nil => exact Or.inl ⟨rfl, by rw [dequeue, hq]⟩
  | cons r rest => exact Or.inr ⟨r, rest, rfl, by rw [dequeue, hq]⟩

end MetaQueue

theorem TimerTurn.eq_alarm {t : TimerTurn} (h : t ≠ .wait) : t = .alarm := by
  cases t with
  | alarm => rfl
  | wait => exact absurd rfl h

theorem TimerTurn.eq_wait {t : TimerTurn} (h : t ≠ .alarm) : t = .wait := by
  cases t with
  | alarm => exact absurd rfl h
  | wait => rfl

namespace Threads

variable {α : Type} {rollover : α → Bool} {capacity : ℕ+} {s s' : Threads α}

/-- What a step does, whichever event it is for. -/
inductive Turn (rollover : α → Bool) (capacity : ℕ+) (s : Threads α) : Threads α → Prop
  | submit {r : α} (hr : rollover r = false) :
      Turn rollover capacity s { s with
        requestList := s.requestList.enqueue r, submitted := s.submitted ++ [r] }
  | resume {i : ℕ} {r : α} (hi : s.suspended[i]? = some r) :
      Turn rollover capacity s { s with
        requestList := s.requestList.enqueue r, suspended := s.suspended.eraseIdx i }
  | noRequest (hfree : s.request = none) (hq : s.requestList.queue = []) :
      Turn rollover capacity s { s with
        requestList := { s.requestList with asleep := .request :: s.requestList.asleep }, request := none }
  | process {r : α} {rest : List α} (hfree : s.request = none) (hq : s.requestList.queue = r :: rest) :
      Turn rollover capacity s { s with requestList := { s.requestList with queue := rest }, request := some r }
  | suspend {r : α} (hr : s.request = some r) (hroll : rollover r = false) :
      Turn rollover capacity s { s with request := none, suspended := s.suspended ++ [r] }
  | processed {r : α} (hr : s.request = some r) :
      Turn rollover capacity s { s with request := none, pending := s.pending.enqueue r }
  | nonePending (hl : s.logger = .get) (hq : s.pending.queue = []) :
      Turn rollover capacity s { s with pending := { s.pending with asleep := .logger :: s.pending.asleep } }
  | get {r : α} {rest : List α} (hl : s.logger = .get) (hq : s.pending.queue = r :: rest) :
      Turn rollover capacity s { s with pending := { s.pending with queue := rest }, logger := .log r }
  | rolled {r : α} (hl : s.logger = .log r) (hr : rollover r = true) :
      Turn rollover capacity s { s with logger := .look, cpdone := s.cpdone.enqueue r }
  | log {r : α} (hl : s.logger = .log r) (hr : rollover r = false) :
      Turn rollover capacity s { s with logger := .look, logged := s.logged.enqueue r }
  | look (hl : s.logger = .look) :
      Turn rollover capacity s { s with logger := if s.pending.queue.isEmpty then .kick else .get }
  | kick (hl : s.logger = .kick) :
      Turn rollover capacity s { s with logger := .get, pipe := min (s.pipe + 1) capacity }
  | alarm {r : α} (ht : s.timer = .alarm) (hr : rollover r = true) :
      Turn rollover capacity s { s with
        timer := .wait, requestList := s.requestList.enqueue r, submitted := s.submitted ++ [r] }
  | noneDone (ht : s.timer = .wait) (hq : s.cpdone.queue = []) :
      Turn rollover capacity s { s with cpdone := { s.cpdone with asleep := .timer :: s.cpdone.asleep } }
  | wait {r : α} {rest : List α} (ht : s.timer = .wait) (hq : s.cpdone.queue = r :: rest) :
      Turn rollover capacity s { s with
        cpdone := { s.cpdone with queue := rest }, timer := .alarm, rolled := s.rolled ++ [r] }
  | poll (hnet : s.net = .poll) : Turn rollover capacity s { s with net := .dispatch, pipe := s.pipe - 512 }
  | noneLogged (hnet : s.net = .dispatch) (hq : s.logged.queue = []) :
      Turn rollover capacity s { s with net := .connections }
  | dispatch {r : α} {rest : List α} (hnet : s.net = .dispatch) (hq : s.logged.queue = r :: rest) :
      Turn rollover capacity s { s with
        logged := { s.logged with queue := rest }, answered := s.answered ++ [r] }
  | pushOut {i : ℕ} {r : α} (hi : s.suspended[i]? = some r) :
      Turn rollover capacity s { s with suspended := s.suspended.eraseIdx i, answered := s.answered ++ [r] }
  | connections (hnet : s.net = .connections) : Turn rollover capacity s { s with net := .poll }
  | wake (t : ThreadName) : Turn rollover capacity s { s with
      requestList := s.requestList.wake t, pending := s.pending.wake t, cpdone := s.cpdone.wake t }

theorem step_turn {ev : ThreadsEv α} (hstep : s.step rollover capacity ev = some s') :
    Turn rollover capacity s s' := by
  cases ev with
  | submit r =>
    rw [step] at hstep
    split_ifs at hstep with hr
    cases hstep
    exact .submit (Bool.not_eq_true _ ▸ hr)
  | resume i =>
    rw [step] at hstep
    cases hi : s.suspended[i]? with
    | none =>
      rw [hi] at hstep
      cases hstep
    | some r =>
      rw [hi] at hstep
      cases hstep
      exact .resume hi
  | process =>
    rw [step] at hstep
    split_ifs at hstep with hbusy
    rw [not_or, Bool.not_eq_true, Option.isSome_eq_false_iff, Option.isNone_iff_eq_none] at hbusy
    rcases s.requestList.dequeue_cases .request with ⟨hq, hd⟩ | ⟨r, rest, hq, hd⟩
    · rw [hd] at hstep
      cases hstep
      exact .noRequest hbusy.1 hq
    · rw [hd] at hstep
      cases hstep
      exact .process hbusy.1 hq
  | processed suspend =>
    rw [step] at hstep
    cases hr : s.request with
    | none =>
      rw [hr] at hstep
      cases hstep
    | some r =>
      rw [hr] at hstep
      dsimp only at hstep
      split_ifs at hstep with hsus hroll
      · cases hstep
        exact .suspend hr (Bool.not_eq_true _ ▸ hroll)
      · cases hstep
        exact .processed hr
  | get =>
    rw [step] at hstep
    split at hstep
    · rename_i hl
      split_ifs at hstep
      rcases s.pending.dequeue_cases .logger with ⟨hq, hd⟩ | ⟨r, rest, hq, hd⟩
      · rw [hd] at hstep
        cases hstep
        exact .nonePending hl hq
      · rw [hd] at hstep
        cases hstep
        exact .get hl hq
    · cases hstep
  | log =>
    rw [step] at hstep
    split at hstep
    · rename_i r hl
      split_ifs at hstep with hr
      · cases hstep
        exact .rolled hl hr
      · cases hstep
        exact .log hl (Bool.not_eq_true _ ▸ hr)
    · cases hstep
  | look =>
    rw [step] at hstep
    split at hstep
    · rename_i hl
      cases hstep
      exact .look hl
    · cases hstep
  | kick =>
    rw [step] at hstep
    split at hstep
    · rename_i hl
      cases hstep
      exact .kick hl
    · cases hstep
  | alarm r =>
    rw [step] at hstep
    split_ifs at hstep with hr
    rw [not_or, not_not] at hr
    cases hstep
    exact .alarm (TimerTurn.eq_alarm hr.1) hr.2
  | wait =>
    rw [step] at hstep
    split_ifs at hstep with hwait
    rw [not_or] at hwait
    rcases s.cpdone.dequeue_cases .timer with ⟨hq, hd⟩ | ⟨r, rest, hq, hd⟩
    · rw [hd] at hstep
      cases hstep
      exact .noneDone (TimerTurn.eq_wait hwait.1) hq
    · rw [hd] at hstep
      cases hstep
      exact .wait (TimerTurn.eq_wait hwait.1) hq
  | poll reason =>
    rw [step] at hstep
    split_ifs at hstep with hnet
    rw [not_or, not_not] at hnet
    cases hstep
    exact .poll hnet.1
  | dispatch =>
    rw [step] at hstep
    split_ifs at hstep with hnet
    cases hq : s.logged.queue with
    | nil =>
      rw [MetaQueue.dequeue_nowait, hq] at hstep
      cases hstep
      exact .noneLogged hnet hq
    | cons r rest =>
      rw [MetaQueue.dequeue_nowait, hq] at hstep
      cases hstep
      exact .dispatch hnet hq
  | pushOut i =>
    rw [step] at hstep
    split_ifs at hstep
    cases hi : s.suspended[i]? with
    | none =>
      rw [hi] at hstep
      cases hstep
    | some r =>
      rw [hi] at hstep
      cases hstep
      exact .pushOut hi
  | connections =>
    rw [step] at hstep
    split_ifs at hstep with hnet
    cases hstep
    exact .connections hnet
  | wake t =>
    rw [step] at hstep
    cases hstep
    exact .wake t

/-- Nobody sleeps who has something to do: who sleeps on a queue holds nothing and the queue is empty, and when there
are results the logger goes on, or the network thread has been kicked. -/
structure Awake (s : Threads α) : Prop where
  requestList : s.requestList.Awake
  pending : s.pending.Awake
  cpdone : s.cpdone.Awake
  request : .request ∈ s.requestList.asleep → s.request = none
  logger : .logger ∈ s.pending.asleep → s.logger = .get
  timer : .timer ∈ s.cpdone.asleep → s.timer = .wait
  kicked : s.logged.queue ≠ [] → s.logger ≠ .get ∨ s.pending.queue ≠ [] ∨ 0 < s.pipe ∨ s.net = .dispatch

theorem Awake.start : (start : Threads α).Awake where
  requestList := fun h => absurd rfl h
  pending := fun h => absurd rfl h
  cpdone := fun h => absurd rfl h
  request := fun h => absurd h List.not_mem_nil
  logger := fun h => absurd h List.not_mem_nil
  timer := fun h => absurd h List.not_mem_nil
  kicked := fun h => absurd rfl h

/-- A request comes into the first queue. -/
theorem Awake.submit (h : s.Awake) (r : α) {suspended submitted : List α} :
    Awake { s with requestList := s.requestList.enqueue r, suspended, submitted } := by
  obtain ⟨hawake, hasleep⟩ := h.requestList.enqueue r
  refine { h with requestList := hawake, request := fun hmem => ?_ }
  rw [show (s.requestList.enqueue r).asleep = [] from hasleep] at hmem
  exact absurd hmem List.not_mem_nil

/-- A logger with something to do is awake. -/
theorem Awake.busy (h : s.Awake) (hl : s.logger ≠ .get) : .logger ∉ s.pending.asleep := fun hmem => hl (h.logger hmem)

theorem Awake.step {ev : ThreadsEv α} (h : s.Awake) (hstep : s.step rollover capacity ev = some s') : s'.Awake := by
  cases step_turn hstep with
  | submit => exact h.submit _
  | resume => exact h.submit _
  | noRequest hfree hq =>
    exact { h with requestList := fun hne => absurd hq hne, request := fun _ => rfl }
  | process hfree hq =>
    have hasleep : s.requestList.asleep = [] := h.requestList (by rw [hq]; exact List.cons_ne_nil _ _)
    refine { h with requestList := fun _ => hasleep, request := fun hmem => ?_ }
    rw [hasleep] at hmem
    exact absurd hmem List.not_mem_nil
  | suspend => exact { h with request := fun _ => rfl }
  | @processed r =>
    obtain ⟨hawake, hasleep⟩ := h.pending.enqueue r
    refine { h with pending := hawake, request := fun _ => rfl, logger := fun hmem => ?_, kicked := fun hne => ?_ }
    · rw [show (s.pending.enqueue r).asleep = [] from hasleep] at hmem
      exact absurd hmem List.not_mem_nil
    · exact Or.inr (Or.inl (List.append_ne_nil_of_right_ne_nil _ (List.cons_ne_nil _ _)))
  | nonePending hl hq =>
    exact { h with pending := fun hne => absurd hq hne, logger := fun _ => hl }
  | get hl hq =>
    have hasleep : s.pending.asleep = [] := h.pending (by rw [hq]; exact List.cons_ne_nil _ _)
    refine { h with pending := fun _ => hasleep, logger := fun hmem => ?_, kicked := fun _ => Or.inl (by simp) }
    rw [hasleep] at hmem
    exact absurd hmem List.not_mem_nil
  | @rolled r hl =>
    have hbusy := h.busy (by simp [hl])
    obtain ⟨hawake, hasleep⟩ := h.cpdone.enqueue r
    refine { h with
      cpdone := hawake, logger := fun hmem => absurd hmem hbusy, timer := fun hmem => ?_, kicked := ?_ }
    · rw [show (s.cpdone.enqueue r).asleep = [] from hasleep] at hmem
      exact absurd hmem List.not_mem_nil
    · exact fun _ => Or.inl (by simp)
  | log hl =>
    have hbusy := h.busy (by simp [hl])
    exact { h with logger := fun hmem => absurd hmem hbusy, kicked := fun _ => Or.inl (by simp) }
  | look hl =>
    have hbusy := h.busy (by simp [hl])
    refine { h with logger := fun hmem => absurd hmem hbusy, kicked := fun _ => ?_ }
    by_cases hq : s.pending.queue = []
    · exact Or.inl (by simp [hq])
    · exact Or.inr (Or.inl hq)
  | kick =>
    refine { h with logger := fun _ => rfl, kicked := fun _ => Or.inr (Or.inr (Or.inl ?_)) }
    exact lt_min (Nat.succ_pos _) capacity.pos
  | @alarm r =>
    obtain ⟨hawake, hasleep⟩ := h.requestList.enqueue r
    refine { h with requestList := hawake, request := fun hmem => ?_, timer := fun _ => rfl }
    rw [show (s.requestList.enqueue r).asleep = [] from hasleep] at hmem
    exact absurd hmem List.not_mem_nil
  | noneDone ht hq =>
    exact { h with cpdone := fun hne => absurd hq hne, timer := fun _ => ht }
  | wait ht hq =>
    have hasleep : s.cpdone.asleep = [] := h.cpdone (by rw [hq]; exact List.cons_ne_nil _ _)
    refine { h with cpdone := fun _ => hasleep, timer := fun hmem => ?_ }
    rw [hasleep] at hmem
    exact absurd hmem List.not_mem_nil
  | poll => exact { h with kicked := fun _ => Or.inr (Or.inr (Or.inr rfl)) }
  | noneLogged hnet hq => exact { h with kicked := fun hne => absurd hq hne }
  | dispatch hnet => exact { h with kicked := fun _ => Or.inr (Or.inr (Or.inr hnet)) }
  | pushOut => exact { h with }
  | connections hnet =>
    refine { h with kicked := fun hne => ?_ }
    rcases h.kicked hne with hk | hk | hk | hk
    · exact Or.inl hk
    · exact Or.inr (Or.inl hk)
    · exact Or.inr (Or.inr (Or.inl hk))
    · rw [hnet] at hk
      cases hk
  | wake t =>
    exact { h with
      requestList := h.requestList.wake t, pending := h.pending.wake t, cpdone := h.cpdone.wake t,
      request := fun hmem => h.request (MetaQueue.mem_wake hmem),
      logger := fun hmem => h.logger (MetaQueue.mem_wake hmem), timer := fun hmem => h.timer (MetaQueue.mem_wake hmem) }

/-! ## Nothing is lost -/

/-- The requests that are with a thread or in a queue before the results. -/
def inFlight (s : Threads α) : Multiset α :=
  ↑s.requestList.queue + ↑s.request.toList + ↑s.pending.queue + ↑s.logger.held + ↑s.cpdone.queue

/-- Every request is in one place, and the timer waits for the one rollover that is on its way. -/
structure Kept (rollover : α → Bool) (s : Threads α) : Prop where
  kept : (s.submitted : Multiset α) = s.inFlight + ↑s.suspended + ↑s.logged.queue + ↑s.answered + ↑s.rolled
  one : s.inFlight.countP (fun r => rollover r = true) = if s.timer = .wait then 1 else 0
  suspended : ∀ r ∈ s.suspended, rollover r = false
  cpdone : ∀ r ∈ s.cpdone.queue, rollover r = true

theorem Kept.start : Kept rollover start where
  kept := rfl
  one := rfl
  suspended := fun _ hr => absurd hr List.not_mem_nil
  cpdone := fun _ hr => absurd hr List.not_mem_nil

/-- A request moves on between the threads. -/
theorem Kept.same (h : s.Kept rollover) (hin : s'.inFlight = s.inFlight) (hsubmitted : s'.submitted = s.submitted)
    (hsuspended : s'.suspended = s.suspended) (hlogged : s'.logged = s.logged) (hanswered : s'.answered = s.answered)
    (hrolled : s'.rolled = s.rolled) (htimer : s'.timer = s.timer)
    (hcpdone : ∀ r ∈ s'.cpdone.queue, rollover r = true) : s'.Kept rollover where
  kept := by rw [hsubmitted, hin, hsuspended, hlogged, hanswered, hrolled, h.kept]
  one := by rw [hin, htimer, h.one]
  suspended := by
    rw [hsuspended]
    exact h.suspended
  cpdone := hcpdone

/-- The first request of a queue. -/
theorem coe_cons_singleton (r : α) (rest : List α) : ((r :: rest : List α) : Multiset α) = {r} + ↑rest := by
  rw [← Multiset.cons_coe, Multiset.singleton_add]

theorem countP_singleton_of {r : α} (hr : rollover r = true) :
    ({r} : Multiset α).countP (fun r => rollover r = true) = 1 := by
  simp [← Multiset.cons_zero, hr]

theorem countP_singleton_of_not {r : α} (hr : rollover r = false) :
    ({r} : Multiset α).countP (fun r => rollover r = true) = 0 :=
  Multiset.countP_eq_zero.2 (by simp [hr])

theorem coe_eraseIdx {l : List α} {i : ℕ} {r : α} (hi : l[i]? = some r) :
    (l : Multiset α) = {r} + ↑(l.eraseIdx i) := by
  obtain ⟨hlt, rfl⟩ := List.getElem?_eq_some_iff.1 hi
  rw [← coe_cons_singleton]
  exact Multiset.coe_eq_coe.2 (List.getElem_cons_eraseIdx_perm hlt).symm

/-- A request comes into the first queue, from outside or from those that are suspended. -/
theorem inFlight_enqueue (s : Threads α) (r : α) {suspended submitted : List α} {timer : TimerTurn} :
    inFlight { s with requestList := s.requestList.enqueue r, suspended, submitted, timer } = s.inFlight + {r} := by
  simp only [inFlight, MetaQueue.enqueue, ← Multiset.coe_add, Multiset.coe_singleton]
  abel

theorem Kept.step {ev : ThreadsEv α} (h : s.Kept rollover) (hstep : s.step rollover capacity ev = some s') :
    s'.Kept rollover := by
  have hkept := h.kept
  have hone := h.one
  cases step_turn hstep with
  | @submit r hr =>
    refine { h with kept := ?_, one := ?_ }
    · rw [inFlight_enqueue, ← Multiset.coe_add, hkept, Multiset.coe_singleton]
      abel
    · rw [inFlight_enqueue, Multiset.countP_add, hone, countP_singleton_of_not hr, add_zero]
  | @resume i r hi =>
    refine { h with kept := ?_, one := ?_, suspended := fun x hx => h.suspended x (List.mem_of_mem_eraseIdx hx) }
    · rw [inFlight_enqueue, hkept, coe_eraseIdx hi]
      abel
    · have hr := h.suspended r (List.mem_of_getElem? hi)
      rw [inFlight_enqueue, Multiset.countP_add, hone, countP_singleton_of_not hr, add_zero]
  | noRequest hfree hq =>
    refine h.same ?_ rfl rfl rfl rfl rfl rfl h.cpdone
    simp only [inFlight, hfree]
  | process hfree hq =>
    refine h.same ?_ rfl rfl rfl rfl rfl rfl h.cpdone
    simp only [inFlight, hfree, hq, coe_cons_singleton, Option.toList_some, Option.toList_none, Multiset.coe_nil]
    abel
  | @suspend r hr hroll =>
    have hin : s.inFlight = inFlight { s with request := none, suspended := s.suspended ++ [r] } + {r} := by
      simp only [inFlight, hr, Option.toList_some, Option.toList_none, Multiset.coe_singleton, Multiset.coe_nil]
      abel
    refine { h with kept := ?_, one := ?_, suspended := ?_ }
    · rw [hkept, hin, ← Multiset.coe_add, Multiset.coe_singleton]
      abel
    · rw [← hone, hin, Multiset.countP_add, countP_singleton_of_not hroll, add_zero]
    · intro x hx
      rcases List.mem_append.1 hx with hx | hx
      · exact h.suspended x hx
      · rw [List.mem_singleton.1 hx]
        exact hroll
  | processed hr =>
    refine h.same ?_ rfl rfl rfl rfl rfl rfl h.cpdone
    simp only [inFlight, MetaQueue.enqueue, hr, ← Multiset.coe_add, Option.toList_some, Option.toList_none,
      Multiset.coe_singleton, Multiset.coe_nil]
    abel
  | nonePending => exact h.same rfl rfl rfl rfl rfl rfl rfl h.cpdone
  | get hl hq =>
    refine h.same ?_ rfl rfl rfl rfl rfl rfl h.cpdone
    simp only [inFlight, hl, hq, coe_cons_singleton, LoggerTurn.held, Multiset.coe_nil]
    abel
  | rolled hl hr =>
    refine h.same ?_ rfl rfl rfl rfl rfl rfl ?_
    · simp only [inFlight, MetaQueue.enqueue, hl, ← Multiset.coe_add, LoggerTurn.held, Multiset.coe_singleton,
        Multiset.coe_nil]
      abel
    · intro x hx
      rcases List.mem_append.1 hx with hx | hx
      · exact h.cpdone x hx
      · rw [List.mem_singleton.1 hx]
        exact hr
  | @log r hl hr =>
    have hin : s.inFlight = inFlight { s with logger := .look, logged := s.logged.enqueue r } + {r} := by
      simp only [inFlight, hl, LoggerTurn.held, Multiset.coe_singleton, Multiset.coe_nil]
      abel
    refine { h with kept := ?_, one := ?_ }
    · rw [hkept, hin]
      simp only [MetaQueue.enqueue, ← Multiset.coe_add, Multiset.coe_singleton]
      abel
    · rw [← hone, hin, Multiset.countP_add, countP_singleton_of_not hr, add_zero]
  | look hl =>
    refine h.same ?_ rfl rfl rfl rfl rfl rfl h.cpdone
    simp only [inFlight, hl]
    split_ifs <;> rfl
  | kick hl =>
    refine h.same ?_ rfl rfl rfl rfl rfl rfl h.cpdone
    simp only [inFlight, hl]
    rfl
  | @alarm r ht hr =>
    refine { h with kept := ?_, one := ?_ }
    · rw [inFlight_enqueue, ← Multiset.coe_add, hkept, Multiset.coe_singleton]
      abel
    · rw [inFlight_enqueue, Multiset.countP_add, hone, countP_singleton_of hr, ht]
      rfl
  | noneDone => exact h.same rfl rfl rfl rfl rfl rfl rfl h.cpdone
  | @wait r rest ht hq =>
    have hr : rollover r = true := h.cpdone r (by rw [hq]; exact List.mem_cons_self)
    have hin : s.inFlight = inFlight { s with
        cpdone := { s.cpdone with queue := rest }, timer := .alarm, rolled := s.rolled ++ [r] } + {r} := by
      simp only [inFlight, hq, coe_cons_singleton]
      abel
    refine { h with kept := ?_, one := ?_, cpdone := ?_ }
    · rw [hkept, hin, ← Multiset.coe_add, Multiset.coe_singleton]
      abel
    · rw [hin, Multiset.countP_add, countP_singleton_of hr, if_pos ht] at hone
      exact Nat.succ.inj hone
    · exact fun x hx => h.cpdone x (by rw [hq]; exact List.mem_cons_of_mem _ hx)
  | poll => exact h.same rfl rfl rfl rfl rfl rfl rfl h.cpdone
  | noneLogged => exact h.same rfl rfl rfl rfl rfl rfl rfl h.cpdone
  | @dispatch r rest hnet hq =>
    refine { h with kept := ?_ }
    change (s.submitted : Multiset α) = s.inFlight + ↑s.suspended + ↑rest + ↑(s.answered ++ [r]) + ↑s.rolled
    rw [hkept, hq, coe_cons_singleton, ← Multiset.coe_add, Multiset.coe_singleton]
    abel
  | @pushOut i r hi =>
    refine { h with kept := ?_, suspended := fun x hx => h.suspended x (List.mem_of_mem_eraseIdx hx) }
    change (s.submitted : Multiset α) =
      s.inFlight + ↑(s.suspended.eraseIdx i) + ↑s.logged.queue + ↑(s.answered ++ [r]) + ↑s.rolled
    rw [hkept, coe_eraseIdx hi, ← Multiset.coe_add, Multiset.coe_singleton]
    abel
  | connections => exact h.same rfl rfl rfl rfl rfl rfl rfl h.cpdone
  | wake => exact h.same rfl rfl rfl rfl rfl rfl rfl h.cpdone

/-! ## Runs -/

theorem run_sound : ∀ {evs : List (ThreadsEv α)} {s s' : Threads α}, s.Awake → s.Kept rollover →
    s.run rollover capacity evs = some s' → s'.Awake ∧ s'.Kept rollover
  | [], _, _, ha, hk, hrun => by
    cases hrun
    exact ⟨ha, hk⟩
  | ev :: evs, s, s', ha, hk, hrun => by
    rw [run] at hrun
    obtain ⟨s₁, hstep, hrun⟩ := Option.bind_eq_some_iff.1 hrun
    exact run_sound (ha.step hstep) (hk.step hstep) hrun

end Threads

/-- **When all are asleep, everything is done.** The request thread and the logger sleep on their queues, the network
thread is in `poll` and nobody has kicked it: then each request has been answered or is suspended, and the timer does
not wait. -/
theorem asleep_answered {α : Type} {rollover : α → Bool} {capacity : ℕ+} {evs : List (ThreadsEv α)} {s : Threads α}
    (hrun : Threads.start.run rollover capacity evs = some s) (hrequest : .request ∈ s.requestList.asleep)
    (hlogger : .logger ∈ s.pending.asleep) (hnet : s.net = .poll) (hpipe : s.pipe = 0) :
    s.submitted.Perm (s.suspended ++ s.answered ++ s.rolled ++ s.cpdone.queue) ∧ .timer ∉ s.cpdone.asleep := by
  obtain ⟨ha, hk⟩ := Threads.run_sound Threads.Awake.start Threads.Kept.start hrun
  have hlist := ha.requestList.empty hrequest
  have hpending := ha.pending.empty hlogger
  have hlogged : s.logged.queue = [] := by
    by_contra hne
    rcases ha.kicked hne with hk | hk | hk | hk
    · exact hk (ha.logger hlogger)
    · exact hk hpending
    · exact hk.ne' hpipe
    · rw [hnet] at hk
      cases hk
  have hin : s.inFlight = ↑s.cpdone.queue := by
    simp [Threads.inFlight, hlist, hpending, ha.request hrequest, ha.logger hlogger, LoggerTurn.held]
  refine ⟨?_, fun htimer => ?_⟩
  · rw [← Multiset.coe_eq_coe, hk.kept, hin, hlogged]
    simp only [← Multiset.coe_add, Multiset.coe_nil]
    abel
  · have hone := hk.one
    rw [hin, ha.cpdone.empty htimer, if_pos (ha.timer htimer)] at hone
    cases hone

/-- Two requests, of which the second is suspended, and a rollover. -/
def idleEvs : List (ThreadsEv ℕ) :=
  [.process, .get, .poll true, .dispatch, .submit 1, .submit 2, .connections, .process, .processed false, .process,
    .processed true, .alarm 0, .wake .logger, .get, .log, .look, .kick, .poll false, .dispatch, .process,
    .processed false, .get, .log, .look, .kick, .process, .get, .wait, .dispatch, .connections, .poll false, .dispatch,
    .connections]

theorem idleEvs_answered : ∃ s : Threads ℕ, Threads.start.run (fun r => decide (r = 0)) 1 idleEvs = some s ∧
    s.answered = [1] ∧ s.submitted.Perm (s.suspended ++ s.answered ++ s.rolled ++ s.cpdone.queue) ∧
    .timer ∉ s.cpdone.asleep := by
  have hx : (Threads.start.run (fun r => decide (r = 0)) 1 idleEvs).map (fun s : Threads ℕ =>
      (s.answered, s.requestList.asleep, s.pending.asleep, s.net, s.pipe)) =
      some ([1], [.request], [.logger], .poll, 0) := by decide +kernel
  obtain ⟨s, hrun, hs⟩ := Option.map_eq_some_iff.1 hx
  simp only [Prod.mk.injEq] at hs
  obtain ⟨hans, hrequest, hlogger, hnet, hpipe⟩ := hs
  refine ⟨s, hrun, hans, asleep_answered hrun ?_ ?_ hnet hpipe⟩
  · rw [hrequest]
    exact List.mem_singleton_self _
  · rw [hlogger]
    exact List.mem_singleton_self _

end Kfs
