import Mathlib.Data.List.Forall2
import Mathlib.Data.List.TakeDrop
import Mathlib.Tactic.Linarith

/-!
# Disk connections

A request on a disk connection is cut into sub-requests, which complete in any order. The requests wait in a queue, and
the requests at its front are answered, one callback each, as soon as all their sub-requests are done.

* `Aio`: which sub-requests the system takes, and what they come to;
* `DiskConnection.Read`, `Write`, `ReadDone`, `WriteDone`: the connection, `none` for an assertion that fails;
* `World.step`: a request, or the completion of a sub-request;
* `Delivered`: each request is answered once, in order and rightly;
* **`right_read_iff`, `right_write_iff`**: when the answer to a request is right.
-/

namespace Kfs.Io.Connection

/-! ## Sub-requests -/

inductive DiskEventOp
  | OP_READ
  | OP_WRITE
  deriving DecidableEq

/-- What a sub-request of `n` bytes comes to: the value that it returns, and what is then in the block it reads into. -/
structure AioResult (n : ℕ) where
  retval : ℤ
  block : List UInt8
  retval_le : retval ≤ n
  length_block : block.length = n

/-- The system: which sub-requests it takes, by their numbers, and what they come to. -/
structure Aio where
  scheduled : ℕ → Bool
  result : ℕ → (n : ℕ) → AioResult n

/-- `data` is what can be consumed of its block; `done` is the status `EVENT_DONE`. -/
structure DiskEvent where
  op : DiskEventOp
  offset : ℕ
  numBytes : ℕ
  data : List UInt8
  done : Bool
  retval : ℤ
  deriving DecidableEq

/-- The sub-request `i` when it is done; a read has filled its block by as much as it has read. -/
def Aio.complete (aio : Aio) (i : ℕ) (e : DiskEvent) : DiskEvent :=
  let res := aio.result i e.numBytes
  { e with
    done := true
    retval := res.retval
    data := if e.op = .OP_READ ∧ 0 < res.retval then e.data ++ res.block.take res.retval.toNat else e.data }

/-- `mDiskEvents` are the sub-requests that have not completed. -/
structure DiskManager where
  event : ℕ → DiskEvent
  mDiskEvents : List ℕ
  next : ℕ

namespace DiskManager

variable (aio : Aio) (m : DiskManager)

/-- The system takes the next sub-request. -/
def add (e : DiskEvent) : DiskManager where
  event := Function.update m.event m.next e
  mDiskEvents := m.mDiskEvents ++ [m.next]
  next := m.next + 1

/-- The number of the sub-request, if the system takes it. -/
def start (e : DiskEvent) : Option ℕ × DiskManager :=
  if aio.scheduled m.next then (some m.next, m.add e) else (none, { m with next := m.next + 1 })

def Read (offset numBytes : ℕ) : Option ℕ × DiskManager := m.start aio ⟨.OP_READ, offset, numBytes, [], false, 0⟩

def Write (data : List UInt8) (offset numBytes : ℕ) : Option (Option ℕ × DiskManager) :=
  if numBytes ≤ data.length then some (m.start aio ⟨.OP_WRITE, offset, numBytes, data, false, 0⟩) else none

end DiskManager

/-! ## The connection -/

structure DiskIORequest where
  op : DiskEventOp
  offset : ℕ
  numBytes : ℕ
  diskEvents : List ℕ

/-- All its sub-requests are done. -/
def DiskIORequest.done (event : ℕ → DiskEvent) (r : DiskIORequest) : Bool := r.diskEvents.all fun i => (event i).done

structure DiskConnection where
  mDiskIO : List DiskIORequest
  manager : DiskManager

/-- What the owner of the connection is told, with the bytes that were read, or how many were written. -/
inductive Event
  | DISK_READ (ioBuf : List UInt8)
  | DISK_WROTE (retval : ℤ)
  | DISK_ERROR
  deriving DecidableEq

def defPerRead : ℕ := 65536 * 8

namespace DiskConnection

section

variable (aio : Aio) (numBytes : ℕ)

/-- What is returned, and the sub-requests unless one of them could not be scheduled. -/
def readLoop (offset nRead : ℕ) (diskEvents : List ℕ) (m : DiskManager) : ℤ × Option (List ℕ) × DiskManager :=
  if nRead < numBytes then
    let bytesPerRead := min defPerRead (numBytes - nRead)
    match m.Read aio offset bytesPerRead with
    | (none, m) => (if 0 < nRead then (nRead : ℤ) else -1, none, m)
    | (some event, m) => readLoop (offset + bytesPerRead) (nRead + bytesPerRead) (diskEvents ++ [event]) m
  else ((nRead : ℤ), some diskEvents, m)
termination_by numBytes - nRead
decreasing_by
  have : 0 < defPerRead := by decide
  omega

/-- Each block of the buffer is a write of its own. -/
def writeLoop : ℕ → ℕ → List ℕ → List (List UInt8) → DiskManager → Option (ℤ × Option (List ℕ) × DiskManager)
  | _, nWrote, diskEvents, [], m => some ((nWrote : ℤ), some diskEvents, m)
  | offset, nWrote, diskEvents, data :: buf, m =>
    if data.length = 0 then writeLoop offset nWrote diskEvents buf m
    else
      let numIOs := if data.length + nWrote > numBytes then numBytes - nWrote else data.length
      (m.Write aio data offset numIOs).bind fun
        | (none, m) => some (if 0 < nWrote then (nWrote : ℤ) else -1, none, m)
        | (some event, m) =>
          if nWrote + numIOs ≥ numBytes then some (((nWrote + numIOs : ℕ) : ℤ), some (diskEvents ++ [event]), m)
          else writeLoop (offset + numIOs) (nWrote + numIOs) (diskEvents ++ [event]) buf m

/-- Nothing is put into the queue when a sub-request cannot be scheduled. -/
def enqueue (c : DiskConnection) (op : DiskEventOp) (offset : ℕ) :
    ℤ × Option (List ℕ) × DiskManager → ℤ × DiskConnection
  | (n, none, m) => (n, { c with manager := m })
  | (n, some diskEvents, m) => (n, ⟨c.mDiskIO ++ [⟨op, offset, numBytes, diskEvents⟩], m⟩)

def Read (c : DiskConnection) (offset : ℕ) : ℤ × DiskConnection :=
  if numBytes = 0 then (0, c) else c.enqueue numBytes .OP_READ offset (readLoop aio numBytes offset 0 [] c.manager)

def Write (c : DiskConnection) (offset : ℕ) (buf : List (List UInt8)) : Option (ℤ × DiskConnection) :=
  if numBytes = 0 then some (0, c)
  else (writeLoop aio numBytes offset 0 [] buf c.manager).map (c.enqueue numBytes .OP_WRITE offset)

end

/-- The results of the sub-reads, until the first that failed. -/
def readResults : ℤ → List UInt8 → List DiskEvent → ℤ × List UInt8
  | retval, ioBuf, [] => (retval, ioBuf)
  | _, ioBuf, event :: diskEvents =>
    if event.retval ≥ 0 then readResults event.retval (ioBuf ++ event.data) diskEvents else (event.retval, ioBuf)

/-- Whether all sub-writes succeeded, and how much they wrote. -/
def writeResults : ℤ → List DiskEvent → Bool × ℤ
  | retval, [] => (true, retval)
  | retval, event :: diskEvents =>
    if event.retval < 0 then (false, retval) else writeResults (retval + event.retval) diskEvents

def readEvent (diskEvents : List DiskEvent) : Event :=
  let (retval, ioBuf) := readResults 0 [] diskEvents
  if retval ≥ 0 then .DISK_READ ioBuf else .DISK_ERROR

def writeEvent (diskEvents : List DiskEvent) : Event :=
  let (success, retval) := writeResults 0 diskEvents
  if success then .DISK_WROTE retval else .DISK_ERROR

variable (event : ℕ → DiskEvent)

/-- The callbacks of the requests at the front that are done, and what is left in the queue. -/
def ReadDone.loop : List DiskIORequest → Option (List Event × List DiskIORequest)
  | [] => some ([], [])
  | r :: mDiskIO =>
    if r.done event then
      if r.op = .OP_READ then do
        let (calls, mDiskIO) ← ReadDone.loop mDiskIO
        some (readEvent (r.diskEvents.map event) :: calls, mDiskIO)
      else none
    else some ([], r :: mDiskIO)

def WriteDone.loop : List DiskIORequest → Option (List Event × List DiskIORequest)
  | [] => some ([], [])
  | r :: mDiskIO =>
    if r.op = .OP_WRITE then
      if r.done event then do
        let (calls, mDiskIO) ← WriteDone.loop mDiskIO
        some (writeEvent (r.diskEvents.map event) :: calls, mDiskIO)
      else some ([], r :: mDiskIO)
    else none

variable (c : DiskConnection)

/-- Whether a request in the queue has issued the sub-request. -/
def found (doneEvent : ℕ) : Bool := c.mDiskIO.any fun r => doneEvent ∈ r.diskEvents

def ReadDone (doneEvent : ℕ) : Option (List Event × DiskConnection) :=
  if c.found doneEvent then
    (ReadDone.loop c.manager.event c.mDiskIO).map fun (calls, io) => (calls, { c with mDiskIO := io })
  else some ([], c)

def WriteDone (doneEvent : ℕ) : Option (List Event × DiskConnection) :=
  if c.found doneEvent then
    (WriteDone.loop c.manager.event c.mDiskIO).map fun (calls, io) => (calls, { c with mDiskIO := io })
  else some ([], c)

def HandleDone (doneEvent : ℕ) : Option (List Event × DiskConnection) :=
  match (c.manager.event doneEvent).op with
  | .OP_READ => c.ReadDone doneEvent
  | .OP_WRITE => c.WriteDone doneEvent

/-- The body of `ReapCompletedIOs`, for a sub-request that has completed. -/
def reap (aio : Aio) (i : ℕ) : Option (List Event × DiskConnection) :=
  if i ∈ c.manager.mDiskEvents then do
    let event := Function.update c.manager.event i (aio.complete i (c.manager.event i))
    let (calls, c) ← HandleDone ⟨c.mDiskIO, { c.manager with event }⟩ i
    some (calls, ⟨c.mDiskIO, { c.manager with mDiskEvents := c.manager.mDiskEvents.erase i }⟩)
  else some ([], c)

end DiskConnection

/-! ## Runs -/

/-- A request for which a positive number of bytes was returned, with the sub-requests that were scheduled for it. -/
structure Request where
  op : DiskEventOp
  offset : ℕ
  numBytes : ℕ
  buf : List (List UInt8)
  subs : List ℕ

/-- A connection, the requests so far, and the callbacks that were made. -/
structure World where
  conn : DiskConnection
  accepted : List Request
  called : List Event

/-- `done i`: the sub-request `i` is done. -/
inductive Action
  | Read (offset numBytes : ℕ)
  | Write (offset numBytes : ℕ) (buf : List (List UInt8))
  | done (i : ℕ)

namespace World

variable (aio : Aio) (w : World)

/-- The sub-requests that were scheduled on the way to a state of the connection. -/
def scheduled (conn : DiskConnection) : List ℕ :=
  (List.range' w.conn.manager.next (conn.manager.next - w.conn.manager.next)).filter aio.scheduled

def request (op : DiskEventOp) (offset numBytes : ℕ) (buf : List (List UInt8)) : ℤ × DiskConnection → World
  | (n, conn) =>
    { w with
      conn
      accepted := if 0 < n then w.accepted ++ [⟨op, offset, numBytes, buf, w.scheduled aio conn⟩] else w.accepted }

def step : Action → Option World
  | .Read offset numBytes =>
    some (w.request aio .OP_READ offset numBytes [] (w.conn.Read aio numBytes offset))
  | .Write offset numBytes buf =>
    (w.conn.Write aio numBytes offset buf).map (w.request aio .OP_WRITE offset numBytes buf)
  | .done i => (w.conn.reap aio i).map fun (calls, conn) => { w with conn, called := w.called ++ calls }

end World

/-- A new connection. -/
def World.new : World := ⟨⟨[], ⟨fun _ => ⟨.OP_READ, 0, 0, [], false, 0⟩, [], 0⟩⟩, [], []⟩

/-! ## What each request is to be answered -/

/-- The bytes that a sub-request has read or written. -/
def DiskEvent.moved (e : DiskEvent) : List UInt8 := e.data.take e.retval.toNat

/-- The byte `b` has been read, or written, at position `p` of the file. -/
def DiskEvent.Moved (e : DiskEvent) (p : ℕ) (b : UInt8) : Prop := e.offset ≤ p ∧ e.moved[p - e.offset]? = some b

section

variable (offset numBytes : ℕ) (es : List DiskEvent)

/-- `d` is the longest prefix of the requested range that the sub-requests have read. -/
structure LongestPrefix (d : List UInt8) : Prop where
  le : d.length ≤ numBytes
  read : ∀ k b, d[k]? = some b → ∃ e ∈ es, e.Moved (offset + k) b
  longest : d.length < numBytes → ∀ e ∈ es, ∀ b, ¬ e.Moved (offset + d.length) b

/-- All requested bytes have been written. -/
def AllWritten (buf : List (List UInt8)) : Prop :=
  ∀ k < numBytes, ∃ b, buf.flatten[k]? = some b ∧ ∃ e ∈ es, e.Moved (offset + k) b

end

/-- A read is answered with the prefix, and nothing is the prefix where it is answered with an error; a write is
answered with success only if all its bytes have been written. -/
def Right (es : List DiskEvent) (r : Request) : Event → Prop
  | .DISK_READ d => r.op = .OP_READ ∧ LongestPrefix r.offset r.numBytes es d
  | .DISK_WROTE _ => r.op = .OP_WRITE ∧ AllWritten r.offset r.numBytes es r.buf
  | .DISK_ERROR => r.op = .OP_READ → LongestPrefix r.offset r.numBytes es []

/-- All sub-requests are done. -/
def Request.done (event : ℕ → DiskEvent) (r : Request) : Bool := r.subs.all fun i => (event i).done

/-- The callbacks are those of the requests up to the first that is not done, one each, in their order. -/
def Delivered (w : World) : Prop :=
  List.Forall₂ (fun r => Right (r.subs.map w.conn.manager.event) r)
    (w.accepted.takeWhile (Request.done w.conn.manager.event)) w.called

/-! ## The sub-requests of a request -/

/-- The sub-requests `i`, `i + 1` and so on when they are done. -/
def Aio.completed (aio : Aio) : ℕ → List DiskEvent → List DiskEvent
  | _, [] => []
  | i, e :: es => aio.complete i e :: aio.completed (i + 1) es

/-- The sub-reads of a read. -/
def subReads (offset numBytes : ℕ) : List DiskEvent :=
  if 0 < numBytes then
    let n := min defPerRead numBytes
    ⟨.OP_READ, offset, n, [], false, 0⟩ :: subReads (offset + n) (numBytes - n)
  else []
termination_by numBytes
decreasing_by
  have : 0 < defPerRead := by decide
  omega

/-- The sub-writes of a write. -/
def subWrites : ℕ → ℕ → List (List UInt8) → List DiskEvent
  | _, _, [] => []
  | offset, numBytes, data :: buf =>
    if data.length = 0 then subWrites offset numBytes buf
    else
      let n := min data.length numBytes
      ⟨.OP_WRITE, offset, n, data, false, 0⟩ ::
        if numBytes ≤ n then [] else subWrites (offset + n) (numBytes - n) buf

/-- The system takes all of the sub-requests from `next` on, or not even the first. -/
def AllOrNone (aio : Aio) (next : ℕ) (es : List DiskEvent) : Prop :=
  aio.scheduled next = true → ∀ k < es.length, aio.scheduled (next + k) = true

/-- Behind a short sub-read nothing is read; and if a sub-read fails, nothing is read by the first. -/
def Contiguous (es : List DiskEvent) : Prop :=
  ((∀ e ∈ es, 0 ≤ e.retval) → es.Pairwise fun e e' => e.retval < e.numBytes → e'.retval = 0) ∧
    ((∃ e ∈ es, e.retval < 0) → ∀ e ∈ es.head?, e.retval ≤ 0)

/-- If no sub-write fails, the buffer has all the bytes and each sub-write writes all its bytes. -/
def Complete (numBytes : ℕ) (buf : List (List UInt8)) (es : List DiskEvent) : Prop :=
  (∀ e ∈ es, 0 ≤ e.retval) → numBytes ≤ buf.flatten.length ∧ ∀ e ∈ es, e.retval = e.numBytes

/-! ## What the answers are -/

/-- Each sub-request starts where the one before it ends. -/
def Laid : ℕ → List DiskEvent → Prop
  | _, [] => True
  | offset, e :: es => e.offset = offset ∧ Laid (offset + e.numBytes) es

/-- The bytes that were read, or written, up to the first sub-request that is short or fails. -/
def movedPrefix : List DiskEvent → List UInt8
  | [] => []
  | e :: es => if e.retval < e.numBytes then e.moved else e.moved ++ movedPrefix es

/-- A sub-request has not done more than it was to do, and has done as much as it returns. -/
structure DiskEvent.Sound (e : DiskEvent) : Prop where
  retval_le : e.retval ≤ e.numBytes
  length_moved : e.moved.length = e.retval.toNat
  numBytes_pos : 0 < e.numBytes

section

variable {offset : ℕ} {es : List DiskEvent}

theorem Laid.le (h : Laid offset es) {e : DiskEvent} (he : e ∈ es) : offset ≤ e.offset := by
  induction es generalizing offset with
  | nil => cases he
  | cons e' es ih =>
    obtain ⟨h0, hl⟩ := h
    cases he with
    | head => exact h0.ge
    | tail _ he => exact (Nat.le_add_right _ _).trans (ih hl he)

theorem DiskEvent.Moved.lt {e : DiskEvent} {p : ℕ} {b : UInt8} (h : e.Moved p b) : p < e.offset + e.moved.length := by
  have hlt := (List.getElem?_eq_some_iff.1 h.2).1
  have := h.1
  omega

/-- The sub-requests lie end to end, so what is moved up to the first short one is the longest prefix. -/
theorem movedPrefix_longest (h : Laid offset es) (hs : ∀ e ∈ es, e.Sound) :
    LongestPrefix offset (es.map DiskEvent.numBytes).sum es (movedPrefix es) := by
  induction es generalizing offset with
  | nil => exact ⟨le_rfl, fun k b hk => by simp [movedPrefix] at hk, fun _ e he => by cases he⟩
  | cons e es ih =>
    obtain ⟨h0, hl⟩ := h
    have ih := ih hl fun e he => hs e (List.mem_cons_of_mem _ he)
    have hse := hs e List.mem_cons_self
    have hle := hse.retval_le
    have hlen := hse.length_moved
    have hpos := hse.numBytes_pos
    rw [List.map_cons, List.sum_cons, movedPrefix]
    by_cases hshort : e.retval < e.numBytes
    · rw [if_pos hshort]
      refine ⟨by omega, fun k b hk => ⟨e, List.mem_cons_self, by omega, by rw [h0, Nat.add_sub_cancel_left]; exact hk⟩,
        fun _ e' he' b hm => ?_⟩
      cases he' with
      | head =>
        have := hm.lt
        omega
      | tail _ he' =>
        have h₁ := hl.le he'
        have h₂ := hm.1
        omega
    · rw [if_neg hshort]
      have hfull : e.moved.length = e.numBytes := by omega
      refine ⟨by have := ih.le; rw [List.length_append]; omega, fun k b hk => ?_, fun hlt e' he' b hm => ?_⟩
      · by_cases hkl : k < e.moved.length
        · rw [List.getElem?_append_left hkl] at hk
          exact ⟨e, List.mem_cons_self, by omega, by rw [h0, Nat.add_sub_cancel_left]; exact hk⟩
        · rw [List.getElem?_append_right (Nat.le_of_not_lt hkl)] at hk
          obtain ⟨e', he', hm⟩ := ih.read _ _ hk
          refine ⟨e', List.mem_cons_of_mem _ he', ?_⟩
          rwa [hfull, Nat.add_assoc, Nat.add_sub_cancel' (by omega)] at hm
      · rw [List.length_append, hfull] at hlt hm
        cases he' with
        | head =>
          have := hm.lt
          omega
        | tail _ he' => exact ih.longest (by omega) e' he' b (by rwa [Nat.add_assoc])

theorem LongestPrefix.length_eq {numBytes : ℕ} {d d' : List UInt8} (h : LongestPrefix offset numBytes es d)
    (h' : LongestPrefix offset numBytes es d') : d.length = d'.length := by
  have key : ∀ {d d' : List UInt8}, LongestPrefix offset numBytes es d → LongestPrefix offset numBytes es d' →
      ¬ d.length < d'.length := by
    intro d d' h h' hlt
    obtain ⟨e, he, hm⟩ := h'.read d.length d'[d.length] (List.getElem?_eq_getElem hlt)
    exact h.longest (hlt.trans_le h'.le) e he _ hm
  have h₁ := key h h'
  have h₂ := key h' h
  omega

theorem movedPrefix_isPrefix (es : List DiskEvent) : movedPrefix es <+: es.flatMap DiskEvent.moved := by
  induction es with
  | nil => exact List.prefix_rfl
  | cons e es ih =>
    rw [movedPrefix, List.flatMap_cons]
    split_ifs
    · exact List.prefix_append _ _
    · exact (List.prefix_append_right_inj _).2 ih

theorem length_movedPrefix_eq_zero (hs : ∀ e ∈ es, e.Sound) :
    (movedPrefix es).length = 0 ↔ ∀ e ∈ es.head?, e.retval ≤ 0 := by
  cases es with
  | nil => simp [movedPrefix]
  | cons e es =>
    have h₁ := (hs e List.mem_cons_self).length_moved
    have h₂ := (hs e List.mem_cons_self).numBytes_pos
    rw [movedPrefix, List.head?_cons]
    simp only [Option.mem_some_iff, forall_eq']
    split_ifs
    · omega
    · rw [List.length_append]
      omega

theorem length_movedPrefix_eq_sum (hs : ∀ e ∈ es, e.Sound) :
    (movedPrefix es).length = (es.map DiskEvent.numBytes).sum ↔ ∀ e ∈ es, e.retval = e.numBytes := by
  induction es with
  | nil => simp [movedPrefix]
  | cons e es ih =>
    have ih := ih fun e he => hs e (List.mem_cons_of_mem _ he)
    have h₁ := (hs e List.mem_cons_self).length_moved
    have h₂ := (hs e List.mem_cons_self).numBytes_pos
    have h₃ := (hs e List.mem_cons_self).retval_le
    rw [movedPrefix, List.map_cons, List.sum_cons, List.forall_mem_cons]
    split_ifs with hshort
    · exact ⟨fun h => by omega, fun h => absurd h.1 hshort.ne⟩
    · rw [List.length_append, ← ih]
      omega

theorem movedPrefix_of_full (h : ∀ e ∈ es, e.retval = e.numBytes) :
    movedPrefix es = es.flatMap fun e => e.data.take e.numBytes := by
  induction es with
  | nil => rfl
  | cons e es ih =>
    have he := h e List.mem_cons_self
    rw [movedPrefix, if_neg he.not_lt, DiskEvent.moved, he, Int.toNat_natCast, List.flatMap_cons,
      ih fun e he => h e (List.mem_cons_of_mem _ he)]

/-- Without a failure, everything that is read is the prefix if nothing is read behind a short sub-read. -/
theorem length_movedPrefix_iff (hs : ∀ e ∈ es, e.Sound) (hok : ∀ e ∈ es, 0 ≤ e.retval) :
    (movedPrefix es).length = (es.flatMap DiskEvent.moved).length ↔
      es.Pairwise fun e e' => e.retval < e.numBytes → e'.retval = 0 := by
  induction es with
  | nil => simp [movedPrefix]
  | cons e es ih =>
    have ih := ih (fun e he => hs e (List.mem_cons_of_mem _ he)) fun e he => hok e (List.mem_cons_of_mem _ he)
    rw [movedPrefix, List.flatMap_cons, List.length_append, List.pairwise_cons]
    by_cases hshort : e.retval < e.numBytes
    · have hzero : (es.flatMap DiskEvent.moved).length = 0 ↔ ∀ e' ∈ es, e'.retval = 0 := by
        rw [List.length_eq_zero_iff, List.flatMap_eq_nil_iff]
        refine forall₂_congr fun e' he' => ?_
        have h₁ := (hs e' (List.mem_cons_of_mem _ he')).length_moved
        have h₂ := hok e' (List.mem_cons_of_mem _ he')
        rw [← List.length_eq_zero_iff]
        omega
      rw [if_pos hshort]
      constructor
      · intro h
        have h0 := hzero.1 (by omega)
        exact ⟨fun e' he' _ => h0 e' he', List.pairwise_of_forall_mem_list fun _ _ e' he' _ => h0 e' he'⟩
      · intro h
        have h0 := hzero.2 fun e' he' => h.1 e' he' hshort
        omega
    · rw [if_neg hshort, List.length_append, Nat.add_left_cancel_iff, ih]
      exact ⟨fun h => ⟨fun _ _ h' => absurd h' hshort, h⟩, fun h => h.2⟩

end

section

variable {aio : Aio} {i : ℕ} {e : DiskEvent} {es : List DiskEvent}

@[simp] theorem Aio.complete_op : (aio.complete i e).op = e.op := rfl
@[simp] theorem Aio.complete_offset : (aio.complete i e).offset = e.offset := rfl
@[simp] theorem Aio.complete_numBytes : (aio.complete i e).numBytes = e.numBytes := rfl
@[simp] theorem Aio.complete_done : (aio.complete i e).done = true := rfl
@[simp] theorem Aio.complete_retval : (aio.complete i e).retval = (aio.result i e.numBytes).retval := rfl

/-- A sub-request as it is issued: a read has an empty block, a write a block with what it is to write. -/
structure DiskEvent.Fresh (e : DiskEvent) : Prop where
  not_done : e.done = false
  numBytes_pos : 0 < e.numBytes
  read : e.op = .OP_READ → e.data = []
  write : e.op = .OP_WRITE → e.numBytes ≤ e.data.length

/-- A read has got what the system has put into its block. -/
theorem DiskEvent.Fresh.complete_data (h : e.Fresh) (hop : e.op = .OP_READ) :
    (aio.complete i e).data = (aio.result i e.numBytes).block.take (aio.result i e.numBytes).retval.toNat := by
  change (if e.op = .OP_READ ∧ 0 < (aio.result i e.numBytes).retval then _ else _) = _
  rw [h.read hop, List.nil_append]
  split_ifs with hpos
  · rfl
  · have hle : (aio.result i e.numBytes).retval ≤ 0 := not_lt.1 fun hp => hpos ⟨hop, hp⟩
    rw [Int.toNat_of_nonpos hle, List.take_zero]

theorem Aio.complete_data (hop : e.op = .OP_WRITE) : (aio.complete i e).data = e.data :=
  if_neg fun h => by rw [hop] at h; cases h.1

theorem DiskEvent.Fresh.moved_read (h : e.Fresh) (hop : e.op = .OP_READ) :
    (aio.complete i e).moved = (aio.complete i e).data := by
  rw [moved, h.complete_data hop, Aio.complete_retval, List.take_take, min_self]

theorem DiskEvent.Fresh.sound (h : e.Fresh) : (aio.complete i e).Sound := by
  have hle := (aio.result i e.numBytes).retval_le
  refine ⟨hle, ?_, h.numBytes_pos⟩
  cases hop : e.op with
  | OP_READ =>
    rw [h.moved_read hop, h.complete_data hop, List.length_take, (aio.result i e.numBytes).length_block,
      Aio.complete_retval]
    omega
  | OP_WRITE =>
    have := h.write hop
    rw [moved, Aio.complete_data hop, List.length_take, Aio.complete_retval]
    omega

/-- What holds of each sub-request when it is done. -/
theorem Aio.forall_completed {P : DiskEvent → Prop} (h : ∀ i, ∀ e ∈ es, P (aio.complete i e)) :
    ∀ e ∈ aio.completed i es, P e := by
  induction es generalizing i with
  | nil => exact fun _ he => by cases he
  | cons e es ih =>
    intro e' he'
    rw [completed] at he'
    cases he' with
    | head => exact h i e List.mem_cons_self
    | tail _ he' => exact ih (fun i e he => h i e (List.mem_cons_of_mem _ he)) e' he'

theorem Aio.laid_completed {offset : ℕ} (h : Laid offset es) : Laid offset (aio.completed i es) := by
  induction es generalizing i offset with
  | nil => trivial
  | cons e es ih => exact ⟨h.1, ih h.2⟩

theorem Aio.map_numBytes_completed : (aio.completed i es).map DiskEvent.numBytes = es.map DiskEvent.numBytes := by
  induction es generalizing i with
  | nil => rfl
  | cons e es ih => rw [completed, List.map_cons, List.map_cons, ih, complete_numBytes]

theorem Aio.flatMap_data_completed (h : ∀ e ∈ es, e.op = .OP_WRITE) :
    ((aio.completed i es).flatMap fun e => e.data.take e.numBytes) = es.flatMap fun e => e.data.take e.numBytes := by
  induction es generalizing i with
  | nil => rfl
  | cons e es ih =>
    rw [completed, List.flatMap_cons, List.flatMap_cons, ih fun e he => h e (List.mem_cons_of_mem _ he),
      complete_data (h e List.mem_cons_self), complete_numBytes]

/-- The sub-reads are fresh, lie end to end and make up the read. -/
theorem subReads_spec (offset numBytes : ℕ) :
    (∀ e ∈ subReads offset numBytes, e.Fresh ∧ e.op = .OP_READ) ∧ Laid offset (subReads offset numBytes) ∧
      ((subReads offset numBytes).map DiskEvent.numBytes).sum = numBytes := by
  induction numBytes using Nat.strong_induction_on generalizing offset with
  | _ numBytes ih =>
    rw [subReads]
    by_cases hpos : 0 < numBytes
    · rw [if_pos hpos]
      have hdef : 0 < defPerRead := by decide
      obtain ⟨hfresh, hlaid, hsum⟩ :=
        ih (numBytes - min defPerRead numBytes) (by omega) (offset + min defPerRead numBytes)
      refine ⟨fun e he => ?_, ⟨rfl, hlaid⟩, ?_⟩
      · cases he with
        | head => exact ⟨⟨rfl, by dsimp only; omega, fun _ => rfl, fun h => DiskEventOp.noConfusion h⟩, rfl⟩
        | tail _ he => exact hfresh e he
      · rw [List.map_cons, List.sum_cons, hsum]
        dsimp only
        omega
    · rw [if_neg hpos]
      exact ⟨fun _ he => (List.not_mem_nil he).elim, trivial, (Nat.eq_zero_of_not_pos hpos).symm⟩

/-- The sub-writes are fresh and lie end to end, and they are for the first bytes of the buffer. -/
theorem subWrites_spec (offset : ℕ) {numBytes : ℕ} (hpos : 0 < numBytes) (buf : List (List UInt8)) :
    (∀ e ∈ subWrites offset numBytes buf, e.Fresh ∧ e.op = .OP_WRITE) ∧ Laid offset (subWrites offset numBytes buf) ∧
      ((subWrites offset numBytes buf).map DiskEvent.numBytes).sum = min numBytes buf.flatten.length ∧
      ((subWrites offset numBytes buf).flatMap fun e => e.data.take e.numBytes) = buf.flatten.take numBytes := by
  induction buf generalizing offset numBytes with
  | nil => exact ⟨fun _ he => (List.not_mem_nil he).elim, trivial, (Nat.min_zero _).symm, List.take_nil.symm⟩
  | cons data buf ih =>
    rw [subWrites, List.flatten_cons]
    by_cases hd : data.length = 0
    · rw [if_pos hd, List.length_eq_zero_iff.1 hd, List.nil_append]
      exact ih offset hpos
    · rw [if_neg hd]
      dsimp only
      have hfirst : (⟨.OP_WRITE, offset, min data.length numBytes, data, false, 0⟩ : DiskEvent).Fresh :=
        ⟨rfl, by dsimp only; omega, fun h => DiskEventOp.noConfusion h, fun _ => min_le_left _ _⟩
      by_cases hle : numBytes ≤ data.length
      · rw [if_pos (by omega), min_eq_right hle]
        refine ⟨fun e he => ?_, ⟨rfl, trivial⟩, ?_, ?_⟩
        · rw [List.mem_singleton] at he
          subst he
          rw [min_eq_right hle] at hfirst
          exact ⟨hfirst, rfl⟩
        · rw [List.length_append]
          simp
          omega
        · rw [List.take_append_of_le_length hle]
          simp
      · have hmin : min data.length numBytes = data.length := by omega
        rw [hmin] at hfirst ⊢
        rw [if_neg hle]
        have hrest : 0 < numBytes - data.length := Nat.sub_pos_of_lt (not_le.1 hle)
        obtain ⟨hfresh, hlaid, hsum, hdata⟩ := ih (offset + data.length) hrest
        refine ⟨fun e he => ?_, ⟨rfl, hlaid⟩, ?_, ?_⟩
        · cases he with
          | head => exact ⟨hfirst, rfl⟩
          | tail _ he => exact hfresh e he
        · rw [List.map_cons, List.sum_cons, hsum, List.length_append]
          dsimp only
          omega
        · rw [List.flatMap_cons, hdata, List.take_append, List.take_length,
            List.take_of_length_le (Nat.le_of_not_le hle)]

end

/-! ## When an answer is right -/

section

open DiskConnection

variable {es : List DiskEvent}

theorem readResults_of_ok {retval : ℤ} (ioBuf : List UInt8) (h0 : 0 ≤ retval) (h : ∀ e ∈ es, 0 ≤ e.retval) :
    ∃ n, 0 ≤ n ∧ readResults retval ioBuf es = (n, ioBuf ++ es.flatMap DiskEvent.data) := by
  induction es generalizing retval ioBuf with
  | nil => exact ⟨retval, h0, by simp [readResults]⟩
  | cons e es ih =>
    have he := h e List.mem_cons_self
    obtain ⟨n, hn, heq⟩ := ih (ioBuf ++ e.data) he fun e he => h e (List.mem_cons_of_mem _ he)
    exact ⟨n, hn, by rw [readResults, if_pos he, heq, List.flatMap_cons, List.append_assoc]⟩

theorem readResults_of_failed {retval : ℤ} {ioBuf : List UInt8} (h : ∃ e ∈ es, e.retval < 0) :
    (readResults retval ioBuf es).1 < 0 := by
  induction es generalizing retval ioBuf with
  | nil => obtain ⟨e, he, -⟩ := h; cases he
  | cons e es ih =>
    rw [readResults]
    split_ifs with he
    · refine ih ?_
      obtain ⟨e', he', hneg⟩ := h
      cases he' with
      | head => exact absurd he (not_le.2 hneg)
      | tail _ he' => exact ⟨e', he', hneg⟩
    · exact not_le.1 he

theorem readEvent_of_ok (h : ∀ e ∈ es, 0 ≤ e.retval) : readEvent es = .DISK_READ (es.flatMap DiskEvent.data) := by
  obtain ⟨n, hn, heq⟩ := readResults_of_ok [] le_rfl h
  rw [readEvent, heq]
  exact if_pos hn

theorem readEvent_of_failed (h : ∃ e ∈ es, e.retval < 0) : readEvent es = .DISK_ERROR := by
  rw [readEvent]
  exact if_neg (not_le.2 (readResults_of_failed h))

theorem writeResults_fst (es : List DiskEvent) (retval : ℤ) :
    (writeResults retval es).1 = true ↔ ∀ e ∈ es, 0 ≤ e.retval := by
  induction es generalizing retval with
  | nil => simp [writeResults]
  | cons e es ih =>
    rw [writeResults, List.forall_mem_cons]
    split_ifs with he
    · exact ⟨False.elim, fun h => absurd h.1 (not_le.2 he)⟩
    · rw [ih]
      exact ⟨fun h => ⟨not_lt.1 he, h⟩, fun h => h.2⟩

theorem writeEvent_of_ok (h : ∀ e ∈ es, 0 ≤ e.retval) : ∃ n, writeEvent es = .DISK_WROTE n :=
  ⟨_, by rw [writeEvent]; exact if_pos ((writeResults_fst es 0).2 h)⟩

theorem writeEvent_of_failed (h : ∃ e ∈ es, e.retval < 0) : writeEvent es = .DISK_ERROR := by
  rw [writeEvent]
  refine if_neg fun hok => ?_
  obtain ⟨e, he, hneg⟩ := h
  exact absurd ((writeResults_fst es 0).1 hok e he) (not_le.2 hneg)

variable {aio : Aio} {i : ℕ} {r : Request}

/-- A read is answered rightly if and only if nothing is read behind a gap, and no failure follows on bytes that were
read. -/
theorem right_read_iff (hop : r.op = .OP_READ) (hes : es = aio.completed i (subReads r.offset r.numBytes)) :
    Right es r (readEvent es) ↔ Contiguous es := by
  obtain ⟨hfresh, hlaid, hsum⟩ := subReads_spec r.offset r.numBytes
  have hsound : ∀ e ∈ es, e.Sound := by
    rw [hes]
    exact Aio.forall_completed fun _ e he => (hfresh e he).1.sound
  have hmoved : ∀ e ∈ es, e.moved = e.data := by
    rw [hes]
    exact Aio.forall_completed fun _ e he => (hfresh e he).1.moved_read (hfresh e he).2
  have hprefix : LongestPrefix r.offset r.numBytes es (movedPrefix es) := by
    have h := movedPrefix_longest (hes ▸ Aio.laid_completed hlaid) hsound
    rwa [hes, Aio.map_numBytes_completed, hsum, ← hes] at h
  by_cases hok : ∀ e ∈ es, 0 ≤ e.retval
  · have hdata : (es.flatMap DiskEvent.data).length = (es.flatMap DiskEvent.moved).length := by
      rw [List.flatMap_congr hmoved]
    have hflat : es.flatMap DiskEvent.data = es.flatMap DiskEvent.moved := (List.flatMap_congr hmoved).symm
    rw [readEvent_of_ok hok, hflat]
    have hcont : Contiguous es ↔ (movedPrefix es).length = (es.flatMap DiskEvent.moved).length := by
      rw [length_movedPrefix_iff hsound hok]
      exact ⟨fun h => h.1 hok, fun h => ⟨fun _ => h, fun ⟨e, he, hneg⟩ => absurd (hok e he) (not_le.2 hneg)⟩⟩
    rw [hcont]
    constructor
    · intro h
      exact hprefix.length_eq h.2
    · intro h
      refine ⟨hop, ?_⟩
      rwa [← (movedPrefix_isPrefix es).eq_of_length h]
  · have hfail : ∃ e ∈ es, e.retval < 0 := by
      by_contra hno
      exact hok fun e he => not_lt.1 fun hneg => hno ⟨e, he, hneg⟩
    rw [readEvent_of_failed hfail]
    have hcont : Contiguous es ↔ (movedPrefix es).length = 0 := by
      rw [length_movedPrefix_eq_zero hsound]
      exact ⟨fun h => h.2 hfail, fun h => ⟨fun hall => absurd hall hok, fun _ => h⟩⟩
    rw [hcont]
    constructor
    · intro h
      exact hprefix.length_eq (h hop)
    · intro h _
      rwa [← List.length_eq_zero_iff.1 h]

/-- A write is answered rightly if and only if the buffer has all the bytes and all of them are written, unless one of
the sub-writes fails. -/
theorem right_write_iff (hop : r.op = .OP_WRITE) (hpos : 0 < r.numBytes)
    (hes : es = aio.completed i (subWrites r.offset r.numBytes r.buf)) :
    Right es r (writeEvent es) ↔ Complete r.numBytes r.buf es := by
  obtain ⟨hfresh, hlaid, hsum, hdata⟩ := subWrites_spec r.offset hpos r.buf
  have hsound : ∀ e ∈ es, e.Sound := by
    rw [hes]
    exact Aio.forall_completed fun _ e he => (hfresh e he).1.sound
  have hprefix : LongestPrefix r.offset (min r.numBytes r.buf.flatten.length) es (movedPrefix es) := by
    have h := movedPrefix_longest (hes ▸ Aio.laid_completed hlaid) hsound
    rwa [hes, Aio.map_numBytes_completed, hsum, ← hes] at h
  by_cases hok : ∀ e ∈ es, 0 ≤ e.retval
  · obtain ⟨n, hn⟩ := writeEvent_of_ok hok
    rw [hn]
    constructor
    · intro h _
      have hlen : ¬ (movedPrefix es).length < r.numBytes := by
        intro hlt
        obtain ⟨b, hb, e, he, hm⟩ := h.2 _ hlt
        have hk := (List.getElem?_eq_some_iff.1 hb).1
        exact hprefix.longest (by omega) e he b hm
      have hle := hprefix.le
      refine ⟨by omega, (length_movedPrefix_eq_sum hsound).1 ?_⟩
      rw [hes, Aio.map_numBytes_completed, hsum, ← hes]
      omega
    · intro h
      obtain ⟨hle, hfull⟩ := h hok
      refine ⟨hop, fun k hk => ⟨r.buf.flatten[k], List.getElem?_eq_getElem _, ?_⟩⟩
      refine hprefix.read k _ ?_
      rw [movedPrefix_of_full hfull, hes, Aio.flatMap_data_completed fun e he => (hfresh e he).2, hdata,
        List.getElem?_take_of_lt hk]
      exact List.getElem?_eq_getElem _
  · have hfail : ∃ e ∈ es, e.retval < 0 := by
      by_contra hno
      exact hok fun e he => not_lt.1 fun hneg => hno ⟨e, he, hneg⟩
    rw [writeEvent_of_failed hfail]
    exact ⟨fun _ hall => absurd hall hok, fun _ hread => by rw [hop] at hread; cases hread⟩

end

end Kfs.Io.Connection
