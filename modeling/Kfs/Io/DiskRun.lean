import Kfs.Io.DiskConnection

/-!
# Runs of a disk connection

* `issue`: both loops are the same loop over the sub-requests;
* `Waits`, `Sound`: what holds of a request in the queue, and of a connection;
* `Sound.request`, `Sound.done`: the steps keep it;
* **`delivered_once`**: each request is answered once, in order and rightly, in runs whose steps fit.
-/

namespace Kfs.Io.Connection

open DiskConnection

/-! ## Scheduling -/

def DiskManager.addAll (m : DiskManager) : List DiskEvent → DiskManager
  | [] => m
  | e :: es => (m.add e).addAll es

/-- The loops of `Read` and `Write`: `n` bytes have been scheduled. -/
def issue (aio : Aio) : ℕ → List ℕ → List DiskEvent → DiskManager → ℤ × Option (List ℕ) × DiskManager
  | n, diskEvents, [], m => ((n : ℤ), some diskEvents, m)
  | n, diskEvents, e :: es, m =>
    match m.start aio e with
    | (none, m) => (if 0 < n then (n : ℤ) else -1, none, m)
    | (some i, m) => issue aio (n + e.numBytes) (diskEvents ++ [i]) es m

section

variable {aio : Aio} {m : DiskManager} {es : List DiskEvent}

theorem readLoop_eq {numBytes nRead offset : ℕ} {diskEvents : List ℕ} (h : nRead ≤ numBytes) :
    readLoop aio numBytes offset nRead diskEvents m =
      issue aio nRead diskEvents (subReads offset (numBytes - nRead)) m := by
  induction hk : numBytes - nRead using Nat.strong_induction_on generalizing nRead offset diskEvents m with
  | _ k ih =>
    rw [readLoop, subReads]
    by_cases hlt : nRead < numBytes
    · have hdef : 0 < defPerRead := by decide
      have hpos : 0 < k := by omega
      rw [if_pos hlt, if_pos hpos, hk]
      dsimp only
      rw [issue]
      dsimp only
      rw [DiskManager.Read]
      cases hs : m.start aio ⟨.OP_READ, offset, min defPerRead k, [], false, 0⟩ with
      | mk res m' =>
        cases res with
        | none => rfl
        | some i => exact ih (k - min defPerRead k) (by omega) (by omega) (by omega)
    · have hpos : ¬ 0 < k := by omega
      rw [if_neg hlt, if_neg hpos, issue]

theorem writeLoop_eq {numBytes nWrote offset : ℕ} {diskEvents : List ℕ} (h : nWrote < numBytes)
    (buf : List (List UInt8)) :
    writeLoop aio numBytes offset nWrote diskEvents buf m =
      some (issue aio nWrote diskEvents (subWrites offset (numBytes - nWrote) buf) m) := by
  induction buf generalizing nWrote offset diskEvents m with
  | nil => rfl
  | cons data buf ih =>
    rw [writeLoop, subWrites]
    by_cases hd : data.length = 0
    · rw [if_pos hd, if_pos hd]
      exact ih h
    · have hmin : (if data.length + nWrote > numBytes then numBytes - nWrote else data.length) =
          min data.length (numBytes - nWrote) := by
        split_ifs <;> omega
      rw [if_neg hd, if_neg hd, hmin, issue]
      dsimp only
      rw [DiskManager.Write, if_pos (min_le_left _ _), Option.bind_some]
      cases hs : m.start aio ⟨.OP_WRITE, offset, min data.length (numBytes - nWrote), data, false, 0⟩ with
      | mk res m' =>
        cases res with
        | none => rfl
        | some i =>
          dsimp only
          by_cases hle : numBytes - nWrote ≤ min data.length (numBytes - nWrote)
          · rw [if_pos (by omega), if_pos hle, issue]
          · rw [if_neg (by omega), if_neg hle, ih (by omega), Nat.sub_add_eq]

theorem addAll_next : (m.addAll es).next = m.next + es.length := by
  induction es generalizing m with
  | nil => rfl
  | cons e es ih =>
    rw [DiskManager.addAll, ih, List.length_cons]
    change m.next + 1 + _ = _
    omega

theorem addAll_mDiskEvents : (m.addAll es).mDiskEvents = m.mDiskEvents ++ List.range' m.next es.length := by
  induction es generalizing m with
  | nil => exact (List.append_nil _).symm
  | cons e es ih =>
    rw [DiskManager.addAll, ih, List.length_cons, List.range'_succ]
    exact List.append_assoc _ _ _

theorem addAll_event_of_lt {j : ℕ} (hj : j < m.next) : (m.addAll es).event j = m.event j := by
  induction es generalizing m with
  | nil => rfl
  | cons e es ih =>
    rw [DiskManager.addAll, ih (hj.trans (Nat.lt_succ_self _))]
    exact Function.update_of_ne hj.ne _ _

theorem addAll_event : (List.range' m.next es.length).map (m.addAll es).event = es := by
  induction es generalizing m with
  | nil => rfl
  | cons e es ih =>
    have h0 : ((m.add e).addAll es).event m.next = e := by
      rw [addAll_event_of_lt (Nat.lt_succ_self _)]
      exact Function.update_self _ _ _
    rw [List.length_cons, List.range'_succ, List.map_cons, DiskManager.addAll, h0]
    exact congrArg (e :: ·) ih

/-- When the system takes them all, all are issued. -/
theorem issue_all {n : ℕ} {diskEvents : List ℕ} (h : ∀ k < es.length, aio.scheduled (m.next + k) = true) :
    issue aio n diskEvents es m =
      (((n + (es.map DiskEvent.numBytes).sum : ℕ) : ℤ), some (diskEvents ++ List.range' m.next es.length),
        m.addAll es) := by
  induction es generalizing n diskEvents m with
  | nil => simp [issue, DiskManager.addAll]
  | cons e es ih =>
    have h0 := h 0 (Nat.succ_pos _)
    rw [Nat.add_zero] at h0
    have hrest : ∀ k < es.length, aio.scheduled ((m.add e).next + k) = true := by
      intro k hk
      have := h (k + 1) (Nat.succ_lt_succ hk)
      rwa [Nat.add_left_comm, Nat.add_comm] at this
    rw [issue, DiskManager.start, if_pos h0]
    dsimp only
    rw [ih hrest, List.map_cons, List.sum_cons, List.length_cons, List.range'_succ, List.append_assoc, Nat.add_assoc]
    rfl

/-- Under `AllOrNone` a request is queued with all its sub-requests, or it fails at the first. -/
theorem enqueue_cases {c : DiskConnection} (op : DiskEventOp) (offset numBytes : ℕ) (hne : es ≠ [])
    (h : AllOrNone aio c.manager.next es) :
    c.enqueue numBytes op offset (issue aio 0 [] es c.manager) =
        (-1, { c with manager := { c.manager with next := c.manager.next + 1 } }) ∨
      aio.scheduled c.manager.next = true ∧ (∀ k < es.length, aio.scheduled (c.manager.next + k) = true) ∧
        c.enqueue numBytes op offset (issue aio 0 [] es c.manager) =
          ((((es.map DiskEvent.numBytes).sum : ℕ) : ℤ),
            ⟨c.mDiskIO ++ [⟨op, offset, numBytes, List.range' c.manager.next es.length⟩], c.manager.addAll es⟩) := by
  by_cases h0 : aio.scheduled c.manager.next = true
  · have hall := h h0
    refine Or.inr ⟨h0, hall, ?_⟩
    rw [issue_all hall, Nat.zero_add, List.nil_append, enqueue]
  · refine Or.inl ?_
    cases es with
    | nil => exact absurd rfl hne
    | cons e es => rw [issue, DiskManager.start, if_neg h0]; rfl

end

/-! ## What holds of a connection -/

/-- The answer to a request whose sub-requests are done. -/
def answer : DiskEventOp → List DiskEvent → Event
  | .OP_READ => readEvent
  | .OP_WRITE => writeEvent

/-- Each of the sub-requests from `i` on is as it was issued, or is done. -/
def Stages (aio : Aio) (event : ℕ → DiskEvent) : ℕ → List DiskEvent → Prop
  | _, [] => True
  | i, e :: es => (event i = e ∨ event i = aio.complete i e) ∧ Stages aio event (i + 1) es

/-- A request that has not been answered: its sub-requests, and that the answer will be right. -/
structure Waits (aio : Aio) (op : DiskEventOp) (event : ℕ → DiskEvent) (r : Request) (first : ℕ)
    (es : List DiskEvent) : Prop where
  op_eq : r.op = op
  subs_eq : r.subs = List.range' first es.length
  fresh : ∀ e ∈ es, e.done = false
  stages : Stages aio event first es
  right : Right (aio.completed first es) r (answer op (aio.completed first es))

def Request.toIO (r : Request) : DiskIORequest := ⟨r.op, r.offset, r.numBytes, r.subs⟩

/-- The requests in the queue are the last of those that were accepted, and those before them have been answered. -/
structure Queue (aio : Aio) (op : DiskEventOp) (w : World) (answered waiting : List Request) : Prop where
  accepted : w.accepted = answered ++ waiting
  mDiskIO : w.conn.mDiskIO = waiting.map Request.toIO
  done : ∀ r ∈ answered, r.done w.conn.manager.event = true
  head : ∀ r ∈ waiting.head?, r.done w.conn.manager.event = false
  waits : ∀ r ∈ waiting, ∃ first es, Waits aio op w.conn.manager.event r first es
  right : List.Forall₂ (fun r => Right (r.subs.map w.conn.manager.event) r) answered w.called

structure Sound (aio : Aio) (op : DiskEventOp) (w : World) : Prop where
  outstanding : ∀ i ∈ w.conn.manager.mDiskEvents,
    i < w.conn.manager.next ∧ (w.conn.manager.event i).done = false ∧ (w.conn.manager.event i).op = op
  nodup : w.conn.manager.mDiskEvents.Nodup
  subs_lt : ∀ r ∈ w.accepted, ∀ i ∈ r.subs, i < w.conn.manager.next
  queue : ∃ answered waiting, Queue aio op w answered waiting

section

variable {aio : Aio} {op : DiskEventOp} {event event' : ℕ → DiskEvent} {es : List DiskEvent} {r : Request}

theorem Stages.congr {first : ℕ} (h : Stages aio event first es)
    (heq : ∀ i, first ≤ i → i < first + es.length → event' i = event i) : Stages aio event' first es := by
  induction es generalizing first with
  | nil => trivial
  | cons e es ih =>
    have h0 := heq first le_rfl (by rw [List.length_cons]; omega)
    refine ⟨by rw [h0]; exact h.1, ih h.2 fun i hi hlt => heq i (by omega) ?_⟩
    rw [List.length_cons]
    omega

/-- A sub-request that was not done is done now. -/
theorem Stages.update {first i : ℕ} (h : Stages aio event first es) (hi : (event i).done = false) :
    Stages aio (Function.update event i (aio.complete i (event i))) first es := by
  induction es generalizing first with
  | nil => trivial
  | cons e es ih =>
    refine ⟨?_, ih h.2⟩
    by_cases hf : first = i
    · subst hf
      rw [Function.update_self]
      cases h.1 with
      | inl h0 => exact Or.inr (by rw [h0])
      | inr h0 =>
        rw [h0, Aio.complete_done] at hi
        cases hi
    · rw [Function.update_of_ne hf]
      exact h.1

theorem Stages.all_done {first : ℕ} (h : Stages aio event first es) (hfresh : ∀ e ∈ es, e.done = false)
    (hdone : ∀ i ∈ List.range' first es.length, (event i).done = true) :
    (List.range' first es.length).map event = aio.completed first es := by
  induction es generalizing first with
  | nil => rfl
  | cons e es ih =>
    rw [List.length_cons, List.range'_succ] at hdone ⊢
    rw [List.map_cons, Aio.completed,
      ih h.2 (fun e he => hfresh e (List.mem_cons_of_mem _ he)) fun i hi => hdone i (List.mem_cons_of_mem _ hi)]
    cases h.1 with
    | inl h0 =>
      have h₁ := hdone first List.mem_cons_self
      rw [h0, hfresh e List.mem_cons_self] at h₁
      cases h₁
    | inr h0 => rw [h0]

theorem Stages.addAll {m : DiskManager} : Stages aio (m.addAll es).event m.next es := by
  induction es generalizing m with
  | nil => trivial
  | cons e es ih =>
    refine ⟨Or.inl ?_, ih (m := m.add e)⟩
    rw [DiskManager.addAll, addAll_event_of_lt (Nat.lt_succ_self _)]
    exact Function.update_self _ _ _

theorem Waits.congr {first : ℕ} (h : Waits aio op event r first es) (heq : ∀ i ∈ r.subs, event' i = event i) :
    Waits aio op event' r first es :=
  { h with
    stages := h.stages.congr fun i hi hlt => heq i (by rw [h.subs_eq, List.mem_range'_1]; exact ⟨hi, hlt⟩) }

/-- What a request has been answered depends on its own sub-requests only. -/
theorem right_congr {answered : List Request} {called : List Event}
    (h : List.Forall₂ (fun r => Right (r.subs.map event) r) answered called)
    (heq : ∀ r ∈ answered, ∀ i ∈ r.subs, event' i = event i) :
    List.Forall₂ (fun r => Right (r.subs.map event') r) answered called := by
  induction h with
  | nil => exact List.Forall₂.nil
  | @cons r call answered called hr _ ih =>
    refine List.Forall₂.cons ?_ (ih fun r hr => heq r (List.mem_cons_of_mem _ hr))
    rwa [List.map_congr_left (heq r List.mem_cons_self)]

theorem Request.done_iff : r.done event = true ↔ ∀ i ∈ r.subs, (event i).done = true := List.all_eq_true

theorem Request.done_congr (h : ∀ i ∈ r.subs, event' i = event i) : r.done event' = r.done event := by
  rw [Bool.eq_iff_iff, Request.done_iff, Request.done_iff]
  exact forall₂_congr fun i hi => by rw [h i hi]

/-- The answer to a request in the queue whose sub-requests are done. -/
theorem Waits.answered {first : ℕ} (h : Waits aio op event r first es) (hdone : r.done event = true) :
    Right (r.subs.map event) r (answer op (r.subs.map event)) := by
  rw [Request.done_iff, h.subs_eq] at hdone
  rw [h.subs_eq, h.stages.all_done h.fresh hdone]
  exact h.right

end

/-! ## A request -/

section

variable {aio : Aio} {op : DiskEventOp} {w : World} {es : List DiskEvent} {offset numBytes : ℕ}
  {buf : List (List UInt8)}

/-- Nothing but the counter of the sub-requests changes. -/
theorem Sound.refused (h : Sound aio op w) :
    Sound aio op (w.request aio op offset numBytes buf
      (-1, { w.conn with manager := { w.conn.manager with next := w.conn.manager.next + 1 } })) := by
  obtain ⟨answered, waiting, hq⟩ := h.queue
  rw [World.request, if_neg (by decide)]
  exact ⟨fun i hi => ⟨(h.outstanding i hi).1.trans (Nat.lt_succ_self _), (h.outstanding i hi).2⟩, h.nodup,
    fun r hr i hi => (h.subs_lt r hr i hi).trans (Nat.lt_succ_self _), answered, waiting,
    hq.accepted, hq.mDiskIO, hq.done, hq.head, hq.waits, hq.right⟩

/-- The request goes to the end of the queue. -/
theorem Sound.queued (h : Sound aio op w) (hne : es ≠ []) (hfresh : ∀ e ∈ es, e.Fresh ∧ e.op = op)
    (hall : ∀ k < es.length, aio.scheduled (w.conn.manager.next + k) = true)
    (hright : ∀ subs, Right (aio.completed w.conn.manager.next es) ⟨op, offset, numBytes, buf, subs⟩
      (answer op (aio.completed w.conn.manager.next es))) :
    Sound aio op (w.request aio op offset numBytes buf ((((es.map DiskEvent.numBytes).sum : ℕ) : ℤ),
      ⟨w.conn.mDiskIO ++ [⟨op, offset, numBytes, List.range' w.conn.manager.next es.length⟩],
        w.conn.manager.addAll es⟩)) := by
  obtain ⟨answered, waiting, hq⟩ := h.queue
  have hsubs : w.scheduled aio ⟨w.conn.mDiskIO ++ [⟨op, offset, numBytes, List.range' w.conn.manager.next es.length⟩],
      w.conn.manager.addAll es⟩ = List.range' w.conn.manager.next es.length := by
    rw [World.scheduled, addAll_next, Nat.add_sub_cancel_left, List.filter_eq_self]
    intro i hi
    obtain ⟨k, hk, rfl⟩ := List.mem_range'.1 hi
    rw [Nat.one_mul]
    exact hall k hk
  have hpos : 0 < ((es.map DiskEvent.numBytes).sum : ℤ) := by
    cases es with
    | nil => exact absurd rfl hne
    | cons e es =>
      have := (hfresh e List.mem_cons_self).1.numBytes_pos
      rw [List.map_cons, List.sum_cons]
      omega
  have hsame : ∀ r ∈ w.accepted, ∀ i ∈ r.subs, (w.conn.manager.addAll es).event i = w.conn.manager.event i :=
    fun r hr i hi => addAll_event_of_lt (h.subs_lt r hr i hi)
  have hstages : Stages aio (w.conn.manager.addAll es).event w.conn.manager.next es := Stages.addAll
  have hnew : ∀ i ∈ List.range' w.conn.manager.next es.length, (w.conn.manager.addAll es).event i ∈ es := by
    intro i hi
    have := List.mem_map_of_mem (f := (w.conn.manager.addAll es).event) hi
    rwa [addAll_event] at this
  rw [World.request, if_pos hpos, hsubs]
  refine ⟨fun i hi => ?_, ?_, fun r hr i hi => ?_, answered,
    waiting ++ [⟨op, offset, numBytes, buf, List.range' w.conn.manager.next es.length⟩], ?_, ?_, ?_, ?_, ?_, ?_⟩
  · dsimp only at hi ⊢
    rw [addAll_mDiskEvents, List.mem_append] at hi
    rw [addAll_next]
    cases hi with
    | inl hi =>
      obtain ⟨hlt, hrest⟩ := h.outstanding i hi
      rw [addAll_event_of_lt hlt]
      exact ⟨hlt.trans_le (Nat.le_add_right _ _), hrest⟩
    | inr hi => exact ⟨(List.mem_range'_1.1 hi).2, (hfresh _ (hnew i hi)).1.not_done, (hfresh _ (hnew i hi)).2⟩
  · dsimp only
    rw [addAll_mDiskEvents]
    refine List.nodup_append.2 ⟨h.nodup, List.nodup_range', fun i hi j hj hij => ?_⟩
    have h₁ := (h.outstanding i hi).1
    have h₂ := (List.mem_range'_1.1 hj).1
    omega
  · dsimp only at hr ⊢
    rw [addAll_next]
    cases List.mem_append.1 hr with
    | inl hr => exact (h.subs_lt r hr i hi).trans_le (Nat.le_add_right _ _)
    | inr hr =>
      rw [List.mem_singleton.1 hr] at hi
      exact (List.mem_range'_1.1 hi).2
  · dsimp only
    rw [hq.accepted, List.append_assoc]
  · dsimp only
    rw [hq.mDiskIO, List.map_append]
    rfl
  · intro r hr
    have hr' : r ∈ w.accepted := by rw [hq.accepted]; exact List.mem_append_left _ hr
    rw [Request.done_congr (hsame r hr')]
    exact hq.done r hr
  · intro r hr
    cases hw : waiting with
    | nil =>
      rw [hw, List.nil_append, List.head?_cons, Option.mem_some_iff] at hr
      rw [← hr, ← Bool.not_eq_true, Request.done_iff]
      intro hall'
      have hi : w.conn.manager.next ∈ List.range' w.conn.manager.next es.length :=
        List.mem_range'_1.2 ⟨le_rfl, Nat.lt_add_of_pos_right (List.length_pos_iff.2 hne)⟩
      have := hall' _ hi
      dsimp only at this
      rw [(hfresh _ (hnew _ hi)).1.not_done] at this
      cases this
    | cons r' rest =>
      rw [hw, List.cons_append, List.head?_cons, Option.mem_some_iff] at hr
      subst hr
      have hr' : r' ∈ w.accepted := by rw [hq.accepted, hw]; exact List.mem_append_right _ List.mem_cons_self
      rw [Request.done_congr (hsame r' hr')]
      exact hq.head r' (by rw [hw]; rfl)
  · intro r hr
    cases List.mem_append.1 hr with
    | inl hr =>
      obtain ⟨first, es', hwait⟩ := hq.waits r hr
      have hr' : r ∈ w.accepted := by rw [hq.accepted]; exact List.mem_append_right _ hr
      exact ⟨first, es', hwait.congr (hsame r hr')⟩
    | inr hr =>
      rw [List.mem_singleton.1 hr]
      exact ⟨_, es, rfl, rfl, fun e he => (hfresh e he).1.not_done, hstages, hright _⟩
  · refine right_congr hq.right fun r hr => hsame r ?_
    rw [hq.accepted]
    exact List.mem_append_left _ hr

end

/-! ## The completion of a sub-request -/

section

variable {aio : Aio} {op : DiskEventOp}

theorem ReadDone.loop_eq {event : ℕ → DiskEvent} {io : List DiskIORequest} (h : ∀ r ∈ io, r.op = .OP_READ) :
    ReadDone.loop event io =
      some ((io.takeWhile (DiskIORequest.done event)).map fun r => readEvent (r.diskEvents.map event),
        io.dropWhile (DiskIORequest.done event)) := by
  induction io with
  | nil => rfl
  | cons r io ih =>
    rw [ReadDone.loop]
    by_cases hdone : r.done event = true
    · rw [if_pos hdone, if_pos (h r List.mem_cons_self), ih fun r hr => h r (List.mem_cons_of_mem _ hr),
        List.takeWhile_cons_of_pos hdone, List.dropWhile_cons_of_pos hdone]
      rfl
    · rw [if_neg hdone, List.takeWhile_cons_of_neg hdone, List.dropWhile_cons_of_neg hdone]
      rfl

theorem WriteDone.loop_eq {event : ℕ → DiskEvent} {io : List DiskIORequest} (h : ∀ r ∈ io, r.op = .OP_WRITE) :
    WriteDone.loop event io =
      some ((io.takeWhile (DiskIORequest.done event)).map fun r => writeEvent (r.diskEvents.map event),
        io.dropWhile (DiskIORequest.done event)) := by
  induction io with
  | nil => rfl
  | cons r io ih =>
    rw [WriteDone.loop, if_pos (h r List.mem_cons_self)]
    by_cases hdone : r.done event = true
    · rw [if_pos hdone, ih fun r hr => h r (List.mem_cons_of_mem _ hr), List.takeWhile_cons_of_pos hdone,
        List.dropWhile_cons_of_pos hdone]
      rfl
    · rw [if_neg hdone, List.takeWhile_cons_of_neg hdone, List.dropWhile_cons_of_neg hdone]
      rfl

/-- The requests at the front that are done are answered; when the sub-request belongs to no request in the queue, there
is to be none that is done. -/
theorem HandleDone_eq (c : DiskConnection) {i : ℕ} (hi : (c.manager.event i).op = op) (hop : ∀ r ∈ c.mDiskIO, r.op = op)
    (hfound : c.found i = false → c.mDiskIO.takeWhile (DiskIORequest.done c.manager.event) = []) :
    c.HandleDone i =
      some ((c.mDiskIO.takeWhile (DiskIORequest.done c.manager.event)).map fun r =>
          answer op (r.diskEvents.map c.manager.event),
        { c with mDiskIO := c.mDiskIO.dropWhile (DiskIORequest.done c.manager.event) }) := by
  have hnone : c.found i = false → some (([] : List Event), c) =
      some ((c.mDiskIO.takeWhile (DiskIORequest.done c.manager.event)).map fun r =>
          answer op (r.diskEvents.map c.manager.event),
        { c with mDiskIO := c.mDiskIO.dropWhile (DiskIORequest.done c.manager.event) }) := by
    intro h
    have happ := List.takeWhile_append_dropWhile (l := c.mDiskIO) (p := DiskIORequest.done c.manager.event)
    rw [hfound h, List.nil_append] at happ
    rw [hfound h, happ]
    rfl
  rw [HandleDone, hi]
  cases op with
  | OP_READ =>
    dsimp only
    rw [ReadDone]
    by_cases hf : c.found i = true
    · rw [if_pos hf, ReadDone.loop_eq hop]
      rfl
    · rw [if_neg hf]
      exact hnone (Bool.eq_false_of_not_eq_true hf)
  | OP_WRITE =>
    dsimp only
    rw [WriteDone]
    by_cases hf : c.found i = true
    · rw [if_pos hf, WriteDone.loop_eq hop]
      rfl
    · rw [if_neg hf]
      exact hnone (Bool.eq_false_of_not_eq_true hf)

variable {w : World} {answered waiting : List Request} {i : ℕ} {event : ℕ → DiskEvent}

/-- What a step for the completion of a sub-request does. -/
theorem Queue.step_eq (hq : Queue aio op w answered waiting) (hi : i ∈ w.conn.manager.mDiskEvents)
    (hop : (w.conn.manager.event i).op = op)
    (hevent : event = Function.update w.conn.manager.event i (aio.complete i (w.conn.manager.event i))) :
    w.step aio (.done i) =
      some ⟨⟨(waiting.dropWhile (Request.done event)).map Request.toIO,
          { w.conn.manager with event, mDiskEvents := w.conn.manager.mDiskEvents.erase i }⟩, w.accepted,
        w.called ++ (waiting.takeWhile (Request.done event)).map fun r => answer op (r.subs.map event)⟩ := by
  have hdone : DiskIORequest.done event ∘ Request.toIO = Request.done event := rfl
  have hself : (event i).op = op := by
    rw [hevent, Function.update_self]
    exact hop
  have hcalls := HandleDone_eq ⟨w.conn.mDiskIO, { w.conn.manager with event }⟩ hself
    (fun r hr => by
      rw [hq.mDiskIO] at hr
      obtain ⟨r', hr', rfl⟩ := List.mem_map.1 hr
      obtain ⟨first, es, hwait⟩ := hq.waits r' hr'
      exact hwait.op_eq)
    (fun hf => by
      dsimp only
      rw [hq.mDiskIO, List.takeWhile_map, List.map_eq_nil_iff, hdone]
      cases hw : waiting with
      | nil => rfl
      | cons r rest =>
        -- the request at the front is not concerned, so it is not done, as before
        have hnotin : i ∉ r.subs := by
          intro hin
          rw [found, List.any_eq_false] at hf
          refine hf r.toIO ?_ (decide_eq_true hin)
          dsimp only
          rw [hq.mDiskIO, hw]
          exact List.mem_cons_self
        have hother : ∀ j ∈ r.subs, event j = w.conn.manager.event j := by
          intro j hj
          rw [hevent]
          exact Function.update_of_ne (fun hji : j = i => hnotin (hji ▸ hj)) _ _
        refine List.takeWhile_cons_of_neg ?_
        rw [Request.done_congr hother, hq.head r (by rw [hw]; rfl)]
        exact Bool.false_ne_true)
  dsimp only at hcalls
  rw [hq.mDiskIO, List.takeWhile_map, List.dropWhile_map, List.map_map, hdone] at hcalls
  rw [World.step, reap, if_pos hi]
  dsimp only
  rw [← hevent, hq.mDiskIO, hcalls]
  rfl

/-- The requests that are now done at the front of the queue are answered, and rightly. -/
theorem Queue.done_step (hq : Queue aio op w answered waiting) (hnot : (w.conn.manager.event i).done = false)
    (hevent : event = Function.update w.conn.manager.event i (aio.complete i (w.conn.manager.event i)))
    (mDiskEvents : List ℕ) :
    Queue aio op
      ⟨⟨(waiting.dropWhile (Request.done event)).map Request.toIO, ⟨event, mDiskEvents, w.conn.manager.next⟩⟩,
        w.accepted, w.called ++ (waiting.takeWhile (Request.done event)).map fun r => answer op (r.subs.map event)⟩
      (answered ++ waiting.takeWhile (Request.done event)) (waiting.dropWhile (Request.done event)) := by
  -- what was done before is as it was
  have hsame : ∀ r ∈ answered, ∀ j ∈ r.subs, event j = w.conn.manager.event j := by
    intro r hr j hj
    rw [hevent]
    refine Function.update_of_ne (fun hji => ?_) _ _
    have := Request.done_iff.1 (hq.done r hr) j hj
    rw [hji, hnot] at this
    cases this
  have hwaits : ∀ r ∈ waiting, ∃ first es, Waits aio op event r first es := by
    intro r hr
    obtain ⟨first, es, hwait⟩ := hq.waits r hr
    exact ⟨first, es, { hwait with stages := hevent ▸ hwait.stages.update hnot }⟩
  have hfront : ∀ r ∈ waiting.takeWhile (Request.done event), r ∈ waiting ∧ r.done event = true :=
    fun r hr => ⟨(List.takeWhile_sublist _).subset hr, List.all_eq_true.1 List.all_takeWhile r hr⟩
  refine ⟨?_, rfl, fun r hr => ?_, fun r hr => ?_, fun r hr => hwaits r ((List.dropWhile_sublist _).subset hr), ?_⟩
  · rw [List.append_assoc, List.takeWhile_append_dropWhile]
    exact hq.accepted
  · cases List.mem_append.1 hr with
    | inl hr =>
      rw [Request.done_congr (hsame r hr)]
      exact hq.done r hr
    | inr hr => exact (hfront r hr).2
  · have := List.head?_dropWhile_not (Request.done event) waiting
    rw [Option.mem_def.1 hr] at this
    exact this
  · refine List.rel_append (right_congr hq.right hsame) ?_
    rw [List.forall₂_map_right_iff, List.forall₂_same]
    intro r hr
    obtain ⟨first, es, hwait⟩ := hwaits r (hfront r hr).1
    exact hwait.answered (hfront r hr).2

/-- The completion of a sub-request is never an assertion that fails, and keeps what holds of the connection. -/
theorem Sound.done (h : Sound aio op w) (i : ℕ) : ∃ w', w.step aio (.done i) = some w' ∧ Sound aio op w' := by
  by_cases hi : i ∈ w.conn.manager.mDiskEvents
  · obtain ⟨-, hnot, hop⟩ := h.outstanding i hi
    obtain ⟨answered, waiting, hq⟩ := h.queue
    refine ⟨_, hq.step_eq hi hop rfl, fun j hj => ?_, h.nodup.erase i, h.subs_lt, _, _, hq.done_step hnot rfl _⟩
    obtain ⟨hji, hj⟩ := h.nodup.mem_erase_iff.1 hj
    obtain ⟨hlt, hrest⟩ := h.outstanding j hj
    dsimp only
    rw [Function.update_of_ne hji]
    exact ⟨hlt, hrest⟩
  · refine ⟨w, ?_, h⟩
    rw [World.step, reap, if_neg hi]
    exact congrArg (fun called => some (⟨w.conn, w.accepted, called⟩ : World)) (List.append_nil _)

end

/-! ## Runs -/

/-- On a connection there are only reads, or only writes. -/
def Action.Uses (op : DiskEventOp) : Action → Prop
  | .Read .. => op = .OP_READ
  | .Write .. => op = .OP_WRITE
  | .done _ => True

/-- The system takes all of a request or nothing, and what the sub-requests of it come to is answered rightly. -/
def Action.Fits (aio : Aio) (next : ℕ) : Action → Prop
  | .Read offset numBytes =>
    AllOrNone aio next (subReads offset numBytes) ∧
      (aio.scheduled next = true → Contiguous (aio.completed next (subReads offset numBytes)))
  | .Write offset numBytes buf =>
    0 < numBytes → subWrites offset numBytes buf ≠ [] ∧ AllOrNone aio next (subWrites offset numBytes buf) ∧
      (aio.scheduled next = true → Complete numBytes buf (aio.completed next (subWrites offset numBytes buf)))
  | .done _ => True

/-- A state that a new connection reaches by steps that fit. -/
inductive Run (aio : Aio) (op : DiskEventOp) : World → Prop
  | new : Run aio op World.new
  | step {w w' : World} {a : Action} (h : Run aio op w) (hop : a.Uses op) (hfits : a.Fits aio w.conn.manager.next)
      (hstep : w.step aio a = some w') : Run aio op w'

section

variable {aio : Aio} {op : DiskEventOp} {w : World}

theorem Sound.new : Sound aio op World.new :=
  ⟨fun _ hi => (List.not_mem_nil hi).elim, List.nodup_nil, fun _ hr => (List.not_mem_nil hr).elim, [], [], rfl, rfl,
    fun _ hr => (List.not_mem_nil hr).elim, fun _ hr => (Option.not_mem_none _ hr).elim,
    fun _ hr => (List.not_mem_nil hr).elim, List.Forall₂.nil⟩

theorem Sound.request (h : Sound aio op w) {es : List DiskEvent} {offset numBytes : ℕ} {buf : List (List UInt8)}
    (hne : es ≠ []) (hfresh : ∀ e ∈ es, e.Fresh ∧ e.op = op) (hall : AllOrNone aio w.conn.manager.next es)
    (hright : aio.scheduled w.conn.manager.next = true → ∀ subs,
      Right (aio.completed w.conn.manager.next es) ⟨op, offset, numBytes, buf, subs⟩
        (answer op (aio.completed w.conn.manager.next es))) :
    Sound aio op (w.request aio op offset numBytes buf
      (w.conn.enqueue numBytes op offset (issue aio 0 [] es w.conn.manager))) := by
  cases enqueue_cases op offset numBytes hne hall with
  | inl heq =>
    rw [heq]
    exact h.refused
  | inr heq =>
    obtain ⟨h0, hall, heq⟩ := heq
    rw [heq]
    exact h.queued hne hfresh hall (hright h0)

/-- Every step that fits is possible, and keeps what holds of the connection. -/
theorem Sound.step (h : Sound aio op w) {a : Action} (hop : a.Uses op) (hfits : a.Fits aio w.conn.manager.next) :
    ∃ w', w.step aio a = some w' ∧ Sound aio op w' := by
  cases a with
  | done i => exact h.done i
  | Read offset numBytes =>
    obtain rfl : op = .OP_READ := hop
    refine ⟨_, rfl, ?_⟩
    rw [DiskConnection.Read]
    by_cases h0 : numBytes = 0
    · rw [if_pos h0]
      exact h
    · obtain ⟨hfresh, -, -⟩ := subReads_spec offset numBytes
      rw [if_neg h0, readLoop_eq (Nat.zero_le _), Nat.sub_zero]
      refine h.request ?_ hfresh hfits.1 fun hs subs =>
        (right_read_iff (r := ⟨.OP_READ, offset, numBytes, [], subs⟩) rfl rfl).2 (hfits.2 hs)
      rw [subReads, if_pos (Nat.pos_of_ne_zero h0)]
      exact List.cons_ne_nil _ _
  | Write offset numBytes buf =>
    obtain rfl : op = .OP_WRITE := hop
    rw [World.step, DiskConnection.Write]
    by_cases h0 : numBytes = 0
    · rw [if_pos h0]
      exact ⟨_, rfl, h⟩
    · have hpos := Nat.pos_of_ne_zero h0
      obtain ⟨hfresh, -, -, -⟩ := subWrites_spec offset hpos buf
      obtain ⟨hne, hall, hcomplete⟩ := hfits hpos
      rw [if_neg h0, writeLoop_eq hpos, Nat.sub_zero]
      exact ⟨_, rfl, h.request hne hfresh hall fun hs subs =>
        (right_write_iff (r := ⟨.OP_WRITE, offset, numBytes, buf, subs⟩) rfl hpos rfl).2 (hcomplete hs)⟩

theorem Run.sound (h : Run aio op w) : Sound aio op w := by
  induction h with
  | new => exact Sound.new
  | step _ hop hfits hstep ih =>
    obtain ⟨w', hw', hs⟩ := ih.step hop hfits
    rw [hstep] at hw'
    exact Option.some.inj hw' ▸ hs

/-- In every run whose steps fit, no assertion fails, and in every state the callbacks are those of the requests up to
the first that is not done: one each, in their order, with the longest prefix for a read, and success for a write only
if all its bytes have been written. -/
theorem delivered_once (h : Run aio op w) :
    Delivered w ∧ ∀ a : Action, a.Uses op → a.Fits aio w.conn.manager.next → ∃ w', w.step aio a = some w' := by
  have hs := h.sound
  obtain ⟨answered, waiting, hq⟩ := hs.queue
  constructor
  · have hnone : waiting.takeWhile (Request.done w.conn.manager.event) = [] := by
      cases hw : waiting with
      | nil => rfl
      | cons r rest =>
        refine List.takeWhile_cons_of_neg ?_
        rw [hq.head r (by rw [hw]; rfl)]
        exact Bool.false_ne_true
    rw [Delivered, hq.accepted, List.takeWhile_append_of_pos hq.done, hnone, List.append_nil]
    exact hq.right
  · intro a hop hfits
    obtain ⟨w', hw', -⟩ := hs.step hop hfits
    exact ⟨w', hw'⟩

end

/-- A system that reads a file of zeros, or writes, all of what it takes. -/
def zeros (scheduled : ℕ → Bool) : Aio where
  scheduled
  result _ n := ⟨n, List.replicate n 0, le_rfl, List.length_replicate⟩

/-- A write of two blocks and one of a third block; the blocks complete from the last one on, and nothing is called
until the first one has. -/
theorem delivered_once_writes : ∃ w w', Run (zeros fun _ => true) .OP_WRITE w ∧ w.conn.mDiskIO.length = 2 ∧
    (w.conn.manager.event 1).done = true ∧ (w.conn.manager.event 2).done = true ∧ w.called = [] ∧
    w.step (zeros fun _ => true) (.done 0) = some w' ∧ w'.called = [.DISK_WROTE 3, .DISK_WROTE 1] ∧ Delivered w' := by
  have hfits : ∀ next, (Action.Write 0 3 [[1, 2], [3]]).Fits (zeros fun _ => true) next ∧
      (Action.Write 3 1 [[4]]).Fits (zeros fun _ => true) next := by
    intro next
    refine ⟨fun _ => ⟨List.cons_ne_nil _ _, fun _ _ _ => rfl, fun _ _ => ⟨le_rfl, ?_⟩⟩,
      fun _ => ⟨List.cons_ne_nil _ _, fun _ _ _ => rfl, fun _ _ => ⟨le_rfl, ?_⟩⟩⟩
    · exact List.forall_mem_cons.2 ⟨rfl, List.forall_mem_singleton.2 rfl⟩
    · exact List.forall_mem_singleton.2 rfl
  have htwo := Run.step (a := .Write 0 3 [[1, 2], [3]]) Run.new rfl (hfits 0).1 rfl
  have hthree := htwo.step (a := .Write 3 1 [[4]]) rfl (hfits 2).2 rfl
  have hlast := hthree.step (a := .done 2) trivial trivial rfl
  have hrun := hlast.step (a := .done 1) trivial trivial rfl
  exact ⟨_, _, hrun, rfl, rfl, rfl, rfl, rfl, rfl, (delivered_once (hrun.step (a := .done 0) trivial trivial rfl)).1⟩

/-! ## A read in part -/

/-- The system does not take the second sub-request. -/
def secondRefused : Aio := zeros fun i => i ≠ 1

/-- What is left of a megabyte of which only the first half could be scheduled. -/
theorem Read_secondRefused :
    DiskConnection.Read secondRefused 1048576 World.new.conn 0 =
      (524288, ⟨[], { World.new.conn.manager.add ⟨.OP_READ, 0, 524288, [], false, 0⟩ with next := 2 }⟩) := by
  rw [DiskConnection.Read, if_neg (by decide), readLoop, if_pos (by decide)]
  change enqueue 1048576 World.new.conn .OP_READ 0 (readLoop secondRefused 1048576 524288 524288 [0] _) = _
  rw [readLoop, if_pos (by decide)]
  rfl

theorem read_unanswered : ∃ w,
    [Action.Read 0 1048576, .done 0].foldlM (World.step secondRefused) World.new = some w ∧
      w.accepted.map Request.numBytes = [1048576] ∧ w.conn.manager.mDiskEvents = [] ∧ w.called = [] ∧
        ¬ Delivered w := by
  have hread : World.new.step secondRefused (.Read 0 1048576) =
      some ⟨⟨[], { World.new.conn.manager.add ⟨.OP_READ, 0, 524288, [], false, 0⟩ with next := 2 }⟩,
        [⟨.OP_READ, 0, 1048576, [], [0]⟩], []⟩ := by
    rw [World.step, Read_secondRefused]
    rfl
  rw [List.foldlM_cons, hread]
  refine ⟨_, rfl, rfl, rfl, rfl, ?_⟩
  intro h
  cases h

end Kfs.Io.Connection
