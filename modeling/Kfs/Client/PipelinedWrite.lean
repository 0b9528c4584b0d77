import Kfs.Chunk.Manager

/-!
# The pipelined write

`DoPipelinedWrite` of `KfsWrite.cc`. The operations go out in groups, a commit after each group; the reply to a
commit is awaited only when the next group and its commit have gone out.

* `PushData`, `SendCommit`, `GetCommitReply`, `DoPipelinedWrite`;
* `Sent`, `Committed`, `Refused`: what the master does with a group;
* `Masked`: a commit fails and the one after it, already on its way, succeeds;
* **`DoPipelinedWrite_sound`**: the write is all or nothing exactly when no commit is masked.
-/

namespace Kfs.Client

open Kfs.Chunk (CHECKSUM_BLOCKSIZE)

def ETIMEDOUT : ℤ := 110

def MIN_BYTES_PIPELINE_IO : ℕ := CHECKSUM_BLOCKSIZE * 16 * 4
def MAX_BYTES_PER_WRITE_IO : ℕ := CHECKSUM_BLOCKSIZE

/-- `WritePrepareOp`: a piece of the data. -/
structure WritePrepareOp where
  offset : ℕ
  numBytes : ℕ
  contentBuf : List UInt8
  status : ℤ := 0

/-- `WriteSyncOp`: the commits of a write are numbered in the order in which they go out. -/
structure WriteSyncOp where
  seq : ℕ := 0
  status : ℤ := 0

/-- How the wait for the reply to a commit ends. -/
inductive Arrival
  | reply (status : ℤ)
  | timedOut
  | broken

/-- The master as the connection shows it: which requests can be sent, and how each commit is answered. -/
structure Master where
  takesOp : ℕ → Bool
  takesCommit : ℕ → Bool
  answer : ℕ → Arrival

/-- The local variables of `DoPipelinedWrite` and its connection: whether the socket is good, the prepares that have
gone out and the replies that have come in, with the number of the commit. -/
structure Pipe where
  ops : List WritePrepareOp
  good : Bool
  syncOp : Fin 2 → WriteSyncOp := fun _ => {}
  sent : List WritePrepareOp := []
  replies : List (ℕ × ℤ) := []

variable (m : Master)

/-- `DoOpSend`, when `goes` tells whether the request gets through; a failure closes the socket. -/
def DoOpSend (goes : Bool) (st : Pipe) : ℤ × Pipe :=
  if st.good && goes then (0, st) else (-1, { st with good := false })

def setStatus (status : ℤ) (op : WritePrepareOp) : WritePrepareOp := { op with status := status }

/-- The loop of `PushData`, with the number of operations still to go. -/
def pushLoop : ℕ → ℕ → Pipe → ℤ × Pipe
  | 0, _, st => (0, st)
  | left + 1, i, st =>
    let (res, st) := DoOpSend (m.takesOp i) st
    if res < 0 then (res, { st with ops := st.ops.modify i (setStatus (-Chunk.EHOSTUNREACH)) })
    else pushLoop left (i + 1) { st with sent := st.sent ++ st.ops[i]?.toList }

def PushData (start count : ℕ) (st : Pipe) : ℤ × Pipe :=
  let last := min (start + count) st.ops.length
  pushLoop m (last - start) start st

/-- `SendCommit` with the commit number `seq` in the given slot. -/
def SendCommit (seq : ℕ) (slot : Fin 2) (st : Pipe) : ℤ × Pipe :=
  let sop : WriteSyncOp := { st.syncOp slot with seq := seq }
  let (res, st) := DoOpSend (m.takesCommit seq) st
  if res < 0 then
    (-Chunk.EHOSTUNREACH,
      { st with syncOp := Function.update st.syncOp slot { sop with status := -Chunk.EHOSTUNREACH } })
  else (0, { st with syncOp := Function.update st.syncOp slot sop })

/-- `DoOpResponse` for the commit number `seq`: the status that it leaves in the operation. -/
def DoOpResponse (seq : ℕ) (st : Pipe) : ℤ × Pipe :=
  if st.good then
    match m.answer seq with
    | .reply status => (status, { st with replies := st.replies ++ [(seq, status)] })
    | .timedOut => (-ETIMEDOUT, st)
    | .broken => (-Chunk.EHOSTUNREACH, { st with good := false })
  else (-Chunk.EHOSTUNREACH, st)

def GetCommitReply (slot : Fin 2) (st : Pipe) : ℤ × Pipe :=
  let sop := st.syncOp slot
  let (status, st) := DoOpResponse m sop.seq st
  (status, { st with syncOp := Function.update st.syncOp slot { sop with status := status } })

/-- How the loop of `DoPipelinedWrite` is left: by a jump to `error_out`, or towards the last reply. -/
inductive Exit
  | error_out (res : ℤ) (st : Pipe)
  | done (prevCommit : Fin 2) (st : Pipe)

/-- The loop of `DoPipelinedWrite`; `seq` numbers the commits. -/
def pipeLoop (minOps : ℕ) : ℕ → ℕ → ℕ → Fin 2 → Fin 2 → Pipe → Exit
  | 0, _, _, prevCommit, _, st => .done prevCommit st
  | fuel + 1, next, seq, prevCommit, currCommit, st =>
    if next < st.ops.length then
      let (res, st) := PushData m next minOps st
      if res < 0 then .error_out res st
      else
        let (res, st) := SendCommit m seq currCommit st
        if res < 0 then .error_out res st
        else
          let (res, st) := GetCommitReply m prevCommit st
          if res < 0 then .done currCommit st
          else pipeLoop minOps fuel (next + minOps) (seq + 1) currCommit (currCommit + 1) st
    else .done prevCommit st

/-- What follows the label `error_out`. -/
def error_out (res : ℤ) (st : Pipe) : ℤ × Pipe :=
  let res := if res < 0 then ((st.ops.find? fun op => op.status < 0).map (·.status)).getD res else res
  (res, { st with ops := st.ops.map fun op => setStatus (if res < 0 then res else op.numBytes) op })

/-- The number of operations in a group. -/
def minOpsWrite (size : ℕ) : ℕ := min ( MIN_BYTES_PIPELINE_IO / MAX_BYTES_PER_WRITE_IO / 2) size

/-- What comes after the loop. -/
def Exit.finish : Exit → ℤ × Pipe
  | .error_out res st => Client.error_out res st
  | .done prevCommit st =>
    let (res, st) := GetCommitReply m prevCommit st
    Client.error_out res st

/-- `DoPipelinedWrite`. -/
def DoPipelinedWrite (st : Pipe) : ℤ × Pipe :=
  if st.ops.length = 0 then (0, st)
  else
    let minOps := minOpsWrite st.ops.length
    let (res, st) := PushData m 0 minOps st
    if res < 0 then error_out res st
    else
      let (res, st) := SendCommit m 0 0 st
      if res < 0 then error_out res st
      else (pipeLoop m minOps st.ops.length minOps 1 0 1 st).finish m

/-! ## A group and its commit -/

/-- The master takes the operations of the group `g` and its commit. -/
def Sent (minOps size g : ℕ) : Prop :=
  (∀ i, g * minOps ≤ i → i < min (g * minOps + minOps) size → m.takesOp i = true) ∧ m.takesCommit g = true

/-- The commit is answered with success. -/
def Acks (c : ℕ) : Prop := ∃ status, 0 ≤ status ∧ m.answer c = .reply status

/-- The commit is answered with an error or not in time; the connection stays. -/
def Refuses (c : ℕ) : Prop := m.answer c = .timedOut ∨ ∃ status < 0, m.answer c = .reply status

variable {m}

theorem DoOpSend_ok {st : Pipe} (hgood : st.good = true) {goes : Bool} (hgoes : goes = true) :
    DoOpSend goes st = (0, st) := by
  simp [DoOpSend, hgood, hgoes]

theorem DoOpSend_fail {st : Pipe} {goes : Bool} (h : (st.good && goes) = false) :
    DoOpSend goes st = (-1, { st with good := false }) := by
  simp [DoOpSend, h]

theorem pushLoop_ok {st : Pipe} (hgood : st.good = true) {left i : ℕ}
    (h : ∀ j, i ≤ j → j < i + left → m.takesOp j = true) :
    pushLoop m left i st = (0, { st with sent := st.sent ++ (st.ops.drop i).take left }) := by
  induction left generalizing i st with
  | zero => simp [pushLoop]
  | succ left ih =>
    have hrest : ∀ j, i + 1 ≤ j → j < i + 1 + left → m.takesOp j = true := by
      intro j h₁ h₂
      exact h j (by omega) (by omega)
    have hdrop : (st.ops.drop i).take (left + 1) = st.ops[i]?.toList ++ (st.ops.drop (i + 1)).take left := by
      rcases lt_or_ge i st.ops.length with hlt | hge
      · rw [List.drop_eq_getElem_cons hlt, List.take_succ_cons, List.getElem?_eq_getElem hlt]
        rfl
      · rw [List.drop_eq_nil_of_le hge, List.drop_eq_nil_of_le (by omega), List.getElem?_eq_none hge]
        simp
    rw [pushLoop, DoOpSend_ok hgood (h i le_rfl (by omega))]
    have hgood' : ({ st with sent := st.sent ++ st.ops[i]?.toList } : Pipe).good = true := hgood
    refine (ih hgood' hrest).trans ?_
    rw [hdrop, List.append_assoc]

/-- A push fails on an operation that cannot be sent. -/
theorem pushLoop_neg {st : Pipe} {left i j : ℕ} (h₁ : i ≤ j) (h₂ : j < i + left)
    (h : (st.good && m.takesOp j) = false) : (pushLoop m left i st).1 < 0 := by
  induction left generalizing i st with
  | zero => omega
  | succ left ih =>
    rw [pushLoop]
    rcases hgo : st.good && m.takesOp i with _ | _
    · rw [DoOpSend_fail hgo]
      exact show (-1 : ℤ) < 0 by decide
    · obtain ⟨hgood, hi⟩ := Bool.and_eq_true_iff.1 hgo
      have hne : i ≠ j := by
        rintro rfl
        rw [hgo] at h
        cases h
      rw [DoOpSend_ok hgood hi]
      exact ih (by omega) (by omega) h

/-- A group that can be sent is sent. -/
theorem PushData_eq {st : Pipe} (hgood : st.good = true) (start count : ℕ)
    (h : ∀ j, start ≤ j → j < min (start + count) st.ops.length → m.takesOp j = true) :
    PushData m start count st = (0, { st with
      sent := st.sent ++ (st.ops.drop start).take (min (start + count) st.ops.length - start) }) :=
  pushLoop_ok hgood fun j h₁ h₂ => h j h₁ (by omega)

theorem PushData_ok {st : Pipe} (hgood : st.good = true) (start count : ℕ)
    (h : ∀ j, start ≤ j → j < min (start + count) st.ops.length → m.takesOp j = true) :
    ∃ sent, PushData m start count st = (0, { st with sent := sent }) :=
  ⟨_, PushData_eq hgood start count h⟩

theorem PushData_neg (st : Pipe) {start count j : ℕ} (h₁ : start ≤ j) (h₂ : j < min (start + count) st.ops.length)
    (h : (st.good && m.takesOp j) = false) : (PushData m start count st).1 < 0 :=
  pushLoop_neg h₁ (by omega) h

theorem SendCommit_ok {st : Pipe} (hgood : st.good = true) {seq : ℕ} (h : m.takesCommit seq = true) (slot : Fin 2) :
    SendCommit m seq slot st =
      (0, { st with syncOp := Function.update st.syncOp slot { st.syncOp slot with seq := seq } }) := by
  rw [SendCommit, DoOpSend_ok hgood h]
  rfl

theorem SendCommit_neg (st : Pipe) {seq : ℕ} (h : m.takesCommit seq = false) (slot : Fin 2) :
    (SendCommit m seq slot st).1 < 0 := by
  rw [SendCommit, DoOpSend_fail (by rw [h, Bool.and_false])]
  exact show -Chunk.EHOSTUNREACH < 0 by decide

/-! ## The replies -/

/-- Every reply recorded is the master's answer. -/
def Pipe.Honest (m : Master) (st : Pipe) : Prop := ∀ c status, (c, status) ∈ st.replies → m.answer c = .reply status

/-- A commit that succeeded. -/
def Pipe.Acked (st : Pipe) (c : ℕ) : Prop := ∃ status, 0 ≤ status ∧ (c, status) ∈ st.replies

theorem Pipe.Honest.not_acked {st : Pipe} (h : st.Honest m) {c : ℕ} (hc : Refuses m c) : ¬ st.Acked c := by
  rintro ⟨status, h0, hmem⟩
  have hans := h c status hmem
  rcases hc with hc | ⟨_, hneg, hc⟩
  · rw [hans] at hc
    cases hc
  · rw [hans, Arrival.reply.injEq] at hc
    omega

variable {st : Pipe} {seq : ℕ} {slot : Fin 2}

theorem DoOpResponse_ok (hgood : st.good = true) (h : Acks m seq) :
    0 ≤ (DoOpResponse m seq st).1 ∧ (DoOpResponse m seq st).2.Acked seq ∧ (DoOpResponse m seq st).2.good = true := by
  obtain ⟨status, h0, hans⟩ := h
  simp only [DoOpResponse, hgood, if_true, hans]
  exact ⟨h0, ⟨status, h0, List.mem_append_right _ (List.mem_singleton.2 rfl)⟩, trivial⟩

/-- A reply that is not negative is a success of the commit. -/
theorem DoOpResponse_acks (h : 0 ≤ (DoOpResponse m seq st).1) : st.good = true ∧ Acks m seq := by
  unfold DoOpResponse at h
  cases hgood : st.good with
  | false => simp [hgood, Chunk.EHOSTUNREACH] at h
  | true =>
    rcases hans : m.answer seq with status | _ | _
    · exact ⟨rfl, status, by simpa [hgood, hans] using h, hans⟩
    · simp [hgood, hans, ETIMEDOUT] at h
    · simp [hgood, hans, Chunk.EHOSTUNREACH] at h

theorem DoOpResponse_refused (h : Refuses m seq) :
    (DoOpResponse m seq st).1 < 0 ∧ (DoOpResponse m seq st).2.good = st.good := by
  cases hgood : st.good with
  | false => simp [DoOpResponse, hgood, Chunk.EHOSTUNREACH]
  | true =>
    rcases h with h | ⟨status, hneg, h⟩
    · simp [DoOpResponse, hgood, h, ETIMEDOUT]
    · simp [DoOpResponse, hgood, h, hneg]

/-- A failure that keeps the connection is a refusal. -/
theorem DoOpResponse_neg (hneg : (DoOpResponse m seq st).1 < 0) (hgood : (DoOpResponse m seq st).2.good = true) :
    Refuses m seq := by
  unfold DoOpResponse at hneg hgood
  cases hst : st.good with
  | false => simp [hst] at hgood
  | true =>
    rcases hans : m.answer seq with status | _ | _
    · exact Or.inr ⟨status, by simpa [hst, hans] using hneg, hans⟩
    · exact Or.inl hans
    · simp [hst, hans] at hgood

@[simp] theorem DoOpResponse_ops : (DoOpResponse m seq st).2.ops = st.ops := by
  unfold DoOpResponse
  cases st.good <;> cases m.answer seq <;> rfl

@[simp] theorem DoOpResponse_syncOp : (DoOpResponse m seq st).2.syncOp = st.syncOp := by
  unfold DoOpResponse
  cases st.good <;> cases m.answer seq <;> rfl

theorem Pipe.Acked.doOpResponse {c : ℕ} (h : st.Acked c) : (DoOpResponse m seq st).2.Acked c := by
  obtain ⟨status, h0, hmem⟩ := h
  refine ⟨status, h0, ?_⟩
  unfold DoOpResponse
  cases st.good <;> cases m.answer seq <;> simp [hmem]

theorem Pipe.Honest.doOpResponse (h : st.Honest m) : (DoOpResponse m seq st).2.Honest m := by
  unfold DoOpResponse
  cases st.good with
  | false => exact h
  | true =>
    rcases hans : m.answer seq with status | _ | _
    · intro c s hmem
      rcases List.mem_append.1 hmem with hmem | hmem
      · exact h c s hmem
      · obtain ⟨rfl, rfl⟩ := Prod.mk.inj (List.mem_singleton.1 hmem)
        exact hans
    · exact h
    · exact h

theorem Pipe.Honest.getCommitReply (h : st.Honest m) : (GetCommitReply m slot st).2.Honest m := h.doOpResponse

/-- The commits keep their numbers. -/
theorem GetCommitReply_seq (other : Fin 2) :
    ((GetCommitReply m slot st).2.syncOp other).seq = (st.syncOp other).seq := by
  simp only [GetCommitReply, DoOpResponse_syncOp]
  rcases eq_or_ne other slot with rfl | hne
  · rw [Function.update_self]
  · rw [Function.update_of_ne hne]

/-! ## The loop -/

theorem error_out_neg {res : ℤ} (h : res < 0) (st : Pipe) : (error_out res st).1 < 0 := by
  rcases hfind : st.ops.find? fun op => decide (op.status < 0) with _ | op
  · simp [error_out, h, hfind]
  · simpa [error_out, h, hfind] using List.find?_some hfind

theorem error_out_nonneg {res : ℤ} (h : 0 ≤ res) (st : Pipe) : (error_out res st).1 = res := by
  simp [error_out, not_lt.2 h]

@[simp] theorem error_out_replies (res : ℤ) (st : Pipe) : (error_out res st).2.replies = st.replies := rfl

theorem slot_ne (slot : Fin 2) : slot ≠ slot + 1 := by
  revert slot
  decide

/-- At the head of the loop: `g` groups have been sent and all their commits but the last have succeeded. -/
structure Head (m : Master) (minOps size g : ℕ) (prevCommit : Fin 2) (st : Pipe) : Prop where
  size : st.ops.length = size
  good : st.good = true
  honest : st.Honest m
  prev : (st.syncOp prevCommit).seq + 1 = g
  acked : ∀ c, c + 1 < g → st.Acked c

/-- A commit fails, which does not close the connection, and the next one, which is on its way, succeeds. -/
def Masked (m : Master) (minOps size : ℕ) : Prop :=
  ∃ k, (k + 1) * minOps < size ∧ (∀ g ≤ k + 1, Sent m minOps size g) ∧ (∀ c < k, Acks m c) ∧ Refuses m k ∧
    Acks m (k + 1)

variable {minOps size g : ℕ} {prevCommit : Fin 2}

/-- The next group and its commit go out; then the reply to the commit before is awaited. -/
theorem Head.send (h : Head m minOps size g prevCommit st) (hlt : g * minOps < size) (hsent : Sent m minOps size g)
    (fuel : ℕ) :
    ∃ st', Head m minOps size g prevCommit st' ∧ (st'.syncOp (prevCommit + 1)).seq = g ∧
      pipeLoop m minOps (fuel + 1) (g * minOps) g prevCommit (prevCommit + 1) st =
        if (GetCommitReply m prevCommit st').1 < 0 then .done (prevCommit + 1) (GetCommitReply m prevCommit st').2
        else pipeLoop m minOps fuel ((g + 1) * minOps) (g + 1) (prevCommit + 1) (prevCommit + 1 + 1)
          (GetCommitReply m prevCommit st').2 := by
  obtain ⟨sent, hpush⟩ := PushData_ok h.good (g * minOps) minOps fun j h₁ h₂ => by
    rw [h.size] at h₂
    exact hsent.1 j h₁ h₂
  have hcommit := SendCommit_ok (show ({ st with sent := sent } : Pipe).good = true from h.good) hsent.2
    (prevCommit + 1)
  set st' : Pipe := { st with
    sent := sent
    syncOp := Function.update st.syncOp (prevCommit + 1) { st.syncOp (prevCommit + 1) with seq := g } } with hst'
  refine ⟨st', ⟨h.size, h.good, h.honest, ?_, h.acked⟩, ?_, ?_⟩
  · rw [← h.prev, show st'.syncOp prevCommit = st.syncOp prevCommit from Function.update_of_ne (slot_ne prevCommit) _ _]
  · simp [hst']
  · rw [pipeLoop, if_pos (by rw [h.size]; exact hlt), hpush]
    change (match SendCommit m g (prevCommit + 1) { st with sent := sent } with | (res, st) => _) = _
    rw [hcommit, Nat.succ_mul]
    rfl

theorem Pipe.Honest.acks (h : st.Honest m) {c : ℕ} (hc : st.Acked c) : Acks m c := by
  obtain ⟨status, h0, hmem⟩ := hc
  exact ⟨status, h0, h c status hmem⟩

theorem finish_error_out {res : ℤ} (h : res < 0) : ((Exit.error_out res st).finish m).1 < 0 := error_out_neg h st

/-- The result of the write is that of the last reply. -/
theorem finish_done : 0 ≤ ((Exit.done prevCommit st).finish m).1 ↔ 0 ≤ (GetCommitReply m prevCommit st).1 := by
  rcases lt_or_ge (GetCommitReply m prevCommit st).1 0 with hneg | hpos
  · exact iff_of_false (not_le.2 (error_out_neg hneg _)) (not_le.2 hneg)
  · exact iff_of_true (hpos.trans_eq (error_out_nonneg hpos _).symm) hpos

theorem finish_done_acked {c : ℕ} : ((Exit.done prevCommit st).finish m).2.Acked c ↔
    (GetCommitReply m prevCommit st).2.Acked c := Iff.rfl

/-- A group that cannot be sent ends the write with an error. -/
theorem Head.not_sent (h : Head m minOps size g prevCommit st) (hlt : g * minOps < size)
    (hsent : ¬ Sent m minOps size g) (fuel : ℕ) :
    ((pipeLoop m minOps (fuel + 1) (g * minOps) g prevCommit (prevCommit + 1) st).finish m).1 < 0 := by
  rw [pipeLoop, if_pos (by rw [h.size]; exact hlt)]
  by_cases hops : ∀ i, g * minOps ≤ i → i < min (g * minOps + minOps) size → m.takesOp i = true
  · obtain ⟨sent, hpush⟩ := PushData_ok h.good (g * minOps) minOps fun j h₁ h₂ => by
      rw [h.size] at h₂
      exact hops j h₁ h₂
    have hcommit : m.takesCommit g = false := Bool.eq_false_iff.2 fun hc => hsent ⟨hops, hc⟩
    have hneg := SendCommit_neg { st with sent := sent } hcommit (prevCommit + 1)
    rw [hpush]
    simp only [lt_irrefl, if_false, if_pos hneg]
    exact finish_error_out hneg
  · push Not at hops
    obtain ⟨j, h₁, h₂, hj⟩ := hops
    have hneg := PushData_neg st h₁ (by rw [h.size]; exact h₂)
      (show (st.good && m.takesOp j) = false by simp [hj])
    simp only [if_pos hneg]
    exact finish_error_out hneg

/-- The reply to the commit before is a success: the loop goes on with the next group. -/
theorem Head.next (h : Head m minOps size g prevCommit st) (hseq : (st.syncOp (prevCommit + 1)).seq = g)
    (hpos : 0 ≤ (GetCommitReply m prevCommit st).1) :
    Head m minOps size (g + 1) (prevCommit + 1) (GetCommitReply m prevCommit st).2 := by
  obtain ⟨hgood, hacks⟩ := DoOpResponse_acks hpos
  obtain ⟨_, hacked, hgood'⟩ := DoOpResponse_ok hgood hacks
  refine ⟨?_, hgood', h.honest.doOpResponse, ?_, fun c hc => ?_⟩
  · rw [← h.size]
    exact congrArg List.length DoOpResponse_ops
  · rw [GetCommitReply_seq, hseq]
  · rcases Nat.lt_or_ge (c + 1) g with hlt | hge
    · exact (h.acked c hlt).doOpResponse
    · obtain rfl : c = (st.syncOp prevCommit).seq := by have := h.prev; omega
      exact hacked

/-- After the last group: the reply to its commit is a success. -/
theorem Head.last (h : Head m minOps size g prevCommit st) (hend : size ≤ g * minOps)
    (hpos : 0 ≤ (GetCommitReply m prevCommit st).1) {c : ℕ} (hc : c * minOps < size) :
    (GetCommitReply m prevCommit st).2.Acked c := by
  obtain ⟨hgood, hacks⟩ := DoOpResponse_acks hpos
  have hcg : c < g := lt_of_mul_lt_mul_right (hc.trans_le hend) (Nat.zero_le _)
  rcases Nat.lt_or_ge (c + 1) g with hlt | hge
  · exact (h.acked c hlt).doOpResponse
  · obtain rfl : c = (st.syncOp prevCommit).seq := by have := h.prev; omega
    exact (DoOpResponse_ok hgood hacks).2.1

/-- The loop from its head: a result that is not negative means that all commits succeeded, or that one is masked. -/
theorem Head.sound {fuel : ℕ} (h : Head m minOps size g prevCommit st) (hsent : ∀ c < g, Sent m minOps size c)
    (hfuel : size ≤ (g + fuel) * minOps)
    (hpos : 0 ≤ ((pipeLoop m minOps fuel (g * minOps) g prevCommit (prevCommit + 1) st).finish m).1) :
    Masked m minOps size ∨ ∀ c, c * minOps < size →
      ((pipeLoop m minOps fuel (g * minOps) g prevCommit (prevCommit + 1) st).finish m).2.Acked c := by
  induction fuel generalizing g prevCommit st with
  | zero => exact Or.inr fun c hc => h.last hfuel (finish_done.1 hpos) hc
  | succ fuel ih =>
    rcases Nat.lt_or_ge (g * minOps) size with hlt | hge
    · have hg : Sent m minOps size g := by
        by_contra hno
        exact absurd hpos (not_le.2 (h.not_sent hlt hno fuel))
      have hsent' : ∀ c < g + 1, Sent m minOps size c := by
        intro c hc
        rcases Nat.lt_succ_iff_lt_or_eq.1 hc with hc | rfl
        · exact hsent c hc
        · exact hg
      obtain ⟨st', h', hseq, hloop⟩ := h.send hlt hg fuel
      rw [hloop] at hpos ⊢
      by_cases hneg : (GetCommitReply m prevCommit st').1 < 0
      · -- the commit of `g - 1` failed, and the last reply is that of `g`
        rw [if_pos hneg] at hpos
        obtain ⟨hgood, hacks⟩ := DoOpResponse_acks (finish_done.1 hpos)
        have hrefused := DoOpResponse_neg hneg hgood
        rw [GetCommitReply_seq, hseq] at hacks
        have hprev := h'.prev
        refine Or.inl ⟨(st'.syncOp prevCommit).seq, by rwa [hprev], fun c hc => hsent' c (by omega), fun c hc => ?_,
          hrefused, by rwa [hprev]⟩
        exact h'.honest.acks (h'.acked c (by omega))
      · rw [if_neg hneg] at hpos ⊢
        exact ih (h'.next hseq (not_lt.1 hneg)) hsent' (by rw [Nat.add_right_comm]; exact hfuel) hpos
    · rw [pipeLoop, if_neg (by rw [h.size]; omega)] at hpos ⊢
      exact Or.inr fun c hc => h.last hge (finish_done.1 hpos) hc

/-- The loop from its head, when a commit is masked: the write succeeds without that commit. -/
theorem Head.masked {fuel k : ℕ} (h : Head m minOps size g prevCommit st) (hg : g ≤ k + 1)
    (hfuel : size ≤ (g + fuel) * minOps) (hk : (k + 1) * minOps < size) (hsent : ∀ c ≤ k + 1, Sent m minOps size c)
    (hacks : ∀ c < k, Acks m c) (hrefused : Refuses m k) (hnext : Acks m (k + 1)) :
    0 ≤ ((pipeLoop m minOps fuel (g * minOps) g prevCommit (prevCommit + 1) st).finish m).1 ∧
      ¬ ((pipeLoop m minOps fuel (g * minOps) g prevCommit (prevCommit + 1) st).finish m).2.Acked k := by
  have hlt : g * minOps < size := (Nat.mul_le_mul_right _ hg).trans_lt hk
  induction fuel generalizing g prevCommit st with
  | zero => exact absurd hfuel (not_le.2 hlt)
  | succ fuel ih =>
    obtain ⟨st', h', hseq, hloop⟩ := h.send hlt (hsent g hg) fuel
    rw [hloop]
    have hprev := h'.prev
    rcases Nat.lt_or_ge g (k + 1) with hbefore | hat
    · have hack : Acks m (st'.syncOp prevCommit).seq := hacks _ (by omega)
      have hpos : 0 ≤ (GetCommitReply m prevCommit st').1 := (DoOpResponse_ok h'.good hack).1
      rw [if_neg (not_lt.2 hpos)]
      exact ih (h'.next hseq hpos) hbefore (by rw [Nat.add_right_comm]; exact hfuel)
        ((Nat.mul_le_mul_right _ hbefore).trans_lt hk)
    · -- the commit of the group `k` is the one whose reply is awaited
      obtain rfl : g = k + 1 := by omega
      have hk' : (st'.syncOp prevCommit).seq = k := by omega
      have hrefused' : Refuses m (st'.syncOp prevCommit).seq := by rwa [hk']
      have hneg : (GetCommitReply m prevCommit st').1 < 0 := (DoOpResponse_refused hrefused').1
      have hgood : (GetCommitReply m prevCommit st').2.good = true := (DoOpResponse_refused hrefused').2.trans h'.good
      rw [if_pos hneg]
      have hseq' : ((GetCommitReply m prevCommit st').2.syncOp (prevCommit + 1)).seq = k + 1 := by
        rw [GetCommitReply_seq, hseq]
      have hnext' : Acks m ((GetCommitReply m prevCommit st').2.syncOp (prevCommit + 1)).seq := by rwa [hseq']
      refine ⟨finish_done.2 (DoOpResponse_ok hgood hnext').1, fun hacked => ?_⟩
      exact h'.honest.getCommitReply.getCommitReply.not_acked hrefused (finish_done_acked.1 hacked)

/-! ## The whole write -/

/-- The operations and the connection when the write starts. -/
def Pipe.start (ops : List WritePrepareOp) (good : Bool) : Pipe := { ops := ops, good := good }

/-- A count means that the commit of every operation has been answered with success; when that of some operation has
not, the result is an error. The operation `i` is covered by the commit `i / minOps`. -/
structure AllOrNothing (m : Master) (ops : List WritePrepareOp) (good : Bool) : Prop where
  acked : 0 ≤ (DoPipelinedWrite m (.start ops good)).1 → ∀ i < ops.length,
    (DoPipelinedWrite m (.start ops good)).2.Acked (i / minOpsWrite ops.length)
  retried : (∃ i < ops.length, ¬ (DoPipelinedWrite m (.start ops good)).2.Acked (i / minOpsWrite ops.length)) →
    (DoPipelinedWrite m (.start ops good)).1 < 0

theorem minOpsWrite_pos {size : ℕ} (h : 0 < size) : 0 < minOpsWrite size := by
  have : MIN_BYTES_PIPELINE_IO / MAX_BYTES_PER_WRITE_IO / 2 = 32 := by decide
  rw [minOpsWrite, this]
  omega

theorem minOpsWrite_le (size : ℕ) : minOpsWrite size ≤ size := min_le_right _ _

variable {ops : List WritePrepareOp} {good : Bool}

/-- The first group goes out. -/
theorem DoPipelinedWrite_eq {st st₁ st₂ : Pipe} (hpos : 0 < st.ops.length)
    (hpush : PushData m 0 (minOpsWrite st.ops.length) st = (0, st₁)) (hcommit : SendCommit m 0 0 st₁ = (0, st₂)) :
    DoPipelinedWrite m st = (pipeLoop m (minOpsWrite st.ops.length) st₂.ops.length (minOpsWrite st.ops.length) 1 0 1
      st₂).finish m := by
  simp [DoPipelinedWrite, hpos.ne', hpush, hcommit]

theorem DoPipelinedWrite_push {st : Pipe} (hpos : 0 < st.ops.length)
    (hpush : (PushData m 0 (minOpsWrite st.ops.length) st).1 < 0) : (DoPipelinedWrite m st).1 < 0 := by
  rw [DoPipelinedWrite, if_neg hpos.ne']
  simp only [if_pos hpush]
  exact error_out_neg hpush _

theorem DoPipelinedWrite_commit {st st₁ : Pipe} (hpos : 0 < st.ops.length)
    (hpush : PushData m 0 (minOpsWrite st.ops.length) st = (0, st₁)) (hcommit : (SendCommit m 0 0 st₁).1 < 0) :
    (DoPipelinedWrite m st).1 < 0 := by
  rw [DoPipelinedWrite, if_neg hpos.ne']
  simp only [hpush, lt_irrefl, if_false, if_pos hcommit]
  exact error_out_neg hcommit _

theorem DoPipelinedWrite_sent (hpos : 0 < ops.length) (hsent : Sent m (minOpsWrite ops.length) ops.length 0) :
    ∃ st, Head m (minOpsWrite ops.length) ops.length 1 0 st ∧ DoPipelinedWrite m (.start ops true) =
      (pipeLoop m (minOpsWrite ops.length) ops.length (1 * minOpsWrite ops.length) 1 0 (0 + 1) st).finish m := by
  obtain ⟨sent, hpush⟩ := PushData_ok (m := m) (show (Pipe.start ops true).good = true from rfl) 0
    (minOpsWrite ops.length) fun j h₁ h₂ => hsent.1 j (by omega) (by rw [Nat.zero_mul]; exact h₂)
  have hcommit := SendCommit_ok (show ({ Pipe.start ops true with sent := sent } : Pipe).good = true from rfl) hsent.2 0
  have heq := DoPipelinedWrite_eq (show 0 < (Pipe.start ops true).ops.length from hpos) hpush hcommit
  rw [heq, Nat.one_mul]
  refine ⟨_, ⟨rfl, rfl, fun c status hmem => ?_, rfl, fun c hc => by omega⟩, rfl⟩
  cases hmem

/-- The first group does not go out. -/
theorem DoPipelinedWrite_not_sent (hpos : 0 < ops.length)
    (hsent : ¬ (good = true ∧ Sent m (minOpsWrite ops.length) ops.length 0)) :
    (DoPipelinedWrite m (.start ops good)).1 < 0 := by
  by_cases hops : good = true ∧ ∀ i < minOpsWrite ops.length, m.takesOp i = true
  · obtain ⟨rfl, hops⟩ := hops
    obtain ⟨sent, hpush⟩ := PushData_ok (m := m) (show (Pipe.start ops true).good = true from rfl) 0
      (minOpsWrite ops.length) fun j h₁ h₂ => hops j (by omega)
    have hcommit : m.takesCommit 0 = false :=
      Bool.eq_false_iff.2 fun hc => hsent ⟨rfl, fun i _ hi => hops i (by omega), hc⟩
    exact DoPipelinedWrite_commit hpos hpush (SendCommit_neg _ hcommit 0)
  · have hle := minOpsWrite_le ops.length
    obtain ⟨j, hj, hfail⟩ : ∃ j < minOpsWrite ops.length, (good && m.takesOp j) = false := by
      cases good with
      | false => exact ⟨0, minOpsWrite_pos hpos, rfl⟩
      | true => simpa using hops
    refine DoPipelinedWrite_push hpos (PushData_neg _ (Nat.zero_le j) (lt_min ?_ ?_) hfail)
    · exact hj.trans_eq (Nat.zero_add _).symm
    · exact show j < ops.length by omega

theorem enough_fuel {minOps size : ℕ} (h : 0 < minOps) : size ≤ (1 + size) * minOps :=
  (Nat.le_add_left size 1).trans (Nat.le_mul_of_pos_right _ h)

/-- The write is all or nothing exactly when no failed commit is masked by the next one. -/
theorem DoPipelinedWrite_sound (m : Master) (ops : List WritePrepareOp) (good : Bool) :
    AllOrNothing m ops good ↔ ¬ (good = true ∧ Masked m (minOpsWrite ops.length) ops.length) := by
  rcases Nat.eq_zero_or_pos ops.length with hzero | hpos
  · -- nothing to write
    refine iff_of_true ⟨fun _ i hi => by omega, fun ⟨i, hi, _⟩ => by omega⟩ ?_
    rintro ⟨_, k, hk, _⟩
    omega
  have hmin := minOpsWrite_pos hpos
  have hbound {i : ℕ} (hi : i < ops.length) : i / minOpsWrite ops.length * minOpsWrite ops.length < ops.length :=
    (Nat.div_mul_le_self _ _).trans_lt hi
  constructor
  · rintro h ⟨rfl, k, hk, hsent, hacks, hrefused, hnext⟩
    obtain ⟨st, hhead, heq⟩ := DoPipelinedWrite_sent hpos (hsent 0 (Nat.zero_le _))
    obtain ⟨hres, hnot⟩ := hhead.masked (by omega) (enough_fuel hmin) hk hsent hacks hrefused hnext
    rw [← heq] at hres hnot
    have hk' : k * minOpsWrite ops.length < ops.length :=
      (Nat.mul_le_mul_right _ (Nat.le_succ k)).trans_lt hk
    refine hnot ?_
    have hacked := h.acked hres _ hk'
    rwa [Nat.mul_div_cancel _ hmin] at hacked
  · intro hno
    have hacked (hres : 0 ≤ (DoPipelinedWrite m (.start ops good)).1) (i : ℕ) (hi : i < ops.length) :
        (DoPipelinedWrite m (.start ops good)).2.Acked (i / minOpsWrite ops.length) := by
      obtain ⟨rfl, hsent⟩ : good = true ∧ Sent m (minOpsWrite ops.length) ops.length 0 := by
        by_contra hfail
        exact absurd hres (not_le.2 (DoPipelinedWrite_not_sent hpos hfail))
      obtain ⟨st, hhead, heq⟩ := DoPipelinedWrite_sent hpos hsent
      rw [heq] at hres ⊢
      have hfirst : ∀ c < 1, Sent m (minOpsWrite ops.length) ops.length c := by
        intro c hc
        obtain rfl : c = 0 := by omega
        exact hsent
      rcases hhead.sound hfirst (enough_fuel hmin) hres with hmasked | hall
      · exact absurd ⟨rfl, hmasked⟩ hno
      · exact hall _ (hbound hi)
    refine ⟨hacked, fun ⟨i, hi, hnot⟩ => ?_⟩
    by_contra hres
    exact hnot (hacked (not_lt.1 hres) i hi)

/-- A master whose first commit fails and whose second one succeeds. -/
def flaky : Master where
  takesOp _ := true
  takesCommit _ := true
  answer c := if c = 0 then .reply (-Chunk.EHOSTUNREACH) else .reply 0

/-- The operations of a write of 33 blocks. -/
def blocks33 : List WritePrepareOp :=
  (List.range 33).map fun i => { offset := i * 65536, numBytes := 65536, contentBuf := List.replicate 65536 0 }

/-- The write of 33 operations succeeds although the commit of the first 32 failed. -/
theorem DoPipelinedWrite_masked : ¬ AllOrNothing flaky blocks33 true := by
  intro h
  have hres : 0 ≤ (DoPipelinedWrite flaky (.start blocks33 true)).1 := by decide +kernel
  have hreplies : (DoPipelinedWrite flaky (.start blocks33 true)).2.replies = [(0, -113), (1, 0)] := by decide +kernel
  obtain ⟨status, hpos, hmem⟩ := h.acked hres 0 (by decide)
  rw [hreplies, Nat.zero_div] at hmem
  obtain rfl : status = -113 := by simpa using hmem
  exact absurd hpos (by decide)

end Kfs.Client
