import Kfs.Chunk.Manager
import Mathlib.Data.List.TakeWhile

/-!
# Old pending writes

A chunk server retires the pending writes that have not been touched for a while. The scan starts at the front of the
list and stops at the first young entry.

* `Pending`: the pending writes with their enqueue times, and the files of the chunks; `Pending.step`, `Pending.run`;
* `ScavengePendingWrites_eq`: the old entries at the front of the list go;
* `Sorted.step`: what keeps the list sorted by enqueue time;
* **`scavenge_reclaims`**: when the scan finds all the old entries.
-/

namespace Kfs.Chunk

def MAX_PENDING_WRITE_LRU_SECS : ℤ := 300
def INACTIVE_FDS_CLEANUP_INTERVAL_SECS : ℤ := 300

structure QueuedWrite extends PendingWrite where
  enqueueTime : ℤ

/-- What the pending writes look at in an entry of the chunk table. -/
structure ChunkUse where
  chunkVersion : ℤ
  lastIOTime : ℤ
  use_count : ℕ
  opened : Bool

structure Pending where
  mPendingWrites : List QueuedWrite
  mWriteId : ℤ
  mChunkTable : ℕ → Option ChunkUse

/-- How the checks before the write of a prepare end: they are passed, or the prepare fails, with or without a status
for its write-id. -/
inductive Checks
  | passed
  | failed
  | bad (status : ℤ)

/-- What happens to the pending writes. `table` is anything that happens to the chunks. -/
inductive PendingEv
  | allocateWriteId (chunkId : ℕ) (chunkVersion : ℤ)
  | writePrepare (writeId : ℤ) (checks : Checks)
  | writeSync (writeId : ℤ)
  | table (mChunkTable : ℕ → Option ChunkUse)
  | scavenge

namespace Pending

variable (now : ℤ) (st : Pending)

def AllocateWriteId (chunkId : ℕ) (chunkVersion : ℤ) : Pending :=
  match st.mChunkTable chunkId with
  | none => st
  | some cih =>
    if chunkVersion ≠ cih.chunkVersion then st
    else { st with
      mWriteId := st.mWriteId + 1
      mPendingWrites := st.mPendingWrites ++ [⟨⟨st.mWriteId + 1, chunkId, chunkVersion, 0⟩, now⟩] }

def IsValidWriteId (writeId : ℤ) : Bool := st.mPendingWrites.any fun w => w.writeId = writeId

def SetWriteStatus (writeId status : ℤ) : Pending :=
  { st with mPendingWrites := st.mPendingWrites.replaceF fun w =>
      if w.writeId = writeId then some { w with status := status } else none }

def touch (writeId : ℤ) (l : List QueuedWrite) : List QueuedWrite :=
  l.replaceF fun w => if w.writeId = writeId then some { w with enqueueTime := now } else none

/-- The entry that is cloned is touched where it is; `none` when there is no clone. -/
def CloneWriteOp (writeId : ℤ) : Option Pending :=
  match st.mPendingWrites.find? fun w => w.writeId = writeId with
  | none => none
  | some w => if w.status < 0 then none else some { st with mPendingWrites := touch now writeId st.mPendingWrites }

/-- `none` when the clone that is asserted is not there. -/
def WritePrepare (writeId : ℤ) (checks : Checks) : Option Pending :=
  if !IsValidWriteId st writeId then some st
  else match checks with
    | .failed => some st
    | .bad status => some (SetWriteStatus st writeId status)
    | .passed => CloneWriteOp now st writeId

def WriteSync (writeId : ℤ) : Pending := (CloneWriteOp now st writeId).getD st

/-- A file that somebody else uses stays open. -/
def CloseChunk (chunkId : ℕ) (mChunkTable : ℕ → Option ChunkUse) : ℕ → Option ChunkUse :=
  match mChunkTable chunkId with
  | none => mChunkTable
  | some cih =>
    if cih.use_count ≤ 2 ∧ cih.opened then Function.update mChunkTable chunkId (some { cih with opened := false })
    else mChunkTable

/-- The loop of `ScavengePendingWrites`, over the pending writes and the chunk table. -/
def scavengeLoop : List QueuedWrite → (ℕ → Option ChunkUse) → List QueuedWrite × (ℕ → Option ChunkUse)
  | [], table => ([], table)
  | op :: ops, table =>
    if now - op.enqueueTime < MAX_PENDING_WRITE_LRU_SECS then (op :: ops, table)
    else
      scavengeLoop ops <|
        match table op.chunkId with
        | none => table
        | some cih =>
          if now - cih.lastIOTime ≥ INACTIVE_FDS_CLEANUP_INTERVAL_SECS then CloseChunk op.chunkId table else table

def ScavengePendingWrites : Pending :=
  let (mPendingWrites, mChunkTable) := scavengeLoop now st.mPendingWrites st.mChunkTable
  { st with mPendingWrites := mPendingWrites, mChunkTable := mChunkTable }

def step : PendingEv → Option Pending
  | .allocateWriteId c v => some (AllocateWriteId now st c v)
  | .writePrepare writeId checks => WritePrepare now st writeId checks
  | .writeSync writeId => some (WriteSync now st writeId)
  | .table mChunkTable => some { st with mChunkTable := mChunkTable }
  | .scavenge => some (ScavengePendingWrites now st)

/-- Events with their times. -/
def run : List (ℤ × PendingEv) → Pending → Option Pending
  | [], st => some st
  | (now, ev) :: es, st => (st.step now ev).bind (run es)

/-- No writes are pending. -/
def empty (mWriteId : ℤ) (mChunkTable : ℕ → Option ChunkUse) : Pending := ⟨[], mWriteId, mChunkTable⟩

/-! ## The scan -/

def old (w : QueuedWrite) : Bool := MAX_PENDING_WRITE_LRU_SECS ≤ now - w.enqueueTime

/-- What a scan is to do. -/
structure Reclaimed (before after : List QueuedWrite) : Prop where
  none_old : ∀ w ∈ after, old now w = false
  young_kept : ∀ w ∈ before, old now w = false → w ∈ after

/-- No old entry stands behind a young one. -/
def OldFirst (l : List QueuedWrite) : Prop := l.Pairwise fun a b => old now a = false → old now b = false

variable {now : ℤ} {st st' : Pending} {l : List QueuedWrite}

theorem scavengeLoop_fst {table : ℕ → Option ChunkUse} : (scavengeLoop now l table).1 = l.dropWhile (old now) := by
  induction l generalizing table with
  | nil => rfl
  | cons op ops ih =>
    rw [scavengeLoop]
    by_cases hyoung : now - op.enqueueTime < MAX_PENDING_WRITE_LRU_SECS
    · rw [if_pos hyoung, List.dropWhile_cons_of_neg (by rw [old, decide_eq_true_eq]; exact hyoung.not_ge)]
    · rw [if_neg hyoung, ih, List.dropWhile_cons_of_pos (by rw [old, decide_eq_true_eq]; exact not_lt.1 hyoung)]

/-- The old entries at the front of the list go. -/
theorem ScavengePendingWrites_eq :
    (ScavengePendingWrites now st).mPendingWrites = st.mPendingWrites.dropWhile (old now) := scavengeLoop_fst

theorem young_kept {w : QueuedWrite} (hw : w ∈ l) (hyoung : old now w = false) : w ∈ l.dropWhile (old now) := by
  have hin := List.takeWhile_append_dropWhile (p := old now) (l := l) ▸ hw
  rcases List.mem_append.1 hin with hfront | hrest
  · exact absurd (List.mem_takeWhile_imp hfront) (by rw [hyoung]; decide)
  · exact hrest

/-- The scan finds all the old entries exactly when they come first. -/
theorem reclaimed_iff : Reclaimed now l (l.dropWhile (old now)) ↔ OldFirst now l := by
  induction l with
  | nil =>
    refine ⟨fun _ => List.Pairwise.nil, fun _ => ⟨fun w hw => ?_, fun w hw _ => hw⟩⟩
    cases hw
  | cons a l ih =>
    cases ha : old now a with
    | true =>
      rw [List.dropWhile_cons_of_pos ha, OldFirst, List.pairwise_cons]
      constructor
      · intro h
        exact ⟨fun b _ hyoung => absurd ha (by rw [hyoung]; decide), ih.1 ⟨h.none_old, fun w hw => young_kept hw⟩⟩
      · rintro ⟨-, h⟩
        refine ⟨(ih.2 h).none_old, fun w hw hyoung => ?_⟩
        rcases List.mem_cons.1 hw with rfl | hw
        · exact absurd ha (by rw [hyoung]; decide)
        · exact young_kept hw hyoung
    | false =>
      have hstop : ¬ old now a = true := by rw [ha]; decide
      rw [List.dropWhile_cons_of_neg hstop, OldFirst, List.pairwise_cons]
      constructor
      · intro h
        have hall : ∀ b ∈ l, old now b = false := fun b hb => h.none_old b (List.mem_cons_of_mem _ hb)
        exact ⟨fun b hb _ => hall b hb, List.Pairwise.imp_of_mem (fun _ hb _ _ => hall _ hb) (List.pairwise_of_forall
          fun _ _ => trivial)⟩
      · rintro ⟨h, -⟩
        refine ⟨fun w hw => ?_, fun w hw _ => hw⟩
        rcases List.mem_cons.1 hw with rfl | hw
        · exact ha
        · exact h w hw ha

/-! ## What keeps the list sorted -/

/-- The list is sorted by enqueue time, and none of the times is in the future. -/
structure Sorted (now : ℤ) (l : List QueuedWrite) : Prop where
  pairwise : l.Pairwise fun a b => a.enqueueTime ≤ b.enqueueTime
  past : ∀ w ∈ l, w.enqueueTime ≤ now

/-- The entries behind the first one with this write-id. -/
def behind (writeId : ℤ) (l : List QueuedWrite) : List QueuedWrite := (l.dropWhile fun w => w.writeId ≠ writeId).tail

/-- An entry is touched only when those behind it have been touched at the same time. -/
def TouchesLast (st : Pending) (now : ℤ) : PendingEv → Prop
  | .writePrepare writeId .passed => ∀ w ∈ behind writeId st.mPendingWrites, now ≤ w.enqueueTime
  | .writeSync writeId => ∀ w ∈ behind writeId st.mPendingWrites, now ≤ w.enqueueTime
  | _ => True

/-- `P` holds of every step of a run. -/
def AllSteps (P : Pending → ℤ → PendingEv → Prop) : List (ℤ × PendingEv) → Pending → Prop
  | [], _ => True
  | (now, ev) :: es, st => P st now ev ∧ ∀ st', st.step now ev = some st' → AllSteps P es st'

theorem Sorted.oldFirst {clock : ℤ} (h : Sorted clock l) : OldFirst now l :=
  h.pairwise.imp fun {a b} hle ha => by
    rw [old, decide_eq_false_iff_not] at ha ⊢
    omega

theorem Sorted.mono {clock : ℤ} (h : Sorted clock l) (hle : clock ≤ now) : Sorted now l :=
  ⟨h.pairwise, fun w hw => (h.past w hw).trans hle⟩

theorem Sorted.sublist {l' : List QueuedWrite} (h : Sorted now l) (hsub : List.Sublist l' l) : Sorted now l' :=
  ⟨h.pairwise.sublist hsub, fun w hw => h.past w (hsub.subset hw)⟩

theorem replaceF_cons {f : QueuedWrite → Option QueuedWrite} {a : QueuedWrite} :
    (a :: l).replaceF f = match f a with
      | none => a :: l.replaceF f
      | some b => b :: l := by
  rw [List.replaceF]
  cases f a <;> rfl

theorem mem_touch {writeId : ℤ} {w : QueuedWrite} (hw : w ∈ touch now writeId l) : w ∈ l ∨ w.enqueueTime = now := by
  induction l with
  | nil => cases hw
  | cons a l ih =>
    rw [touch, replaceF_cons] at hw
    by_cases ha : a.writeId = writeId
    · simp only [ha, if_true] at hw
      rcases List.mem_cons.1 hw with rfl | hw
      · exact Or.inr rfl
      · exact Or.inl (List.mem_cons_of_mem _ hw)
    · simp only [ha, if_false] at hw
      rcases List.mem_cons.1 hw with rfl | hw
      · exact Or.inl List.mem_cons_self
      · exact (ih hw).imp (List.mem_cons_of_mem _) id

theorem Sorted.touch {writeId : ℤ} (h : Sorted now l) (hlast : ∀ w ∈ behind writeId l, now ≤ w.enqueueTime) :
    Sorted now (touch now writeId l) := by
  refine ⟨?_, fun w hw => (mem_touch hw).elim (h.past w) le_of_eq⟩
  induction l with
  | nil => exact List.Pairwise.nil
  | cons a l ih =>
    obtain ⟨hfirst, hrest⟩ := List.pairwise_cons.1 h.pairwise
    rw [Pending.touch, replaceF_cons]
    by_cases ha : a.writeId = writeId
    · simp only [ha, if_true]
      refine List.pairwise_cons.2 ⟨fun b hb => hlast b ?_, hrest⟩
      rw [behind, List.dropWhile_cons_of_neg (by rw [ha]; simp)]
      exact hb
    · simp only [ha, if_false]
      refine List.pairwise_cons.2 ⟨fun b hb => ?_, ih (h.sublist (List.sublist_cons_self _ _)) fun w hw => hlast w ?_⟩
      · rcases mem_touch hb with hb | hb
        · exact hfirst b hb
        · rw [hb]
          exact h.past a List.mem_cons_self
      · rw [behind, List.dropWhile_cons_of_pos (by simpa using ha)]
        exact hw

/-- The times stay as they are. -/
theorem SetWriteStatus_times {writeId status : ℤ} : (SetWriteStatus st writeId status).mPendingWrites.map
    QueuedWrite.enqueueTime = st.mPendingWrites.map QueuedWrite.enqueueTime := by
  rw [SetWriteStatus]
  induction st.mPendingWrites with
  | nil => rfl
  | cons a l ih =>
    dsimp only at ih ⊢
    rw [replaceF_cons]
    by_cases ha : a.writeId = writeId
    · simp only [ha, if_true, List.map_cons]
    · simp only [ha, if_false, List.map_cons, ih]

theorem Sorted.of_times {l' : List QueuedWrite} (h : Sorted now l)
    (heq : l'.map QueuedWrite.enqueueTime = l.map QueuedWrite.enqueueTime) : Sorted now l' := by
  refine ⟨?_, fun w hw => ?_⟩
  · have hmap := List.pairwise_map.2 h.pairwise
    rw [← heq] at hmap
    exact List.pairwise_map.1 hmap
  · have hmem : w.enqueueTime ∈ l.map QueuedWrite.enqueueTime := heq ▸ List.mem_map_of_mem hw
    obtain ⟨w', hw', htime⟩ := List.mem_map.1 hmem
    rw [← htime]
    exact h.past w' hw'

theorem Sorted.append {w : QueuedWrite} (h : Sorted now l) (hw : w.enqueueTime = now) : Sorted now (l ++ [w]) := by
  refine ⟨List.pairwise_append.2 ⟨h.pairwise, List.pairwise_singleton _ _, fun a ha b hb => ?_⟩, fun b hb => ?_⟩
  · rw [List.mem_singleton.1 hb, hw]
    exact h.past a ha
  · rcases List.mem_append.1 hb with hb | hb
    · exact h.past b hb
    · rw [List.mem_singleton.1 hb, hw]

theorem CloneWriteOp_eq {writeId : ℤ} (h : CloneWriteOp now st writeId = some st') :
    st' = { st with mPendingWrites := Pending.touch now writeId st.mPendingWrites } := by
  unfold CloneWriteOp at h
  split at h
  · cases h
  · split_ifs at h
    exact (Option.some.inj h).symm

/-- The list stays sorted when only its last entry is touched. -/
theorem Sorted.step {ev : PendingEv} (h : Sorted now st.mPendingWrites) (hlast : TouchesLast st now ev)
    (hstep : st.step now ev = some st') : Sorted now st'.mPendingWrites := by
  cases ev with
  | allocateWriteId c v =>
    cases hstep
    unfold AllocateWriteId
    split
    · exact h
    · split_ifs
      · exact h
      · exact h.append rfl
  | writePrepare writeId checks =>
    simp only [Pending.step, WritePrepare] at hstep
    split_ifs at hstep
    · cases hstep
      exact h
    · cases checks with
      | passed =>
        rw [CloneWriteOp_eq hstep]
        exact h.touch hlast
      | failed =>
        cases hstep
        exact h
      | bad status =>
        cases hstep
        exact h.of_times SetWriteStatus_times
  | writeSync writeId =>
    cases hstep
    rw [WriteSync]
    cases hclone : CloneWriteOp now st writeId with
    | none => exact h
    | some st₁ =>
      rw [Option.getD_some, CloneWriteOp_eq hclone]
      exact h.touch hlast
  | table t =>
    cases hstep
    exact h
  | scavenge =>
    cases hstep
    rw [ScavengePendingWrites_eq]
    exact h.sublist (List.dropWhile_sublist _)

theorem Sorted.run {es : List (ℤ × PendingEv)} {clock : ℤ} (h : Sorted clock st.mPendingWrites)
    (hclock : List.Pairwise (· ≤ ·) (clock :: es.map Prod.fst)) (hlast : AllSteps TouchesLast es st)
    (hrun : run es st = some st') : ∃ clock', Sorted clock' st'.mPendingWrites := by
  induction es generalizing st clock with
  | nil =>
    cases hrun
    exact ⟨clock, h⟩
  | cons e es ih =>
    obtain ⟨now, ev⟩ := e
    obtain ⟨st₁, hstep, hrest⟩ := Option.bind_eq_some_iff.1 hrun
    obtain ⟨hle, htail⟩ := List.pairwise_cons.1 hclock
    exact ih ((h.mono (hle now List.mem_cons_self)).step hlast.1 hstep) htail (hlast.2 st₁ hstep) hrest

/-- **After a run a scan retires exactly the old entries if and only if none of them stands behind a young one**; in a
run that touches only last entries none does. -/
theorem scavenge_reclaims {es : List (ℤ × PendingEv)} {mWriteId : ℤ} {mChunkTable : ℕ → Option ChunkUse}
    (hclock : List.Pairwise (· ≤ ·) (es.map Prod.fst)) (hrun : run es (empty mWriteId mChunkTable) = some st) :
    (Reclaimed now st.mPendingWrites (ScavengePendingWrites now st).mPendingWrites ↔ OldFirst now st.mPendingWrites) ∧
      (AllSteps TouchesLast es (empty mWriteId mChunkTable) → OldFirst now st.mPendingWrites) := by
  refine ⟨by rw [ScavengePendingWrites_eq]; exact reclaimed_iff, fun hlast => ?_⟩
  cases es with
  | nil =>
    cases hrun
    exact List.Pairwise.nil
  | cons e es =>
    have hempty : Sorted e.1 (empty mWriteId mChunkTable).mPendingWrites :=
      ⟨List.Pairwise.nil, fun w hw => by cases hw⟩
    have hfirst : ∀ t ∈ (e :: es).map Prod.fst, e.1 ≤ t := by
      intro t ht
      rcases List.mem_cons.1 ht with rfl | ht
      · exact le_rfl
      · exact (List.pairwise_cons.1 hclock).1 t ht
    obtain ⟨clock, h⟩ := hempty.run (List.pairwise_cons.2 ⟨hfirst, hclock⟩) hlast hrun
    exact h.oldFirst

/-- The first of two pending writes is old. -/
theorem scavenge_reclaims_two : Reclaimed 305 [⟨⟨1, 7, 1, 0⟩, 0⟩, ⟨⟨2, 7, 1, 0⟩, 20⟩] [⟨⟨2, 7, 1, 0⟩, 20⟩] := by
  have h := @scavenge_reclaims 305 ⟨[⟨⟨1, 7, 1, 0⟩, 0⟩, ⟨⟨2, 7, 1, 0⟩, 20⟩], 2, fun _ => some ⟨1, 0, 2, true⟩⟩
    [(0, .allocateWriteId 7 1), (0, .writeSync 1), (10, .allocateWriteId 7 1), (20, .writePrepare 2 .passed)] 0
    (fun _ => some ⟨1, 0, 2, true⟩) (by decide) rfl
  exact h.1.2 (by unfold OldFirst; decide)

/-- The first of two pending writes is touched; a scan leaves the second one, which is old. -/
theorem scavenge_stops : ∃ st,
    run [(0, .allocateWriteId 7 1), (0, .allocateWriteId 7 1), (200, .writePrepare 1 .passed)]
      (empty 0 fun _ => some ⟨1, 0, 2, true⟩) = some st ∧
    ¬ Reclaimed 300 st.mPendingWrites (ScavengePendingWrites 300 st).mPendingWrites := by
  refine ⟨⟨[⟨⟨1, 7, 1, 0⟩, 200⟩, ⟨⟨2, 7, 1, 0⟩, 0⟩], 2, fun _ => some ⟨1, 0, 2, true⟩⟩, rfl, fun h => ?_⟩
  exact absurd (h.none_old ⟨⟨2, 7, 1, 0⟩, 0⟩ (List.mem_cons_of_mem _ List.mem_cons_self)) (by decide)

/-! ## Without the times -/

/-- The pending writes as the rest of the chunk server sees them. -/
def writes (st : Pending) : List PendingWrite := st.mPendingWrites.map QueuedWrite.toPendingWrite

variable {cs : Cs} {writeId : ℤ}

theorem IsValidWriteId_writes (h : cs.mPendingWrites = writes st) :
    ChunkManager.IsValidWriteId cs writeId = IsValidWriteId st writeId := by
  rw [ChunkManager.IsValidWriteId, IsValidWriteId, h, writes, List.any_map]
  rfl

theorem SetWriteStatus_writes {status : ℤ} (h : cs.mPendingWrites = writes st) :
    (ChunkManager.SetWriteStatus cs writeId status).mPendingWrites = writes (SetWriteStatus st writeId status) := by
  rw [ChunkManager.SetWriteStatus, SetWriteStatus, writes, h, writes]
  induction st.mPendingWrites with
  | nil => rfl
  | cons a l ih =>
    dsimp only at ih ⊢
    rw [replaceF_cons, List.map_cons, List.replaceF]
    by_cases ha : a.writeId = writeId
    · simp only [ha, if_true, List.map_cons]
    · simp only [ha, if_false, List.map_cons, ih]

/-- There is a clone of the one when there is a clone of the other, and only the times change. -/
theorem CloneWriteOp_writes (h : cs.mPendingWrites = writes st) :
    (ChunkManager.CloneWriteOp cs writeId).isSome = (CloneWriteOp now st writeId).isSome ∧
      ∀ st', CloneWriteOp now st writeId = some st' → cs.mPendingWrites = writes st' := by
  refine ⟨?_, fun st' hclone => ?_⟩
  · rw [ChunkManager.CloneWriteOp, CloneWriteOp, h, writes, List.find?_map]
    simp only [Function.comp_def]
    cases st.mPendingWrites.find? fun w => decide (w.writeId = writeId) with
    | none => rfl
    | some w =>
      simp only [Option.map_some]
      split_ifs <;> rfl
  · rw [CloneWriteOp_eq hclone, h, writes, writes]
    induction st.mPendingWrites with
    | nil => rfl
    | cons a l ih =>
      dsimp only at ih ⊢
      rw [touch, replaceF_cons]
      by_cases ha : a.writeId = writeId
      · simp only [ha, if_true, List.map_cons]
      · simp only [ha, if_false, List.map_cons]
        exact congrArg _ ih

/-- A scan takes entries off the front. -/
theorem ScavengePendingWrites_writes (h : cs.mPendingWrites = writes st) :
    ∃ n, cs.mPendingWrites.drop n = writes (ScavengePendingWrites now st) := by
  obtain ⟨front, hfront⟩ := List.dropWhile_suffix (l := st.mPendingWrites) (old now)
  refine ⟨front.length, ?_⟩
  rw [h, writes, writes, ScavengePendingWrites_eq, ← List.map_drop]
  nth_rewrite 1 [← hfront]
  rw [List.drop_left]

end Pending

end Kfs.Chunk
