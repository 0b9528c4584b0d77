import Kfs.Chunk.Gate

/-!
# What the failure of a prepare leaves behind

Clients ignore the replies to their prepares and rely on the sync. A prepare that is done has been written, or its
write-id is dead, so that no sync can succeed with it.

* `Dead`, `Settled`, `Covered`: write-ids, prepares and syncs;
* `Recorded`: what holds of the operations that wait for the disk or a peer;
* `Records`: the client takes an operation back; the handlers keep `Recorded` for any client that does;
* **`WritePrepareOp.Execute_kept`**: a prepare is being written, or its write-id is dead.
-/

namespace Kfs.Chunk

open ChunkManager

/-- The write-id of a prepare or a sync on this server. -/
def Cmd.writeId : Cmd → ℤ
  | .writePrepare p => (needToForwardWrite p.servers).2.2
  | .writeSync s => (needToForwardWrite s.servers).2.2
  | _ => -1

/-- No sync can succeed with this write-id any more. -/
def Dead (st : Cs) (writeId : ℤ) : Prop :=
  writeId ≤ st.mWriteId ∧ ∀ w ∈ st.mPendingWrites, w.writeId = writeId → w.status < 0

def Settled (st : Cs) (op : KfsOp) : Prop := op.id ∈ st.written ∨ Dead st op.cmd.writeId

/-- The prepares of the connection that a sync stands for have been written. -/
def Covered (st : Cs) (s : KfsOp) : Prop := ∀ p ∈ st.received, p.cmd.isPrepare = true → p.id < s.id →
  p.cmd.writeId = s.cmd.writeId → p.id ∈ st.written

/-- An operation of the connection is what came in under its id. -/
structure Known (st : Cs) (op : KfsOp) : Prop where
  old : op.id < st.nextOp
  same : ∀ a ∈ st.received, a.id = op.id → op.clientSM = true ∧ a.cmd.isPrepare = op.cmd.isPrepare ∧
    a.cmd.isSync = op.cmd.isSync ∧ a.cmd.writeId = op.cmd.writeId

/-- An operation that waits for the disk or a peer. -/
structure InFlight (st : Cs) (op : KfsOp) : Prop where
  known : Known st op
  covered : op.cmd.isSync = true → op.clientSM = true → Covered st op

/-- What has to hold when an operation completes with `status`. -/
structure Ready (st : Cs) (op : KfsOp) (status : ℤ) : Prop where
  known : Known st op
  settled : op.cmd.isPrepare = true → op.clientSM = true → Settled st op
  covered : op.cmd.isSync = true → op.clientSM = true → 0 ≤ status → Covered st op

/-- The operations that a disk request calls back. -/
def DiskRequest.ops (r : DiskRequest) : List KfsOp :=
  match r.cmd with
  | .readMeta _ waiters => r.clnt :: waiters
  | _ => [r.clnt]

/-- Prepares wait for writes, and own them. -/
def DiskRequest.Owned (r : DiskRequest) : Prop :=
  match r.cmd with
  | .readBlock w _ => r.clnt.cmd.isPrepare = true → w.wpop ≠ none
  | .write w => r.clnt.cmd.isPrepare = true → w.wpop ≠ none
  | _ => ∀ op ∈ r.ops, op.cmd.isPrepare = false

structure Recorded (st : Cs) : Prop where
  clientSM : ∀ op ∈ st.received, op.clientSM = true
  past : ∀ id, st.completed id → id < st.nextOp
  answered : ∀ id status, (Signal.other id, status) ∈ st.signals → id < st.nextOp
  settled : ∀ p ∈ st.received, p.cmd.isPrepare = true → st.completed p.id → Settled st p
  writeIds : (st.mPendingWrites.map PendingWrite.writeId).Nodup
  allocated : ∀ w ∈ st.mPendingWrites, w.writeId ≤ st.mWriteId
  disk : ∀ r ∈ st.disk, r.Owned ∧ ∀ op ∈ r.ops, InFlight st op
  waiting : ∀ op ∈ st.waiting, InFlight st op
  replied : ∀ id status, (Signal.other id, status) ∈ st.signals → 0 ≤ status →
    ∀ s ∈ st.received, s.id = id → s.cmd.isSync = true → Covered st s

/-- What holds between the handlers. -/
structure Sane (st : Cs) : Prop where
  gate : Gate st
  recorded : Recorded st

/-- A handler has done its work. -/
structure Kept (st st' : Cs) : Prop where
  sane : Sane st'
  written : ∀ id ∈ st.written, id ∈ st'.written
  later : Later st st'

variable {st st' st₁ : Cs} {op s p : KfsOp} {r : DiskRequest} {env : Env} {c : ℕ} {res status : ℤ} {w : WriteOp}
  {pr : WritePrepareOp}

/-! ## Steps that change nothing of this -/

theorem ChunkManager.Quiet.kept (h : Quiet st st') (hs : Sane st) : Kept st st' := by
  obtain ⟨_, _, _, _, _, _, rfl⟩ := h
  obtain ⟨⟨g₁, g₂, g₃, g₄, g₅, g₆, g₇, g₈, g₉, g₁₀⟩, ⟨r₀, r₇, r₈, r₁, r₂, r₃, r₄, r₅, r₆⟩⟩ := hs
  exact ⟨⟨⟨g₁, g₂, g₃, g₄, g₅, g₆, g₇, g₈, g₉, g₁₀⟩, ⟨r₀, r₇, r₈, r₁, r₂, r₃,
    fun r hr => ⟨(r₄ r hr).1, fun op hop => ⟨⟨((r₄ r hr).2 op hop).known.old, ((r₄ r hr).2 op hop).known.same⟩,
      ((r₄ r hr).2 op hop).covered⟩⟩,
    fun op hop => ⟨⟨(r₅ op hop).known.old, (r₅ op hop).known.same⟩, (r₅ op hop).covered⟩, r₆⟩⟩,
    fun _ h => h, rfl, rfl, rfl, fun _ h => h, fun _ h _ => h⟩

theorem ChangeChunkVers_quiet {v : ℤ} : Quiet st (ChangeChunkVers st c v).1 := by
  unfold ChangeChunkVers
  split
  · exact .refl
  · exact ⟨_, _, _, _, _, _, rfl⟩

theorem AllocChunk_quiet {v : ℤ} : Quiet st (AllocChunk env st c v).1 := by
  unfold AllocChunk
  split
  · exact ChangeChunkVers_quiet
  · split_ifs
    · exact ⟨_, _, _, _, _, _, rfl⟩
    · exact .refl

theorem RegisterLease_quiet : Quiet st (RegisterLease env st c) := ⟨_, _, _, _, _, _, rfl⟩

theorem removeChunk_quiet : Quiet st (removeChunk st c) := by
  unfold removeChunk
  split
  · exact .refl
  · exact ⟨_, _, _, _, _, _, rfl⟩

theorem releaseChunk_quiet : Quiet st (releaseChunk st c) := by
  unfold releaseChunk
  split
  · exact .refl
  · exact ⟨_, _, _, _, _, _, rfl⟩

theorem ReadChunkMetadataDone_quiet : Quiet st (ReadChunkMetadataDone st c) := by
  unfold ReadChunkMetadataDone
  split
  · exact .refl
  · exact ⟨_, _, _, _, _, _, rfl⟩

theorem SetChunkMetadata_quiet {checksums : ℕ → UInt32} : Quiet st (SetChunkMetadata st c checksums).1 := by
  unfold SetChunkMetadata
  split
  · exact .refl
  · exact ⟨_, _, _, _, _, _, rfl⟩

theorem TruncateChunk_quiet {size : ℕ} (h : TruncateChunk env st c size = some (st', res)) : Quiet st st' := by
  unfold TruncateChunk at h
  split_ifs at h
  · rw [← (Prod.mk.inj (Option.some.inj h)).1]
    exact .refl
  · split at h
    · rw [← (Prod.mk.inj (Option.some.inj h)).1]
      exact .refl
    · split at h
      · rw [← (Prod.mk.inj (Option.some.inj h)).1]
        exact .refl
      · dsimp only at h
        split at h
        · cases h
        · split_ifs at h
          rw [← (Prod.mk.inj (Option.some.inj h)).1]
          exact ⟨_, _, _, _, _, _, rfl⟩

theorem checkRead_quiet {rop rop' : ReadOp} (h : checkRead st c rop = some (st', rop')) : Quiet st st' := by
  unfold checkRead at h
  split at h
  · obtain ⟨_, -, he⟩ := Option.map_eq_some_iff.mp h
    exact (Prod.mk.inj he).1 ▸ .refl
  · split_ifs at h
    · obtain ⟨_, -, he⟩ := Option.map_eq_some_iff.mp h
      exact (Prod.mk.inj he).1 ▸ .refl
    · split at h
      · cases h
      · obtain ⟨rop₁, -, he⟩ := Option.map_eq_some_iff.mp h
        obtain ⟨rfl, -⟩ := Prod.mk.inj he
        split_ifs
        · exact removeChunk_quiet
        · exact .refl

theorem setStatus_quiet {rop rop' : ReadOp} {data : Option (List UInt8)}
    (h : ReadOp.setStatus st c rop data = some (st', rop')) : Quiet st st' := by
  unfold ReadOp.setStatus at h
  split at h
  · exact (Prod.mk.inj (Option.some.inj h)).1 ▸ .refl
  · split at h
    · cases h
    · rename_i st₁ rop₁ hc
      exact (Prod.mk.inj (Option.some.inj h)).1 ▸ checkRead_quiet hc

/-! ## Steps of the account -/

theorem Known.later (h : Known st op) (hl : Later st st') : Known st' op :=
  ⟨hl.nextOp ▸ h.old, fun a ha => h.same a (hl.received ▸ ha)⟩

/-- An operation that is neither a prepare nor a sync can always complete. -/
theorem Known.ready (h : Known st op) (hp : op.cmd.isPrepare = false) (hs : op.cmd.isSync = false) :
    Ready st op status :=
  ⟨h, fun hp' => by simp [hp] at hp', fun hs' => by simp [hs] at hs'⟩

theorem Known.inFlight (h : Known st op) (hs : op.cmd.isSync = false) : InFlight st op :=
  ⟨h, fun hs' => by simp [hs] at hs'⟩

/-- A disk request is queued. -/
theorem Sane.enqueue (h : Sane st) (ho : r.Owned) (hr : ∀ op ∈ r.ops, InFlight st op) :
    Kept st (queue st r) := by
  obtain ⟨⟨g₁, g₂, g₃, g₄, g₅, g₆, g₇, g₈, g₉, g₁₀⟩, ⟨r₀, r₇, r₈, r₁, r₂, r₃, r₄, r₅, r₆⟩⟩ := h
  have hk : ∀ op, InFlight st op → InFlight (ChunkManager.queue st r) op :=
    fun op h => ⟨⟨h.known.old, h.known.same⟩, h.covered⟩
  refine ⟨⟨⟨g₁, g₂, g₃, g₄, g₅, g₆, g₇, g₈, g₉, g₁₀⟩,
    ⟨r₀, r₇, r₈, r₁, r₂, r₃, fun r' hr' => ?_, fun op hop => hk op (r₅ op hop), r₆⟩⟩,
    fun _ h => h, rfl, rfl, rfl, fun _ h => h, fun _ h _ => h⟩
  rcases List.mem_append.mp hr' with hr' | hr'
  · exact ⟨(r₄ r' hr').1, fun op hop => hk op ((r₄ r' hr').2 op hop)⟩
  · rw [List.mem_singleton.mp hr']
    exact ⟨ho, fun op hop => hk op (hr op hop)⟩

/-- Disk requests and waiting operations are replaced by others of the kind. -/
theorem Sane.replace {disk : List DiskRequest} {waiting : List KfsOp} {peers : List ℕ} (h : Sane st)
    (hd : ∀ r ∈ disk, r.Owned ∧ ∀ op ∈ r.ops, InFlight st op) (hw : ∀ op ∈ waiting, InFlight st op) :
    Kept st { st with disk := disk, waiting := waiting, peers := peers } := by
  obtain ⟨⟨g₁, g₂, g₃, g₄, g₅, g₆, g₇, g₈, g₉, g₁₀⟩, ⟨r₀, r₇, r₈, r₁, r₂, r₃, r₄, r₅, r₆⟩⟩ := h
  refine ⟨⟨⟨g₁, g₂, g₃, g₄, g₅, g₆, g₇, g₈, g₉, g₁₀⟩,
    ⟨r₀, r₇, r₈, r₁, r₂, r₃, fun r hr => ⟨(hd r hr).1, fun op hop => ?_⟩,
    fun op hop => ?_, r₆⟩⟩, fun _ h => h, rfl, rfl, rfl, fun _ h => h, fun _ h _ => h⟩
  · have hk := (hd r hr).2 op hop
    exact ⟨⟨hk.known.old, hk.known.same⟩, hk.covered⟩
  · have hk := hw op hop
    exact ⟨⟨hk.known.old, hk.known.same⟩, hk.covered⟩

/-- The first pending write with this id gets the status. -/
theorem replaceStatus (writeId status : ℤ) : ∀ l : List PendingWrite,
    let l' := l.replaceF fun w => if w.writeId = writeId then some { w with status := status } else none
    l'.map PendingWrite.writeId = l.map PendingWrite.writeId ∧
      (∀ w ∈ l', w ∈ l ∨ (w.writeId = writeId ∧ w.status = status)) ∧
      ((l.map PendingWrite.writeId).Nodup → ∀ w ∈ l', w.writeId = writeId → w.status = status)
  | [] => by simp
  | x :: l => by
    obtain ⟨hmap, hmem, hset⟩ := replaceStatus writeId status l
    dsimp only
    rw [List.replaceF]
    by_cases hx : x.writeId = writeId
    · rw [if_pos hx]
      refine ⟨rfl, fun w hw => ?_, fun hnodup w hw hid => ?_⟩
      · rcases List.mem_cons.mp hw with rfl | hw
        · exact .inr ⟨hx, rfl⟩
        · exact .inl (List.mem_cons_of_mem _ hw)
      · rcases List.mem_cons.mp hw with rfl | hw
        · rfl
        · rw [List.map_cons] at hnodup
          exact absurd (List.mem_map.mpr ⟨w, hw, hid.trans hx.symm⟩) (List.nodup_cons.mp hnodup).1
    · rw [if_neg hx]
      refine ⟨congrArg (x.writeId :: ·) hmap, fun w hw => ?_, fun hnodup w hw hid => ?_⟩
      · rcases List.mem_cons.mp hw with rfl | hw
        · exact .inl List.mem_cons_self
        · exact (hmem w hw).imp_left (List.mem_cons_of_mem _)
      · rcases List.mem_cons.mp hw with rfl | hw
        · exact absurd hid hx
        · exact hset (List.nodup_cons.mp hnodup).2 w hw hid

/-- The status of a pending write becomes an error, and the write-id is dead. -/
theorem Sane.setWriteStatus {writeId : ℤ} (h : Sane st) (hneg : status < 0) (hid : writeId ≤ st.mWriteId) :
    Kept st (SetWriteStatus st writeId status) ∧
      Dead (SetWriteStatus st writeId status) writeId := by
  obtain ⟨hmap, hmem, hset⟩ := replaceStatus writeId status st.mPendingWrites
  obtain ⟨⟨g₁, g₂, g₃, g₄, g₅, g₆, g₇, g₈, g₉, g₁₀⟩, ⟨r₀, r₇, r₈, r₁, r₂, r₃, r₄, r₅, r₆⟩⟩ := h
  have hdead : ∀ {id}, Dead st id → Dead (SetWriteStatus st writeId status) id := fun hd =>
    ⟨hd.1, fun w hw hwid => (hmem w hw).elim (fun hw => hd.2 w hw hwid) fun hw => hw.2 ▸ hneg⟩
  refine ⟨⟨⟨⟨g₁, g₂, g₃, g₄, g₅, g₆, g₇, g₈, g₉, g₁₀⟩,
    ⟨r₀, r₇, r₈, fun p hp hpp hc => (r₁ p hp hpp hc).imp_right hdead, ?_,
    fun w hw => ?_,
    fun r hr => ⟨(r₄ r hr).1, fun op hop => ⟨⟨((r₄ r hr).2 op hop).known.old, ((r₄ r hr).2 op hop).known.same⟩,
      ((r₄ r hr).2 op hop).covered⟩⟩,
    fun op hop => ⟨⟨(r₅ op hop).known.old, (r₅ op hop).known.same⟩, (r₅ op hop).covered⟩, r₆⟩⟩,
    fun _ h => h, rfl, rfl, rfl, fun _ h => h, fun _ h _ => h⟩, hid, fun w hw hwid => hset r₂ w hw hwid ▸ hneg⟩
  · unfold SetWriteStatus
    rw [hmap]
    exact r₂
  · rcases hmem w hw with hw | ⟨hwid, -⟩
    · exact r₃ w hw
    · exact hwid ▸ hid

/-- The operations that wait are not concerned. -/
theorem InFlight.frame (h : InFlight st op) (hn : st'.nextOp = st.nextOp) (hr : st'.received = st.received)
    (hw : st'.written = st.written) : InFlight st' op :=
  ⟨⟨hn ▸ h.known.old, fun a ha => h.known.same a (hr ▸ ha)⟩,
    fun hs hc p hp hpp hlt hid => hw ▸ h.covered hs hc p (hr ▸ hp) hpp hlt hid⟩

theorem Recorded.queues {mOps : List (KfsOp × Bool)} {mPendingOps : List (KfsOp × KfsOp)} (h : Recorded st) :
    Recorded { st with mOps := mOps, mPendingOps := mPendingOps } := by
  obtain ⟨r₀, r₇, r₈, r₁, r₂, r₃, r₄, r₅, r₆⟩ := h
  exact ⟨r₀, r₇, r₈, r₁, r₂, r₃, fun r hr => ⟨(r₄ r hr).1, fun op hop => ((r₄ r hr).2 op hop).frame rfl rfl rfl⟩,
    fun op hop => (r₅ op hop).frame rfl rfl rfl, r₆⟩

/-- Only a completion counts. -/
theorem Recorded.mark {m : Mark} (h : Recorded st) (hm : ∀ id, m ≠ .completed id) : Recorded (mark st m) := by
  obtain ⟨r₀, r₇, r₈, r₁, r₂, r₃, r₄, r₅, r₆⟩ := h
  have hc : ∀ {id}, (ChunkManager.mark st m).completed id → st.completed id := fun hc =>
    (List.mem_cons.mp hc).resolve_left (hm _).symm
  exact ⟨r₀, fun id h => r₇ id (hc h), r₈, fun p hp hpp h => r₁ p hp hpp (hc h), r₂, r₃,
    fun r hr => ⟨(r₄ r hr).1, fun op hop => ((r₄ r hr).2 op hop).frame rfl rfl rfl⟩,
    fun op hop => (r₅ op hop).frame rfl rfl rfl, r₆⟩

/-- Operations get new numbers; one of them may come in on the connection. -/
theorem Recorded.receive {new : List KfsOp} (h : Recorded st) (hg : Gate st)
    (hnew : ∀ op ∈ new, op.id = st.nextOp ∧ op.clientSM = true) :
    Recorded { st with nextOp := st.nextOp + 1, received := new ++ st.received } := by
  obtain ⟨r₀, r₇, r₈, r₁, r₂, r₃, r₄, r₅, r₆⟩ := h
  have hcov : ∀ {s}, s.id < st.nextOp → Covered st s →
      Covered { st with nextOp := st.nextOp + 1, received := new ++ st.received } s := by
    intro s hs h p hp hpp hlt hid
    rcases List.mem_append.mp hp with hp | hp
    · have := (hnew p hp).1
      omega
    · exact h p hp hpp hlt hid
  have hflight : ∀ {op}, InFlight st op →
      InFlight { st with nextOp := st.nextOp + 1, received := new ++ st.received } op := by
    refine fun {op} h => ⟨⟨Nat.lt_succ_of_lt h.known.old, fun a ha hid => ?_⟩, fun hs hc =>
      hcov h.known.old (h.covered hs hc)⟩
    rcases List.mem_append.mp ha with ha | ha
    · have := (hnew a ha).1
      have := h.known.old
      omega
    · exact h.known.same a ha hid
  refine ⟨fun op hop => ?_, fun id hc => Nat.lt_succ_of_lt (r₇ id hc),
    fun id status hm => Nat.lt_succ_of_lt (r₈ id status hm), fun p hp hpp hc => ?_, r₂, r₃,
    fun r hr => ⟨(r₄ r hr).1, fun op hop => hflight ((r₄ r hr).2 op hop)⟩, fun op hop => hflight (r₅ op hop),
    fun id status hm h0 s hs hid hsync => ?_⟩
  · exact (List.mem_append.mp hop).elim (fun hop => (hnew op hop).2) (r₀ op)
  · rcases List.mem_append.mp hp with hp | hp
    · have := r₇ p.id hc
      have := (hnew p hp).1
      omega
    · exact r₁ p hp hpp hc
  · rcases List.mem_append.mp hs with hs | hs
    · have := r₈ id status hm
      have := (hnew s hs).1
      omega
    · exact hcov (hg.fresh s hs) (r₆ id status hm h0 s hs hid hsync)

/-- Write-ids are allocated, or given up. -/
theorem Recorded.pending {mWriteId : ℤ} {mPendingWrites : List PendingWrite} (h : Recorded st)
    (hle : st.mWriteId ≤ mWriteId) (hnodup : (mPendingWrites.map PendingWrite.writeId).Nodup)
    (hold : ∀ w ∈ mPendingWrites, w.writeId ≤ mWriteId ∧ (w ∈ st.mPendingWrites ∨ st.mWriteId < w.writeId)) :
    Recorded { st with mWriteId := mWriteId, mPendingWrites := mPendingWrites } := by
  obtain ⟨r₀, r₇, r₈, r₁, r₂, r₃, r₄, r₅, r₆⟩ := h
  refine ⟨r₀, r₇, r₈, fun p hp hpp hc => (r₁ p hp hpp hc).imp_right fun hd =>
    ⟨hd.1.trans hle, fun w hw hid => ?_⟩, hnodup,
    fun w hw => (hold w hw).1,
    fun r hr => ⟨(r₄ r hr).1, fun op hop => ((r₄ r hr).2 op hop).frame rfl rfl rfl⟩,
    fun op hop => (r₅ op hop).frame rfl rfl rfl, r₆⟩
  rcases (hold w hw).2 with hw | hlt
  · exact hd.2 w hw hid
  · exact absurd hd.1 (by omega)

/-- The data of a prepare is on disk. -/
theorem Sane.wrote {id : ℕ} (h : Sane st) : Kept st { st with written := id :: st.written } := by
  obtain ⟨⟨g₁, g₂, g₃, g₄, g₅, g₆, g₇, g₈, g₉, g₁₀⟩, ⟨r₀, r₇, r₈, r₁, r₂, r₃, r₄, r₅, r₆⟩⟩ := h
  have hcov : ∀ {s}, Covered st s → Covered { st with written := id :: st.written } s :=
    fun h p hp hpp hlt hw => List.mem_cons_of_mem _ (h p hp hpp hlt hw)
  have hk : ∀ op, InFlight st op → InFlight { st with written := id :: st.written } op :=
    fun op h => ⟨⟨h.known.old, h.known.same⟩, fun hs hc => hcov (h.covered hs hc)⟩
  exact ⟨⟨⟨g₁, g₂, g₃, g₄, g₅, g₆, g₇, g₈, g₉, g₁₀⟩,
    ⟨r₀, r₇, r₈, fun p hp hpp hc => (r₁ p hp hpp hc).imp_left (List.mem_cons_of_mem _), r₂, r₃,
      fun r hr => ⟨(r₄ r hr).1, fun op hop => hk op ((r₄ r hr).2 op hop)⟩, fun op hop => hk op (r₅ op hop),
      fun id' status hm h0 s hs hid hsync => hcov (r₆ id' status hm h0 s hs hid hsync)⟩⟩,
    fun _ h => List.mem_cons_of_mem _ h, rfl, rfl, rfl, fun _ h => h, fun _ h _ => h⟩

/-- What completes other than an operation is not recorded here. -/
theorem Sane.signalled {sig : Signal} (h : Sane st) (hsig : ∀ id, sig ≠ .other id) :
    Kept st (signal st sig status) := by
  obtain ⟨⟨g₁, g₂, g₃, g₄, g₅, g₆, g₇, g₈, g₉, g₁₀⟩, ⟨r₀, r₇, r₈, r₁, r₂, r₃, r₄, r₅, r₆⟩⟩ := h
  refine ⟨⟨⟨g₁, g₂, g₃, g₄, g₅, g₆, g₇, g₈, g₉, g₁₀⟩, ⟨r₀, r₇, fun id status hm => ?_, r₁, r₂, r₃,
    fun r hr => ⟨(r₄ r hr).1, fun op hop => ⟨⟨((r₄ r hr).2 op hop).known.old, ((r₄ r hr).2 op hop).known.same⟩,
      ((r₄ r hr).2 op hop).covered⟩⟩,
    fun op hop => ⟨⟨(r₅ op hop).known.old, (r₅ op hop).known.same⟩, (r₅ op hop).covered⟩, fun id status hm => ?_⟩⟩,
    fun _ h => h, rfl, rfl, rfl, fun _ h => h, fun _ h _ => h⟩
  · rcases List.mem_cons.mp hm with he | hm
    · exact absurd (Prod.mk.inj he).1.symm (hsig id)
    · exact r₈ id status hm
  · rcases List.mem_cons.mp hm with he | hm
    · exact absurd (Prod.mk.inj he).1.symm (hsig id)
    · exact r₆ id status hm

theorem signal_id {id : ℕ} (h : Signal.other id = op.signal) : id = op.id := by
  revert h
  unfold KfsOp.signal
  cases op.cmd <;> simp

/-- An operation completes. -/
theorem Sane.complete (h : Sane st) (hr : Ready st op status) :
    Kept st (mark (signal st op.signal status) (.completed op.id)) := by
  have hg := h.gate.mark (m := .completed op.id)
  obtain ⟨-, ⟨r₀, r₇, r₈, r₁, r₂, r₃, r₄, r₅, r₆⟩⟩ := h
  obtain ⟨g₁, g₂, g₃, g₄, g₅, g₆, g₇, g₈, g₉, g₁₀⟩ := hg
  refine ⟨⟨⟨g₁, g₂, g₃, g₄, g₅, g₆, g₇, g₈, g₉, g₁₀⟩,
    ⟨r₀, fun id hc => ?_, fun id status hm => ?_, fun p hp hpp hc => ?_, r₂, r₃,
    fun r hr => ⟨(r₄ r hr).1, fun op hop => ⟨⟨((r₄ r hr).2 op hop).known.old, ((r₄ r hr).2 op hop).known.same⟩,
      ((r₄ r hr).2 op hop).covered⟩⟩,
    fun op hop => ⟨⟨(r₅ op hop).known.old, (r₅ op hop).known.same⟩, (r₅ op hop).covered⟩,
    fun id status' hm h0 s hs hid hsync => ?_⟩⟩,
    fun _ h => h, rfl, rfl, rfl, fun _ h => List.mem_cons_of_mem _ h, fun _ h _ => h⟩
  · rcases List.mem_cons.mp hc with he | hc
    · exact Mark.completed.inj he ▸ hr.known.old
    · exact r₇ id hc
  · rcases List.mem_cons.mp hm with he | hm
    · exact signal_id (Prod.mk.inj he).1 ▸ hr.known.old
    · exact r₈ id status hm
  · rcases List.mem_cons.mp hc with he | hc
    · have hid : p.id = op.id := Mark.completed.inj he
      obtain ⟨hclient, hprep, -, hw⟩ := hr.known.same p hp hid
      have hset := hr.settled (hprep ▸ hpp) hclient
      unfold Settled at hset ⊢
      rw [hid, hw]
      exact hset
    · exact r₁ p hp hpp hc
  · rcases List.mem_cons.mp hm with he | hm
    · obtain ⟨hsig, rfl⟩ := Prod.mk.inj he
      have hid' : s.id = op.id := hid.trans (signal_id hsig)
      obtain ⟨hclient, -, hsync', hw⟩ := hr.known.same s hs hid'
      have hcov := hr.covered (hsync' ▸ hsync) hclient h0
      intro p hp hpp hlt hwp
      exact hcov p hp hpp (hid' ▸ hlt) (hwp.trans hw)
    · exact r₆ id status' hm h0 s hs hid hsync

theorem Kept.trans (h : Kept st st₁) (h' : Kept st₁ st') : Kept st st' :=
  ⟨h'.sane, fun id hid => h'.written id (h.written id hid), h.later.trans h'.later⟩

theorem Sane.kept (h : Sane st) : Kept st st := ⟨h, fun _ h => h, .refl⟩

/-- An operation that waits can complete, a prepare if it has been written or its write-id is dead. -/
theorem InFlight.ready (h : InFlight st op)
    (hp : op.cmd.isPrepare = true → op.clientSM = true → Settled st op) : Ready st op status :=
  ⟨h.known, hp, fun hs hc _ => h.covered hs hc⟩

theorem InFlight.kept (h : InFlight st op) (hk : Kept st st') : InFlight st' op :=
  ⟨h.known.later hk.later, fun hs hc p hp hpp hlt hw =>
    hk.written _ (h.covered hs hc p (hk.later.received ▸ hp) hpp hlt hw)⟩

/-! ## The handlers, for any client -/

/-- The client of the operations keeps the record; while the connection goes down only the head of the queue can
leave it. -/
def Records (Submit : Submitter) : Prop := ∀ {st st' : Cs} {op : KfsOp} {status : ℤ}, Sane st → Ready st op status →
  Submit st op status = some st' → Kept st st' ∧
    ((st.terminating = true → ∀ q, st.ops.head? = some q → q.id ≠ op.id) → Firm st st')

/-- A write can be scheduled. -/
def Cs.writable (env : Env) (st : Cs) (id c offset numBytes : ℕ) : Bool :=
  match st.mChunkTable c with
  | none => false
  | some cih => numBytesIO offset numBytes ≠ 0 &&
      st.mUsedSpace + (offset + numBytesIO offset numBytes - cih.chunkSize) < st.mTotalSpace &&
      env.connect id && env.aio id = none

/-- A prepare whose write-id has been allocated and is still there passes the checks that leave no trace when they
fail. -/
def soundPrepare (env : Env) (st : Cs) (id : ℕ) (p : WritePrepareOp) : Bool :=
  let (_, myPos, writeId) := needToForwardWrite p.servers
  writeId ≤ st.mWriteId && (!IsValidWriteId st writeId || (IsChunkMetadataLoaded st p.chunkId &&
    (myPos ≠ some 0 || IsLeaseValid env st p.chunkId) && match CloneWriteOp st writeId with
      | none => true
      | some w => Cs.writable env st id w.chunkId p.offset p.numBytes))

/-- A write that can be scheduled is. -/
theorem WriteChunk_writable (hw : Cs.writable env st op.id w.chunkId w.offset w.numBytes = true)
    (h : WriteChunk env st op w = some (st', res)) : 0 ≤ res := by
  unfold Cs.writable at hw
  unfold WriteChunk at h
  cases hc : st.mChunkTable w.chunkId with
  | none => simp [hc] at hw
  | some cih =>
    simp only [hc, ne_eq, Bool.and_eq_true, decide_eq_true_eq] at hw
    obtain ⟨⟨⟨h0, hspace⟩, hconn⟩, haio⟩ := hw
    simp only [hc] at h
    cases hk : cih.chunkBlockChecksum with
    | none => simp [hk] at h
    | some checksums =>
      simp only [hk] at h
      rw [if_neg h0, if_neg (not_le.mpr hspace)] at h
      cases hi : writeImage cih.chunkSize { w with numBytesIO := numBytesIO w.offset w.numBytes } with
      | none => simp [hi] at h
      | some image =>
        cases image with
        | failed =>
          simp only [hi, Option.some.injEq, Prod.mk.injEq] at h
          exact h.2.le
        | read =>
          simp only [hi] at h
          unfold readBlock at h
          dsimp only at h
          split at h
          · cases h
          · split_ifs at h
            exact (Prod.mk.inj (Option.some.inj h)).2.le
        | ready w' =>
          simp only [hi] at h
          unfold scheduleWrite at h
          rw [if_neg (by simp [hconn]), haio] at h
          split at h
          · rename_i hd
            unfold DiskConnection.Write at hd
            split_ifs at hd
            exact absurd hd writeLoop_none
          · obtain ⟨_, -, he⟩ := Option.map_eq_some_iff.mp h
            exact (Prod.mk.inj he).2 ▸ Int.natCast_nonneg _
          · obtain ⟨_, -, he⟩ := Option.map_eq_some_iff.mp h
            exact (Prod.mk.inj he).2 ▸ Int.natCast_nonneg _

/-- What a write does keeps the record. -/
theorem WriteChunk_kept (hs : Sane st) (hk : InFlight st op) (hown : op.cmd.isPrepare = true → w.wpop ≠ none)
    (h : WriteChunk env st op w = some (st', res)) : Kept st st' := by
  cases WriteChunk_cases h with
  | error => exact hs.kept
  | dropped _ hq => exact hq.kept hs
  | failed => exact hs.kept
  | queued hc hl h0 hi hstatus hu =>
    obtain ⟨dataBuf, checksums, rfl⟩ := writeImage_same hi
    refine (hs.enqueue ?_ fun op' hop' => ?_).trans ((UpdateChecksums_quiet hu).kept ?_)
    · intro hp hnone
      exact hown hp (Option.map_eq_none_iff.mp hnone)
    · exact List.mem_singleton.mp hop' ▸ hk
    · refine (hs.enqueue ?_ fun op' hop' => ?_).sane
      · intro hp hnone
        exact hown hp (Option.map_eq_none_iff.mp hnone)
      · exact List.mem_singleton.mp hop' ▸ hk
  | reading hc hl h0 hi hread =>
    have hq : Quiet st (issue st (.readBlock op.id)) := ⟨_, _, _, _, _, _, rfl⟩
    refine (hq.kept hs).trans ((hq.kept hs).sane.enqueue (fun hp => hown hp) fun op' hop' => ?_)
    exact List.mem_singleton.mp hop' ▸ hk.kept (hq.kept hs)

variable {Submit : Submitter} (hS : Records Submit)

include hS

/-! ### Prepares -/

theorem WritePrepareOp.HandleDone_kept (hs : Sane st) (hr : ∀ status, Ready st op status)
    (h : WritePrepareOp.HandleDone Submit st op pr status = some st') : Kept st st' := by
  unfold WritePrepareOp.HandleDone at h
  dsimp only at h
  by_cases hdone : (!pr.writeFwdOp) = true ∨ pr.numDone + 1 ≥ 2
  · rw [if_pos hdone] at h
    exact (hS hs (hr _) h).1
  · rw [if_neg hdone] at h
    exact Option.some.inj h ▸ hs.kept

/-- A write is resumed; that of a prepare of the connection must go on. -/
theorem WriteOp.Execute_kept (hs : Sane st) (hk : InFlight st op) (hown : op.cmd.isPrepare = true → w.wpop ≠ none)
    (hok : op.cmd.isPrepare = true → op.clientSM = true →
      Cs.writable env st op.id w.chunkId w.offset w.numBytes = true)
    (h : WriteOp.Execute Submit env st op w = some st') : Kept st st' := by
  unfold WriteOp.Execute at h
  cases hw : WriteChunk env st op w with
  | none => simp [hw] at h
  | some r =>
    obtain ⟨st₁, res⟩ := r
    simp only [hw] at h
    have hk₁ := WriteChunk_kept hs hk hown hw
    split_ifs at h with hneg
    · cases hp : w.wpop with
      | none => simp [hp] at h
      | some p =>
        simp only [hp] at h
        have hsig : Kept st₁ (signal st₁ (.write op.id) res) := hk₁.sane.signalled fun _ => by simp
        have hready : ∀ status, Ready (signal st₁ (.write op.id) res) op status := fun status =>
          (hk.kept (hk₁.trans hsig)).ready fun hp hc =>
            absurd (WriteChunk_writable (hok hp hc) hw) (not_le.mpr hneg)
        exact (hk₁.trans hsig).trans (WritePrepareOp.HandleDone_kept hS hsig.sane hready h)
    · exact Option.some.inj h ▸ hk₁

/-- The disk is done with a write; that of a prepare of the connection has gone through. -/
theorem WriteOp.HandleWriteDone_kept {n : Option ℕ} (hs : Sane st) (hk : InFlight st op)
    (hown : op.cmd.isPrepare = true → w.wpop ≠ none)
    (hok : op.cmd.isPrepare = true → op.clientSM = true → n = some w.numBytesIO)
    (h : WriteOp.HandleWriteDone Submit st op w n = some st') : Kept st st' := by
  have hsig : ∀ {st : Cs} {res : ℤ}, Sane st → Kept st (signal st (.write op.id) res) := fun hs =>
    hs.signalled fun _ => by simp
  unfold WriteOp.HandleWriteDone at h
  cases hp : w.wpop with
  | none =>
    cases n with
    | none => simp [hp] at h
    | some n =>
      simp only [hp] at h
      have hready : Ready (signal st (.write op.id) n) op n :=
        (hk.kept (hsig hs)).ready fun hpp => absurd hp (hown hpp)
      exact (hsig hs).trans (hS (hsig hs).sane hready h).1
  | some p =>
    cases n with
    | none =>
      simp only [hp] at h
      have hready : ∀ status, Ready (signal st (.write op.id) (-1)) op status := fun status =>
        (hk.kept (hsig hs)).ready fun hpp hc => nomatch hok hpp hc
      exact (hsig hs).trans (WritePrepareOp.HandleDone_kept hS (hsig hs).sane hready h)
    | some n =>
      simp only [hp] at h
      have hw : Kept st (if n = w.numBytesIO then { st with written := op.id :: st.written } else st) := by
        split_ifs
        · exact hs.wrote
        · exact hs.kept
      have hwritten : op.cmd.isPrepare = true → op.clientSM = true →
          op.id ∈ (if n = w.numBytesIO then { st with written := op.id :: st.written } else st).written := by
        intro hpp hc
        rw [if_pos (Option.some.inj (hok hpp hc))]
        exact List.mem_cons_self
      have hready : ∀ status,
        Ready (signal (if n = w.numBytesIO then { st with written := op.id :: st.written } else st)
          (.write op.id) n) op status := fun status =>
        (hk.kept (hw.trans (hsig hw.sane))).ready fun hpp hc => .inl (hwritten hpp hc)
      exact (hw.trans (hsig hw.sane)).trans (WritePrepareOp.HandleDone_kept hS (hsig hw.sane).sane hready h)

theorem WritePrepareOp.startWrite_kept {writeId : ℤ} (hs : Sane st) (hk : InFlight st op)
    (hok : op.cmd.isPrepare = true → op.clientSM = true → ∀ w, CloneWriteOp st writeId = some w →
      Cs.writable env st op.id w.chunkId pr.offset pr.numBytes = true)
    (h : WritePrepareOp.startWrite Submit env st op pr writeId = some st') : Kept st st' := by
  unfold WritePrepareOp.startWrite at h
  cases hclone : CloneWriteOp st writeId with
  | none => simp [hclone] at h
  | some w =>
    simp only [hclone] at h
    split at h
    · cases h
    · rename_i st₁ res hw
      have hq : Kept st (issue st (.write op.id)) := Quiet.kept ⟨_, _, _, _, _, _, rfl⟩ hs
      have hk₁ := hq.trans (WriteChunk_kept hq.sane (hk.kept hq) (fun _ => by simp) hw)
      split_ifs at h with hneg
      · have hsig : Kept st₁ (signal st₁ (.write op.id) res) := hk₁.sane.signalled fun _ => by simp
        have hready : Ready (signal st₁ (.write op.id) res) op res :=
          (hk.kept (hk₁.trans hsig)).ready fun hp hc => by
            have hwr : Cs.writable env (issue st (.write op.id)) op.id w.chunkId pr.offset pr.numBytes = true :=
              hok hp hc w hclone
            exact absurd (WriteChunk_writable hwr hw) (not_le.mpr hneg)
        exact (hk₁.trans hsig).trans (hS hsig.sane hready h).1
      · exact Option.some.inj h ▸ hk₁

/-- **A prepare leaves its mark**: it is being written, or its write-id is dead. -/
theorem WritePrepareOp.Execute_kept (hs : Sane st) (hk : Known st op) (hcmd : op.cmd = .writePrepare pr)
    (hok : op.clientSM = true → soundPrepare env st op.id pr = true)
    (h : WritePrepareOp.Execute Submit env st op pr = some st') : Kept st st' := by
  have hprep : op.cmd.isPrepare = true := by simp [hcmd, Cmd.isPrepare]
  have hflight : InFlight st op := hk.inFlight (by simp [hcmd, Cmd.isSync])
  have hwid : op.cmd.writeId = (needToForwardWrite pr.servers).2.2 := by simp [hcmd, Cmd.writeId]
  unfold WritePrepareOp.Execute at h
  unfold soundPrepare at hok
  rcases hn : needToForwardWrite pr.servers with ⟨needToForward, myPos, writeId⟩
  rw [hn] at hwid
  simp only [hn, Bool.and_eq_true, decide_eq_true_eq, Bool.or_eq_true, Bool.not_eq_true'] at h hok
  cases myPos with
  | none => cases h
  | some myPos =>
    dsimp only at h
    -- what a failure that is recorded leaves
    have hdead : ∀ {e : ℤ}, e < 0 → IsValidWriteId st writeId = true →
      Submit (SetWriteStatus st writeId e) op e = some st' →
        Kept st st' := by
      intro e he hvalid hsub
      have hle : writeId ≤ st.mWriteId := by
        unfold IsValidWriteId at hvalid
        obtain ⟨w, hw, hwe⟩ := List.any_eq_true.mp hvalid
        exact (of_decide_eq_true hwe) ▸ hs.recorded.allocated w hw
      obtain ⟨hset, hd⟩ := hs.setWriteStatus he hle
      exact hset.trans (hS hset.sane ((hflight.kept hset).ready fun _ _ => .inr (by rw [hwid]; exact hd)) hsub).1
    split_ifs at h with hvalid hmeta hlease hsum hfwd hpeer
    · refine (hS hs (hflight.ready fun _ hc => .inr ?_) h).1
      rw [hwid]
      refine ⟨(hok hc).1, fun w hw hwe => ?_⟩
      unfold IsValidWriteId at hvalid
      simp only [List.any_eq_false, decide_eq_true_eq] at hvalid
      exact absurd hwe (hvalid w hw)
    · refine (hS hs (hflight.ready fun _ hc => ?_) h).1
      rcases (hok hc).2 with hno | ⟨⟨hload, -⟩, -⟩
      · simp [hno] at hvalid
      · simp [hload] at hmeta
    · refine (hS hs (hflight.ready fun _ hc => ?_) h).1
      rcases (hok hc).2 with hno | ⟨⟨-, hl⟩, -⟩
      · simp [hno] at hvalid
      · simp only [ne_eq, Option.some.injEq] at hlease hl
        rcases hl with hl | hl
        · exact absurd hlease.1 hl
        · simp [hlease.2] at hl
    · exact hdead (by decide) (by simpa using hvalid) h
    · exact hdead (by decide) (by simpa using hvalid) h
    all_goals
      refine WritePrepareOp.startWrite_kept hS hs hflight (fun _ hc w hclone => ?_) h
      rcases (hok hc).2 with hno | ⟨-, hw⟩
      · simp [hno] at hvalid
      · simpa [hclone] using hw

end Kfs.Chunk
