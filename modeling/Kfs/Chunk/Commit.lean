import Kfs.Chunk.Recorded
import Kfs.Chunk.Once
import Kfs.Chunk.InOrder

/-!
# A sync stands for its prepares

* `WriteSyncOp.Execute_kept`: a sync that is due goes on only if its prepares have been written;
* `KfsOp.Execute_kept`, `DiskRequest.HandleEvent_kept`, `Submit_records`: everything else keeps the record;
* `SoundPrepares`: the steps in which no prepare fails without a trace;
* **`commit_written`**: a sync that succeeds stands for prepares that have been written.
-/

namespace Kfs.Chunk

open ChunkManager

variable {st st' st₁ : Cs} {op s p : KfsOp} {r : DiskRequest} {env : Env} {c : ℕ} {res status : ℤ} {w : WriteOp}
  {Submit : Submitter} (hS : Records Submit)

include hS

theorem Replicator.HandleReadDone_kept (hs : Sane st) (hk : InFlight st op) (hp : op.cmd.isPrepare = false)
    (h : Replicator.HandleReadDone Submit env st op w = some st') : Kept st st' := by
  unfold Replicator.HandleReadDone at h
  split at h
  · cases h
  · rename_i st₁ res hw
    have hq : Kept st (issue st (.write op.id)) := Quiet.kept ⟨_, _, _, _, _, _, rfl⟩ hs
    have hk₁ := hq.trans (WriteChunk_kept hq.sane (hk.kept hq) (fun hp' => by simp [hp] at hp') hw)
    split_ifs at h
    · have hsig : Kept st₁ (signal st₁ (.write op.id) res) := hk₁.sane.signalled fun _ => by simp
      have hready : Ready (signal st₁ (.write op.id) res) op res :=
        (hk.kept (hk₁.trans hsig)).ready fun hp' => by simp [hp] at hp'
      exact (hk₁.trans hsig).trans (hS hsig.sane hready h).1
    · exact Option.some.inj h ▸ hk₁

/-! ## Syncs -/

/-- What a sync that is executed leaves; its own completion takes nothing else out of a queue that is going down. -/
structure Executed (op : KfsOp) (st st' : Cs) : Prop where
  kept : Kept st st'
  firm : (st.terminating = true → ∀ q, st.ops.head? = some q → q.id ≠ op.id) → Firm st st'

omit hS in
/-- The operations under way are not touched. -/
theorem Kept.executed (h : Kept st st') (hops : st'.mOps = st.mOps) : Executed op st st' :=
  have he : st'.ops = st.ops := by
    unfold Cs.ops
    rw [hops]
  ⟨h, fun _ _ => he ▸ List.prefix_rfl⟩

omit hS in
theorem Kept.andExecuted (h : Kept st st₁) (hops : st₁.mOps = st.mOps) (h' : Executed op st₁ st') :
    Executed op st st' := by
  have he : st₁.ops = st.ops := by
    unfold Cs.ops
    rw [hops]
  refine ⟨h.trans h'.kept, fun hf ht => ?_⟩
  have hf' := h'.firm (fun ht' => he ▸ hf (h.later.terminating ▸ ht')) (h.later.terminating.trans ht)
  rwa [he] at hf'

omit hS in
/-- A sync that has gone on is still what came in. -/
theorem InFlight.sync {y y' : WriteSyncOp} (hk : InFlight st op) (hcmd : op.cmd = .writeSync y)
    (hy : y'.servers = y.servers) : InFlight st { op with cmd := .writeSync y' } := by
  refine ⟨⟨hk.known.old, fun a ha hid => ?_⟩, fun _ hc p hp hpp hlt hw => ?_⟩
  · simpa [hcmd, hy, Cmd.isPrepare, Cmd.isSync, Cmd.writeId] using hk.known.same a ha hid
  · refine hk.covered (by simp [hcmd, Cmd.isSync]) hc p hp hpp hlt ?_
    simpa [hcmd, hy, Cmd.writeId] using hw

omit hS in
/-- A sync waits for the disk or a peer. -/
theorem Sane.wait {y y' : WriteSyncOp} (hs : Sane st) (hk : InFlight st op) (hcmd : op.cmd = .writeSync y)
    (hy : y'.servers = y.servers) :
    Kept st { st with waiting := { op with cmd := .writeSync y' } :: st.waiting } := by
  refine @Sane.replace st _ _ st.peers hs (fun r hr => hs.recorded.disk r hr) fun op' hop' => ?_
  rcases List.mem_cons.mp hop' with rfl | hop'
  · exact hk.sync hcmd hy
  · exact hs.recorded.waiting op' hop'

theorem WriteSyncOp.HandleDone_kept {y y' : WriteSyncOp} (hs : Sane st) (hk : InFlight st op)
    (hcmd : op.cmd = .writeSync y) (hy : y'.servers = y.servers)
    (h : WriteSyncOp.HandleDone Submit st op y' status = some st') : Executed op st st' := by
  have hprep : op.cmd.isPrepare = false := by simp [hcmd, Cmd.isPrepare]
  unfold WriteSyncOp.HandleDone at h
  dsimp only at h
  by_cases hdone : (!y'.fwdedOp) = true ∨ y'.numDone + 1 ≥ 2
  · rw [if_pos hdone] at h
    obtain ⟨hkept, hfirm⟩ := hS hs (hk.ready fun hp => by simp [hprep] at hp) h
    exact ⟨hkept, hfirm⟩
  · rw [if_neg hdone] at h
    obtain rfl := Option.some.inj h
    exact Kept.executed (hs.wait hk hcmd hy) rfl

omit hS in
theorem WriteChunkMetadata_kept (hs : Sane st) (hk : InFlight st op) (hp : op.cmd.isPrepare = false)
    (h : WriteChunkMetadata env st c op = some (st', res)) : Kept st st' ∧ st'.mOps = st.mOps := by
  unfold WriteChunkMetadata at h
  split at h
  · rw [← (Prod.mk.inj (Option.some.inj h)).1]
    exact ⟨hs.kept, rfl⟩
  · split_ifs at h
    · rw [← (Prod.mk.inj (Option.some.inj h)).1]
      exact ⟨hs.kept, rfl⟩
    · rw [← (Prod.mk.inj (Option.some.inj h)).1]
      exact ⟨hs.kept, rfl⟩
    · rw [← (Prod.mk.inj (Option.some.inj h)).1]
      refine ⟨hs.enqueue (fun op' hop' => ?_) fun op' hop' => ?_, rfl⟩
      · exact List.mem_singleton.mp hop' ▸ hp
      · exact List.mem_singleton.mp hop' ▸ hk

theorem WriteSyncOp.commit_kept {y y' : WriteSyncOp} {b : Bool} (hs : Sane st) (hk : InFlight st op)
    (hcmd : op.cmd = .writeSync y) (hy : y'.servers = y.servers)
    (h : WriteSyncOp.commit Submit env st op y' b = some st') : Executed op st st' := by
  unfold WriteSyncOp.commit at h
  split_ifs at h
  · split at h
    · cases h
    · rename_i st₁ res hm
      split_ifs at h
      obtain rfl := Option.some.inj h
      obtain ⟨hk₁, hops⟩ := WriteChunkMetadata_kept hs hk (by simp [hcmd, Cmd.isPrepare]) hm
      exact Kept.executed (hk₁.trans (hk₁.sane.wait (hk.kept hk₁) hcmd hy)) hops
  · refine WriteSyncOp.HandleDone_kept hS hs hk hcmd ?_ h
    exact hy

theorem WriteSyncOp.forward_kept {y : WriteSyncOp} {b b' : Bool} (hs : Sane st) (hk : InFlight st op)
    (hcmd : op.cmd = .writeSync y) (h : WriteSyncOp.forward Submit env st op y b b' = some st') :
    Executed op st st' := by
  unfold WriteSyncOp.forward at h
  split_ifs at h
  · split at h
    · obtain ⟨hkept, hfirm⟩ := hS hs (hk.ready fun hp => by simp [hcmd, Cmd.isPrepare] at hp) h
      exact ⟨hkept, hfirm⟩
    · refine WriteSyncOp.commit_kept hS hs hk hcmd ?_ h
      rfl
    · have hpeers : Kept st { st with peers := op.id :: st.peers } :=
        hs.replace (fun r hr => hs.recorded.disk r hr) fun op' hop' => hs.recorded.waiting op' hop'
      refine hpeers.andExecuted rfl (WriteSyncOp.commit_kept hS hpeers.sane (hk.kept hpeers) hcmd ?_ h)
      rfl
  · exact WriteSyncOp.commit_kept hS hs hk hcmd rfl h

/-- **A sync goes on only if its prepares have been written.** -/
theorem WriteSyncOp.Execute_kept {y : WriteSyncOp} (hs : Sane st) (hk : Known st op) (hcmd : op.cmd = .writeSync y)
    (hdue : op.clientSM = true → ∀ p ∈ st.received, p.cmd.isPrepare = true → p.id < op.id → st.completed p.id)
    (h : WriteSyncOp.Execute Submit env st op y = some st') : Executed op st st' := by
  have hfail : ∀ {e : ℤ}, e < 0 → Submit st op e = some st' → Executed op st st' := by
    intro e he hsub
    obtain ⟨hkept, hfirm⟩ := hS hs ⟨hk, fun hp => by simp [hcmd, Cmd.isPrepare] at hp, fun _ _ h0 =>
      absurd h0 (not_le.mpr he)⟩ hsub
    exact ⟨hkept, hfirm⟩
  have hwid : op.cmd.writeId = (needToForwardWrite y.servers).2.2 := by simp [hcmd, Cmd.writeId]
  unfold WriteSyncOp.Execute at h
  rcases hn : needToForwardWrite y.servers with ⟨needToForward, myPos, writeId⟩
  rw [hn] at hwid
  simp only [hn] at h
  by_cases hpos : y.servers ≠ [] ∧ myPos = none
  · simp [hpos] at h
  rw [if_neg hpos] at h
  cases hclone : CloneWriteOp st writeId with
  | none =>
    simp only [hclone] at h
    exact hfail (by decide) h
  | some w =>
    simp only [hclone] at h
    -- the write-id is alive, so the prepares that have completed have been written
    have hflight : InFlight st op := by
      refine ⟨hk, fun _ hc p hp hpp hlt hw => ?_⟩
      refine (hs.recorded.settled p hp hpp (hdue hc p hp hpp hlt)).resolve_right fun hd => ?_
      rw [hw, hwid] at hd
      unfold CloneWriteOp at hclone
      split at hclone
      · cases hclone
      · rename_i w' hfind
        split_ifs at hclone with hneg
        exact hneg (hd.2 w' (List.mem_of_find?_eq_some hfind) (by simpa using List.find?_some hfind))
    split at h
    · cases h
    · split_ifs at h
      · exact hfail (by decide) h
      · exact hfail (by decide) h
      · exact WriteSyncOp.forward_kept hS hs hflight hcmd h

/-! ## Metadata and reads -/

theorem giveBack_kept (hk : InFlight st op) (hp : op.cmd.isPrepare = false) (hkept : Kept st st₁)
    (h : (if res < 0 then Submit st₁ op res else some st₁) = some st') : Kept st st' := by
  split_ifs at h
  · exact hkept.trans (hS hkept.sane ((hk.kept hkept).ready fun hp' => by simp [hp] at hp') h).1
  · exact Option.some.inj h ▸ hkept

theorem writeMetadata_kept (hs : Sane st) (hk : InFlight st op) (hp : op.cmd.isPrepare = false)
    (h : writeMetadata Submit env st op c = some st') : Kept st st' := by
  unfold writeMetadata at h
  split at h
  · cases h
  · rename_i st₁ res hw
    exact giveBack_kept hS hk hp (WriteChunkMetadata_kept hs hk hp hw).1 h

omit hS in
theorem loads_kind (h : op.cmd.loads = true) : op.cmd.isPrepare = false ∧ op.cmd.isSync = false := by
  revert h
  cases op.cmd <;> simp [Cmd.loads, Cmd.isPrepare, Cmd.isSync]

omit hS in
theorem scheduleRead_kept {rop : ReadOp} {cmd : ReadOp → DiskCmd} (hs : Sane st) (hk : InFlight st op)
    (hp : op.cmd.isPrepare = false) (hcmd : ∀ rop, cmd rop = .read c rop)
    (h : scheduleRead env st c op rop cmd = some (st', res)) : Kept st st' := by
  rcases scheduleRead_cases h with ⟨-, rfl⟩ | ⟨-, rfl⟩ | ⟨cih, checksums, offset, n, rop', -, -, -, rfl, -⟩
  · exact hs.kept
  · exact hs.kept
  · refine hs.enqueue ?_ fun op' hop' => ?_
    · simpa [DiskRequest.Owned, DiskRequest.ops, hcmd] using hp
    · obtain rfl : op' = op := by simpa [DiskRequest.ops, hcmd] using hop'
      exact hk

/-- The operations that load metadata go on after it has been read. -/
theorem HandleChunkMetaReadDone_kept (hs : Sane st) (hk : Known st op)
    (h : HandleChunkMetaReadDone Submit env st op res = some st') : Kept st st' := by
  have hkind : op.cmd.loads = true → InFlight st op ∧ op.cmd.isPrepare = false := fun hl =>
    ⟨hk.inFlight (loads_kind hl).2, (loads_kind hl).1⟩
  unfold HandleChunkMetaReadDone at h
  cases hcmd : op.cmd with
  | allocChunk c v leaseId =>
    obtain ⟨hf, hp⟩ := hkind (by simp [hcmd, Cmd.loads])
    simp only [hcmd] at h
    unfold AllocChunkOp.HandleChunkMetaReadDone at h
    dsimp only at h
    have hq : Kept st
        (if leaseId ≥ 0 then RegisterLease env (AllocChunk env st c v).1 c else (AllocChunk env st c v).1) := by
      refine ChunkManager.Quiet.kept ?_ hs
      split_ifs
      · exact AllocChunk_quiet.trans RegisterLease_quiet
      · exact AllocChunk_quiet
    split at h
    · cases h
    · rename_i st₁ hg
      have hk₁ := hq.trans (giveBack_kept hS (hf.kept hq) hp hq.sane.kept hg)
      exact hk₁.trans (writeMetadata_kept hS hk₁.sane (hf.kept hk₁) hp h)
  | read c rop =>
    obtain ⟨hf, hp⟩ := hkind (by simp [hcmd, Cmd.loads])
    simp only [hcmd] at h
    split_ifs at h
    · exact (hS hs (hf.ready fun hp' => by simp [hp] at hp') h).1
    · unfold ReadOp.HandleChunkMetaReadDone at h
      split at h
      · cases h
      · rename_i st₁ res hr
        exact giveBack_kept hS hf hp (scheduleRead_kept hs hf hp (fun _ => rfl) hr) h
  | getChunkMetadata c =>
    obtain ⟨hf, hp⟩ := hkind (by simp [hcmd, Cmd.loads])
    have hready : ∀ status, Ready st op status := fun _ => hf.ready fun hp' => by simp [hp] at hp'
    simp only [hcmd] at h
    split_ifs at h
    · exact (hS hs (hready _) h).1
    · unfold GetChunkMetadataOp.HandleChunkMetaReadDone at h
      split at h
      · exact (hS hs (hready _) h).1
      · exact (hS hs (hready _) h).1
  | truncateChunk c size =>
    obtain ⟨hf, hp⟩ := hkind (by simp [hcmd, Cmd.loads])
    simp only [hcmd] at h
    split_ifs at h
    · exact (hS hs (hf.ready fun hp' => by simp [hp] at hp') h).1
    · unfold TruncateChunkOp.HandleChunkMetaReadDone at h
      split at h
      · cases h
      · rename_i st₁ res ht
        have hq := (TruncateChunk_quiet ht).kept hs
        split_ifs at h
        · exact hq.trans (hS hq.sane ((hf.kept hq).ready fun hp' => by simp [hp] at hp') h).1
        · exact hq.trans (writeMetadata_kept hS hq.sane (hf.kept hq) hp h)
  | changeChunkVers c v =>
    obtain ⟨hf, hp⟩ := hkind (by simp [hcmd, Cmd.loads])
    simp only [hcmd] at h
    split_ifs at h
    · exact (hS hs (hf.ready fun hp' => by simp [hp] at hp') h).1
    · unfold ChangeChunkVersOp.HandleChunkMetaReadDone at h
      dsimp only at h
      have hq : Kept st (ChangeChunkVers st c v).1 := ChangeChunkVers_quiet.kept hs
      split_ifs at h
      · exact hq.trans (hS hq.sane ((hf.kept hq).ready fun hp' => by simp [hp] at hp') h).1
      · exact hq.trans (writeMetadata_kept hS hq.sane (hf.kept hq) hp h)
  | _ =>
    simp only [hcmd] at h
    exact Option.some.inj h ▸ hs.kept

omit hS in
/-- One more operation waits for a metadata read. -/
theorem AddWaiter_kept {id : ℕ} (hs : Sane st) (hk : InFlight st op) (hp : op.cmd.isPrepare = false) :
    Kept st (AddWaiter st id op) := by
  refine @Sane.replace st _ st.waiting st.peers hs (fun r' hr' => ?_)
    fun op' hop' => hs.recorded.waiting op' hop'
  obtain ⟨r, hr, rfl⟩ := List.mem_map.mp hr'
  obtain ⟨ho, hr⟩ := hs.recorded.disk r hr
  split_ifs with hread
  · unfold DiskRequest.addWaiter
    cases hcmd : r.cmd with
    | readMeta c waiters =>
      simp only [DiskRequest.Owned, DiskRequest.ops, hcmd] at ho hr ⊢
      constructor
      · intro op' hop'
        rcases List.mem_cons.mp hop' with rfl | hop'
        · exact ho _ List.mem_cons_self
        · rcases List.mem_append.mp hop' with hop' | hop'
          · exact ho op' (List.mem_cons_of_mem _ hop')
          · exact List.mem_singleton.mp hop' ▸ hp
      · intro op' hop'
        rcases List.mem_cons.mp hop' with rfl | hop'
        · exact hr _ List.mem_cons_self
        · rcases List.mem_append.mp hop' with hop' | hop'
          · exact hr op' (List.mem_cons_of_mem _ hop')
          · exact List.mem_singleton.mp hop' ▸ hk
    | _ => exact ⟨ho, hr⟩
  · exact ⟨ho, hr⟩

theorem loadMetadata_kept (hs : Sane st) (hk : Known st op) (hl : op.cmd.loads = true)
    (h : loadMetadata Submit env st op c = some st') : Kept st st' := by
  obtain ⟨hp, hsync⟩ := loads_kind hl
  have hf : InFlight st op := hk.inFlight hsync
  unfold loadMetadata at h
  split at h
  · cases h
  · rename_i st₁ res hr
    suffices hk₁ : Kept st st₁ by
      split_ifs at h
      · exact hk₁.trans (hS hk₁.sane ((hf.kept hk₁).ready fun hp' => by simp [hp] at hp') h).1
      · exact Option.some.inj h ▸ hk₁
    unfold ReadChunkMetadata at hr
    cases hc : st.mChunkTable c with
    | none =>
      simp only [hc] at hr
      exact (Prod.mk.inj (Option.some.inj hr)).1 ▸ hs.kept
    | some cih =>
      simp only [hc] at hr
      by_cases hload : AreChecksumsLoaded cih = true
      · rw [if_pos hload] at hr
        obtain ⟨st₂, hh, he⟩ := Option.map_eq_some_iff.mp hr
        exact (Prod.mk.inj he).1 ▸ HandleChunkMetaReadDone_kept hS hs hk hh
      rw [if_neg hload] at hr
      cases hm : cih.readChunkMetaOp with
      | some id =>
        simp only [hm] at hr
        exact (Prod.mk.inj (Option.some.inj hr)).1 ▸ AddWaiter_kept hs hf hp
      | none =>
        simp only [hm] at hr
        have hq : ∀ e, Kept st (setEntry st c e) := fun e => ChunkManager.Quiet.kept ⟨_, _, _, _, _, _, rfl⟩ hs
        split_ifs at hr
        · exact (Prod.mk.inj (Option.some.inj hr)).1 ▸ hs.kept
        · exact (Prod.mk.inj (Option.some.inj hr)).1 ▸ hq _
        · refine (Prod.mk.inj (Option.some.inj hr)).1 ▸ (hq _).trans ((hq _).sane.enqueue ?_ fun op' hop' => ?_)
          · intro op' hop'
            obtain rfl : op' = op := by simpa [DiskRequest.ops] using hop'
            exact hp
          · obtain rfl : op' = op := by simpa [DiskRequest.ops] using hop'
            exact hf.kept (hq _)

theorem notifyAll_kept : ∀ {ops : List KfsOp} {st : Cs}, (∀ op ∈ ops, Known st op) → Sane st →
    notifyAll Submit env res ops st = some st' → Kept st st'
  | [], _, _, hs, h => Option.some.inj h ▸ hs.kept
  | op :: ops, st, hops, hs, h => by
    rw [notifyAll] at h
    split at h
    · cases h
    · rename_i st₁ hh
      have hk₁ := HandleChunkMetaReadDone_kept hS hs (hops op List.mem_cons_self) hh
      exact hk₁.trans (notifyAll_kept
        (fun op' hop' => (hops op' (List.mem_cons_of_mem _ hop')).later hk₁.later) hk₁.sane h)

/-! ## The end of a disk request -/

omit hS in
theorem takeWaiting_mem {id : ℕ} : ∀ {op : KfsOp} {ops rest : List KfsOp}, takeWaiting id ops = some (op, rest) →
    op ∈ ops ∧ ∀ a ∈ rest, a ∈ ops
  | _, [], _, h => by cases h
  | op, a :: ops, rest, h => by
    rw [takeWaiting] at h
    split_ifs at h
    · obtain ⟨rfl, rfl⟩ := Prod.mk.inj (Option.some.inj h)
      exact ⟨List.mem_cons_self, fun b hb => List.mem_cons_of_mem _ hb⟩
    · obtain ⟨x, hx, he⟩ := Option.map_eq_some_iff.mp h
      obtain ⟨rfl, rfl⟩ := Prod.mk.inj he
      obtain ⟨hmem, hrest⟩ := takeWaiting_mem hx
      refine ⟨List.mem_cons_of_mem _ hmem, fun b hb => ?_⟩
      rcases List.mem_cons.mp hb with rfl | hb
      · exact List.mem_cons_self
      · exact List.mem_cons_of_mem _ (hrest b hb)

theorem WriteSyncOp.wake_kept {id : ℕ} (hs : Sane st) (h : WriteSyncOp.wake Submit st id status = some st') :
    Kept st st' := by
  unfold WriteSyncOp.wake at h
  split at h
  · rename_i op waiting htake
    split at h
    · rename_i y hcmd
      obtain ⟨hmem, hrest⟩ := takeWaiting_mem htake
      have hw : Kept st { st with waiting := waiting } :=
        @Sane.replace st _ _ st.peers hs (fun r hr => hs.recorded.disk r hr)
          fun op' hop' => hs.recorded.waiting op' (hrest op' hop')
      have hf : InFlight { st with waiting := waiting } op := (hs.recorded.waiting op hmem).kept hw
      exact hw.trans (WriteSyncOp.HandleDone_kept hS hw.sane hf hcmd rfl h).kept
    · exact Option.some.inj h ▸ hs.kept
  · exact Option.some.inj h ▸ hs.kept

/-- What a disk request of a prepare of the connection has to find when it ends: the data has been written as a
whole, or the block has been read and the write can be scheduled. -/
def soundWrite (env : Env) (st : Cs) (r : DiskRequest) (ok : Bool) : Bool :=
  !r.clnt.clientSM || match r.cmd with
    | .write w => w.wpop.isNone || (ok && r.result.map List.length = some w.numBytesIO)
    | .readBlock w rop => w.wpop.isNone ||
        match ReadOp.setStatus st w.chunkId rop (if ok then r.result else none) with
        | none => true
        | some (st, _) => Cs.writable env st r.clnt.id w.chunkId w.offset w.numBytes
    | _ => true

/-- **The end of a disk request keeps the record.** -/
theorem DiskRequest.HandleEvent_kept {ok : Bool} {header : Option DiskChunkInfo} (hs : Sane st) (howned : r.Owned)
    (hops : ∀ op ∈ r.ops, InFlight st op) (hsound : soundWrite env st r ok = true)
    (h : r.HandleEvent Submit env st ok header = some st') : Kept st st' := by
  have hf : InFlight st r.clnt := by
    refine hops r.clnt ?_
    unfold DiskRequest.ops
    split <;> exact List.mem_cons_self
  unfold DiskRequest.HandleEvent at h
  unfold soundWrite at hsound
  unfold DiskRequest.Owned at howned
  unfold DiskRequest.ops at hops
  dsimp only at h
  cases hcmd : r.cmd with
  | readMeta c waiters =>
    simp only [hcmd] at h hops
    unfold ReadChunkMetaOp.HandleDone at h
    dsimp only at h
    have hrest : ∀ {st₁ : Cs} {status : ℤ}, ChunkManager.Quiet st st₁ →
        notifyAll Submit env status (r.clnt :: waiters) (ReadChunkMetadataDone st₁ c) = some st' → Kept st st' := by
      intro st₁ status hquiet h
      have hq : Kept st (ReadChunkMetadataDone st₁ c) := (hquiet.trans ReadChunkMetadataDone_quiet).kept hs
      exact hq.trans (notifyAll_kept hS (fun op hop => (hops op hop).known.later hq.later) hq.sane h)
    cases hread : (if ok then header else none : Option DiskChunkInfo) with
    | none =>
      rw [hread] at h
      exact hrest .refl h
    | some d =>
      rw [hread] at h
      exact hrest SetChunkMetadata_quiet h
  | read c rop =>
    have hp : r.clnt.cmd.isPrepare = false := by simpa [hcmd, DiskRequest.ops] using howned
    simp only [hcmd] at h
    unfold ReadOp.HandleDone at h
    split at h
    · cases h
    · rename_i st₁ rop₁ hstat
      dsimp only at h
      have hq := (setStatus_quiet hstat).kept hs
      have hq' : Kept st₁ (if ((st₁.mChunkTable c).map (·.chunkSize)).getD 0 > 0 ∧
          rop₁.offset + rop₁.numBytesIO ≥ ((st₁.mChunkTable c).map (·.chunkSize)).getD 0 ∧ env.sole = true then
          releaseChunk st₁ c else st₁) := by
        split_ifs
        · exact releaseChunk_quiet.kept hq.sane
        · exact hq.sane.kept
      have hk := hq.trans hq'
      exact hk.trans (hS hk.sane ((hf.kept hk).ready fun hp' => by simp [hp] at hp') h).1
  | readBlock w rop =>
    simp only [hcmd, Bool.or_eq_true, Bool.not_eq_true'] at h howned hsound
    unfold ReadOp.resume at h
    split at h
    · cases h
    · rename_i st₁ rop₁ hstat
      have hq := (setStatus_quiet hstat).kept hs
      have hsig : Kept st₁ (signal st₁ (.readBlock r.clnt.id) rop₁.status) := hq.sane.signalled fun _ => by simp
      have hk := hq.trans hsig
      refine hk.trans (WriteOp.Execute_kept (w := { w with rop := some rop₁ }) hS hk.sane (hf.kept hk) howned
        (fun hp hc => ?_) h)
      rcases hsound with hn | hn | hn
      · simp [hc] at hn
      · exact absurd (Option.isNone_iff_eq_none.mp hn) (howned hp)
      · rw [hstat] at hn
        exact hn
  | write w =>
    simp only [hcmd, Bool.or_eq_true, Bool.not_eq_true', Bool.and_eq_true, decide_eq_true_eq] at h howned hsound
    refine WriteOp.HandleWriteDone_kept hS hs hf howned (fun hp hc => ?_) h
    rcases hsound with hn | hn | hn
    · simp [hc] at hn
    · exact absurd (Option.isNone_iff_eq_none.mp hn) (howned hp)
    · rw [if_pos hn.1]
      exact hn.2
  | writeMeta =>
    have hp : r.clnt.cmd.isPrepare = false := by simpa [hcmd, DiskRequest.ops] using howned
    have hready : ∀ status, Ready st r.clnt status := fun _ => hf.ready fun hp' => by simp [hp] at hp'
    simp only [hcmd] at h
    unfold WriteChunkMetaOp.HandleDone at h
    split at h
    · exact WriteSyncOp.wake_kept hS hs h
    · exact (hS hs (hready _) h).1
    · exact (hS hs (hready _) h).1
    · exact (hS hs (hready _) h).1
    · exact Option.some.inj h ▸ hs.kept

/-! ## Execution -/

theorem KfsOp.Execute_kept (hs : Sane st) (hk : Known st op)
    (hprep : op.clientSM = true → ∀ pr, op.cmd = .writePrepare pr → soundPrepare env st op.id pr = true)
    (hdue : op.cmd.isSync = true → op.clientSM = true → ∀ p ∈ st.received, p.cmd.isPrepare = true → p.id < op.id →
      st.completed p.id)
    (h : op.Execute Submit env st = some st') : Kept st st' := by
  unfold KfsOp.Execute at h
  cases hcmd : op.cmd with
  | writePrepare pr =>
    simp only [hcmd] at h
    exact WritePrepareOp.Execute_kept hS hs hk hcmd (fun hc => hprep hc pr hcmd) h
  | writeSync y =>
    simp only [hcmd] at h
    exact (WriteSyncOp.Execute_kept hS hs hk hcmd (hdue (by simp [hcmd, Cmd.isSync])) h).kept
  | replicate w =>
    simp only [hcmd] at h
    exact Replicator.HandleReadDone_kept hS hs (hk.inFlight (by simp [hcmd, Cmd.isSync]))
      (by simp [hcmd, Cmd.isPrepare]) h
  | allocChunk c v leaseId =>
    simp only [hcmd] at h
    split_ifs at h
    · exact loadMetadata_kept hS hs hk (by simp [hcmd, Cmd.loads]) h
    · exact HandleChunkMetaReadDone_kept hS hs hk h
  | other =>
    simp only [hcmd] at h
    have hf : InFlight st op := hk.inFlight (by simp [hcmd, Cmd.isSync])
    obtain rfl := Option.some.inj h
    refine @Sane.replace st _ _ st.peers hs (fun r hr => hs.recorded.disk r hr) fun op' hop' => ?_
    rcases List.mem_cons.mp hop' with rfl | hop'
    · exact hf
    · exact hs.recorded.waiting op' hop'
  | _ =>
    simp only [hcmd] at h
    exact loadMetadata_kept hS hs hk (by simp [hcmd, Cmd.loads]) h

omit hS in
/-- An operation is issued. -/
theorem Sane.submitted {sig : Signal} {id : ℕ} (h : Sane st) : Kept st (mark (issue st sig) (.submitted id)) := by
  have hq : Kept st (issue st sig) := Quiet.kept ⟨_, _, _, _, _, _, rfl⟩ h
  exact ⟨⟨hq.sane.gate.mark, hq.sane.recorded.mark fun _ => by simp⟩, fun _ h => h, rfl, rfl, rfl,
    fun _ h => List.mem_cons_of_mem _ h, fun _ h _ => h⟩

omit hS in
theorem Known.of_received (hs : Sane st) (h : op ∈ st.received) : Known st op := by
  refine ⟨hs.gate.fresh op h, fun a ha hid => ?_⟩
  obtain rfl := hs.gate.eq_of_id ha h hid
  exact ⟨hs.recorded.clientSM a ha, rfl, rfl, rfl⟩

theorem SubmitOp_kept (hs : Sane st) (hk : Known st op)
    (hprep : op.clientSM = true → ∀ pr, op.cmd = .writePrepare pr → soundPrepare env st op.id pr = true)
    (hdue : op.cmd.isSync = true → op.clientSM = true → ∀ p ∈ st.received, p.cmd.isPrepare = true → p.id < op.id →
      st.completed p.id)
    (h : SubmitOp Submit env st op = some st') : Kept st st' := by
  have hq : Kept st (mark (issue st op.signal) (.submitted op.id)) := hs.submitted
  unfold SubmitOp at h
  refine hq.trans (KfsOp.Execute_kept hS hq.sane (hk.later hq.later) hprep (fun hsync hc p hp hpp hlt => ?_) h)
  exact List.mem_cons_of_mem _ (hdue hsync hc p hp hpp hlt)

/-- A sync of the connection is executed when it is due. -/
theorem SubmitOp_executed (hs : Sane st) (hdue : Due st s) (h : SubmitOp Submit env st s = some st') :
    Kept st st' ∧ Firm st st' := by
  have hq : Kept st (mark (issue st s.signal) (.submitted s.id)) := hs.submitted
  unfold SubmitOp KfsOp.Execute at h
  cases hcmd : s.cmd with
  | writeSync y =>
    simp only [hcmd] at h
    have he := WriteSyncOp.Execute_kept hS hq.sane ((Known.of_received hs hdue.received).later hq.later) hcmd
      (fun _ p hp hpp hlt => List.mem_cons_of_mem _ (hdue.prepares p hp hpp hlt)) h
    exact ⟨hq.trans he.kept, he.firm hdue.front⟩
  | _ =>
    have hsync := hdue.isSync
    simp [hcmd, Cmd.isSync] at hsync

omit hS in
/-- **The connection keeps the record.** -/
theorem Submit_records : ∀ n, Records (Chunk.Submit env n)
  | 0 => fun _ _ h => by cases h
  | n + 1 => by
    intro hs hr h
    rename_i st st' op status
    unfold Chunk.Submit at h
    dsimp only at h
    have hk : Kept st (mark (signal st op.signal status) (.completed op.id)) := hs.complete hr
    split_ifs at h
    · have hexec : ∀ {a b : Cs} {s : KfsOp}, Gate a → (Recorded a ∧ ∀ id ∈ st.written, id ∈ a.written) → Due a s →
          SubmitOp (Chunk.Submit env n) env a s = some b →
          Gate b ∧ (Recorded b ∧ ∀ id ∈ st.written, id ∈ b.written) ∧ Later a b ∧ Firm a b := by
        intro a b s hg hx hdue h
        obtain ⟨hk, hf⟩ := SubmitOp_executed (Submit_records n) ⟨hg, hx.1⟩ hdue h
        exact ⟨hk.sane.gate, ⟨hk.sane.recorded, fun id hid => hk.written id (hx.2 id hid)⟩, hk.later, hf⟩
      obtain ⟨hg, hx, hl, hf⟩ := HandleEvent_gate (X := fun a => Recorded a ∧ ∀ id ∈ st.written, id ∈ a.written)
        (fun _ _ hx => ⟨hx.1.queues, hx.2⟩) (fun hx => ⟨hx.1.mark fun _ => by simp, hx.2⟩) hexec
        hk.sane.gate ⟨hk.sane.recorded, hk.written⟩ List.mem_cons_self h
      exact ⟨⟨⟨hg, hx.1⟩, hx.2, hk.later.trans hl⟩, hf⟩
    · obtain rfl := Option.some.inj h
      exact ⟨hk, fun _ _ => List.prefix_rfl⟩

/-! ## Steps -/

/-- A step in which no prepare of the connection fails without a trace; sequence numbers are not used twice. -/
def SoundPrepares (st : Cs) (env : Env) : Ev → Bool
  | .recv seq cmd => st.received.all (fun a => a.seq ≠ seq) && match cmd.parse with
    | some (.writePrepare pr) => soundPrepare env st st.nextOp pr
    | _ => true
  | .complete i ok _ => match st.disk[i]? with
    | none => true
    | some r => ok && r.result.isNone || soundWrite env { st with disk := st.disk.eraseIdx i } r ok
  | _ => true

omit hS in
/-- A command comes in on the connection. -/
theorem HandleClientCmd_sane {n : ℕ} {seq : ℤ} {cmd : Cmd} (hs : Sane st) (ht : st.terminating = false)
    (hseq : ∀ a ∈ st.received, a.seq ≠ seq)
    (hprep : ∀ pr, cmd = .writePrepare pr → soundPrepare env st st.nextOp pr = true)
    (h : ClientSM.HandleClientCmd (SubmitOp (Chunk.Submit env n) env) st seq cmd = some st') : Sane st' := by
  have hrec : Recorded (st.receive ⟨st.nextOp, seq, true, cmd⟩) :=
    @Recorded.receive st [⟨st.nextOp, seq, true, cmd⟩] hs.recorded hs.gate fun op hop => by
      rw [List.mem_singleton.mp hop]
      exact ⟨rfl, rfl⟩
  unfold ClientSM.HandleClientCmd at h
  dsimp only at h
  cases hw : (if cmd.isSync = true then lastWrite st.mOps else none) with
  | some w =>
    simp only [hw] at h
    by_cases hsync : cmd.isSync = true
    · rw [if_pos hsync] at hw
      obtain rfl := Option.some.inj h
      exact ⟨@Gate.hold st ⟨st.nextOp, seq, true, cmd⟩ hs.gate rfl hseq _ hsync hw,
        (hrec.mark fun _ => by simp).queues⟩
    · simp [hsync] at hw
  | none =>
    simp only [hw] at h
    obtain ⟨hg, hdue⟩ := @Gate.push st ⟨st.nextOp, seq, true, cmd⟩ hs.gate rfl hseq ht
    have hs₁ : Sane { st.receive ⟨st.nextOp, seq, true, cmd⟩ with
        mOps := st.mOps ++ [(⟨st.nextOp, seq, true, cmd⟩, false)] } := ⟨hg, hrec.queues⟩
    refine (SubmitOp_kept (Submit_records n) hs₁ (Known.of_received hs₁ List.mem_cons_self)
      (fun _ pr hpr => hprep pr hpr) (fun hsync _ => ?_) h).sane
    rw [if_pos hsync] at hw
    exact (hdue hsync hw).prepares

omit hS in
theorem performRequest_quiet {n : ℕ} : Quiet st (performRequest st r n).1 ∧ (performRequest st r n).2.cmd = r.cmd ∧
    (performRequest st r n).2.clnt = r.clnt := by
  obtain ⟨clnt, cmd, file, offset, numBytes, result⟩ := r
  cases cmd <;> exact ⟨⟨_, _, _, _, _, _, rfl⟩, rfl, rfl⟩

omit hS in
theorem DiskRequest.kind_congr {r' : DiskRequest} (hcmd : r'.cmd = r.cmd) (hclnt : r'.clnt = r.clnt) :
    r'.ops = r.ops ∧ (r'.Owned ↔ r.Owned) := by
  have hops : r'.ops = r.ops := by
    unfold DiskRequest.ops
    rw [hcmd, hclnt]
  refine ⟨hops, ?_⟩
  unfold DiskRequest.Owned
  rw [hcmd, hclnt, hops]

omit hS in
theorem step_sane {ev : Ev} (hs : Sane st) (hsound : SoundPrepares st env ev = true) (h : st.step env ev = some st') :
    Sane st' := by
  cases ev with
  | recv seq cmd =>
    unfold Cs.step at h
    unfold SoundPrepares at hsound
    cases hcmd : cmd.parse with
    | none =>
      simp only [hcmd] at h
      exact Option.some.inj h ▸ hs
    | some cmd' =>
      simp only [hcmd, Bool.and_eq_true, List.all_eq_true, decide_eq_true_eq] at h hsound
      split_ifs at h with ht
      · exact Option.some.inj h ▸ hs
      · refine HandleClientCmd_sane hs (Bool.not_eq_true _ ▸ ht) hsound.1 (fun pr hpr => ?_) h
        simpa [hpr] using hsound.2
  | exec cmd =>
    unfold Cs.step at h
    cases hcmd : cmd.parse with
    | none =>
      simp only [hcmd] at h
      exact Option.some.inj h ▸ hs
    | some cmd' =>
      simp only [hcmd] at h
      have hg : Gate { st with nextOp := st.nextOp + 1 } :=
        { hs.gate with fresh := fun op hop => Nat.lt_succ_of_lt (hs.gate.fresh op hop) }
      have hs₁ : Sane { st with nextOp := st.nextOp + 1 } :=
        ⟨hg, @Recorded.receive _ [] hs.recorded hs.gate fun _ h => nomatch h⟩
      refine (SubmitOp_kept (Submit_records _) hs₁ ⟨Nat.lt_succ_self _, fun a ha hid => ?_⟩ (fun hc => ?_)
        (fun _ hc => ?_) h).sane
      · exact absurd hid (hs.gate.fresh a ha).ne
      · cases hc
      · cases hc
  | perform i n =>
    unfold Cs.step at h
    cases hr : st.disk[i]? with
    | none =>
      simp only [hr] at h
      exact Option.some.inj h ▸ hs
    | some r =>
      simp only [hr] at h
      split_ifs at h
      · exact Option.some.inj h ▸ hs
      · obtain rfl := Option.some.inj h
        obtain ⟨hq, hcmd, hclnt⟩ := @performRequest_quiet st r n
        have hk := hq.kept hs
        have hdisk : (performRequest st r n).1.disk = st.disk := by
          obtain ⟨_, _, _, _, _, _, he⟩ := hq
          rw [he]
        obtain ⟨ho, hr⟩ := hk.sane.recorded.disk r (hdisk ▸ List.mem_of_getElem? hr)
        refine (@Sane.replace _ _ (performRequest st r n).1.waiting (performRequest st r n).1.peers hk.sane
          (fun r' hr' => ?_) hk.sane.recorded.waiting).sane
        rcases List.mem_or_eq_of_mem_set hr' with hr' | rfl
        · exact hk.sane.recorded.disk r' hr'
        · obtain ⟨hops, howned⟩ := DiskRequest.kind_congr hcmd hclnt
          exact ⟨howned.mpr ho, fun op hop => hr op (hops ▸ hop)⟩
  | complete i ok header =>
    unfold Cs.step at h
    unfold SoundPrepares at hsound
    cases hr : st.disk[i]? with
    | none =>
      simp only [hr] at h
      exact Option.some.inj h ▸ hs
    | some r =>
      simp only [hr, Bool.or_eq_true, Bool.and_eq_true] at h hsound
      split_ifs at h with hnot
      · exact Option.some.inj h ▸ hs
      · have hmem : r ∈ st.disk := List.mem_of_getElem? hr
        have hk : Kept st { st with disk := st.disk.eraseIdx i } :=
          @Sane.replace st _ st.waiting st.peers hs
            (fun r hr => hs.recorded.disk r (List.mem_of_mem_eraseIdx hr)) fun op hop => hs.recorded.waiting op hop
        exact (DiskRequest.HandleEvent_kept (Submit_records _) hk.sane (hs.recorded.disk r hmem).1
          (fun op hop => ((hs.recorded.disk r hmem).2 op hop).kept hk) (hsound.resolve_left hnot) h).sane
  | otherDone id status =>
    unfold Cs.step at h
    cases htake : takeWaiting id st.waiting with
    | none =>
      simp only [htake] at h
      exact Option.some.inj h ▸ hs
    | some x =>
      obtain ⟨op, waiting⟩ := x
      obtain ⟨hmem, hrest⟩ := takeWaiting_mem htake
      simp only [htake] at h
      split_ifs at h with hother
      · have hk : Kept st { st with waiting := waiting } :=
          @Sane.replace st _ _ st.peers hs (fun r hr => hs.recorded.disk r hr)
            fun op' hop' => hs.recorded.waiting op' (hrest op' hop')
        have hf : InFlight { st with waiting := waiting } op := (hs.recorded.waiting op hmem).kept hk
        refine (Submit_records _ hk.sane (hf.ready fun hp => ?_) h).1.sane
        revert hother hp
        cases op.cmd <;> simp [Cmd.isOther, Cmd.isPrepare]
      · exact Option.some.inj h ▸ hs
  | peerReply id status =>
    unfold Cs.step at h
    dsimp only at h
    split_ifs at h
    · have hk : Kept st { st with peers := st.peers.erase id } :=
        hs.replace (fun r hr => hs.recorded.disk r hr) fun op' hop' => hs.recorded.waiting op' hop'
      exact (WriteSyncOp.wake_kept (Submit_records _) hk.sane h).sane
    · exact Option.some.inj h ▸ hs
  | allocateWriteId c v =>
    obtain rfl := Option.some.inj h
    unfold AllocateWriteId
    split
    · exact hs
    split_ifs
    · exact hs
    obtain ⟨⟨g₁, g₂, g₃, g₄, g₅, g₆, g₇, g₈, g₉, g₁₀⟩, hr⟩ := hs
    refine ⟨⟨g₁, g₂, g₃, g₄, g₅, g₆, g₇, g₈, g₉, g₁₀⟩, hr.pending (by omega) ?_ fun w hw => ?_⟩
    · rw [List.map_append]
      refine List.nodup_append.mpr ⟨hr.writeIds, List.nodup_singleton _, fun a ha b hb he => ?_⟩
      obtain ⟨w, hw, rfl⟩ := List.mem_map.mp ha
      have hle := hr.allocated w hw
      rw [he, List.mem_singleton.mp hb] at hle
      dsimp only at hle
      omega
    · rcases List.mem_append.mp hw with hw | hw
      · have hle := hr.allocated w hw
        exact ⟨by omega, .inl hw⟩
      · rw [List.mem_singleton.mp hw]
        exact ⟨le_rfl, .inr (by dsimp only; omega)⟩
  | scavengePendingWrites n =>
    obtain rfl := Option.some.inj h
    obtain ⟨⟨g₁, g₂, g₃, g₄, g₅, g₆, g₇, g₈, g₉, g₁₀⟩, hr⟩ := hs
    have hdrop : (st.mPendingWrites.drop n).Sublist st.mPendingWrites := List.drop_sublist n _
    refine ⟨⟨g₁, g₂, g₃, g₄, g₅, g₆, g₇, g₈, g₉, g₁₀⟩,
      hr.pending le_rfl ((hdrop.map _).nodup hr.writeIds) fun w hw => ?_⟩
    exact ⟨hr.allocated w (hdrop.subset hw), .inl (hdrop.subset hw)⟩
  | removeChunk c => exact Option.some.inj h ▸ (removeChunk_quiet.kept hs).sane
  | releaseChunk c => exact Option.some.inj h ▸ (releaseChunk_quiet.kept hs).sane
  | startReplica c => exact Option.some.inj h ▸ (AllocChunk_quiet.kept hs).sane
  | endReplica c v => exact Option.some.inj h ▸ (ChangeChunkVers_quiet.kept hs).sane
  | leaseRenewed c =>
    obtain rfl := Option.some.inj h
    split_ifs
    · exact (RegisterLease_quiet.kept hs).sane
    · exact hs
  | unRegisterLease c =>
    obtain rfl := Option.some.inj h
    exact (ChunkManager.Quiet.kept ⟨_, _, _, _, _, _, rfl⟩ hs).sane
  | netError =>
    obtain rfl := Option.some.inj h
    obtain ⟨⟨g₁, g₂, g₃, g₄, g₅, g₆, g₇, g₈, g₉, g₁₀⟩, ⟨r₀, r₇, r₈, r₁, r₂, r₃, r₄, r₅, r₆⟩⟩ := hs
    exact ⟨⟨g₁, g₂, g₃, g₄, g₅, g₆, g₇, g₈, g₉, g₁₀⟩, ⟨r₀, r₇, r₈, r₁, r₂, r₃,
      fun r hr => ⟨(r₄ r hr).1, fun op hop => ((r₄ r hr).2 op hop).frame rfl rfl rfl⟩,
      fun op hop => (r₅ op hop).frame rfl rfl rfl, r₆⟩⟩

omit hS in
theorem start_sane (h : Start st) : Sane st := by
  refine ⟨⟨?_, ?_, ?_, ?_, ?_, ?_, ?_, ?_, ?_, ?_⟩, ⟨?_, ?_, ?_, ?_, ?_, ?_, ?_, ?_, ?_⟩⟩ <;>
    simp [Cs.ops, Cs.completed, h.received, h.mOps, h.mPendingOps, h.trace, h.signals, h.mPendingWrites, h.disk,
      h.waiting]

omit hS in
/-- **A sync that succeeds stands for its prepares**: all that came before it under its write-id have been written, as
long as no prepare fails without leaving its status with the write-id. -/
theorem commit_written {es : List (Env × Ev)} (h0 : Start st) (h : Cs.run SoundPrepares es st = some st')
    (hs : s ∈ st'.received) (hsync : s.cmd.isSync = true) (hdone : (Signal.other s.id, status) ∈ st'.signals)
    (hstatus : 0 ≤ status) : Covered st' s :=
  (Cs.run_invariant (P := Sane) step_sane (start_sane h0) h).recorded.replied s.id status hdone hstatus s hs rfl hsync

/-- A chunk is created, its metadata is written and a write-id is allocated for it. -/
def opened : List (Env × Ev) := [(Env.fine, .exec (.allocChunk 7 1 5)), (Env.fine, .perform 0 0),
  (Env.fine, .complete 0 true none), (Env.fine, .allocateWriteId 7 1)]

omit hS in
/-- A prepare is written and its sync succeeds. -/
theorem commit_written_opened : ∃ st', Cs.run SoundPrepares (opened ++ [(Env.fine, .recv 1 somePrepare),
      (Env.fine, .perform 0 1), (Env.fine, .complete 0 true none), (Env.fine, .recv 2 someSync),
      (Env.fine, .perform 0 0),
      (Env.fine, .complete 0 true none)]) (Cs.idle (2 ^ 40)) = some st' ∧ (Signal.other 2, 0) ∈ st'.signals ∧
    1 ∈ st'.written := by
  have hrun : (Cs.run SoundPrepares (opened ++ [(Env.fine, .recv 1 somePrepare), (Env.fine, .perform 0 1),
      (Env.fine, .complete 0 true none), (Env.fine, .recv 2 someSync), (Env.fine, .perform 0 0),
      (Env.fine, .complete 0 true none)]) (Cs.idle (2 ^ 40))).map (fun st => (st.signals,
        st.received.map fun op => (op.id, op.cmd.isSync, op.cmd.isPrepare, op.cmd.writeId))) =
      some ([(.other 2, 0), (.op 1, 1), (.write 1, 1), (.op 0, 0)], [(2, true, false, 1), (1, false, true, 1)]) := by
    decide +kernel
  obtain ⟨st', h, he⟩ := Option.map_eq_some_iff.mp hrun
  obtain ⟨hsignals, hreceived⟩ := Prod.mk.inj he
  have hkind : ∀ x ∈ [(2, true, false, (1 : ℤ)), (1, false, true, 1)], ∃ op ∈ st'.received,
      (op.id, op.cmd.isSync, op.cmd.isPrepare, op.cmd.writeId) = x := fun x hx => List.mem_map.mp (hreceived ▸ hx)
  obtain ⟨s, hs, hsk⟩ := hkind (2, true, false, 1) (by simp)
  obtain ⟨p, hp, hpk⟩ := hkind (1, false, true, 1) (by simp)
  simp only [Prod.mk.injEq] at hsk hpk
  have hdone : (Signal.other s.id, (0 : ℤ)) ∈ st'.signals := by simp [hsignals, hsk.1]
  have hcov := commit_written Cs.idle_start h hs hsk.2.1 hdone le_rfl p hp hpk.2.2.1 (by omega)
    (hpk.2.2.2.trans hsk.2.2.2.symm)
  exact ⟨st', h, by simp [hsignals], hpk.1 ▸ hcov⟩

/-- After the lease has expired. -/
def Env.late : Env := { Env.fine with now := 100 }

omit hS in
/-- A prepare fails because the lease has expired, which is not left with the write-id; the lease is renewed and the
sync succeeds. -/
theorem prepare_forgotten : ∃ st', Cs.run (fun _ _ _ => true) (opened ++ [(Env.late, .recv 1 somePrepare),
      (Env.late, .leaseRenewed 7), (Env.late, .recv 2 someSync), (Env.late, .perform 0 0),
      (Env.late, .complete 0 true none)]) (Cs.idle (2 ^ 40)) = some st' ∧
    ∃ s ∈ st'.received, s.cmd.isSync = true ∧ (Signal.other s.id, (0 : ℤ)) ∈ st'.signals ∧ ¬ Covered st' s := by
  have hrun : (Cs.run (fun _ _ _ => true) (opened ++ [(Env.late, .recv 1 somePrepare), (Env.late, .leaseRenewed 7),
      (Env.late, .recv 2 someSync), (Env.late, .perform 0 0), (Env.late, .complete 0 true none)])
      (Cs.idle (2 ^ 40))).map (fun st => (decide ((Signal.other 2, (0 : ℤ)) ∈ st.signals) && st.written.isEmpty,
        st.received.map fun op => (op.id, op.cmd.isSync, op.cmd.isPrepare, op.cmd.writeId))) =
      some (true, [(2, true, false, 1), (1, false, true, 1)]) := by
    decide +kernel
  obtain ⟨st', h, he⟩ := Option.map_eq_some_iff.mp hrun
  obtain ⟨hdone, hreceived⟩ := Prod.mk.inj he
  obtain ⟨hsignals, hwritten⟩ := by simpa using hdone
  have hkind : ∀ x ∈ [(2, true, false, (1 : ℤ)), (1, false, true, 1)], ∃ op ∈ st'.received,
      (op.id, op.cmd.isSync, op.cmd.isPrepare, op.cmd.writeId) = x := fun x hx => List.mem_map.mp (hreceived ▸ hx)
  obtain ⟨s, hs, hsk⟩ := hkind (2, true, false, 1) (by simp)
  obtain ⟨p, hp, hpk⟩ := hkind (1, false, true, 1) (by simp)
  simp only [Prod.mk.injEq] at hsk hpk
  refine ⟨st', h, s, hs, hsk.2.1, hsk.1 ▸ hsignals, fun hcov => ?_⟩
  have hmem := hcov p hp hpk.2.2.1 (by omega) (hpk.2.2.2.trans hsk.2.2.2.symm)
  rw [hwritten] at hmem
  cases hmem

end Kfs.Chunk
