import Kfs.Disk.Checkpoint
import Kfs.Layout.Leases
import Kfs.Replay.Seeds

/-!
# Renewing a lease after a restart

`LeaseRenew` takes a lease as it comes during recovery, when its chunk is not in the placement map. The restore of the
checkpoint and the replay of the logs put every chunk of the tree into the map, without leases.

* `restoreLayout`, `replayLayout`, `recover`: the restart with the placement map;
* `Mapped`, **`recover_mapped`**: every chunk of the tree is in the map, and no lease is;
* `RecoveryRun`, `RecoveryRun.unheld`: as long as the server is in recovery a lease comes only with its own renewal,
  and only a deletion takes a chunk out of the map;
* **`LeaseRenew_iff`**: a lease on a chunk of the tree is taken only when the chunk has been taken out of the map.
-/

namespace Kfs

/-! ## The restart -/

/-- The call to `AddChunkToServerMapping` in `restore_chunkinfo`. -/
def restoreMapping (line : Str) (lm : LayoutManager) : LayoutManager :=
  if (line.splitOn '/').headD [] = "chunkinfo".toList then
    match popChunkinfo (line.splitOn '/') with
    | none => lm
    | some ch => lm.AddChunkToServerMapping ch.chunkId ch.id
  else lm

/-- A line of the checkpoint. -/
def restoreLayout (minReplicas : ℤ) : LineParser (Restored × LayoutManager) := fun s line =>
  (restoreLine minReplicas s.1 line).map fun r => (r.1, r.2, restoreMapping line s.2)

/-- The call to `AddChunkToServerMapping` in `replay_allocate`. -/
def replayMapping (env : Env) (fs : Fs) (lm : LayoutManager) : LogRec → LayoutManager
  | .allocate fid offset logChunkId logChunkVersion =>
    match getFattr fs.leaves fid with
    | none => lm
    | some _ =>
      match allocateChunkId fs fid offset logChunkId false with
      | none => lm
      | some (status, cid, chunkVersion, fs) =>
        if status = -EEXIST ∧ chunkVersion = logChunkVersion then lm
        else if (assignChunkId env fs fid offset cid logChunkVersion).1 = 0 then lm.AddChunkToServerMapping cid fid
        else lm
  | _ => lm

/-- The chunks that an operation of the tree has deleted. -/
def deletedChunks (l l' : List Meta) : List ℤ :=
  ((chunks l).map MetaChunkInfo.chunkId).filter fun c => decide (c ∉ (chunks l').map MetaChunkInfo.chunkId)

/-- `DeleteChunk` of each of them. -/
def LayoutManager.DeleteChunks (lm : LayoutManager) (cs : List ℤ) : LayoutManager :=
  cs.foldl (fun lm c => (lm.DeleteChunk c).2) lm

/-- A line of a log. -/
def replayLayout (env : Env) : LineParser (Fs × LayoutManager) := fun s line =>
  (replayLine env s.1 line).map fun r => (r.1, r.2,
    match readLine line with
    | some (some record) => (replayMapping env s.1 s.2 record).DeleteChunks (deletedChunks s.1.leaves r.2.leaves)
    | _ => s.2)

/-- The logs one after the other, each with the clock that it is replayed by. -/
def replayLogs (s : Fs × LayoutManager) : List (Env × Str) → Option (Fs × LayoutManager)
  | [] => some s
  | (env, log) :: logs =>
    match feed (replayLayout env) s (log.splitOn '\n') with
    | some (true, s) => replayLogs s logs
    | _ => none

/-- A start of the server from a checkpoint and the logs since, at the time `now`. -/
def recover (minReplicas : ℤ) (cp : Str) (logs : List (Env × Str)) (now : ℤ) (mMinChunkserversToExitRecovery : ℕ) :
    Option (Fs × LayoutManager) :=
  match feed (restoreLayout minReplicas)
      (emptyRestored, ⟨fun _ => none, 1, [], now, mMinChunkserversToExitRecovery⟩) (cp.splitOn '\n') with
  | some (true, r, lm) => replayLogs (r.fs, lm) logs
  | _ => none

/-! ## The map -/

/-- Every chunk of the tree is in the map, and no entry has a server or a lease. -/
structure Mapped (l : List Meta) (lm : LayoutManager) : Prop where
  known : ∀ c, .chunkinfo c ∈ l → ∃ v, lm.mChunkToServerMap c.chunkId = some v
  idle : ∀ c v, lm.mChunkToServerMap c = some v → v.chunkServers = [] ∧ v.chunkLeases = []

variable {l l' : List Meta} {lm lm' : LayoutManager} {env : Env} {fs fs' : Fs} {minReplicas : ℤ} {chunkId fid : ℤ}

theorem Mapped.sub (h : Mapped l lm) (hs : ∀ c, .chunkinfo c ∈ l' → ∃ d, .chunkinfo d ∈ l ∧ c.chunkId = d.chunkId) :
    Mapped l' lm := by
  refine ⟨fun c hc => ?_, h.idle⟩
  obtain ⟨d, hd, he⟩ := hs c hc
  rw [he]
  exact h.known d hd

theorem Mapped.add (h : Mapped l lm) (hs : ∀ c, .chunkinfo c ∈ l' →
    c.chunkId = chunkId ∨ ∃ d, .chunkinfo d ∈ l ∧ c.chunkId = d.chunkId) :
    Mapped l' (lm.AddChunkToServerMapping chunkId fid) := by
  unfold LayoutManager.AddChunkToServerMapping
  constructor
  · intro c hc
    by_cases he : c.chunkId = chunkId
    · rw [he]
      exact ⟨_, LayoutManager.set_self _⟩
    · obtain ⟨d, hd, hid⟩ := (hs c hc).resolve_left he
      rw [LayoutManager.set_of_ne _ he, hid]
      exact h.known d hd
  · intro c v hv
    by_cases he : c = chunkId
    · subst he
      rw [LayoutManager.set_self] at hv
      obtain rfl := Option.some.inj hv
      exact ⟨rfl, rfl⟩
    · rw [LayoutManager.set_of_ne _ he] at hv
      exact h.idle c v hv

/-- No server has a chunk, so that nothing is deleted from the map. -/
theorem Mapped.deleteChunks (h : Mapped l lm) (cs : List ℤ) : lm.DeleteChunks cs = lm := by
  induction cs with
  | nil => rfl
  | cons c cs ih =>
    have hdel : (lm.DeleteChunk c).2 = lm := by
      unfold LayoutManager.DeleteChunk
      cases hc : lm.mChunkToServerMap c with
      | none => rfl
      | some v => simp [(h.idle c v hc).1]
    change (lm.DeleteChunk c).2.DeleteChunks cs = lm
    rw [hdel]
    exact ih

/-! ## The checkpoint -/

/-- The chunks after a line are those before it. -/
def SameChunks (s s' : Restored) : Prop := chunks s'.fs.leaves = chunks s.fs.leaves

theorem restore_chunkinfo_chunks {s s' : Restored} {cs : List Str} (h : restore_chunkinfo s cs = some (true, s'))
    {c : MetaChunkInfo} (hc : .chunkinfo c ∈ s'.fs.leaves) :
    .chunkinfo c ∈ s.fs.leaves ∨ popChunkinfo cs = some c := by
  unfold restore_chunkinfo at h
  rcases hp : popChunkinfo cs with - | ch
  · simp [hp] at h
  simp only [hp] at h
  rcases hf : getFattr (Leaves.insert s.fs.leaves (.chunkinfo ch)) ch.id with - | f
  · simp [hf] at h
  simp only [hf, Option.some.injEq, Prod.mk.injEq, true_and] at h
  subst h
  -- the count is in the attributes
  have hcount : chunks (Leaves.update (Leaves.insert s.fs.leaves (.chunkinfo ch)) ⟨.fattr, ch.id, 0⟩ Meta.countChunk) =
      chunks (Leaves.insert s.fs.leaves (.chunkinfo ch)) := by
    refine chunks_update fun x _ hk => ?_
    obtain ⟨f, rfl, -⟩ := (eqv_fattr x _).mp hk
    exact ⟨rfl, trivial⟩
  have hm : .chunkinfo c ∈ Leaves.insert s.fs.leaves (.chunkinfo ch) := by
    rw [← mem_chunks, ← hcount]
    exact mem_chunks.mpr hc
  rcases Leaves.mem_insert.mp hm with he | hm
  · obtain rfl := Meta.chunkinfo.inj he
    exact .inr rfl
  · exact .inl hm

/-- The other handlers of the checkpoint. -/
theorem restoreTable_sameChunks {type : Str} {g : Restored → List Str → Option (Bool × Restored)}
    (hg : restoreTable minReplicas type = some g) (ht : type ≠ "chunkinfo".toList) {s s' : Restored} {cs : List Str}
    (h : g s cs = some (true, s')) : SameChunks s s' := by
  unfold restoreTable at hg
  split_ifs at hg
  all_goals obtain rfl := Option.some.inj hg
  · unfold checkpoint_seq at h
    rcases hp : popNumber cs with - | n
    · simp [hp] at h
    · obtain ⟨-, rfl⟩ : 0 ≤ n ∧ { s with seqno := n } = s' := by simpa [hp] using h
      rfl
  · obtain ⟨-, rfl⟩ : popNumber cs = some 1 ∧ s = s' := by
      simpa [checkpoint_version, Integers.int] using h
    rfl
  · unfold checkpoint_fid at h
    rcases hp : popNumber cs with - | n
    · simp [hp] at h
    · obtain ⟨-, rfl⟩ : 0 < n ∧ { s with fs := { s.fs with fileID := n } } = s' := by simpa [hp] using h
      rfl
  · unfold checkpoint_chunkId at h
    rcases hp : popNumber cs with - | n
    · simp [hp] at h
    · obtain ⟨-, rfl⟩ : 0 < n ∧ { s with fs := { s.fs with chunkID := n } } = s' := by simpa [hp] using h
      rfl
  · obtain ⟨-, rfl⟩ : cs.tail ≠ [] ∧ s = s' := by simpa [checkpoint_time] using h
    rfl
  · simp only [checkpoint_log, Option.some.injEq, Prod.mk.injEq, true_and] at h
    exact h ▸ rfl
  · unfold restoreVersionInc restore_chunkVersionInc at h
    generalize cs.tail = rest at h
    rcases rest with - | ⟨n, rest⟩
    · simp at h
    · simp only [Option.map_some, Option.some.injEq, Prod.mk.injEq] at h
      exact h.2 ▸ rfl
  · unfold restore_dentry at h
    rcases hp : popDentry cs with - | d
    · simp [hp] at h
    · obtain rfl : s.insert (.dentry d) = s' := by simpa [hp] using h
      exact chunks_insert_dentry _ d
  · unfold restore_fattr at h
    rcases hp : popFattr minReplicas cs with - | f
    · simp [hp] at h
    · obtain rfl : s.insert (.fattr f) = s' := by simpa [hp] using h
      exact chunks_insert_fattr _ f

/-- Every line of the checkpoint puts the chunk that it inserts into the map. -/
theorem restoreLayout_mapped {s s' : Restored × LayoutManager} {line : Str} (h : Mapped s.1.fs.leaves s.2)
    (hr : restoreLayout minReplicas s line = some (true, s')) : Mapped s'.1.fs.leaves s'.2 := by
  obtain ⟨r', hl, rfl⟩ : ∃ r', restoreLine minReplicas s.1 line = some (true, r') ∧
      s' = (r', restoreMapping line s.2) := by
    unfold restoreLayout at hr
    rcases hl : restoreLine minReplicas s.1 line with - | ⟨b, r'⟩
    · simp [hl] at hr
    · simp only [hl, Option.map_some, Option.some.injEq, Prod.mk.injEq] at hr
      obtain ⟨rfl, rfl⟩ := hr
      exact ⟨r', rfl, rfl⟩
  unfold restoreLine parseEntry at hl
  unfold restoreMapping
  dsimp only
  split_ifs at hl with hempty
  · obtain rfl : s.1 = r' := by simpa using hl
    subst hempty
    exact h
  generalize line.splitOn '/' = cs at hl ⊢
  rcases hg : restoreTable minReplicas (cs.headD []) with - | g
  · rw [hg] at hl
    simp at hl
  rw [hg] at hl
  dsimp only at hl
  split_ifs with ht
  · obtain rfl : restore_chunkinfo = g := by
      rw [ht] at hg
      exact Option.some.inj hg
    have hcs := fun c => restore_chunkinfo_chunks (c := c) hl
    rcases hp : popChunkinfo cs with - | ch
    · simp [restore_chunkinfo, hp] at hl
    · refine h.add fun c hc => ?_
      rcases hcs c hc with hc | he
      · exact .inr ⟨c, hc, rfl⟩
      · rw [hp, Option.some.injEq] at he
        exact .inl (congrArg MetaChunkInfo.chunkId he.symm)
  · have hsame := restoreTable_sameChunks hg ht hl
    refine h.sub fun c hc => ⟨c, ?_, rfl⟩
    rw [← mem_chunks, ← hsame]
    exact mem_chunks.mpr hc

/-! ## The logs -/

/-- A record that is no allocation leaves no chunk that was not there. -/
theorem redo_chunks {r : LogRec} (hr : redo env fs r = some (true, fs')) (hn : r.newChunk = none)
    {c : MetaChunkInfo} (hc : .chunkinfo c ∈ fs'.leaves) : .chunkinfo c ∈ fs.leaves := by
  have hnew : ∀ {res : Option (ℤ × ℤ × Fs)}, (∀ st id fs₁, res = some (st, id, fs₁) → NameEdits fs fs₁) →
      redoNew res = some (true, fs') → .chunkinfo c ∈ fs.leaves := by
    intro res hop hres
    rcases res with - | ⟨st, id, fs₁⟩
    · simp [redoNew] at hres
    have he := hop st id fs₁ rfl
    simp only [redoNew] at hres
    split_ifs at hres
    · simp only [Option.map_eq_some_iff, Prod.mk.injEq, true_and] at hres
      obtain ⟨seed, -, rfl⟩ := hres
      exact he.edits.chunk hc
    · simp at hres
  cases r with
  | create dir name fid n => exact hnew (fun st id fs₁ h => create_edits h) hr
  | mkdir dir name fid => exact hnew (fun st id fs₁ h => mkdir_edits h) hr
  | remove dir name => exact (removeF_edits env 2 (redoStatus_eq hr)).edits.chunk hc
  | rmdir dir name => exact (rmdir_edits (redoStatus_eq hr)).edits.chunk hc
  | rename dir oldname newname =>
    exact (renameWith_edits (removeF_edits env 2) (redoStatus_eq hr)).edits.chunk hc
  | allocate fid offset cid v => simp [LogRec.newChunk] at hn
  | truncate fid offset =>
    rcases ht : truncate env fs fid offset with - | ⟨st, a, fs₁⟩
    · simp [redo, ht] at hr
    · obtain ⟨-, rfl⟩ : st = 0 ∧ fs₁ = fs' := by simpa [redo, ht] using hr
      exact (truncate_edits ht).edits.chunk hc
  | chunkVersionInc n =>
    obtain ⟨-, rfl⟩ : 1 ≤ n ∧ { fs with chunkVersionInc := n } = fs' := by simpa [redo] using hr
    exact hc

theorem redoAssign_leaves {offset cid v : ℤ} (hr : redoAssign env fs fid offset cid v = some (true, fs')) :
    (assignChunkId env fs fid offset cid v).1 = 0 ∧
      fs'.leaves = (assignChunkId env fs fid offset cid v).2.leaves := by
  unfold redoAssign at hr
  rcases ha : assignChunkId env fs fid offset cid v with ⟨st, fs₁⟩
  simp only [ha] at hr
  split_ifs at hr with h0 hlt
  · simp only [Option.map_eq_some_iff, Prod.mk.injEq, true_and] at hr
    obtain ⟨seed, -, rfl⟩ := hr
    exact ⟨h0, rfl⟩
  · obtain rfl : fs₁ = fs' := by simpa using hr
    exact ⟨h0, rfl⟩
  · simp at hr

/-- An allocation that is redone puts its chunk into the map. -/
theorem redoAllocate_mapped {offset cid v : ℤ} (h : Mapped fs.leaves lm)
    (hr : redoAllocate env fs fid offset cid v = some (true, fs')) :
    Mapped fs'.leaves (replayMapping env fs lm (.allocate fid offset cid v)) := by
  unfold redoAllocate at hr
  unfold replayMapping
  dsimp only
  rcases hf : getFattr fs.leaves fid with - | fa
  · obtain rfl : fs = fs' := by simpa [hf] using hr
    exact h
  simp only [hf] at hr ⊢
  rcases ha : allocateChunkId fs fid offset cid false with - | ⟨st, cid₁, v₁, fs₁⟩
  · simp [ha] at hr
  simp only [ha] at hr ⊢
  have hl₁ : fs₁.leaves = fs.leaves := by
    rcases allocateChunkId_redo hf ha with ⟨-, -, -, -, rfl⟩ | ⟨-, -, rfl | rfl⟩
    all_goals rfl
  by_cases hsame : st = -EEXIST ∧ v₁ = v
  · rw [if_pos hsame] at hr ⊢
    obtain rfl : fs₁ = fs' := by simpa using hr
    rwa [hl₁]
  · rw [if_neg hsame] at hr ⊢
    split_ifs at hr with hst hid
    · obtain ⟨h0, hl⟩ := redoAssign_leaves hr
      rw [if_pos h0]
      refine h.add fun c hc => ?_
      rw [hl] at hc
      obtain ⟨-, -, hids⟩ := assignChunkId_ids (Prod.mk.eta (p := assignChunkId env fs₁ fid offset cid₁ v)).symm
      rw [hl₁] at hids
      exact hids c hc
    · simp at hr

/-- Every line of a log keeps the chunks in the map. -/
theorem replayLayout_mapped {s s' : Fs × LayoutManager} {line : Str} (h : Mapped s.1.leaves s.2)
    (hr : replayLayout env s line = some (true, s')) : Mapped s'.1.leaves s'.2 := by
  unfold replayLayout at hr
  have hread := replayLine_readAs env s.1 line
  rcases hl : replayLine env s.1 line with - | ⟨b, fs'⟩
  · simp [hl] at hr
  simp only [hl, Option.map_some, Option.some.injEq, Prod.mk.injEq] at hr
  obtain ⟨rfl, rfl⟩ := hr
  rcases hrec : readLine line with - | - | record
  · rw [hrec] at hread
    exact absurd hl (hread fs')
  · rw [hrec, ReadAs, hl, Option.some.injEq, Prod.mk.injEq] at hread
    rw [hread.2]
    exact h
  · rw [hrec, ReadAs, hl] at hread
    dsimp only
    have hm : Mapped fs'.leaves (replayMapping env s.1 s.2 record) := by
      by_cases hn : record.newChunk = none
      · have hid : replayMapping env s.1 s.2 record = s.2 := by
          cases record
          all_goals first | rfl | simp [LogRec.newChunk] at hn
        rw [hid]
        exact h.sub fun c hc => ⟨c, redo_chunks hread.symm hn hc, rfl⟩
      · cases record with
        | allocate fid offset cid v => exact redoAllocate_mapped h hread.symm
        | _ => exact absurd rfl hn
    rw [hm.deleteChunks]
    exact hm

/-- What every accepted line keeps is kept by the file. -/
theorem feed_induct {σ : Type} {parse : LineParser σ} {P : σ → Prop}
    (hstep : ∀ s line s', P s → parse s line = some (true, s') → P s') :
    ∀ {lines : List Str} {s s' : σ}, P s → feed parse s lines = some (true, s') → P s'
  | [], s, s', h, hf => by
    obtain rfl : s = s' := by simpa [feed] using hf
    exact h
  | line :: lines, s, s', h, hf => by
    rw [feed] at hf
    split_ifs at hf
    · rcases hp : parse s (cstring line) with - | ⟨- | -, s₁⟩
      · simp [hp] at hf
      · simp [hp] at hf
      · simp only [hp] at hf
        exact feed_induct hstep (hstep s _ s₁ h hp) hf
    · rcases hp : parse s (cstring (line.take (MAXLINE - 1))) with - | ⟨- | -, s₁⟩
      · simp [hp] at hf
      · simp [hp] at hf
      · simp [hp] at hf

theorem replayLogs_mapped : ∀ {logs : List (Env × Str)} {s s' : Fs × LayoutManager}, Mapped s.1.leaves s.2 →
    replayLogs s logs = some s' → Mapped s'.1.leaves s'.2
  | [], s, s', h, hr => by
    obtain rfl : s = s' := by simpa [replayLogs] using hr
    exact h
  | (env, log) :: logs, s, s', h, hr => by
    rw [replayLogs] at hr
    rcases hf : feed (replayLayout env) s (log.splitOn '\n') with - | ⟨- | -, s₁⟩
    · simp [hf] at hr
    · simp [hf] at hr
    · simp only [hf] at hr
      exact replayLogs_mapped (feed_induct (P := fun s => Mapped s.1.leaves s.2)
        (fun s line s' => replayLayout_mapped) h hf) hr

/-- **After a restart every chunk of the tree is in the map, and no lease is.** -/
theorem recover_mapped {cp : Str} {logs : List (Env × Str)} {now : ℤ} {servers : ℕ}
    (h : recover minReplicas cp logs now servers = some (fs, lm)) : Mapped fs.leaves lm := by
  unfold recover at h
  rcases hf : feed (restoreLayout minReplicas) (emptyRestored, ⟨fun _ => none, 1, [], now, servers⟩)
    (cp.splitOn '\n') with - | ⟨- | -, r, lm₁⟩
  · simp [hf] at h
  · simp [hf] at h
  · simp only [hf] at h
    have hempty : Mapped emptyRestored.fs.leaves ⟨fun _ => none, 1, [], now, servers⟩ := by
      refine ⟨fun c hc => ?_, fun c v hv => by simp at hv⟩
      simp [emptyRestored] at hc
    have hm : Mapped r.fs.leaves lm₁ := feed_induct (P := fun s : Restored × LayoutManager => Mapped s.1.fs.leaves s.2)
      (fun s line s' => restoreLayout_mapped) hempty hf
    exact replayLogs_mapped hm h

/-! ## The recovery -/

/-- The events that take a chunk out of the map. -/
def LayoutEv.Drops (c : ℤ) : LayoutEv → Prop
  | .RemoveChunkToServerMapping chunkId | .DeleteChunk chunkId => chunkId = c
  | _ => False

/-- The events that may give a chunk the lease: its first allocation, which is over when the chunk is in the tree, and
the renewal of the lease. -/
def LayoutEv.Leases (c leaseId : ℤ) : LayoutEv → Prop
  | .AllocateChunk chunkId _ _ _ => chunkId = c
  | .LeaseRenew chunkId _ id => chunkId = c ∧ id = leaseId
  | _ => False

/-- What happens while the server is in recovery, up to the first renewal of the lease. -/
inductive RecoveryRun (c leaseId : ℤ) (lm₀ : LayoutManager) : List LayoutEv → LayoutManager → Prop
  | nil : RecoveryRun c leaseId lm₀ [] lm₀
  | step {es : List LayoutEv} {lm : LayoutManager} (e : LayoutEv) (t : ℕ → ℤ) : RecoveryRun c leaseId lm₀ es lm →
      lm.InRecovery (t 0) = true → ¬ e.Leases c leaseId → RecoveryRun c leaseId lm₀ (es ++ [e]) (lm.apply t e)

/-- One of these is the lease. -/
def Listed (leaseId : ℤ) (ls : List LeaseInfo) : Prop := ∃ l ∈ ls, l.leaseId = leaseId

/-- What such an event does to the entry of a chunk: the lease is not added, and only a deletion takes the entry
away. -/
structure EntryStep (c leaseId : ℤ) (drops : Prop) (lm lm' : LayoutManager) : Prop where
  listed : ∀ v', lm'.mChunkToServerMap c = some v' → Listed leaseId v'.chunkLeases →
    ∃ v, lm.mChunkToServerMap c = some v ∧ Listed leaseId v.chunkLeases
  absent : lm'.mChunkToServerMap c = none → drops ∨ lm.mChunkToServerMap c = none

variable {c leaseId : ℤ} {leaseType : LeaseType} {t : ℕ → ℤ} {drops : Prop}

theorem Listed.mono {ls ls' : List LeaseInfo} (h : Listed leaseId ls) (hsub : ls ⊆ ls') : Listed leaseId ls' := by
  obtain ⟨l, hl, hid⟩ := h
  exact ⟨l, hsub hl, hid⟩

/-- A renewal changes no id. -/
theorem listed_renewLease {id expires : ℤ} {ls : List LeaseInfo}
    (h : Listed leaseId (LayoutManager.renewLease id expires ls)) : Listed leaseId ls := by
  induction ls with
  | nil => exact h
  | cons l ls ih =>
    obtain ⟨l', hl', hid⟩ := h
    rw [LayoutManager.renewLease] at hl'
    split_ifs at hl' with heq
    · rcases List.mem_cons.mp hl' with rfl | hl'
      · exact ⟨l, List.mem_cons_self, hid⟩
      · exact ⟨l', List.mem_cons_of_mem _ hl', hid⟩
    · rcases List.mem_cons.mp hl' with rfl | hl'
      · exact ⟨l', List.mem_cons_self, hid⟩
      · exact (ih ⟨l', hl', hid⟩).mono (List.subset_cons_self _ _)

theorem EntryStep.of_eq (h : lm'.mChunkToServerMap c = lm.mChunkToServerMap c) : EntryStep c leaseId drops lm lm' :=
  ⟨fun v hv hl => ⟨v, h ▸ hv, hl⟩, fun hn => .inr (h ▸ hn)⟩

theorem EntryStep.set {chunkId : ℤ} {v' : ChunkPlacementInfo} (hmap : lm'.mChunkToServerMap = lm.mChunkToServerMap)
    (hv : chunkId = c → Listed leaseId v'.chunkLeases →
      ∃ v, lm.mChunkToServerMap c = some v ∧ Listed leaseId v.chunkLeases) :
    EntryStep c leaseId drops lm (lm'.set chunkId v') := by
  by_cases he : c = chunkId
  · subst he
    refine ⟨fun v hs hl => ?_, fun hn => ?_⟩
    · obtain rfl : v' = v := Option.some.inj ((LayoutManager.set_self v').symm.trans hs)
      exact hv rfl hl
    · exact absurd ((LayoutManager.set_self v').symm.trans hn) (by simp)
  · refine .of_eq ?_
    rw [LayoutManager.set_of_ne v' he, hmap]

theorem EntryStep.erase {chunkId : ℤ} (hd : chunkId = c → drops) :
    EntryStep c leaseId drops lm (lm.erase chunkId) := by
  by_cases he : c = chunkId
  · refine ⟨fun v hs => ?_, fun _ => .inl (hd he.symm)⟩
    subst he
    exact absurd ((Function.update_self _ _ _).symm.trans hs) (by simp)
  · exact .of_eq (Function.update_of_ne he _ _)

/-- During recovery no lease is issued, and only leases that are renewed are taken. -/
theorem apply_entryStep (e : LayoutEv) (hrec : lm.InRecovery (t 0) = true) (he : ¬ e.Leases c leaseId) :
    EntryStep c leaseId (e.Drops c) lm (lm.apply t e) := by
  cases e with
  | AllocateChunk chunkId fid n servers =>
    change EntryStep c leaseId _ lm (lm.AllocateChunk chunkId fid n servers t).2
    unfold LayoutManager.AllocateChunk
    split_ifs
    · exact .of_eq rfl
    · cases servers with
      | nil => exact .of_eq rfl
      | cons master servers => exact .set rfl fun hc => absurd hc he
  | GetChunkWriteLease chunkId hasSpace =>
    change EntryStep c leaseId _ lm (lm.GetChunkWriteLease chunkId hasSpace t).2
    rw [LayoutManager.GetChunkWriteLease, if_pos hrec]
    exact .of_eq rfl
  | GetChunkReadLease chunkId =>
    change EntryStep c leaseId _ lm (lm.GetChunkReadLease chunkId t).2.2
    rw [LayoutManager.GetChunkReadLease, if_pos hrec]
    exact .of_eq rfl
  | LeaseRenew chunkId ty id =>
    change EntryStep c leaseId _ lm (lm.LeaseRenew chunkId ty id t).2
    unfold LayoutManager.LeaseRenew
    rcases hw : lm.mChunkToServerMap chunkId with - | w
    · -- another lease is taken as it comes
      simp only [hrec, if_true]
      refine .set rfl fun hc hl => ?_
      obtain ⟨l, hl, hid⟩ := hl
      rw [List.mem_singleton.mp hl] at hid
      exact absurd ⟨hc, hid⟩ he
    · rcases hl : w.chunkLeases.find? fun l => decide (l.leaseId = id) with - | l
      · simp only [hl]
        exact .of_eq rfl
      · simp only [hl]
        split_ifs
        · exact .of_eq rfl
        · exact .set rfl fun hc hl => ⟨w, hc ▸ hw, listed_renewLease hl⟩
  | LeaseCleanup =>
    change EntryStep c leaseId _ lm (lm.LeaseCleanup t)
    rcases hv : lm.mChunkToServerMap c with - | v
    · exact .of_eq (by simp [LayoutManager.LeaseCleanup, hv])
    · refine ⟨fun v' hv' hl => ⟨v, hv, hl.mono ?_⟩, fun hn => ?_⟩
      · obtain rfl : { v with chunkLeases := v.chunkLeases.filter fun l => decide (t 0 < l.expires) } = v' := by
          simpa [LayoutManager.LeaseCleanup, hv] using hv'
        exact List.filter_sublist.subset
      · simp [LayoutManager.LeaseCleanup, hv] at hn
  | ServerDown server =>
    change EntryStep c leaseId _ lm (lm.ServerDown server)
    unfold LayoutManager.ServerDown
    split_ifs
    · rcases hv : lm.mChunkToServerMap c with - | v
      · exact .of_eq (by simp [hv])
      · refine ⟨fun v' hv' hl => ⟨v, hv, hl.mono ?_⟩, fun hn => ?_⟩
        · obtain rfl : { v with chunkServers := v.chunkServers.filter fun s => decide (s ≠ server) } = v' := by
            simpa [hv] using hv'
          exact List.Subset.refl _
        · simp [hv] at hn
    · exact .of_eq rfl
  | join server => exact .of_eq rfl
  | UpdateChunkToServerMapping chunkId server =>
    change EntryStep c leaseId _ lm ((lm.UpdateChunkToServerMapping chunkId server).getD lm)
    unfold LayoutManager.UpdateChunkToServerMapping
    rcases hw : lm.mChunkToServerMap chunkId with - | w
    · exact .of_eq rfl
    · exact .set rfl fun hc hl => ⟨w, hc ▸ hw, hl⟩
  | AddChunkToServerMapping chunkId fid =>
    refine .set rfl fun _ hl => ?_
    obtain ⟨l, hl, -⟩ := hl
    exact absurd hl List.not_mem_nil
  | RemoveChunkToServerMapping chunkId => exact .erase id
  | DeleteChunk chunkId =>
    change EntryStep c leaseId _ lm (lm.DeleteChunk chunkId).2
    unfold LayoutManager.DeleteChunk
    rcases lm.mChunkToServerMap chunkId with - | v
    · exact .of_eq rfl
    · dsimp only
      split_ifs
      · exact .of_eq rfl
      · exact .erase id
  | ChunkCorrupt server fid chunkId =>
    change EntryStep c leaseId _ lm (lm.ChunkCorrupt server fid chunkId)
    unfold LayoutManager.ChunkCorrupt
    rcases hw : lm.mChunkToServerMap chunkId with - | w
    · exact .of_eq rfl
    · dsimp only
      split_ifs
      · exact .of_eq rfl
      · exact .set rfl fun hc hl => ⟨w, hc ▸ hw, hl⟩

/-- The chunk does not have the lease, and it is in the map unless it has been deleted. -/
theorem RecoveryRun.unheld {lm₀ : LayoutManager} {es : List LayoutEv} (hrun : RecoveryRun c leaseId lm₀ es lm)
    (h : ∃ v, lm₀.mChunkToServerMap c = some v ∧ v.chunkLeases = []) :
    (∀ v, lm.mChunkToServerMap c = some v → ¬ Listed leaseId v.chunkLeases) ∧
      (lm.mChunkToServerMap c = none → ∃ e ∈ es, e.Drops c) := by
  induction hrun with
  | nil =>
    obtain ⟨v, hv, hl⟩ := h
    refine ⟨fun w hw => ?_, fun hn => by simp [hv] at hn⟩
    obtain rfl : v = w := Option.some.inj (hv.symm.trans hw)
    rintro ⟨l, hmem, -⟩
    rw [hl] at hmem
    exact absurd hmem List.not_mem_nil
  | step e t _ hrec he ih =>
    have hstep := apply_entryStep e hrec he
    refine ⟨fun v' hv' hl => ?_, fun hn => ?_⟩
    · obtain ⟨v, hv, hl⟩ := hstep.listed v' hv' hl
      exact ih.1 v hv hl
    · rcases hstep.absent hn with hd | hn
      · exact ⟨e, by simp, hd⟩
      · obtain ⟨d, hd, hdr⟩ := ih.2 hn
        exact ⟨d, List.mem_append_left _ hd, hdr⟩

/-! ## The renewal -/

/-- The renewal of a lease is taken, and the lease is there afterwards. -/
def LeaseRecovered (lm : LayoutManager) (chunkId : ℤ) (leaseType : LeaseType) (leaseId : ℤ) (t : ℕ → ℤ) : Prop :=
  (lm.LeaseRenew chunkId leaseType leaseId t).1 = 0 ∧
    ∃ v, (lm.LeaseRenew chunkId leaseType leaseId t).2.mChunkToServerMap chunkId = some v ∧
      Listed leaseId v.chunkLeases

/-- An entry without the lease has nothing to renew. -/
theorem LeaseRenew_unlisted {v : ChunkPlacementInfo} (hv : lm.mChunkToServerMap c = some v)
    (hl : ¬ Listed leaseId v.chunkLeases) : lm.LeaseRenew c leaseType leaseId t = (-EINVAL, lm) := by
  have hfind : v.chunkLeases.find? (fun l => decide (l.leaseId = leaseId)) = none := by
    rw [List.find?_eq_none]
    exact fun l hmem hid => hl ⟨l, hmem, of_decide_eq_true hid⟩
  unfold LayoutManager.LeaseRenew
  simp only [hv, hfind]

theorem not_leaseRecovered {v : ChunkPlacementInfo} (hv : lm.mChunkToServerMap c = some v)
    (hl : ¬ Listed leaseId v.chunkLeases) : ¬ LeaseRecovered lm c leaseType leaseId t := by
  rintro ⟨h0, -⟩
  rw [LeaseRenew_unlisted hv hl] at h0
  change -EINVAL = 0 at h0
  exact absurd h0 (by decide)

/-- During recovery a lease on a chunk that is not in the map is taken as it comes. -/
theorem leaseRecovered_absent (hn : lm.mChunkToServerMap c = none) (hrec : lm.InRecovery (t 0) = true) :
    LeaseRecovered lm c leaseType leaseId t := by
  unfold LeaseRecovered LayoutManager.LeaseRenew
  simp only [hn, hrec, if_true, LayoutManager.set_self, Option.some.injEq, exists_eq_left', true_and]
  exact ⟨_, List.mem_singleton_self _, rfl⟩

/-- **The first renewal of every lease on a chunk of the restored tree is taken exactly when the chunk is not in the
map**, and it is not there only when it has been deleted since. -/
theorem LeaseRenew_iff {cp : Str} {logs : List (Env × Str)} {now : ℤ} {servers : ℕ} {lm₀ : LayoutManager}
    {ch : MetaChunkInfo} {es : List LayoutEv} (h : recover minReplicas cp logs now servers = some (fs, lm₀))
    (hc : .chunkinfo ch ∈ fs.leaves) (hrun : RecoveryRun ch.chunkId leaseId lm₀ es lm)
    (hrec : lm.InRecovery (t 0) = true) :
    (LeaseRecovered lm ch.chunkId leaseType leaseId t ↔ lm.mChunkToServerMap ch.chunkId = none) ∧
      (lm.mChunkToServerMap ch.chunkId = none → ∃ e ∈ es, e.Drops ch.chunkId) := by
  have hm := recover_mapped h
  have h₀ : ∃ v, lm₀.mChunkToServerMap ch.chunkId = some v ∧ v.chunkLeases = [] := by
    obtain ⟨v, hv⟩ := hm.known ch hc
    exact ⟨v, hv, (hm.idle _ v hv).2⟩
  obtain ⟨hunheld, hdropped⟩ := hrun.unheld h₀
  refine ⟨⟨fun hl => ?_, fun hn => leaseRecovered_absent hn hrec⟩, hdropped⟩
  rcases hv : lm.mChunkToServerMap ch.chunkId with - | v
  · rfl
  · exact absurd hl (not_leaseRecovered hv (hunheld v hv))

/-- A checkpoint with a file that has a chunk. -/
def oneChunk : Str :=
  ("fattr/file/id/5/chunkcount/1/numReplicas/1/mtime/0/0/ctime/0/0/crtime/0/0\n" ++
    "chunkinfo/fid/5/chunkid/7/offset/0/chunkVersion/1").toList

theorem oneChunk_recover : ∃ fs lm, recover 1 oneChunk [] 100 1 = some (fs, lm) ∧
    .chunkinfo ⟨5, 0, 7, 1⟩ ∈ fs.leaves ∧ lm.InRecovery 101 = true ∧
    (lm.apply (fun _ => 101) (.LeaseRenew 7 .read 2)).InRecovery 102 = true := by
  have hr : (recover 1 oneChunk [] 100 1).map (fun s => (s.1.leaves, s.2.InRecovery 101,
        (s.2.apply (fun _ => 101) (.LeaseRenew 7 .read 2)).InRecovery 102)) =
      some ([.fattr ⟨5, .file, 1, ⟨0, 0⟩, ⟨0, 0⟩, ⟨0, 0⟩, 1, -1⟩, .chunkinfo ⟨5, 0, 7, 1⟩], true, true) := by
    decide +kernel
  obtain ⟨⟨fs, lm⟩, hs, hl⟩ := Option.map_eq_some_iff.mp hr
  obtain ⟨hleaves, hrec⟩ := Prod.mk.inj hl
  refine ⟨fs, lm, hs, ?_, Prod.mk.inj hrec⟩
  dsimp only at hleaves
  rw [hleaves]
  decide

/-- The first renewal of a lease on the chunk, one second after that of another one. -/
theorem LeaseRenew_iff_oneChunk : ∃ fs lm, recover 1 oneChunk [] 100 1 = some (fs, lm) ∧
    .chunkinfo ⟨5, 0, 7, 1⟩ ∈ fs.leaves ∧ (lm.apply (fun _ => 101) (.LeaseRenew 7 .read 2)).InRecovery 102 = true ∧
    (LeaseRecovered (lm.apply (fun _ => 101) (.LeaseRenew 7 .read 2)) 7 .read 3 (fun _ => 102) ↔
      (lm.apply (fun _ => 101) (.LeaseRenew 7 .read 2)).mChunkToServerMap 7 = none) := by
  obtain ⟨fs, lm, hr, hc, hrec, hrec'⟩ := oneChunk_recover
  have hlease : ¬ (LayoutEv.LeaseRenew 7 .read 2).Leases 7 3 := fun h => absurd h.2 (by decide)
  exact ⟨fs, lm, hr, hc, hrec', (LeaseRenew_iff (t := fun _ => 102) hr hc (.step _ _ .nil hrec hlease) hrec').1⟩

/-- The server is in recovery, the chunk is in the tree, and the renewal is answered with `-EINVAL`. -/
theorem LeaseRenew_oneChunk : ∃ fs lm, recover 1 oneChunk [] 100 1 = some (fs, lm) ∧
    .chunkinfo ⟨5, 0, 7, 1⟩ ∈ fs.leaves ∧ lm.InRecovery 101 = true ∧
    (lm.LeaseRenew 7 .write 3 fun _ => 101).1 = -EINVAL ∧ ¬ LeaseRecovered lm 7 .write 3 (fun _ => 101) := by
  obtain ⟨fs, lm, hr, hc, hrec, -⟩ := oneChunk_recover
  have hm := recover_mapped hr
  obtain ⟨v, hv⟩ := hm.known _ hc
  have hl : ¬ Listed 3 v.chunkLeases := by
    rintro ⟨l, hmem, -⟩
    rw [(hm.idle _ v hv).2] at hmem
    exact absurd hmem List.not_mem_nil
  exact ⟨fs, lm, hr, hc, hrec, congrArg Prod.fst (LeaseRenew_unlisted hv hl), not_leaseRecovered hv hl⟩

end Kfs
