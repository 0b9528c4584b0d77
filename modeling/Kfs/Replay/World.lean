import Kfs.Replay.Seeds
import Kfs.Disk.Checkpoint

/-!
# Crashes and recoveries

The metadata server together with what is on disk: the last checkpoint and the records logged since. A
crash loses the server and the records that it has not written yet; a restart restores the checkpoint and
replays the log; the log compactor does the same with a part of the log and leaves a new checkpoint.

* `World`, `World.step`, `World.run`;
* `World.Sound`: the ids on disk can be recovered, the ids in memory are below the seeds;
* **`logged_ids_not_reissued`**: when recovery passes over no new chunk id, an id in a logged record is not
  handed out again, by any server, ever.
-/

namespace Kfs

/-- The server and the disk. `issued` is history: every record that has reached the disk. -/
structure World where
  live : Option Sys
  cp : Fs
  log : List LogRec
  buffer : List LogRec
  issued : List LogRec
  deriving DecidableEq

variable {fs fs' : Fs} {s : Sys} {w w' : World}

inductive WorldEv
  /-- the server handles a request; it dies if the handler does -/
  | serve (e : Event)
  /-- the first `n` records that wait in memory are written -/
  | flush (n : ℕ)
  | crash
  /-- the log compactor replays the first `n` records on disk and writes a checkpoint -/
  | compact (env : Env) (n : ℕ)
  /-- the server is started -/
  | restart (env : Env) (minReplicas : ℤ)

def Meta.restored (minReplicas : ℤ) (cs : List MetaChunkInfo) : Meta → Meta
  | .fattr f => .fattr (f.restored minReplicas cs)
  | m => m

/-- What `Restorer::rebuild` makes of a checkpoint of `fs`, up to the order of the items
(`rebuild_checkpoint`). -/
def Fs.restored (minReplicas : ℤ) (fs : Fs) : Fs :=
  { fs with leaves := fs.leaves.map (Meta.restored minReplicas (chunks fs.leaves)), counter := 1 }

/-- One step; `none` when it is not enabled, and when recovery fails. -/
def World.step (w : World) : WorldEv → Option World
  | .serve e =>
    match w.live with
    | none => none
    | some s =>
      match handle e.worm e.env s e.req with
      | none => some { w with live := none, buffer := [] }
      | some o => some { w with live := some o.sys, buffer := w.buffer ++ o.log }
  | .flush n =>
    some { w with
      log := w.log ++ w.buffer.take n
      buffer := w.buffer.drop n
      issued := w.issued ++ w.buffer.take n }
  | .crash => some { w with live := none, buffer := [] }
  | .compact env n =>
    match redoAll env (w.cp.restored 1) (w.log.take n) with
    | some (true, fs) => some { w with cp := fs, log := w.log.drop n }
    | _ => none
  | .restart env minReplicas =>
    if w.live.isSome then none
    else
      match redoAll env (w.cp.restored minReplicas) w.log with
      | some (true, fs) => some { w with live := some ⟨fs, []⟩ }
      | _ => none

def World.run (w : World) : List WorldEv → Option World
  | [] => some w
  | e :: es => (w.step e).bind fun w => w.run es

/-- The first start: an empty tree with its dumpster, and the checkpoint of `initial_CP`. -/
def Installed (w : World) : Prop :=
  ∃ env fs₀ fs, newTree env = some fs₀ ∧ emptyDumpsterDir env fs₀ = some fs ∧
    w = ⟨some ⟨fs, []⟩, fs, [], [], []⟩

/-- A replay in this step passes over no new chunk id. -/
def World.Counts (w : World) : WorldEv → Prop
  | .compact env n => AllCounted env (w.cp.restored 1) (w.log.take n)
  | .restart env minReplicas => AllCounted env (w.cp.restored minReplicas) w.log
  | _ => True

/-- Every step of the run meets the condition. -/
def World.CountsAll (w : World) : List WorldEv → Prop
  | [] => True
  | e :: es =>
    w.Counts e ∧
      match w.step e with
      | some w' => w'.CountsAll es
      | none => True

instance World.Counts.decide (w : World) (e : WorldEv) : Decidable (w.Counts e) :=
  match e with
  | .serve _ | .flush _ | .crash => isTrue trivial
  | .compact env n => inferInstanceAs (Decidable (AllCounted env (w.cp.restored 1) (w.log.take n)))
  | .restart env minReplicas => inferInstanceAs (Decidable (AllCounted env (w.cp.restored minReplicas) w.log))

instance World.CountsAll.decide : ∀ (es : List WorldEv) (w : World), Decidable (w.CountsAll es)
  | [], _ => isTrue trivial
  | e :: es, w =>
    have : Decidable (match w.step e with
        | some w' => w'.CountsAll es
        | none => True) :=
      match w.step e with
      | some w' => World.CountsAll.decide es w'
      | none => isTrue trivial
    inferInstanceAs (Decidable (_ ∧ _))

/-! ## The invariant -/

theorem mem_restored {minReplicas : ℤ} {cs : List MetaChunkInfo} {l : List Meta} {c : MetaChunkInfo}
    (h : .chunkinfo c ∈ l.map (Meta.restored minReplicas cs)) : .chunkinfo c ∈ l := by
  obtain ⟨x, hx, he⟩ := List.mem_map.mp h
  cases x with
  | dentry d => simp [Meta.restored] at he
  | fattr f => simp [Meta.restored] at he
  | chunkinfo c' =>
    obtain rfl := Meta.chunkinfo.inj he
    exact hx

theorem Seeds.restored (h : Seeds fs) (minReplicas : ℤ) : Seeds (fs.restored minReplicas) :=
  ⟨h.root, fun c hc => h.chunk c (mem_restored hc)⟩

/-- What is on disk is enough to recover the ids, and the ids in memory are not above the seeds. -/
structure World.Sound (w : World) : Prop where
  down : w.live = none → w.buffer = []
  cp : Seeds w.cp
  issued : ∀ r ∈ w.issued, r.Below w.cp ∨ r ∈ w.log
  live : ∀ s, w.live = some s → SysSeeds s ∧ ∀ r ∈ w.issued ++ w.buffer, r.Below s.fs

/-- A replay of the log, or of a part of it. -/
theorem World.Sound.replay (h : w.Sound) {env : Env} {minReplicas : ℤ} {rs : List LogRec}
    (hc : AllCounted env (w.cp.restored minReplicas) rs)
    (hr : redoAll env (w.cp.restored minReplicas) rs = some (true, fs')) :
    Seeds fs' ∧ (∀ r : LogRec, r.Below w.cp → r.Below fs') ∧ ∀ r ∈ rs, r.Below fs' := by
  obtain ⟨h', hl, hb⟩ := redoAll_below (h.cp.restored minReplicas) hc hr
  exact ⟨h', fun r hr => hr.later ⟨hl.fileID, hl.chunkID⟩, hb⟩

theorem World.Sound.step {e : WorldEv} (h : w.Sound) (hc : w.Counts e) (hs : w.step e = some w') :
    w'.Sound := by
  cases e with
  | serve e =>
    unfold World.step at hs
    rcases hl : w.live with - | s
    · simp [hl] at hs
    obtain ⟨hs₀, hb₀⟩ := h.live s hl
    rcases ho : handle e.worm e.env s e.req with - | o
    · obtain rfl : { w with live := none, buffer := [] } = w' := by simpa [hl, ho] using hs
      exact ⟨fun _ => rfl, h.cp, h.issued, by simp⟩
    · obtain rfl : { w with live := some o.sys, buffer := w.buffer ++ o.log } = w' := by
        simpa [hl, ho] using hs
      obtain ⟨h₁, hlater, hlog⟩ := handle_seeds hs₀ (handle_cases ho)
      refine ⟨by simp, h.cp, h.issued, ?_⟩
      intro s' hs'
      obtain rfl := Option.some.inj hs'
      refine ⟨h₁, fun r hr => ?_⟩
      rw [← List.append_assoc] at hr
      rcases List.mem_append.mp hr with hr | hr
      · exact (hb₀ r hr).later hlater
      · exact hlog r hr
  | flush n =>
    obtain rfl := Option.some.inj hs
    refine ⟨fun hl => by simp [h.down hl], h.cp, ?_, ?_⟩
    · intro r hr
      rcases List.mem_append.mp hr with hr | hr
      · exact (h.issued r hr).imp_right fun hm => List.mem_append_left _ hm
      · exact Or.inr (List.mem_append_right _ hr)
    · intro s hl
      obtain ⟨hs₀, hb₀⟩ := h.live s hl
      refine ⟨hs₀, fun r hr => hb₀ r ?_⟩
      rwa [List.append_assoc, List.take_append_drop] at hr
  | crash =>
    obtain rfl := Option.some.inj hs
    exact ⟨fun _ => rfl, h.cp, h.issued, by simp⟩
  | compact env n =>
    simp only [World.step] at hs
    split at hs
    swap
    · cases hs
    rename_i fs' hr
    obtain rfl := Option.some.inj hs
    obtain ⟨h', hold, hnew⟩ := h.replay hc hr
    refine ⟨h.down, h', ?_, h.live⟩
    intro r hm
    rcases h.issued r hm with hb | hm
    · exact Or.inl (hold r hb)
    · rw [← List.take_append_drop n w.log] at hm
      rcases List.mem_append.mp hm with hm | hm
      · exact Or.inl (hnew r hm)
      · exact Or.inr hm
  | restart env minReplicas =>
    simp only [World.step] at hs
    split_ifs at hs with hup
    split at hs
    swap
    · cases hs
    rename_i fs' hr
    obtain rfl := Option.some.inj hs
    obtain ⟨h', hold, hnew⟩ := h.replay hc hr
    have hb : w.buffer = [] := h.down (by simpa using hup)
    refine ⟨by simp, h.cp, h.issued, ?_⟩
    intro s hs
    obtain rfl := Option.some.inj hs
    refine ⟨⟨h', by simp⟩, fun r hm => ?_⟩
    rw [hb, List.append_nil] at hm
    rcases h.issued r hm with hb | hm
    · exact hold r hb
    · exact hnew r hm

theorem World.Sound.run : ∀ {es : List WorldEv} {w : World}, w.Sound → w.CountsAll es →
    w.run es = some w' → w'.Sound
  | [], w, h, _, hr => by
    obtain rfl : w = w' := by simpa [World.run] using hr
    exact h
  | e :: es, w, h, ⟨hc, hcs⟩, hr => by
    obtain ⟨w₁, hs, hr⟩ := Option.bind_eq_some_iff.mp hr
    simp only [hs] at hcs
    exact (h.step hc hs).run hcs hr

theorem Installed.sound (h : Installed w) : w.Sound := by
  obtain ⟨env, fs₀, fs, hn, he, rfl⟩ := h
  have h₀ : Seeds fs₀ := by
    rw [newTree_eq] at hn
    obtain rfl := Option.some.inj hn
    exact ⟨show (0 : ℤ) ≤ ROOTFID by decide, fun c hc => by simp [rootLeaves] at hc⟩
  obtain ⟨h₁, -⟩ := h₀.edits (emptyDumpsterDir_edits he) (emptyDumpsterDir_grows he)
  refine ⟨by simp, h₁, by simp, ?_⟩
  intro s hs
  obtain rfl := Option.some.inj hs
  exact ⟨⟨h₁, by simp⟩, by simp⟩

/-- The file ids that `genid` hands out while the server handles `e`: the seed moves over them. -/
def newFids (s : Sys) (e : Event) : Set ℤ :=
  {x | ∃ o, handle e.worm e.env s e.req = some o ∧ s.fs.fileID < x ∧ x ≤ o.sys.fs.fileID}

/-- The chunk ids that `genid` hands out while the server handles `e`. -/
def newChunkIds (s : Sys) (e : Event) : Set ℤ :=
  {x | ∃ o, handle e.worm e.env s e.req = some o ∧ s.fs.chunkID < x ∧ x ≤ o.sys.fs.chunkID}

/-- **An id in a logged record is not handed out again**, in any run in which no recovery and no compaction
passes over an allocation record with a new chunk id. -/
theorem logged_ids_not_reissued {w₀ : World} {es : List WorldEv} (h₀ : Installed w₀) (hc : w₀.CountsAll es)
    (hr : w₀.run es = some w) (hl : w.live = some s) (e : Event) :
    ∀ r ∈ w.issued, (∀ fid, r.newFid = some fid → fid ∉ newFids s e) ∧
      ∀ cid, r.newChunk = some cid → cid ∉ newChunkIds s e := by
  obtain ⟨-, hb⟩ := (h₀.sound.run hc hr).live s hl
  intro r hm
  have hbelow := hb r (List.mem_append_left _ hm)
  refine ⟨?_, ?_⟩
  · rintro fid hf ⟨o, -, hlt, -⟩
    exact absurd (hbelow.fid fid hf) (not_le.mpr hlt)
  · rintro cid hcid ⟨o, -, hlt, -⟩
    exact absurd (hbelow.chunk cid hcid) (not_le.mpr hlt)

/-- The tree of the first start. -/
def firstTree : Option Fs := (newTree idleEnv).bind (emptyDumpsterDir idleEnv)

theorem installed_firstTree {fs : Fs} (h : firstTree = some fs) :
    Installed ⟨some ⟨fs, []⟩, fs, [], [], []⟩ := by
  obtain ⟨fs₀, hn, he⟩ := Option.bind_eq_some_iff.mp h
  exact ⟨idleEnv, fs₀, fs, hn, he, rfl⟩

/-- A file with a chunk, a compaction, a second chunk, a crash and a restart. -/
def recoverRun : List WorldEv :=
  [.serve (idle (.create ROOTFID ['f'] 1 true)), .serve (idle (.allocate 4 0 .valid true)),
    .serve (idle (.layoutDone 0 true)), .flush 2, .compact idleEnv 1,
    .serve (idle (.allocate 4 CHUNKSIZE .valid true)), .serve (idle (.layoutDone 0 true)), .flush 1, .crash,
    .restart idleEnv 1]

theorem recoverRun_not_reissued : ∃ w₀ w s, Installed w₀ ∧ w₀.run recoverRun = some w ∧ w.live = some s ∧
    w.issued.length = 3 ∧ ∀ e, ∀ r ∈ w.issued, ∀ cid, r.newChunk = some cid → cid ∉ newChunkIds s e := by
  have hx : (firstTree.bind fun fs =>
      let w₀ : World := ⟨some ⟨fs, []⟩, fs, [], [], []⟩
      if w₀.CountsAll recoverRun then
        (w₀.run recoverRun).bind fun w => w.live.map fun _ => w.issued.length
      else none) = some 3 := by decide +kernel
  obtain ⟨fs, hfs, hx⟩ := Option.bind_eq_some_iff.mp hx
  dsimp only at hx
  split_ifs at hx with hc
  obtain ⟨w, hw, hx⟩ := Option.bind_eq_some_iff.mp hx
  obtain ⟨s, hs, hlen⟩ := Option.map_eq_some_iff.mp hx
  refine ⟨_, w, s, installed_firstTree hfs, hw, hs, hlen, ?_⟩
  intro e r hr
  exact (logged_ids_not_reissued (installed_firstTree hfs) hc hw hs e r hr).2

/-- A file is removed while its first chunk is leased and its second one is being allocated. The removal
is replayed before the allocation, which is then passed over. -/
def busyRun : List WorldEv :=
  [.serve (idle (.create ROOTFID ['f'] 1 true)), .serve (idle (.allocate 4 0 .valid true)),
    .serve (idle (.layoutDone 0 true)), .serve (idle (.allocate 4 CHUNKSIZE .valid true)),
    .serve ⟨false, ⟨⟨0, 0⟩, fun _ => true⟩, .remove ROOTFID ['f']⟩, .serve (idle (.layoutDone 0 true)),
    .flush 4, .crash, .restart idleEnv 1, .serve (idle (.create ROOTFID ['g'] 1 true))]

/-- The chunk id of the second allocation is given to a chunk of another file after the restart. -/
theorem busyRun_reissued : ∃ w₀ w s, Installed w₀ ∧ w₀.run busyRun = some w ∧ w.live = some s ∧
    ∃ r ∈ w.issued, ∃ cid, r.newChunk = some cid ∧ cid ∈ newChunkIds s (idle (.allocate 5 0 .valid true)) := by
  have hx : (firstTree.bind fun fs =>
      (World.run ⟨some ⟨fs, []⟩, fs, [], [], []⟩ busyRun).bind fun w => w.live.bind fun s =>
        (handle false idleEnv s (.allocate 5 0 .valid true)).map fun o =>
          (w.issued.map LogRec.newChunk, s.fs.chunkID, o.sys.fs.chunkID)) =
      some ([none, some 3, none, some 4], 3, 4) := by decide +kernel
  obtain ⟨fs, hfs, hx⟩ := Option.bind_eq_some_iff.mp hx
  obtain ⟨w, hw, hx⟩ := Option.bind_eq_some_iff.mp hx
  obtain ⟨s, hs, hx⟩ := Option.bind_eq_some_iff.mp hx
  obtain ⟨o, ho, hx⟩ := Option.map_eq_some_iff.mp hx
  simp only [Prod.mk.injEq] at hx
  obtain ⟨hids, h₁, h₂⟩ := hx
  have hmem : some 4 ∈ w.issued.map LogRec.newChunk := by simp [hids]
  obtain ⟨r, hr, hc⟩ := List.mem_map.mp hmem
  exact ⟨_, w, s, installed_firstTree hfs, hw, hs, r, hr, 4, hc, o, ho, by omega, by omega⟩

end Kfs
